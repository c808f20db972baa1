import Gnldev.Lib.Exceptions
import Gnldev.Lib.JsString

/-!
# A model step

A model step calls the provider and journals the response, from which a later attempt replays it
(`durable-model.ts`). Before the call a claim is written. With `exclusiveStep` it is won atomically,
and who finds the claim of another attempt, running and fresh, throws `RunBusyError`; any other claim
is replaced (`acquireModelClaim`).

* `wrapGenerate`, `wrapStream`: the step, whose response is one value or a stream of parts;
* `modelMachine`: any number of attempts at one step.
-/

namespace Gnldev.Durable

/-- A part of a streamed response. -/
inductive RecordedPart (P : Type) where
  | toolCall (p : P)
  | finish (p : P)
  | other (p : P)
  /-- The finish of a record that was cut off: its reason is tool calls, or a stop. -/
  | cutOff (toolCalls : Bool)
  deriving DecidableEq

/-- The record of a step, from `wrapGenerate` or from `wrapStream`. -/
inductive StepRecord (R P : Type) where
  | generated (result : R)
  | streamed (parts : List (RecordedPart P)) (rest : R) (cut : Bool)
  deriving DecidableEq

/-- What an attempt returns. -/
inductive StepResult (R P : Type) where
  | generated (result : R)
  | streamed (parts : List (RecordedPart P)) (rest : R)
  deriving DecidableEq

inductive ClaimStatus where
  | running | succeeded | failed
  deriving DecidableEq

structure ModelClaimRecord where
  status : ClaimStatus
  startedAt : Int
  reqHash : Option JsString
  deriving DecidableEq

inductive ModelError where
  /-- `RunCanceledError`. -/
  | canceled
  /-- `RunBusyError`, with the age of the claim. -/
  | busy (age ttlMs : Int)
  /-- The record is of the other entry point. -/
  | entryPoint
  | failure (message : JsString)
  deriving DecidableEq

inductive EntryPoint where
  | generate | stream
  deriving DecidableEq

/-- An attempt at the step. -/
structure ModelCall where
  entry : EntryPoint
  /-- `ttlMs` of `exclusiveStep`, if that is set. -/
  exclusive : Option Int
  reqHash : Option JsString
  /-- The run had entries when the attempt began. -/
  resumed : Bool
  /-- `replay` is `strict`. -/
  strict : Bool
  limits : Bool

section Records

variable {R P : Type}

namespace RecordedPart

def isToolCall : RecordedPart P → Bool
  | toolCall _ => true
  | _ => false

def isFinish : RecordedPart P → Bool
  | finish _ | cutOff _ => true
  | _ => false

end RecordedPart

namespace StepRecord

/-- The record is not one that was cut off. -/
def complete : StepRecord R P → Bool
  | generated _ => true
  | streamed _ _ cut => !cut

def entry : StepRecord R P → EntryPoint
  | generated _ => .generate
  | streamed .. => .stream

/-- What is replayed. A record that was cut off is given a finish. -/
def replay : StepRecord R P → StepResult R P
  | generated result => .generated result
  | streamed parts rest cut =>
    if cut ∧ ¬parts.any (·.isFinish) then
      .streamed (parts ++ [.cutOff (parts.any (·.isToolCall))]) rest
    else .streamed parts rest

end StepRecord

/-! ## The step -/

/-- An operation: on the record of the step, on its claim, or outside. -/
inductive ModelOp (R P : Type) where
  /-- The records of the run, when the attempt begins. -/
  | readRun
  | get
  | put (record : StepRecord R P)
  /-- `assertNotCanceled` reads the flag. -/
  | getFlag
  /-- The clock of the journal. -/
  | now
  /-- The clock of the process. -/
  | dateNow
  | claim (record : ModelClaimRecord)
  | getClaim
  | putClaim (record : ModelClaimRecord)
  /-- The provider is called, and answers. -/
  | call
  | generated
  | opened
  /-- The next part of the stream arrives. -/
  | arrive
  | putCheckpoint (record : StepRecord R P)
  | limits
  deriving DecidableEq

namespace ModelOp

variable (R P : Type)

/-- The answers. -/
abbrev Ans : ModelOp R P → Type
  | readRun => Option (StepRecord R P)
  | get => Option (StepRecord R P)
  | put _ => Unit
  | getFlag => Bool
  | now => Int
  | dateNow => Int
  | claim _ => Bool
  | getClaim => Option ModelClaimRecord
  | putClaim _ => Unit
  | call => Unit
  | generated => R
  | opened => List (RecordedPart P) × R
  | arrive => Unit
  | putCheckpoint _ => Unit
  | limits => Unit

abbrev Res (o : ModelOp R P) : Type := Except ModelError (o.Ans R P)

end ModelOp

/-- The programs of the attempts. -/
abbrev ModelM (R P : Type) := ExceptT ModelError (Prog (ModelOp R P) (ModelOp.Res R P))

def performModel (o : ModelOp R P) : ModelM R P (o.Ans R P) := ExceptT.mk (Prog.perform o)

/-- The claim is a running one, and its age at `now` is less than `ttlMs`. -/
def ModelClaimRecord.fresh (claim : ModelClaimRecord) (now ttlMs : Int) : Bool :=
  claim.status = .running ∧ now - claim.startedAt < ttlMs

namespace ModelCall

variable (c : ModelCall)

/-- From the cache if the record is there, or from the journal. -/
def ctxGet (replayCache : Option (StepRecord R P)) : ModelM R P (Option (StepRecord R P)) :=
  match replayCache with
  | some v => return some v
  | none => performModel .get

/-- The claim of the attempt. -/
def claimRecord (status : ClaimStatus) (startedAt : Int) : ModelClaimRecord :=
  ⟨status, startedAt, c.reqHash⟩

def acquireModelClaim : ModelM R P Unit :=
  match c.exclusive with
  | none => do
    performModel (.putClaim (c.claimRecord .running (← performModel .dateNow)))
  | some ttlMs => do
    let now ← performModel .now
    if ← performModel (.claim (c.claimRecord .running now)) then return ()
    match ← performModel .getClaim with
    | some existing =>
      if existing.fresh now ttlMs then throw (.busy (now - existing.startedAt) ttlMs)
      performModel (.putClaim (c.claimRecord .running now))
    | none => performModel (.putClaim (c.claimRecord .running now))

def enforceStepLimits : ModelM R P Unit :=
  if c.limits then performModel .limits else return ()

/-- The claim is marked with the outcome. -/
def settle (status : ClaimStatus) : ModelM R P Unit := do
  performModel (.putClaim (c.claimRecord status (← performModel .dateNow)))

/-- Read from the journal; the request is compared with that of the claim, for a warning. -/
def replay (hit : StepRecord R P) : ModelM R P (StepResult R P) := do
  if hit.entry ≠ c.entry then throw .entryPoint
  if c.strict then
    let _ ← performModel .getClaim
  c.enforceStepLimits
  return hit.replay

def assertNotCanceled : ModelM R P Unit := do
  if ← performModel .getFlag then throw .canceled

def wrapGenerate (replayCache : Option (StepRecord R P)) : ModelM R P (StepResult R P) := do
  match ← ctxGet replayCache with
  | some hit => c.replay hit
  | none =>
    assertNotCanceled
    c.acquireModelClaim
    let result ← tryCatch
      (do
        performModel .call
        let result ← performModel .generated
        performModel (.put (.generated result))
        c.settle .succeeded
        return result)
      fun e => do
        c.settle .failed
        throw e
    c.enforceStepLimits
    return .generated result

/-- The parts are recorded as they arrive: up to a tool call, every tenth time to a checkpoint, and
    all of them at the end. -/
def recorder (rest : R) (parts : List (RecordedPart P)) : List (RecordedPart P) → ModelM R P Unit
  | [] => do
    performModel (.put (.streamed parts rest false))
    c.settle .succeeded
    c.enforceStepLimits
  | chunk :: chunks => do
    performModel .arrive
    let parts := parts ++ [chunk]
    if chunk.isToolCall then
      tryCatch (performModel (.put (.streamed parts rest true))) fun _ => return ()
    else if parts.length % 10 = 0 then
      tryCatch (performModel (.putCheckpoint (.streamed parts rest true))) fun _ => return ()
    recorder rest parts chunks

def wrapStream (replayCache : Option (StepRecord R P)) : ModelM R P (StepResult R P) := do
  match ← ctxGet replayCache with
  | some hit => c.replay hit
  | none =>
    assertNotCanceled
    c.acquireModelClaim
    let (parts, rest) ← tryCatch
      (do
        performModel .call
        performModel .opened)
      fun e => do
        c.settle .failed
        throw e
    c.recorder rest [] parts
    return .streamed parts rest

/-- The attempt, with what it has read when it began. -/
def attempt : ModelM R P (StepResult R P) := do
  let replayCache ← if c.resumed then performModel .readRun else pure none
  match c.entry with
  | .generate => c.wrapGenerate replayCache
  | .stream => c.wrapStream replayCache

def prog : Prog (ModelOp R P) (ModelOp.Res R P) (Except ModelError (StepResult R P)) := c.attempt.run

end ModelCall

/-! ## Together -/

/-- What happens to a step, as a history. -/
inductive ModelEvent (R P : Type) where
  /-- The attempt has won the claim. -/
  | claimed (i : ℕ) (mine : ModelClaimRecord)
  /-- The attempt has lost the claim that it wanted to write, and has read another one. -/
  | lost (i : ℕ) (mine : ModelClaimRecord)
  | looked (i : ℕ) (existing : Option ModelClaimRecord)
  /-- The attempt has replaced the claim by its own. -/
  | replaced (i : ℕ) (mine : ModelClaimRecord)
  | called (i : ℕ)
  | recorded (i : ℕ) (record : StepRecord R P)
  deriving DecidableEq

/-- The clock of the journal, the record of the step and its claim, and what has happened, the
    latest first. -/
structure ModelWorld (R P : Type) where
  clock : Int
  record : Option (StepRecord R P)
  claim : Option ModelClaimRecord
  flag : Bool
  trace : List (ModelEvent R P)

/-- What is outside: the answers of the provider, the clock of the process, and whether an operation
    throws, with or without effect. -/
structure ModelAnswer (R P : Type) where
  result : R
  parts : List (RecordedPart P)
  date : Int
  fault : Option ModelError
  applied : Bool

namespace ModelOp

/-- It takes effect, or not, when the journal throws. -/
def writes : ModelOp R P → Bool
  | put _ | claim _ | putClaim _ => true
  | _ => false

/-- It always returns. -/
def safe : ModelOp R P → Bool
  | dateNow | call => true
  | _ => false

end ModelOp

namespace ModelWorld

variable (w : ModelWorld R P) (i : ℕ)

/-- What an operation of the attempt `i` answers, and does. -/
def perform (a : ModelAnswer R P) : (o : ModelOp R P) → o.Ans R P × ModelWorld R P
  | .readRun => (w.record, w)
  | .get => (w.record, w)
  | .put record => ((), { w with record := some record, trace := .recorded i record :: w.trace })
  | .getFlag => (w.flag, w)
  | .now => (w.clock, w)
  | .dateNow => (a.date, w)
  | .claim mine =>
    if w.claim = none then (true, { w with claim := some mine, trace := .claimed i mine :: w.trace })
    else (false, { w with trace := .lost i mine :: w.trace })
  | .getClaim => (w.claim, { w with trace := .looked i w.claim :: w.trace })
  | .putClaim mine =>
    ((), { w with
      claim := some mine
      trace := if mine.status = .running then .replaced i mine :: w.trace else w.trace })
  | .call => ((), { w with trace := .called i :: w.trace })
  | .generated => (a.result, w)
  | .opened => ((a.parts, a.result), w)
  | .arrive => ((), w)
  | .putCheckpoint _ => ((), w)
  | .limits => ((), w)

end ModelWorld

/-- How the world moves by itself: time passes, or the run is canceled. -/
inductive ModelEnv where
  | later (ms : ℕ)
  | cancel

/-- The journal and the provider. -/
def modelMachine : Machine (ModelOp R P) (ModelOp.Res R P) (ModelWorld R P)
    (ModelAnswer R P) ModelEnv where
  exec i a o w :=
    match a.fault with
    | some e =>
      if o.safe then (.ok (w.perform i a o).1, (w.perform i a o).2)
      else (.error e, if a.applied ∧ o.writes then (w.perform i a o).2 else w)
    | none => (.ok (w.perform i a o).1, (w.perform i a o).2)
  env e w :=
    match e with
    | .later ms => { w with clock := w.clock + ms }
    | .cancel => { w with flag := true }

/-- The attempts before any of them, on a step that has not been made. -/
def modelStart (t : Int) (calls : ℕ → ModelCall) :
    Conf (ModelOp R P) (ModelOp.Res R P) (Except ModelError (StepResult R P)) (ModelWorld R P) :=
  ⟨⟨t, none, none, false, []⟩, fun i => (calls i).prog⟩

end Records

end Gnldev.Durable
