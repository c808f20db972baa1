import Gnldev.Lib.Exceptions
import Gnldev.Lib.JsString

/-!
# Steps with side effects

A step whose body must not fire twice writes a *claim* before it runs
(`workflow.ts`, `runSideEffectStep`). A worker that finds a claim without an output
cannot tell by itself whether the body has fired: it waits until the claim is old
enough, or stamped as failed, asks the outside world (`recover`), and adopts the claim
by a conditional write.

* `runStep`: a worker at a step with side effects;
* `stepMachine`: any number of workers, resumes included, at one step of one run.
-/

namespace Gnldev.Workflow

/-- The claim of a step (`StepClaimRecord`). -/
structure StepClaimRecord where
  startedAt : Int
  /-- The attempt was suspended. -/
  released : Bool
  /-- The attempt has thrown. -/
  failed : Bool
  deriving DecidableEq

def DEFAULT_CLAIM_TTL_MS : Int := 60000

/-- What a step declares, and how strict its run is. -/
structure StepDurability where
  recover : Bool
  claimTtlMs : Option Int
  strictSideEffects : Bool

def StepDurability.ttl (d : StepDurability) : Int := d.claimTtlMs.getD DEFAULT_CLAIM_TTL_MS

/-- What a step throws. -/
inductive StepError where
  /-- `StepRetryBlockedError` -/
  | inFlight
  | unresolved
  /-- The run is strict, and the step has no `recover`. -/
  | strict
  /-- `recover` has answered something else. -/
  | malformed
  /-- `WorkflowSuspended` -/
  | suspended (waitId : JsString)
  | thrown (message : JsString)
  deriving DecidableEq

variable {V : Type}

/-- What `recover` answers. An output `none` is `undefined`. -/
inductive Recovery (V : Type) where
  | done (output : Option V)
  | notDone
  | malformed

/-- What a worker does, at one step: on the output and the claim of the step's key, and
    outside. -/
inductive StepOp (V : Type) where
  | get
  /-- Record an output, unless there is one. -/
  | claimOutput (output : Option V)
  | getClaim
  | claim (record : StepClaimRecord)
  /-- Replace a claim, to adopt it. -/
  | adopt (cur next : StepClaimRecord)
  /-- Replace its own claim by what is known of the attempt. -/
  | stamp (mine next : StepClaimRecord)
  | now
  /-- Ask about the claim `cur`, which has been read at the time `at_`. -/
  | recover (cur : StepClaimRecord) (at_ : Int)
  /-- The body is called, and ends. -/
  | start
  | finish

/-- The answers; every operation can throw. -/
abbrev StepOp.Ans : StepOp V → Type
  | get => Option V
  | claimOutput _ => Bool
  | getClaim => Option StepClaimRecord
  | claim _ => Bool
  | adopt _ _ => Bool
  | stamp _ _ => Bool
  | now => Int
  | recover _ _ => Recovery V
  | start => Unit
  | finish => Option V

abbrev StepOp.Res (o : StepOp V) : Type := Except StepError o.Ans

/-- The programs of a worker. -/
abbrev SM (V : Type) := ExceptT StepError (Prog (StepOp V) StepOp.Res)

def await_ (o : StepOp V) : SM V o.Ans := ExceptT.mk (Prog.perform o)

/-! ## The step -/

/-- Record an output; who loses returns what has been recorded. -/
def settle (out : Option V) : SM V (Option V) := do
  if ← await_ (.claimOutput out) then return out
  else
    let winner ← await_ .get
    return winner.or out

/-- Adopt a claim, unless another worker has. -/
def adoptClaim (cur next : StepClaimRecord) : SM V Unit := do
  if ← await_ (.adopt cur next) then return () else throw .inFlight

/-- What is known of an attempt that has thrown. -/
def StepClaimRecord.stampOf (mine : StepClaimRecord) : StepError → StepClaimRecord
  | .suspended _ => { mine with released := true }
  | _ => { mine with failed := true }

/-- Run the body under the claim `mine`. -/
def runBody (mine : StepClaimRecord) : SM V (Option V) :=
  tryCatch
    (do
      await_ .start
      let out ← await_ .finish
      settle out)
    fun e => do
      tryCatch (do let _ ← await_ (.stamp mine (mine.stampOf e))) fun _ => return ()
      throw e

/-- Run the body, unless there is an output by now. -/
def runUnlessLanded (mine : StepClaimRecord) : SM V (Option V) := do
  match ← await_ .get with
  | some landed => return some landed
  | none => runBody mine

namespace StepDurability

variable (d : StepDurability)

/-- A claim that is in doubt: ask first. -/
def resolve (cur : StepClaimRecord) (at_ : Int) : SM V (Option V) := do
  if !d.recover then throw .unresolved
  match ← await_ (.recover cur at_) with
  | .malformed => throw .malformed
  | .done output => settle output
  | .notDone =>
    adoptClaim cur ⟨at_, false, false⟩
    runUnlessLanded ⟨at_, false, false⟩

/-- There is a claim already: of a crash, a suspension or another worker. -/
def takeOver : SM V (Option V) := do
  match ← await_ .get with
  | some done => return some done
  | none =>
    let cur ← await_ .getClaim
    let at_ ← await_ .now
    match cur with
    | none =>
      if ← await_ (.claim ⟨at_, false, false⟩) then runBody ⟨at_, false, false⟩
      else throw .inFlight
    | some cur =>
      if cur.released then
        adoptClaim cur ⟨at_, false, false⟩
        runUnlessLanded ⟨at_, false, false⟩
      else if !cur.failed ∧ at_ - cur.startedAt < d.ttl then throw .inFlight
      else d.resolve cur at_

/-- A step with side effects. -/
def runSideEffectStep : SM V (Option V) := do
  if d.strictSideEffects && !d.recover then throw .strict
  let startedAt ← await_ .now
  if ← await_ (.claim ⟨startedAt, false, false⟩) then runBody ⟨startedAt, false, false⟩
  else d.takeOver

/-- A worker at the step. -/
def runStep : SM V (Option V) := do
  match ← await_ .get with
  | some cached => return some cached
  | none => d.runSideEffectStep

end StepDurability

/-! ## Workers -/

/-- What happens at the step, as a history. -/
inductive StepEvent (V : Type) where
  /-- The worker `i` has made the first claim. -/
  | claimed (i : ℕ) (startedAt : Int)
  | adopted (i : ℕ) (cur : StepClaimRecord) (startedAt : Int)
  | invoked (i : ℕ)
  /-- The body has ended, or could not be called. -/
  | ended (i : ℕ) (outcome : Except StepError (Option V))
  /-- The worker's claim is stamped, if it is still the worker's. -/
  | stamped (i : ℕ) (record : StepClaimRecord)
  /-- `recover` has answered the worker that the effect of `cur`, read at `at_`, is not there. -/
  | notDone (i : ℕ) (cur : StepClaimRecord) (at_ : Int)
  deriving DecidableEq

/-- The output (`some none` is a recorded `undefined`) and the claim of the step, and what
    has happened, the latest first. -/
structure StepWorld (V : Type) where
  output : Option (Option V)
  claim : Option StepClaimRecord
  trace : List (StepEvent V)

/-- What the code outside answers. An operation that throws may have had its effect. -/
structure StepAnswer (V : Type) where
  now : Int
  recovery : Recovery V
  output : Except StepError (Option V)
  fault : Option JsString
  applied : Bool

/-- The effect of an operation of the worker `i`. -/
def stepExec (i : ℕ) (a : StepAnswer V) : (o : StepOp V) → StepWorld V → o.Ans × StepWorld V
  | .get, w => (w.output.join, w)
  | .claimOutput out, w =>
    if w.output = none then (true, { w with output := some out }) else (false, w)
  | .getClaim, w => (w.claim, w)
  | .claim r, w =>
    if w.claim = none then
      (true, { w with claim := some r, trace := .claimed i r.startedAt :: w.trace })
    else (false, w)
  | .adopt cur next, w =>
    if w.claim = some cur then
      (true, { w with claim := some next, trace := .adopted i cur next.startedAt :: w.trace })
    else (false, w)
  | .stamp mine next, w =>
    if w.claim = some mine then
      (true, { w with claim := some next, trace := .stamped i next :: w.trace })
    else (false, w)
  | .now, w => (a.now, w)
  | .recover cur at_, w =>
    (a.recovery, match a.recovery with
      | .notDone => { w with trace := .notDone i cur at_ :: w.trace }
      | _ => w)
  | .start, w => ((), { w with trace := .invoked i :: w.trace })
  | .finish, w => (none, w)

/-- A journal whose operations are atomic. Clocks are those of the workers, and may be
    anything. -/
def stepMachine : Machine (StepOp V) StepOp.Res (StepWorld V) (StepAnswer V) Unit where
  exec i a o w :=
    match o, a.fault with
    | .start, _ => (.ok (), (stepExec i a .start w).2)
    | .finish, _ => (a.output, { w with trace := .ended i a.output :: w.trace })
    | o, none => (.ok (stepExec i a o w).1, (stepExec i a o w).2)
    | o, some e => (.error (.thrown e), if a.applied then (stepExec i a o w).2 else w)
  env _ w := w

/-- Workers at the step, before any of them. -/
def stepStart (d : StepDurability) :
    Conf (StepOp V) StepOp.Res (Except StepError (Option V)) (StepWorld V) :=
  ⟨⟨none, none, []⟩, fun _ => d.runStep.run⟩

end Gnldev.Workflow
