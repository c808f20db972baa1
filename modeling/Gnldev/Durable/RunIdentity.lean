import Gnldev.Durable.Fork
import Gnldev.Durable.ThreadOwner

/-!
# Whose a run is

A run is born with the record of its owner (`run-identity.ts`), and whoever enters it later acts for
that owner. A birth claims the record, and is held to what it reads back. An agent's birth writes its
frozen input over it (`run.ts`); a fork claims it for the owner of its source, and copies the source's
input over it at last (`time-travel.ts`).

* `runOwnerOf`, `actingCaller`: the one reading, and the one rule;
* `admitRun`, `agentRun`, `inheritRunOwner`, `forkIdentity`: who is born, and how;
* `identityMachine`: any number of them, on one journal.
-/

namespace Gnldev.Durable

/-! ## Records -/

inductive BirthKind where
  | workflow | network | batch
  deriving DecidableEq

/-- What a birth writes besides the owner. -/
structure BirthFields where
  born : Option BirthKind
  /-- There is a prompt, or messages. -/
  asked : Bool
  system : Bool
  deriving DecidableEq

/-- The record of the owner: the input of the run. -/
structure OwnerRecord extends BirthFields where
  /-- The journal has stamped it. -/
  versioned : Bool
  resourceId : Option JsString
  orgId : Option JsString
  ownerKind : Option OwnerKind
  deriving DecidableEq

def STAFF : Caller := .staff none

/-- Whose the record says that the run is. Only a stamped record names a user. -/
def recordOwner (r : OwnerRecord) : Caller :=
  if !r.versioned then STAFF
  else match namedUser r.resourceId with
    | some id => .user id.1 r.orgId
    | none => if r.ownerKind = some .unknown then .unknown else .staff r.orgId

/-- The stamped record of a birth, with the fields of its owner. -/
def stampOwner (fields : BirthFields) : Caller → OwnerRecord
  | .user id orgId => ⟨fields, true, some id, orgId, none⟩
  | .staff orgId => ⟨fields, true, none, orgId, some .staff⟩
  | .unknown => ⟨fields, true, none, none, some .unknown⟩

/-- A user has a name. -/
def Caller.Named : Caller → Prop
  | user id _ => id ≠ []
  | _ => True

theorem recordOwner_named (r : OwnerRecord) : (recordOwner r).Named := by
  rw [recordOwner]
  split
  · trivial
  · split
    · next id _ => exact id.2
    · split <;> trivial

theorem recordOwner_stampOwner {fields : BirthFields} {c : Caller} (h : c.Named) :
    recordOwner (stampOwner fields c) = c := by
  rcases c with ⟨id, orgId⟩ | orgId | _
  · simp [recordOwner, stampOwner, namedUser, show id ≠ [] from h]
  · rfl
  · rfl

/-- The answer to whose a run is. -/
inductive RunOwner where
  | missing
  /-- Without a record, the rows say that there is a run. -/
  | owned (owner : Caller) (record : Option OwnerRecord)
  deriving DecidableEq

def RunOwner.record : RunOwner → Option OwnerRecord
  | missing => none
  | owned _ record => record

inductive RunDecision where
  | allow | deny | missing
  deriving DecidableEq

/-- The access rule. -/
def decideRunAccess : RunOwner → Caller → RunDecision
  | .missing, _ => .missing
  | .owned _ _, .staff _ => .allow
  | .owned owner _, .unknown => if owner = .unknown then .allow else .deny
  | .owned (.user owner _) _, .user id _ => if owner = id then .allow else .deny
  | .owned _ _, .user _ _ => .deny

/-! ## The operations -/

inductive IdentityError where
  /-- `RunOwnerMismatchError`. -/
  | mismatch (runId owner requested : JsString)
  | typeError
  /-- There is no source to derive from. -/
  | missing (srcRunId dstRunId : JsString)
  /-- `NotAnAgentRunError`. -/
  | notAnAgentRun (runId : JsString)
  | fork (e : ForkError)
  | failure (message : JsString)
  deriving DecidableEq

def ownerLabel : Caller → JsString
  | .user id _ => id
  | .staff _ => js "(staff)"
  | .unknown => js "(unknown)"

section Operations

variable {I V : Type}

/-- An operation on the journal, or of the code around. -/
inductive IdentityOp (I V : Type) where
  | getInput (runId : JsString)
  /-- Whether there is a row of the run, bookkeeping apart. -/
  | rowsPresent (runId : JsString)
  | claim (runId : JsString) (record : OwnerRecord)
  | putInput (runId : JsString) (record : OwnerRecord)
  | putRow (runId key : JsString) (value : RunValue I V)
  | readRun (runId : JsString)
  /-- The outcome of a run that begins to act, for this caller. -/
  | runStarted (runId : JsString) (caller : Caller)
  /-- `admitThreadRun`. -/
  | admitThread (caller : Caller)
  /-- The other gates of an agent's run, and what is prepared for it. -/
  | gate
  | compensated (runId : JsString)
  | namespaceTaken (runId : JsString)
  | now

/-- The answers. -/
abbrev IdentityOp.Ans : IdentityOp I V → Type
  | getInput _ => Option OwnerRecord
  | rowsPresent _ => Bool
  | claim _ _ => Bool
  | putInput _ _ => Unit
  | putRow _ _ _ => Unit
  | readRun _ => List (RunEntry I V)
  | runStarted _ _ => Unit
  | admitThread _ => ThreadOwnership
  | gate => Unit
  | compensated _ => Bool
  | namespaceTaken _ => Bool
  | now => ℕ

abbrev IdentityOp.Res (o : IdentityOp I V) : Type := Except IdentityError o.Ans

/-- The programs of births. -/
abbrev IdentityM (I V : Type) := ExceptT IdentityError (Prog (IdentityOp I V) IdentityOp.Res)

def performIdentity (o : IdentityOp I V) : IdentityM I V o.Ans := ExceptT.mk (Prog.perform o)

/-! ## Owners -/

/-- A caller without its placement: a user has an id. -/
def callerOf : Caller → IdentityM I V Caller
  | .user id orgId => if id = [] then throw .typeError else return .user id orgId
  | c => return c

/-- Does this run exist, and whose is it? The record is read again if there are rows without one.
    Every caller throws the error of a run that is unreadable. -/
def runOwnerOf (runId : JsString) : IdentityM I V RunOwner := do
  match ← performIdentity (.getInput runId) with
  | some rec => return .owned (recordOwner rec) (some rec)
  | none =>
    if ← performIdentity (.rowsPresent runId) then
      match ← performIdentity (.getInput runId) with
      | some born => return .owned (recordOwner born) (some born)
      | none => return .owned STAFF none
    else return .missing

/-- Who a run acts for, if the caller may act on it. -/
def actingCaller (owner : RunOwner) (caller : Caller) : IdentityM I V (Option Caller) :=
  match owner, decideRunAccess owner caller with
  | _, .missing => some <$> callerOf caller
  | .owned o _, .allow => return some o
  | _, _ => return none

/-- The start of every birth: the first record wins, and the owner is whom it then names. -/
def claimRunOwner (runId : JsString) (caller : Caller) (fields : BirthFields) :
    IdentityM I V Caller := do
  let _ ← performIdentity (.claim runId (stampOwner fields caller))
  match ← performIdentity (.getInput runId) with
  | some rec => return recordOwner rec
  | none => callerOf caller

/-- A run that is born from another belongs to the owner of that. -/
def inheritOwner (srcRunId dstRunId : JsString) (fields : BirthFields) : IdentityM I V Caller := do
  match ← runOwnerOf srcRunId with
  | .missing => throw (.missing srcRunId dstRunId)
  | .owned owner _ => claimRunOwner dstRunId owner fields

/-- The entry of a run. With `birth`, a run that is missing is born. -/
def admitRun (runId : JsString) (caller : Caller) (birth : Option BirthFields) :
    IdentityM I V (Caller × RunOwner) := do
  let owner ← runOwnerOf runId
  match owner, ← actingCaller owner caller, birth with
  | .owned o _, none, _ => throw (.mismatch runId (ownerLabel o) (ownerLabel caller))
  | .missing, none, _ => throw (.mismatch runId (ownerLabel .unknown) (ownerLabel caller))
  | .missing, some acting, some fields =>
    let recorded ← claimRunOwner runId acting fields
    match ← actingCaller (.owned recorded none) caller with
    | none => throw (.mismatch runId (ownerLabel recorded) (ownerLabel caller))
    | some again => return (again, .owned recorded none)
  | _, some acting, _ => return (acting, owner)

/-! ## Agents -/

/-- The call of an agent. -/
structure AgentArgs where
  runId : JsString
  caller : Caller
  /-- It is on a thread. -/
  thread : Bool
  asked : Bool
  system : Bool
  deriving DecidableEq

/-- A record that is the name tag of another kind of run. -/
def identityOnlyInput (record : Option OwnerRecord) : Bool :=
  record.any fun r => r.born.isSome && !r.asked && !r.system

/-- The owner, who the run acts for, and the refusal, which is thrown later. -/
def enterAgentRun (runId : JsString) (caller : Caller) :
    IdentityM I V (RunOwner × Caller × Option IdentityError) := do
  let owner ← runOwnerOf runId
  let declared ← callerOf caller
  match ← actingCaller owner declared, owner with
  | some acting, _ => return (owner, acting, none)
  | none, .owned o _ =>
    return (owner, declared, some (.mismatch runId (ownerLabel o) (ownerLabel declared)))
  | none, .missing =>
    return (owner, declared, some (.mismatch runId (js "(unknown)") (ownerLabel declared)))

/-- The error, if there is one. -/
def throwAny : Option IdentityError → IdentityM I V Unit
  | some e => throw e
  | none => return ()

/-- Staff that starts a run on a user's thread acts for that user. -/
def threadCaller (args : AgentArgs) (owner : RunOwner) (acting : Caller) : IdentityM I V Caller :=
  if args.thread then do
    let th ← performIdentity (.admitThread acting)
    match acting, th.owner, owner with
    | .staff _, some id, .missing => return .user id.1 none
    | _, _, _ => return acting
  else return acting

/-- A new run is born; whoever has lost the claim may go on if it may act for the winner. -/
def bornAs (runId : JsString) (owner : RunOwner) (caller : Caller) : IdentityM I V Unit := do
  match owner with
  | .owned _ _ => return ()
  | .missing =>
    let recorded ← claimRunOwner runId caller ⟨none, false, false⟩
    match ← actingCaller (.owned recorded none) caller with
    | none => throw (.mismatch runId (ownerLabel recorded) (ownerLabel caller))
    | some _ => return ()

/-- The input is frozen, unless it is. -/
def persistInput (args : AgentArgs) (alreadyFrozen : Bool) (owner : Caller) : IdentityM I V Unit :=
  if alreadyFrozen then return ()
  else performIdentity (.putInput args.runId (stampOwner ⟨none, args.asked, args.system⟩ owner))

/-- The run of an agent, up to its input: who it acts for. -/
def agentRun (args : AgentArgs) : IdentityM I V Caller := do
  let (owner, acting, refusal) ← enterAgentRun args.runId args.caller
  throwAny (if identityOnlyInput owner.record then some (.notAnAgentRun args.runId) else none)
  throwAny (if args.thread then refusal else none)
  performIdentity .gate
  let caller ← threadCaller args owner acting
  performIdentity .gate
  throwAny refusal
  bornAs args.runId owner caller
  performIdentity (.runStarted args.runId caller)
  performIdentity .gate
  persistInput args (owner.record.any (·.asked)) caller
  return caller

/-! ## Forks -/

/-- The call of a fork, and the digest of the arguments of a tool. -/
structure ForkArgs (I : Type) where
  srcRunId : JsString
  step : ℕ
  newRunId : Option JsString
  hashOf : I → JsString

/-- The first free fork from `n` on. -/
def pickForkNumber (base : JsString) : (tries n : ℕ) → IdentityM I V JsString
  | 0, _ => throw (.fork .noFreeNumber)
  | tries + 1, n =>
    match forkRunId base n with
    | .error e => throw (.fork (.forkNumber e))
    | .ok cand => do
      if ← performIdentity (.namespaceTaken cand) then pickForkNumber base tries (n + 1)
      else return cand

/-- The target of a fork. -/
def forkDestination (args : ForkArgs I) : IdentityM I V JsString :=
  match args.newRunId with
  | some newRunId => return newRunId
  | none =>
    match derivedRunIdBase args.srcRunId with
    | none => do return args.srcRunId ++ js ":fork:" ++ decimal (← performIdentity .now)
    | some base => pickForkNumber base 9999 1

def putModels (dst : JsString) : List (RunEntry I V) → IdentityM I V Unit
  | [] => return ()
  | m :: keep => do
    performIdentity (.putRow dst (runKeys.model dst (modelStep m.key)) m.value)
    putModels dst keep

/-- Copy the records of a call, of those that have not been copied. -/
def putCandidates (dst : JsString) (entries : List (RunEntry I V)) :
    List (JsString × JsString) → List JsString → IdentityM I V (List JsString)
  | [], copied => return copied
  | (srcKey, dstKey) :: rest, copied =>
    match entryByKey entries srcKey with
    | none => putCandidates dst entries rest copied
    | some value =>
      if dstKey ∈ copied then putCandidates dst entries rest copied
      else do
        performIdentity (.putRow dst dstKey value)
        putCandidates dst entries rest (dstKey :: copied)

def putCalls (args : ForkArgs I) (dst : JsString) (entries : List (RunEntry I V)) :
    List (CallPart I) → List JsString → IdentityM I V (List JsString)
  | [], copied => return copied
  | tc :: calls, copied =>
    match candidates args.srcRunId dst args.hashOf tc with
    | .error e => throw (.fork (.tool e))
    | .ok keys => do putCalls args dst entries calls (← putCandidates dst entries keys copied)

/-- The copy, when the target has its owner. -/
def copyInto (args : ForkArgs I) (dst : JsString) : IdentityM I V ForkResult := do
  let entries ← performIdentity (.readRun args.srcRunId)
  let keep := keptModels entries args.step
  putModels dst keep
  let copied ← putCalls args dst entries (keep.flatMap forkedCalls) []
  match ← performIdentity (.getInput args.srcRunId) with
  | some input => performIdentity (.putInput dst input)
  | none => pure ()
  return ⟨dst, keep.length, copied.length⟩

/-- Fork a run. -/
def forkIdentity (args : ForkArgs I) : IdentityM I V ForkResult := do
  throwAny (match args.newRunId.map assertRunIdSafe with
    | some (.error e) => some (.fork (.runId e))
    | _ => none)
  let undone ← performIdentity (.compensated args.srcRunId)
  throwAny (if undone then some (.fork .compensated) else none)
  let dst ← forkDestination args
  let _ ← inheritOwner args.srcRunId dst ⟨none, false, false⟩
  copyInto args dst

/-! ## Together -/

/-- A call. -/
inductive IdentityJob (I : Type) where
  | entering (runId : JsString) (caller : Caller) (birth : Option BirthFields)
  | agent (args : AgentArgs)
  | inherit (srcRunId dstRunId : JsString) (fields : BirthFields)
  | fork (args : ForkArgs I)

/-- Who is admitted: to which run, and for whom it acts. -/
abbrev Admission := Option (JsString × Caller)

/-- The admission to a run that exists. -/
def admission (runId : JsString) : Caller × RunOwner → Admission
  | (acting, .owned _ _) => some (runId, acting)
  | (_, .missing) => none

def IdentityJob.prog : IdentityJob I →
    Prog (IdentityOp I V) IdentityOp.Res (Except IdentityError Admission)
  | entering runId caller birth =>
    (admission runId <$> admitRun runId caller birth : IdentityM I V Admission).run
  | agent args =>
    ((fun acting => some (args.runId, acting)) <$> agentRun args : IdentityM I V Admission).run
  | inherit src dst fields =>
    ((fun _ => none) <$> inheritOwner src dst fields : IdentityM I V Admission).run
  | fork args => ((fun _ => none) <$> forkIdentity args : IdentityM I V Admission).run

/-- The inputs and the other keys of runs; the agents that have begun to act, and as whom; and the
    calls that have claimed a run that there was. -/
structure IdentityWorld (I V : Type) where
  inputs : JsString → Option OwnerRecord
  rows : JsString → List (JsString × RunValue I V)
  acts : List (ℕ × JsString × Caller)
  onto : List ℕ

/-- What is outside: what is read of a run, the thread, whether a run is undone or its keys can be
    listed, and whether an operation throws, with or without effect. -/
structure IdentityAnswer (I V : Type) where
  entries : List (RunEntry I V)
  thread : ThreadOwnership
  flag : Bool
  now : ℕ
  fault : Option IdentityError
  applied : Bool

/-- A row of anyone else. -/
structure IdentityRow (I V : Type) where
  runId : JsString
  key : JsString
  value : RunValue I V

namespace IdentityWorld

variable (w : IdentityWorld I V) (i : ℕ)

/-- Whose the record of a run says that it is. -/
def owner (runId : JsString) : Option Caller := (w.inputs runId).map recordOwner

/-- The world with a row written. -/
def setRow (runId key : JsString) (value : RunValue I V) : IdentityWorld I V :=
  { w with
    rows := Function.update w.rows runId ((key, value) :: (w.rows runId).filter (·.1 ≠ key)) }

def setInput (runId : JsString) (record : OwnerRecord) : IdentityWorld I V :=
  { w with inputs := Function.update w.inputs runId (some record) }

/-- The world with a claim noted, of a run that there is. -/
def noteClaim (runId : JsString) : IdentityWorld I V :=
  if w.inputs runId = none ∧ w.rows runId = [] then w else { w with onto := i :: w.onto }

/-- What an operation of the call `i` answers, and does. -/
def perform (a : IdentityAnswer I V) : (o : IdentityOp I V) → o.Ans × IdentityWorld I V
  | .getInput runId => (w.inputs runId, w)
  | .rowsPresent runId => ((w.inputs runId).isSome || !(w.rows runId).isEmpty, w)
  | .claim runId record =>
    if w.inputs runId = none then (true, (w.noteClaim i runId).setInput runId record)
    else (false, w.noteClaim i runId)
  | .putInput runId record => ((), w.setInput runId record)
  | .putRow runId key value => ((), w.setRow runId key value)
  | .readRun _ => (a.entries, w)
  | .runStarted runId caller =>
    let w' := w.setRow runId (runId ++ js ":outcome") .other
    ((), { w' with acts := (i, runId, caller) :: w'.acts })
  | .admitThread _ => (a.thread, w)
  | .gate => ((), w)
  | .compensated _ => (a.flag, w)
  | .namespaceTaken runId => ((w.inputs runId).isSome || a.flag && !(w.rows runId).isEmpty, w)
  | .now => (a.now, w)

end IdentityWorld

/-- The journal, and the code around. -/
def identityMachine : Machine (IdentityOp I V) IdentityOp.Res (IdentityWorld I V)
    (IdentityAnswer I V) (IdentityRow I V) where
  exec i a o w :=
    match a.fault with
    | some e => (.error e, if a.applied then (w.perform i a o).2 else w)
    | none => (.ok (w.perform i a o).1, (w.perform i a o).2)
  env e w := w.setRow e.runId e.key e.value

/-- The calls before any of them, on a journal with any runs. -/
def identityStart (inputs : JsString → Option OwnerRecord)
    (rows : JsString → List (JsString × RunValue I V)) (jobs : ℕ → IdentityJob I) :
    Conf (IdentityOp I V) IdentityOp.Res (Except IdentityError Admission) (IdentityWorld I V) :=
  ⟨⟨inputs, rows, [], []⟩, fun i => (jobs i).prog⟩

end Operations

end Gnldev.Durable
