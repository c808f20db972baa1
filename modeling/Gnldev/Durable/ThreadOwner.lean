import Gnldev.Durable.Rollover
import Gnldev.Lib.Exceptions

/-!
# Who owns a thread

The first run on a thread writes the record of its owner (`thread-owner.ts`), and who runs on the
thread later is measured by it. A record that names nobody is replaced by what the memory knows; a
thread without a record is given what can be derived, or to staff.

* `threadOwnerOf`, `admitThreadRun`: the reading, and the gate;
* `assignThreadOwner`: what an operator does;
* `ownerMachine`: any number of them, on one thread.
-/

namespace Gnldev.Durable

/-- The id of a user, which is not empty. -/
abbrev UserId := { id : JsString // id ≠ [] }

/-- The user that a string names: none, if it is empty. -/
def namedUser (id : Option JsString) : Option UserId :=
  id.bind fun id => if h : id ≠ [] then some ⟨id, h⟩ else none

inductive OwnerKind where
  | staff | unknown
  deriving DecidableEq

/-- The record of the owner. A legacy one has neither. -/
structure ThreadOwnerRecord where
  resourceId : Option UserId
  ownerKind : Option OwnerKind
  deriving DecidableEq

/-- Whose a thread is. -/
structure ThreadOwnership where
  «exists» : Bool
  owner : Option UserId
  staffClaimed : Option Bool
  deriving DecidableEq

/-- A run on the thread. -/
structure ThreadRun where
  runId : JsString
  resourceId : Option JsString
  deriving DecidableEq

/-- Whether there is a memory, and whether it can name the owner of a thread. -/
inductive MemoryKind where
  | absent | mute | naming
  deriving DecidableEq

inductive OwnerError where
  /-- `ThreadOwnerMismatchError`, with the owner and who asks. -/
  | mismatch (owner requested : JsString)
  | typeError
  | failure (message : JsString)
  deriving DecidableEq

/-- Where the record is read: first, after a backfill, and after a claim of the caller. -/
inductive ReadSite where
  | first | backfilled | claimed
  deriving DecidableEq

/-- An operation: on the record of the thread, or on what its owner is derived from. -/
inductive OwnerOp where
  | get (site : ReadSite)
  /-- The record is upgraded to what the memory says. -/
  | put (record : ThreadOwnerRecord)
  | claim (record : ThreadOwnerRecord)
  | assign (record : ThreadOwnerRecord)
  | getThreadResource
  /-- The runs on the thread, page by page. -/
  | runsOnThread
  /-- Whether the record of the run says that it was born `unknown`. -/
  | bornUnknown (runId : JsString)
  | getMessages
  deriving DecidableEq

/-- The answers. -/
abbrev OwnerOp.Ans : OwnerOp → Type
  | get _ => Option ThreadOwnerRecord
  | put _ => Unit
  | claim _ => Bool
  | assign _ => Unit
  | getThreadResource => Option JsString
  | runsOnThread => List ThreadRun
  | bornUnknown _ => Bool
  | getMessages => ℕ

abbrev OwnerOp.Res (o : OwnerOp) : Type := Except OwnerError o.Ans

/-- The programs of the calls on a thread. -/
abbrev OwnerM := ExceptT OwnerError (Prog OwnerOp OwnerOp.Res)

def performOwner (o : OwnerOp) : OwnerM o.Ans := ExceptT.mk (Prog.perform o)

/-! ## The reading -/

/-- What a record that was read back says. -/
def ownershipOf (record : Option ThreadOwnerRecord) : ThreadOwnership :=
  match record.bind (·.resourceId) with
  | some owner => ⟨true, some owner, none⟩
  | none => ⟨true, none, some (record.bind (·.ownerKind) ≠ some .unknown)⟩

/-- Every run on the thread was born `unknown`. -/
def allBornUnknown : List ThreadRun → OwnerM Bool
  | [] => return true
  | run :: runs => do
    if ← performOwner (.bornUnknown run.runId) then allBornUnknown runs else return false

/-- What can be derived of a thread without a record. -/
structure Derived where
  owner : Option UserId
  «exists» : Bool
  anonymous : Bool

section Reading

variable (memory : MemoryKind)

/-- What the runs say, and the messages if there are none. -/
def deriveFromRuns : OwnerM Derived := do
  let runs ← performOwner .runsOnThread
  if runs ≠ [] then
    match (runs.map (·.resourceId)).dedup with
    | [resourceId] =>
      match namedUser resourceId with
      | some owner => return ⟨some owner, true, false⟩
      | none => return ⟨none, true, ← allBornUnknown runs⟩
    | _ => return ⟨none, true, false⟩
  else if memory = .mute then return ⟨none, (← performOwner .getMessages) ≠ 0, false⟩
  else return ⟨none, false, false⟩

/-- The memory's own answer, then the runs, then the messages. -/
def deriveOwner : OwnerM Derived :=
  if memory = .naming then do
    match ← performOwner .getThreadResource with
    | some resourceId => return ⟨namedUser (some resourceId), true, false⟩
    | none => deriveFromRuns memory
  else deriveFromRuns memory

/-- What was derived becomes the record, unless there is one by now. -/
def backfill (d : Derived) : OwnerM ThreadOwnership := do
  if !d.exists then return ⟨false, none, none⟩
  if d.owner = none ∧ d.anonymous then return ⟨true, none, some false⟩
  let _ ← performOwner (.claim (match d.owner with
    | some owner => ⟨some owner, none⟩
    | none => ⟨none, some .staff⟩))
  return ownershipOf (← performOwner (.get .backfilled))

/-- A record that names nobody. -/
def ownerOfNobody (record : ThreadOwnerRecord) : OwnerM ThreadOwnership := do
  if record.ownerKind ≠ some .staff ∧ memory = .naming then
    match namedUser (← performOwner .getThreadResource) with
    | some owner =>
      performOwner (.put { record with resourceId := some owner })
      return ⟨true, some owner, none⟩
    | none => return ⟨true, none, some (record.ownerKind ≠ some .unknown)⟩
  else return ⟨true, none, some (record.ownerKind ≠ some .unknown)⟩

def threadOwnerOf : OwnerM ThreadOwnership := do
  match ← performOwner (.get .first) with
  | some record =>
    match record.resourceId with
    | some owner => return ⟨true, some owner, none⟩
    | none => ownerOfNobody memory record
  | none => backfill (← deriveOwner memory)

/-! ## The gate -/

/-- A claim of the thread, and who has it then. -/
def claimFor (record : ThreadOwnerRecord) : OwnerM ThreadOwnership := do
  let _ ← performOwner (.claim record)
  return ownershipOf (← performOwner (.get .claimed))

/-- The thread is another one's. -/
def refuseThread {α : Type} (o : ThreadOwnership) (requested : JsString) : OwnerM α :=
  throw (.mismatch (o.owner.elim (js "(staff)") (·.1)) requested)

/-- Whether the caller may run on a thread of that ownership. -/
def threadGate (caller : Caller) (o : ThreadOwnership) : OwnerM ThreadOwnership :=
  match caller with
  | .staff _ => return o
  | .unknown =>
    if o.owner.isSome ∨ o.staffClaimed = some true then refuseThread o (js "(unknown)") else return o
  | .user id _ =>
    match o.owner with
    | some owner => if owner.1 ≠ id then refuseThread o id else return o
    | none => if o.staffClaimed = some true then refuseThread o id else return o

def admitThreadRun (caller : Caller) : OwnerM ThreadOwnership := do
  let o ← threadOwnerOf memory
  if !o.exists ∨ o.owner = none ∧ o.staffClaimed = some false then
    match caller with
    | .user id _ => threadGate caller (← claimFor ⟨namedUser (some id), none⟩)
    | .staff _ =>
      if !o.exists then threadGate caller (← claimFor ⟨none, some .staff⟩) else return o
    | .unknown => return o
  else threadGate caller o

end Reading

/-- An operator's answer. -/
def assignThreadOwner (resourceId : JsString) : OwnerM Unit :=
  match namedUser (some resourceId) with
  | some owner => performOwner (.assign ⟨some owner, none⟩)
  | none => throw .typeError

/-! ## Together -/

/-- A call on the thread. -/
inductive ThreadJob where
  | admission (memory : MemoryKind) (caller : Caller)
  | assign (resourceId : JsString)
  deriving DecidableEq

/-- What it returns. -/
abbrev ThreadResult := Option ThreadOwnership

def ThreadJob.prog : ThreadJob → Prog OwnerOp OwnerOp.Res (Except OwnerError ThreadResult)
  | admission memory caller => (some <$> admitThreadRun memory caller : OwnerM ThreadResult).run
  | assign resourceId => ((fun _ => none) <$> assignThreadOwner resourceId : OwnerM ThreadResult).run

/-- The record, and who it was assigned to, by which call, the latest first. -/
structure OwnerWorld where
  record : Option ThreadOwnerRecord
  assigned : List (ℕ × UserId)

/-- What is outside: the memory, the runs and the messages, and whether an operation throws, with or
    without effect. -/
structure OwnerAnswer where
  resource : Option JsString
  runs : List ThreadRun
  unknown : Bool
  messages : ℕ
  fault : Option OwnerError
  applied : Bool

/-- It takes effect, or not, when the journal throws. -/
def OwnerOp.writes : OwnerOp → Bool
  | put _ | claim _ | assign _ => true
  | _ => false

namespace OwnerWorld

variable (w : OwnerWorld) (i : ℕ)

/-- The user that the record names. -/
def named : Option UserId := w.record.bind (·.resourceId)

/-- What an operation of the call `i` answers, and does. -/
def perform (a : OwnerAnswer) : (o : OwnerOp) → o.Ans × OwnerWorld
  | .get _ => (w.record, w)
  | .put record => ((), { w with record := some record })
  | .claim record =>
    if w.record = none then (true, { w with record := some record }) else (false, w)
  | .assign record =>
    ((), ⟨some record, (record.resourceId.map fun owner => (i, owner)).toList ++ w.assigned⟩)
  | .getThreadResource => (a.resource, w)
  | .runsOnThread => (a.runs, w)
  | .bornUnknown _ => (a.unknown, w)
  | .getMessages => (a.messages, w)

end OwnerWorld

/-- The journal and the memory. -/
def ownerMachine : Machine OwnerOp OwnerOp.Res OwnerWorld OwnerAnswer Unit where
  exec i a o w :=
    match a.fault with
    | some e => (.error e, if a.applied ∧ o.writes then (w.perform i a o).2 else w)
    | none => (.ok (w.perform i a o).1, (w.perform i a o).2)
  env _ w := w

/-- The calls before any of them, on any record. -/
def ownerStart (record : Option ThreadOwnerRecord) (jobs : ℕ → ThreadJob) :
    Conf OwnerOp OwnerOp.Res (Except OwnerError ThreadResult) OwnerWorld :=
  ⟨⟨record, []⟩, fun i => (jobs i).prog⟩

end Gnldev.Durable
