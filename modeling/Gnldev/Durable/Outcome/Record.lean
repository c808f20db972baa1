import Gnldev.Durable.Outcome
import Gnldev.Lib.Exceptions

/-!
# Recording how a run ended

The outcome of a run is reported by many (`outcome.ts`, `cancel.ts`): by each worker at its start
and at its end, and by who cancels the run. A report reads the record and swaps its own for it, at
most three times, unless the record stands (`RunOutcomeRecord.stands`). Whatever the journal throws
is swallowed: a run does not fail because its outcome could not be noted.

* `OutcomeJournal.recordRunOutcome`, and the five reports;
* `cancelAgentRun`, `runWorker`: a cancellation, and an attempt at the run, whose model steps look
  for the flag of a cancellation;
* `outcomeMachine`: any number of them, on one run.

`recordRunOutcome_alone` says that a report that no one disturbs leaves the record that
`Gnldev.Durable.recordRunOutcome` says.
-/

namespace Gnldev.Durable

/-- Which records a report may replace. -/
structure OutcomeOptions where
  fillOnly : Bool
  notAfterTerminal : Bool
  deriving DecidableEq

/-- The record is not replaced by `next`. -/
def RunOutcomeRecord.stands (cur next : RunOutcomeRecord) (opts : OutcomeOptions) : Bool :=
  if opts.fillOnly then true
  -- a run that has ended did not end by being canceled
  else if opts.notAfterTerminal ∧ cur.status ≠ .running then true
  else if next.decidedAt < cur.decidedAt then true
  else if cur.status = .canceled ∧ next.status = .running then true
  -- at the same time, an ending is newer than a start
  else cur.decidedAt = next.decidedAt ∧ next.status = .running ∧ cur.status ≠ .running

/-- The journal, under the key of the outcome of a run. -/
structure OutcomeJournal (m : Type → Type) where
  get : m (Option RunOutcomeRecord)
  put : RunOutcomeRecord → m Unit
  putIfAbsent : Option (RunOutcomeRecord → m Bool)
  putIfMatch : Option (RunOutcomeRecord → RunOutcomeRecord → m Bool)
  /-- The clock of the journal. -/
  now : Option (m ℕ)

namespace OutcomeJournal

variable {m : Type → Type} [Monad m] {ε : Type} [MonadExceptOf ε m] (journal : OutcomeJournal m)

/-- One attempt after another at recording `next`. -/
def attempts (next : RunOutcomeRecord) (opts : OutcomeOptions) : ℕ → m Unit
  | 0 => return ()
  | n + 1 => do
    match ← journal.get with
    | some cur =>
      if cur.stands next opts then return ()
      match journal.putIfMatch with
      | some putIfMatch =>
        if ← putIfMatch cur next then return ()
        attempts next opts n
      | none => journal.put next
    | none =>
      match journal.putIfAbsent with
      | some putIfAbsent =>
        if ← putIfAbsent next then return ()
        attempts next opts n
      | none => journal.put next

/-- The time of a report: the journal's, if it has a clock. -/
def stamp (outcome : RunOutcomeRecord) : m ℕ :=
  match journal.now with
  | some now => now
  | none => pure outcome.decidedAt

def recordRunOutcome (outcome : RunOutcomeRecord) (opts : OutcomeOptions) : m Unit :=
  tryCatchThe ε
    (do
      let at_ ← journal.stamp outcome
      journal.attempts { outcome with decidedAt := at_ } opts 3)
    fun _ => return ()

def runSucceeded (at_ : ℕ) : m Unit :=
  journal.recordRunOutcome (ε := ε) ⟨.completed, at_, none⟩ ⟨false, false⟩

def runFailed (error : JsString) (at_ : ℕ) : m Unit :=
  journal.recordRunOutcome (ε := ε) ⟨.failed, at_, some error⟩ ⟨false, false⟩

/-- The failure of an attempt that lost its run to another one. -/
def runFailedIfUnrecorded (error : JsString) (at_ : ℕ) : m Unit :=
  journal.recordRunOutcome (ε := ε) ⟨.failed, at_, some error⟩ ⟨true, false⟩

def runStarted (at_ : ℕ) : m Unit :=
  journal.recordRunOutcome (ε := ε) ⟨.running, at_, none⟩ ⟨false, false⟩

def runCanceled (at_ : ℕ) : m Unit :=
  journal.recordRunOutcome (ε := ε) ⟨.canceled, at_, none⟩ ⟨false, true⟩

end OutcomeJournal

/-! ## What is done on a run -/

/-- The flag of a cancellation: the first one stays. -/
structure CancelFlag where
  flaggedAt : ℕ
  reason : Option JsString
  deriving DecidableEq

/-- What is thrown. -/
inductive RunError where
  /-- `RunCanceledError`. -/
  | canceled
  /-- `RunBusyError`, in the midst of a run. -/
  | contended (message : JsString)
  | failure (message : JsString)
  deriving DecidableEq

/-- An operation, on the records of a run or outside. -/
inductive OutcomeOp where
  | now
  | get
  | put (next : RunOutcomeRecord)
  | putIfAbsent (next : RunOutcomeRecord)
  | putIfMatch (expected next : RunOutcomeRecord)
  /-- The clock of the process. -/
  | dateNow
  | claimFlag (flag : CancelFlag)
  | getFlag
  /-- A model step, from the journal or by the provider. -/
  | step (fresh : Bool)
  deriving DecidableEq

/-- The answers. -/
abbrev OutcomeOp.Ans : OutcomeOp → Type
  | now => ℕ
  | get => Option RunOutcomeRecord
  | put _ => Unit
  | putIfAbsent _ => Bool
  | putIfMatch _ _ => Bool
  | dateNow => ℕ
  | claimFlag _ => Bool
  | getFlag => Option CancelFlag
  | step _ => Unit

abbrev OutcomeOp.Res (o : OutcomeOp) : Type := Except RunError o.Ans

/-- The programs of the calls on a run. -/
abbrev OutcomeM := ExceptT RunError (Prog OutcomeOp OutcomeOp.Res)

def performOutcome (o : OutcomeOp) : OutcomeM o.Ans := ExceptT.mk (Prog.perform o)

/-- The journal, with a clock of its own or without; its conditional writes are atomic. -/
def outcomeJournal (clocked : Bool) : OutcomeJournal OutcomeM where
  get := performOutcome .get
  put next := performOutcome (.put next)
  putIfAbsent := some fun next => performOutcome (.putIfAbsent next)
  putIfMatch := some fun expected next => performOutcome (.putIfMatch expected next)
  now := if clocked then some (performOutcome .now) else none

section Calls

variable (clocked : Bool)

/-- Cancel the run: the flag first, and its own time is the time of the outcome. -/
def cancelAgentRun (reason : Option JsString) : OutcomeM Unit := do
  let record : CancelFlag := ⟨← performOutcome .dateNow, reason⟩
  let _ ← performOutcome (.claimFlag record)
  let flag ← performOutcome .getFlag
  (outcomeJournal clocked).runCanceled (ε := RunError) ((flag.map (·.flaggedAt)).getD record.flaggedAt)

def assertNotCanceled : OutcomeM Unit := do
  let flag ← performOutcome .getFlag
  if flag.isSome then throw .canceled

/-- A model step. Only one that is made anew looks for the flag. -/
def outcomeStep (fresh : Bool) : OutcomeM Unit := do
  if fresh then assertNotCanceled
  performOutcome (.step fresh)

def outcomeSteps : List Bool → OutcomeM Unit
  | [] => return ()
  | fresh :: steps => do
    outcomeStep fresh
    outcomeSteps steps

/-- The record of an attempt that has thrown. -/
def recordThrown : RunError → OutcomeM Unit
  | .canceled => return ()
  | .contended message => do
    (outcomeJournal clocked).runFailedIfUnrecorded (ε := RunError) message (← performOutcome .dateNow)
  | .failure message => do
    (outcomeJournal clocked).runFailed (ε := RunError) message (← performOutcome .dateNow)

/-- An attempt at the run: its model steps, each made anew or read from the journal, and whether it
    waits for a human then. -/
def runWorker (steps : List Bool) (suspended : Bool) : OutcomeM Unit := do
  assertNotCanceled
  tryCatch
    (do
      (outcomeJournal clocked).runStarted (ε := RunError) (← performOutcome .dateNow)
      outcomeSteps steps
      if suspended then return ()
      (outcomeJournal clocked).runSucceeded (ε := RunError) (← performOutcome .dateNow))
    fun e => do
      recordThrown clocked e
      throw e

end Calls

/-! ## Together -/

/-- What happens to the record of a run, as a history. -/
inductive OutcomeEvent where
  /-- The call has taken the time of its report from the journal. -/
  | stamped (i : ℕ) (at_ : ℕ)
  /-- The call has read the record. -/
  | looked (i : ℕ)
  /-- The call has written `new` in the place of `old`. -/
  | wrote (i : ℕ) (old : Option RunOutcomeRecord) (new : RunOutcomeRecord)
  /-- The call has lost an attempt at writing `next`. -/
  | lost (i : ℕ) (next : RunOutcomeRecord)
  | flagged (i : ℕ)
  /-- The call has looked for the flag, and it was there or not. -/
  | checked (i : ℕ) (seen : Bool)
  deriving DecidableEq

/-- The clock of the journal, the records, and what has happened, the latest first. -/
structure OutcomeWorld where
  clock : ℕ
  record : Option RunOutcomeRecord
  flag : Option CancelFlag
  trace : List OutcomeEvent

/-- What is outside: the clock of the process, the outcome of a step, and whether the journal
    throws, with or without effect. -/
structure OutcomeAnswer where
  date : ℕ
  outcome : Except RunError Unit
  fault : Option JsString
  applied : Bool

/-- The operation is one of the journal. -/
def OutcomeOp.onJournal : OutcomeOp → Bool
  | dateNow => false
  | step _ => false
  | _ => true

/-- It takes effect, or not, when the journal throws. -/
def OutcomeOp.writes : OutcomeOp → Bool
  | put _ => true
  | putIfAbsent _ => true
  | putIfMatch _ _ => true
  | claimFlag _ => true
  | _ => false

namespace OutcomeWorld

variable (w : OutcomeWorld) (i : ℕ)

/-- The record is written. -/
def write (next : RunOutcomeRecord) : OutcomeWorld :=
  { w with record := some next, trace := .wrote i w.record next :: w.trace }

/-- What an operation of the call `i` answers, and does. -/
def perform (a : OutcomeAnswer) : (o : OutcomeOp) → o.Res × OutcomeWorld
  | .now => (.ok w.clock, { w with trace := .stamped i w.clock :: w.trace })
  | .get => (.ok w.record, { w with trace := .looked i :: w.trace })
  | .put next => (.ok (), w.write i next)
  | .putIfAbsent next =>
    if w.record = none then (.ok true, w.write i next)
    else (.ok false, { w with trace := .lost i next :: w.trace })
  | .putIfMatch expected next =>
    if w.record = some expected then (.ok true, w.write i next)
    else (.ok false, { w with trace := .lost i next :: w.trace })
  | .dateNow => (.ok a.date, w)
  | .claimFlag flag =>
    if w.flag = none then (.ok true, { w with flag := some flag, trace := .flagged i :: w.trace })
    else (.ok false, w)
  | .getFlag => (.ok w.flag, { w with trace := .checked i w.flag.isSome :: w.trace })
  | .step _ => (a.outcome, w)

end OutcomeWorld

/-- The journal and the provider. -/
def outcomeMachine : Machine OutcomeOp OutcomeOp.Res OutcomeWorld OutcomeAnswer ℕ where
  exec i a o w :=
    match a.fault with
    | some e =>
      if o.onJournal then (.error (.failure e), if a.applied ∧ o.writes then (w.perform i a o).2 else w)
      else w.perform i a o
    | none => w.perform i a o
  env n w := { w with clock := w.clock + n }

/-! ## Alone -/

theorem recordRunOutcome_some (cur next : RunOutcomeRecord) (opts : OutcomeOptions) :
    recordRunOutcome (some cur) next opts.fillOnly opts.notAfterTerminal =
      if cur.stands next opts then cur else next := by
  unfold recordRunOutcome RunOutcomeRecord.stands
  grind

/-- A report that no one disturbs takes the time, reads the record and swaps its own for it. -/
theorem recordRunOutcome_alone (w : OutcomeWorld) (i : ℕ) {a : OutcomeAnswer} (ha : a.fault = none)
    (outcome : RunOutcomeRecord) (opts : OutcomeOptions) :
    (outcomeMachine.play ⟨w, fun _ => ((outcomeJournal true).recordRunOutcome (ε := RunError)
        outcome opts).run⟩ [.run i a, .run i a, .run i a]).world.record =
      some (recordRunOutcome w.record { outcome with decidedAt := w.clock } opts.fillOnly
        opts.notAfterTerminal) := by
  have hexec (o : OutcomeOp) (w : OutcomeWorld) : outcomeMachine.exec i a o w = w.perform i a o := by
    simp only [outcomeMachine, ha]
  obtain ⟨clock, cur, flag, trace⟩ := w
  rw [Machine.play, Machine.move_op (o := .now) rfl, hexec, Machine.play,
    Machine.move_op (o := .get) (Function.update_self ..), hexec, Machine.play, Machine.play]
  rcases cur with _ | cur
  · rw [Machine.move_op (o := .putIfAbsent { outcome with decidedAt := clock })
      (Function.update_self ..), hexec]
    rfl
  · rw [recordRunOutcome_some]
    simp only [OutcomeWorld.perform, Prog.bind, Machine.move, Function.update_self, ExceptT.bindCont]
    split_ifs with hstands
    · rfl
    · change (outcomeMachine.exec i a (.putIfMatch cur _) _).2.record = _
      rw [hexec, OutcomeWorld.perform, if_pos rfl]
      rfl

end Gnldev.Durable
