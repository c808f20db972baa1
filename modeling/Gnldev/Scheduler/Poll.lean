import Mathlib.Algebra.Order.Monoid.WithTop
import Gnldev.Durable.OwnedName
import Gnldev.Durable.Rollover
import Gnldev.Lib.Exceptions
import Gnldev.Scheduler.Cron

/-!
# The scheduler

A trigger (`scheduler/src/index.ts`) is a definition, which stays, and a state: when it
runs next, how often it has fired, how often it has failed. A poll goes through the
triggers, and runs the workflow of those that are due; what comes of it is committed by
comparing the state with the one it has read, and swapping.

The fire locks, the budget and the workflows are outside the model: they answer anything, at
every call. So does the journal where it throws, with or without effect.

* `newTrigger`: what `scheduleWorkflow` writes for a trigger nobody has seen before;
* `pollScheduler`: a poll;
* `schedMachine`: any number of polls, on one journal.
-/

namespace Gnldev.Scheduler

open Durable

/-! ## Triggers -/

inductive MisfirePolicy where
  | skip
  | catchup
  deriving DecidableEq

/-- The kind of a trigger, with its value. -/
inductive Timing where
  | at_ (time : ℤ)
  | every (interval : ℤ)
  | cron (expr : JsString)
  deriving DecidableEq

structure TriggerDef (V : Type) where
  name : JsString
  input : V
  timing : Timing
  maxAttempts : ℤ
  misfire : MisfirePolicy
  resourceId : Option JsString
  orgId : Option JsString
  /-- `ownerKind: 'staff'`. -/
  staff : Bool

inductive TriggerStatus where
  | pending
  | done
  | failed
  deriving DecidableEq

/-- The state of a trigger. A time that is not a number (`⊥`) is not after any other. -/
structure TriggerState where
  nextRunAt : WithBot ℤ
  attempts : ℕ
  fireCount : ℕ
  status : TriggerStatus
  movedTo : Option JsString
  deriving DecidableEq

instance decidableSlotLt (a b : WithBot ℤ) : Decidable (a < b) :=
  match a, b with
  | _, none => isFalse not_lt_bot
  | none, some b => isTrue (WithBot.bot_lt_coe b)
  | some a, some b => decidable_of_iff (a < b) WithBot.coe_lt_coe.symm

variable {V : Type}

/-- The caller a trigger's recorded owner stands for. -/
def callerOfTrigger (d : TriggerDef V) : Caller :=
  match d.resourceId with
  | some (u :: id) => .user (u :: id) d.orgId
  | _ => if d.staff then .staff d.orgId else .unknown

/-! ## Scheduling -/

structure ScheduleSpec (V : Type) where
  id : Option JsString
  name : JsString
  input : V
  at_ : Option ℤ
  every : Option ℤ
  cron : Option JsString
  maxAttempts : Option ℤ
  resourceId : Option JsString
  caller : Option Caller
  orgId : Option JsString
  misfire : Option MisfirePolicy

/-- Why a trigger is refused. -/
inductive ScheduleError where
  /-- Both `caller` and a different `resourceId` or `orgId` were given. -/
  | twoOwners
  | invalidOrgId (orgId : JsString)
  | invalidResourceId (resourceId : JsString)
  | name (e : NameError)
  /-- One of `at`, `every` and `cron` is required. -/
  | noTiming
  | cron (e : CronError)

/-- The organization and the user of a caller. -/
def ownerOfCaller : Caller → Owner
  | .user id orgId => ⟨orgId, some id⟩
  | .staff orgId => ⟨orgId, none⟩
  | .unknown => ⟨none, none⟩

/-- The owner fields a trigger records, and whether it is the staff's. -/
def triggerOwnerOf (spec : ScheduleSpec V) : Except ScheduleError (Owner × Bool) :=
  match spec.caller with
  | none => .ok (⟨spec.orgId, spec.resourceId⟩, false)
  | some c =>
    let owner := ownerOfCaller c
    if (spec.resourceId.isSome ∧ spec.resourceId ≠ owner.resourceId) ∨
        (spec.orgId.isSome ∧ owner.orgId.isSome ∧ spec.orgId ≠ owner.orgId) then .error .twoOwners
    else .ok (⟨owner.orgId.or spec.orgId, owner.resourceId.or spec.resourceId⟩,
      match c with | .staff _ => true | _ => false)

/-- The kind of a specification: the first of the three that is given. -/
def timingOf (spec : ScheduleSpec V) : Except ScheduleError Timing :=
  match spec.at_, spec.every, spec.cron with
  | some time, _, _ => .ok (.at_ time)
  | none, some interval, _ => .ok (.every interval)
  | none, none, some expr => .ok (.cron expr)
  | none, none, none => .error .noTiming

def firstRunAt (timing : Timing) (now : ℤ) : Except ScheduleError ℤ :=
  match timing with
  | .at_ time => .ok time
  | .every interval => .ok (now + interval)
  | .cron expr => (nextCronTime expr now).mapError .cron

/-- A trigger nobody has seen before: its id, its definition and its state. -/
def newTrigger (spec : ScheduleSpec V) (now : ℤ) :
    Except ScheduleError (JsString × TriggerDef V × TriggerState) := do
  let (owner, staff) ← triggerOwnerOf spec
  if let some orgId := owner.orgId then
    if orgId = [] ∨ colon ∈ orgId then throw (.invalidOrgId orgId)
  if let some resourceId := owner.resourceId then
    if resourceId = [] then throw (.invalidResourceId resourceId)
  let id ← (ownedName (spec.id.getD spec.name) owner).mapError .name
  let timing ← timingOf spec
  let first ← firstRunAt timing now
  return (id,
    ⟨spec.name, spec.input, timing, spec.maxAttempts.getD 5, spec.misfire.getD .skip,
      owner.resourceId, owner.orgId, staff⟩,
    ⟨first, 0, 0, .pending, none⟩)

/-! ## The next time -/

/-- The next time of a trigger, from the time it was planned for. -/
def computeNext (d : TriggerDef V) (prevSlot : WithBot ℤ) (now : ℤ) :
    Except CronError (WithBot ℤ) :=
  match d.timing, d.misfire, prevSlot with
  | .every interval, .catchup, prev => .ok (prev + interval)
  | .every interval, .skip, some prev =>
    -- Where the interval is 0, the quotient is infinite or not a number.
    if interval = 0 then .ok ⊥
    else
      let missed := (now - prev).fdiv interval
      .ok ((prev + interval * (missed + 1) : ℤ) : WithBot ℤ)
  | .every _, .skip, none => .ok ⊥
  | .cron expr, .catchup, some prev => (↑) <$> nextCronTime expr prev
  | .cron expr, .catchup, none => .error (.noMatch expr)
  | .cron expr, .skip, _ => (↑) <$> nextCronTime expr now
  | .at_ _, _, prev => .ok prev

def backoff (attempts : ℕ) : ℤ := min (1000 * 2 ^ (attempts - 1)) 60000

/-! ## Polling -/

/-- What is thrown. -/
inductive SchedError where
  | thrown (message : JsString)
  /-- The run was refused by its lock, before it did anything. -/
  | busy (message : JsString)
  | cron (e : CronError)
  /-- The organization of the trigger cannot be reached. -/
  | unreachable (id orgId : JsString)
  /-- A value without a text: `String` throws on it, as on an object without a prototype. -/
  | untold (busy : Bool)

namespace SchedError

/-- `isRunBusyAtAcquisition`. -/
def isBusy : SchedError → Bool
  | busy _ => true
  | untold b => b
  | _ => false

def HasText : SchedError → Prop
  | untold _ => False
  | _ => True

instance (e : SchedError) : Decidable e.HasText :=
  match e with
  | untold _ => isFalse id
  | thrown _ | busy _ | cron _ | unreachable .. => isTrue trivial

end SchedError

/-- What a poll does. -/
inductive SchedOp (V : Type) where
  | listDefs
  | getDef (id : JsString)
  | getState (id : JsString)
  | acquireLock (runId : JsString)
  | release (runId : JsString)
  | budgetGuard (id : JsString) (d : TriggerDef V) (now : ℤ)
  | runWorkflow (name : JsString) (input : V) (runId : JsString) (caller : Caller)
  | putIfMatch (id : JsString) (expected next : TriggerState)
  | putBudgetSkip (id : JsString) (error : SchedError) (at_ : ℤ)
  | getDeferrals (id : JsString)
  | putBusySkip (id : JsString) (error : SchedError) (at_ : ℤ) (runId : JsString) (deferrals : ℕ)
  | putFail (id : JsString) (error : SchedError) (at_ : ℤ)

/-- The answers. -/
abbrev SchedOp.Ans : SchedOp V → Type
  | listDefs => List JsString
  | getDef _ => Option (TriggerDef V)
  | getState _ => Option TriggerState
  | acquireLock _ => Bool
  -- Is the run suspended?
  | runWorkflow .. => Bool
  | putIfMatch .. => Bool
  | getDeferrals _ => Option ℕ
  | _ => Unit

abbrev SchedOp.Res (o : SchedOp V) : Type := Except SchedError o.Ans

/-- The programs of a poll. -/
abbrev SM (V : Type) := ExceptT SchedError (Prog (SchedOp V) SchedOp.Res)

def perform (o : SchedOp V) : SM V o.Ans := ExceptT.mk (Prog.perform o)

/-- What is thrown is returned. -/
def attempt {α : Type} (p : SM V α) : SM V (Except SchedError α) :=
  tryCatch (Except.ok <$> p) fun e => return .error e

/-- A call of `pollScheduler`. -/
structure PollCall where
  now : ℤ
  retryMs : ℤ
  /-- A `budgetGuard` and a `runnerForOrg` are given. -/
  budgetGuard : Bool
  runnerForOrg : Bool

structure PollResult where
  fired : ℕ
  rescheduled : ℕ
  failed : ℕ
  skipped : ℕ
  deriving DecidableEq

/-- What a trigger adds to the result. -/
inductive Tally where
  | nothing
  | fired
  | rescheduled
  | failed
  | skipped
  deriving DecidableEq

def PollResult.add (out : PollResult) : Tally → PollResult
  | .nothing => out
  | .fired => { out with fired := out.fired + 1 }
  | .rescheduled => { out with rescheduled := out.rescheduled + 1 }
  | .failed => { out with failed := out.failed + 1 }
  | .skipped => { out with skipped := out.skipped + 1 }

/-- `sched:<id>:<fireCount>`. -/
def runIdOf (id : JsString) (state : TriggerState) : JsString :=
  js "sched:" ++ id ++ js ":" ++ decimal state.fireCount

namespace PollCall

variable (call : PollCall) (id : JsString) (d : TriggerDef V) (state : TriggerState)

/-- The state is still the one that was read. -/
def commit (next : TriggerState) : SM V Bool := perform (.putIfMatch id state next)

/-- `String(e.message ?? e)`, with which an error is noted. -/
def told (e : SchedError) : SM V SchedError :=
  match e with
  | .untold _ => throw (.thrown (js "Cannot convert object to primitive value"))
  | e => return e

/-- Not now. -/
def deferred : TriggerState := { state with nextRunAt := (call.now + call.retryMs : ℤ) }

def budgetSkip (e : SchedError) : SM V Tally := do
  if ← commit id state (call.deferred state) then
    perform (.putBudgetSkip id (← told e) call.now)
    return .skipped
  else return .nothing

def busySkip (e : SchedError) : SM V Tally := do
  if ← commit id state (call.deferred state) then
    let prev ← perform (.getDeferrals id)
    perform (.putBusySkip id (← told e) call.now (runIdOf id state) (prev.getD 0 + 1))
    return .skipped
  else return .nothing

/-- The workflow has failed. -/
def failure (e : SchedError) : SM V Tally := do
  let attempts := state.attempts + 1
  if d.maxAttempts ≤ attempts then
    if ← commit id state { state with attempts, status := .failed } then
      perform (.putFail id (← told e) call.now)
      return .failed
    else return .nothing
  else if ← commit id state
      { state with attempts, nextRunAt := (call.now + backoff attempts : ℤ) } then
    return .rescheduled
  else return .nothing

/-- The workflow has returned. -/
def success (suspended : Bool) : SM V Tally :=
  if suspended then do
    if ← commit id state (call.deferred state) then return .rescheduled else return .nothing
  else
    match d.timing with
    | .at_ _ => do
      if ← commit id state { state with status := .done } then return .fired else return .nothing
    | _ =>
      match computeNext d state.nextRunAt call.now with
      | .error e => throw (.cron e)
      | .ok next => do
        if ← commit id state ⟨next, 0, state.fireCount + 1, .pending, none⟩ then return .fired
        else return .nothing

/-- The workflow is run, as the trigger's owner. -/
def runTrigger : SM V Bool :=
  match d.orgId, call.runnerForOrg with
  | some orgId, false => throw (.unreachable id orgId)
  | _, _ => perform (.runWorkflow d.name d.input (runIdOf id state) (callerOfTrigger d))

/-- The trigger fires. -/
def fire : SM V Tally := do
  match ← attempt (if call.budgetGuard then perform (.budgetGuard id d call.now) else return ()) with
  | .error e => call.budgetSkip id state e
  | .ok _ =>
    match ← attempt (call.runTrigger id d state) with
    | .error e => if e.isBusy then call.busySkip id state e else call.failure id d state e
    | .ok suspended => call.success id d state suspended

/-- One trigger. The lock is released whatever is thrown. -/
def pollTrigger : SM V Tally := do
  let d ← perform (.getDef id)
  let state ← perform (.getState id)
  match d, state with
  | some d, some state =>
    if state.status ≠ .pending ∨ call.now < state.nextRunAt then return .nothing
    else if ← perform (.acquireLock (runIdOf id state)) then
      let result ← attempt (call.fire id d state)
      perform (.release (runIdOf id state))
      match result with
      | .ok tally => return tally
      | .error e => throw e
    else return .skipped
  | _, _ => return .nothing

/-- The triggers, one after another. -/
def pollAll : List JsString → PollResult → SM V PollResult
  | [], out => return out
  | id :: ids, out => do
    let tally ← call.pollTrigger id
    pollAll ids (out.add tally)

def pollScheduler : SM V PollResult := do
  let ids ← perform .listDefs
  call.pollAll ids ⟨0, 0, 0, 0⟩

end PollCall

/-! ## Together -/

/-- The poll `i` has committed a state. -/
structure Commit where
  i : ℕ
  id : JsString
  before : TriggerState
  after : TriggerState
  deriving DecidableEq

/-- The journal, and what has been committed, the latest first. -/
structure SchedWorld (V : Type) where
  defs : List (JsString × TriggerDef V)
  states : JsString → Option TriggerState
  deferrals : JsString → Option ℕ
  trace : List Commit

/-- What is outside. A fault is one of the journal, with or without effect. -/
structure SchedAnswer (V : Type) where
  lock : Bool
  guard : Except SchedError Unit
  outcome : Except SchedError Bool
  fault : Option SchedError
  applied : Bool

/-- An operation of the poll `i` on the journal. -/
def schedExec (i : ℕ) (a : SchedAnswer V) : (o : SchedOp V) → SchedWorld V → o.Ans × SchedWorld V
  | .listDefs, w => (w.defs.map Prod.fst, w)
  | .getDef id, w => (w.defs.lookup id, w)
  | .getState id, w => (w.states id, w)
  | .acquireLock _, w => (a.lock, w)
  | .release _, w => ((), w)
  | .budgetGuard .., w => ((), w)
  | .runWorkflow .., w => (false, w)
  | .putIfMatch id expected next, w =>
    if w.states id = some expected then
      (true, { w with
        states := Function.update w.states id (some next),
        trace := ⟨i, id, expected, next⟩ :: w.trace })
    else (false, w)
  | .putBudgetSkip .., w => ((), w)
  | .getDeferrals id, w => (w.deferrals id, w)
  | .putBusySkip id _ _ _ n, w =>
    ((), { w with deferrals := Function.update w.deferrals id (some n) })
  | .putFail .., w => ((), w)

/-- The journal, the budget and the workflows. -/
def schedMachine : Machine (SchedOp V) SchedOp.Res (SchedWorld V) (SchedAnswer V) Empty where
  exec i a o w :=
    match o, a.fault with
    | .budgetGuard .., _ => (a.guard, w)
    | .runWorkflow .., _ => (a.outcome, w)
    | o, some e => (.error e, if a.applied then (schedExec i a o w).2 else w)
    | o, none => (.ok (schedExec i a o w).1, (schedExec i a o w).2)
  env e _ := e.elim

/-- The polls before any of them. -/
def schedStart (w : SchedWorld V) (polls : ℕ → PollCall) :
    Conf (SchedOp V) SchedOp.Res (Except SchedError PollResult) (SchedWorld V) :=
  ⟨w, fun i => (polls i).pollScheduler.run⟩

/-- After the moves `ms`. -/
def schedAfter (w : SchedWorld V) (polls : ℕ → PollCall) (ms : List (Move (SchedAnswer V) Empty)) :
    Conf (SchedOp V) SchedOp.Res (Except SchedError PollResult) (SchedWorld V) :=
  schedMachine.play (schedStart w polls) ms

end Gnldev.Scheduler
