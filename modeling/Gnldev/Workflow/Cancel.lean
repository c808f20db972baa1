import Gnldev.Lib.Exceptions
import Gnldev.Workflow.SideEffect

/-!
# Canceling a run

A run of a workflow goes from step to step (`workflow.ts`, `runResumable`). Before each
step it looks for the flag of a cancellation; at its end it writes a record of its state,
for the registry of all runs. A cancellation (`cancelWorkflowRun`) reads that record,
writes the flag, and writes the record.

* `runResumable`, `cancelWorkflowRun`: the calls; what a step does is answered by the
  environment;
* `cancelMachine`: any number of them, on one run.
-/

namespace Gnldev.Workflow

/-- The state of a run, in the registry. -/
inductive RunState where
  | suspended
  | completed
  | canceled
  deriving DecidableEq

/-- The record of a run (`WorkflowRunStatus`), without the time it was written. -/
structure WorkflowRunStatus where
  status : RunState
  stepId : Option JsString
  waitId : Option JsString
  reason : Option JsString
  workflowName : Option JsString
  deriving DecidableEq

variable {V : Type}

/-- What a run returns (`WorkflowResult`). -/
inductive WorkflowResult (V : Type) where
  | completed (output : V)
  | suspended (stepId waitId : JsString)
  | paused (stepId : JsString) (partial_ : V)
  | canceled (stepId reason : JsString)

/-- What a call does. -/
inductive RunOp (V : Type) where
  /-- Deliver what a suspended step waits for. -/
  | putResume (waitId : JsString) (payload : V)
  | getFlag
  | putFlag (reason : Option JsString)
  /-- Has the caller's signal been aborted? -/
  | aborted
  | getStatus
  | putStatus (record : WorkflowRunStatus)
  | putSuspend (stepId waitId : JsString)
  /-- A step is started, and ends. -/
  | start (stepId : JsString) (input : V)
  | finish (stepId : JsString) (input : V)

/-- The answers. -/
abbrev RunOp.Ans : RunOp V → Type
  | getFlag => Option (Option JsString)
  | aborted => Bool
  | getStatus => Option WorkflowRunStatus
  | finish _ _ => V
  | _ => Unit

abbrev RunOp.Res (o : RunOp V) : Type := Except StepError o.Ans

/-- The programs of a call. -/
abbrev RM (V : Type) := ExceptT StepError (Prog (RunOp V) RunOp.Res)

def perform_ (o : RunOp V) : RM V o.Ans := ExceptT.mk (Prog.perform o)

/-! ## Running -/

/-- A call of `runResumable`: the ids of the steps, and the options. -/
structure ResumeCall (V : Type) where
  steps : List JsString
  input : V
  maxSteps : Option ℕ
  resume : List (JsString × V)
  workflowName : Option JsString

/-- The record is written if it can be. -/
def putStatus (workflowName : Option JsString) (status : RunState)
    (stepId waitId reason : Option JsString) : RM V Unit :=
  tryCatch (perform_ (.putStatus ⟨status, stepId, waitId, reason, workflowName⟩)) fun _ => return ()

namespace ResumeCall

variable (c : ResumeCall V)

/-- The run is canceled, by the flag or by the signal. -/
def stop (stepId : JsString) (flag : Option (Option JsString)) : RM V (WorkflowResult V) := do
  if flag.isNone then perform_ (.putFlag (some (js "signal")))
  let reason := flag.join.getD (js "signal")
  putStatus c.workflowName .canceled (some stepId) none (some reason)
  return .canceled stepId reason

/-- A step; a suspension ends the call. -/
def runTop (stepId : JsString) (cur : V) : RM V (V ⊕ WorkflowResult V) :=
  tryCatch
    (do
      perform_ (.start stepId cur)
      return .inl (← perform_ (.finish stepId cur)))
    fun
    | .suspended waitId => do
      perform_ (.putSuspend stepId waitId)
      putStatus c.workflowName .suspended (some stepId) (some waitId) none
      return .inr (.suspended stepId waitId)
    | e => throw e

/-- There is a flag, or the signal was aborted. -/
def isStopped (flag : Option (Option JsString)) : RM V Bool :=
  if flag.isSome then return true else perform_ .aborted

/-- The steps from the position `i` on. -/
def runFrom : List JsString → ℕ → V → RM V (WorkflowResult V)
  | [], _, cur => do
    putStatus c.workflowName .completed none none none
    return .completed cur
  | stepId :: steps, i, cur => do
    let flag ← perform_ .getFlag
    if ← isStopped flag then c.stop stepId flag
    else if c.maxSteps.any (· ≤ i) then return .paused stepId cur
    else
      match ← c.runTop stepId cur with
      | .inl cur => runFrom steps (i + 1) cur
      | .inr result => return result

/-- The resume payloads, one by one. -/
def deliver : List (JsString × V) → RM V Unit
  | [] => return ()
  | (waitId, payload) :: rest => do
    perform_ (.putResume waitId payload)
    deliver rest

def runResumable : RM V (WorkflowResult V) := do
  deliver c.resume
  c.runFrom c.steps 0 c.input

end ResumeCall

/-- Cancel the run, unless it has completed. -/
def cancelWorkflowRun (reason : Option JsString) : RM V Bool := do
  let st ← perform_ .getStatus
  if st.any (·.status = .completed) then return false
  else
    perform_ (.putFlag reason)
    perform_ (.putStatus ⟨.canceled, st.bind (·.stepId), none, reason, st.bind (·.workflowName)⟩)
    return true

/-! ## Together -/

/-- A call on the run. -/
inductive RunJob (V : Type) where
  | resume (c : ResumeCall V)
  | cancel (reason : Option JsString)

/-- What it returns. -/
abbrev RunResult (V : Type) := Except StepError (WorkflowResult V) ⊕ Except StepError Bool

def RunJob.prog : RunJob V → Prog (RunOp V) RunOp.Res (RunResult V)
  | resume c => .inl <$> c.runResumable.run
  | cancel reason => .inr <$> (cancelWorkflowRun reason).run

/-- What happens to the run, as a history. -/
inductive RunEvent where
  | flagged (i : ℕ)
  /-- The call has looked for the flag, and it was there or not. -/
  | checked (i : ℕ) (seen : Bool)
  | started (i : ℕ)
  /-- A step of the call has returned. -/
  | ended (i : ℕ)
  deriving DecidableEq

/-- The flag with its reason, the record of the run, and what has happened, the latest
    first. -/
structure RunWorld where
  flag : Option (Option JsString)
  status : Option WorkflowRunStatus
  trace : List RunEvent

/-- What is outside: the outcome of a step, the signal, and whether the journal throws, with
    or without effect. -/
structure RunAnswer (V : Type) where
  outcome : Except StepError V
  aborted : Bool
  fault : Option JsString
  applied : Bool

/-- The effect of a write of the call `i`. -/
def runEffect (i : ℕ) : RunOp V → RunWorld → RunWorld
  | .putFlag reason, w => { w with flag := some reason, trace := .flagged i :: w.trace }
  | .putStatus record, w => { w with status := some record }
  | _, w => w

/-- The journal and the steps. -/
def cancelMachine : Machine (RunOp V) RunOp.Res RunWorld (RunAnswer V) Unit where
  exec i a o w :=
    match o, a.fault with
    | .start _ _, _ => (.ok (), { w with trace := .started i :: w.trace })
    | .finish _ _, _ => (a.outcome, match a.outcome with
      | .ok _ => { w with trace := .ended i :: w.trace }
      | .error _ => w)
    | .aborted, _ => (.ok a.aborted, w)
    | o, some e => (.error (.thrown e), if a.applied then runEffect i o w else w)
    | .getFlag, none => (.ok w.flag, { w with trace := .checked i w.flag.isSome :: w.trace })
    | .getStatus, none => (.ok w.status, w)
    | .putResume _ _, none => (.ok (), w)
    | .putFlag reason, none => (.ok (), runEffect i (.putFlag (V := V) reason) w)
    | .putStatus record, none => (.ok (), runEffect i (.putStatus (V := V) record) w)
    | .putSuspend _ _, none => (.ok (), w)
  env _ w := w

/-- The calls before any of them, on any record. -/
def cancelStart (status : Option WorkflowRunStatus) (jobs : ℕ → RunJob V) :
    Conf (RunOp V) RunOp.Res (RunResult V) RunWorld :=
  ⟨⟨none, status, []⟩, fun i => (jobs i).prog⟩

end Gnldev.Workflow
