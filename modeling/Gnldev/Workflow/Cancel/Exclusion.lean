import Gnldev.Workflow.Cancel

/-!
# Cancellation and completion

A run should be canceled or completed, not both (`NeverBoth`). But the flag is not looked
for after the last step, and the record is written by plain puts, on what was read before:
a run whose last step is being made when the flag is written completes, and says so over
the record of the cancellation (`cancel_completes`).

The two exclude each other (`cancel_excludes_completion`) when no call records a
completion or a suspension after the flag has been written, the record of a completion is
not lost, and the flag is not written over a completion (`Prompt`).
-/

namespace Gnldev.Workflow

open Prog Function

variable {V : Type}

/-! ## What is promised -/

/-- After the moves `ms`. -/
def cancelAfter (status : Option WorkflowRunStatus) (jobs : ℕ → RunJob V)
    (ms : List (Move (RunAnswer V) Unit)) : Conf (RunOp V) RunOp.Res (RunResult V) RunWorld :=
  cancelMachine.play (cancelStart status jobs) ms

/-- The calls on a run, in the course of the moves `ms`. -/
structure NeverBoth (status : Option WorkflowRunStatus) (jobs : ℕ → RunJob V)
    (ms : List (Move (RunAnswer V) Unit)) : Prop where
  /-- Who completes, against a cancellation, has made its last step before the flag. -/
  late : ∀ i j c x pre past, (cancelAfter status jobs ms).procs j = .pure (.inr (.ok true)) →
    jobs i = .resume c → (cancelAfter status jobs ms).procs i = .pure (.inl (.ok (.completed x))) →
    (cancelAfter status jobs ms).world.trace = pre ++ .flagged j :: past →
    c.steps.length ≤ past.count (.ended i)
  /-- No step is started after a look that finds the flag. -/
  boundary : ∀ i pre past, (cancelAfter status jobs ms).world.trace = pre ++ .started i :: past →
    .checked i true ∉ past
  /-- After a cancellation, the calls that start return that the run is canceled. -/
  later : ∀ n j k c r,
    (cancelAfter status jobs (ms.take n)).procs j = .pure (.inr (.ok true)) → jobs k = .resume c →
    (cancelAfter status jobs (ms.take n)).procs k = (jobs k).prog →
    (cancelAfter status jobs ms).procs k = .pure (.inl (.ok r)) →
    ∃ stepId reason, r = .canceled stepId reason
  /-- After a cancellation the record says so. -/
  record : ∀ n j, (cancelAfter status jobs (ms.take n)).procs j = .pure (.inr (.ok true)) →
    ∃ st, (cancelAfter status jobs ms).world.status = some st ∧ st.status = .canceled
  /-- After a completion, the calls that start neither cancel nor find the run canceled. -/
  completed : ∀ n i x k,
    (cancelAfter status jobs (ms.take n)).procs i = .pure (.inl (.ok (.completed x))) →
    (cancelAfter status jobs (ms.take n)).procs k = (jobs k).prog →
    (cancelAfter status jobs ms).procs k ≠ .pure (.inr (.ok true)) ∧
      ∀ stepId reason, (cancelAfter status jobs ms).procs k ≠
        .pure (.inl (.ok (.canceled stepId reason)))

/-- The record of the run says that it has completed. -/
def RunWorld.isCompleted (w : RunWorld) : Prop := w.status.map (·.status) = some .completed

instance (w : RunWorld) : Decidable w.isCompleted := inferInstanceAs (Decidable (_ = _))

/-- No call acts on what has changed since it has looked: a completion is recorded, and a
    suspension, before there is a flag, a suspension not over a completion; the record of a
    completion is not lost; and the flag is not written over a completion. -/
def Prompt (w : RunWorld) (_ : ℕ) : (o : RunOp V) → o.Res → Prop
  | .putFlag _, _ => ¬w.isCompleted
  | .putStatus record, r =>
    match record.status with
    | .completed => w.flag = none ∧ r.toBool
    | .suspended => w.flag = none ∧ ¬w.isCompleted
    | .canceled => True
  | _, _ => True

/-! ## What a call can do -/

/-- What a call knows, and has done. -/
structure RunPhase where
  /-- There is a flag. -/
  flagged : Bool
  /-- It has looked for the flag, and there was none. -/
  passed : Bool
  /-- It has recorded a completion; it has tried, and the record is lost. -/
  completed : Bool
  botched : Bool
  /-- It has recorded a cancellation. -/
  won : Bool

def RunPhase.init : RunPhase := ⟨false, false, false, false, false⟩

/-- What a call knows after an operation. -/
def RunPhase.learn (s : RunPhase) : (o : RunOp V) → o.Res → RunPhase
  | .getFlag, .ok (some _) => { s with flagged := true }
  | .getFlag, .ok none => { s with passed := true }
  | .putFlag _, .ok _ => { s with flagged := true }
  | .putStatus record, .ok _ =>
    match record.status with
    | .completed => { s with completed := true }
    | .canceled => { s with won := true }
    | .suspended => s
  | .putStatus record, .error _ =>
    if record.status = .completed then { s with botched := true } else s
  | _, _ => s

/-- What a call may do. -/
def MayRun (s : RunPhase) : RunOp V → Prop
  | .putStatus record => record.status = .canceled → s.flagged
  | .start _ _ => s.passed ∧ s.flagged = false
  | _ => True

/-- The protocol of a call. -/
def RunStep (s : RunPhase) (o : RunOp V) (r : o.Res) (s' : RunPhase) : Prop :=
  MayRun s o ∧ s' = s.learn o r

/-- What a call has done when it returns. -/
def RunEnds : RunPhase → WorkflowResult V → Prop
  | s, .completed _ => s.completed ∨ s.botched
  | s, .canceled _ _ => s.flagged
  | s, _ => s.passed

def JobEnds (s : RunPhase) : RunResult V → Prop
  | .inl (.ok result) => RunEnds s result
  | .inr (.ok true) => s.won
  | _ => True

section Call

variable {P : RunPhase → Prop}

theorem perform_runs {o : RunOp V} {Q : RunPhase → o.Ans → Prop} {X : RunPhase → StepError → Prop}
    (ho : ∀ s, P s → MayRun s o) (hQ : ∀ s r, P s → Q (s.learn o (.ok r)) r)
    (hX : ∀ s e, P s → X (s.learn o (.error e)) e) : Runs RunStep P (perform_ o) Q X := by
  intro s hs r
  refine ⟨_, ⟨ho s hs, rfl⟩, ?_⟩
  rcases r with e | r
  · exact hX s e hs
  · exact hQ s r hs

/-- An operation that teaches nothing. -/
theorem quiet_runs {o : RunOp V} (ho : ∀ s, P s → MayRun s o)
    (hl : ∀ s r, RunPhase.learn s o r = s) :
    Runs RunStep P (perform_ o) (fun s _ => P s) fun s _ => P s :=
  perform_runs ho (fun s r hs => by rw [hl]; exact hs) fun s e hs => by rw [hl]; exact hs

theorem putStatus_runs {name : Option JsString} {status : RunState} {stepId waitId reason}
    {Q : RunPhase → Prop} (ho : ∀ s, P s → status = .canceled → s.flagged)
    (hQ : ∀ s (r : Except StepError Unit), P s →
      Q (s.learn (.putStatus (V := V) ⟨status, stepId, waitId, reason, name⟩) r)) :
    Runs RunStep P (putStatus name status stepId waitId reason : RM V Unit) (fun s _ => Q s)
      fun _ _ => True :=
  Runs.tryCatch (perform_runs (X := fun s _ => Q s) ho (fun s r hs => hQ s (.ok r) hs)
    fun s e hs => hQ s (.error e) hs) fun _ => runs_pure fun _ hs => hs

variable (c : ResumeCall V)

theorem stop_runs (stepId : JsString) (flag : Option (Option JsString)) :
    Runs RunStep (fun s => flag.isSome → s.flagged) (c.stop stepId flag) RunEnds
      fun _ _ => True := by
  have hrest : Runs RunStep (fun s => s.flagged = true) (do
      let reason := flag.join.getD (js "signal")
      putStatus c.workflowName .canceled (some stepId) none (some reason)
      return .canceled stepId reason : RM V (WorkflowResult V)) RunEnds fun _ _ => True := by
    refine Runs.bind (Q := fun s _ => s.flagged) ?_ fun _ => runs_pure fun _ hs => hs
    refine putStatus_runs (fun _ hs _ => hs) fun s r hs => ?_
    rcases r with e | r <;> exact hs
  rw [ResumeCall.stop]
  split
  · refine Runs.bind (Q := fun s _ => s.flagged) ?_ fun _ => hrest
    exact perform_runs (fun _ _ => trivial) (fun _ _ _ => rfl) fun _ _ _ => trivial
  · next hflag =>
    refine hrest.pre fun s hs => hs ?_
    rwa [Option.isNone_iff_eq_none, ← ne_eq, ← Option.isSome_iff_ne_none] at hflag

theorem runTop_runs (stepId : JsString) (cur : V) :
    Runs RunStep (fun s => s.passed ∧ s.flagged = false) (c.runTop stepId cur)
      (fun s x => s.passed ∧ s.flagged = false ∧ ∀ r, x = .inr r → RunEnds s r)
      fun _ _ => True := by
  refine Runs.tryCatch (Y := fun s _ => s.passed ∧ s.flagged = false) ?_ fun e => ?_
  · refine Runs.bind (quiet_runs (fun _ hs => hs) fun _ _ => rfl) fun _ => ?_
    refine Runs.bind (quiet_runs (fun _ _ => trivial) fun _ _ => rfl) fun x => runs_pure ?_
    exact fun s hs => ⟨hs.1, hs.2, nofun⟩
  · rcases e with _ | _ | _ | _ | waitId | _
    case suspended =>
      refine Runs.bind (Q := fun s _ => s.passed ∧ s.flagged = false) ?_ fun _ => ?_
      · exact (quiet_runs (o := .putSuspend stepId waitId) (fun _ _ => trivial)
          fun _ _ => rfl).drop
      refine Runs.bind (Q := fun s _ => s.passed ∧ s.flagged = false) ?_ fun _ => runs_pure ?_
      · refine putStatus_runs (fun _ _ => nofun) fun s r hs => ?_
        rcases r with e | r <;> exact hs
      · rintro s hs
        refine ⟨hs.1, hs.2, ?_⟩
        rintro r ⟨⟩
        exact hs.1
    all_goals exact runs_throw fun _ _ => trivial

theorem runFrom_runs (steps : List JsString) (i : ℕ) (cur : V) :
    Runs RunStep (fun s => s.flagged = false) (c.runFrom steps i cur) RunEnds fun _ _ => True := by
  induction steps generalizing i cur with
  | nil =>
    refine Runs.bind (Q := fun (s : RunPhase) _ => s.completed = true ∨ s.botched = true) ?_
      fun _ => runs_pure fun _ hs => hs
    refine putStatus_runs (fun _ _ => nofun) fun s r _ => ?_
    rcases r with e | r
    · exact .inr rfl
    · exact .inl rfl
  | cons stepId steps ih =>
    refine Runs.bind (Q := fun s flag => (flag.isSome → s.flagged) ∧
      (flag = none → s.passed ∧ s.flagged = false)) ?_ fun flag => ?_
    · refine perform_runs (fun _ _ => trivial) (fun s flag hs => ?_) fun _ _ _ => trivial
      rcases flag with _ | reason
      · exact ⟨nofun, fun _ => ⟨rfl, hs⟩⟩
      · exact ⟨fun _ => rfl, nofun⟩
    refine Runs.bind (Q := fun s stopped => (flag.isSome → s.flagged) ∧
      (stopped = false → s.passed ∧ s.flagged = false)) ?_ fun stopped => ?_
    · rw [ResumeCall.isStopped]
      split
      · exact runs_pure fun _ hs => ⟨hs.1, nofun⟩
      · next hflag =>
        refine (quiet_runs (o := .aborted) (fun _ _ => trivial) fun _ _ => rfl).conseq (fun _ h => h)
          (fun s _ hs => ⟨hs.1, fun _ => hs.2 ?_⟩) fun _ _ _ => trivial
        simpa using hflag
    rcases stopped with _ | _
    swap
    · exact (stop_runs c stepId flag).pre fun _ hs => hs.1
    rw [if_neg Bool.false_ne_true]
    split
    · exact runs_pure fun _ hs => (hs.2 rfl).1
    refine Runs.bind (Runs.pre (runTop_runs c stepId cur) fun _ hs => hs.2 rfl) fun x => ?_
    rcases x with cur | result
    · exact (ih _ _).pre fun _ hs => hs.2.1
    · exact runs_pure fun _ hs => hs.2.2 result rfl

theorem deliver_runs (payloads : List (JsString × V)) :
    Runs RunStep P (ResumeCall.deliver payloads) (fun s _ => P s) fun _ _ => True := by
  induction payloads with
  | nil => exact runs_pure fun _ hs => hs
  | cons p payloads ih =>
    obtain ⟨waitId, payload⟩ := p
    exact Runs.bind (quiet_runs (o := .putResume waitId payload) (fun _ _ => trivial)
      fun _ _ => rfl).drop fun _ => ih

theorem cancelWorkflowRun_runs (reason : Option JsString) :
    Runs RunStep (fun _ => True) (cancelWorkflowRun reason : RM V Bool) (fun s b => b → s.won)
      fun _ _ => True := by
  refine Runs.bind (Q := fun _ _ => True) ?_ fun st => ?_
  · exact perform_runs (fun _ _ => trivial) (fun _ _ _ => trivial) fun _ _ _ => trivial
  split
  · exact runs_pure fun _ _ => nofun
  · refine Runs.bind (Q := fun s _ => s.flagged) ?_ fun _ => ?_
    · exact perform_runs (fun _ _ => trivial) (fun _ _ _ => rfl) fun _ _ _ => trivial
    refine Runs.bind (Q := fun s _ => s.won) ?_ fun _ => runs_pure fun _ hs _ => hs
    exact perform_runs (fun _ hs _ => hs) (fun _ _ _ => rfl) fun _ _ _ => trivial

theorem job_follows (job : RunJob V) : job.prog.Follows RunStep RunPhase.init JobEnds := by
  rcases job with c | reason
  · have hrun : Runs RunStep (· = RunPhase.init) c.runResumable RunEnds fun _ _ => True :=
      Runs.bind (deliver_runs c.resume) fun _ => (runFrom_runs c c.steps 0 c.input).pre
        fun s hs => by rw [hs]; rfl
    refine (hrun _ rfl).bind fun s r hr => ?_
    rcases r with e | result
    · trivial
    · exact hr
  · refine (cancelWorkflowRun_runs reason _ trivial).bind fun s r hr => ?_
    rcases r with e | _ | _
    · trivial
    · trivial
    · exact hr rfl

end Call

/-! ## The invariant -/

/-- What the call `i` knows is so. -/
structure Notes (w : RunWorld) (i : ℕ) (s : RunPhase) : Prop where
  flagged : s.flagged → w.flag.isSome
  won : s.won → w.flag.isSome ∧ w.status.map (·.status) = some .canceled
  completed : s.completed → w.flag = none ∧ w.isCompleted
  botched : s.botched = false
  seen : .checked i true ∈ w.trace → s.flagged

/-- A call knows what is so, and starts no step when it has seen the flag. -/
structure CancelInv (w : RunWorld) (ph : ℕ → RunPhase) : Prop where
  notes : ∀ i, Notes w i (ph i)
  boundary : ∀ i pre past, w.trace = pre ++ .started i :: past → .checked i true ∉ past

namespace CancelInv

variable {w w' : RunWorld} {ph : ℕ → RunPhase} {i : ℕ} {s : RunPhase}

theorem init (status : Option WorkflowRunStatus) :
    CancelInv ⟨none, status, []⟩ fun _ => RunPhase.init := by
  refine ⟨fun i => ⟨nofun, nofun, nofun, rfl, nofun⟩, fun i pre past h => ?_⟩
  have hlen := congrArg List.length h
  simp at hlen

theorem notes_update (h : ∀ j, j ≠ i → Notes w j (ph j)) (hi : Notes w i s) (j : ℕ) :
    Notes w j (update ph i s j) :=
  (forall_update_iff ph fun j s => Notes w j s).2 ⟨hi, h⟩ j

/-- An event that starts no step. -/
theorem boundary_cons (h : CancelInv w ph) {e : RunEvent} (he : ∀ k, e ≠ .started k) :
    ∀ i pre past, e :: w.trace = pre ++ .started i :: past → .checked i true ∉ past := by
  intro i pre past hsplit
  rcases pre with _ | ⟨e', pre⟩
  · exact absurd (List.cons.inj hsplit).1 (he i)
  · exact h.boundary i pre past (List.cons.inj hsplit).2

/-- Nothing happens. -/
theorem idle (h : CancelInv w ph) (hs : Notes w i s) : CancelInv w (update ph i s) :=
  ⟨notes_update (fun j _ => h.notes j) hs, h.boundary⟩

/-- An event of the call `i` that leaves the flag and the record. -/
theorem event (h : CancelInv w ph) {e : RunEvent} (he : ∀ k, e ≠ .started k)
    (hc : ∀ k, k ≠ i → e ≠ .checked k true) (hs : Notes { w with trace := e :: w.trace } i s) :
    CancelInv { w with trace := e :: w.trace } (update ph i s) := by
  refine ⟨notes_update (fun j hj => ?_) hs, h.boundary_cons he⟩
  have hj' := h.notes j
  refine ⟨hj'.flagged, hj'.won, hj'.completed, hj'.botched, fun hseen => hj'.seen ?_⟩
  exact (List.mem_cons.1 hseen).resolve_left (Ne.symm (hc j hj))

/-- A step is started by a call that has not seen the flag. -/
theorem start (h : CancelInv w ph) (hi : (ph i).flagged = false) :
    CancelInv { w with trace := .started i :: w.trace } (update ph i (ph i)) := by
  have hnotes (j : ℕ) : Notes { w with trace := .started i :: w.trace } j (ph j) := by
    have hj := h.notes j
    refine ⟨hj.flagged, hj.won, hj.completed, hj.botched, fun hseen => hj.seen ?_⟩
    exact (List.mem_cons.1 hseen).resolve_left nofun
  refine ⟨notes_update (fun j _ => hnotes j) (hnotes i), fun j pre past hsplit => ?_⟩
  rcases pre with _ | ⟨e, pre⟩
  · obtain ⟨he, rfl⟩ := List.cons.inj hsplit
    obtain rfl := RunEvent.started.inj he
    intro hseen
    exact Bool.false_ne_true (hi.symm.trans ((h.notes i).seen hseen))
  · exact h.boundary j pre past (List.cons.inj hsplit).2

/-- The flag is written, by a call that knows it or not. -/
theorem flag (h : CancelInv w ph) (hw : ¬w.isCompleted) (reason : Option JsString) (known : Bool) :
    CancelInv { w with flag := some reason, trace := .flagged i :: w.trace }
      (update ph i { ph i with flagged := (ph i).flagged || known }) := by
  have hnotes (j : ℕ) (b : Bool) : Notes
      { w with flag := some reason, trace := .flagged i :: w.trace } j
      { ph j with flagged := (ph j).flagged || b } := by
    have hj := h.notes j
    refine ⟨fun _ => rfl, fun hwon => ⟨rfl, (hj.won hwon).2⟩,
      fun hcomp => absurd (hj.completed hcomp).2 hw, hj.botched, fun hseen => ?_⟩
    have hflagged := hj.seen ((List.mem_cons.1 hseen).resolve_left nofun)
    rw [hflagged]
    rfl
  refine ⟨notes_update (fun j _ => ?_) (hnotes i known), h.boundary_cons nofun⟩
  have hj := hnotes j false
  rwa [Bool.or_false] at hj

/-- The record is written: what it says is true, and it takes back nothing. -/
theorem record (h : CancelInv w ph) {record : WorkflowRunStatus}
    (hcanceled : record.status = .canceled → w.flag.isSome)
    (hother : record.status ≠ .canceled → w.flag = none)
    (hsuspended : record.status = .suspended → ¬w.isCompleted) :
    CancelInv { w with status := some record } ph := by
  refine ⟨fun j => ?_, h.boundary⟩
  have hj := h.notes j
  refine ⟨hj.flagged, fun hwon => ⟨(hj.won hwon).1, ?_⟩, fun hcomp => ⟨(hj.completed hcomp).1, ?_⟩,
    hj.botched, hj.seen⟩
  · by_cases hrec : record.status = .canceled
    · exact congrArg some hrec
    · have hsome := (hj.won hwon).1
      rw [hother hrec] at hsome
      contradiction
  · obtain ⟨hnone, hdone⟩ := hj.completed hcomp
    rcases hrec : record.status with _ | _ | _
    · exact absurd hdone (hsuspended hrec)
    · exact congrArg some hrec
    · have hsome := hcanceled hrec
      rw [hnone] at hsome
      contradiction

/-- A call that learns nothing. -/
theorem same (h : CancelInv w ph) (i : ℕ) : CancelInv w (update ph i (ph i)) :=
  h.idle (h.notes i)

/-- The record is written, or is lost, and if it is written the call may know. -/
theorem putStatus (h : CancelInv w ph) {record : WorkflowRunStatus} {r : Except StepError Unit}
    (written : Bool) (hr : r.toBool → written)
    (hmay : MayRun (ph i) (.putStatus (V := V) record))
    (hok : Prompt w i (.putStatus (V := V) record) r) :
    CancelInv (if written then { w with status := some record } else w)
      (update ph i ((ph i).learn (.putStatus (V := V) record) r)) := by
  have hcanceled (hrec : record.status = .canceled) : w.flag.isSome :=
    (h.notes i).flagged (hmay hrec)
  have hcompleted (hrec : record.status = .completed) : w.flag = none ∧ r.toBool := by
    simpa only [Prompt, hrec] using hok
  have hsuspended (hrec : record.status = .suspended) : w.flag = none ∧ ¬w.isCompleted := by
    simpa only [Prompt, hrec] using hok
  have hwrite : CancelInv { w with status := some record } ph := by
    refine h.record hcanceled (fun hrec => ?_) fun hrec => (hsuspended hrec).2
    rcases hst : record.status with _ | _ | _
    · exact (hsuspended hst).1
    · exact (hcompleted hst).1
    · exact absurd hst hrec
  have hi := hwrite.notes i
  rcases r with e | ⟨⟩
  · -- A completion is never lost, so that the call has learned nothing.
    have hst : record.status ≠ .completed := fun hrec =>
      Bool.false_ne_true (hcompleted hrec).2
    rw [RunPhase.learn, if_neg hst]
    split
    · exact hwrite.same i
    · exact h.same i
  · rw [if_pos (hr rfl)]
    refine hwrite.idle ?_
    rcases hst : record.status with _ | _ | _
    all_goals simp only [RunPhase.learn, hst]
    · exact hi
    · exact ⟨hi.flagged, hi.won, fun _ => ⟨(hcompleted hst).1, congrArg some hst⟩, hi.botched,
        hi.seen⟩
    · exact ⟨hi.flagged, fun _ => ⟨hcanceled hst, congrArg some hst⟩, hi.completed, hi.botched,
        hi.seen⟩

/-- The flag is looked for. -/
theorem getFlag (h : CancelInv w ph) (i : ℕ) :
    CancelInv { w with trace := .checked i w.flag.isSome :: w.trace }
      (update ph i ((ph i).learn (.getFlag (V := V)) (.ok w.flag))) := by
  have hi := h.notes i
  refine h.event nofun (fun k hk hseen => hk (RunEvent.checked.inj hseen).1.symm) ?_
  obtain ⟨_ | reason, status, trace⟩ := w
  all_goals refine ⟨?_, hi.won, hi.completed, hi.botched, ?_⟩
  · exact hi.flagged
  · intro hseen
    exact hi.seen ((List.mem_cons.1 hseen).resolve_left nofun)
  · exact fun _ => rfl
  · exact fun _ => rfl

/-- An operation of a call. -/
theorem step (h : CancelInv w ph) {o : RunOp V} {a : RunAnswer V} {s' : RunPhase}
    (hstep : RunStep (ph i) o (cancelMachine.exec i a o w).1 s')
    (hok : Prompt w i o (cancelMachine.exec i a o w).1) :
    CancelInv (cancelMachine.exec i a o w).2 (update ph i s') := by
  obtain ⟨hmay, rfl⟩ := hstep
  rcases o with ⟨waitId, payload⟩ | _ | reason | _ | _ | record | ⟨stepId, waitId⟩ | ⟨stepId, x⟩ |
    ⟨stepId, x⟩
  case start => exact h.start hmay.2
  case aborted => exact h.same i
  case finish =>
    have hi := h.notes i
    rcases hout : a.outcome with e | x
    all_goals simp only [cancelMachine, hout]
    · exact h.same i
    · refine h.event nofun nofun ⟨hi.flagged, hi.won, hi.completed, hi.botched, fun hseen => ?_⟩
      exact hi.seen ((List.mem_cons.1 hseen).resolve_left nofun)
  all_goals
    rcases hfault : a.fault with _ | e
    all_goals simp only [cancelMachine, hfault, runEffect, ite_self] at hok ⊢
  case putResume.none => exact h.same i
  case putResume.some => exact h.same i
  case getFlag.none => exact h.getFlag i
  case getFlag.some => exact h.same i
  case getStatus.none => exact h.same i
  case getStatus.some => exact h.same i
  case putSuspend.none => exact h.same i
  case putSuspend.some => exact h.same i
  case putFlag.none =>
    have hflag := h.flag (i := i) hok reason true
    rw [Bool.or_true] at hflag
    exact hflag
  case putFlag.some =>
    split
    · have hflag := h.flag (i := i) hok reason false
      rw [Bool.or_false] at hflag
      exact hflag
    · exact h.same i
  case putStatus.none => exact h.putStatus true (fun _ => rfl) hmay hok
  case putStatus.some => exact h.putStatus a.applied nofun hmay hok

end CancelInv

/-! ## A run -/

theorem cancel_follows {status : Option WorkflowRunStatus} {jobs : ℕ → RunJob V}
    {ms : List (Move (RunAnswer V) Unit)}
    (hms : cancelMachine.Meets Prompt (cancelStart status jobs) ms) :
    ∃ ph, CancelInv (cancelAfter status jobs ms).world ph ∧
      ∀ i, ((cancelAfter status jobs ms).procs i).Follows RunStep (ph i) JobEnds := by
  refine Machine.play_follows (J := CancelInv) ?_ (fun _ _ _ h => h) (CancelInv.init status)
    (fun i => job_follows (jobs i)) hms
  exact fun _ _ _ _ _ _ h hstep hok => h.step hstep hok

/-- There is a flag, and what follows it in the call has come after it. -/
structure Late (w : RunWorld) (s : RunPhase) : Prop where
  flag : w.flag.isSome
  passed : s.passed = false
  completed : s.completed = false
  botched : s.botched = false

theorem flag_exec {w : RunWorld} (h : w.flag.isSome) (i : ℕ) (a : RunAnswer V) (o : RunOp V) :
    (cancelMachine.exec i a o w).2.flag.isSome := by
  rcases o with ⟨waitId, payload⟩ | _ | reason | _ | _ | record | ⟨stepId, waitId⟩ | ⟨stepId, x⟩ |
    ⟨stepId, x⟩
  case start => exact h
  case aborted => exact h
  case finish =>
    rcases hout : a.outcome with e | x
    all_goals simpa only [cancelMachine, hout] using h
  all_goals
    rcases hfault : a.fault with _ | e
    all_goals simp only [cancelMachine, hfault, runEffect]
    all_goals first | exact h | rfl | skip
    all_goals split
    all_goals first | exact h | rfl

theorem Late.learn {w : RunWorld} {s : RunPhase} (h : Late w s) {i : ℕ} {a : RunAnswer V}
    {o : RunOp V} (hok : Prompt w i o (cancelMachine.exec i a o w).1) :
    Late (cancelMachine.exec i a o w).2 (s.learn o (cancelMachine.exec i a o w).1) := by
  have hflag := flag_exec h.flag i a o
  have hsame : Late (cancelMachine.exec i a o w).2 s := ⟨hflag, h.passed, h.completed, h.botched⟩
  rcases o with ⟨waitId, payload⟩ | _ | reason | _ | _ | record | ⟨stepId, waitId⟩ | ⟨stepId, x⟩ |
    ⟨stepId, x⟩
  case getFlag =>
    rcases hfault : a.fault with _ | e
    · obtain ⟨reason, hreason⟩ := Option.isSome_iff_exists.1 h.flag
      simp only [cancelMachine, hfault, hreason]
      exact ⟨rfl, h.passed, h.completed, h.botched⟩
    · simpa only [cancelMachine, hfault, RunPhase.learn] using hsame
  case putFlag =>
    rcases (cancelMachine.exec i a (.putFlag reason) w).1 with e | r
    · exact hsame
    · exact ⟨hflag, h.passed, h.completed, h.botched⟩
  case putStatus =>
    have hst : record.status ≠ .completed := by
      intro hrec
      simp only [Prompt, hrec] at hok
      exact absurd (hok.1 ▸ h.flag) nofun
    rcases (cancelMachine.exec i a (.putStatus record) w).1 with e | r
    · rw [RunPhase.learn, if_neg hst]
      exact hsame
    · rcases hrec : record.status with _ | _ | _
      all_goals simp only [RunPhase.learn, hrec]
      · exact hsame
      · exact absurd hrec hst
      · exact ⟨hflag, h.passed, h.completed, h.botched⟩
  all_goals exact hsame

/-- A call that starts when there is a flag finds the run canceled. -/
theorem later_canceled {c : Conf (RunOp V) RunOp.Res (RunResult V) RunWorld} {ph : ℕ → RunPhase}
    (hf : ∀ i, (c.procs i).Follows RunStep (ph i) JobEnds) (hflag : c.world.flag.isSome)
    {k : ℕ} (hk : ph k = RunPhase.init) {ms : List (Move (RunAnswer V) Unit)}
    (hms : cancelMachine.Meets Prompt c ms) {r : WorkflowResult V}
    (hr : (cancelMachine.play c ms).procs k = .pure (.inl (.ok r))) :
    ∃ stepId reason, r = .canceled stepId reason := by
  have hlate : Late c.world (ph k) := by
    rw [hk]
    exact ⟨hflag, rfl, rfl, rfl⟩
  obtain ⟨ph', hlate', hf'⟩ : ∃ ph' : ℕ → RunPhase,
      Late (cancelMachine.play c ms).world (ph' k) ∧
      ∀ i, ((cancelMachine.play c ms).procs i).Follows RunStep (ph' i) JobEnds := by
    refine Machine.play_follows (J := fun w ph => Late w (ph k)) ?_ (fun _ _ _ h => h) hlate hf hms
    rintro w ph i a o _ h ⟨-, rfl⟩ hok
    by_cases hik : k = i
    · subst hik
      rw [update_self]
      exact h.learn hok
    · rw [update_of_ne hik]
      exact ⟨flag_exec h.flag i a o, h.passed, h.completed, h.botched⟩
  have hends := hf' k
  rw [hr] at hends
  rcases r with x | ⟨stepId, waitId⟩ | ⟨stepId, x⟩ | ⟨stepId, reason⟩
  · rcases hends with hdone | hdone
    · exact absurd (hdone.symm.trans hlate'.completed) nofun
    · exact absurd (hdone.symm.trans hlate'.botched) nofun
  · exact absurd (Eq.symm hends |>.trans hlate'.passed) nofun
  · exact absurd (Eq.symm hends |>.trans hlate'.passed) nofun
  · exact ⟨stepId, reason, rfl⟩

/-- In every run in which no call acts on what has changed since it has looked, cancellation
    and completion exclude each other. -/
theorem cancel_excludes_completion (status : Option WorkflowRunStatus) (jobs : ℕ → RunJob V)
    (ms : List (Move (RunAnswer V) Unit))
    (hms : cancelMachine.Meets Prompt (cancelStart status jobs) ms) :
    NeverBoth status jobs ms := by
  obtain ⟨ph, hinv, hf⟩ := cancel_follows hms
  have hwon {j : ℕ} (hj : (cancelAfter status jobs ms).procs j = .pure (.inr (.ok true))) :
      (ph j).won := by
    have hends := hf j
    rwa [hj] at hends
  have hdone {i : ℕ} {x : V}
      (hi : (cancelAfter status jobs ms).procs i = .pure (.inl (.ok (.completed x)))) :
      (cancelAfter status jobs ms).world.flag = none := by
    have hends := hf i
    rw [hi] at hends
    rcases hends with hends | hends
    · exact ((hinv.notes i).completed hends).1
    · exact absurd (hends.symm.trans (hinv.notes i).botched) nofun
  have hstays {n i : ℕ} {r : RunResult V}
      (hi : (cancelAfter status jobs (ms.take n)).procs i = .pure r) :
      (cancelAfter status jobs ms).procs i = .pure r := by
    rw [← List.take_append_drop n ms, cancelAfter, Machine.play_append]
    exact Machine.play_pure hi _
  refine ⟨?_, hinv.boundary, ?_, ?_, ?_⟩
  · intro i j c x pre past hj _ hi _
    have hflag := ((hinv.notes j).won (hwon hj)).1
    rw [hdone hi] at hflag
    contradiction
  · intro n j k c r hj _ hk hr
    have hsplit := hms
    rw [← List.take_append_drop n ms, Machine.meets_append] at hsplit
    obtain ⟨phn, hinvn, hfn⟩ := cancel_follows hsplit.1
    have hends := hfn j
    rw [hj] at hends
    rw [← List.take_append_drop n ms, cancelAfter, Machine.play_append] at hr
    have hrestart (i : ℕ) : ((cancelAfter status jobs (ms.take n)).procs i).Follows RunStep
        (update phn k RunPhase.init i) JobEnds := by
      by_cases hik : i = k
      · subst hik
        rw [update_self]
        have hstart := job_follows (jobs i)
        rwa [← hk] at hstart
      · rw [update_of_ne hik]
        exact hfn i
    exact later_canceled hrestart ((hinvn.notes j).won hends).1 (update_self ..)
      hsplit.2 hr
  · intro n j hj
    have hst := ((hinv.notes j).won (hwon (hstays hj))).2
    exact Option.map_eq_some_iff.1 hst
  · intro n i x k hi _
    have hnone := hdone (hstays hi)
    refine ⟨fun hk => ?_, fun stepId reason hk => ?_⟩
    · have hflag := ((hinv.notes k).won (hwon hk)).1
      rw [hnone] at hflag
      contradiction
    · have hends := hf k
      rw [hk] at hends
      have hflag := (hinv.notes k).flagged hends
      rw [hnone] at hflag
      contradiction

/-! ## Two runs -/

instance (w : RunWorld) (i : ℕ) (o : RunOp V) (r : o.Res) : Decidable (Prompt w i o r) := by
  rcases o with _ | _ | _ | _ | _ | record | _ | _ | _
  case putFlag => exact inferInstanceAs (Decidable ¬_)
  case putStatus =>
    dsimp only [Prompt]
    rcases record.status with _ | _ | _ <;> infer_instance
  all_goals exact isTrue trivial

/-- A run of one step, and its cancellation. -/
def oneStep : ℕ → RunJob ℕ
  | 1 => .cancel none
  | _ => .resume ⟨[js "charge"], 0, none, [], none⟩

/-- The call `i` makes `n` operations; the step returns `7`, and nothing is lost. -/
def calls (i n : ℕ) : List (Move (RunAnswer ℕ) Unit) :=
  List.replicate n (.run i ⟨.ok 7, false, none, false⟩)

/-- The run is canceled before it is resumed: the resumed call says so, and so does the
    record. -/
theorem cancel_excludes_completion_resumed :
    (cancelAfter none oneStep (calls 1 3 ++ calls 0 2)).procs 0 =
        .pure (.inl (.ok (.canceled (js "charge") (js "signal")))) ∧
      (∀ x, (cancelAfter none oneStep (calls 1 3 ++ calls 0 2)).procs 0 ≠
        .pure (.inl (.ok (.completed x)))) ∧
      ∃ st, (cancelAfter none oneStep (calls 1 3 ++ calls 0 2)).world.status = some st ∧
        st.status = .canceled := by
  have hnever := cancel_excludes_completion none oneStep (calls 1 3 ++ calls 0 2)
    (by decide +kernel)
  refine ⟨rfl, fun x hx => ?_, hnever.record 3 1 rfl⟩
  obtain ⟨stepId, reason, h⟩ := hnever.later 3 1 0 _ (.completed x) rfl rfl rfl hx
  contradiction

/-- The step is being made when the run is canceled. It completes, over the record of the
    cancellation. -/
theorem cancel_completes :
    ¬NeverBoth none oneStep (calls 0 3 ++ calls 1 3 ++ calls 0 2) := by
  intro h
  have hlate := h.late 0 1 _ 7 [.ended 0] [.started 0, .checked 0 false] rfl rfl rfl
    (by decide +kernel)
  exact absurd hlate (by decide)

-- The step has ended when the run is canceled: this completion is none that comes too late.
example : (cancelAfter none oneStep (calls 0 4 ++ calls 1 3 ++ calls 0 1)).procs 0 =
      .pure (.inl (.ok (.completed 7))) ∧
    (cancelAfter none oneStep (calls 0 4 ++ calls 1 3 ++ calls 0 1)).procs 1 = .pure (.inr (.ok true)) ∧
    (cancelAfter none oneStep (calls 0 4 ++ calls 1 3 ++ calls 0 1)).world.trace =
      [.flagged 1, .ended 0, .started 0, .checked 0 false] :=
  ⟨rfl, rfl, rfl⟩

end Gnldev.Workflow
