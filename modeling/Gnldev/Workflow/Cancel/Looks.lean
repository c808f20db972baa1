import Gnldev.Workflow.Cancel.Exclusion

/-!
# What the look of a cancellation gives

A cancellation reads the record before it writes the flag. So in every run, whatever happens in
between, it writes the flag over a completion only if that has been recorded since the cancellation
has read the record (`meets_flagsOpen`).
-/

open List Function

namespace Gnldev.Workflow

open Prog

variable {V : Type}

/-- A cancellation has read a record that does not say that the run has completed, and only then
    writes. -/
inductive Asks : Bool → (o : RunOp V) → o.Res → Bool → Prop
  | ask {b st} : Asks b .getStatus (.ok st) (!st.any (·.status = .completed))
  | lost {b e} : Asks b .getStatus (.error e) b
  | flag {reason r} : Asks true (.putFlag reason) r true
  | record {record r} : Asks true (.putStatus record) r true

/-- The protocol of a job, as far as cancellations go. -/
def JobAsks : RunJob V → Bool → (o : RunOp V) → o.Res → Bool → Prop
  | .cancel _ => Asks
  | .resume _ => fun b _ _ b' => b' = b

theorem cancelWorkflowRun_asks (reason : Option JsString) :
    Runs Asks (· = false) (cancelWorkflowRun reason : RM V Bool) (fun _ _ => True)
      fun _ _ => True := by
  refine Runs.bind (Q := fun b st => b = !Option.any (·.status = .completed) st) ?_ fun st => ?_
  · exact runs_perform (fun b st _ => ⟨_, .ask, rfl⟩) fun b e _ => ⟨b, .lost, trivial⟩
  split
  · exact runs_pure fun _ _ => trivial
  · next hopen =>
    refine Runs.bind (Q := fun b _ => b = true) ?_ fun _ => Runs.bind (Q := fun _ _ => True) ?_
      fun _ => runs_pure fun _ _ => trivial
    · rw [Bool.not_eq_true] at hopen
      simp only [hopen, Bool.not_false]
      refine runs_perform ?_ ?_
      · rintro b x rfl
        exact ⟨true, .flag, rfl⟩
      · rintro b e rfl
        exact ⟨true, .flag, trivial⟩
    · refine runs_perform ?_ ?_
      · rintro b x rfl
        exact ⟨true, .record, trivial⟩
      · rintro b e rfl
        exact ⟨true, .record, trivial⟩

theorem job_asks (job : RunJob V) : job.prog.Follows (JobAsks job) false fun _ _ => True := by
  rcases job with c | reason
  · generalize RunJob.prog (.resume c) = p
    induction p with
    | pure x => trivial
    | op o k ih => exact fun r => ⟨false, rfl, ih r⟩
  · exact (cancelWorkflowRun_asks reason _ rfl).bind fun _ _ _ => trivial

/-- The operation records no completion. -/
def LeavesOpen (_ : RunWorld) (_ : ℕ) : (o : RunOp V) → o.Res → Prop
  | .putStatus record, _ => record.status ≠ .completed
  | _, _ => True

/-- A cancellation writes no flag over a completion. -/
def FlagsOpen (jobs : ℕ → RunJob V) (w : RunWorld) (i : ℕ) : (o : RunOp V) → o.Res → Prop
  | .putFlag _, _ => ∀ reason, jobs i = .cancel reason → ¬w.isCompleted
  | _, _ => True

/-- A run that has not completed has not after the operation. -/
theorem isCompleted_exec {w : RunWorld} {i : ℕ} {a : RunAnswer V} {o : RunOp V}
    (hok : LeavesOpen w i o (cancelMachine.exec i a o w).1)
    (h : (cancelMachine.exec i a o w).2.isCompleted) : w.isCompleted := by
  rcases o with ⟨waitId, payload⟩ | _ | reason | _ | _ | record | ⟨stepId, waitId⟩ | ⟨stepId, x⟩ |
    ⟨stepId, x⟩
  case start => exact h
  case aborted => exact h
  case finish =>
    rcases hout : a.outcome with e | x
    all_goals
      simp only [cancelMachine, hout] at h
      exact h
  all_goals
    rcases hfault : a.fault with _ | e
    all_goals simp only [cancelMachine, hfault, runEffect, ite_self] at h
  case putStatus.none => exact absurd (Option.some.inj h) hok
  case putStatus.some =>
    split at h
    · exact absurd (Option.some.inj h) hok
    · exact h
  case putFlag.some => split at h <;> exact h
  all_goals exact h

/-- What a cancellation has read is so. -/
theorem Asks.open_ {b b' : Bool} {w : RunWorld} {i : ℕ} {a : RunAnswer V} {o : RunOp V} {r : o.Res}
    (hs : Asks b o r b') (hr : (cancelMachine.exec i a o w).1 = r) (hb : b = true → ¬w.isCompleted)
    (hb' : b' = true) : ¬w.isCompleted := by
  cases hs with
  | @ask _ st =>
    rcases hfault : a.fault with _ | e
    all_goals simp only [cancelMachine, hfault] at hr
    · obtain rfl := Except.ok.inj hr
      rw [RunWorld.isCompleted]
      rintro hdone
      obtain ⟨st, hst, hcompleted⟩ := Option.map_eq_some_iff.1 hdone
      rw [hst, Option.any_some, hcompleted] at hb'
      exact absurd hb' (by decide)
    · contradiction
  | lost => exact hb hb'
  | flag => exact hb rfl
  | record => exact hb rfl

/-- From wherever the cancellations have read what is so, they write no flag over a completion, as
    long as none is recorded. -/
theorem meets_flagsOpen (jobs : ℕ → RunJob V) {c : Conf (RunOp V) RunOp.Res (RunResult V) RunWorld}
    {ph : ℕ → Bool} (hread : ∀ i, ph i = true → ¬c.world.isCompleted)
    (hf : ∀ i, (c.procs i).Follows (JobAsks (jobs i)) (ph i) fun _ _ => True)
    {ms : List (Move (RunAnswer V) Unit)} (hms : cancelMachine.Meets LeavesOpen c ms) :
    cancelMachine.Meets (FlagsOpen jobs) c ms := by
  refine Machine.meets_follows (J := fun w ph => ∀ i, ph i = true → ¬w.isCompleted) ?_
    (fun _ _ _ h => h) ?_ hread hf hms
  · intro w ph i a o s' h hs hok j hj hdone
    have hbefore := isCompleted_exec hok hdone
    by_cases hji : j = i
    · subst hji
      rw [update_self] at hj
      subst hj
      rcases hjob : jobs j with c | reason <;> rw [hjob] at hs
      · exact h j hs.symm hbefore
      · exact Asks.open_ hs rfl (h j) rfl hbefore
    · rw [update_of_ne hji] at hj
      exact h j hj hbefore
  · intro w ph i a o s' h hs _
    rcases o with _ | _ | reason | _ | _ | _ | _ | _ | _
    case putFlag =>
      intro reason' hjob
      rw [hjob] at hs
      generalize (cancelMachine.exec i a (.putFlag reason) w).1 = r at hs
      generalize hb : ph i = b at hs
      cases hs
      exact h i hb
    all_goals trivial

end Gnldev.Workflow
