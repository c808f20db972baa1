import Gnldev.Durable.Outcome.Monotone

/-!
# A canceled run is not left running

Workers of one run and its cancellations, in any interleaving. A cancellation flags the run, and
reports it `canceled`; a worker reports its start before, and its ending after, its model steps,
each of which looks for the flag. Nobody writes again once a worker has seen the flag, so that a
start which stands then stays: one that is newer than the cancellation by its time, or that
replaces an ending (`left_running`).

* `CancelStep`: the protocol of both;
* `canceled_settles`: the record when a cancellation has returned and the workers have ended, in
  every run in which the cancellations take effect (`Effective`).
-/

open List

namespace Gnldev.Durable

open Prog Function

/-! ## The callers -/

inductive RunCaller where
  | cancel (reason : Option JsString)
  | worker (steps : List Bool) (suspended : Bool)
  deriving DecidableEq

namespace RunCaller

def prog (clocked : Bool) : RunCaller → Prog OutcomeOp OutcomeOp.Res (Except RunError Unit)
  | cancel reason => (cancelAgentRun clocked reason).run
  | worker steps suspended => (runWorker clocked steps suspended).run

def isCancel : RunCaller → Bool
  | cancel _ => true
  | worker _ _ => false

end RunCaller

/-- The callers before any of them, on a run that is new. -/
def cancelStart (clocked : Bool) (t : ℕ) (jobs : ℕ → RunCaller) :
    Conf OutcomeOp OutcomeOp.Res (Except RunError Unit) OutcomeWorld :=
  ⟨⟨t, none, none, []⟩, fun i => (jobs i).prog clocked⟩

/-- How far a caller is. -/
inductive CancelPhase where
  | start
  | dated (flag : CancelFlag)
  | claimed (flag : CancelFlag)
  /-- The cancellation reports, with the time of the flag. -/
  | reporting (at_ : ℕ) (s : RecPhase)
  | failed
  /-- The worker is at its start, or at its steps. -/
  | working (s : RecPhase)
  /-- The worker reports its ending. -/
  | ending (s : RecPhase)
  /-- The worker has seen the flag. -/
  | refused

namespace CancelPhase

def isCancel : CancelPhase → Bool
  | working _ | ending _ | refused => false
  | _ => true

/-- The caller may have seen the flag. -/
def Aware : CancelPhase → Prop
  | reporting _ _ | failed | refused => True
  | _ => False

end CancelPhase

/-- The verdict of a cancellation. -/
def Verdict.Cancels (v : Verdict) : Prop := v.next.status = .canceled ∧ v.opts = ⟨false, true⟩

/-- The verdict of an ending. -/
def Verdict.Ends (v : Verdict) : Prop := v.next.status = .completed ∨ v.next.status = .failed

/-- The protocol of a cancellation, and of a worker. -/
inductive CancelStep (clocked : Bool) :
    CancelPhase → (o : OutcomeOp) → o.Res → CancelPhase → Prop
  | date {t reason} : CancelStep clocked .start .dateNow (.ok t) (.dated ⟨t, reason⟩)
  | claim {flag won} : CancelStep clocked (.dated flag) (.claimFlag flag) (.ok won) (.claimed flag)
  | readBack {flag cur} : CancelStep clocked (.claimed flag) .getFlag (.ok cur)
      (.reporting ((cur.map (·.flaggedAt)).getD flag.flaggedAt) .rest)
  | dateThrown {e} : CancelStep clocked .start .dateNow (.error e) .failed
  | claimThrown {flag e} : CancelStep clocked (.dated flag) (.claimFlag flag) (.error e) .failed
  | readThrown {flag e} : CancelStep clocked (.claimed flag) .getFlag (.error e) .failed
  | report {at_ s o r s'} :
    RecStep clocked (fun v => v.Cancels ∧ (clocked = false → v.next.decidedAt = at_)) s o r s' →
    CancelStep clocked (.reporting at_ s) o r (.reporting at_ s')
  | work {s o r s'} : RecStep clocked (·.next.status = .running) s o r s' →
    CancelStep clocked (.working s) o r (.working s')
  | finish {s o r s'} : RecStep clocked Verdict.Ends s o r s' →
    CancelStep clocked (.ending s) o r (.ending s')
  | starts {s t} : CancelStep clocked (.working s) .dateNow (.ok t) (.working .rest)
  | ends {s t} : CancelStep clocked (.working s) .dateNow (.ok t) (.ending .rest)
  | undated {s e} : CancelStep clocked (.working s) .dateNow (.error e) (.working s)
  | step {s fresh r} : CancelStep clocked (.working s) (.step fresh) r (.working s)
  | passed {s} : CancelStep clocked (.working s) .getFlag (.ok none) (.working s)
  | refuse {s flag} : CancelStep clocked (.working s) .getFlag (.ok (some flag)) .refused
  | unread {s e} : CancelStep clocked (.working s) .getFlag (.error e) (.working s)

section Protocol

variable {clocked : Bool}

/-- A cancellation that returns has reported. -/
theorem cancelAgentRun_runs (reason : Option JsString) :
    Runs (CancelStep clocked) (· = .start) (cancelAgentRun clocked reason)
      (fun s _ => ∃ at_ s', s = .reporting at_ s' ∧ s'.Ended) fun s _ => s = .failed := by
  refine Runs.bind (Q := fun s t => s = .dated ⟨t, reason⟩) (perform_runs ?_ ?_) fun t =>
    Runs.bind (Q := fun s _ => s = .claimed ⟨t, reason⟩) (perform_runs ?_ ?_) fun won =>
    Runs.bind (Q := fun s cur => s = .reporting ((cur.map (·.flaggedAt)).getD t) .rest)
      (perform_runs ?_ ?_) fun cur => ?_
  · rintro _ t rfl
    exact ⟨_, .date, rfl⟩
  · rintro _ e rfl
    exact ⟨_, .dateThrown, rfl⟩
  · rintro _ won rfl
    exact ⟨_, .claim, rfl⟩
  · rintro _ e rfl
    exact ⟨_, .claimThrown, rfl⟩
  · rintro _ cur rfl
    exact ⟨_, .readBack, rfl⟩
  · rintro _ e rfl
    exact ⟨_, .readThrown, rfl⟩
  · let at_ := (cur.map (·.flaggedAt)).getD t
    have hreport := @recordRunOutcome_runs clocked
      (fun v => v.Cancels ∧ (clocked = false → v.next.decidedAt = at_))
      ⟨.canceled, at_, none⟩ ⟨false, true⟩ fun t ht => ⟨⟨rfl, rfl⟩, ht⟩
    refine (hreport.sim (.reporting at_) fun _ _ _ _ => .report).conseq ?_ ?_ ?_
    · rintro _ rfl
      exact ⟨_, rfl, rfl⟩
    · rintro _ _ ⟨s, rfl, hs⟩
      exact ⟨_, _, rfl, hs⟩
    · rintro _ _ ⟨s, -, hs⟩
      exact hs.elim

/-- The worker has not seen the flag. -/
def Working (s : CancelPhase) : Prop := ∃ x, s = .working x

/-- A worker that has seen the flag has thrown `RunCanceledError`. -/
def Interrupted (s : CancelPhase) (e : RunError) : Prop := Working s ∨ s = .refused ∧ e = .canceled

theorem assertNotCanceled_runs : Runs (CancelStep clocked) Working assertNotCanceled
    (fun s _ => Working s) Interrupted := by
  refine Runs.bind (Q := fun s cur => if cur.isSome then s = .refused else Working s)
    (perform_runs ?_ ?_) fun cur => ?_
  · rintro _ (_ | flag) ⟨x, rfl⟩
    · exact ⟨_, .passed, x, rfl⟩
    · exact ⟨_, .refuse, rfl⟩
  · rintro _ e ⟨x, rfl⟩
    exact ⟨_, .unread, .inl ⟨x, rfl⟩⟩
  · rcases cur with _ | flag
    · exact runs_pure fun s hs => hs
    · exact runs_throw fun s hs => .inr ⟨hs, rfl⟩

theorem outcomeStep_runs (fresh : Bool) : Runs (CancelStep clocked) Working (outcomeStep fresh)
    (fun s _ => Working s) Interrupted := by
  have hstep : Runs (CancelStep clocked) Working (performOutcome (.step fresh))
      (fun s _ => Working s) Interrupted := by
    refine perform_runs ?_ ?_
    · rintro _ r ⟨x, rfl⟩
      exact ⟨_, .step, x, rfl⟩
    · rintro _ e ⟨x, rfl⟩
      exact ⟨_, .step, .inl ⟨x, rfl⟩⟩
  rcases fresh with _ | _
  · exact hstep
  · exact Runs.bind assertNotCanceled_runs fun _ => hstep

theorem outcomeSteps_runs (steps : List Bool) : Runs (CancelStep clocked) Working (outcomeSteps steps)
    (fun s _ => Working s) Interrupted := by
  induction steps with
  | nil => exact runs_pure fun s hs => hs
  | cons fresh steps ih => exact Runs.bind (outcomeStep_runs fresh) fun _ => ih

/-- The start is reported. -/
theorem runStarted_runs (t : ℕ) : Runs (CancelStep clocked) (· = .working .rest)
    ((outcomeJournal clocked).runStarted (ε := RunError) t) (fun s _ => Working s) Interrupted := by
  have hreport := @recordRunOutcome_runs clocked (·.next.status = .running)
    ⟨.running, t, none⟩ ⟨false, false⟩ fun _ _ => rfl
  refine (hreport.sim .working fun _ _ _ _ => .work).conseq ?_ ?_ ?_
  · rintro _ rfl
    exact ⟨_, rfl, rfl⟩
  · rintro _ _ ⟨s, rfl, -⟩
    exact ⟨s, rfl⟩
  · rintro _ _ ⟨s, -, hs⟩
    exact hs.elim

/-- An ending is reported, at the time of the process. -/
theorem ending_runs {report : ℕ → OutcomeM Unit} (outcome : ℕ → RunOutcomeRecord)
    (opts : OutcomeOptions) (hends : ∀ t, (Verdict.mk (outcome t) opts).Ends)
    (h : ∀ t, report t = (outcomeJournal clocked).recordRunOutcome (ε := RunError) (outcome t) opts) :
    Runs (CancelStep clocked) Working (performOutcome .dateNow >>= report)
      (fun _ _ => True) fun s _ => Working s := by
  refine Runs.bind (Q := fun s _ => s = .ending .rest) (perform_runs ?_ ?_) fun t => ?_
  · rintro _ t ⟨x, rfl⟩
    exact ⟨_, .ends, rfl⟩
  · rintro _ e ⟨x, rfl⟩
    exact ⟨_, .undated, x, rfl⟩
  · have hreport := @recordRunOutcome_runs clocked Verdict.Ends (outcome t) opts
      fun _ _ => hends t
    rw [h]
    refine (hreport.sim .ending fun _ _ _ _ => .finish).conseq ?_ (fun _ _ _ => trivial) ?_
    · rintro _ rfl
      exact ⟨_, rfl, rfl⟩
    · rintro _ _ ⟨s, -, hs⟩
      exact hs.elim

theorem recordThrown_runs (e : RunError) : Runs (CancelStep clocked) (Interrupted · e)
    (recordThrown clocked e) (fun _ _ => True) fun _ _ => True := by
  -- Only `RunCanceledError` comes from the flag, and it is not recorded.
  have hworking (hne : e ≠ .canceled) (s : CancelPhase) (hs : Interrupted s e) : Working s :=
    hs.resolve_right fun h => hne h.2
  rcases e with _ | message | message
  · exact runs_pure fun _ _ => trivial
  · refine (ending_runs (fun t => ⟨.failed, t, some message⟩) ⟨true, false⟩ (fun _ => .inr rfl)
      fun _ => rfl).conseq (hworking nofun) (fun _ _ h => h) fun _ _ _ => trivial
  · refine (ending_runs (fun t => ⟨.failed, t, some message⟩) ⟨false, false⟩ (fun _ => .inr rfl)
      fun _ => rfl).conseq (hworking nofun) (fun _ _ h => h) fun _ _ _ => trivial

theorem runWorker_runs (steps : List Bool) (suspended : Bool) :
    Runs (CancelStep clocked) Working (runWorker clocked steps suspended)
      (fun _ _ => True) fun _ _ => True := by
  refine Runs.bind assertNotCanceled_runs.drop
    fun _ => Runs.tryCatch (Y := Interrupted) ?_ fun e =>
      Runs.bind (recordThrown_runs e) fun _ => runs_throw fun _ _ => trivial
  refine Runs.bind (Q := fun s _ => s = .working .rest) (perform_runs ?_ ?_) fun t =>
    Runs.bind (runStarted_runs t) fun _ => Runs.bind (outcomeSteps_runs steps) fun _ => ?_
  · rintro _ t ⟨x, rfl⟩
    exact ⟨_, .starts, rfl⟩
  · rintro _ e ⟨x, rfl⟩
    exact ⟨_, .undated, .inl ⟨x, rfl⟩⟩
  · rcases suspended with _ | _
    · exact (ending_runs (fun t => ⟨.completed, t, none⟩) ⟨false, false⟩ (fun _ => .inl rfl)
        fun _ => rfl).conseq (fun _ h => h) (fun _ _ h => h) fun _ _ h => .inl h
    · exact runs_pure fun _ _ => trivial

/-- Where a caller begins. -/
def RunCaller.init : RunCaller → CancelPhase
  | cancel _ => .start
  | worker _ _ => .working .rest

/-- What holds of a caller that has ended. -/
def RunCaller.Ended (s : CancelPhase) : Except RunError Unit → RunCaller → Prop
  | .ok _, cancel _ => ∃ at_ x, s = .reporting at_ x ∧ x.Ended
  | .error _, cancel _ => s = .failed
  | _, worker _ _ => True

theorem caller_follows (c : RunCaller) :
    (c.prog clocked).Follows (CancelStep clocked) c.init fun s r => c.Ended s r := by
  rcases c with reason | ⟨steps, suspended⟩
  · refine (cancelAgentRun_runs reason _ rfl).mono fun s r hr => ?_
    rcases r with e | r
    · exact hr
    · exact hr
  · refine (runWorker_runs steps suspended _ ⟨_, rfl⟩).mono fun s r _ => ?_
    rcases r with e | r <;> trivial

theorem CancelStep.isCancel {s s' : CancelPhase} {o : OutcomeOp} {r : o.Res}
    (h : CancelStep clocked s o r s') : s'.isCancel = s.isCancel := by
  cases h <;> rfl

end Protocol

/-! ## What happens to the records -/

namespace OutcomeWorld

variable (w : OutcomeWorld)

/-- Who has written the record, and what. -/
def lastWrite : Option (ℕ × RunOutcomeRecord) :=
  w.trace.findSome? fun
    | .wrote j _ next => some (j, next)
    | _ => none

/-- The time of the report of the cancellation: the journal's, if it has a clock, or the flag's. -/
def stampOf (clocked : Bool) (i : ℕ) : Option ℕ :=
  if clocked then
    w.trace.findSome? fun
      | .stamped j t => if j = i then some t else none
      | _ => none
  else w.flag.map (·.flaggedAt)

/-- The record is not that of a start. -/
def Settled : Prop := ∃ cur, w.record = some cur ∧ cur.status ≠ .running

/-- The last time that the caller has looked for the flag, the run had not been flagged. -/
def PassedBefore (j : ℕ) : Prop :=
  ∀ pre k past, w.trace = pre ++ .flagged k :: past → ∀ seen, .checked j seen ∉ pre

end OutcomeWorld

/-- The record that an operation would write. -/
def OutcomeOp.reported : OutcomeOp → Option RunOutcomeRecord
  | put next => some next
  | putIfAbsent next => some next
  | putIfMatch _ next => some next
  | _ => none

/-- What an operation of the call `i` does, by its answer. -/
inductive OutcomeEffect (w : OutcomeWorld) (i : ℕ) :
    (o : OutcomeOp) → o.Res → OutcomeWorld → Prop
  | stamped : OutcomeEffect w i .now (.ok w.clock) { w with trace := .stamped i w.clock :: w.trace }
  | looked : OutcomeEffect w i .get (.ok w.record) { w with trace := .looked i :: w.trace }
  | checked : OutcomeEffect w i .getFlag (.ok w.flag)
    { w with trace := .checked i w.flag.isSome :: w.trace }
  | wrote {o r next} : w.taken o = some next → OutcomeEffect w i o r (w.write i next)
  | lost {o r next} : w.taken o = none → o.reported = some next →
    OutcomeEffect w i o r { w with trace := .lost i next :: w.trace }
  | flagged {flag r} : w.flag = none → OutcomeEffect w i (.claimFlag flag) r
    { w with flag := some flag, trace := .flagged i :: w.trace }
  | same {o r} : (o.onJournal → (∃ e, r = .error e) ∨ ∃ flag, o = .claimFlag flag ∧ w.flag ≠ none) →
    OutcomeEffect w i o r w

section Effect

variable {w : OutcomeWorld} {i : ℕ} {a : OutcomeAnswer} {o : OutcomeOp}

/-- A write has its effect, whatever is answered. -/
theorem write_effect (ho : o.writes) (r : o.Res) : OutcomeEffect w i o r (w.perform i a o).2 := by
  rcases o with _ | _ | next | next | ⟨expected, next⟩ | _ | flag | _ | _
  case put => exact .wrote rfl
  case putIfAbsent =>
    rw [OutcomeWorld.perform]
    split
    · next hw => exact .wrote (if_pos hw)
    · next hw => exact .lost (if_neg hw) rfl
  case putIfMatch =>
    rw [OutcomeWorld.perform]
    split
    · next hw => exact .wrote (if_pos hw)
    · next hw => exact .lost (if_neg hw) rfl
  case claimFlag =>
    rw [OutcomeWorld.perform]
    split
    · next hw => exact .flagged hw
    · next hw => exact .same fun _ => .inr ⟨flag, rfl, hw⟩
  all_goals contradiction

theorem perform_effect : OutcomeEffect w i o (w.perform i a o).1 (w.perform i a o).2 := by
  by_cases ho : o.writes
  · exact write_effect ho _
  rcases o with _ | _ | _ | _ | _ | _ | _ | _ | _
  case now => exact .stamped
  case get => exact .looked
  case getFlag => exact .checked
  case dateNow => exact .same nofun
  case step => exact .same nofun
  all_goals exact absurd rfl ho

theorem exec_effect :
    OutcomeEffect w i o (outcomeMachine.exec i a o w).1 (outcomeMachine.exec i a o w).2 := by
  simp only [outcomeMachine]
  split
  · split
    · split
      · next h => exact write_effect h.2 _
      · exact .same fun _ => .inl ⟨_, rfl⟩
    · exact perform_effect
  · exact perform_effect

end Effect

/-! ## The condition -/

/-- The operation is one of a report. -/
def OutcomeOp.onRecord : OutcomeOp → Bool
  | now | get | put _ | putIfAbsent _ | putIfMatch _ _ => true
  | _ => false

/-- The program has returned, and not thrown. -/
def hasReturned : Prog OutcomeOp OutcomeOp.Res (Except RunError Unit) → Bool
  | .pure (.ok _) => true
  | _ => false

/-- The event is that of a cancellation that has returned. -/
def Returned (jobs : ℕ → RunCaller)
    (c : Conf OutcomeOp OutcomeOp.Res (Except RunError Unit) OutcomeWorld) : OutcomeEvent → Prop
  | .looked j => (jobs j).isCancel ∧ hasReturned (c.procs j)
  | _ => False

/-- The cancellations take effect. -/
structure Effective (clocked : Bool) (jobs : ℕ → RunCaller)
    (c : Conf OutcomeOp OutcomeOp.Res (Except RunError Unit) OutcomeWorld) (i : ℕ) (o : OutcomeOp)
    (r : o.Res) : Prop where
  /-- What a cancellation reports is not rejected by the journal. -/
  answered : (jobs i).isCancel → o.onRecord → r.isOk
  /-- A start that a cancellation reads is not newer than it. -/
  newer : (jobs i).isCancel → o = .get → ∀ cur ∈ c.world.record, cur.status = .running →
    ∀ t ∈ c.world.stampOf clocked i, cur.decidedAt ≤ t
  /-- A cancellation does not lose its last attempt to a start. -/
  last : (jobs i).isCancel → ∀ next ∈ o.reported, c.world.taken o = none →
    c.world.losses i next = 2 → c.world.Settled
  /-- A start does not replace an ending when a cancellation has returned. -/
  kept : ∀ next ∈ c.world.taken o, next.status = .running → c.world.Settled →
    ∀ e ∈ c.world.trace, ¬Returned jobs c e

/-! ## The invariant -/

/-- What a cancellation knows as it reports. -/
def RecPhase.Reports (w : OutcomeWorld) (clocked : Bool) (j : ℕ) : RecPhase → Prop
  | rest => True
  | trying v _ => v.Cancels ∧ w.stampOf clocked j = some v.next.decidedAt
  | swapping v _ _ => v.Cancels ∧ w.stampOf clocked j = some v.next.decidedAt ∧
      .looked j ∈ w.trace
  | done | gaveUp _ => w.Settled ∧ .looked j ∈ w.trace

/-- What a caller knows. -/
def CancelPhase.Knows (w : OutcomeWorld) (clocked : Bool) (j : ℕ) : CancelPhase → Prop
  | start | dated _ => ∀ next, w.losses j next = 0
  | claimed _ => (∀ next, w.losses j next = 0) ∧ w.flag ≠ none
  | reporting at_ s => w.flag.map (·.flaggedAt) = some at_ ∧ s.Counted w j ∧ s.Reports w clocked j
  | _ => True

structure CancelInv (clocked : Bool) (jobs : ℕ → RunCaller) (w : OutcomeWorld)
    (ph : ℕ → CancelPhase) : Prop where
  kind : ∀ j, (ph j).isCancel = (jobs j).isCancel
  unflagged : w.flag = none → ∀ k, .flagged k ∉ w.trace
  /-- Who looks for the flag of a flagged run finds it. -/
  checks : w.trace.Pairwise fun e e' => (∃ k, e' = .flagged k) → ∀ j, e ≠ .checked j false
  aware : ∀ j, .checked j true ∈ w.trace → (ph j).Aware
  record : w.record = w.lastWrite.map (·.2)
  endings : ∀ j next, w.lastWrite = some (j, next) → next.status ≠ .running →
    next.status ≠ .canceled → ∃ s, ph j = .ending s
  knows : ∀ j, (ph j).Knows w clocked j

section Effects

variable {clocked : Bool} {w w' : OutcomeWorld} {i j : ℕ} {o : OutcomeOp} {r : o.Res}

theorem effect_unflagged (he : OutcomeEffect w i o r w')
    (h : w.flag = none → ∀ k, .flagged k ∉ w.trace) : w'.flag = none → ∀ k, .flagged k ∉ w'.trace := by
  intro hflag k hk
  cases he with
  | stamped | looked | checked | wrote | lost =>
    exact h hflag k ((mem_cons.1 hk).resolve_left nofun)
  | flagged => contradiction
  | same => exact h hflag k hk

theorem effect_checks (he : OutcomeEffect w i o r w')
    (hunflagged : w.flag = none → ∀ k, .flagged k ∉ w.trace)
    (h : w.trace.Pairwise fun e e' => (∃ k, e' = .flagged k) → ∀ j, e ≠ .checked j false) :
    w'.trace.Pairwise fun e e' => (∃ k, e' = .flagged k) → ∀ j, e ≠ .checked j false := by
  cases he with
  | stamped | looked | wrote | lost | flagged => exact pairwise_cons.2 ⟨nofun, h⟩
  | checked =>
    refine pairwise_cons.2 ⟨?_, h⟩
    rintro _ hmem ⟨k, rfl⟩ j hj
    obtain ⟨-, hseen⟩ := OutcomeEvent.checked.inj hj
    exact hunflagged (Option.not_isSome_iff_eq_none.1 (Bool.eq_false_iff.1 hseen)) k hmem
  | same => exact h

theorem effect_record (he : OutcomeEffect w i o r w') (h : w.record = w.lastWrite.map (·.2)) :
    w'.record = w'.lastWrite.map (·.2) := by
  cases he with
  | wrote => rfl
  | _ => exact h

/-- The flag stays. -/
theorem effect_flag (he : OutcomeEffect w i o r w') {flag : CancelFlag} (h : w.flag = some flag) :
    w'.flag = some flag := by
  cases he with
  | flagged hnone =>
    rw [hnone] at h
    contradiction
  | _ => exact h

theorem effect_looked (he : OutcomeEffect w i o r w') (h : .looked j ∈ w.trace) :
    .looked j ∈ w'.trace := by
  cases he with
  | same => exact h
  | _ => exact mem_cons_of_mem _ h

/-- The time of a report stays. -/
theorem effect_stamp (he : OutcomeEffect w i o r w') {t : ℕ} (hflag : w.flag ≠ none)
    (hne : o = .now → j ≠ i) (h : w.stampOf clocked j = some t) : w'.stampOf clocked j = some t := by
  rcases clocked with _ | _
  · obtain ⟨flag, hflag⟩ := Option.ne_none_iff_exists'.1 hflag
    have hsame : w'.flag = w.flag := (effect_flag he hflag).trans hflag.symm
    exact (congrArg (Option.map _) hsame).trans h
  · cases he with
    | stamped =>
      have hother : (if i = j then some w.clock else none) = none := if_neg (hne rfl).symm
      simpa only [OutcomeWorld.stampOf, findSome?_cons, hother] using h
    | _ => exact h

theorem stampOf_stamped {t : ℕ} :
    OutcomeWorld.stampOf { w with trace := .stamped i t :: w.trace } true i = some t := by
  simp [OutcomeWorld.stampOf]

theorem effect_losses (he : OutcomeEffect w i o r w') (ho : o.reported = none)
    (next : RunOutcomeRecord) : w'.losses j next = w.losses j next := by
  cases he with
  | stamped => exact losses_of_trace (e := .stamped i w.clock) nofun rfl j next
  | looked => exact losses_of_trace (e := .looked i) nofun rfl j next
  | checked => exact losses_of_trace (e := .checked i w.flag.isSome) nofun rfl j next
  | flagged => exact losses_of_trace (e := .flagged i) nofun rfl j next
  | @wrote _ _ late htaken => exact losses_of_trace (e := .wrote i w.record late) nofun rfl j next
  | lost _ hreported =>
    rw [ho] at hreported
    contradiction
  | same => rfl

end Effects

section Step

variable {clocked : Bool} {jobs : ℕ → RunCaller} {ph : ℕ → CancelPhase} {s s' : CancelPhase}
  {i j : ℕ} {a : OutcomeAnswer} {o : OutcomeOp} {r : o.Res} {w w' : OutcomeWorld}
  {c : Conf OutcomeOp OutcomeOp.Res (Except RunError Unit) OutcomeWorld}

theorem CancelStep.aware (hs : CancelStep clocked s o r s') (h : s.Aware) : s'.Aware := by
  cases hs with
  | report => trivial
  | _ => contradiction

theorem CancelStep.ending {x : RecPhase} (hs : CancelStep clocked (.ending x) o r s') :
    ∃ x', s' = .ending x' := by
  cases hs
  exact ⟨_, rfl⟩

/-- Who writes neither a start nor a cancellation writes its ending. -/
theorem CancelStep.written (hs : CancelStep clocked s o r s') {next : RunOutcomeRecord}
    (htaken : w.taken o = some next) (hstart : next.status ≠ .running)
    (hcancel : next.status ≠ .canceled) : ∃ x, s' = .ending x := by
  cases hs with
  | report h =>
    obtain ⟨v, hv, rfl⟩ := h.may htaken
    exact absurd hv.1.1 hcancel
  | work h =>
    obtain ⟨v, hv, rfl⟩ := h.may htaken
    exact absurd hv hstart
  | finish => exact ⟨_, rfl⟩
  | _ => contradiction

theorem effect_aware (he : OutcomeEffect w i o r w') (hs : CancelStep clocked (ph i) o r s')
    (h : ∀ j, .checked j true ∈ w.trace → (ph j).Aware) (hj : .checked j true ∈ w'.trace) :
    (update ph i s' j).Aware := by
  have hold (hmem : .checked j true ∈ w.trace) : (update ph i s' j).Aware := by
    by_cases hji : j = i
    · subst hji
      rw [update_self]
      exact hs.aware (h j hmem)
    · rw [update_of_ne hji]
      exact h j hmem
  cases he with
  | stamped | looked | wrote | lost | flagged =>
    exact hold ((mem_cons.1 hj).resolve_left nofun)
  | same => exact hold hj
  | checked =>
    rcases mem_cons.1 hj with hj | hj
    · obtain ⟨rfl, hseen⟩ := OutcomeEvent.checked.inj hj
      rw [update_self]
      -- The flag that has been found is what the caller is answered.
      rcases hflag : w.flag with _ | flag
      · rw [hflag] at hseen
        contradiction
      · rw [hflag] at hs
        generalize ph j = s at hs
        cases hs <;> trivial
    · exact hold hj

theorem effect_endings (he : OutcomeEffect w i o r w') (hs : CancelStep clocked (ph i) o r s')
    (h : ∀ j next, w.lastWrite = some (j, next) → next.status ≠ .running →
      next.status ≠ .canceled → ∃ x, ph j = .ending x) {next : RunOutcomeRecord}
    (hj : w'.lastWrite = some (j, next)) (hstart : next.status ≠ .running)
    (hcancel : next.status ≠ .canceled) : ∃ x, update ph i s' j = .ending x := by
  have hold (hlast : w.lastWrite = some (j, next)) : ∃ x, update ph i s' j = .ending x := by
    obtain ⟨x, hx⟩ := h j next hlast hstart hcancel
    by_cases hji : j = i
    · subst hji
      rw [update_self]
      rw [hx] at hs
      exact hs.ending
    · rw [update_of_ne hji]
      exact ⟨x, hx⟩
  cases he with
  | stamped | looked | checked | lost | flagged | same => exact hold hj
  | wrote htaken =>
    obtain ⟨rfl, rfl⟩ := Prod.mk.inj (Option.some.inj hj)
    rw [update_self]
    exact hs.written htaken hstart hcancel

/-- A cancellation that has reported has returned. -/
theorem returned_of_follows {c : RunCaller} (hc : c.isCancel) {at_ : ℕ} {x : RecPhase}
    (hx : x.Ended) {p : Prog OutcomeOp OutcomeOp.Res (Except RunError Unit)}
    (h : p.Follows (CancelStep clocked) (.reporting at_ x) fun s r => c.Ended s r) :
    hasReturned p := by
  cases p with
  | op o k =>
    obtain ⟨s', hs, -⟩ := h (.ok default)
    cases hs with
    | report hs => exact absurd hx hs.not_ended
  | pure r =>
    rcases r with e | r
    · rcases c with reason | _
      · contradiction
      · contradiction
    · rfl

/-- What has been settled stays so for a cancellation that has returned. -/
theorem settled_step (he : OutcomeEffect c.world i o r w') (hok : Effective clocked jobs c i o r)
    (hj : (jobs j).isCancel) (hreturned : hasReturned (c.procs j))
    (hlooked : .looked j ∈ c.world.trace) (h : c.world.Settled) : w'.Settled := by
  cases he with
  | @wrote _ _ next htaken =>
    refine ⟨next, rfl, fun hstart => ?_⟩
    exact hok.kept next htaken hstart h (.looked j) hlooked ⟨hj, hreturned⟩
  | _ => exact h

/-- What another caller knows stays. -/
theorem knows_other (hji : j ≠ i) (hkind : (ph j).isCancel = (jobs j).isCancel)
    (hf : (c.procs j).Follows (CancelStep clocked) (ph j) fun s r => (jobs j).Ended s r)
    (hok : Effective clocked jobs c i o (outcomeMachine.exec i a o c.world).1)
    (h : (ph j).Knows c.world clocked j) :
    (ph j).Knows (outcomeMachine.exec i a o c.world).2 clocked j := by
  have he := exec_effect (w := c.world) (i := i) (a := a) (o := o)
  have hflag (h : c.world.flag ≠ none) : (outcomeMachine.exec i a o c.world).2.flag ≠ none := by
    obtain ⟨flag, hflag⟩ := Option.ne_none_iff_exists'.1 h
    rw [effect_flag he hflag]
    nofun
  rcases hs : ph j with _ | _ | _ | ⟨at_, x⟩ | _ | _ | _ | _
  all_goals rw [hs] at h hf hkind
  case start | dated => exact fun next => (losses_other hji next).trans (h next)
  case claimed => exact ⟨fun next => (losses_other hji next).trans (h.1 next), hflag h.2⟩
  case reporting =>
    obtain ⟨hat, hcounted, hreports⟩ := h
    obtain ⟨flag, hsome, hat⟩ := Option.map_eq_some_iff.1 hat
    refine ⟨by rw [effect_flag he hsome, Option.map_some, hat], Counted.other hcounted hji, ?_⟩
    have hne : c.world.flag ≠ none := by rw [hsome]; nofun
    have hstamp {t : ℕ} := @effect_stamp clocked _ _ _ j _ _ he t hne fun _ => hji
    rcases x with _ | ⟨v, n⟩ | ⟨v, n, cur⟩ | _ | v
    · trivial
    · exact ⟨hreports.1, hstamp hreports.2⟩
    · exact ⟨hreports.1, hstamp hreports.2.1, effect_looked he hreports.2.2⟩
    · have hreturned := returned_of_follows hkind.symm (x := .done) trivial hf
      exact ⟨settled_step he hok hkind.symm hreturned hreports.2 hreports.1,
        effect_looked he hreports.2⟩
    · have hreturned := returned_of_follows hkind.symm (x := .gaveUp v) trivial hf
      exact ⟨settled_step he hok hkind.symm hreturned hreports.2 hreports.1,
        effect_looked he hreports.2⟩
  all_goals trivial

theorem RecStep.onRecord {May : Verdict → Prop} {x x' : RecPhase} (h : RecStep clocked May x o r x') :
    o.onRecord := by
  obtain ⟨r, x', h⟩ := h.allowed
  cases h <;> rfl

/-- A cancellation replaces a start that is not newer. -/
theorem not_stands {v : Verdict} (hv : v.Cancels) {cur : RunOutcomeRecord}
    (hstart : cur.status = .running) (hle : cur.decidedAt ≤ v.next.decidedAt) :
    cur.stands v.next v.opts = false := by
  obtain ⟨hnext, hopts⟩ := hv
  simp [RunOutcomeRecord.stands, hnext, hopts, hstart, hle]

/-- What a cancellation knows when it has read the record. -/
theorem reports_read {v : Verdict} {n : ℕ} (hv : v.Cancels)
    (hstamp : w.stampOf clocked i = some v.next.decidedAt) (hlooked : .looked i ∈ w.trace)
    (hnewer : ∀ cur ∈ w.record, cur.status = .running → cur.decidedAt ≤ v.next.decidedAt) :
    (v.read n w.record).Reports w clocked i := by
  rcases hcur : w.record with _ | cur
  · exact ⟨hv, hstamp, hlooked⟩
  · rw [Verdict.read]
    split
    · next hstands =>
      refine ⟨⟨cur, hcur, fun hstart => ?_⟩, hlooked⟩
      rw [not_stands hv hstart (hnewer cur hcur hstart)] at hstands
      contradiction
    · exact ⟨hv, hstamp, hlooked⟩

/-- What a cancellation knows when it has tried to write, and the record is settled unless it has
    attempts left. -/
theorem reports_swapped {v : Verdict} {n : ℕ} {won : Bool} (hv : v.Cancels)
    (hstamp : w.stampOf clocked i = some v.next.decidedAt) (hlooked : .looked i ∈ w.trace)
    (hsettled : won ∨ n = 0 → w.Settled) : (v.swapped n won).Reports w clocked i := by
  rcases won with _ | _
  · rcases n with _ | n
    · exact ⟨hsettled (.inr rfl), hlooked⟩
    · exact ⟨hv, hstamp⟩
  · exact ⟨hsettled (.inl rfl), hlooked⟩

/-- What a cancellation knows as it reports, after an operation of its own. -/
theorem reports_step {at_ : ℕ} {x x' : RecPhase} (hcancel : (jobs i).isCancel)
    (hat : c.world.flag.map (·.flaggedAt) = some at_)
    (hok : Effective clocked jobs c i o (outcomeMachine.exec i a o c.world).1)
    (hcounted : x.Counted c.world i) (h : x.Reports c.world clocked i)
    (hs : RecStep clocked (fun v => v.Cancels ∧ (clocked = false → v.next.decidedAt = at_)) x o
      (outcomeMachine.exec i a o c.world).1 x') :
    x'.Reports (outcomeMachine.exec i a o c.world).2 clocked i := by
  have he := exec_effect (w := c.world) (i := i) (a := a) (o := o)
  have hne : c.world.flag ≠ none := by
    rintro hnone
    rw [hnone] at hat
    contradiction
  rcases hr : (outcomeMachine.exec i a o c.world).1 with e | r
  · have hanswered := hok.answered hcancel hs.onRecord
    rw [hr] at hanswered
    contradiction
  have hexec := exec_of_ok hr
  rw [hr] at hs
  rw [hexec] at hr he ⊢
  cases hs with
  | stamp hclock hv =>
    obtain rfl : clocked = true := hclock
    exact ⟨hv.1, stampOf_stamped.trans (congrArg some (Except.ok.inj hr))⟩
  | @lookFirst v cur hclock hv =>
    obtain rfl : clocked = false := hclock
    obtain rfl := Except.ok.inj hr
    have hstamp : c.world.stampOf false i = some v.next.decidedAt := by
      rw [hv.2 rfl]
      exact hat
    refine reports_read hv.1 (effect_stamp he hne (by rintro ⟨⟩) hstamp) mem_cons_self ?_
    exact fun cur hcur hstart => hok.newer hcancel rfl cur hcur hstart _ hstamp
  | @look v n cur =>
    obtain rfl := Except.ok.inj hr
    obtain ⟨hv, hstamp⟩ := h
    refine reports_read hv (effect_stamp he hne (by rintro ⟨⟩) hstamp) mem_cons_self ?_
    exact fun cur hcur hstart => hok.newer hcancel rfl cur hcur hstart _ hstamp
  | @insert v n won hv =>
    obtain ⟨hv, hstamp, hlooked⟩ := h
    refine reports_swapped hv (effect_stamp he hne (by rintro ⟨⟩) hstamp) (effect_looked he hlooked)
      fun hlast => ?_
    rw [OutcomeWorld.perform] at hr ⊢
    split at hr
    · next hw =>
      rw [if_pos hw]
      exact ⟨v.next, rfl, by rw [hv.1]; rintro ⟨⟩⟩
    · next hw =>
      obtain rfl := Except.ok.inj hr
      obtain rfl : n = 0 := hlast.resolve_left (by rintro ⟨⟩)
      rw [if_neg hw]
      exact hok.last hcancel v.next rfl (if_neg hw) (by rw [hcounted.2, if_pos rfl])
  | @swap v n cur won hv hstands =>
    obtain ⟨hv, hstamp, hlooked⟩ := h
    refine reports_swapped hv (effect_stamp he hne (by rintro ⟨⟩) hstamp) (effect_looked he hlooked)
      fun hlast => ?_
    rw [OutcomeWorld.perform] at hr ⊢
    split at hr
    · next hw =>
      rw [if_pos hw]
      exact ⟨v.next, rfl, by rw [hv.1]; rintro ⟨⟩⟩
    · next hw =>
      obtain rfl := Except.ok.inj hr
      obtain rfl : n = 0 := hlast.resolve_left (by rintro ⟨⟩)
      rw [if_neg hw]
      exact hok.last hcancel v.next rfl (if_neg hw) (by rw [hcounted.2, if_pos rfl])

/-- What a caller knows after an operation of its own. -/
theorem knows_step (hkind : (ph i).isCancel = (jobs i).isCancel)
    (hs : CancelStep clocked (ph i) o (outcomeMachine.exec i a o c.world).1 s')
    (hok : Effective clocked jobs c i o (outcomeMachine.exec i a o c.world).1)
    (h : (ph i).Knows c.world clocked i) :
    s'.Knows (outcomeMachine.exec i a o c.world).2 clocked i := by
  have he := exec_effect (w := c.world) (i := i) (a := a) (o := o)
  generalize hr : (outcomeMachine.exec i a o c.world).1 = r at hs he
  generalize hw : (outcomeMachine.exec i a o c.world).2 = w' at he ⊢
  generalize ph i = s at hs h hkind
  cases hs with
  | date => exact fun next => (effect_losses he rfl next).trans (h next)
  | claim =>
    refine ⟨fun next => (effect_losses he rfl next).trans (h next), ?_⟩
    cases he with
    | wrote htaken => contradiction
    | lost _ hreported => contradiction
    | flagged => nofun
    | same hsame =>
      obtain ⟨e, he⟩ | ⟨_, -, hflag⟩ := hsame rfl
      · contradiction
      · exact hflag
  | @readBack mine =>
    obtain ⟨hloss, hflag⟩ := h
    obtain ⟨flag, hflag⟩ := Option.ne_none_iff_exists'.1 hflag
    have hcounted (next : RunOutcomeRecord) := (effect_losses he rfl next).trans (hloss next)
    cases he with
    | wrote htaken => contradiction
    | lost _ hreported => contradiction
    | checked =>
      refine ⟨?_, hcounted, trivial⟩
      rw [hflag]
      rfl
    | same hsame =>
      obtain ⟨e, he⟩ | ⟨_, he, -⟩ := hsame rfl <;> contradiction
  | report hs =>
    rw [← hr] at hs
    obtain ⟨hat, hcounted, hreports⟩ := h
    obtain ⟨flag, hsome, hat'⟩ := Option.map_eq_some_iff.1 hat
    refine ⟨by rw [effect_flag he hsome, Option.map_some, hat'], ?_, ?_⟩
    · rw [← hw]
      exact Counted.step hcounted hs
    · rw [← hw]
      exact reports_step hkind.symm hat hok hcounted hreports hs
  | _ => trivial

theorem CancelInv.step (h : CancelInv clocked jobs c.world ph)
    (hf : ∀ j, (c.procs j).Follows (CancelStep clocked) (ph j) fun s r => (jobs j).Ended s r)
    (hs : CancelStep clocked (ph i) o (outcomeMachine.exec i a o c.world).1 s')
    (hok : Effective clocked jobs c i o (outcomeMachine.exec i a o c.world).1) :
    CancelInv clocked jobs (outcomeMachine.exec i a o c.world).2 (update ph i s') := by
  have he := exec_effect (w := c.world) (i := i) (a := a) (o := o)
  refine ⟨fun j => ?_, effect_unflagged he h.unflagged, effect_checks he h.unflagged h.checks,
    fun j => effect_aware he hs h.aware, effect_record he h.record,
    fun j next => effect_endings he hs h.endings, fun j => ?_⟩
  · by_cases hji : j = i
    · subst hji
      rw [update_self, hs.isCancel]
      exact h.kind j
    · rw [update_of_ne hji]
      exact h.kind j
  · by_cases hji : j = i
    · subst hji
      rw [update_self]
      exact knows_step (h.kind j) hs hok (h.knows j)
    · rw [update_of_ne hji]
      exact knows_other hji (h.kind j) (hf j) hok (h.knows j)

end Step

/-! ## Every run -/

section Runs

variable {clocked : Bool} {t : ℕ} {jobs : ℕ → RunCaller} {ms : List (Move OutcomeAnswer ℕ)}

/-- The run so far. -/
def cancelAfter (clocked : Bool) (t : ℕ) (jobs : ℕ → RunCaller) (ms : List (Move OutcomeAnswer ℕ)) :
    Conf OutcomeOp OutcomeOp.Res (Except RunError Unit) OutcomeWorld :=
  outcomeMachine.play (cancelStart clocked t jobs) ms

/-- When a cancellation has returned, and every worker that has begun has ended, the record is that
    of a cancellation, or an ending by a worker that has not looked for the flag since it was set. -/
def CanceledSettles (clocked : Bool) (t : ℕ) (jobs : ℕ → RunCaller)
    (ms : List (Move OutcomeAnswer ℕ)) : Prop :=
  (∃ j reason, jobs j = .cancel reason ∧ (cancelAfter clocked t jobs ms).procs j = .pure (.ok ())) →
  (∀ i steps suspended, jobs i = .worker steps suspended →
    (cancelAfter clocked t jobs ms).procs i = (jobs i).prog clocked ∨
      ∃ r, (cancelAfter clocked t jobs ms).procs i = .pure r) →
  ∃ j cur, (cancelAfter clocked t jobs ms).world.lastWrite = some (j, cur) ∧
    (cancelAfter clocked t jobs ms).world.record = some cur ∧
    (cur.status = .canceled ∨ (cur.status = .completed ∨ cur.status = .failed) ∧
      (∃ steps suspended, jobs j = .worker steps suspended) ∧
      (cancelAfter clocked t jobs ms).world.PassedBefore j)

theorem passedBefore_of_inv {w : OutcomeWorld} {ph : ℕ → CancelPhase}
    (h : CancelInv clocked jobs w ph) {j : ℕ} (hj : ¬(ph j).Aware) : w.PassedBefore j := by
  intro pre k past htrace seen hmem
  have hchecks := h.checks
  rw [htrace] at hchecks
  rcases seen with _ | _
  · exact (pairwise_append.1 hchecks).2.2 _ hmem _ mem_cons_self ⟨k, rfl⟩ j rfl
  · refine hj (h.aware j ?_)
    rw [htrace]
    exact mem_append_left _ hmem

theorem settled_of_reports {w : OutcomeWorld} {j : ℕ} {x : RecPhase} (hx : x.Ended)
    (h : x.Reports w clocked j) : w.Settled := by
  cases x with
  | done | gaveUp => exact h.1
  | _ => contradiction

/-- In every run in which the cancellations take effect, a canceled run is not left running. -/
theorem canceled_settles (clocked : Bool) (t : ℕ) (jobs : ℕ → RunCaller)
    (ms : List (Move OutcomeAnswer ℕ))
    (hms : outcomeMachine.Obeys (Effective clocked jobs) (cancelStart clocked t jobs) ms) :
    CanceledSettles clocked t jobs ms := by
  have hinit : CancelInv clocked jobs (cancelStart clocked t jobs).world fun j => (jobs j).init := by
    refine ⟨fun j => ?_, fun _ _ => nofun, .nil, fun _ => nofun, rfl, fun _ _ => nofun, fun j => ?_⟩
    · rcases jobs j with _ | _ <;> rfl
    · rcases jobs j with _ | _
      · exact fun _ => rfl
      · trivial
  obtain ⟨ph, hinv, hf⟩ := Machine.obeys_follows
    (J := fun c ph => CancelInv clocked jobs c.world ph)
    (fun c ph i a o k s' h hf _ hs hok => h.step hf hs hok)
    (fun c ph e h => ⟨h.kind, h.unflagged, h.checks, h.aware, h.record, h.endings, h.knows⟩)
    hinit (fun j => caller_follows (jobs j)) hms
  rintro ⟨j, reason, hj, hreturned⟩ -
  have hended := hf j
  rw [show (outcomeMachine.play _ ms).procs j = _ from hreturned, hj] at hended
  obtain ⟨at_, x, hx, hended⟩ := hended
  have hknows := hinv.knows j
  rw [hx] at hknows
  obtain ⟨cur, hcur, hstart⟩ := settled_of_reports hended hknows.2.2
  have hrecord := hinv.record
  rw [hcur] at hrecord
  obtain ⟨⟨k, cur⟩, hlast, rfl⟩ := Option.map_eq_some_iff.1 hrecord.symm
  dsimp only at hcur hstart
  refine ⟨k, _, hlast, hcur, ?_⟩
  by_cases hcancel : cur.status = .canceled
  · exact .inl hcancel
  · obtain ⟨x, hx⟩ := hinv.endings k cur hlast hstart hcancel
    refine .inr ⟨?_, ?_, passedBefore_of_inv hinv (by rw [hx]; exact id)⟩
    · rcases hstatus : cur.status with _ | _ | _ | _
      · contradiction
      · exact .inl rfl
      · exact .inr rfl
      · contradiction
    · have hkind := hinv.kind k
      rw [hx] at hkind
      rcases hk : jobs k with reason | ⟨steps, suspended⟩
      · rw [hk] at hkind
        contradiction
      · exact ⟨steps, suspended, rfl⟩

end Runs

/-! ## A run that is left running -/

instance (w : OutcomeWorld) : Decidable w.Settled :=
  decidable_of_iff (w.record.any (·.status ≠ .running)) <| by
    simp [OutcomeWorld.Settled, Option.any_eq_true]

instance (jobs : ℕ → RunCaller) (c : Conf OutcomeOp OutcomeOp.Res (Except RunError Unit) OutcomeWorld)
    (e : OutcomeEvent) : Decidable (Returned jobs c e) := by
  rcases e with _ | _ | _ | _ | _ | _ <;> dsimp only [Returned] <;> infer_instance

instance (clocked : Bool) (jobs : ℕ → RunCaller)
    (c : Conf OutcomeOp OutcomeOp.Res (Except RunError Unit) OutcomeWorld) (i : ℕ) (o : OutcomeOp)
    (r : o.Res) : Decidable (Effective clocked jobs c i o r) :=
  decidable_of_iff (_ ∧ _ ∧ _ ∧ _) ⟨fun h => ⟨h.1, h.2.1, h.2.2.1, h.2.2.2⟩,
    fun h => ⟨h.answered, h.newer, h.last, h.kept⟩⟩

/-- A worker that makes one step, and a cancellation. -/
def workerAndCancel : ℕ → RunCaller
  | 0 => .worker [true] false
  | _ => .cancel none

/-- The worker starts, the run is canceled, and the step is refused. -/
theorem canceled_settles_refused :
    (cancelAfter true 0 workerAndCancel (reports 0 5 ++ reports 1 6 ++ reports 0 1)).procs 0 =
        .pure (.error .canceled) ∧
      ∃ cur, (cancelAfter true 0 workerAndCancel
        (reports 0 5 ++ reports 1 6 ++ reports 0 1)).world.record = some cur ∧
        cur.status ≠ .running := by
  refine ⟨rfl, ?_⟩
  obtain ⟨j, cur, -, hcur, hstatus⟩ := canceled_settles true 0 workerAndCancel
    (reports 0 5 ++ reports 1 6 ++ reports 0 1) (by decide +kernel) ⟨1, none, rfl, rfl⟩ fun i _ _ hi =>
      match i with
      | 0 => .inr ⟨_, rfl⟩
      | _ + 1 => nomatch hi
  refine ⟨cur, hcur, ?_⟩
  rcases hstatus with h | ⟨h | h, -⟩ <;> rw [h] <;> nofun

/-- The worker takes the time of its start after the cancellation has taken that of its report, and
    writes it before the cancellation reads the record: the run is left running. -/
theorem left_running : ¬CanceledSettles true 0 workerAndCancel
    (reports 0 2 ++ reports 1 4 ++ later 1 ++ reports 0 3 ++ reports 1 1 ++ reports 0 1) := by
  intro h
  obtain ⟨j, cur, -, hcur, hstatus⟩ := h ⟨1, none, rfl, rfl⟩ fun i _ _ hi =>
    match i with
    | 0 => .inr ⟨_, rfl⟩
    | _ + 1 => nomatch hi
  obtain rfl : ⟨.running, 1, none⟩ = cur := Option.some.inj hcur
  rcases hstatus with h | ⟨h | h, -⟩ <;> contradiction

end Gnldev.Durable
