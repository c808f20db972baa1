import Mathlib.Algebra.BigOperators.Group.Finset.Piecewise
import Mathlib.Data.Prod.Lex
import Gnldev.Scheduler.Commits

/-!
# The state of a trigger never goes back

A commit compares the state with the one that was read. That excludes late polls as long as
a state does not come back: each commit should move the pair of `fireCount` and `nextRunAt`
up, or end the trigger. A deferral moves `nextRunAt` to `now + retryMs`, and with a
`retryMs` that is not positive the state comes back (`sched_comes_back`).

* `NeverBack`: what is promised;
* `sched_never_back`: it is so as long as each deferral is to a later time (`Forward`);
* `fires_accounted`: what is so in every run.
-/

namespace Gnldev.Scheduler

open Function

variable {V : Type}

/-! ## What is promised -/

/-- How far a trigger has come. -/
def TriggerState.pair (st : TriggerState) : ℕ ×ₗ WithBot ℤ := toLex (st.fireCount, st.nextRunAt)

/-- The states of the triggers, in the course of the moves `ms`. -/
structure NeverBack (w : SchedWorld V) (polls : ℕ → PollCall)
    (ms : List (Move (SchedAnswer V) Empty)) : Prop where
  /-- The pair does not decrease. -/
  mono : ∀ n id st st', (schedAfter w polls (ms.take n)).world.states id = some st →
    (schedAfter w polls ms).world.states id = some st' → st.pair ≤ st'.pair
  /-- A state that is not pending stays. -/
  final : ∀ n id st, (schedAfter w polls (ms.take n)).world.states id = some st →
    st.status ≠ .pending → (schedAfter w polls ms).world.states id = some st
  /-- A state is replaced by one commit at most. -/
  once : ∀ pre c past, (schedAfter w polls ms).world.trace = pre ++ c :: past →
    ∀ c' ∈ past, c'.id = c.id → c'.before ≠ c.before
  /-- When the polls below `m` have returned and no other has committed, they have reported
      the commits that count. -/
  fired : ∀ m (outs : ℕ → PollResult),
    (∀ i < m, (schedAfter w polls ms).procs i = .pure (.ok (outs i))) →
    (∀ c ∈ (schedAfter w polls ms).world.trace, c.i < m) →
    ∑ i ∈ Finset.range m, (outs i).fired =
      (schedAfter w polls ms).world.trace.countP Commit.increments +
        (schedAfter w polls ms).world.trace.countP Commit.finishes

/-- A deferral is to a later time. -/
def Later (call : PollCall) (b a : TriggerState) : Prop :=
  a = call.deferred b → b.nextRunAt < a.nextRunAt

/-- Every deferral is to a later time. -/
def Forward (polls : ℕ → PollCall) (_ : SchedWorld V) (i : ℕ) : (o : SchedOp V) → o.Res → Prop
  | .putIfMatch _ b a, _ => Later (polls i) b a
  | _, _ => True

/-! ## The measure -/

/-- How far a trigger has come, and whether it has ended. -/
def TriggerState.rank (st : TriggerState) : (ℕ ×ₗ WithBot ℤ) ×ₗ Bool :=
  toLex (st.pair, decide (st.status ≠ .pending))

variable {b a : TriggerState}

theorem rank_lt_of_pair (h : b.pair < a.pair) : b.rank < a.rank :=
  Prod.Lex.toLex_lt_toLex.2 (.inl h)

/-- A later time. -/
theorem pair_lt_of_later (hcount : a.fireCount = b.fireCount) (h : b.nextRunAt < a.nextRunAt) :
    b.pair < a.pair :=
  Prod.Lex.toLex_lt_toLex.2 (.inr ⟨hcount.symm, h⟩)

theorem backoff_pos (attempts : ℕ) : 0 < backoff attempts := by
  have hpow : (0 : ℤ) < 2 ^ (attempts - 1) := Int.pow_pos (by decide)
  rw [backoff, lt_min_iff]
  constructor <;> omega

/-- Every commit moves up. -/
theorem MayCommit.rank_lt {call : PollCall} {d : TriggerDef V} (h : MayCommit call d b a)
    (hb : Due call b) (hl : Later call b a) : b.rank < a.rank := by
  cases h with
  | deferred => exact rank_lt_of_pair (pair_lt_of_later rfl (hl rfl))
  | retried =>
    refine rank_lt_of_pair (pair_lt_of_later rfl ((not_lt.1 hb.2).trans_lt ?_))
    have hpos := backoff_pos (b.attempts + 1)
    exact WithBot.coe_lt_coe.2 (by omega)
  | failed =>
    refine Prod.Lex.toLex_lt_toLex.2 (.inr ⟨rfl, ?_⟩)
    simp [hb.1]
  | done =>
    refine Prod.Lex.toLex_lt_toLex.2 (.inr ⟨rfl, ?_⟩)
    simp [hb.1]
  | fired hnext => exact rank_lt_of_pair (Prod.Lex.toLex_lt_toLex.2 (.inl (Nat.lt_succ_self _)))

/-! ## Histories -/

section History

variable {polls : ℕ → PollCall} {w : SchedWorld V} {trace : List Commit}

/-- What is replaced is below what comes after it. -/
theorem Lawful.before_lt (h : Lawful polls w trace)
    (hl : ∀ c ∈ trace, Later (polls c.i) c.before c.after) {c : Commit} (hc : c ∈ trace)
    {st : TriggerState} (hst : stateOf w.states trace c.id = some st) : c.before.rank < st.rank := by
  induction trace generalizing st with
  | nil => cases hc
  | cons c' past ih =>
    obtain ⟨⟨hbefore, hdue, d, -, hmay⟩, hpast⟩ := h
    have hstep := hmay.rank_lt hdue (hl c' (.head _))
    have hl' : ∀ c ∈ past, Later (polls c.i) c.before c.after := fun c hc => hl c (.tail _ hc)
    rw [stateOf] at hst
    rcases List.mem_cons.1 hc with rfl | hc
    · rw [update_self] at hst
      obtain rfl := Option.some.inj hst
      exact hstep
    by_cases hid : c.id = c'.id
    · rw [hid, update_self] at hst
      obtain rfl := Option.some.inj hst
      rw [← hid] at hbefore
      exact (ih hpast hl' hc hbefore).trans hstep
    · rw [update_of_ne hid] at hst
      exact ih hpast hl' hc hst

/-- A history that goes on leaves a state, or one that is above it; the state of a trigger that
    has ended stays. -/
theorem Lawful.mono {pre past : List Commit} (h : Lawful polls w (pre ++ past))
    (hl : ∀ c ∈ pre ++ past, Later (polls c.i) c.before c.after) {id : JsString}
    {st st' : TriggerState} (hst : stateOf w.states past id = some st)
    (hst' : stateOf w.states (pre ++ past) id = some st') :
    st.rank ≤ st'.rank ∧ (st.status ≠ .pending → st' = st) := by
  induction pre generalizing st' with
  | nil =>
    obtain rfl := Option.some.inj (hst.symm.trans hst')
    exact ⟨le_rfl, fun _ => rfl⟩
  | cons c pre ih =>
    obtain ⟨⟨hbefore, hdue, d, -, hmay⟩, hpre⟩ := h
    have hl' : ∀ c ∈ pre ++ past, Later (polls c.i) c.before c.after :=
      fun c hc => hl c (.tail _ hc)
    rw [List.cons_append, stateOf] at hst'
    by_cases hid : id = c.id
    · subst hid
      rw [update_self] at hst'
      obtain rfl := Option.some.inj hst'
      obtain ⟨hle, hend⟩ := ih hpre hl' hbefore
      refine ⟨hle.trans (hmay.rank_lt hdue (hl c (.head _))).le, fun hpending => ?_⟩
      -- What was committed on is pending, and would be what has ended.
      rw [← hend hpending] at hpending
      exact absurd hdue.1 hpending
    · rw [update_of_ne hid] at hst'
      exact ih hpre hl' hst'

theorem Lawful.suffix {pre past : List Commit} (h : Lawful polls w (pre ++ past)) :
    Lawful polls w past := by
  induction pre with
  | nil => exact h
  | cons c pre ih => exact ih h.2

/-- A trigger that has a state keeps one. -/
theorem stateOf_isSome {states : JsString → Option TriggerState} (pre past : List Commit)
    {id : JsString} (h : (stateOf states past id).isSome) :
    (stateOf states (pre ++ past) id).isSome := by
  induction pre with
  | nil => exact h
  | cons c pre ih =>
    rw [List.cons_append, stateOf]
    by_cases hid : id = c.id
    · rw [hid, update_self]
      rfl
    · rw [update_of_ne hid]
      exact ih

/-- All fires are fires of polls. -/
theorem sum_firedBy {m : ℕ} (h : ∀ c ∈ trace, c.i < m) :
    ∑ i ∈ Finset.range m, firedBy i trace =
      trace.countP Commit.increments + trace.countP Commit.finishes := by
  induction trace with
  | nil => exact Finset.sum_const_zero
  | cons c past ih =>
    have hc : c.i ∈ Finset.range m := Finset.mem_range.2 (h c (.head _))
    simp only [firedBy_cons, Finset.sum_add_distrib, ih fun c hc => h c (.tail _ hc),
      Finset.sum_ite_eq, if_pos hc, List.countP_cons, Commit.fires]
    rcases c.increments with _ | _ <;> rcases c.finishes with _ | _ <;> simp <;> omega

end History

/-! ## A run -/

theorem forward_trace {polls : ℕ → PollCall} {w : SchedWorld V} (hw : w.trace = [])
    {ms : List (Move (SchedAnswer V) Empty)}
    (hms : schedMachine.Meets (Forward polls) (schedStart w polls) ms) :
    ∀ c ∈ (schedAfter w polls ms).world.trace, Later (polls c.i) c.before c.after := by
  refine Machine.play_induction (M := schedMachine)
    (fun conf => ∀ c ∈ conf.world.trace, Later (polls c.i) c.before c.after) ?_
    (fun _ e _ => e.elim) ?_ hms
  · intro conf i a o k h _ hok
    by_cases ho : ∀ id b next, o ≠ .putIfMatch id b next
    · obtain ⟨deferrals, hexec⟩ := exec_quiet (w := conf.world) i a ho
      rw [hexec]
      exact h
    · push Not at ho
      obtain ⟨id, b, next, rfl⟩ := ho
      rcases exec_putIfMatch (w := conf.world) i a id b next with ⟨-, hexec, -⟩ | ⟨hexec, -⟩
      all_goals rw [hexec]
      · intro c hc
        rcases List.mem_cons.1 hc with rfl | hc
        · exact hok
        · exact h c hc
      · exact h
  · intro c hc
    rw [schedStart, hw] at hc
    cases hc

/-- In every run in which every deferral is to a later time, the state of a trigger never goes
    back. -/
theorem sched_never_back (w : SchedWorld V) (polls : ℕ → PollCall)
    (ms : List (Move (SchedAnswer V) Empty)) (hw : w.trace = [])
    (hms : schedMachine.Meets (Forward polls) (schedStart w polls) ms) : NeverBack w polls ms := by
  have hl := forward_trace hw hms
  obtain ⟨hlawful, hstates, hfired⟩ := sched_lawful polls hw ms
  have hgoes (n : ℕ) : ∃ pre, (schedAfter w polls ms).world.trace =
      pre ++ (schedAfter w polls (ms.take n)).world.trace := by
    obtain ⟨pre, hpre⟩ := trace_suffix w polls ms n
    exact ⟨pre, hpre.symm⟩
  refine ⟨fun n id st st' hst hst' => ?_, fun n id st hst hended => ?_, ?_, ?_⟩
  · obtain ⟨pre, hpre⟩ := hgoes n
    rw [(sched_lawful polls hw _).2.1] at hst
    rw [hstates, hpre] at hst'
    rw [hpre] at hlawful hl
    have hrank := (hlawful.mono hl hst hst').1
    rcases Prod.Lex.le_iff.1 hrank with hlt | ⟨heq, -⟩
    · exact hlt.le
    · exact heq.le
  · obtain ⟨pre, hpre⟩ := hgoes n
    rw [(sched_lawful polls hw _).2.1] at hst
    have hsome := stateOf_isSome pre _ (Option.isSome_iff_exists.2 ⟨st, hst⟩)
    rw [← hpre] at hsome
    obtain ⟨st', hst'⟩ := Option.isSome_iff_exists.1 hsome
    rw [hstates, hst']
    rw [hpre] at hlawful hl hst'
    rw [(hlawful.mono hl hst hst').2 hended]
  · intro pre c past htrace c' hc' hid hbefore
    rw [htrace] at hlawful hl
    obtain ⟨⟨hc, -⟩, hpast⟩ := hlawful.suffix
    rw [← hid] at hc
    have hlt := hpast.before_lt (fun c hc => hl c (List.mem_append_right _ (.tail _ hc))) hc' hc
    rw [hbefore] at hlt
    exact lt_irrefl _ hlt
  · intro m outs houts hm
    rw [← sum_firedBy hm]
    refine Finset.sum_congr rfl fun i hi => ?_
    exact hfired i (outs i) (houts i (Finset.mem_range.1 hi))

/-! ## Two runs -/

/-- A trigger that fires every minute, in the mode `misfire`. -/
def minutely (misfire : MisfirePolicy) : SchedWorld Unit where
  defs := [(js "report", ⟨js "report", (), .every 60000, 5, misfire, none, none, false⟩)]
  states id := if id = js "report" then some ⟨(60000 : ℤ), 0, 0, .pending, none⟩ else none
  deferrals _ := none
  trace := []

/-- The poll `i` makes `n` operations; it has the lock, and the workflow ends so. -/
def pollsAs (outcome : Except SchedError Bool) (i n : ℕ) : List (Move (SchedAnswer Unit) Empty) :=
  List.replicate n (.run i ⟨true, .ok (), outcome, none, false⟩)

/-- Two polls start the workflow; the second one finds it suspended, and the first one ends
    it. -/
def takeover : List (Move (SchedAnswer Unit) Empty) :=
  pollsAs (.ok false) 0 5 ++ pollsAs (.ok true) 1 7 ++ pollsAs (.ok false) 0 2

instance (polls : ℕ → PollCall) (w : SchedWorld V) (i : ℕ) (o : SchedOp V) (r : o.Res) :
    Decidable (Forward polls w i o r) := by
  rcases o with _ | _ | _ | _ | _ | _ | _ | ⟨id, b, a⟩ | _ | _ | _ | _
  case putIfMatch => exact inferInstanceAs (Decidable (_ → _))
  all_goals exact isTrue trivial

/-- The suspended workflow is deferred by 30 seconds. The first poll is late, and counts
    nothing. -/
theorem sched_never_back_takeover :
    (schedAfter (minutely .skip) (fun _ => ⟨60000, 30000, false, false⟩) takeover).procs 0 =
        .pure (.ok ⟨0, 0, 0, 0⟩) ∧
      NeverBack (minutely .skip) (fun _ => ⟨60000, 30000, false, false⟩) takeover :=
  ⟨rfl, sched_never_back _ _ _ rfl (by decide +kernel)⟩

/-- Where it is deferred by nothing, the state is the one the first poll has read, and both
    commits are made. -/
theorem sched_comes_back :
    ¬NeverBack (minutely .skip) (fun _ => ⟨60000, 0, false, false⟩) takeover := by
  intro h
  have htrace : (schedAfter (minutely .skip) (fun _ => ⟨60000, 0, false, false⟩)
      takeover).world.trace =
      [⟨0, js "report", ⟨(60000 : ℤ), 0, 0, .pending, none⟩, ⟨(120000 : ℤ), 0, 1, .pending, none⟩⟩,
        ⟨1, js "report", ⟨(60000 : ℤ), 0, 0, .pending, none⟩,
          ⟨(60000 : ℤ), 0, 0, .pending, none⟩⟩] := by decide +kernel
  exact h.once [] _ _ htrace _ (.head _) rfl rfl

/-! ## Whatever `retryMs` is -/

/-- A trigger that is there stays there. It has fired once more for every commit on it that says so,
    and once it is not pending, its state stays. -/
theorem Lawful.counted {polls : ℕ → PollCall} {w : SchedWorld V} {since past : List Commit}
    (h : Lawful polls w (since ++ past)) {id : JsString} {st : TriggerState}
    (hst : stateOf w.states past id = some st) :
    ∃ st', stateOf w.states (since ++ past) id = some st' ∧
      st'.fireCount = st.fireCount + since.countP (fun c => c.id = id ∧ c.increments) ∧
      (st.status ≠ .pending → st' = st) := by
  induction since with
  | nil => exact ⟨st, hst, rfl, fun _ => rfl⟩
  | cons c since ih =>
    obtain ⟨i, key, b, a⟩ := c
    obtain ⟨⟨hbefore, hdue, d, -, hmay⟩, hsince⟩ := h
    obtain ⟨st', hst', hcount, hend⟩ := ih hsince
    rw [List.cons_append, stateOf, List.countP_cons]
    by_cases hid : key = id
    · subst hid
      obtain rfl : b = st' := Option.some.inj (hbefore.symm.trans hst')
      refine ⟨a, update_self .., ?_, fun hended => ?_⟩
      · dsimp only at hmay hcount ⊢
        cases hmay <;> simp [Commit.increments, PollCall.deferred, hcount, Nat.add_assoc]
      · -- What was committed on is pending, and would be what has ended.
        rw [← hend hended] at hended
        exact absurd hdue.1 hended
    · exact ⟨st', (update_of_ne (Ne.symm hid) ..).trans hst', by simpa [hid] using hcount, hend⟩

/-- So it is in every interleaving of any polls, from any time on. -/
theorem fires_accounted (w : SchedWorld V) (polls : ℕ → PollCall)
    (ms : List (Move (SchedAnswer V) Empty)) (hw : w.trace = []) (n : ℕ) {id : JsString}
    {st : TriggerState} (hst : (schedAfter w polls (ms.take n)).world.states id = some st) :
    ∃ since st', (schedAfter w polls ms).world.trace =
        since ++ (schedAfter w polls (ms.take n)).world.trace ∧
      (schedAfter w polls ms).world.states id = some st' ∧
      st'.fireCount = st.fireCount + since.countP (fun c => c.id = id ∧ c.increments) ∧
      (st.status ≠ .pending → st' = st) := by
  obtain ⟨since, hsince⟩ := trace_suffix w polls ms n
  obtain ⟨hlawful, hstates, -⟩ := sched_lawful polls hw ms
  rw [(sched_lawful polls hw _).2.1] at hst
  rw [hstates, ← hsince]
  rw [← hsince] at hlawful
  obtain ⟨st', h⟩ := hlawful.counted hst
  exact ⟨since, st', rfl, h⟩

/-- Also where a deferral is by nothing: one of the two commits counts. -/
theorem fires_accounted_takeover :
    ∃ st, (schedAfter (minutely .skip) (fun _ => ⟨60000, 0, false, false⟩) takeover).world.states
      (js "report") = some st ∧ st.fireCount = 1 := by
  obtain ⟨since, st', htrace, hst', hcount, -⟩ := fires_accounted _
    (fun _ => ⟨60000, 0, false, false⟩) takeover rfl 0 (rfl : (minutely .skip).states (js "report") = _)
  have hsince : (schedAfter (minutely .skip) (fun _ => ⟨60000, 0, false, false⟩) takeover).world.trace =
    since := htrace.trans (List.append_nil since)
  refine ⟨st', hst', hcount.trans ?_⟩
  rw [← hsince]
  decide +kernel

end Gnldev.Scheduler
