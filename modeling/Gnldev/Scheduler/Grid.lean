import Mathlib.Algebra.Order.Ring.Int
import Mathlib.Order.Bounds.Basic
import Gnldev.Scheduler.Monotone

/-!
# The planned grid

A trigger has a grid of times: its first one and multiples of its interval, or the matches of
its cron expression. In the mode `catchup` each of them should be fired, in order; in the
mode `skip` a fire should plan the first one that is to come.

But `nextRunAt` holds the time of a deferral or a retry as well, and the next time is computed
from it: what is put off leaves the grid (`sched_leaves_grid`).

* `Planned`: the next time a fire should write, `Accounted`: every fire writes it;
* `accounted_iff`: every fire writes it exactly if every fire is made from a `nextRunAt` that
  is on the grid (`OnGrid`);
* `accounted_of_fires`: so it is if no commit puts the trigger off.
-/

namespace Gnldev.Scheduler

variable {V : Type}

/-! ## What is promised -/

/-- The expression matches. -/
def Matches (expr : JsString) (t : ℤ) : Prop := ∃ c, parseCron expr = .ok c ∧ c.Slot t

/-- The slot after `p`. -/
def NextSlot : Timing → ℤ → ℤ → Prop
  | .at_ _, _, _ => False
  | .every interval, p, q => q = p + interval
  | .cron expr, p, q => IsLeast {t | Matches expr t ∧ p < t} q

/-- The `k`-th slot of the grid. -/
def IsSlot (timing : Timing) (first : ℤ) : ℕ → ℤ → Prop
  | 0, p => p = first
  | k + 1, q => ∃ p, IsSlot timing first k p ∧ NextSlot timing p q

/-- The times of the grid. -/
def InGrid (timing : Timing) (first : ℤ) (p : ℤ) : Prop :=
  match timing with
  | .at_ _ => False
  | .every interval => ∃ k : ℕ, p = first + k * interval
  | .cron expr => Matches expr p

/-- What the fire number `k`, at the time `now`, should write. -/
def Planned (d : TriggerDef V) (first now : ℤ) (k : ℕ) (next : WithBot ℤ) : Prop :=
  match d.misfire with
  | .catchup => ∃ p : ℤ, next = p ∧ IsSlot d.timing first (k + 1) p
  | .skip => ∃ p : ℤ, next = p ∧ IsLeast {p | InGrid d.timing first p ∧ now < p} p

/-- The fires of a trigger. -/
def successes (id : JsString) (trace : List Commit) : ℕ :=
  trace.countP fun c => c.id = id ∧ c.increments

/-- Every fire of the trigger writes what it should. -/
def Accounted (polls : ℕ → PollCall) (id : JsString) (d : TriggerDef V) (first : ℤ)
    (trace : List Commit) : Prop :=
  ∀ pre c past, trace = pre ++ c :: past → c.id = id → c.increments →
    Planned d first (polls c.i).now (successes id past) c.after.nextRunAt

/-- The fire number `k` can be made from `t`: from its slot, or from another one in the mode
    `skip`, where there is no drift; for a cron expression, from before the next slot. -/
def OnGrid (d : TriggerDef V) (first : ℤ) (k : ℕ) (t : WithBot ℤ) : Prop :=
  match d.timing, d.misfire with
  | .at_ _, _ => True
  | .every interval, .catchup => t = (first + k * interval : ℤ)
  | .every interval, .skip => 0 < interval ∧ ∃ p : ℤ, t = p ∧ interval ∣ p - first
  | .cron _, .catchup => ∃ p s q : ℤ, t = s ∧ IsSlot d.timing first k p ∧
      IsSlot d.timing first (k + 1) q ∧ p ≤ s ∧ s < q
  | .cron _, .skip => True

/-- Every fire of the trigger is made from the grid. -/
def Unshifted (id : JsString) (d : TriggerDef V) (first : ℤ) (trace : List Commit) : Prop :=
  ∀ pre c past, trace = pre ++ c :: past → c.id = id → c.increments →
    OnGrid d first (successes id past) c.before.nextRunAt

/-! ## Slots -/

variable {first : ℤ}

theorem isSlot_every {interval : ℤ} (k : ℕ) (p : ℤ) :
    IsSlot (.every interval) first k p ↔ p = first + k * interval := by
  induction k generalizing p with
  | zero => simp [IsSlot]
  | succ k ih =>
    rw [IsSlot]
    constructor
    · rintro ⟨q, hq, hp⟩
      rw [hp, (ih q).1 hq]
      push_cast
      ring
    · intro hp
      refine ⟨first + k * interval, (ih _).2 rfl, ?_⟩
      rw [NextSlot, hp]
      push_cast
      ring

theorem isSlot_unique {timing : Timing} {k : ℕ} {p q : ℤ} (hp : IsSlot timing first k p)
    (hq : IsSlot timing first k q) : p = q := by
  induction k generalizing p q with
  | zero => exact Eq.trans hp (Eq.symm hq)
  | succ k ih =>
    obtain ⟨p', hp', hp⟩ := hp
    obtain ⟨q', hq', hq⟩ := hq
    obtain rfl := ih hp' hq'
    rcases timing with _ | interval | expr
    · exact hp.elim
    · exact Eq.trans hp (Eq.symm hq)
    · exact hp.unique hq

/-- The slots of a cron expression are matches, if the first one is. -/
theorem matches_of_isSlot {expr : JsString} (hfirst : Matches expr first) {k : ℕ} {p : ℤ}
    (h : IsSlot (.cron expr) first k p) : Matches expr p := by
  rcases k with _ | k
  · rw [show p = first from h]
    exact hfirst
  · obtain ⟨q, -, hq⟩ := h
    exact hq.1.1

theorem nextCronTime_next {expr : JsString} {after t : ℤ} (h : nextCronTime expr after = .ok t) :
    IsLeast {t | Matches expr t ∧ after < t} t := by
  obtain ⟨c, hc, hleast⟩ := nextCronTime_isLeast h
  have hset : {t | Matches expr t ∧ after < t} = {t | c.Slot t ∧ after < t} := by
    ext t
    refine and_congr_left fun _ => ⟨?_, fun hslot => ⟨c, hc, hslot⟩⟩
    rintro ⟨c', hc', hslot⟩
    obtain rfl := Except.ok.inj (hc.symm.trans hc')
    exact hslot
  rw [hset]
  exact hleast

/-! ## The next time -/

section Next

variable {first now p : ℤ} {k : ℕ}

variable {interval : ℤ}

/-- Where the interval is negative, the next time is before now. -/
theorem next_lt_of_neg (hneg : interval < 0) :
    p + interval * ((now - p).fdiv interval + 1) < now := by
  have hdiv := Int.mul_fdiv_add_fmod (now - p) interval
  have hmod : interval < (now - p).fmod interval := by
    rw [Int.fmod_eq_emod]
    have hnonneg := Int.emod_nonneg (now - p) hneg.ne
    split
    · omega
    · next h =>
      have hne : (now - p) % interval ≠ 0 := fun hzero =>
        h (.inr (Int.dvd_of_emod_eq_zero hzero))
      omega
  rw [mul_add, mul_one]
  omega

theorem next_isLeast_iff (hne : interval ≠ 0) (hfirst : first ≤ now) :
    IsLeast {q | InGrid (.every interval) first q ∧ now < q}
        (p + interval * ((now - p).fdiv interval + 1)) ↔
      0 < interval ∧ interval ∣ p - first := by
  constructor
  · rintro ⟨⟨⟨n, hn⟩, hlt⟩, -⟩
    have hpos : 0 < interval := by
      rcases lt_or_gt_of_ne hne with hneg | hpos
      · exact absurd (next_lt_of_neg hneg) (not_lt.2 hlt.le)
      · exact hpos
    refine ⟨hpos, n - ((now - p).fdiv interval + 1), ?_⟩
    rw [mul_sub, mul_comm interval (n : ℤ)]
    omega
  · rintro ⟨hpos, m, hm⟩
    -- The slot before the next one is not after now.
    have hle := Int.mul_ediv_self_le (x := now - p) hne
    have hgt := Int.lt_mul_ediv_self_add (x := now - p) hpos
    rw [Int.fdiv_eq_ediv_of_nonneg _ hpos.le]
    set f := (now - p) / interval
    have hq : p + interval * (f + 1) = first + (m + f + 1) * interval := by
      rw [show p = first + interval * m by omega]
      ring
    have hnow : now < p + interval * (f + 1) := by
      rw [mul_add, mul_one]
      omega
    have hslots : 0 < m + f + 1 := by
      by_contra hnot
      have := mul_nonpos_of_nonpos_of_nonneg (not_lt.1 hnot) hpos.le
      omega
    refine ⟨⟨⟨(m + f + 1).toNat, ?_⟩, hnow⟩, ?_⟩
    · rw [Int.toNat_of_nonneg hslots.le]
      exact hq
    · rintro q ⟨⟨n, hn⟩, hlt⟩
      have hcount : m + f < n := by
        have hmul : (m + f) * interval < n * interval := by
          have hback : first + (m + f) * interval ≤ now := by
            rw [show (m + f) * interval = interval * m + interval * f by ring]
            omega
          omega
        exact lt_of_mul_lt_mul_right hmul hpos.le
      have hle' := mul_le_mul_of_nonneg_right (Int.add_one_le_of_lt hcount) hpos.le
      rw [hq, hn]
      omega

variable {d : TriggerDef V} {t next : WithBot ℤ}

/-- An interval, skipping. -/
theorem planned_every_skip (hd : d.timing = .every interval) (hm : d.misfire = .skip)
    (hnow : first ≤ now) (hnext : computeNext d t now = .ok next) :
    Planned d first now k next ↔ OnGrid d first k t := by
  simp only [Planned, OnGrid, computeNext, hd, hm] at hnext ⊢
  rcases t with _ | p
  · obtain rfl := Except.ok.inj hnext
    exact ⟨fun ⟨p, hp, _⟩ => absurd hp nofun, fun ⟨_, p, hp, _⟩ => absurd hp nofun⟩
  simp only at hnext
  split at hnext
  · next hzero =>
    obtain rfl := Except.ok.inj hnext
    exact ⟨fun ⟨p, hp, _⟩ => absurd hp nofun, fun ⟨hpos, _⟩ => absurd hzero hpos.ne'⟩
  · next hne =>
    obtain rfl := Except.ok.inj hnext
    have hiff := next_isLeast_iff (p := p) hne hnow
    constructor
    · rintro ⟨q, hq, hleast⟩
      obtain rfl := WithBot.coe_inj.1 hq
      obtain ⟨hpos, hdvd⟩ := hiff.1 hleast
      exact ⟨hpos, p, rfl, hdvd⟩
    · rintro ⟨hpos, q, hq, hdvd⟩
      obtain rfl := WithBot.coe_inj.1 hq
      exact ⟨_, rfl, hiff.2 ⟨hpos, hdvd⟩⟩

/-- An interval, one slot after another. -/
theorem planned_every_catchup (hd : d.timing = .every interval) (hm : d.misfire = .catchup)
    (hnext : computeNext d t now = .ok next) :
    Planned d first now k next ↔ OnGrid d first k t := by
  simp only [Planned, OnGrid, computeNext, hd, hm, isSlot_every] at hnext ⊢
  obtain rfl := Except.ok.inj hnext
  constructor
  · rintro ⟨q, hq, hslot⟩
    rcases t with _ | p
    · exact absurd hq nofun
    have hp : p + interval = q := WithBot.coe_inj.1 hq
    refine WithBot.coe_inj.2 ?_
    push_cast at hslot
    rw [add_mul, one_mul] at hslot
    omega
  · intro ht
    refine ⟨first + k * interval + interval, ?_, ?_⟩
    · rw [ht]
      rfl
    · push_cast
      ring

/-- The matches after now do not depend on what was planned. -/
theorem planned_cron_skip {expr : JsString} (hd : d.timing = .cron expr) (hm : d.misfire = .skip)
    (hnext : computeNext d t now = .ok next) :
    Planned d first now k next ↔ OnGrid d first k t := by
  simp only [Planned, OnGrid, computeNext, hd, hm] at hnext ⊢
  refine ⟨fun _ => trivial, fun _ => ?_⟩
  rcases hcron : nextCronTime expr now with e | q
  all_goals rw [hcron] at hnext
  · cases hnext
  · obtain rfl := Except.ok.inj hnext
    exact ⟨q, rfl, nextCronTime_next hcron⟩

/-- The match after `t` is the next slot if there is none between the slot and `t`. -/
theorem planned_cron_catchup {expr : JsString} (hd : d.timing = .cron expr)
    (hm : d.misfire = .catchup) (hmatch : Matches expr first)
    (hnext : computeNext d t now = .ok next) :
    Planned d first now k next ↔ OnGrid d first k t := by
  simp only [Planned, OnGrid, computeNext, hd, hm] at hnext ⊢
  rcases t with _ | s
  · cases hnext
  rcases hcron : nextCronTime expr s with e | q
  all_goals simp only [hcron] at hnext
  · cases hnext
  obtain rfl := Except.ok.inj hnext
  have hleast := nextCronTime_next hcron
  constructor
  · rintro ⟨q', hq', p, hp, hpq⟩
    obtain rfl := WithBot.coe_inj.1 hq'
    refine ⟨p, s, q, rfl, hp, ⟨p, hp, hpq⟩, ?_, hleast.1.2⟩
    by_contra hnot
    have hqp := hleast.2 ⟨matches_of_isSlot hmatch hp, not_le.1 hnot⟩
    exact absurd hpq.1.2 (not_lt.2 hqp)
  · rintro ⟨p, s', q', hs, hp, hq', hle, hlt⟩
    obtain rfl := WithBot.coe_inj.1 hs
    obtain ⟨p', hp', hpq⟩ := hq'
    obtain rfl := isSlot_unique hp hp'
    refine ⟨q, rfl, p, hp, ⟨hleast.1.1, hle.trans_lt hleast.1.2⟩, ?_⟩
    intro r hr
    exact (hleast.2 ⟨hpq.1.1, hlt⟩).trans (hpq.2 hr)

/-- The first time of a cron expression is a match. -/
theorem matches_first {expr : JsString} {at_ : ℤ} (h : firstRunAt (.cron expr) at_ = .ok first) :
    Matches expr first := by
  rcases hcron : nextCronTime expr at_ with e | t
  all_goals rw [firstRunAt, hcron] at h
  · cases h
  · obtain rfl := Except.ok.inj h
    exact (nextCronTime_next hcron).1.1

/-- A fire from `t` writes what it should exactly if `t` is on the grid. -/
theorem planned_iff {at_ : ℤ} (hd : ∀ time, d.timing ≠ .at_ time)
    (hfirst : firstRunAt d.timing at_ = .ok first) (hnow : first ≤ now)
    (hnext : computeNext d t now = .ok next) :
    Planned d first now k next ↔ OnGrid d first k t := by
  rcases htiming : d.timing with time | interval | expr
  · exact absurd htiming (hd time)
  · rcases hm : d.misfire with _ | _
    · exact planned_every_skip htiming hm hnow hnext
    · exact planned_every_catchup htiming hm hnext
  · rcases hm : d.misfire with _ | _
    · exact planned_cron_skip htiming hm hnext
    · exact planned_cron_catchup htiming hm (matches_first (htiming ▸ hfirst)) hnext

/-- The slot number `k`, or in the mode `skip` any of the grid. -/
def AtSlot (d : TriggerDef V) (first : ℤ) (k : ℕ) (t : WithBot ℤ) : Prop :=
  ∃ p : ℤ, t = p ∧ match d.misfire with
    | .catchup => IsSlot d.timing first k p
    | .skip => InGrid d.timing first p

theorem atSlot_first {at_ : ℤ} (hd : ∀ time, d.timing ≠ .at_ time)
    (hfirst : firstRunAt d.timing at_ = .ok first) : AtSlot d first 0 first := by
  refine ⟨first, rfl, ?_⟩
  rcases d.misfire with _ | _
  swap
  · rfl
  rcases htiming : d.timing with time | interval | expr
  · exact absurd htiming (hd time)
  · exact ⟨0, by simp⟩
  · exact matches_first (htiming ▸ hfirst)

/-- What a fire should write is the slot after its own. -/
theorem Planned.atSlot (h : Planned d first now k next) : AtSlot d first (k + 1) next := by
  rcases hm : d.misfire with _ | _
  all_goals simp only [Planned, AtSlot, hm] at h ⊢
  · obtain ⟨p, hp, hleast⟩ := h
    exact ⟨p, hp, hleast.1.1⟩
  · exact h

/-- A fire from its slot is made from the grid. -/
theorem AtSlot.onGrid (h : AtSlot d first k t)
    (hpos : ∀ interval, d.timing = .every interval → 0 < interval)
    (hnext : computeNext d t now = .ok next) : OnGrid d first k t := by
  obtain ⟨p, rfl, hslot⟩ := h
  rcases htiming : d.timing with time | interval | expr <;> rcases hm : d.misfire with _ | _
  all_goals simp only [OnGrid, computeNext, htiming, hm] at hnext hslot ⊢
  case every.skip =>
    obtain ⟨n, rfl⟩ := hslot
    exact ⟨hpos interval htiming, _, rfl, n, by ring⟩
  case every.catchup => exact congrArg _ ((isSlot_every k p).1 hslot)
  case cron.catchup =>
    rcases hcron : nextCronTime expr p with e | q
    all_goals rw [hcron] at hnext
    · cases hnext
    have hleast := nextCronTime_next hcron
    exact ⟨p, p, q, rfl, hslot, ⟨p, hslot, hleast⟩, le_rfl, hleast.1.2⟩

end Next

/-! ## One poller -/

/-- The poll that makes a move. -/
def pollOf : Move (SchedAnswer V) Empty → ℕ
  | .run i _ => i

/-- The commits are in the order of the polls, if the polls are made one after another. -/
theorem trace_sorted (polls : ℕ → PollCall) {w : SchedWorld V} (hw : w.trace = [])
    {ms : List (Move (SchedAnswer V) Empty)}
    (hms : ms.Pairwise fun m m' => pollOf m ≤ pollOf m') :
    (schedAfter w polls ms).world.trace.Pairwise fun c c' => c'.i ≤ c.i := by
  suffices ∀ conf : Conf (SchedOp V) SchedOp.Res (Except SchedError PollResult) (SchedWorld V),
      (conf.world.trace.Pairwise fun c c' => c'.i ≤ c.i) →
      (∀ c ∈ conf.world.trace, ∀ m ∈ ms, c.i ≤ pollOf m) →
      (schedMachine.play conf ms).world.trace.Pairwise fun c c' => c'.i ≤ c.i by
    refine this _ ?_ ?_
    all_goals rw [schedStart, hw]
    · exact .nil
    · exact List.forall_mem_nil _
  intro conf hsorted hbelow
  induction ms generalizing conf with
  | nil => exact hsorted
  | cons m ms ih =>
    obtain ⟨hfirst, hrest⟩ := List.pairwise_cons.1 hms
    obtain ⟨i, a⟩ | e := m
    swap
    · exact e.elim
    have hlater (c : Commit) (hc : c ∈ conf.world.trace) : ∀ m ∈ ms, c.i ≤ pollOf m :=
      fun m hm => hbelow c hc m (.tail _ hm)
    refine ih hrest _ ?_ ?_
    all_goals rcases trace_move conf i a with h | ⟨c, rfl, h⟩
    all_goals rw [h]
    · exact hsorted
    · exact List.pairwise_cons.2 ⟨fun c' hc' => hbelow c' hc' _ (.head _), hsorted⟩
    · exact hlater
    · intro c' hc'
      rcases List.mem_cons.1 hc' with rfl | hc'
      · exact hfirst
      · exact hlater c' hc'

variable {id : JsString}

/-- A trigger that was not committed on has the state it had. -/
theorem stateOf_of_forall {states : JsString → Option TriggerState} {trace : List Commit}
    (h : ∀ c ∈ trace, c.id ≠ id) : stateOf states trace id = states id := by
  induction trace with
  | nil => rfl
  | cons c past ih =>
    rw [stateOf, Function.update_of_ne (h c (.head _)).symm]
    exact ih fun c hc => h c (.tail _ hc)

/-- What is committed on was due at its first time. -/
theorem Lawful.first_le {polls : ℕ → PollCall} {w : SchedWorld V} {trace : List Commit}
    (h : Lawful polls w trace) (hsorted : trace.Pairwise fun c c' => c'.i ≤ c.i)
    (hnow : Monotone fun i => (polls i).now) {st : TriggerState} (hst : w.states id = some st)
    (hfirst : st.nextRunAt = first) {c : Commit} (hc : c ∈ trace) (hid : c.id = id) :
    first ≤ (polls c.i).now := by
  induction trace generalizing c with
  | nil => cases hc
  | cons c' past ih =>
    obtain ⟨⟨hbefore, hdue, -⟩, hpast⟩ := h
    obtain ⟨hle, hrest⟩ := List.pairwise_cons.1 hsorted
    rcases List.mem_cons.1 hc with rfl | hc
    swap
    · exact ih hpast hrest hc hid
    by_cases hnone : ∀ c' ∈ past, c'.id ≠ id
    · -- The first commit is on the state the trigger was given.
      rw [hid, stateOf_of_forall hnone, hst] at hbefore
      obtain rfl := Option.some.inj hbefore
      have hdue' := hdue.2
      rw [hfirst, WithBot.coe_lt_coe] at hdue'
      exact not_lt.1 hdue'
    · push Not at hnone
      obtain ⟨c', hc', hid'⟩ := hnone
      exact (ih hpast hrest hc' hid').trans (hnow (hle c' hc'))

/-- A fire writes the next time. -/
theorem computeNext_of_fireCount {call : PollCall} {d : TriggerDef V} {b a : TriggerState}
    (h : MayCommit call d b a) (hcount : a.fireCount = b.fireCount + 1) :
    computeNext d b.nextRunAt call.now = .ok a.nextRunAt := by
  cases h with
  | fired hnext => exact hnext
  | deferred => exact absurd hcount (Nat.succ_ne_self _).symm
  | retried => exact absurd hcount (Nat.succ_ne_self _).symm
  | failed => exact absurd hcount (Nat.succ_ne_self _).symm
  | done => exact absurd hcount (Nat.succ_ne_self _).symm

/-- What `scheduleWorkflow` writes. -/
theorem newTrigger_ok {spec : ScheduleSpec V} {at_ : ℤ} {d : TriggerDef V} {st : TriggerState}
    (h : newTrigger spec at_ = .ok (id, d, st)) :
    ∃ first : ℤ, firstRunAt d.timing at_ = .ok first ∧ st = ⟨first, 0, 0, .pending, none⟩ := by
  simp only [newTrigger, bind, Except.bind, pure, Except.pure, throw, throwThe,
    MonadExceptOf.throw] at h
  repeat' split at h
  all_goals cases h
  all_goals exact ⟨_, by assumption, rfl⟩

/-- Of one poller, at times that do not decrease: every fire of a trigger writes what it should
    exactly if every fire of it is made from the grid. -/
theorem accounted_iff (spec : ScheduleSpec V) (at_ first : ℤ) (id : JsString) (d : TriggerDef V)
    (st : TriggerState) (hnew : newTrigger spec at_ = .ok (id, d, st))
    (hd : ∀ time, d.timing ≠ .at_ time) (hfirst : st.nextRunAt = first) (w : SchedWorld V)
    (hdef : w.defs.lookup id = some d) (hst : w.states id = some st) (hw : w.trace = [])
    (polls : ℕ → PollCall) (hnow : Monotone fun i => (polls i).now)
    (ms : List (Move (SchedAnswer V) Empty)) (hms : ms.Pairwise fun m m' => pollOf m ≤ pollOf m') :
    Accounted polls id d first (schedAfter w polls ms).world.trace ↔
      Unshifted id d first (schedAfter w polls ms).world.trace := by
  obtain ⟨first', hfirst', rfl⟩ := newTrigger_ok hnew
  obtain rfl := WithBot.coe_inj.1 hfirst
  have hlawful := (sched_lawful polls hw ms).1
  have hsorted := trace_sorted polls hw hms
  refine forall_congr' fun pre => forall_congr' fun c => forall_congr' fun past =>
    forall_congr' fun htrace => forall_congr' fun hid => forall_congr' fun hc => ?_
  have hmem : c ∈ (schedAfter w polls ms).world.trace := by
    rw [htrace]
    exact List.mem_append_right _ (.head _)
  have hle := hlawful.first_le hsorted hnow hst rfl hmem hid
  rw [htrace] at hlawful
  obtain ⟨⟨-, -, d', hd', hmay⟩, -⟩ := hlawful.suffix
  rw [hid, hdef] at hd'
  obtain rfl := Option.some.inj hd'
  exact planned_iff hd hfirst' hle (computeNext_of_fireCount hmay (of_decide_eq_true hc))

/-! ## Where nothing is put off -/

/-- If every commit on a trigger is a fire, each is made from its slot. -/
theorem Lawful.accounted {polls : ℕ → PollCall} {w : SchedWorld V} {trace : List Commit}
    {d : TriggerDef V} {st : TriggerState} {at_ first : ℤ} (h : Lawful polls w trace)
    (hdef : w.defs.lookup id = some d) (hd : ∀ time, d.timing ≠ .at_ time)
    (hpos : ∀ interval, d.timing = .every interval → 0 < interval)
    (hfirst : firstRunAt d.timing at_ = .ok first) (hst : w.states id = some st)
    (hnext : st.nextRunAt = first) (hle : ∀ c ∈ trace, c.id = id → first ≤ (polls c.i).now)
    (hfires : ∀ c ∈ trace, c.id = id → c.increments) :
    (∀ st', stateOf w.states trace id = some st' →
      AtSlot d first (successes id trace) st'.nextRunAt) ∧ Accounted polls id d first trace := by
  induction trace with
  | nil =>
    refine ⟨fun st' hst' => ?_, fun pre c past hsplit => absurd hsplit (by simp)⟩
    obtain rfl := Option.some.inj (hst.symm.trans hst')
    exact hnext ▸ atSlot_first hd hfirst
  | cons c past ih =>
    obtain ⟨⟨hbefore, -, d', hd', hmay⟩, hpast⟩ := h
    obtain ⟨hat, hacc⟩ := ih hpast (fun c hc => hle c (.tail _ hc)) fun c hc => hfires c (.tail _ hc)
    have hplanned (hid : c.id = id) :
        Planned d first (polls c.i).now (successes id past) c.after.nextRunAt := by
      have hcompute := computeNext_of_fireCount hmay (of_decide_eq_true (hfires c (.head _) hid))
      rw [hid] at hbefore hd'
      obtain rfl := Option.some.inj (hdef.symm.trans hd')
      exact (planned_iff hd hfirst (hle c (.head _) hid) hcompute).2
        ((hat _ hbefore).onGrid hpos hcompute)
    refine ⟨fun st' hst' => ?_, fun pre c' past' hsplit hid hc => ?_⟩
    · by_cases hid : c.id = id
      · rw [stateOf, hid, Function.update_self] at hst'
        obtain rfl := Option.some.inj hst'
        rw [successes, List.countP_cons_of_pos (by simp [hid, hfires c (.head _) hid])]
        exact (hplanned hid).atSlot
      · rw [stateOf, Function.update_of_ne (Ne.symm hid)] at hst'
        rw [successes, List.countP_cons_of_neg (by simp [hid])]
        exact hat st' hst'
    · rcases pre with _ | ⟨e, pre⟩
      · obtain ⟨rfl, rfl⟩ := List.cons.inj hsplit
        exact hplanned hid
      · exact hacc pre c' past' (List.cons.inj hsplit).2 hid hc

/-- So it is in every run of one poller that puts nothing off. -/
theorem accounted_of_fires (spec : ScheduleSpec V) (at_ first : ℤ) (d : TriggerDef V)
    (st : TriggerState) (hnew : newTrigger spec at_ = .ok (id, d, st))
    (hd : ∀ time, d.timing ≠ .at_ time)
    (hpos : ∀ interval, d.timing = .every interval → 0 < interval)
    (hfirst : st.nextRunAt = first) (w : SchedWorld V) (hdef : w.defs.lookup id = some d)
    (hst : w.states id = some st) (hw : w.trace = []) (polls : ℕ → PollCall)
    (hnow : Monotone fun i => (polls i).now) (ms : List (Move (SchedAnswer V) Empty))
    (hms : ms.Pairwise fun m m' => pollOf m ≤ pollOf m')
    (hfires : ∀ c ∈ (schedAfter w polls ms).world.trace, c.id = id → c.increments) :
    Accounted polls id d first (schedAfter w polls ms).world.trace := by
  obtain ⟨first', hfirst', rfl⟩ := newTrigger_ok hnew
  obtain rfl := WithBot.coe_inj.1 hfirst
  have hlawful := (sched_lawful polls hw ms).1
  exact (hlawful.accounted hdef hd hpos hfirst' hst rfl
    (fun c hc hid => hlawful.first_le (trace_sorted polls hw hms) hnow hst rfl hc hid) hfires).2

/-! ## Two runs -/

/-- A report every minute, scheduled at the time 0. -/
def everyMinute (misfire : MisfirePolicy) : ScheduleSpec Unit :=
  ⟨none, js "report", (), none, some 60000, none, none, none, none, none, some misfire⟩

/-- A poll at the first slot, one half a minute later, and one half a minute after the second. -/
def threePolls : ℕ → PollCall
  | 0 => ⟨60000, 30000, false, false⟩
  | 1 => ⟨90000, 30000, false, false⟩
  | _ => ⟨150000, 30000, false, false⟩

theorem monotone_threePolls : Monotone fun i => (threePolls i).now := by
  refine monotone_nat_of_le_succ fun i => ?_
  rcases i with _ | _ | i
  · decide
  · decide
  · exact le_rfl

/-- The run is busy at the first poll, and is made at the second one. -/
def busyOnce : List (Move (SchedAnswer Unit) Empty) :=
  pollsAs (.error (.busy (js "busy"))) 0 9 ++ pollsAs (.ok false) 1 7

/-- It is made at the first one, and at the third one. -/
def onTime : List (Move (SchedAnswer Unit) Empty) :=
  pollsAs (.ok false) 0 7 ++ pollsAs (.ok false) 1 4 ++ pollsAs (.ok false) 2 7

/-- On time, in the mode `catchup`: the fires plan the second slot and the third. -/
theorem accounted_onTime :
    (schedAfter (minutely .catchup) threePolls onTime).world.trace.length = 2 ∧
      Accounted threePolls (js "report")
        ⟨js "report", (), .every 60000, 5, .catchup, none, none, false⟩ 60000
        (schedAfter (minutely .catchup) threePolls onTime).world.trace := by
  have htrace : (schedAfter (minutely .catchup) threePolls onTime).world.trace =
      [⟨2, js "report", ⟨(120000 : ℤ), 0, 1, .pending, none⟩,
          ⟨(180000 : ℤ), 0, 2, .pending, none⟩⟩,
        ⟨0, js "report", ⟨(60000 : ℤ), 0, 0, .pending, none⟩,
          ⟨(120000 : ℤ), 0, 1, .pending, none⟩⟩] := by decide +kernel
  refine ⟨by rw [htrace]; rfl, (accounted_iff (everyMinute .catchup) 0 60000 (js "report") _ _ rfl
    nofun rfl (minutely .catchup) rfl rfl rfl threePolls monotone_threePolls onTime
    (by decide +kernel)).2 ?_⟩
  rw [htrace]
  intro pre c past hsplit _ _
  rcases pre with _ | ⟨c', _ | ⟨c'', pre⟩⟩
  · obtain ⟨rfl, rfl⟩ := List.cons.inj hsplit
    rfl
  · obtain ⟨rfl, rfl⟩ := List.cons.inj (List.cons.inj hsplit).2
    rfl
  · simp at hsplit

/-- Half a minute late, in the mode `skip`: the fire plans the time half a minute after the
    slot that is to come. -/
theorem sched_leaves_grid :
    ¬Accounted threePolls (js "report")
      ⟨js "report", (), .every 60000, 5, .skip, none, none, false⟩ 60000
      (schedAfter (minutely .skip) threePolls busyOnce).world.trace := by
  have htrace : (schedAfter (minutely .skip) threePolls busyOnce).world.trace =
      [⟨1, js "report", ⟨(90000 : ℤ), 0, 0, .pending, none⟩, ⟨(150000 : ℤ), 0, 1, .pending, none⟩⟩,
        ⟨0, js "report", ⟨(60000 : ℤ), 0, 0, .pending, none⟩,
          ⟨(90000 : ℤ), 0, 0, .pending, none⟩⟩] := by decide +kernel
  intro h
  obtain ⟨p, hp, ⟨⟨k, hk⟩, -⟩, -⟩ := h [] _ _ htrace rfl rfl
  obtain rfl := WithBot.coe_inj.1 hp
  omega

end Gnldev.Scheduler
