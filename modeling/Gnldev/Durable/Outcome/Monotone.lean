import Gnldev.Durable.Outcome.Record

/-!
# The outcome of a run gets no older

Any number of reports on one run, in any interleaving. A report swaps its record for the one that it
has read and compared, so that every write has been weighed against what it replaces (`Replaces`).
What is not promised is that a report that gives up has been beaten by a newer one: each of its three
swaps can be lost to an older report, which was read late (`newest_dropped`).

* `RecStep`: the protocol of a report;
* `outcome_monotone`: what the record keeps to, in every run in which no report writes under one that
  is newer and on its last swap (`KeepsUp`).
-/

namespace Gnldev.Durable

open Prog Function

/-! ## The protocol of a report -/

/-- What a report is about to record. -/
structure Verdict where
  next : RunOutcomeRecord
  opts : OutcomeOptions

/-- How far a report is. -/
inductive RecPhase where
  | rest
  /-- It has `n` attempts left. -/
  | trying (v : Verdict) (n : ℕ)
  /-- It has read the record, and has `n` attempts left after this one. -/
  | swapping (v : Verdict) (n : ℕ) (cur : Option RunOutcomeRecord)
  | done
  /-- It has lost its last attempt. -/
  | gaveUp (v : Verdict)

namespace Verdict

variable (v : Verdict)

/-- The report has read the record. -/
def read (n : ℕ) : Option RunOutcomeRecord → RecPhase
  | none => .swapping v n none
  | some cur => if cur.stands v.next v.opts then .done else .swapping v n (some cur)

/-- The report has lost, with `n` attempts left. -/
def lose : ℕ → RecPhase
  | 0 => .gaveUp v
  | n + 1 => .trying v (n + 1)

/-- The report has won its attempt, or lost it. -/
def swapped (n : ℕ) (won : Bool) : RecPhase := if won then .done else v.lose n

end Verdict

/-- The protocol of reports, of verdicts that the caller may report. Whatever it does may throw, and
    ends it. -/
inductive RecStep (clocked : Bool) (May : Verdict → Prop) :
    RecPhase → (o : OutcomeOp) → o.Res → RecPhase → Prop
  | stamp {v} : clocked → May v →
    RecStep clocked May .rest .now (.ok v.next.decidedAt) (.trying v 3)
  | lookFirst {v cur} : clocked = false → May v →
    RecStep clocked May .rest .get (.ok cur) (v.read 2 cur)
  | look {v n cur} : RecStep clocked May (.trying v (n + 1)) .get (.ok cur) (v.read n cur)
  | insert {v n won} : May v →
    RecStep clocked May (.swapping v n none) (.putIfAbsent v.next) (.ok won) (v.swapped n won)
  | swap {v n cur won} : May v → cur.stands v.next v.opts = false →
    RecStep clocked May (.swapping v n (some cur)) (.putIfMatch cur v.next) (.ok won)
      (v.swapped n won)
  | thrown {s o r s' e} : RecStep clocked May s o (.ok r) s' →
    RecStep clocked May s o (.error e) .done

/-- The report has ended. -/
def RecPhase.Ended : RecPhase → Prop
  | done | gaveUp _ => True
  | _ => False

section Report

variable {clocked : Bool} {May : Verdict → Prop} {v : Verdict}

instance (o : OutcomeOp) : Inhabited o.Ans := by
  cases o <;> exact ⟨default⟩

theorem perform_runs {σ : Type} {step : σ → (o : OutcomeOp) → o.Res → σ → Prop} {o : OutcomeOp}
    {P : σ → Prop} {Q : σ → o.Ans → Prop} {X : σ → RunError → Prop}
    (hok : ∀ s r, P s → ∃ s', step s o (.ok r) s' ∧ Q s' r)
    (herr : ∀ s e, P s → ∃ s', step s o (.error e) s' ∧ X s' e) :
    Runs step P (performOutcome o) Q X := runs_perform hok herr

theorem reportEnds_runs {o : OutcomeOp} {P : RecPhase → Prop} {Q : RecPhase → o.Ans → Prop}
    (h : ∀ s r, P s → ∃ s', RecStep clocked May s o (.ok r) s' ∧ Q s' r) :
    Runs (RecStep clocked May) P (performOutcome o) Q fun s _ => s.Ended := by
  refine perform_runs h fun s e hs => ?_
  obtain ⟨s', hs', -⟩ := h s default hs
  exact ⟨.done, .thrown hs', trivial⟩

/-- What is done after an attempt, won or lost. -/
theorem swapped_runs {n : ℕ}
    (ih : Runs (RecStep clocked May) (· = v.lose n) ((outcomeJournal clocked).attempts v.next v.opts n)
      (fun s _ => s.Ended) fun s _ => s.Ended) (won : Bool) :
    Runs (RecStep clocked May) (· = v.swapped n won)
      (if won then return () else (outcomeJournal clocked).attempts v.next v.opts n)
      (fun s _ => s.Ended) fun s _ => s.Ended := by
  rcases won with _ | _
  · exact ih
  · refine runs_pure fun s hs => ?_
    rw [hs]
    trivial

/-- What is done with the record that was read. -/
theorem read_runs (hv : May v) {n : ℕ}
    (ih : Runs (RecStep clocked May) (· = v.lose n) ((outcomeJournal clocked).attempts v.next v.opts n)
      (fun s _ => s.Ended) fun s _ => s.Ended) (cur : Option RunOutcomeRecord) :
    Runs (RecStep clocked May) (· = v.read n cur)
      (match cur with
      | some cur => do
        if cur.stands v.next v.opts then return ()
        if ← performOutcome (.putIfMatch cur v.next) then return ()
        (outcomeJournal clocked).attempts v.next v.opts n
      | none => do
        if ← performOutcome (.putIfAbsent v.next) then return ()
        (outcomeJournal clocked).attempts v.next v.opts n)
      (fun s _ => s.Ended) fun s _ => s.Ended := by
  rcases cur with _ | cur
  · refine Runs.bind (reportEnds_runs ?_) (swapped_runs ih)
    rintro s won rfl
    exact ⟨_, .insert hv, rfl⟩
  · dsimp only
    split
    · next hstands =>
      refine runs_pure fun s hs => ?_
      rw [hs, Verdict.read, if_pos hstands]
      trivial
    · next hstands =>
      refine Runs.bind (reportEnds_runs ?_) (swapped_runs ih)
      rintro s won rfl
      rw [Verdict.read, if_neg hstands]
      exact ⟨_, .swap hv (Bool.of_not_eq_true hstands), rfl⟩

theorem attempts_runs (hv : May v) (n : ℕ) :
    Runs (RecStep clocked May) (· = v.lose n) ((outcomeJournal clocked).attempts v.next v.opts n)
      (fun s _ => s.Ended) fun s _ => s.Ended := by
  induction n with
  | zero =>
    refine runs_pure fun s hs => ?_
    rw [hs]
    trivial
  | succ n ih =>
    refine Runs.bind (reportEnds_runs ?_) (read_runs hv ih)
    rintro s cur rfl
    exact ⟨_, .look, rfl⟩

/-- A report follows the protocol. -/
theorem recordRunOutcome_runs (outcome : RunOutcomeRecord) (opts : OutcomeOptions)
    (hmay : ∀ t, (clocked = false → t = outcome.decidedAt) →
      May ⟨{ outcome with decidedAt := t }, opts⟩) :
    Runs (RecStep clocked May) (· = .rest)
      ((outcomeJournal clocked).recordRunOutcome (ε := RunError) outcome opts)
      (fun s _ => s.Ended) fun _ _ => False := by
  refine Runs.tryCatch (Y := fun s _ => s.Ended) ?_ fun _ => runs_pure fun _ h => h
  rcases clocked with _ | _
  · -- Without a clock, reading the record is the first step.
    have hv : May ⟨outcome, opts⟩ := hmay _ fun _ => rfl
    have hattempts : Runs (RecStep false May) (· = .rest)
        ((outcomeJournal false).attempts outcome opts 3) (fun s _ => s.Ended) fun s _ => s.Ended := by
      refine Runs.bind (reportEnds_runs ?_)
        (read_runs (v := ⟨outcome, opts⟩) hv (attempts_runs hv 2))
      rintro s cur rfl
      exact ⟨_, .lookFirst rfl hv, rfl⟩
    exact hattempts
  · refine Runs.bind (Q := fun s t => s = Verdict.lose ⟨{ outcome with decidedAt := t }, opts⟩ 3)
      (reportEnds_runs ?_) fun t => attempts_runs (v := ⟨_, opts⟩) (hmay t nofun) 3
    rintro s t rfl
    exact ⟨_, .stamp (v := ⟨{ outcome with decidedAt := t }, opts⟩) rfl (hmay t nofun), rfl⟩

end Report

/-! ## Reports -/

/-- A report, with the time of its caller. -/
inductive OutcomeCall where
  | runStarted (at_ : ℕ)
  | runSucceeded (at_ : ℕ)
  | runFailed (error : JsString) (at_ : ℕ)
  | runFailedIfUnrecorded (error : JsString) (at_ : ℕ)
  | runCanceled (at_ : ℕ)
  deriving DecidableEq

namespace OutcomeCall

/-- What is reported. -/
def verdict : OutcomeCall → Verdict
  | runStarted at_ => ⟨⟨.running, at_, none⟩, ⟨false, false⟩⟩
  | runSucceeded at_ => ⟨⟨.completed, at_, none⟩, ⟨false, false⟩⟩
  | runFailed error at_ => ⟨⟨.failed, at_, some error⟩, ⟨false, false⟩⟩
  | runFailedIfUnrecorded error at_ => ⟨⟨.failed, at_, some error⟩, ⟨true, false⟩⟩
  | runCanceled at_ => ⟨⟨.canceled, at_, none⟩, ⟨false, true⟩⟩

def prog (c : OutcomeCall) : Prog OutcomeOp OutcomeOp.Res (Except RunError Unit) :=
  let journal := outcomeJournal true
  ExceptT.run <| match c with
  | runStarted at_ => journal.runStarted (ε := RunError) at_
  | runSucceeded at_ => journal.runSucceeded (ε := RunError) at_
  | runFailed error at_ => journal.runFailed (ε := RunError) error at_
  | runFailedIfUnrecorded error at_ => journal.runFailedIfUnrecorded (ε := RunError) error at_
  | runCanceled at_ => journal.runCanceled (ε := RunError) at_

/-- The verdict is that of the report, at some time. -/
def May (c : OutcomeCall) (v : Verdict) : Prop :=
  v = ⟨{ c.verdict.next with decidedAt := v.next.decidedAt }, c.verdict.opts⟩

theorem prog_follows (c : OutcomeCall) :
    c.prog.Follows (RecStep true c.May) .rest fun s _ => s.Ended := by
  have hprog : c.prog = ExceptT.run ((outcomeJournal true).recordRunOutcome (ε := RunError)
      c.verdict.next c.verdict.opts) := by
    cases c <;> rfl
  rw [hprog]
  refine (recordRunOutcome_runs _ _ (fun t _ => rfl) _ rfl).mono fun s r hr => ?_
  rcases r with e | r
  · exact hr.elim
  · exact hr

end OutcomeCall

/-- What a write of a report has been weighed against: the record that it replaces, if any. -/
structure Replaces (c : OutcomeCall) (old : Option RunOutcomeRecord) (next : RunOutcomeRecord) :
    Prop where
  newer : ∀ cur ∈ old, cur.decidedAt ≤ next.decidedAt
  canceled : ∀ cur ∈ old, cur.status = .canceled → next.status ≠ .running
  fillOnly : c.verdict.opts.fillOnly → old = none
  notAfterTerminal : c.verdict.opts.notAfterTerminal → ∀ cur ∈ old, cur.status = .running

namespace OutcomeWorld

variable (w : OutcomeWorld)

/-- What an operation writes, if it takes effect. -/
def taken : OutcomeOp → Option RunOutcomeRecord
  | .put next => some next
  | .putIfAbsent next => if w.record = none then some next else none
  | .putIfMatch expected next => if w.record = some expected then some next else none
  | _ => none

/-- How often the call has lost an attempt at a record. -/
def losses (i : ℕ) (next : RunOutcomeRecord) : ℕ := w.trace.count (.lost i next)

/-- The record is at least as new. -/
def Newer (next : RunOutcomeRecord) : Prop :=
  ∃ cur, w.record = some cur ∧ next.decidedAt ≤ cur.decidedAt

end OutcomeWorld

/-- The reports before any of them, on any record. -/
def outcomeStart (t : ℕ) (record : Option RunOutcomeRecord) (calls : ℕ → OutcomeCall) :
    Conf OutcomeOp OutcomeOp.Res (Except RunError Unit) OutcomeWorld :=
  ⟨⟨t, record, none, []⟩, fun i => (calls i).prog⟩

section Exec

variable {w : OutcomeWorld} {i : ℕ} {a : OutcomeAnswer} {o : OutcomeOp}

theorem exec_of_ok {r : o.Ans} (h : (outcomeMachine.exec i a o w).1 = .ok r) :
    outcomeMachine.exec i a o w = w.perform i a o := by
  simp only [outcomeMachine] at h ⊢
  split
  · split
    · next hfault hjournal => simp [hfault, hjournal] at h
    · rfl
  · rfl

theorem exec_world : (outcomeMachine.exec i a o w).2 = w ∨
    (outcomeMachine.exec i a o w).2 = (w.perform i a o).2 := by
  simp only [outcomeMachine]
  split
  · split
    · split
      · exact .inr rfl
      · exact .inl rfl
    · exact .inr rfl
  · exact .inr rfl

theorem losses_of_trace {w' : OutcomeWorld} {e : OutcomeEvent} (he : ∀ j next, e ≠ .lost j next)
    (h : w'.trace = e :: w.trace) (j : ℕ) (next : RunOutcomeRecord) :
    w'.losses j next = w.losses j next := by
  rw [OutcomeWorld.losses, h, List.count_cons_of_ne (he j next), OutcomeWorld.losses]

/-- What an operation does to the record: it writes it, or loses, or neither. -/
theorem perform_cases : (∃ next, w.taken o = some next ∧ (w.perform i a o).2 = w.write i next) ∨
    (∃ next, (o = .putIfAbsent next ∧ w.record ≠ none ∨
        ∃ expected, o = .putIfMatch expected next ∧ w.record ≠ some expected) ∧
      (w.perform i a o).2 = { w with trace := .lost i next :: w.trace }) ∨
    ((w.perform i a o).2.record = w.record ∧
      ∀ j next, (w.perform i a o).2.losses j next = w.losses j next) := by
  cases o with
  | put next => exact .inl ⟨next, rfl, rfl⟩
  | putIfAbsent next =>
    by_cases hw : w.record = none
    · exact .inl ⟨next, if_pos hw, by rw [OutcomeWorld.perform, if_pos hw]⟩
    · exact .inr (.inl ⟨next, .inl ⟨rfl, hw⟩, by rw [OutcomeWorld.perform, if_neg hw]⟩)
  | putIfMatch expected next =>
    by_cases hw : w.record = some expected
    · exact .inl ⟨next, if_pos hw, by rw [OutcomeWorld.perform, if_pos hw]⟩
    · exact .inr (.inl ⟨next, .inr ⟨expected, rfl, hw⟩, by rw [OutcomeWorld.perform, if_neg hw]⟩)
  | claimFlag flag =>
    refine .inr (.inr ?_)
    rw [OutcomeWorld.perform]
    split
    · exact ⟨rfl, losses_of_trace (e := .flagged i) (by simp) rfl⟩
    · exact ⟨rfl, fun j next => rfl⟩
  | now => exact .inr (.inr ⟨rfl, losses_of_trace (e := .stamped i w.clock) (by simp) rfl⟩)
  | get => exact .inr (.inr ⟨rfl, losses_of_trace (e := .looked i) (by simp) rfl⟩)
  | getFlag => exact .inr (.inr ⟨rfl, losses_of_trace (e := .checked i w.flag.isSome) (by simp) rfl⟩)
  | dateNow => exact .inr (.inr ⟨rfl, fun _ _ => rfl⟩)
  | step fresh => exact .inr (.inr ⟨rfl, fun _ _ => rfl⟩)

end Exec

section Step

variable {clocked : Bool} {May : Verdict → Prop} {s s' : RecPhase} {o : OutcomeOp} {r : o.Res}

/-- What a report does, it could do without anything being thrown. -/
theorem RecStep.allowed (h : RecStep clocked May s o r s') :
    ∃ r s', RecStep clocked May s o (.ok r) s' := by
  cases h with
  | thrown h => exact ⟨_, _, h⟩
  | stamp h h' => exact ⟨_, _, .stamp h h'⟩
  | lookFirst h h' => exact ⟨none, _, .lookFirst h h'⟩
  | look => exact ⟨none, _, .look⟩
  | insert h => exact ⟨true, _, .insert h⟩
  | swap h h' => exact ⟨true, _, .swap h h'⟩

theorem RecStep.not_ended (h : RecStep clocked May s o r s') : ¬s.Ended := by
  obtain ⟨r, s', h⟩ := h.allowed
  intro hs
  cases h <;> exact hs

/-- A report writes what its caller may report. -/
theorem RecStep.may (h : RecStep clocked May s o r s') {w : OutcomeWorld} {next : RunOutcomeRecord}
    (htaken : w.taken o = some next) : ∃ v, May v ∧ v.next = next := by
  obtain ⟨r, s', h⟩ := h.allowed
  cases h with
  | stamp | lookFirst | look => contradiction
  | insert hv | swap hv => exact ⟨_, hv, Option.some.inj (Option.ite_none_right_eq_some.1 htaken).2⟩

/-- A report writes what it has weighed. -/
theorem RecStep.replaces {c : OutcomeCall} (h : RecStep true c.May s o r s') {w : OutcomeWorld}
    {next : RunOutcomeRecord} (htaken : w.taken o = some next) : Replaces c w.record next := by
  obtain ⟨r, s', h⟩ := h.allowed
  cases h with
  | stamp | lookFirst | look => contradiction
  | insert hv =>
    obtain ⟨hw, -⟩ := Option.ite_none_right_eq_some.1 htaken
    rw [hw]
    exact ⟨nofun, nofun, fun _ => rfl, nofun⟩
  | @swap v n cur won hv hstands =>
    obtain ⟨hw, hnext⟩ := Option.ite_none_right_eq_some.1 htaken
    obtain rfl := Option.some.inj hnext
    have hopts : v.opts = c.verdict.opts := by rw [show v = ⟨_, _⟩ from hv]
    rw [hw]
    rw [RunOutcomeRecord.stands, hopts] at hstands
    split_ifs at hstands with hfill hterm hold hcancel
    refine ⟨?_, ?_, fun h => absurd h hfill, ?_⟩
    · rintro _ ⟨⟩
      omega
    · rintro _ ⟨⟩ hcur hnext
      exact hcancel ⟨hcur, hnext⟩
    · rintro hopt _ ⟨⟩
      by_contra hcur
      exact hterm ⟨hopt, hcur⟩

end Step

/-! ## The invariant -/

/-- A report has lost as many attempts as it has used. -/
def RecPhase.Counted (w : OutcomeWorld) (i : ℕ) : RecPhase → Prop
  | rest => ∀ next, w.losses i next = 0
  | trying v n => 1 ≤ n ∧ n ≤ 3 ∧ ∀ next, w.losses i next = if next = v.next then 3 - n else 0
  | swapping v n _ => n ≤ 2 ∧ ∀ next, w.losses i next = if next = v.next then 2 - n else 0
  | _ => True

/-- On its last attempt, the record is the one that it has read, or is at least as new as its own. -/
def RecPhase.Last (w : OutcomeWorld) : RecPhase → Prop
  | swapping v 0 cur => w.record = cur ∨ w.Newer v.next
  | _ => True

structure RecInv (w : OutcomeWorld) (ph : ℕ → RecPhase) : Prop where
  counted : ∀ i, (ph i).Counted w i
  last : ∀ i, (ph i).Last w
  dropped : ∀ i next, w.losses i next = 3 → w.Newer next

/-- The record that the program is about to write. -/
def pendingWrite : Prog OutcomeOp OutcomeOp.Res (Except RunError Unit) → Option RunOutcomeRecord
  | .op (.putIfAbsent next) _ => some next
  | .op (.putIfMatch _ next) _ => some next
  | _ => none

/-- The record that a call that has lost is about to write, on its last attempt. -/
def lastTry (c : Conf OutcomeOp OutcomeOp.Res (Except RunError Unit) OutcomeWorld) :
    OutcomeEvent → Option RunOutcomeRecord
  | .lost j late =>
    if pendingWrite (c.procs j) = some late ∧ c.world.losses j late = 2 then some late else none
  | _ => none

/-- No record is written that is older than one that is about to be written on a last attempt. -/
def KeepsUp (c : Conf OutcomeOp OutcomeOp.Res (Except RunError Unit) OutcomeWorld) (_ : ℕ)
    (o : OutcomeOp) (_ : o.Res) : Prop :=
  ∀ next ∈ c.world.taken o, ∀ e ∈ c.world.trace, ∀ late ∈ lastTry c e, late.decidedAt ≤ next.decidedAt

instance (c : Conf OutcomeOp OutcomeOp.Res (Except RunError Unit) OutcomeWorld) (i : ℕ)
    (o : OutcomeOp) (r : o.Res) : Decidable (KeepsUp c i o r) :=
  inferInstanceAs (Decidable (∀ next ∈ c.world.taken o, ∀ e ∈ c.world.trace,
    ∀ late ∈ lastTry c e, late.decidedAt ≤ next.decidedAt))

section Invariant

variable {clocked : Bool} {May : Verdict → Prop} {w : OutcomeWorld} {ph : ℕ → RecPhase}

/-- Who is about to swap does so next. -/
theorem pendingWrite_of_follows {v : Verdict} {n : ℕ} {cur : Option RunOutcomeRecord}
    {p : Prog OutcomeOp OutcomeOp.Res (Except RunError Unit)}
    (h : p.Follows (RecStep clocked May) (.swapping v n cur) fun s _ => s.Ended) :
    pendingWrite p = some v.next := by
  cases p with
  | pure x => exact h.elim
  | op o k =>
    obtain ⟨s', hs, -⟩ := h (.ok default)
    cases hs <;> rfl

/-- What the call `i` knows when it loses. -/
theorem newer_of_lost {i : ℕ} {s : RecPhase} (hcounted : s.Counted w i) (hlast : s.Last w)
    {o : OutcomeOp} {r : o.Res} {s' : RecPhase} (hstep : RecStep clocked May s o r s')
    {next : RunOutcomeRecord} (ho : o = .putIfAbsent next ∧ w.record ≠ none ∨
      ∃ expected, o = .putIfMatch expected next ∧ w.record ≠ some expected)
    (hlosses : w.losses i next = 2) : w.Newer next := by
  obtain ⟨r, s', hstep⟩ := hstep.allowed
  cases hstep with
  | stamp | lookFirst | look => simp at ho
  | @insert v n won hv =>
    obtain ⟨rfl, hne⟩ : v.next = next ∧ w.record ≠ none := by simpa using ho
    rw [hcounted.2, if_pos rfl] at hlosses
    obtain rfl : n = 0 := by omega
    exact Or.resolve_left hlast hne
  | @swap v n cur won hv hstands =>
    obtain ⟨rfl, hne⟩ : v.next = next ∧ w.record ≠ some cur := by simpa using ho
    rw [hcounted.2, if_pos rfl] at hlosses
    obtain rfl : n = 0 := by omega
    exact Or.resolve_left hlast hne

end Invariant

section Counted

variable {clocked : Bool} {May : Verdict → Prop} {w : OutcomeWorld} {i j : ℕ} {a : OutcomeAnswer}
  {o : OutcomeOp} {s s' : RecPhase}

/-- An operation counts for its own call. -/
theorem losses_other (hj : j ≠ i) (next : RunOutcomeRecord) :
    (outcomeMachine.exec i a o w).2.losses j next = w.losses j next := by
  rcases exec_world (i := i) (a := a) (o := o) (w := w) with hw | hw
  · rw [hw]
  rw [hw]
  rcases perform_cases (w := w) (i := i) (a := a) (o := o) with
    ⟨late, -, hw⟩ | ⟨late, -, hw⟩ | ⟨-, hloss⟩
  · rw [hw]
    exact losses_of_trace (e := .wrote i w.record late) nofun rfl j next
  · rw [hw]
    exact List.count_cons_of_ne (by simp [Ne.symm hj])
  · exact hloss j next

/-- What a call has lost stays while others act. -/
theorem Counted.other (h : s.Counted w j) (hj : j ≠ i) :
    s.Counted (outcomeMachine.exec i a o w).2 j := by
  have hloss := losses_other (a := a) (o := o) (w := w) hj
  cases s with
  | rest => exact fun next => (hloss next).trans (h next)
  | trying v n => exact ⟨h.1, h.2.1, fun next => (hloss next).trans (h.2.2 next)⟩
  | swapping v n cur => exact ⟨h.1, fun next => (hloss next).trans (h.2 next)⟩
  | done => trivial
  | gaveUp v => trivial

/-- The call has lost once more. -/
theorem Counted.lose {v : Verdict} {n : ℕ} {cur : Option RunOutcomeRecord}
    (h : (RecPhase.swapping v n cur).Counted w i) :
    (v.lose n).Counted { w with trace := .lost i v.next :: w.trace } i := by
  obtain ⟨hn, hcount⟩ := h
  rcases n with _ | n
  · trivial
  · refine ⟨by omega, by omega, fun next => ?_⟩
    simp only [OutcomeWorld.losses] at hcount ⊢
    split
    · next heq =>
      rw [heq, List.count_cons_self, hcount, if_pos rfl]
      omega
    · next hne =>
      rw [List.count_cons_of_ne (by simpa using Ne.symm hne), hcount, if_neg hne]

/-- The call has read the record. -/
theorem Counted.read {v : Verdict} {n : ℕ} (hn : n ≤ 2)
    (h : ∀ next, w.losses i next = if next = v.next then 2 - n else 0)
    (cur : Option RunOutcomeRecord) : (v.read n cur).Counted w i := by
  rcases cur with _ | cur
  · exact ⟨hn, h⟩
  · rw [Verdict.read]
    split
    · trivial
    · exact ⟨hn, h⟩

/-- Where the call is after an operation of its own. -/
theorem Counted.step (h : s.Counted w i)
    (hs : RecStep clocked May s o (outcomeMachine.exec i a o w).1 s') :
    s'.Counted (outcomeMachine.exec i a o w).2 i := by
  rcases hr : (outcomeMachine.exec i a o w).1 with e | r
  · rw [hr] at hs
    cases hs
    trivial
  have hexec := exec_of_ok hr
  rw [hr] at hs
  rw [hexec] at hr ⊢
  cases hs with
  | stamp =>
    refine ⟨by omega, le_rfl, fun next => ?_⟩
    rw [losses_of_trace (e := .stamped i w.clock) nofun rfl, h, Nat.sub_self, ite_self]
  | lookFirst =>
    refine Counted.read le_rfl (fun next => ?_) _
    rw [losses_of_trace (e := .looked i) nofun rfl, h, Nat.sub_self, ite_self]
  | @look v n cur =>
    obtain ⟨h1, h3, hcount⟩ := h
    refine Counted.read (by omega) (fun next => ?_) _
    rw [losses_of_trace (e := .looked i) nofun rfl, hcount]
    congr 1
    omega
  | insert =>
    rw [OutcomeWorld.perform] at hr ⊢
    split at hr
    · obtain rfl := Except.ok.inj hr
      trivial
    · next hne =>
      obtain rfl := Except.ok.inj hr
      rw [if_neg hne]
      exact Counted.lose h
  | swap =>
    rw [OutcomeWorld.perform] at hr ⊢
    split at hr
    · obtain rfl := Except.ok.inj hr
      trivial
    · next hne =>
      obtain rfl := Except.ok.inj hr
      rw [if_neg hne]
      exact Counted.lose h

end Counted

section Step

variable {calls : ℕ → OutcomeCall} {ph : ℕ → RecPhase} {i : ℕ} {a : OutcomeAnswer} {o : OutcomeOp}
  {r : o.Res} {s' : RecPhase}
  {c : Conf OutcomeOp OutcomeOp.Res (Except RunError Unit) OutcomeWorld}

/-- What is known of a last attempt, when the record is left. -/
theorem Last.same {w w' : OutcomeWorld} {s : RecPhase} (h : s.Last w) (hrec : w'.record = w.record) :
    s.Last w' := by
  simpa only [RecPhase.Last, OutcomeWorld.Newer, hrec] using h

/-- An operation of the call `i` leaves what the others know of their last attempts, and what has
    been dropped. -/
theorem RecInv.frame (h : RecInv c.world ph)
    (hf : ∀ j, (c.procs j).Follows (RecStep true (calls j).May) (ph j) fun s _ => s.Ended)
    (hs : RecStep true (calls i).May (ph i) o r s') (hok : KeepsUp c i o r) :
    (∀ j, (ph j).Last (c.world.perform i a o).2) ∧
      ∀ j next, (c.world.perform i a o).2.losses j next = 3 →
        (c.world.perform i a o).2.Newer next := by
  rcases perform_cases (w := c.world) (i := i) (a := a) (o := o) with
    ⟨next, htaken, hw⟩ | ⟨next, ho, hw⟩ | ⟨hrec, hloss⟩
  · rw [hw]
    refine ⟨fun j => ?_, fun j late hlate => ?_⟩
    · rcases hj : ph j with _ | _ | ⟨v, _ | n, cur⟩ | _ | _
      case swapping.zero =>
        -- The call `j` is on its last attempt.
        obtain ⟨-, hcount⟩ : (RecPhase.swapping v 0 cur).Counted c.world j := hj ▸ h.counted j
        have hlost : c.world.losses j v.next = 2 := by rw [hcount, if_pos rfl]
        have hpending := pendingWrite_of_follows (hj ▸ hf j)
        refine .inr ⟨next, rfl, hok next htaken (.lost j v.next) ?_ v.next ?_⟩
        · refine List.count_pos_iff.1 ?_
          rw [OutcomeWorld.losses] at hlost
          omega
        · rw [lastTry, if_pos ⟨hpending, hlost⟩]
          rfl
      all_goals trivial
    · rw [losses_of_trace (e := .wrote i c.world.record next) nofun rfl] at hlate
      obtain ⟨cur, hcur, hle⟩ := h.dropped j late hlate
      exact ⟨next, rfl, hle.trans ((hs.replaces htaken).newer cur hcur)⟩
  · rw [hw]
    refine ⟨fun j => Last.same (h.last j) rfl, fun j late hlate => ?_⟩
    by_cases he : OutcomeEvent.lost i next = .lost j late
    · obtain ⟨rfl, rfl⟩ := OutcomeEvent.lost.inj he
      refine newer_of_lost (h.counted i) (h.last i) hs ho ?_
      have hcount : c.world.losses i next + 1 = 3 :=
        (List.count_cons_self (a := OutcomeEvent.lost i next)).symm.trans hlate
      omega
    · exact h.dropped j late ((List.count_cons_of_ne he).symm.trans hlate)
  · refine ⟨fun j => Last.same (h.last j) hrec, fun j late hlate => ?_⟩
    rw [hloss] at hlate
    rw [OutcomeWorld.Newer, hrec]
    exact h.dropped j late hlate

/-- Where the call `i` is on its last attempt, it has just read the record. -/
theorem last_step {w : OutcomeWorld} (hs : RecStep true (calls i).May (ph i) o
    (outcomeMachine.exec i a o w).1 s') : s'.Last (outcomeMachine.exec i a o w).2 := by
  rcases hr : (outcomeMachine.exec i a o w).1 with e | r
  · rw [hr] at hs
    generalize ph i = s at hs
    cases hs
    trivial
  have hexec := exec_of_ok hr
  rw [hr] at hs
  rw [hexec] at hr ⊢
  generalize ph i = s at hs
  cases hs with
  | stamp => trivial
  | lookFirst hclock => contradiction
  | @look v n cur =>
    obtain rfl : w.record = cur := Except.ok.inj hr
    rcases hcur : w.record with _ | cur
    · rcases n with _ | n
      · exact .inl hcur
      · trivial
    · rw [Verdict.read]
      split
      · trivial
      · rcases n with _ | n
        · exact .inl hcur
        · trivial
  | @insert v n won hv =>
    rcases n with _ | n <;> rcases won with _ | _ <;> trivial
  | @swap v n cur won hv hstands =>
    rcases n with _ | n <;> rcases won with _ | _ <;> trivial

theorem RecInv.step (h : RecInv c.world ph)
    (hf : ∀ j, (c.procs j).Follows (RecStep true (calls j).May) (ph j) fun s _ => s.Ended)
    (hs : RecStep true (calls i).May (ph i) o (outcomeMachine.exec i a o c.world).1 s')
    (hok : KeepsUp c i o (outcomeMachine.exec i a o c.world).1) :
    RecInv (outcomeMachine.exec i a o c.world).2 (update ph i s') := by
  have hframe : (∀ j, (ph j).Last (outcomeMachine.exec i a o c.world).2) ∧
      ∀ j next, (outcomeMachine.exec i a o c.world).2.losses j next = 3 →
        (outcomeMachine.exec i a o c.world).2.Newer next := by
    rcases exec_world (i := i) (a := a) (o := o) (w := c.world) with hw | hw
    · rw [hw]
      exact ⟨h.last, h.dropped⟩
    · rw [hw]
      exact h.frame hf hs hok
  refine ⟨fun j => ?_, fun j => ?_, hframe.2⟩
  · by_cases hj : j = i
    · subst hj
      rw [update_self]
      exact Counted.step (h.counted j) hs
    · rw [update_of_ne hj]
      exact Counted.other (h.counted j) hj
  · by_cases hj : j = i
    · subst hj
      rw [update_self]
      exact last_step hs
    · rw [update_of_ne hj]
      exact hframe.1 j

end Step

/-! ## Every run -/

section Runs

variable {t : ℕ} {record : Option RunOutcomeRecord} {calls : ℕ → OutcomeCall}
  {ms : List (Move OutcomeAnswer ℕ)}

/-- The calls of a run follow the protocol. -/
theorem outcomeStart_follows (i : ℕ) : ((outcomeStart t record calls).procs i).Follows
    (RecStep true (calls i).May) .rest fun s _ => s.Ended :=
  (calls i).prog_follows

/-- The run so far. -/
def outcomeAfter (t : ℕ) (record : Option RunOutcomeRecord) (calls : ℕ → OutcomeCall)
    (ms : List (Move OutcomeAnswer ℕ)) :
    Conf OutcomeOp OutcomeOp.Res (Except RunError Unit) OutcomeWorld :=
  outcomeMachine.play (outcomeStart t record calls) ms

/-- What the record keeps to in a run. -/
structure OutcomeMonotone (t : ℕ) (record : Option RunOutcomeRecord) (calls : ℕ → OutcomeCall)
    (ms : List (Move OutcomeAnswer ℕ)) : Prop where
  /-- Every write has been weighed against the record that it replaces. -/
  weighed : outcomeMachine.Meets
    (fun w i o _ => ∀ next ∈ w.taken o, Replaces (calls i) w.record next)
    (outcomeStart t record calls) ms
  /-- The record gets no older. -/
  newer : ∀ n m cur, n ≤ m → (outcomeAfter t record calls (ms.take n)).world.record = some cur →
    (outcomeAfter t record calls (ms.take m)).world.Newer cur
  /-- A call that has lost its three attempts has lost to a record that is at least as new. -/
  dropped : ∀ i next, (outcomeAfter t record calls ms).world.losses i next = 3 →
    (outcomeAfter t record calls ms).world.Newer next

theorem weighed_run : outcomeMachine.Meets
    (fun w i o _ => ∀ next ∈ w.taken o, Replaces (calls i) w.record next)
    (outcomeStart t record calls) ms := by
  refine Machine.meets_follows (J := fun _ _ => True) (fun _ _ _ _ _ _ _ _ _ => trivial)
    (fun _ _ _ _ => trivial) ?_ trivial outcomeStart_follows (Machine.meets_true _ ms)
  intro w ph i a o s' _ hs _ next htaken
  exact hs.replaces htaken

/-- What is as new as a record stays so. -/
theorem newer_step {w : OutcomeWorld} {i : ℕ} {a : OutcomeAnswer} {o : OutcomeOp} {s s' : RecPhase}
    {r : o.Res} {c : OutcomeCall} (hs : RecStep true c.May s o r s') {old : RunOutcomeRecord}
    (h : w.Newer old) : (outcomeMachine.exec i a o w).2.Newer old := by
  rcases exec_world (i := i) (a := a) (o := o) (w := w) with hw | hw
  · rwa [hw]
  rw [hw, OutcomeWorld.Newer]
  obtain ⟨cur, hcur, hle⟩ := h
  rcases perform_cases (w := w) (i := i) (a := a) (o := o) with
    ⟨next, htaken, hw⟩ | ⟨next, -, hw⟩ | ⟨hrec, -⟩
  · rw [hw]
    exact ⟨next, rfl, hle.trans ((hs.replaces htaken).newer cur hcur)⟩
  · rw [hw]
    exact ⟨cur, hcur, hle⟩
  · rw [hrec]
    exact ⟨cur, hcur, hle⟩

theorem newer_run {n m : ℕ} (hnm : n ≤ m) {cur : RunOutcomeRecord}
    (hcur : (outcomeAfter t record calls (ms.take n)).world.record = some cur) :
    (outcomeAfter t record calls (ms.take m)).world.Newer cur := by
  refine Machine.persists_follows (P := fun w => w.Newer cur) ?_ (fun w e h => h)
    outcomeStart_follows (Machine.meets_true _ ms) hnm ⟨cur, hcur, le_rfl⟩
  intro w s i a o s' h hs _
  exact newer_step hs h

/-- In every run in which no report writes under a newer one that is on its last attempt, the
    record of the run is as it should be. -/
theorem outcome_monotone (t : ℕ) (record : Option RunOutcomeRecord) (calls : ℕ → OutcomeCall)
    (ms : List (Move OutcomeAnswer ℕ))
    (hms : outcomeMachine.Obeys KeepsUp (outcomeStart t record calls) ms) :
    OutcomeMonotone t record calls ms := by
  have hinit : RecInv (outcomeStart t record calls).world fun _ => .rest :=
    ⟨fun _ _ => rfl, fun _ => trivial, nofun⟩
  obtain ⟨ph, hinv, -⟩ := Machine.obeys_follows (J := fun c ph => RecInv c.world ph)
    (fun c ph i a o k s' h hf _ hs hok => h.step hf hs hok) (fun c ph e h => ⟨h.counted, h.last, h.dropped⟩)
    hinit outcomeStart_follows hms
  exact ⟨weighed_run, fun n m cur hnm hcur => newer_run hnm hcur, hinv.dropped⟩

end Runs

/-! ## Three swaps lost -/

/-- A run is started three times, and then succeeds. -/
def fourReports : ℕ → OutcomeCall
  | 0 => .runSucceeded 0
  | _ => .runStarted 0

/-- The report `i` makes `n` operations. -/
def reports (i n : ℕ) : List (Move OutcomeAnswer ℕ) :=
  List.replicate n (.run i ⟨0, .ok (), none, false⟩)

/-- The clock of the journal goes on. -/
def later (n : ℕ) : List (Move OutcomeAnswer ℕ) := [.env n]

instance (c : Conf OutcomeOp OutcomeOp.Res (Except RunError Unit) OutcomeWorld)
    (next : RunOutcomeRecord) : Decidable (c.world.Newer next) :=
  decidable_of_iff (c.world.record.any (next.decidedAt ≤ ·.decidedAt)) <| by
    simp [OutcomeWorld.Newer, Option.any_eq_true]

/-- Each start is recorded between a reading of `runSucceeded` and its swap. -/
def beaten : List (Move OutcomeAnswer ℕ) :=
  reports 0 1 ++ reports 1 2 ++ reports 0 2 ++ reports 2 2 ++ reports 0 2 ++ reports 3 2 ++ reports 0 1

/-- The last start is later than the success: what is dropped is older than what stays. -/
theorem outcome_monotone_beaten :
    (outcomeAfter 0 none fourReports (reports 1 1 ++ later 1 ++ reports 2 1 ++ reports 0 1 ++
        later 1 ++ reports 3 1 ++ beaten)).world.losses 0 ⟨.completed, 1, none⟩ = 3 ∧
      (outcomeAfter 0 none fourReports (reports 1 1 ++ later 1 ++ reports 2 1 ++ reports 0 1 ++
        later 1 ++ reports 3 1 ++ beaten)).world.Newer ⟨.completed, 1, none⟩ := by
  have hmono := outcome_monotone 0 none fourReports (reports 1 1 ++ later 1 ++ reports 2 1 ++
    reports 0 1 ++ later 1 ++ reports 3 1 ++ beaten) (by decide +kernel)
  have hlost : (outcomeAfter 0 none fourReports (reports 1 1 ++ later 1 ++ reports 2 1 ++
      reports 0 1 ++ later 1 ++ reports 3 1 ++ beaten)).world.losses 0 ⟨.completed, 1, none⟩ = 3 := by
    decide +kernel
  exact ⟨hlost, hmono.dropped 0 _ hlost⟩

/-- All starts are earlier than the success: it has been dropped, and the run stays `running`. -/
theorem newest_dropped : ¬OutcomeMonotone 0 none fourReports (reports 1 1 ++ later 1 ++ reports 2 1 ++
    later 1 ++ reports 3 1 ++ later 1 ++ reports 0 1 ++ beaten) := by
  intro h
  have hnewer := h.dropped 0 ⟨.completed, 3, none⟩ (by decide +kernel)
  exact absurd hnewer (by decide +kernel)

end Gnldev.Durable
