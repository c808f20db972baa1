import Gnldev.Durable.Limits.Record
import Gnldev.Lib.RelyGuarantee
import Mathlib.Algebra.BigOperators.Group.Finset.Piecewise
import Mathlib.Data.List.Nodup

/-!
# How often a tool call is counted

Any number of tool calls of one run, tool gates and step limits, in any
interleaving. The counter `succeededToolCalls` gets one for every outcome that
counts, and what the scan found if the state had to be seeded. So an outcome is
counted twice if the scan of another call had it before it: nothing tells the call
that it has been counted already. A record that is written over another one is
counted again, too.

* `LimRun.recounted`: how many outcomes are counted a second time;
* `CountInv`: the invariant, an account of what every program has added;
* `toolCalls_counted`: when every call has returned, the counter is the number of
  the records that count and of those counted again.
-/

open List

namespace Gnldev.Durable

open Function

/-- The written records that count. -/
def tally (l : List Written) : ℕ := l.countP (·.counts)

/-- The written records that replaced one that counts. -/
def replacedIn (l : List Written) : ℕ := l.countP (·.replaced)

/-- The outcomes that are counted again: since the scan that seeded the state those
    that replaced a counted one, and before the scan those of other calls. -/
def LimRun.recounted (s : LimRun) : ℕ :=
  match s.seeding with
  | none => replacedIn s.written
  | some (i, before) =>
    replacedIn (s.written.take (s.written.length - before.length)) +
      tally (before.filter (·.tid ≠ i))

/-- The journal of a run before anything has happened. -/
def LimRun.fresh (entries : List JournalEntry) (chain : Option LimitChain)
    (counters : Option LimitCounters) : LimRun :=
  ⟨entries, chain, counters, [], fun _ => [], none, fun _ => 0⟩

/-- The tool calls that have been counted. -/
def LimRun.toolCalls (s : LimRun) : ℕ := (s.counters.getD emptyCounters).succeededToolCalls

/-- What a program does to the limit state of a run. -/
inductive LimCall where
  /-- Record the outcome of a tool call. -/
  | outcome (o : ToolOutcome)
  /-- The gate before a tool call. -/
  | gate
  /-- The limits after a model step. -/
  | step (fuel : ℕ)

/-- The program of a call. The gate does nothing to the state but seed it. -/
def LimCall.prog (r : JsString) : LimCall → LimM Unit
  | outcome o => writeToolTerminal limStore r o
  | gate => do
    let _ ← ensureSeeded limStore r
  | step fuel => countModelSteps limStore r fuel

/-- The outcome a call records, if it records one. -/
def LimCall.outcome? : LimCall → Option ToolOutcome
  | outcome o => some o
  | _ => none

/-- The calls of a run before any of them has run. -/
def limStart (s : LimRun) (r : JsString) (calls : List LimCall) :
    Conf LimOp LimOp.Res Unit (JsString → LimRun) :=
  ⟨fun _ => s, fun i => match calls[i]? with
    | some call => call.prog r
    | none => pure ()⟩

/-! ## The account -/

/-- The setting: the state at the start, the number of the programs, and which of
    them record an outcome, and one that counts. -/
structure Tab where
  start : LimRun
  n : ℕ
  records : ℕ → Bool
  counts : ℕ → Bool

/-- What the live path adds for a program. -/
def Tab.live (T : Tab) (i : ℕ) : ℕ := if T.counts i then 1 else 0

section Account

variable (T : Tab)

/-- The account of the counter. -/
structure CountInv (s : LimRun) : Prop where
  entries : counted s.entries + replacedIn s.written = counted T.start.entries + tally s.written
  counters : s.toolCalls = T.start.toolCalls + ∑ i ∈ Finset.range T.n, s.added i
  chain : s.chain.isSome ↔ T.start.chain.isSome ∨ s.seeding.isSome
  seeding : ∀ x ∈ s.seeding, x.1 < T.n ∧ T.start.chain = none ∧ x.2 <:+ s.written
  nodup : (s.written.map (·.tid)).Nodup
  who : ∀ x ∈ s.written, x.tid < T.n ∧ x.counts = T.counts x.tid
  scans : ∀ i, s.scans i <:+ s.written

/-- What a step of the program `i` does. -/
structure CountStep (i : ℕ) (s s' : LimRun) : Prop where
  chain : s.chain.isSome → s'.chain.isSome
  added : ∀ j ≠ i, s'.added j = s.added j
  scans : ∀ j ≠ i, s'.scans j = s.scans j
  written : s'.written = s.written ∨ ∃ x, x.tid = i ∧ s'.written = x :: s.written
  seeding : s'.seeding = s.seeding ∨ s.seeding = none ∧ ∃ b, s'.seeding = some (i, b)

/-- The setting of the argument, for the run `r`. -/
def countRG (r : JsString) : RG LimOp LimOp.Res (JsString → LimRun) Unit Empty where
  M := limMachine
  ok _ _ _ _ := True
  I w := CountInv T (w r)
  G i w w' := CountStep i (w r) (w' r)

/-- The program `i` has added so much and has not seeded the state, and it has written
    its record or not. -/
structure Added (i n : ℕ) (recorded : Bool) (s : LimRun) : Prop where
  recorded_iff : i ∈ s.written.map (·.tid) ↔ recorded = true
  added : s.added i = n
  notSeeder : ∀ b, s.seeding ≠ some (i, b)

/-- The program `i` has read the entries `es`, after it has written its record or not. -/
def Scanned (i : ℕ) (recorded : Bool) (es : List JournalEntry) (s : LimRun) : Prop :=
  (i ∈ (s.scans i).map (·.tid) ↔ recorded = true) ∧
    counted es + replacedIn (s.scans i) = counted T.start.entries + tally (s.scans i)

/-- The program `i` has seeded the state, after it has written its record or not, and
    has added what it had to. -/
def Seeded (i : ℕ) (recorded : Bool) (s : LimRun) : Prop :=
  ∃ before, s.seeding = some (i, before) ∧ (i ∈ before.map (·.tid) ↔ recorded = true) ∧
    s.added i + replacedIn before = counted T.start.entries + tally before

end Account

/-! ## One operation -/

section Steps

variable {T : Tab} {i : ℕ} {s : LimRun}

theorem CountStep.refl (i : ℕ) (s : LimRun) : CountStep i s s :=
  ⟨fun h => h, fun _ _ => rfl, fun _ _ => rfl, .inl rfl, .inl rfl⟩

/-- A chain that is there is replaced. -/
theorem CountInv.setChain (h : CountInv T s) (hs : s.chain.isSome) (c : LimitChain) :
    CountInv T (s.setChain c) ∧ CountStep i s (s.setChain c) :=
  ⟨{ h with chain := ⟨fun _ => h.chain.1 hs, fun _ => rfl⟩ },
    ⟨fun _ => rfl, fun _ _ => rfl, fun _ _ => rfl, .inl rfl, .inl rfl⟩⟩

/-- A chain that is not there is claimed: nobody has seeded the state yet. -/
theorem CountInv.seed (h : CountInv T s) (hi : i < T.n) (hs : s.chain = none) (c : LimitChain) :
    CountInv T (s.seed i c) ∧ CountStep i s (s.seed i c) := by
  have hnone : T.start.chain = none ∧ s.seeding = none := by
    have hnot := mt h.chain.2 (by simp [hs])
    rw [not_or, Option.not_isSome_iff_eq_none, Option.not_isSome_iff_eq_none] at hnot
    exact hnot
  refine ⟨{ h with chain := ⟨fun _ => .inr rfl, fun _ => rfl⟩, seeding := ?_ },
    ⟨fun _ => rfl, fun _ _ => rfl, fun _ _ => rfl, .inl rfl, .inr ⟨hnone.2, _, rfl⟩⟩⟩
  intro x hx
  cases hx
  exact ⟨hi, hnone.1, h.scans i⟩

theorem CountInv.incr (h : CountInv T s) (hi : i < T.n) (d : LimitCounters) :
    CountInv T (s.incr i d) ∧ CountStep i s (s.incr i d) := by
  refine ⟨{ h with counters := ?_ }, ⟨fun h => h, fun j hj => ?_, fun _ _ => rfl, .inl rfl, .inl rfl⟩⟩
  · show s.toolCalls + d.succeededToolCalls = _
    rw [h.counters, Nat.add_assoc]
    congr 1
    show _ = ∑ j ∈ Finset.range T.n, update s.added i (s.added i + d.succeededToolCalls) j
    have hmem : i ∈ Finset.range T.n := Finset.mem_range.2 hi
    rw [Finset.sum_update_of_mem hmem, ← Finset.sum_sdiff (Finset.singleton_subset_iff.2 hmem),
      Finset.sum_singleton]
    omega
  · exact update_of_ne hj _ _

theorem CountInv.scan (h : CountInv T s) :
    CountInv T (s.scan i) ∧ CountStep i s (s.scan i) := by
  refine ⟨{ h with scans := fun j => ?_ },
    ⟨fun h => h, fun _ _ => rfl, fun j hj => update_of_ne hj _ _, .inl rfl, .inl rfl⟩⟩
  show update s.scans i s.written j <:+ s.written
  by_cases hj : j = i
  · rw [hj, update_self]
  · rw [update_of_ne hj]
    exact h.scans j

/-- The record of the program `i`, its first, is written. -/
theorem CountInv.record (h : CountInv T s) (hi : i < T.n) {id : JsString} {v : OutcomeRecord}
    (hv : v.counts = T.counts i) (hnew : i ∉ s.written.map (·.tid)) :
    CountInv T (s.record i id v) ∧ CountStep i s (s.record i id v) := by
  refine ⟨⟨?_, h.counters, h.chain, fun x hx => ?_, ?_, ?_, fun j => ?_⟩,
    ⟨fun h => h, fun _ _ => rfl, fun _ _ => rfl, .inr ⟨_, rfl, rfl⟩, .inl rfl⟩⟩
  · have hput := counted_putTool id v s.entries
    have hentries := h.entries
    simp only [LimRun.record, replacedIn, tally, countP_cons] at hentries ⊢
    omega
  · obtain ⟨hn, hnone, hsuf⟩ := h.seeding x hx
    exact ⟨hn, hnone, hsuf.trans (suffix_cons _ _)⟩
  · exact nodup_cons.2 ⟨hnew, h.nodup⟩
  · intro x hx
    rcases mem_cons.1 hx with rfl | hx
    · exact ⟨hi, hv⟩
    · exact h.who x hx
  · exact (h.scans j).trans (suffix_cons _ _)

end Steps

/-! ## The programs -/

section Programs

variable {T : Tab} {r : JsString} {i : ℕ}

/-- What no other program changes. -/
def Own (i : ℕ) (P : LimRun → Prop) : Prop := ∀ j s s', j ≠ i → CountStep j s s' → P s → P s'

variable {P : LimRun → Prop}

theorem Own.stable (h : Own i P) :
    (countRG T r).Stable i fun w => P (w r) := by
  rintro w w' - - (⟨j, hj, hG⟩ | ⟨e, -⟩) hP
  · exact h j _ _ hj hG hP
  · exact e.elim

theorem Own.and {Q : LimRun → Prop} (hP : Own i P) (hQ : Own i Q) :
    Own i fun s => P s ∧ Q s :=
  fun j s s' hj hG h => ⟨hP j s s' hj hG h.1, hQ j s s' hj hG h.2⟩

theorem own_const (p : Prop) : Own i fun _ => p := fun _ _ _ _ _ h => h

theorem own_chain : Own i fun s => s.chain.isSome := fun _ _ _ _ hG h => hG.chain h

theorem own_added (n : ℕ) (b : Bool) : Own i (Added i n b) := by
  rintro j s s' hj hG ⟨hrec, hadd, hseed⟩
  refine ⟨?_, by rw [hG.added i hj.symm, hadd], fun before hb => ?_⟩
  · rcases hG.written with h | ⟨x, hx, h⟩
    · rw [h]
      exact hrec
    · rw [h, map_cons, mem_cons, hx]
      exact ⟨fun h => hrec.1 (h.resolve_left hj.symm), fun h => .inr (hrec.2 h)⟩
  · rcases hG.seeding with h | ⟨-, b', h⟩
    · exact hseed before (h ▸ hb)
    · rw [h] at hb
      cases hb
      exact hj rfl

theorem own_seeding : Own i fun s => s.seeding = some (i, s.scans i) := by
  intro j s s' hj hG h
  rcases hG.seeding with h' | ⟨h', -⟩
  · rw [h', h, hG.scans i hj.symm]
  · rw [h] at h'
    cases h'

variable {b : Bool}

theorem own_scanned {es : List JournalEntry} : Own i (Scanned T i b es) := by
  intro j s s' hj hG h
  unfold Scanned
  rw [hG.scans i hj.symm]
  exact h

theorem own_addedEq (n : ℕ) : Own i fun s => s.added i = n :=
  fun _ _ _ hj hG h => (hG.added i hj.symm).trans h

/-- One operation on the run. -/
theorem sat_lim {o : LimOp} (hr : o.runId = r) {R : o.Res → LimRun → Prop} (hown : ∀ x, Own i (R x))
    (h : ∀ s, CountInv T s → P s → (CountInv T (o.execRun i s).2 ∧
      CountStep i s (o.execRun i s).2) ∧ R (o.execRun i s).1 (o.execRun i s).2) :
    (performLim o).Sat (countRG T r) i (fun w => P (w r)) fun x w => R x (w r) := by
  subst hr
  refine ⟨fun x w => R x (w o.runId), fun x => (hown x).stable, ?_, fun x w _ hw => hw⟩
  intro w a hI hP _
  obtain ⟨⟨hI', hG⟩, hR⟩ := h (w o.runId) hI hP
  have hw : (limMachine.exec i a o w).2 o.runId = (o.execRun i (w o.runId)).2 :=
    update_self ..
  refine ⟨?_, ?_, ?_⟩
  · show CountInv T _
    rwa [← hw] at hI'
  · show CountStep i _ _
    rwa [← hw] at hG
  · show R _ _
    rwa [← hw] at hR

/-- An operation that only reads. -/
theorem sat_read {o : LimOp} (hr : o.runId = r) (hP : Own i P) (ho : ∀ s, (o.execRun i s).2 = s) :
    (performLim o).Sat (countRG T r) i (fun w => P (w r)) fun _ w => P (w r) := by
  refine sat_lim hr (fun _ => hP) fun s hI hs => ?_
  rw [ho s]
  exact ⟨⟨hI, .refl i s⟩, hs⟩

variable (hi : i < T.n)
include hi

/-- The chain is claimed by whoever finds it missing. -/
theorem claimChain_sat {es : List JournalEntry} (c : LimitChain) :
    (claimChain limStore r c).Sat (countRG T r) i
      (fun w => Added i 0 b (w r) ∧ Scanned T i b es (w r)) fun won w =>
        if won then ((w r).seeding = some (i, (w r).scans i) ∧ (w r).added i = 0) ∧
          Scanned T i b es (w r)
        else Added i 0 b (w r) ∧ (w r).chain.isSome := by
  refine sat_lim (r := r) (o := .chainIfAbsent r c) rfl (P := fun s => Added i 0 b s ∧ Scanned T i b es s)
    (R := fun won s => if won then (s.seeding = some (i, s.scans i) ∧ s.added i = 0) ∧
      Scanned T i b es s else Added i 0 b s ∧ s.chain.isSome) ?_ ?_
  · intro won
    cases won with
    | true => exact (own_seeding.and (own_addedEq 0)).and own_scanned
    | false => exact (own_added 0 b).and own_chain
  · intro s hI hs
    by_cases hc : s.chain = none
    · simp only [LimOp.execRun, if_pos hc]
      exact ⟨hI.seed hi hc c, ⟨rfl, hs.1.added⟩, hs.2⟩
    · simp only [LimOp.execRun, if_neg hc]
      exact ⟨⟨hI, .refl i s⟩, hs.1, Option.isSome_iff_ne_none.2 hc⟩

/-- Tool calls are added to the counter. -/
theorem incrCounters_sat {R : LimRun → Prop} (hown : Own i R) (d : LimitCounters)
    (h : ∀ s, P s → R (s.incr i d)) (hzero : ∀ s, d = emptyCounters → P s → R s) :
    (incrCounters limStore r d).Sat (countRG T r) i (fun w => P (w r)) fun _ w => R (w r) := by
  unfold incrCounters
  split
  · next hd => exact fun w _ hP => hzero _ hd hP
  · exact sat_lim (r := r) (o := .incrBy r d) rfl (fun _ => hown) fun s hI hP => ⟨hI.incr hi d, h s hP⟩

theorem ensureSeeded_sat : (ensureSeeded limStore r).Sat (countRG T r) i
    (fun w => Added i 0 b (w r)) fun won w =>
      if won then Seeded T i b (w r) else Added i 0 b (w r) ∧ (w r).chain.isSome := by
  unfold ensureSeeded
  refine (sat_lim (r := r) (o := .getChain r) rfl
    (R := fun c s => Added i 0 b s ∧ (c.isSome → s.chain.isSome)) (fun c => ?_) ?_).bind
    fun c => ?_
  · exact (own_added 0 b).and fun j s s' hj hG h hc => hG.chain (h hc)
  · exact fun s hI hs => ⟨⟨hI, .refl i s⟩, hs, id⟩
  split
  · next hc => exact fun w _ hw => ⟨hw.1, hw.2 hc⟩
  -- What the scan finds is what has been written, and it stays what the program knows.
  refine ((sat_lim (r := r) (o := .readRun r) rfl (P := Added i 0 b)
    (R := fun es s => Added i 0 b s ∧ Scanned T i b es s)
    (fun es => (own_added 0 b).and own_scanned) ?_).pre fun w hw => hw.1).bind fun es => ?_
  · intro s hI hs
    refine ⟨hI.scan, ⟨hs.recorded_iff, hs.added, hs.notSeeder⟩, ?_⟩
    simp only [Scanned, LimOp.execRun, LimRun.scan, update_self]
    exact ⟨hs.recorded_iff, hI.entries⟩
  refine (claimChain_sat hi _).bind fun won => ?_
  cases won with
  | false => exact fun w _ hw => hw
  | true =>
    have hcount := seedFromHistory_succeededToolCalls es
    refine (incrCounters_sat hi (P := fun s => (s.seeding = some (i, s.scans i) ∧ s.added i = 0) ∧
      Scanned T i b es s) (R := fun s => (s.seeding = some (i, s.scans i) ∧
        s.added i = counted es) ∧ Scanned T i b es s) ?_ (seedFromHistory es).1 ?_ ?_).bind fun _ => ?_
    · exact (own_seeding.and (own_addedEq _)).and own_scanned
    · rintro s ⟨⟨hseed, hadd⟩, hscan⟩
      refine ⟨⟨hseed, ?_⟩, hscan⟩
      simp only [LimRun.incr, update_self]
      rw [hadd, hcount, Nat.zero_add]
    · rintro s hzero ⟨⟨hseed, hadd⟩, hscan⟩
      rw [hzero] at hcount
      exact ⟨⟨hseed, hadd.trans hcount⟩, hscan⟩
    · rintro w - ⟨⟨hseed, hadd⟩, hrec, hscan⟩
      refine ⟨_, hseed, hrec, ?_⟩
      rw [hadd]
      exact hscan

omit hi in
/-- The chain is only replaced. -/
theorem writeChainLoop_sat (hP : Own i P) (hset : ∀ s c, P s → P (s.setChain c))
    (mutate : LimitChain → LimitChain) (attempts : ℕ) :
    (writeChainLoop limStore r mutate attempts).Sat (countRG T r) i
      (fun w => P (w r) ∧ (w r).chain.isSome) fun _ w => P (w r) ∧ (w r).chain.isSome := by
  have hown : Own i fun s => P s ∧ s.chain.isSome := hP.and own_chain
  induction attempts with
  | zero =>
    refine (sat_read (r := r) (o := .getChain r) rfl hown fun _ => rfl).bind fun c => ?_
    exact sat_lim (r := r) (o := .putChain r _) rfl (P := fun s => P s ∧ s.chain.isSome)
      (R := fun _ s => P s ∧ s.chain.isSome) (fun _ => hown)
      fun s hI hs => ⟨hI.setChain hs.2 _, hset s _ hs.1, rfl⟩
  | succ attempts ih =>
    refine (sat_lim (r := r) (o := .getChain r) rfl (P := fun s => P s ∧ s.chain.isSome)
      (R := fun c s => (P s ∧ s.chain.isSome) ∧ c.isSome) (fun c => hown.and (own_const _))
      fun s hI hs => ⟨⟨hI, .refl i s⟩, hs, hs.2⟩).bind fun c => ?_
    cases c with
    | none =>
      -- The chain is there, and stays.
      exact Prog.sat_of_false (fun w hw => absurd hw.2 (by simp))
    | some current =>
      refine ((sat_lim (r := r) (o := .chainIfMatch r current (mutate current)) rfl
        (P := fun s => P s ∧ s.chain.isSome) (R := fun _ s => P s ∧ s.chain.isSome)
        (fun _ => hown) ?_).pre fun w hw => hw.1).bind fun won => ?_
      · intro s hI hs
        simp only [LimOp.execRun]
        split
        · exact ⟨hI.setChain hs.2 _, hset s _ hs.1, rfl⟩
        · exact ⟨⟨hI, .refl i s⟩, hs⟩
      · cases won with
        | true => exact fun w _ hw => hw
        | false => exact ih

theorem addOutcome_sat (toolCallId toolName hash : JsString) (status : ToolStatus)
    (sideEffect : Bool) :
    (addOutcome limStore r toolCallId toolName hash status sideEffect).Sat (countRG T r) i
      (fun w => Added i 0 b (w r) ∧ (w r).chain.isSome) fun _ w =>
        Added i (if countsOutcome status sideEffect then 1 else 0) b (w r) ∧
          (w r).chain.isSome := by
  have hset : ∀ n s c, Added i n b s → Added i n b (s.setChain c) :=
    fun n s c h => ⟨h.recorded_iff, h.added, h.notSeeder⟩
  unfold addOutcome
  split
  · refine (incrCounters_sat hi (P := fun s => Added i 0 b s ∧ s.chain.isSome)
      (R := fun s => Added i 1 b s ∧ s.chain.isSome) ?_ _ ?_ ?_).bind fun _ => ?_
    · exact (own_added 1 b).and own_chain
    · rintro s ⟨h, hc⟩
      refine ⟨⟨h.recorded_iff, ?_, h.notSeeder⟩, hc⟩
      simp only [LimRun.incr, update_self, h.added]
    · intro s hzero
      exact absurd hzero (by decide)
    · exact writeChainLoop_sat (own_added 1 b) (hset 1) _ _
  · exact writeChainLoop_sat (own_added 0 b) (hset 0) _ _

/-- What is known of the program `i` when it is over: it has added what the live path
    adds, the chain being there, or it has seeded the state. -/
def Over (T : Tab) (i : ℕ) (s : LimRun) : Prop :=
  (Added i (T.live i) (T.records i) s ∧ s.chain.isSome) ∨ Seeded T i (T.records i) s

theorem recordToolOutcome_sat {o : ToolOutcome} (hrec : T.records i = true)
    (hcounts : T.counts i = o.counts) :
    (recordToolOutcome limStore r o.toolCallId o.toolName o.hash o.status o.sideEffect).Sat
      (countRG T r) i (fun w => Added i 0 true (w r)) fun _ w => Over T i (w r) := by
  have hlive : T.live i = if countsOutcome o.status o.sideEffect then 1 else 0 := by
    rw [Tab.live, hcounts, ToolOutcome.counts]
  have hadd : (addOutcome limStore r o.toolCallId o.toolName o.hash o.status o.sideEffect).Sat
      (countRG T r) i (fun w => Added i 0 true (w r) ∧ (w r).chain.isSome) fun _ w =>
        Over T i (w r) := by
    refine (addOutcome_sat hi ..).post fun _ w _ h => ?_
    rw [Over, hlive, hrec]
    exact .inl h
  unfold recordToolOutcome
  refine (sat_lim (r := r) (o := .getChain r) rfl (P := Added i 0 true)
    (R := fun c s => Added i 0 true s ∧ (c.isSome → s.chain.isSome)) (fun c => ?_) ?_).bind
    fun c => ?_
  · exact (own_added 0 true).and fun j s s' hj hG h hc => hG.chain (h hc)
  · exact fun s hI hs => ⟨⟨hI, .refl i s⟩, hs, id⟩
  split
  · next hc => exact hadd.pre fun w hw => ⟨hw.1, hw.2 hc⟩
  · refine ((ensureSeeded_sat hi).pre fun w hw => hw.1).bind fun won => ?_
    cases won with
    | true =>
      rintro w - hw
      rw [Over, hrec]
      exact .inr hw
    | false => exact hadd

theorem writeToolTerminal_sat {o : ToolOutcome} (hrec : T.records i = true)
    (hcounts : T.counts i = o.counts) (hplace : ∀ key, o.place ≠ .outside key) :
    (writeToolTerminal limStore r o).Sat (countRG T r) i (fun w => Added i 0 false (w r))
      fun _ w => Over T i (w r) := by
  have hrecord : o.record.counts = T.counts i := by
    have hmirror : o.record.mirrorOf = none := by
      unfold ToolOutcome.record
      cases hp : o.place with
      | outside key => exact absurd hp (hplace key)
      | call => rfl
      | args => rfl
    rw [hcounts, OutcomeRecord.counts, hmirror]
    simp only [ToolOutcome.counts, ToolOutcome.record, countsOutcome]
    cases o.status <;> simp
  refine (sat_lim (r := r) (o := .putTool r o.recordId o.record) rfl (P := Added i 0 false)
    (R := fun _ => Added i 0 true) (fun _ => own_added 0 true) fun s hI hs => ?_).bind
    fun _ => recordToolOutcome_sat hi hrec hcounts
  have hnew : i ∉ s.written.map (·.tid) := fun h => by cases hs.recorded_iff.1 h
  exact ⟨hI.record hi hrecord hnew, ⟨fun _ => rfl, fun _ => .head _⟩, hs.added, hs.notSeeder⟩

omit hi in
theorem computeModelStepsDelta_sat (hP : Own i P) (fuel seen : ℕ) (delta : LimitCounters)
    (hdelta : delta.succeededToolCalls = 0) :
    (computeModelStepsDelta limStore r fuel seen delta).Sat (countRG T r) i (fun w => P (w r))
      fun d w => P (w r) ∧ d.succeededToolCalls = 0 := by
  induction fuel generalizing seen delta with
  | zero => exact fun w _ hw => ⟨hw, hdelta⟩
  | succ fuel ih =>
    refine (sat_read (r := r) (o := .getModel r seen) rfl hP fun _ => rfl).bind fun usage => ?_
    cases usage with
    | none => exact fun w _ hw => ⟨hw, hdelta⟩
    | some usage =>
      refine ih _ _ ?_
      cases usage with
      | none => exact hdelta
      | some u => exact hdelta

omit hi in
theorem own_over : Own i (Over T i) := by
  rintro j s s' hj hG (⟨h, hc⟩ | ⟨before, hseed, hrec, hadd⟩)
  · exact .inl ⟨own_added _ _ j s s' hj hG h, hG.chain hc⟩
  · refine .inr ⟨before, ?_, hrec, ?_⟩
    · rcases hG.seeding with h | ⟨h, -⟩
      · exact h.trans hseed
      · rw [hseed] at h
        cases h
    · rw [hG.added i hj.symm]
      exact hadd

theorem seedOnly_sat (hrec : T.records i = false) (hcounts : T.counts i = false) :
    (ensureSeeded limStore r).Sat (countRG T r) i (fun w => Added i 0 false (w r))
      fun _ w => Over T i (w r) := by
  have hlive : T.live i = 0 := by rw [Tab.live, hcounts]; rfl
  refine (ensureSeeded_sat hi).post fun won w _ h => ?_
  rw [Over, hlive, hrec]
  cases won with
  | true => exact .inr h
  | false => exact .inl h

theorem countModelSteps_sat (hrec : T.records i = false) (hcounts : T.counts i = false)
    (fuel : ℕ) : (countModelSteps limStore r fuel).Sat (countRG T r) i
      (fun w => Added i 0 false (w r)) fun _ w => Over T i (w r) := by
  refine (seedOnly_sat hi hrec hcounts).bind fun _ => ?_
  refine (sat_read (r := r) (o := .getCounters r) rfl own_over fun _ => rfl).bind fun c => ?_
  refine (computeModelStepsDelta_sat own_over _ _ _ rfl).bind fun d => ?_
  refine incrCounters_sat hi (P := fun s => Over T i s ∧ d.succeededToolCalls = 0) own_over d ?_
    fun s _ h => h.1
  -- Model steps are not tool calls.
  rintro s ⟨h, hd⟩
  have hadded : (s.incr i d).added i = s.added i := by
    simp only [LimRun.incr, update_self, hd, Nat.add_zero]
  rcases h with ⟨h, hc⟩ | ⟨before, hseed, hrec, hadd⟩
  · exact .inl ⟨⟨h.recorded_iff, hadded.trans h.added, h.notSeeder⟩, hc⟩
  · exact .inr ⟨before, hseed, hrec, by rw [hadded]; exact hadd⟩

end Programs

/-! ## When every call has returned -/

section Returned

variable {T : Tab} {s : LimRun}

/-- Records of different programs, summed program by program. -/
theorem tally_eq_sum {l : List Written} (hnd : (l.map (·.tid)).Nodup)
    (hwho : ∀ x ∈ l, x.tid < T.n ∧ x.counts = T.counts x.tid) :
    tally l = ∑ i ∈ Finset.range T.n, if i ∈ l.map (·.tid) then T.live i else 0 := by
  induction l with
  | nil => simp [tally]
  | cons x l ih =>
    obtain ⟨hx, hnd⟩ := nodup_cons.1 hnd
    obtain ⟨hlt, hc⟩ := hwho x (.head _)
    have hsplit : ∀ i, (if i ∈ (x :: l).map (·.tid) then T.live i else 0) =
        (if i ∈ l.map (·.tid) then T.live i else 0) + if i = x.tid then T.live i else 0 := by
      intro i
      by_cases hi : i = x.tid
      · subst hi
        rw [if_pos (mem_map_of_mem (mem_cons_self ..)), if_neg hx, if_pos rfl,
          Nat.zero_add]
      · simp only [map_cons, mem_cons, hi, false_or, if_false, Nat.add_zero]
    rw [Finset.sum_congr rfl fun i _ => hsplit i, Finset.sum_add_distrib, Finset.sum_ite_eq',
      if_pos (Finset.mem_range.2 hlt), ← ih hnd fun y hy => hwho y (.tail _ hy), tally,
      countP_cons, hc]
    rfl

variable {i : ℕ}

/-- The programs that record have recorded, once all are over. -/
theorem Over.mem_written (h : CountInv T s) (hover : Over T i s) (hrec : T.records i) :
    i ∈ s.written.map (·.tid) := by
  rcases hover with ⟨hadd, -⟩ | ⟨before, hseed, hmem, -⟩
  · exact hadd.recorded_iff.2 hrec
  · exact ((h.seeding _ hseed).2.2.map _).subset (hmem.2 hrec)

variable (h : CountInv T s) (hover : ∀ i < T.n, Over T i s)
  (hcounts : ∀ i, T.counts i → T.records i)

include hcounts in
theorem Tab.live_eq_zero (hi : ¬T.records i) : T.live i = 0 :=
  if_neg fun hc => hi (hcounts i hc)

include h hover hcounts

/-- What has been written is what the live path adds, for all programs together. -/
theorem CountInv.tally_written :
    tally s.written = ∑ i ∈ Finset.range T.n, T.live i := by
  rw [tally_eq_sum h.nodup h.who]
  refine Finset.sum_congr rfl fun i hi => ?_
  split
  · rfl
  · next hmem =>
    refine (Tab.live_eq_zero hcounts fun hrec => hmem ?_).symm
    exact (hover i (Finset.mem_range.1 hi)).mem_written h hrec

/-- Nobody has seeded the state: what is counted again are the replaced records. -/
theorem CountInv.returned_live (hseed : s.seeding = none) :
    s.toolCalls + counted T.start.entries =
      T.start.toolCalls + (counted s.entries + s.recounted) := by
  have hsum : ∑ i ∈ Finset.range T.n, s.added i = ∑ i ∈ Finset.range T.n, T.live i := by
    refine Finset.sum_congr rfl fun i hi => ?_
    rcases hover i (Finset.mem_range.1 hi) with ⟨hadd, -⟩ | ⟨before, hs, -⟩
    · exact hadd.added
    · rw [hseed] at hs
      cases hs
  have hentries := h.entries
  rw [h.tally_written hover hcounts] at hentries
  rw [h.counters, hsum, LimRun.recounted, hseed]
  simp only
  omega

/-- The program `i` has seeded the state from nothing. -/
theorem CountInv.returned_seeded {before : List Written} (hseed : s.seeding = some (i, before)) :
    s.toolCalls = T.start.toolCalls + (counted s.entries + s.recounted) := by
  obtain ⟨hi, -, hsuf⟩ := h.seeding _ hseed
  have hmemi : i ∈ Finset.range T.n := Finset.mem_range.2 hi
  -- Everybody else has added what the live path adds.
  have hothers : ∑ j ∈ (Finset.range T.n).erase i, s.added j =
      ∑ j ∈ (Finset.range T.n).erase i, T.live j := by
    refine Finset.sum_congr rfl fun j hj => ?_
    obtain ⟨hne, hj⟩ := Finset.mem_erase.1 hj
    rcases hover j (Finset.mem_range.1 hj) with ⟨hadd, -⟩ | ⟨b, hs, -⟩
    · exact hadd.added
    · rw [hseed] at hs
      cases hs
      exact absurd rfl hne
  obtain ⟨hmem, hadd⟩ : (i ∈ before.map (·.tid) ↔ T.records i = true) ∧
      s.added i + replacedIn before = counted T.start.entries + tally before := by
    rcases hover i hi with ⟨hadd, -⟩ | ⟨b, hs, hmem, hadd⟩
    · exact absurd hseed (hadd.notSeeder before)
    · rw [hseed] at hs
      cases hs
      exact ⟨hmem, hadd⟩
  -- Before the scan, the seeder's own outcome is told apart from the others'.
  have hbefore : tally before = tally (before.filter (·.tid ≠ i)) + T.live i := by
    have hnd : (before.map (·.tid)).Nodup := h.nodup.sublist (hsuf.sublist.map _)
    have hwho : ∀ x ∈ before, x.tid < T.n ∧ x.counts = T.counts x.tid :=
      fun x hx => h.who x (hsuf.subset hx)
    rw [tally_eq_sum hnd hwho, tally_eq_sum (hnd.sublist (filter_sublist.map _))
      fun x hx => hwho x (mem_filter.1 hx).1, ← Finset.add_sum_erase _ _ hmemi,
      ← Finset.add_sum_erase _ (fun j => if j ∈ _ then T.live j else 0) hmemi]
    have hself : (if i ∈ before.map (·.tid) then T.live i else 0) = T.live i := by
      split
      · rfl
      · next hn => exact (Tab.live_eq_zero hcounts fun hr => hn (hmem.2 hr)).symm
    have hnot : i ∉ (before.filter (·.tid ≠ i)).map (·.tid) := by simp
    have hrest : ∀ j ∈ (Finset.range T.n).erase i,
        (if j ∈ (before.filter (·.tid ≠ i)).map (·.tid) then T.live j else 0) =
          if j ∈ before.map (·.tid) then T.live j else 0 := by
      intro j hj
      have hne : j ≠ i := (Finset.mem_erase.1 hj).1
      have hiff : j ∈ (before.filter (·.tid ≠ i)).map (·.tid) ↔ j ∈ before.map (·.tid) := by
        simp only [mem_map, mem_filter, decide_eq_true_eq]
        constructor
        · rintro ⟨x, ⟨hx, -⟩, rfl⟩
          exact ⟨x, hx, rfl⟩
        · rintro ⟨x, hx, rfl⟩
          exact ⟨x, ⟨hx, hne⟩, rfl⟩
      simp only [hiff]
    rw [hself, if_neg hnot, Finset.sum_congr rfl hrest]
    omega
  have hsince : replacedIn s.written =
      replacedIn (s.written.take (s.written.length - before.length)) + replacedIn before := by
    obtain ⟨later, hlater⟩ := hsuf
    rw [← hlater, length_append, Nat.add_sub_cancel, take_left', replacedIn,
      countP_append]
    · rfl
    · rfl
  have hentries := h.entries
  rw [h.tally_written hover hcounts, ← Finset.add_sum_erase _ _ hmemi] at hentries
  rw [h.counters, ← Finset.add_sum_erase _ _ hmemi, hothers, LimRun.recounted, hseed]
  simp only
  omega

end Returned

/-- The account of the calls of a run. -/
def tabOf (s : LimRun) (calls : List LimCall) : Tab where
  start := s
  n := calls.length
  records i := ((calls[i]?).bind (·.outcome?)).isSome
  counts i := ((calls[i]?).bind (·.outcome?)).any (·.counts)

/-- The triple of a call of the run. -/
theorem prog_sat {s : LimRun} {r : JsString} {calls : List LimCall} {i : ℕ} {call : LimCall}
    (hcall : calls[i]? = some call) (hplace : ∀ o, call = .outcome o → ∀ key, o.place ≠ .outside key) :
    (call.prog r).Sat (countRG (tabOf s calls) r) i (fun w => Added i 0 false (w r))
      fun _ w => Over (tabOf s calls) i (w r) := by
  have hi : i < (tabOf s calls).n := (List.getElem?_eq_some_iff.1 hcall).1
  have hrec : (tabOf s calls).records i = (call.outcome?).isSome := by
    simp only [tabOf, hcall, Option.bind_some]
  have hcounts : (tabOf s calls).counts i = (call.outcome?).any (·.counts) := by
    simp only [tabOf, hcall, Option.bind_some]
  cases call with
  | outcome o => exact writeToolTerminal_sat hi hrec hcounts (hplace o rfl)
  | gate => exact (seedOnly_sat hi hrec hcounts).bind fun _ w _ h => h
  | step fuel => exact countModelSteps_sat hi hrec hcounts fuel

/-- Two calls of one model step, on a run that has no limit state yet. -/
def twoOutcomes : List LimCall :=
  [.outcome ⟨js "a", js "t", js "1", .succeeded, false, .call⟩,
    .outcome ⟨js "b", js "t", js "2", .succeeded, false, .call⟩]

/-- Both calls write their records, the first one seeds the state with both, and the
    second one counts itself. -/
def seededTwice : List (Move Unit Empty) :=
  [0, 1, 0, 0, 0, 0, 0, 1, 1, 1, 1].map (.run · ())

theorem seededTwice_returned : ∀ i < twoOutcomes.length, (limMachine.play
    (limStart (.fresh [] none none) (js "r") twoOutcomes) seededTwice).procs i = .pure ()
  | 0, _ => rfl
  | 1, _ => rfl

end Gnldev.Durable
