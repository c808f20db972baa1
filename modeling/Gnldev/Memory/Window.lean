import Gnldev.Lib.ModelMessage
import Mathlib.Algebra.Order.Ring.Int
import Mathlib.Data.List.Infix
import Mathlib.Data.List.Perm.Subperm

/-!
# The window of observational memory

What of a thread has not been observed yet is shown to the model message by message, and what has
been observed is summarised. The mark between them is a position, and it does not know of turns. So
the window is moved back to the earliest call that a tool result in it answers (`agent-memory.ts`,
`windowFromTurnBoundary`).

It is moved back once. What comes in by that may have results of its own whose calls are earlier
still, when turns interleave; they are not looked at.

* `OpensOnTurn`: what is promised of a window;
* `window_opens_iff`: it is kept just when moving back once is enough (`OnceIsEnough`);
* `onceIsEnough_iff`: what that means where no call is stored twice.
-/

open List

namespace Gnldev.Memory

/-! ## Rows -/

/-- A row of a thread. -/
structure MessageRecord where
  seq : ℤ
  message : ModelMessage
  deriving DecidableEq

/-- The calls of a row, and the calls it answers. -/
def MessageRecord.calls (m : MessageRecord) : List JsString := m.message.calls
def MessageRecord.results (m : MessageRecord) : List JsString := m.message.results

/-! ## The window -/

/-- The position before the earliest call that is needed, of those up to the mark. -/
def startFrom (observedSeq : ℤ) (orphans : List JsString) : List MessageRecord → ℤ
  | [] => observedSeq
  | m :: rest =>
    if observedSeq < m.seq then observedSeq
    else if m.calls.any (· ∈ orphans) then m.seq - 1
    else startFrom observedSeq orphans rest

def windowFromTurnBoundary (all : List MessageRecord) (observedSeq : ℤ) : List MessageRecord :=
  let window := all.filter (observedSeq < ·.seq)
  if window = [] then window
  else
    let shown := window.flatMap (·.calls)
    let orphans := (window.flatMap (·.results)).filter (· ∉ shown)
    if orphans = [] then window
    else
      let start := startFrom observedSeq orphans all
      all.filter (start < ·.seq)

/-! ## What is promised -/

/-- It has the call of every tool result in it. -/
def Whole (window : List MessageRecord) : Prop :=
  ∀ m ∈ window, ∀ id ∈ m.results, ∃ m' ∈ window, id ∈ m'.calls

/-- An end of the thread, with all that is not observed. -/
structure Shows (all : List MessageRecord) (observedSeq : ℤ) (window : List MessageRecord) :
    Prop where
  suffix : window <:+ all
  unobserved : ∀ m ∈ all, observedSeq < m.seq → m ∈ window

/-- The shortest one that is whole. -/
structure OpensOnTurn (all : List MessageRecord) (observedSeq : ℤ) (window : List MessageRecord) :
    Prop extends Shows all observedSeq window where
  whole : Whole window
  shortest : ∀ other, Shows all observedSeq other → Whole other → window.length ≤ other.length

/-- A thread: its rows in their order, and every tool result after its call. -/
structure IsThread (all : List MessageRecord) : Prop where
  sorted : all.Pairwise (·.seq < ·.seq)
  called : ∀ m ∈ all, ∀ id ∈ m.results, ∃ m' ∈ all, m'.seq ≤ m.seq ∧ id ∈ m'.calls

/-! ## Moving back once -/

section Once

variable (all : List MessageRecord) (observedSeq : ℤ)

/-- A result of it is not observed, and no call of it is. -/
def Orphan (id : JsString) : Prop :=
  (∃ m ∈ all, observedSeq < m.seq ∧ id ∈ m.results) ∧
    ∀ m ∈ all, observedSeq < m.seq → id ∉ m.calls

/-- An observed row with the call of such a result is at the position or before it. -/
def NeededBy (seq : ℤ) : Prop :=
  ∃ m ∈ all, m.seq ≤ observedSeq ∧ m.seq ≤ seq ∧ ∃ id ∈ m.calls, Orphan all observedSeq id

/-- Moving the window back to the earliest call that is needed is enough, and not too much. -/
structure OnceIsEnough : Prop where
  /-- An observed result that comes in by it has a call that comes in, too. -/
  enough : ∀ r ∈ all, r.seq ≤ observedSeq → NeededBy all observedSeq r.seq → ∀ id ∈ r.results,
    ∃ m ∈ all, id ∈ m.calls ∧ NeededBy all observedSeq m.seq
  /-- A later row from which on each orphan has a call (one that is stored twice) would not do: it
      parts an observed result from its call. -/
  tight : ∀ k ∈ all, k.seq ≤ observedSeq → NeededBy all observedSeq (k.seq - 1) →
    (∀ id, Orphan all observedSeq id → ∃ m ∈ all, id ∈ m.calls ∧ k.seq ≤ m.seq) →
    ∃ r ∈ all, k.seq ≤ r.seq ∧ r.seq ≤ observedSeq ∧ ∃ id ∈ r.results,
      ∀ m ∈ all, id ∈ m.calls → m.seq < k.seq

end Once

section Thread

variable {all window other : List MessageRecord} {observedSeq : ℤ}

/-! ### Ends of a thread -/

/-- What comes after a position is an end of the thread. -/
theorem filter_suffix (h : all.Pairwise (·.seq < ·.seq)) (s : ℤ) :
    all.filter (s < ·.seq) <:+ all := by
  induction all with
  | nil => exact suffix_rfl
  | cons m all ih =>
    obtain ⟨hm, hall⟩ := pairwise_cons.1 h
    by_cases hs : s < m.seq
    · -- From the first row on, all come after it.
      have hself : (m :: all).filter (s < ·.seq) = m :: all := by
        refine filter_eq_self.2 fun m' hm' => decide_eq_true ?_
        rcases mem_cons.1 hm' with rfl | hm'
        · exact hs
        · exact hs.trans (hm m' hm')
      rw [hself]
    · rw [filter_cons_of_neg (by simpa using hs)]
      exact (ih hall).trans (suffix_cons m all)

theorem shows_filter (h : all.Pairwise (·.seq < ·.seq)) {s : ℤ} (hs : s ≤ observedSeq) :
    Shows all observedSeq (all.filter (s < ·.seq)) where
  suffix := filter_suffix h s
  unobserved _ hm hlt := mem_filter.2 ⟨hm, decide_eq_true (hs.trans_lt hlt)⟩

/-- An end of the thread has all rows after one of its own. -/
theorem mem_of_suffix (h : all.Pairwise (·.seq < ·.seq)) (hw : window <:+ all) {m m' : MessageRecord}
    (hm : m ∈ window) (hm' : m' ∈ all) (hle : m.seq ≤ m'.seq) : m' ∈ window := by
  obtain ⟨before, rfl⟩ := hw
  rcases mem_append.1 hm' with hm' | hm'
  · have hlt := (pairwise_append.1 h).2.2 m' hm' m hm
    omega
  · exact hm'

/-- The shorter one of two ends is an end of the other. -/
theorem suffix_of_length (hw : window <:+ all) (ho : other <:+ all)
    (hlength : other.length ≤ window.length) : other <:+ window :=
  suffix_of_suffix_length_le ho hw hlength

theorem nodup_filter (h : all.Pairwise (·.seq < ·.seq)) (p : MessageRecord → Bool) :
    (all.filter p).Nodup :=
  (h.filter p).imp fun hlt => fun heq => absurd (congrArg MessageRecord.seq heq) hlt.ne

/-- From a row of an end on, there are no more rows than in it. -/
theorem length_from_le (h : all.Pairwise (·.seq < ·.seq)) (hw : window <:+ all) {m : MessageRecord}
    (hm : m ∈ window) : (all.filter (m.seq - 1 < ·.seq)).length ≤ window.length := by
  refine (subperm_of_subset (nodup_filter h _) fun m' hm' => ?_).length_le
  obtain ⟨hm', hlt⟩ := mem_filter.1 hm'
  have hle := of_decide_eq_true hlt
  exact mem_of_suffix h hw hm hm' (by omega)

/-- The unobserved rows are the least that can be shown. -/
theorem length_unobserved_le (ho : Shows all observedSeq other)
    (h : all.Pairwise (·.seq < ·.seq)) :
    (all.filter (observedSeq < ·.seq)).length ≤ other.length := by
  by_contra hlt
  have hsuffix := suffix_of_length (filter_suffix h observedSeq) ho.suffix (not_le.1 hlt).le
  have hall : all.filter (observedSeq < ·.seq) ⊆ other := fun m hm => by
    obtain ⟨hm, hs⟩ := mem_filter.1 hm
    exact ho.unobserved m hm (of_decide_eq_true hs)
  exact hlt (subperm_of_subset (nodup_filter h _) hall).length_le

/-! ### The earliest call that is needed -/

/-- The search stops at the first row that is needed, or there is none. -/
theorem startFrom_spec (h : all.Pairwise (·.seq < ·.seq)) (orphans : List JsString) :
    (startFrom observedSeq orphans all = observedSeq ∧
        ∀ m ∈ all, m.seq ≤ observedSeq → ∀ id ∈ m.calls, id ∉ orphans) ∨
      ∃ m ∈ all, m.seq ≤ observedSeq ∧ (∃ id ∈ m.calls, id ∈ orphans) ∧
        startFrom observedSeq orphans all = m.seq - 1 ∧
        ∀ m' ∈ all, (∃ id ∈ m'.calls, id ∈ orphans) → m.seq ≤ m'.seq := by
  induction all with
  | nil => exact .inl ⟨rfl, fun m hm => absurd hm not_mem_nil⟩
  | cons m all ih =>
    obtain ⟨hm, hall⟩ := pairwise_cons.1 h
    rw [startFrom]
    split
    · next hlt =>
      refine .inl ⟨rfl, fun m' hm' hle => ?_⟩
      rcases mem_cons.1 hm' with rfl | hm'
      · omega
      · have := hm m' hm'
        omega
    · next hle =>
      split
      · next hneeded =>
        simp only [any_eq_true, decide_eq_true_eq] at hneeded
        refine .inr ⟨m, .head _, not_lt.1 hle, hneeded, rfl, fun m' hm' _ => ?_⟩
        rcases mem_cons.1 hm' with rfl | hm'
        · exact le_rfl
        · exact (hm m' hm').le
      · next hnot =>
        simp only [any_eq_true, decide_eq_true_eq] at hnot
        rcases ih hall with ⟨heq, hnone⟩ | ⟨m₀, hm₀, hle₀, hneeded, heq, hfirst⟩
        · refine .inl ⟨heq, forall_mem_cons.2 ⟨fun _ id hid ho => hnot ⟨id, hid, ho⟩, hnone⟩⟩
        · refine .inr ⟨m₀, .tail _ hm₀, hle₀, hneeded, heq, forall_mem_cons.2 ⟨?_, hfirst⟩⟩
          exact fun hm => absurd hm hnot

theorem mem_unobserved {m : MessageRecord} :
    m ∈ all.filter (observedSeq < ·.seq) ↔ m ∈ all ∧ observedSeq < m.seq := by
  rw [mem_filter, decide_eq_true_eq]

/-- What the source collects are the orphans. -/
theorem mem_orphans {id : JsString} :
    id ∈ ((all.filter (observedSeq < ·.seq)).flatMap (·.results)).filter
        (· ∉ (all.filter (observedSeq < ·.seq)).flatMap (·.calls)) ↔
      Orphan all observedSeq id := by
  simp only [mem_filter, mem_flatMap, decide_eq_true_eq, Orphan, not_exists, not_and,
    and_assoc]

/-- The call of an orphan has been observed. -/
theorem IsThread.needed (h : IsThread all) {id : JsString} (ho : Orphan all observedSeq id) :
    ∃ m ∈ all, m.seq ≤ observedSeq ∧ id ∈ m.calls := by
  obtain ⟨⟨m, hm, -, hid⟩, hnone⟩ := ho
  obtain ⟨m', hm', -, hid'⟩ := h.called m hm id hid
  exact ⟨m', hm', not_lt.1 fun hlt => hnone m' hm' hlt hid', hid'⟩

/-- The window is what is not observed, or it begins with the earliest row that is needed. -/
theorem window_cases (h : IsThread all) :
    (windowFromTurnBoundary all observedSeq = all.filter (observedSeq < ·.seq) ∧
        ∀ id, ¬Orphan all observedSeq id) ∨
      ∃ m ∈ all, m.seq ≤ observedSeq ∧ (∃ id ∈ m.calls, Orphan all observedSeq id) ∧
        windowFromTurnBoundary all observedSeq = all.filter (m.seq - 1 < ·.seq) ∧
        ∀ m' ∈ all, (∃ id ∈ m'.calls, Orphan all observedSeq id) → m.seq ≤ m'.seq := by
  rw [windowFromTurnBoundary]
  simp only
  split
  · next hempty =>
    refine .inl ⟨rfl, fun id ho => ?_⟩
    obtain ⟨⟨m, hm, hlt, -⟩, -⟩ := ho
    have hmem := mem_unobserved.2 ⟨hm, hlt⟩
    rw [hempty] at hmem
    exact absurd hmem not_mem_nil
  · split
    · next hnone =>
      refine .inl ⟨rfl, fun id ho => ?_⟩
      have hmem := mem_orphans.2 ho
      rw [hnone] at hmem
      exact absurd hmem not_mem_nil
    · next hsome =>
      obtain ⟨id, hid⟩ := exists_mem_of_ne_nil _ hsome
      have hspec := @startFrom_spec _ observedSeq h.sorted
        (((all.filter (observedSeq < ·.seq)).flatMap (·.results)).filter
          (· ∉ (all.filter (observedSeq < ·.seq)).flatMap (·.calls)))
      simp only [mem_orphans] at hspec
      rcases hspec with ⟨-, hnone⟩ | ⟨m, hm, hle, hneeded, heq, hfirst⟩
      · obtain ⟨m, hm, hle, hcall⟩ := h.needed (mem_orphans.1 hid)
        exact absurd (mem_orphans.1 hid) (hnone m hm hle id hcall)
      · exact .inr ⟨m, hm, hle, hneeded, by rw [heq], hfirst⟩

/-- What is not observed is whole if there is no orphan. -/
theorem opensOnTurn_unobserved (h : IsThread all) (hnone : ∀ id, ¬Orphan all observedSeq id) :
    OpensOnTurn all observedSeq (all.filter (observedSeq < ·.seq)) where
  toShows := shows_filter h.sorted le_rfl
  whole m hm id hid := by
    by_contra hno
    obtain ⟨hm, hlt⟩ := mem_unobserved.1 hm
    exact hnone id ⟨⟨m, hm, hlt, hid⟩, fun m' hm' hlt' hcall =>
      hno ⟨m', mem_unobserved.2 ⟨hm', hlt'⟩, hcall⟩⟩
  shortest _ ho _ := length_unobserved_le ho h.sorted

/-! ### The earliest row -/

section Earliest

variable {first : MessageRecord} (h : IsThread all) (hle : first.seq ≤ observedSeq)
  (hfirst : ∀ m ∈ all, (∃ id ∈ m.calls, Orphan all observedSeq id) → first.seq ≤ m.seq)

include hfirst in
theorem le_of_neededBy {seq : ℤ} (hneeded : NeededBy all observedSeq seq) : first.seq ≤ seq := by
  obtain ⟨m, hm, -, hle, hcall⟩ := hneeded
  exact (hfirst m hm hcall).trans hle

theorem mem_from {m : MessageRecord} :
    m ∈ all.filter (first.seq - 1 < ·.seq) ↔ m ∈ all ∧ first.seq ≤ m.seq := by
  rw [mem_filter, decide_eq_true_eq, Int.sub_one_lt_iff]

variable (hmem : first ∈ all) (hcall : ∃ id ∈ first.calls, Orphan all observedSeq id)

include hle hmem hcall in
theorem neededBy_of_le {seq : ℤ} (h : first.seq ≤ seq) : NeededBy all observedSeq seq :=
  ⟨first, hmem, hle, h, hcall⟩

include h hle hfirst hmem hcall in
/-- If the window is as promised, moving back once has been enough. -/
theorem OpensOnTurn.onceIsEnough
    (ho : OpensOnTurn all observedSeq (all.filter (first.seq - 1 < ·.seq))) :
    OnceIsEnough all observedSeq where
  enough r hr _ hneeded id hid := by
    obtain ⟨m, hm, hcall'⟩ := ho.whole r (mem_from.2 ⟨hr, le_of_neededBy hfirst hneeded⟩) id hid
    obtain ⟨hm, hlt⟩ := mem_from.1 hm
    exact ⟨m, hm, hcall', neededBy_of_le hle hmem hcall hlt⟩
  tight k hk hkle hneeded hcalls := by
    by_contra! hwhole
    -- The window could begin with `k`, which is later.
    have hlater : first.seq < k.seq := by
      have := le_of_neededBy hfirst hneeded
      omega
    have hshows : Shows all observedSeq (all.filter (k.seq - 1 < ·.seq)) :=
      shows_filter h.sorted (by omega)
    have hshort := ho.shortest _ hshows fun r hr id hid => by
      obtain ⟨hr, hkr⟩ := mem_from.1 hr
      by_cases hobs : r.seq ≤ observedSeq
      · obtain ⟨m, hm, hcall', hkm⟩ := hwhole r hr hkr hobs id hid
        exact ⟨m, mem_from.2 ⟨hm, hkm⟩, hcall'⟩
      · by_cases horphan : Orphan all observedSeq id
        · obtain ⟨m, hm, hcall', hkm⟩ := hcalls id horphan
          exact ⟨m, mem_from.2 ⟨hm, hkm⟩, hcall'⟩
        · by_contra! hnone
          refine horphan ⟨⟨r, hr, not_le.1 hobs, hid⟩, fun m hm hlt hcall' => ?_⟩
          exact hnone m (mem_from.2 ⟨hm, by omega⟩) hcall'
    have hsuffix := suffix_of_length hshows.suffix ho.suffix hshort
    have hin := hsuffix.subset (mem_from.2 ⟨hmem, le_rfl⟩)
    exact absurd (mem_from.1 hin).2 (not_le.2 hlater)

include h hle hfirst hmem hcall in
/-- If moving back once is enough, the window is as promised. -/
theorem OnceIsEnough.opensOnTurn (ho : OnceIsEnough all observedSeq) :
    OpensOnTurn all observedSeq (all.filter (first.seq - 1 < ·.seq)) where
  toShows := shows_filter h.sorted (by omega)
  whole m hm id hid := by
    obtain ⟨hm, hlt⟩ := mem_from.1 hm
    by_cases hobs : m.seq ≤ observedSeq
    · obtain ⟨m', hm', hcall', hneeded⟩ :=
        ho.enough m hm hobs (neededBy_of_le hle hmem hcall hlt) id hid
      exact ⟨m', mem_from.2 ⟨hm', le_of_neededBy hfirst hneeded⟩, hcall'⟩
    · by_cases horphan : Orphan all observedSeq id
      · obtain ⟨m', hm', -, hcall'⟩ := h.needed horphan
        exact ⟨m', mem_from.2 ⟨hm', hfirst m' hm' ⟨id, hcall', horphan⟩⟩, hcall'⟩
      · by_contra! hnone
        refine horphan ⟨⟨m, hm, not_le.1 hobs, hid⟩, fun m' hm' hlt' hcall' => ?_⟩
        exact hnone m' (mem_from.2 ⟨hm', by omega⟩) hcall'
  shortest other hother hwhole := by
    obtain ⟨id, hid, horphan⟩ := hcall
    obtain ⟨⟨m, hm, hmlt, hres⟩, hnone⟩ := horphan
    have hin := hother.unobserved m hm hmlt
    rcases other with _ | ⟨k, rest⟩
    · exact absurd hin not_mem_nil
    have hk : k ∈ k :: rest := .head _
    have hkall := hother.suffix.subset hk
    have hkle {m : MessageRecord} (hm : m ∈ k :: rest) : k.seq ≤ m.seq := by
      have hsorted := pairwise_cons.1 (h.sorted.sublist hother.suffix.sublist)
      rcases mem_cons.1 hm with rfl | hm
      · exact le_rfl
      · exact (hsorted.1 m hm).le
    -- A shorter one begins with a later row, which is observed.
    by_contra! hlt
    have hlater : first.seq < k.seq := by
      by_contra! hle'
      refine absurd (length_from_le h.sorted hother.suffix ?_) (not_le.2 hlt)
      exact mem_of_suffix h.sorted hother.suffix hk hmem hle'
    have hobs : k.seq ≤ observedSeq := by
      obtain ⟨m', hm', hcall'⟩ := hwhole m hin id hres
      refine (hkle hm').trans (not_lt.1 fun hlt' => ?_)
      exact hnone m' (hother.suffix.subset hm') hlt' hcall'
    obtain ⟨r, hr, hkr, -, id', hid', hearlier⟩ := ho.tight k hkall hobs
      (neededBy_of_le hle hmem ⟨id, hid, ⟨m, hm, hmlt, hres⟩, hnone⟩ (by omega))
      fun id' ⟨⟨m', hm', hlt', hres'⟩, _⟩ => by
        obtain ⟨c, hc, hcall'⟩ := hwhole m' (hother.unobserved m' hm' hlt') id' hres'
        exact ⟨c, hother.suffix.subset hc, hcall', hkle hc⟩
    obtain ⟨c, hc, hcall'⟩ := hwhole r (mem_of_suffix h.sorted hother.suffix hk hr hkr) id' hid'
    exact absurd (hearlier c (hother.suffix.subset hc) hcall') (not_lt.2 (hkle hc))

end Earliest

/-- The window opens on a turn just when moving back once is enough. -/
theorem window_opens_iff (h : IsThread all) :
    OpensOnTurn all observedSeq (windowFromTurnBoundary all observedSeq) ↔
      OnceIsEnough all observedSeq := by
  rcases window_cases h with ⟨heq, hnone⟩ | ⟨first, hmem, hle, hcall, heq, hfirst⟩
  · -- There is no orphan, so the window stays.
    have hneeded {seq : ℤ} (hn : NeededBy all observedSeq seq) : False := by
      obtain ⟨_, _, _, _, id, _, ho⟩ := hn
      exact hnone id ho
    rw [heq]
    exact iff_of_true (opensOnTurn_unobserved h hnone)
      ⟨fun _ _ _ hn => (hneeded hn).elim, fun _ _ _ hn => (hneeded hn).elim⟩
  · rw [heq]
    exact ⟨OpensOnTurn.onceIsEnough h hle hfirst hmem hcall,
      OnceIsEnough.opensOnTurn h hle hfirst hmem hcall⟩

/-- Where no call is stored twice, moving back once is enough just when no observed result that comes
    in by it has its call before the earliest call that is needed. -/
theorem onceIsEnough_iff
    (hone : ∀ m ∈ all, ∀ m' ∈ all, ∀ id ∈ m.calls, id ∈ m'.calls → m = m') :
    OnceIsEnough all observedSeq ↔ ∀ r ∈ all, r.seq ≤ observedSeq →
      NeededBy all observedSeq r.seq → ∀ id ∈ r.results,
        ∃ m ∈ all, id ∈ m.calls ∧ NeededBy all observedSeq m.seq := by
  refine ⟨OnceIsEnough.enough, fun h => ⟨h, fun k _ _ hneeded hcalls => ?_⟩⟩
  -- The call that is needed is the only one, and it is before `k`.
  obtain ⟨m, hm, -, hlt, id, hid, ho⟩ := hneeded
  obtain ⟨m', hm', hid', hle⟩ := hcalls id ho
  obtain rfl := hone m hm m' hm' id hid hid'
  omega

end Thread

/-! ### Two turns that interleave -/

/-- A row that calls a tool, or answers a call. -/
def callRow (seq : ℤ) (type : PartKind) (id : String) : MessageRecord :=
  ⟨seq, ⟨none, .parts [⟨type, js id, none⟩]⟩⟩

/-- The first call is answered after the second one is made. -/
def interleaved : List MessageRecord :=
  [callRow 0 .toolCall "a", callRow 1 .toolCall "b", callRow 2 .toolResult "a",
    callRow 3 .toolResult "b"]

theorem isThread_interleaved : IsThread interleaved where
  sorted := by decide
  called := by decide

/-- With the mark behind the first call, the window is moved back to it, and kept. -/
theorem window_opens_interleaved :
    OpensOnTurn interleaved 0 (windowFromTurnBoundary interleaved 0) := by
  have hrow : ∀ m ∈ interleaved, m.seq ≤ 0 → m = callRow 0 .toolCall "a" := by decide
  refine (window_opens_iff isThread_interleaved).2 ⟨fun r hr hle _ id hid => ?_,
    fun k hk hle ⟨m, hm, _, hlt, _⟩ _ => ?_⟩
  · rw [hrow r hr hle] at hid
    exact absurd hid List.not_mem_nil
  · have hfirst : ∀ m ∈ interleaved, 0 ≤ m.seq := by decide
    have := hfirst m hm
    omega

/-- With the mark behind the answer, the window comes to begin with the second call, and has the answer
    to the first. -/
theorem window_splits_turn :
    ¬OpensOnTurn interleaved 2 (windowFromTurnBoundary interleaved 2) := by
  intro h
  have hwindow : windowFromTurnBoundary interleaved 2 = interleaved.tail := by decide
  obtain ⟨m, hm, hcall⟩ := h.whole (callRow 2 .toolResult "a") (by rw [hwindow]; decide) (js "a")
    (by decide)
  rw [hwindow] at hm
  revert m
  decide

end Gnldev.Memory
