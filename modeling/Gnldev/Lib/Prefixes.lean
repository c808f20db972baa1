import Gnldev.Lib.OrderedMap
import Mathlib.Data.List.Sort

/-!
# Deletions by prefix

A map under texts, of which only what begins with a text can be deleted. Deletions come one after
the other, each of its own kind, and a key is gone by the first that it begins with (`takenBy`).

* `remaining`, `countTaken`: what a list of deletions leaves, and how many keys are gone by those
  of a kind, with what one more deletion does (`remaining_append`, `countTaken_append`);
* `prefix_of_le_of_le`: in the order of texts, what is between a text and one that it begins,
  begins with it.
-/

open List

namespace Gnldev

variable {A : Type}

/-! ## The order of texts -/

section Order

variable [LT A] [LE A] [Std.IsLinearOrder A] [Std.LawfulOrderLT A]

variable {k x : List A}

theorem prefix_of_le_of_le {s : List A} (h : k ≤ x) (h' : x ≤ k ++ s) : k <+: x := by
  induction k generalizing x with
  | nil => exact nil_prefix
  | cons a k ih =>
    cases x with
    | nil => exact absurd (le_nil.1 h) (cons_ne_nil a k)
    | cons b x =>
      rw [cons_append] at h'
      have hab : a = b ∧ k ≤ x ∧ x ≤ k ++ s := by
        rcases cons_le_cons_iff.1 h with hlt | ⟨rfl, hle⟩
        · rcases cons_le_cons_iff.1 h' with hlt' | ⟨rfl, -⟩
          · exact absurd (Std.lt_trans hlt hlt') Std.lt_irrefl
          · exact absurd hlt Std.lt_irrefl
        · rcases cons_le_cons_iff.1 h' with hlt' | ⟨-, hle'⟩
          · exact absurd hlt' Std.lt_irrefl
          · exact ⟨rfl, hle, hle'⟩
      obtain ⟨rfl, hle, hle'⟩ := hab
      exact (prefix_cons_inj a).2 (ih hle hle')

theorem le_of_isPrefix (h : k <+: x) : k ≤ x := by
  obtain ⟨s, rfl⟩ := h
  induction k with
  | nil => exact nil_le _
  | cons a k ih => exact cons_le_cons_iff.2 (.inr ⟨rfl, ih⟩)

/-- In a sorted list, those that begin with its first are together. -/
theorem mem_takeWhile_iff [DecidableEq A] {l : List (List A)} (hsorted : (k :: l).Pairwise (· ≤ ·)) :
    x ∈ l.takeWhile (k.isPrefixOf ·) ↔ x ∈ l ∧ k <+: x := by
  induction l with
  | nil => simp
  | cons b l ih =>
    obtain ⟨hk, hbl⟩ := pairwise_cons.1 hsorted
    obtain ⟨hb, hl⟩ := pairwise_cons.1 hbl
    rw [takeWhile_cons]
    split
    · next hpre =>
      rw [List.isPrefixOf_iff_prefix] at hpre
      have hrest := ih (pairwise_cons.2 ⟨fun y hy => hk y (.tail _ hy), hl⟩)
      rw [mem_cons, mem_cons, hrest]
      constructor
      · rintro (rfl | ⟨hx, hkx⟩)
        · exact ⟨.inl rfl, hpre⟩
        · exact ⟨.inr hx, hkx⟩
      · rintro ⟨rfl | hx, hkx⟩
        · exact .inl rfl
        · exact .inr ⟨hx, hkx⟩
    · next hpre =>
      rw [List.isPrefixOf_iff_prefix] at hpre
      refine ⟨fun h => absurd h not_mem_nil, ?_⟩
      rintro ⟨hx, s, rfl⟩
      -- What follows one that does not begin with it does not, either.
      rcases mem_cons.1 hx with rfl | hx
      · exact absurd ⟨s, rfl⟩ hpre
      · exact absurd (prefix_of_le_of_le (hk b (.head _)) (hb _ hx)) hpre

end Order

/-! ## Deletions -/

variable {L V : Type} [DecidableEq A] [DecidableEq L]

/-- By which kind of deletion a key is gone. -/
def takenBy (strokes : List (L × List A)) (k : List A) : Option L :=
  (strokes.find? (·.2.isPrefixOf k)).map Prod.fst

omit [DecidableEq L] in
theorem takenBy_append (s s' : List (L × List A)) (k : List A) :
    takenBy (s ++ s') k = (takenBy s k).or (takenBy s' k) := by
  rw [takenBy, takenBy, takenBy, find?_append, Option.map_or]

variable {s : List (L × List A)} {k : List A}

omit [DecidableEq L] in
theorem takenBy_eq_none_iff :
    takenBy s k = none ↔ ∀ e ∈ s, ¬e.2 <+: k := by
  rw [takenBy, Option.map_eq_none_iff, find?_eq_none]
  simp only [List.isPrefixOf_iff_prefix]

variable {l : L}

omit [DecidableEq L] in
theorem mem_of_takenBy (h : takenBy s k = some l) :
    ∃ p, (l, p) ∈ s ∧ p <+: k := by
  obtain ⟨⟨l, p⟩, hfind, rfl⟩ := Option.map_eq_some_iff.1 h
  have hpre : p.isPrefixOf k := find?_some (p := fun e : L × List A => e.2.isPrefixOf k) hfind
  exact ⟨p, mem_of_find?_eq_some hfind, isPrefixOf_iff_prefix.1 hpre⟩

omit [DecidableEq L] in
theorem takenBy_cons_of_prefix {p : List A} (h : p <+: k) (s : List (L × List A)) :
    takenBy ((l, p) :: s) k = some l := by
  have hpre : p.isPrefixOf k := isPrefixOf_iff_prefix.2 h
  rw [takenBy, find?_cons_of_pos (p := fun e : L × List A => e.2.isPrefixOf k) hpre]
  rfl

omit [DecidableEq L] in
theorem takenBy_of_isPrefix {t : List (L × List A)} (h : s <+: t) (hk : takenBy s k = some l) :
    takenBy t k = some l := by
  obtain ⟨r, rfl⟩ := h
  rw [takenBy_append, hk, Option.some_or]

/-- What deletions leave. -/
def remaining (m : OrderedMap (List A) V) (s : List (L × List A)) : OrderedMap (List A) V :=
  m.filterKeys fun k => (takenBy s k).isNone

/-- How many keys are gone by a kind of deletion. -/
def countTaken (m : OrderedMap (List A) V) (s : List (L × List A)) (l : L) : ℕ :=
  m.entries.countP fun e => takenBy s e.1 = some l

variable (m : OrderedMap (List A) V) (s : List (L × List A))

omit [DecidableEq L] in
theorem get_remaining (k : List A) :
    (remaining m s).get k = if takenBy s k = none then m.get k else none := by
  split
  · next h => exact OrderedMap.get_filterKeys m (by rw [h]; rfl)
  · next h => exact OrderedMap.get_filterKeys_of_neg m (by rwa [Option.isNone_iff_eq_none])

omit [DecidableEq L] in
theorem takenBy_append_one (l : L) (p k : List A) :
    takenBy (s ++ [(l, p)]) k = (takenBy s k).or (if p.isPrefixOf k then some l else none) := by
  rw [takenBy_append]
  congr 1
  rw [takenBy, find?_singleton]
  split <;> rfl

omit [DecidableEq L] in
/-- What one more deletion leaves. -/
theorem remaining_append (l : L) (p : List A) :
    remaining m (s ++ [(l, p)]) = (remaining m s).filterKeys (!p.isPrefixOf ·) := by
  refine OrderedMap.ext ?_
  change m.entries.filter _ = (m.entries.filter _).filter _
  rw [filter_filter]
  refine filter_congr fun e _ => ?_
  dsimp only
  rw [takenBy_append_one]
  rcases takenBy s e.1 with _ | l'
  · by_cases h : p.isPrefixOf e.1 <;> simp [h]
  · simp

/-- How many one more deletion takes. -/
theorem countTaken_append (l l' : L) (p : List A) :
    countTaken m (s ++ [(l, p)]) l' = countTaken m s l' +
      if l' = l then (remaining m s).entries.countP (p.isPrefixOf ·.1) else 0 := by
  rw [countTaken, countTaken]
  change _ = _ + if l' = l then (m.entries.filter _).countP _ else 0
  rw [countP_filter]
  induction m.entries with
  | nil => rw [countP_nil, countP_nil, countP_nil, ite_self]
  | cons e es ih =>
    have hone : (if takenBy (s ++ [(l, p)]) e.1 = some l' then 1 else 0) =
        (if takenBy s e.1 = some l' then 1 else 0) +
          if l' = l ∧ p.isPrefixOf e.1 ∧ (takenBy s e.1).isNone then 1 else 0 := by
      rw [takenBy_append_one]
      rcases takenBy s e.1 with _ | l₁
      · by_cases h : p.isPrefixOf e.1 <;> simp [h, eq_comm]
      · simp
    simp only [countP_cons, decide_eq_true_eq, Bool.and_eq_true]
    rw [ih, hone]
    by_cases hl : l' = l
    · simp only [hl, true_and, if_true]
      omega
    · simp only [hl, false_and, if_false, Nat.add_zero]

end Gnldev
