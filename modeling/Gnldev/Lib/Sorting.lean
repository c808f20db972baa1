import Mathlib.Data.List.Sort

/-!
# Sorting a part

A stable sort is a sort of each part of a list: what is kept of a sorted list is what is kept of
the list, sorted (`filterMap_insertionSort`). And the best of a part are the best of the whole that
are in the part, exactly if none of the others is among them, or none of the part is beyond
(`filter_take`). Before an element stand those that were before it and may stand before it, and those
that were after it and may not stand after it (`insertionSort_split`).
-/

open List

namespace Gnldev

variable {A B : Type} {r : A → A → Prop} [DecidableRel r] {r' : B → B → Prop} [DecidableRel r']

/-- To insert an element, and keep a part. -/
theorem filterMap_orderedInsert [IsTrans A r] {f : A → Option B}
    (hf : ∀ a b a' b', f a = some a' → f b = some b' → (r a b ↔ r' a' b')) (a : A) {l : List A}
    (hl : l.Pairwise r) : (l.orderedInsert r a).filterMap f =
      match f a with
      | some a' => (l.filterMap f).orderedInsert r' a'
      | none => l.filterMap f := by
  induction l with
  | nil =>
    rw [orderedInsert_nil, filterMap_cons]
    rcases f a with _ | a' <;> rfl
  | cons b l ih =>
    obtain ⟨hb, hl⟩ := pairwise_cons.1 hl
    rw [orderedInsert_cons]
    split
    · next hab =>
      rcases ha : f a with _ | a'
      · rw [filterMap_cons_none ha]
      · -- It is before all that is kept.
        rw [filterMap_cons_some ha]
        rcases hm : (b :: l).filterMap f with _ | ⟨c', m⟩
        · rfl
        · have hc : c' ∈ (b :: l).filterMap f := by
            rw [hm]
            exact mem_cons_self
          obtain ⟨c, hc, hfc⟩ := mem_filterMap.1 hc
          have hac : r a c := by
            rcases mem_cons.1 hc with rfl | hc
            · exact hab
            · exact IsTrans.trans a b c hab (hb c hc)
          exact (orderedInsert_cons_of_le r' m ((hf a c a' c' ha hfc).1 hac)).symm
    · next hab =>
      rcases hfb : f b with _ | b'
      · rw [filterMap_cons_none hfb, filterMap_cons_none hfb, ih hl]
      · rw [filterMap_cons_some hfb, filterMap_cons_some hfb, ih hl]
        rcases ha : f a with _ | a'
        · rfl
        · simp only
          rw [orderedInsert_cons, if_neg (fun h => hab ((hf a b a' b' ha hfb).2 h))]

/-- What is kept of a sorted list. -/
theorem filterMap_insertionSort [IsTrans A r] [Std.Total r] {f : A → Option B}
    (hf : ∀ a b a' b', f a = some a' → f b = some b' → (r a b ↔ r' a' b')) (l : List A) :
    (l.insertionSort r).filterMap f = (l.filterMap f).insertionSort r' := by
  induction l with
  | nil => rfl
  | cons a l ih =>
    rw [insertionSort_cons, filterMap_orderedInsert hf a (pairwise_insertionSort r l)]
    rcases ha : f a with _ | a'
    · rw [filterMap_cons_none ha, ← ih]
    · rw [filterMap_cons_some ha, insertionSort_cons, ← ih]

/-- What is kept of a sorted list, without another name. -/
theorem filter_insertionSort [IsTrans A r] [Std.Total r] (q : A → Bool) (l : List A) :
    (l.insertionSort r).filter q = (l.filter q).insertionSort r := by
  rw [← filterMap_eq_filter]
  refine filterMap_insertionSort (fun a b a' b' ha hb => ?_) l
  obtain ⟨rfl, -⟩ := Option.guard_eq_some_iff.1 ha
  obtain ⟨rfl, -⟩ := Option.guard_eq_some_iff.1 hb
  rfl

/-- The first of a list that are kept, if nothing else takes their places. -/
theorem filter_take {q : A → Bool} {n : ℕ} {l : List A}
    (h : (∀ a ∈ l.take n, q a) ∨ ∀ a ∈ l.drop n, ¬q a) :
    (l.take n).filter q = (l.filter q).take n := by
  have hsplit : l.filter q = (l.take n).filter q ++ (l.drop n).filter q := by
    rw [← filter_append, take_append_drop]
  rcases h with h | h
  · have hall : (l.take n).filter q = l.take n := filter_eq_self.2 h
    rw [hsplit, hall]
    rcases le_or_gt l.length n with hn | hn
    · rw [drop_of_length_le hn, filter_nil, append_nil, take_take, min_self]
    · rw [take_left' (by rw [length_take]; omega)]
  · have hnone : (l.drop n).filter q = [] := filter_eq_nil_iff.2 h
    rw [hsplit, hnone, append_nil]
    refine (take_of_length_le ?_).symm
    exact (length_filter_le _ _).trans (length_take_le _ _)

/-! ## The place of an element -/

/-- What may stand before an element is inserted before it. -/
theorem orderedInsert_before {a b : A} {s t : List A} (h : r a b) :
    ∃ s', (s ++ b :: t).orderedInsert r a = s' ++ b :: t ∧ s'.length = s.length + 1 ∧
      ∀ c ∈ s', c = a ∨ c ∈ s := by
  induction s with
  | nil =>
    exact ⟨[a], orderedInsert_cons_of_le r t h, rfl, fun c hc => .inl (mem_singleton.1 hc)⟩
  | cons c s ih =>
    rw [cons_append, orderedInsert_cons]
    split
    · exact ⟨a :: c :: s, rfl, rfl, fun d hd => mem_cons.1 hd⟩
    · obtain ⟨s', heq, hlen, hmem⟩ := ih
      refine ⟨c :: s', by rw [heq]; rfl, by rw [length_cons, hlen]; rfl, fun d hd => ?_⟩
      rcases mem_cons.1 hd with rfl | hd
      · exact .inr mem_cons_self
      · exact (hmem d hd).imp_right (mem_cons_of_mem c)

/-- What may not is inserted after it. -/
theorem orderedInsert_after [IsTrans A r] {a b : A} {s t : List A} (hs : ∀ c ∈ s, r c b)
    (h : ¬r a b) : (s ++ b :: t).orderedInsert r a = s ++ b :: t.orderedInsert r a := by
  induction s with
  | nil => exact orderedInsert_of_not_le r t h
  | cons c s ih =>
    have hac : ¬r a c := fun hac => h (IsTrans.trans a c b hac (hs c mem_cons_self))
    rw [cons_append, orderedInsert_of_not_le r _ hac,
      ih fun d hd => hs d (mem_cons_of_mem c hd)]
    rfl

/-- Where an element of a list stands in the sorted list. -/
theorem insertionSort_split [IsTrans A r] [Std.Total r] (before after : List A) (b : A) :
    ∃ s t, (before ++ b :: after).insertionSort r = s ++ b :: t ∧
      s.length = (before.countP fun a => r a b) + (after.countP fun a => ¬r b a) ∧
      ∀ c ∈ s, r c b := by
  induction before with
  | nil =>
    let l := after.insertionSort r
    refine ⟨l.takeWhile fun a => ¬r b a, l.dropWhile fun a => ¬r b a, ?_, ?_, fun c hc => ?_⟩
    · exact orderedInsert_eq_take_drop r b l
    · have hsorted : l.Pairwise r := pairwise_insertionSort r after
      have hcount : (l.takeWhile fun a => ¬r b a).length = l.countP fun a => ¬r b a := by
        clear_value l
        induction l with
        | nil => rfl
        | cons c l ih =>
          obtain ⟨hc, hl⟩ := pairwise_cons.1 hsorted
          by_cases hbc : r b c
          · rw [takeWhile_cons_of_neg (by simpa using hbc), countP_eq_zero.2]
            · rfl
            · intro d hd
              rcases mem_cons.1 hd with rfl | hd
              · simpa using hbc
              · simpa using IsTrans.trans b c d hbc (hc d hd)
          · rw [takeWhile_cons_of_pos (by simpa using hbc),
              countP_cons_of_pos (by simpa using hbc), length_cons, ih hl]
      rw [hcount, countP_nil, Nat.zero_add]
      exact (perm_insertionSort r after).countP_eq _
    · have hnot := all_eq_true.1 all_takeWhile c hc
      exact (Std.Total.total (r := r) c b).resolve_right (by simpa using hnot)
  | cons a before ih =>
    obtain ⟨s, t, heq, hlen, hs⟩ := ih
    rw [cons_append, insertionSort_cons, heq]
    by_cases hab : r a b
    · obtain ⟨s', heq', hlen', hmem⟩ := orderedInsert_before (s := s) (t := t) hab
      refine ⟨s', t, heq', ?_, fun c hc => ?_⟩
      · rw [hlen', hlen, countP_cons_of_pos (by simpa using hab)]
        omega
      · rcases hmem c hc with rfl | hc
        · exact hab
        · exact hs c hc
    · refine ⟨s, t.orderedInsert r a, orderedInsert_after hs hab, ?_, hs⟩
      rw [hlen, countP_cons_of_neg (by simpa using hab)]

end Gnldev
