import Mathlib.Data.List.Forall2

/-!
# Where two rows differ first

Two rows are compared place by place (`firstDiff`). If only a part of each row is read, and the
places are compared in another way, the first difference is still the real one as long as every
place up to it is read, and what is there tells (`ReadRight`): `firstDiff_eq_of_readRight`, and
back, `readRight_of_firstDiff_eq`.
-/

open List

namespace Gnldev

variable {α β : Type}

/-- The first place where two rows are not alike. A row that ends first differs there. -/
def firstDiff (same : α → β → Bool) : List α → List β → Option ℕ
  | [], [] => none
  | a :: l, b :: l' => if same a b then (firstDiff same l l').map (· + 1) else some 0
  | _, _ => some 0

/-- What is read of two rows suffices to find their first difference: up to there all of them is
    listed, and what `tells` holds of the two places. -/
def ReadRight (listed : α → Bool) (listed' : β → Bool) (tells : α → β → Prop)
    (real : α → β → Bool) : List α → List β → Prop
  | [], [] => True
  | a :: _, [] => listed a = true
  | [], b :: _ => listed' b = true
  | a :: l, b :: l' => listed a = true ∧ listed' b = true ∧ tells a b ∧
      (real a b = true → ReadRight listed listed' tells real l l')

section FirstDiff

variable {same : α → β → Bool} {l : List α} {l' : List β}

theorem firstDiff_eq_none_iff :
    firstDiff same l l' = none ↔ List.Forall₂ (fun a b => same a b = true) l l' := by
  induction l generalizing l' with
  | nil =>
    rcases l' with _ | ⟨b, l'⟩
    · exact iff_of_true rfl .nil
    · exact iff_of_false nofun nofun
  | cons a l ih =>
    rcases l' with _ | ⟨b, l'⟩
    · exact iff_of_false nofun nofun
    · rw [firstDiff, List.forall₂_cons]
      split
      · next hsame => rw [Option.map_eq_none_iff, ih, and_iff_right hsame]
      · next hdiff => exact iff_of_false nofun fun h => hdiff h.1

theorem firstDiff_map {A B : Type} {same : A → B → Bool} (f : α → A) (g : β → B) :
    firstDiff same (l.map f) (l'.map g) = firstDiff (fun a b => same (f a) (g b)) l l' := by
  induction l generalizing l' with
  | nil => rcases l' with _ | ⟨b, l'⟩ <;> rfl
  | cons a l ih =>
    rcases l' with _ | ⟨b, l'⟩
    · rfl
    · rw [map_cons, map_cons, firstDiff, firstDiff, ih]

end FirstDiff

/-- If the first items are kept, they stay in their places. -/
theorem take_filter_of_forall {p : α → Bool} {l : List α} {k : ℕ}
    (h : ∀ a ∈ l.take k, p a = true) : (l.filter p).take k = l.take k := by
  induction l generalizing k with
  | nil => rfl
  | cons a l ih =>
    rcases k with _ | k
    · rfl
    · rw [take_succ_cons, forall_mem_cons] at h
      rw [filter_cons_of_pos h.1, take_succ_cons, take_succ_cons, ih h.2]

section ReadRight

variable {listed : α → Bool} {listed' : β → Bool} {tells : α → β → Prop}
  {read real : α → β → Bool} {l : List α} {l' : List β}

theorem firstDiff_eq_of_readRight
    (htells : ∀ a b, listed a = true → listed' b = true → tells a b → read a b = real a b)
    (h : ReadRight listed listed' tells real l l') :
    firstDiff read (l.filter listed) (l'.filter listed') = firstDiff real l l' := by
  induction l generalizing l' with
  | nil =>
    rcases l' with _ | ⟨b, l'⟩
    · rfl
    · rw [filter_cons_of_pos h]
      rfl
  | cons a l ih =>
    rcases l' with _ | ⟨b, l'⟩
    · rw [filter_cons_of_pos h]
      rfl
    · obtain ⟨ha, hb, htell, hrest⟩ := h
      rw [filter_cons_of_pos ha, filter_cons_of_pos hb, firstDiff, firstDiff,
        htells a b ha hb htell]
      split
      · next hreal => rw [ih (hrest hreal)]
      · rfl

/-- All that is before the difference is read, and the difference. -/
theorem listed_of_readRight (h : ReadRight listed listed' tells real l l') {i : ℕ}
    (hi : firstDiff real l l' = some i) :
    (∀ a ∈ l.take (i + 1), listed a = true) ∧ ∀ b ∈ l'.take (i + 1), listed' b = true := by
  induction l generalizing l' i with
  | nil =>
    rcases l' with _ | ⟨b, l'⟩
    · contradiction
    · obtain rfl := Option.some.inj hi
      refine ⟨nofun, fun b' hb' => ?_⟩
      obtain rfl := mem_singleton.1 hb'
      exact h
  | cons a l ih =>
    rcases l' with _ | ⟨b, l'⟩
    · obtain rfl := Option.some.inj hi
      refine ⟨fun a' ha' => ?_, nofun⟩
      obtain rfl := mem_singleton.1 ha'
      exact h
    · obtain ⟨ha, hb, -, hrest⟩ := h
      rw [firstDiff] at hi
      rw [take_succ_cons, take_succ_cons, forall_mem_cons, forall_mem_cons]
      split at hi
      · next hreal =>
        obtain ⟨j, hj, rfl⟩ := Option.map_eq_some_iff.1 hi
        obtain ⟨hl, hl'⟩ := ih (hrest hreal) hj
        exact ⟨⟨ha, hl⟩, hb, hl'⟩
      · obtain rfl := Option.some.inj hi
        exact ⟨⟨ha, nofun⟩, hb, nofun⟩

theorem readRight_of_firstDiff_eq
    (htells : ∀ a b, listed a = true → listed' b = true → read a b = real a b → tells a b)
    (h : firstDiff read (l.filter listed) (l'.filter listed') = firstDiff real l l')
    (hsome : ∀ i, firstDiff real l l' = some i →
      (∀ a ∈ l.take (i + 1), listed a = true) ∧ ∀ b ∈ l'.take (i + 1), listed' b = true)
    (hnone : firstDiff real l l' = none →
      (∀ a ∈ l, listed a = true) ∧ ∀ b ∈ l', listed' b = true) :
    ReadRight listed listed' tells real l l' := by
  induction l generalizing l' with
  | nil =>
    rcases l' with _ | ⟨b, l'⟩
    · trivial
    · exact (hsome 0 rfl).2 b (.head _)
  | cons a l ih =>
    rcases l' with _ | ⟨b, l'⟩
    · exact (hsome 0 rfl).1 a (.head _)
    · have hfirst : listed a = true ∧ listed' b = true := by
        rcases hdiff : firstDiff real (a :: l) (b :: l') with _ | i
        · exact ⟨(hnone hdiff).1 a (.head _), (hnone hdiff).2 b (.head _)⟩
        · exact ⟨(hsome i hdiff).1 a (.head _), (hsome i hdiff).2 b (.head _)⟩
      rw [filter_cons_of_pos hfirst.1, filter_cons_of_pos hfirst.2, firstDiff,
        firstDiff] at h
      cases hread : read a b with
      | true =>
        cases hreal : real a b with
        | true =>
          refine ⟨hfirst.1, hfirst.2, htells a b hfirst.1 hfirst.2 (hread.trans hreal.symm),
            fun _ => ih ?_ ?_ ?_⟩
          · rw [hread, hreal] at h
            exact Option.map_injective (fun _ _ => Nat.succ.inj) h
          · intro i hi
            obtain ⟨hl, hl'⟩ := hsome (i + 1) (by rw [firstDiff, hreal, if_pos rfl, hi]; rfl)
            exact ⟨fun a ha => hl a (.tail _ ha), fun b hb => hl' b (.tail _ hb)⟩
          · intro hi
            obtain ⟨hl, hl'⟩ := hnone (by rw [firstDiff, hreal, if_pos rfl, hi]; rfl)
            exact ⟨fun a ha => hl a (.tail _ ha), fun b hb => hl' b (.tail _ hb)⟩
        | false =>
          -- The difference would be found later.
          rw [hread, hreal, if_pos rfl, if_neg Bool.false_ne_true, Option.map_eq_some_iff] at h
          obtain ⟨i, -, hi⟩ := h
          contradiction
      | false =>
        cases hreal : real a b with
        | true =>
          rw [hread, hreal, if_pos rfl, if_neg Bool.false_ne_true, eq_comm,
            Option.map_eq_some_iff] at h
          obtain ⟨i, -, hi⟩ := h
          contradiction
        | false =>
          refine ⟨hfirst.1, hfirst.2, htells a b hfirst.1 hfirst.2 (hread.trans hreal.symm),
            fun h => ?_⟩
          rw [hreal] at h
          contradiction

end ReadRight

end Gnldev
