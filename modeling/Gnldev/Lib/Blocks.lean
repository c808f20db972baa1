import Gnldev.Lib.Paired

/-!
# Rows made of blocks

Each item of a list adds a block to a row, which may depend on the items before it (`blocks`). What
is said of the row is said of the blocks: what is in it (`mem_blocks`), that nothing is in it twice
(`nodup_blocks`), and that its results have their calls before them (`called_blocks`).
-/

open List

namespace Gnldev

variable {α β ι : Type} {f : List α → α → List β} {before l : List α} {b : β}

/-- The blocks of the items of a list that comes after `before`. -/
def blocks (f : List α → α → List β) : List α → List α → List β
  | _, [] => []
  | before, a :: l => f before a ++ blocks f (before ++ [a]) l

theorem flatMap_blocks {γ : Type} (g : β → List γ) :
    (blocks f before l).flatMap g = blocks (fun before a => (f before a).flatMap g) before l := by
  induction l generalizing before with
  | nil => rfl
  | cons a l ih => rw [blocks, flatMap_append, ih, blocks]

/-- Blocks that do not depend on what is before. -/
theorem blocks_const {g : α → List β} (h : ∀ before a, f before a = g a) :
    blocks f before l = l.flatMap g := by
  induction l generalizing before with
  | nil => rfl
  | cons a l ih => rw [blocks, h, ih, flatMap_cons]

theorem blocks_cons {a : α} : blocks f before (a :: l) =
    f before a ++ blocks f (before ++ [a]) l := rfl

/-! ## One item of the list -/

/-- Where a list can be cut before an item. -/
theorem forall_cut_cons {P : List α → α → List α → Prop} {a : α} :
    (∀ m x after, a :: l = m ++ x :: after → P m x after) ↔
      P [] a l ∧ ∀ m x after, l = m ++ x :: after → P (a :: m) x after := by
  constructor
  · exact fun h => ⟨h [] a l rfl, fun m x after hl => h (a :: m) x after (by rw [hl]; rfl)⟩
  · rintro ⟨ha, h⟩ m x after hl
    rcases m with _ | ⟨a', m⟩
    · obtain ⟨rfl, rfl⟩ := cons_eq_cons.1 hl
      exact ha
    · rw [cons_append] at hl
      obtain ⟨rfl, hrest⟩ := cons_eq_cons.1 hl
      exact h m x after hrest

theorem forall_mem_blocks {P : β → Prop} : (∀ b ∈ blocks f before l, P b) ↔
    ∀ m a after, l = m ++ a :: after → ∀ b ∈ f (before ++ m) a, P b := by
  induction l generalizing before with
  | nil => simp [blocks]
  | cons a l ih =>
    rw [forall_cut_cons, blocks_cons, append_nil]
    simp only [mem_append, or_imp, forall_and, ih, append_assoc, singleton_append]

/-- Nothing is in the row twice if nothing is in a block twice, or in two blocks. -/
theorem nodup_blocks : (blocks f before l).Nodup ↔
    (∀ m a after, l = m ++ a :: after → (f (before ++ m) a).Nodup) ∧
      ∀ m a after, l = m ++ a :: after → ∀ m' a' after', after = m' ++ a' :: after' →
        ∀ b ∈ f (before ++ (m ++ a :: m')) a', b ∉ f (before ++ m) a := by
  induction l generalizing before with
  | nil => simp [blocks]
  | cons a l ih =>
    have hrest : (blocks f before (a :: l)).Nodup ↔ (f before a).Nodup ∧
        (blocks f (before ++ [a]) l).Nodup ∧
          ∀ b ∈ blocks f (before ++ [a]) l, b ∉ f before a := by
      rw [blocks_cons, nodup_append', disjoint_right]
    rw [hrest, ih, forall_mem_blocks, forall_cut_cons, forall_cut_cons]
    simp only [append_nil, nil_append, append_assoc, cons_append]
    tauto

/-! ## Results and calls -/

/-- The results have their calls before them if those of each block have, by what the blocks before
    it call. -/
theorem called_blocks {calls results : β → List ι} {known : Set ι} :
    Called calls results known (blocks f before l) ↔
      ∀ m a after, l = m ++ a :: after →
        Called calls results {id | id ∈ known ∨ id ∈ namesOf calls (blocks f before m)}
          (f (before ++ m) a) := by
  induction l generalizing before known with
  | nil => simp [blocks, Called]
  | cons a l ih =>
    rw [forall_cut_cons, blocks_cons, called_append, ih]
    simp only [blocks, namesOf, flatMap_nil, not_mem_nil, or_false, append_nil,
      flatMap_append, mem_append, append_assoc, singleton_append,
      Set.mem_ofPred_eq, or_assoc, Set.ofPred_mem_eq]

end Gnldev
