import Mathlib.Data.List.Basic

/-!
# Pages of a list

A list is read page by page: each has some items, and says where the next one begins, if
there is one (`walk`). Pages that cut the list where they say so (`Cuts`), with some of its
items left out, give all the others, in their order, whatever the sizes (`walk_eq`).
-/

namespace Gnldev

/-- Items, and where the next page begins. -/
abbrev ListPage (A : Type) := List A × Option ℕ

variable {A B : Type}

/-- A full walk from a position on: page after page, to the one that is the last. -/
def walk (page : ℕ → ListPage A) : (fuel pos : ℕ) → Option (List A)
  | 0, _ => none
  | fuel + 1, pos =>
    match page pos with
    | (items, none) => some items
    | (items, some next) => (walk page fuel next).map (items ++ ·)

/-- Each page has what is kept of the list, from its position to the next. -/
structure Cuts (page : ℕ → ListPage A) (l : List B) (keep : B → Option A) : Prop where
  last : ∀ pos items, page pos = (items, none) → items = (l.drop pos).filterMap keep
  more : ∀ pos items next, page pos = (items, some next) → pos < next ∧ next ≤ l.length ∧
    items = ((l.drop pos).take (next - pos)).filterMap keep

variable {page : ℕ → ListPage A} {fuel pos : ℕ}

/-- A full walk gives what is kept of the list. -/
theorem walk_eq {l : List B} {keep : B → Option A} (h : Cuts page l keep)
    (hfuel : l.length - pos < fuel) :
    walk page fuel pos = some ((l.drop pos).filterMap keep) := by
  induction fuel generalizing pos with
  | zero => exact absurd hfuel (Nat.not_lt_zero _)
  | succ fuel ih =>
    rw [walk]
    split
    · next items hpage => rw [h.last pos items hpage]
    · next items next hpage =>
      obtain ⟨hlt, hle, rfl⟩ := h.more pos items next hpage
      rw [ih (by omega), Option.map_some, ← List.filterMap_append]
      -- The rest of the list begins where the page ends.
      have hrest : l.drop next = (l.drop pos).drop (next - pos) := by
        rw [List.drop_drop]
        congr 1
        omega
      rw [hrest, List.take_append_drop]

/-- A walk that ends does not need more. -/
theorem walk_mono {fuel' : ℕ} {items : List A} (h : walk page fuel pos = some items)
    (hle : fuel ≤ fuel') :
    walk page fuel' pos = some items := by
  induction fuel generalizing fuel' pos items with
  | zero => contradiction
  | succ fuel ih =>
    obtain ⟨fuel', rfl⟩ := Nat.exists_eq_add_of_le' (Nat.zero_lt_of_lt hle)
    rw [walk] at h ⊢
    rcases hpage : page pos with ⟨part, _ | next⟩
    · simpa only [hpage] using h
    · simp only [hpage, Option.map_eq_some_iff] at h ⊢
      obtain ⟨rest, hrest, rfl⟩ := h
      exact ⟨rest, ih hrest (Nat.le_of_succ_le_succ hle), rfl⟩

/-- Each page has some of what is kept of the list, from its position to the next. -/
structure Within (page : ℕ → ListPage A) (l : List B) (keep : B → Option A) : Prop where
  last : ∀ pos items, page pos = (items, none) → items.Sublist ((l.drop pos).filterMap keep)
  more : ∀ pos items next, page pos = (items, some next) → pos ≤ next ∧
    items.Sublist (((l.drop pos).take (next - pos)).filterMap keep)

/-- A walk that ends gives some of what is kept of the list, in its order. -/
theorem walk_sublist {l : List B} {keep : B → Option A} (h : Within page l keep) {items : List A}
    (hw : walk page fuel pos = some items) :
    items.Sublist ((l.drop pos).filterMap keep) := by
  induction fuel generalizing pos items with
  | zero => contradiction
  | succ fuel ih =>
    rw [walk] at hw
    rcases hpage : page pos with ⟨part, _ | next⟩
    · simp only [hpage, Option.some.injEq] at hw
      exact hw ▸ h.last pos part hpage
    · simp only [hpage, Option.map_eq_some_iff] at hw
      obtain ⟨rest, hrest, rfl⟩ := hw
      obtain ⟨hle, hpart⟩ := h.more pos part next hpage
      have hsplit : (l.drop pos).filterMap keep =
          ((l.drop pos).take (next - pos)).filterMap keep ++ (l.drop next).filterMap keep := by
        rw [← List.filterMap_append, ← Nat.add_sub_cancel' hle, ← List.drop_drop,
          Nat.add_sub_cancel_left, List.take_append_drop]
      rw [hsplit]
      exact hpart.append (ih hrest)

/-- A page of at most `limit` items. -/
def slicePage (l : List A) (limit pos : ℕ) : ListPage A :=
  ((l.drop pos).take limit, if pos + limit < l.length then some (pos + limit) else none)

theorem slicePage_cuts (l : List A) {limit : ℕ} (hlimit : 0 < limit) :
    Cuts (slicePage l limit) l some where
  last pos items hpage := by
    obtain ⟨rfl, hnext⟩ := Prod.mk.inj hpage
    rw [List.filterMap_some]
    refine List.take_of_length_le ?_
    by_contra hlt
    rw [List.length_drop] at hlt
    rw [if_pos (by omega)] at hnext
    contradiction
  more pos items next hpage := by
    obtain ⟨rfl, hnext⟩ := Prod.mk.inj hpage
    split at hnext
    · next hlt =>
      obtain rfl := Option.some.inj hnext
      refine ⟨by omega, Nat.le_of_lt hlt, ?_⟩
      rw [List.filterMap_some, Nat.add_sub_cancel_left]
    · contradiction

end Gnldev
