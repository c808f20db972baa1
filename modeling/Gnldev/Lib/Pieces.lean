import Mathlib.Data.Int.Notation
import Mathlib.Data.List.Basic

/-!
# Texts in pieces

Some of the characters of a text are *blank*. Pieces *cover* a text if they stand in it one after the
other, and nothing but blank characters stands before, between and after them (`Covers`).

Then a character that is not blank has the place in its piece that it has in the text, but for a
shift of the whole piece (`Shifted`). Unlike `Covers`, which leaves the blank ends of a piece open,
this is inherited by every part of a text that has as many such characters as its pieces have
(`Shifted.of_append`): so what does not cover a part does not cover the text.

`splitOn` cuts a text at a separator, as long as a text may be.
-/

open List

namespace Gnldev

section Covers

variable {α : Type}

def Blank (blank : α → Bool) (t : List α) : Prop := ∀ x ∈ t, blank x = true

instance (blank : α → Bool) (t : List α) : Decidable (Blank blank t) :=
  inferInstanceAs (Decidable (∀ x ∈ t, blank x = true))

/-- The pieces stand in the text one after the other, with only blank characters around them. -/
inductive Covers (blank : α → Bool) : List α → List (List α) → Prop
  | nil {g} : Blank blank g → Covers blank g []
  | cons {g c t cs} : Blank blank g → Covers blank t cs → Covers blank (g ++ c ++ t) (c :: cs)

/-- The places of the characters that are not blank; the first character is at `i`. -/
def inked (blank : α → Bool) : List α → ℤ → List ℤ
  | [], _ => []
  | x :: t, i => if blank x then inked blank t (i + 1) else i :: inked blank t (i + 1)

/-- How many characters are not blank. -/
def ink (blank : α → Bool) (t : List α) : ℕ := t.countP (!blank ·)

/-- Each piece has the places of its characters, but for a shift of its own. -/
inductive Shifted (blank : α → Bool) : List (List α) → List ℤ → Prop
  | nil : Shifted blank [] []
  | cons {c cs ps} (i : ℤ) : Shifted blank cs ps → Shifted blank (c :: cs) (inked blank c i ++ ps)

variable {blank : α → Bool} {s t g c : List α} {cs cs' : List (List α)} {i j : ℤ}

theorem Blank.nil : Blank blank ([] : List α) := nofun

theorem blank_append : Blank blank (s ++ t) ↔ Blank blank s ∧ Blank blank t :=
  forall_mem_append

theorem Blank.append (hs : Blank blank s) (ht : Blank blank t) : Blank blank (s ++ t) :=
  blank_append.2 ⟨hs, ht⟩

theorem Covers.prepend (hg : Blank blank g) (h : Covers blank t cs) : Covers blank (g ++ t) cs := by
  cases h with
  | nil ht => exact .nil (hg.append ht)
  | cons ht h =>
    rw [← append_assoc, ← append_assoc]
    exact .cons (hg.append ht) h

theorem Covers.piece (h : Covers blank t cs) : Covers blank (c ++ t) (c :: cs) :=
  .cons (g := []) .nil h

theorem Covers.single : Covers blank t [t] := by
  have hnone : Covers blank [] [] := .nil .nil
  simpa using hnone.piece (c := t)

theorem Covers.append (hs : Covers blank s cs) (ht : Covers blank t cs') :
    Covers blank (s ++ t) (cs ++ cs') := by
  induction hs with
  | nil hg => exact ht.prepend hg
  | cons hg _ ih =>
    rw [append_assoc]
    exact .cons hg ih

theorem Covers.append_blank (h : Covers blank t cs) (hg : Blank blank g) :
    Covers blank (t ++ g) cs := by
  simpa using h.append (.nil hg)

theorem covers_flatten (blank : α → Bool) (cs : List (List α)) : Covers blank cs.flatten cs := by
  induction cs with
  | nil => exact .nil .nil
  | cons c cs ih => exact ih.piece

/-- The pieces may be cut further. -/
theorem Covers.flatMap {f : List α → List (List α)} (h : Covers blank t cs)
    (hf : ∀ c ∈ cs, Covers blank c (f c)) : Covers blank t (cs.flatMap f) := by
  induction h with
  | nil hg => exact .nil hg
  | cons hg _ ih =>
    rw [forall_mem_cons] at hf
    rw [flatMap_cons, append_assoc]
    exact (hf.1.append (ih hf.2)).prepend hg

/-! ## Places -/

@[simp] theorem length_inked : (inked blank t i).length = ink blank t := by
  induction t generalizing i with
  | nil => rfl
  | cons x t ih =>
    rw [inked, ink, countP_cons]
    split
    · next h => simp [h, ih, ink]
    · next h => simp [h, ih, ink]

@[simp] theorem ink_append : ink blank (s ++ t) = ink blank s + ink blank t := countP_append

@[simp] theorem ink_nil : ink blank ([] : List α) = 0 := rfl

theorem ink_eq_zero : ink blank t = 0 ↔ Blank blank t := by
  simp [ink, countP_eq_zero, Blank]

theorem inked_append : inked blank (s ++ t) i = inked blank s i ++ inked blank t (i + s.length) := by
  induction s generalizing i with
  | nil => simp [inked]
  | cons x s ih =>
    have hplace : i + 1 + (s.length : ℤ) = i + (x :: s).length := by
      rw [length_cons]
      omega
    rw [cons_append, inked, inked, ih, hplace]
    split <;> rfl

theorem inked_of_blank (h : Blank blank t) : inked blank t i = [] := by
  rw [← length_eq_zero_iff, length_inked, ink_eq_zero]
  exact h

theorem inked_eq_cons (h : ¬Blank blank t) :
    ∃ k l, ∀ i, inked blank t i = (i + k) :: inked blank l (i + k + 1) := by
  induction t with
  | nil => exact absurd .nil h
  | cons x t ih =>
    rcases hx : blank x with _ | _
    · exact ⟨0, t, fun i => by simp [inked, hx]⟩
    · have hrest : ¬Blank blank t := fun ht => h (forall_mem_cons.2 ⟨hx, ht⟩)
      obtain ⟨k, l, hkl⟩ := ih hrest
      refine ⟨k + 1, l, fun i => ?_⟩
      have hplace : i + 1 + k = i + (k + 1) := by omega
      rw [inked, if_pos hx, hkl, hplace]

theorem Covers.shifted (h : Covers blank t cs) (i : ℤ) : Shifted blank cs (inked blank t i) := by
  induction h generalizing i with
  | nil hg =>
    rw [inked_of_blank hg]
    exact .nil
  | cons hg _ ih =>
    rw [append_assoc, inked_append, inked_of_blank hg, inked_append]
    exact .cons _ (ih _)

theorem Shifted.length_eq {ps : List ℤ} (h : Shifted blank cs ps) :
    ps.length = ink blank cs.flatten := by
  induction h with
  | nil => rfl
  | cons i _ ih => simp [ih]

theorem Shifted.exists_append {ps : List ℤ} (h : Shifted blank (cs ++ cs') ps) :
    ∃ qs rs, ps = qs ++ rs ∧ Shifted blank cs qs ∧ Shifted blank cs' rs := by
  induction cs generalizing ps with
  | nil => exact ⟨[], ps, rfl, .nil, h⟩
  | cons c cs ih =>
    cases h with
    | cons i h =>
      obtain ⟨qs, rs, rfl, hqs, hrs⟩ := ih h
      exact ⟨inked blank c i ++ qs, rs, (append_assoc ..).symm, .cons i hqs, hrs⟩

/-- If the first pieces have as many characters as the first part, they are the pieces of it. -/
theorem Shifted.of_append
    (h : Shifted blank (cs ++ cs') (inked blank s i ++ inked blank t j))
    (hink : ink blank cs.flatten = ink blank s) :
    Shifted blank cs (inked blank s i) ∧ Shifted blank cs' (inked blank t j) := by
  obtain ⟨qs, rs, heq, hqs, hrs⟩ := h.exists_append
  obtain ⟨rfl, rfl⟩ := append_inj heq (by rw [length_inked, hqs.length_eq, hink])
  exact ⟨hqs, hrs⟩

end Covers

/-! ## Separators -/

section Split

variable {α : Type}

/-- The parts, with a separator before each. -/
def rejoined (sep : List α) (parts : List (List α)) : List α := parts.flatMap (sep ++ ·)

@[simp] theorem rejoined_nil (sep : List α) : rejoined sep [] = [] := rfl

@[simp] theorem rejoined_cons (sep p : List α) (parts : List (List α)) :
    rejoined sep (p :: parts) = sep ++ p ++ rejoined sep parts := flatMap_cons

variable [DecidableEq α]

/-- The parts of a text between the separators; the next `skip` characters are of a separator. -/
def splitFrom (sep : List α) : ℕ → List α → List (List α)
  | _, [] => [[]]
  | skip + 1, _ :: t => splitFrom sep skip t
  | 0, x :: t =>
    if sep.isPrefixOf (x :: t) then [] :: splitFrom sep (sep.length - 1) t
    else (splitFrom sep 0 t).modifyHead (x :: ·)

/-- `t.split(sep)`, where the separator is not empty. -/
def splitOn (sep t : List α) : List (List α) := splitFrom sep 0 t

theorem splitFrom_eq {sep : List α} (hsep : sep ≠ []) (skip : ℕ) (t : List α) :
    ∃ p parts, splitFrom sep skip t = p :: parts ∧ t.drop skip = p ++ rejoined sep parts := by
  induction t generalizing skip with
  | nil => exact ⟨[], [], by cases skip <;> rfl, by simp⟩
  | cons x t ih =>
    rcases skip with _ | skip
    · rw [splitFrom]
      split
      · next hstart =>
        obtain ⟨p, parts, heq, htext⟩ := ih (sep.length - 1)
        obtain ⟨rest, hrest⟩ := isPrefixOf_iff_prefix.1 hstart
        obtain ⟨y, sep, rfl⟩ := exists_cons_of_ne_nil hsep
        rw [cons_append, List.cons.injEq] at hrest
        obtain ⟨rfl, rfl⟩ := hrest
        rw [length_cons, Nat.add_sub_cancel, drop_left] at htext
        refine ⟨[], p :: parts, by rw [heq], ?_⟩
        rw [htext, drop_zero, rejoined_cons]
        simp
      · obtain ⟨p, parts, heq, htext⟩ := ih 0
        refine ⟨x :: p, parts, by rw [heq]; rfl, ?_⟩
        rw [drop_zero] at htext ⊢
        rw [htext, cons_append]
    · exact ih skip

/-- Joined again, the parts are the text. -/
theorem splitOn_eq {sep : List α} (hsep : sep ≠ []) (t : List α) :
    ∃ p parts, splitOn sep t = p :: parts ∧ t = p ++ rejoined sep parts :=
  splitFrom_eq hsep 0 t

end Split

end Gnldev
