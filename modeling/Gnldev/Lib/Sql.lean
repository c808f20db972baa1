import Mathlib.Data.List.Basic

/-!
# Conditions with NULL

A condition of a `WHERE` is true, false or NULL, and a row is taken when it is true. A comparison
with NULL is NULL, so a negated comparison does not take the rows that the comparison leaves
(`holds_differs`); the connectives take a row as their parts do (`holds_or`, `holds_conj`).
-/

namespace Gnldev

/-- What a condition comes to. -/
abbrev Truth := Option Bool

namespace Sql

variable {α ρ : Type} [DecidableEq α]

/-- A row is taken. -/
def holds (t : Truth) : Bool := t = some true

/-- `a = b`. -/
def equals (a b : Option α) : Truth :=
  match a, b with
  | some x, some y => some (x = y)
  | _, _ => none

/-- `a <> b`. -/
def differs (a b : Option α) : Truth := (equals a b).map not

/-- `a IS b`. -/
def is (a b : Option α) : Truth := some (a = b)

/-- `s OR t`. -/
def or (s t : Truth) : Truth :=
  match s, t with
  | some true, _ | _, some true => some true
  | some false, some false => some false
  | _, _ => none

/-- `s AND t`. -/
def and (s t : Truth) : Truth :=
  match s, t with
  | some false, _ | _, some false => some false
  | some true, some true => some true
  | _, _ => none

/-- `a IN (l)`. -/
def inList (a : Option α) (l : List α) : Truth :=
  l.foldr (fun x t => or (equals a (some x)) t) (some false)

/-- Conditions, joined by `AND`. -/
def conj (conds : List (ρ → Truth)) (r : ρ) : Truth :=
  conds.foldr (fun c t => and (c r) t) (some true)

@[simp] theorem holds_or (s t : Truth) : holds (or s t) = (holds s || holds t) := by
  rcases s with _ | _ | _ <;> rcases t with _ | _ | _ <;> rfl

@[simp] theorem holds_and (s t : Truth) : holds (and s t) = (holds s && holds t) := by
  rcases s with _ | _ | _ <;> rcases t with _ | _ | _ <;> rfl

@[simp] theorem holds_is (a b : Option α) : holds (is a b) = decide (a = b) := by
  by_cases h : a = b <;> simp [holds, is, h]

@[simp] theorem holds_equals (a : Option α) (y : α) :
    holds (equals a (some y)) = decide (a = some y) := by
  rcases a with _ | x
  · rfl
  · by_cases h : x = y <;> simp [holds, equals, h]

/-- A NULL differs from nothing. -/
@[simp] theorem holds_differs (a : Option α) (y : α) :
    holds (differs a (some y)) = a.any fun x => x ≠ y := by
  rcases a with _ | x
  · rfl
  · by_cases h : x = y <;> simp [holds, differs, equals, h]

@[simp] theorem holds_inList (a : Option α) (l : List α) :
    holds (inList a l) = l.any fun x => a = some x := by
  induction l with
  | nil => rfl
  | cons x l ih =>
    rw [inList, List.foldr_cons, holds_or, holds_equals, List.any_cons]
    exact congrArg _ ih

theorem holds_inList_some (x : α) (l : List α) : holds (inList (some x) l) = decide (x ∈ l) := by
  rw [holds_inList, Bool.eq_iff_iff, List.any_eq_true, decide_eq_true_eq]
  constructor
  · rintro ⟨y, hy, heq⟩
    rwa [Option.some.inj (of_decide_eq_true heq)]
  · exact fun h => ⟨x, h, decide_eq_true rfl⟩

@[simp] theorem holds_conj (conds : List (ρ → Truth)) (r : ρ) :
    holds (conj conds r) = conds.all fun c => holds (c r) := by
  induction conds with
  | nil => rfl
  | cons c conds ih =>
    rw [conj, List.foldr_cons, holds_and, List.all_cons]
    exact congrArg _ ih

end Sql

end Gnldev
