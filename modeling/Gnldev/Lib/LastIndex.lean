import Mathlib.Data.List.Basic

/-!
# Where a list occurs last

A list can be cut at the last place where another one occurs in it (`lastIndexOf`). It occurs
there, and nowhere after (`lastIndexOf_eq_some_iff`); so a text that ends in a part that it does
not occur in is cut before that part (`lastIndexOf_append`).
-/

open List

namespace Gnldev

namespace List

variable {A : Type} [DecidableEq A]

/-- `s.lastIndexOf(p)`. -/
def lastIndexOf (p : List A) : List A → Option ℕ
  | [] => if p = [] then some 0 else none
  | a :: s =>
    match lastIndexOf p s with
    | some i => some (i + 1)
    | none => if p <+: a :: s then some 0 else none

variable {p s : List A}

theorem lastIndexOf_eq_none_iff : lastIndexOf p s = none ↔ ¬p <:+: s := by
  induction s with
  | nil => simp [lastIndexOf]
  | cons a s ih =>
    rw [lastIndexOf, infix_cons_iff, not_or, ← ih]
    rcases lastIndexOf p s with _ | i
    · simp
    · simp

/-- It occurs there, and nowhere after. -/
theorem lastIndexOf_eq_some_iff {i : ℕ} :
    lastIndexOf p s = some i ↔
      i ≤ s.length ∧ p <+: s.drop i ∧ (i < s.length → ¬p <:+: s.drop (i + 1)) := by
  induction s generalizing i with
  | nil =>
    rw [lastIndexOf]
    constructor
    · intro h
      split at h
      · next hp =>
        obtain rfl := Option.some.inj h
        exact ⟨Nat.le_refl _, by simp [hp], fun h => absurd h (Nat.lt_irrefl _)⟩
      · contradiction
    · rintro ⟨hi, hp, -⟩
      obtain rfl := Nat.le_zero.1 hi
      simpa using hp
  | cons a s ih =>
    rw [lastIndexOf]
    rcases h : lastIndexOf p s with _ | j
    · have hno := lastIndexOf_eq_none_iff.1 h
      dsimp only
      constructor
      · intro hi
        split at hi
        · next hp =>
          obtain rfl := Option.some.inj hi
          exact ⟨Nat.zero_le _, hp, fun _ => hno⟩
        · contradiction
      · rintro ⟨hi, hp, hlast⟩
        rcases i with _ | i
        · exact if_pos hp
        · refine absurd ?_ hno
          exact hp.isInfix.trans (drop_suffix i s).isInfix
    · obtain ⟨hj, hp, hlast⟩ := ih.1 h
      dsimp only
      constructor
      · intro hi
        obtain rfl := Option.some.inj hi
        exact ⟨Nat.succ_le_succ hj, hp, fun hlt => hlast (Nat.lt_of_succ_lt_succ hlt)⟩
      · rintro ⟨hi, hpi, hlasti⟩
        rcases i with _ | i
        · refine absurd ?_ (hlasti (Nat.succ_pos _))
          exact hp.isInfix.trans (drop_suffix j s).isInfix
        · rw [(ih.2 ⟨Nat.le_of_succ_le_succ hi, hpi,
            fun hlt => hlasti (Nat.succ_lt_succ hlt)⟩).symm.trans h |> Option.some.inj]

variable {a : A} {t : List A}

omit [DecidableEq A] in
/-- What begins with a letter that a text does not have, occurs after the text. -/
theorem infix_of_notMem (ha : a ∉ s) (h : a :: p <:+: s ++ t) :
    a :: p <:+: t := by
  induction s with
  | nil => exact h
  | cons b s ih =>
    rw [mem_cons, not_or] at ha
    obtain ⟨hb, hs⟩ := ha
    rw [cons_append, infix_cons_iff] at h
    exact ih hs (h.resolve_left fun hp => hb (cons_prefix_cons.1 hp).1)

/-- A text is cut before a part in which the list does not occur again. -/
theorem lastIndexOf_append (s : List A) (h : ¬a :: p <:+: p ++ t) :
    lastIndexOf (a :: p) (s ++ a :: p ++ t) = some s.length := by
  refine lastIndexOf_eq_some_iff.2 ⟨?_, ?_, fun _ => ?_⟩
  · simp
  · rw [append_assoc, drop_left]
    exact prefix_append ..
  · rw [append_assoc, ← drop_drop, drop_left]
    exact h

/-- It occurs in a text only before a part in which it does not. -/
theorem lastIndexOf_le {i : ℕ} (h : ¬p <:+: t) (hi : lastIndexOf p (s ++ a :: t) = some i) :
    i ≤ s.length := by
  obtain ⟨-, hp, -⟩ := lastIndexOf_eq_some_iff.1 hi
  by_contra hlt
  rw [Nat.not_le] at hlt
  obtain ⟨k, rfl⟩ := Nat.exists_eq_add_of_lt hlt
  refine h (hp.isInfix.trans ?_)
  rw [Nat.add_assoc, ← drop_drop, drop_left]
  exact (drop_suffix k t).isInfix

end List

end Gnldev
