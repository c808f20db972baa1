import Mathlib.Algebra.Group.Nat.Defs
import Mathlib.Data.Nat.Log
import Mathlib.Order.WithBot

/-!
# Whole numbers as doubles

A number is rounded to 53 binary digits, to the even one of two that are as near
(`rounded`), and what is too large is infinite (`toDouble`).

* `toDouble_inj`, `exists_toDouble_eq`: which numbers no other one is read as;
* `toDouble_shortest`: the shortest decimal digits that are read as a double.
-/

namespace Gnldev

/-- A number with 53 binary digits, the nearest one. -/
def rounded (n : ℕ) : ℕ :=
  let e := n.log2 - 52
  let q := n / 2 ^ e
  let r := n % 2 ^ e
  (if 2 * r < 2 ^ e ∨ (2 * r = 2 ^ e ∧ q % 2 = 0) then q else q + 1) * 2 ^ e

/-- `2 ^ 1024`, above every finite double. -/
def DOUBLE_LIMIT : ℕ := (2 ^ 128) ^ 8

/-- The double that a number is read as. -/
def toDouble (n : ℕ) : WithTop ℕ := if rounded n < DOUBLE_LIMIT then .some (rounded n) else ⊤

/-- A whole number that is a double. -/
structure Double where
  val : ℕ
  exact : toDouble val = .some val

theorem exists_binary (n : ℕ) : ∃ q e r, n = q * 2 ^ e + r ∧ r < 2 ^ e ∧ q < 2 ^ 53 ∧
    (2 ^ 52 ≤ q ∨ e = 0) := by
  by_cases hn : n = 0
  · exact ⟨0, 0, 0, by simp [hn]⟩
  have hpos : 0 < 2 ^ (n.log2 - 52) := Nat.two_pow_pos _
  refine ⟨n / 2 ^ (n.log2 - 52), n.log2 - 52, n % 2 ^ (n.log2 - 52), (Nat.div_add_mod' ..).symm,
    Nat.mod_lt _ hpos, ?_, ?_⟩
  · rw [Nat.div_lt_iff_lt_mul hpos, ← Nat.pow_add]
    exact (Nat.log2_lt hn).1 (by omega)
  · by_cases he : n.log2 - 52 = 0
    · exact .inr he
    · left
      rw [Nat.le_div_iff_mul_le hpos, ← Nat.pow_add]
      exact (Nat.le_log2 hn).1 (by omega)

theorem rounded_binary {q e r : ℕ} (hr : r < 2 ^ e) (hq : q < 2 ^ 53) (hq' : 2 ^ 52 ≤ q ∨ e = 0) :
    rounded (q * 2 ^ e + r) =
      (if 2 * r < 2 ^ e ∨ (2 * r = 2 ^ e ∧ q % 2 = 0) then q else q + 1) * 2 ^ e := by
  have hpos : 0 < 2 ^ e := Nat.two_pow_pos e
  have hlog : (q * 2 ^ e + r).log2 - 52 = e := by
    by_cases hn : q * 2 ^ e + r = 0
    · rcases hq' with hq' | rfl
      · have := Nat.mul_le_mul_right (2 ^ e) hq'
        omega
      · rw [hn]
        decide
    · have hlt : (q * 2 ^ e + r).log2 < 53 + e := by
        rw [Nat.log2_lt hn, Nat.pow_add]
        calc q * 2 ^ e + r < (q + 1) * 2 ^ e := by rw [Nat.add_mul, Nat.one_mul]; omega
          _ ≤ 2 ^ 53 * 2 ^ e := Nat.mul_le_mul_right _ hq
      rcases hq' with hq' | rfl
      · have hle : 52 + e ≤ (q * 2 ^ e + r).log2 := by
          rw [Nat.le_log2 hn, Nat.pow_add]
          exact (Nat.mul_le_mul_right _ hq').trans (Nat.le_add_right _ _)
        omega
      · omega
  unfold rounded
  dsimp only
  rw [hlog, Nat.add_comm, Nat.add_mul_div_right _ _ hpos, Nat.div_eq_of_lt hr, Nat.zero_add,
    Nat.add_mul_mod_self_right, Nat.mod_eq_of_lt hr]

theorem rounded_exact {q e : ℕ} (hq : q < 2 ^ 53) (hq' : 2 ^ 52 ≤ q ∨ e = 0) :
    rounded (q * 2 ^ e) = q * 2 ^ e := by
  have hpos : 0 < 2 ^ e := Nat.two_pow_pos e
  have h := rounded_binary (r := 0) hpos hq hq'
  rwa [if_pos (.inl (by omega)), Nat.add_zero] at h

theorem rounded_of_lt {n : ℕ} (h : n < 2 ^ 53) : rounded n = n := by
  have hexact := rounded_exact (e := 0) h (.inr rfl)
  rwa [Nat.pow_zero, Nat.mul_one] at hexact

theorem rounded_rounded (n : ℕ) : rounded (rounded n) = rounded n := by
  obtain ⟨q, e, r, rfl, hr, hq, hq'⟩ := exists_binary n
  rw [rounded_binary hr hq hq']
  split
  · exact rounded_exact hq hq'
  · by_cases hup : q + 1 < 2 ^ 53
    · exact rounded_exact hup (hq'.imp_left (by omega))
    · -- One digit more, of which the last is 0.
      obtain rfl : q = 2 ^ 53 - 1 := by omega
      have hexact := rounded_exact (q := 2 ^ 52) (e := e + 1) (by decide) (.inl le_rfl)
      have hsame : (2 ^ 53 - 1 + 1) * 2 ^ e = 2 ^ 52 * 2 ^ (e + 1) := by
        rw [Nat.pow_succ' (n := e)]
        omega
      rwa [hsame]

theorem le_rounded {n k : ℕ} (hk : 1 ≤ k) (h : 2 ^ (52 + k) ≤ n) : 2 ^ (52 + k) ≤ rounded n := by
  obtain ⟨q, e, r, rfl, hr, hq, hq'⟩ := exists_binary n
  have hlt : 2 ^ (52 + k) < 2 ^ (53 + e) :=
    calc 2 ^ (52 + k) ≤ q * 2 ^ e + r := h
      _ < (q + 1) * 2 ^ e := by rw [Nat.add_mul, Nat.one_mul]; omega
      _ ≤ 2 ^ 53 * 2 ^ e := Nat.mul_le_mul_right _ hq
      _ = 2 ^ (53 + e) := (Nat.pow_add ..).symm
  have hke : k ≤ e := by
    have := (Nat.pow_lt_pow_iff_right (by decide : 1 < 2)).1 hlt
    omega
  have hq'' : 2 ^ 52 ≤ q := hq'.resolve_right (by omega)
  rw [rounded_binary hr hq hq', Nat.pow_add]
  exact Nat.mul_le_mul (by split <;> omega) (Nat.pow_le_pow_right (by decide) hke)

/-- The numbers that no other one is read as. -/
def ReadAlone (n : ℕ) : Prop := n < 2 ^ 53 ∨ (n < 2 ^ 54 ∧ n % 4 = 2)

theorem ReadAlone.rounded_eq {n : ℕ} (h : ReadAlone n) : rounded n = n := by
  rcases h with h | ⟨h, hmod⟩
  · exact rounded_of_lt h
  · by_cases hsmall : n < 2 ^ 53
    · exact rounded_of_lt hsmall
    · have hexact := rounded_exact (q := n / 2) (e := 1) (by omega) (.inl (by omega))
      rwa [Nat.pow_one, show n / 2 * 2 = n by omega] at hexact

theorem ReadAlone.toDouble_eq {n : ℕ} (h : ReadAlone n) : toDouble n = .some n := by
  have hn : n < 2 ^ 54 := h.elim (fun h => h.trans (by decide)) And.left
  rw [toDouble, h.rounded_eq, if_pos (hn.trans (by decide))]

theorem rounded_of_toDouble {m n : ℕ} (h : toDouble m = .some n) : rounded m = n := by
  rw [toDouble] at h
  split at h
  · exact WithTop.coe_injective h
  · exact absurd h WithTop.top_ne_coe

theorem toDouble_inj {m n : ℕ} (hn : ReadAlone n) (h : toDouble m = toDouble n) : m = n := by
  have hm : rounded m = n := rounded_of_toDouble (h.trans hn.toDouble_eq)
  by_cases hsmall : m < 2 ^ 53
  · rwa [rounded_of_lt hsmall] at hm
  have hbig : 2 ^ 53 ≤ rounded m := le_rounded (k := 1) le_rfl (not_lt.1 hsmall)
  have hlt : m < 2 ^ 54 := by
    by_contra hlarge
    have := le_rounded (n := m) (k := 2) (by decide) (not_lt.1 hlarge)
    rcases hn with hn | hn <;> omega
  -- Numbers in between go to a multiple of 4.
  have hbinary := rounded_binary (q := m / 2) (e := 1) (r := m % 2) (by omega) (by omega)
    (.inl (by omega))
  rw [Nat.pow_one, Nat.div_add_mod', hm] at hbinary
  rcases hn with hn | ⟨-, hmod⟩
  · omega
  · split at hbinary <;> omega

theorem exists_toDouble_eq {n : ℕ} (h : ¬ReadAlone n) : ∃ m ≠ n, 2 ≤ m ∧ toDouble m = toDouble n := by
  have hn : 2 ^ 53 ≤ n := not_lt.1 fun hlt => h (.inl hlt)
  by_cases hexact : rounded n = n
  · refine ⟨n + 1, by omega, by omega, ?_⟩
    obtain ⟨q, e, r, rfl, hr, hq, hq'⟩ := exists_binary n
    have he : e ≠ 0 := by
      rintro rfl
      omega
    have hr0 : r = 0 := by
      rw [rounded_binary hr hq hq'] at hexact
      split at hexact
      · omega
      · rw [Nat.add_mul, Nat.one_mul] at hexact
        omega
    subst hr0
    have hpow : 2 ^ e = 2 ∨ 4 ≤ 2 ^ e := by
      obtain rfl | he : e = 1 ∨ 2 ≤ e := by omega
      · exact .inl rfl
      · exact .inr (Nat.pow_le_pow_right (by decide : 2 > 0) he)
    have hdown : 2 * 1 < 2 ^ e ∨ (2 * 1 = 2 ^ e ∧ q % 2 = 0) := by
      rcases hpow with hpow | hpow
      · refine .inr ⟨hpow.symm, ?_⟩
        rw [ReadAlone, hpow] at h
        omega
      · exact .inl (by omega)
    have hround : rounded (q * 2 ^ e + 1) = rounded (q * 2 ^ e + 0) := by
      rw [rounded_binary (by omega : 1 < 2 ^ e) hq hq', if_pos hdown, Nat.add_zero, rounded_exact hq hq']
    rw [toDouble, toDouble, ← hround]
  · have hle : 2 ^ 53 ≤ rounded n := le_rounded (k := 1) le_rfl hn
    refine ⟨rounded n, hexact, by omega, ?_⟩
    rw [toDouble, toDouble, rounded_rounded]

/-! ## The shortest digits -/

/-- The number that is read as `x` with the most zeros at its end, at most `p`, the nearest one. -/
def shortestFrom (x : ℕ) : ℕ → ℕ
  | 0 => x
  | p + 1 =>
    let s := x / 10 ^ (p + 1)
    let lo := s * 10 ^ (p + 1)
    let hi := (s + 1) * 10 ^ (p + 1)
    if toDouble lo = .some x ∧ toDouble hi = .some x then
      if 2 * x < lo + hi ∨ (2 * x = lo + hi ∧ s % 2 = 0) then lo else hi
    else if toDouble lo = .some x then lo
    else if toDouble hi = .some x then hi
    else shortestFrom x p

/-- The number whose digits are written for `x`, zeros at the end apart. -/
def shortest (x : ℕ) : ℕ := shortestFrom x (Nat.log 10 x)

theorem toDouble_shortest (x : Double) : toDouble (shortest x.val) = .some x.val := by
  have h : ∀ p, toDouble (shortestFrom x.val p) = .some x.val := by
    intro p
    induction p with
    | zero => exact x.exact
    | succ p ih =>
      rw [shortestFrom]
      split
      · next hboth =>
        split
        · exact hboth.1
        · exact hboth.2
      · split
        · next hlo => exact hlo
        · split
          · next hhi => exact hhi
          · exact ih
  exact h _

end Gnldev
