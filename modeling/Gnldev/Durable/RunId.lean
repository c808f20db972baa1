import Gnldev.Lib.JsString

/-!
# Derived run ids

The ids the engine gives to runs (`hash.ts`): `run1_` and a digest of 32 hexadecimal
digits, then at most one suffix, which says which execution, replay or fork of the
work it is. An id outside of this namespace is *raw*: it is the caller's.

Numbers are exact here.
-/

namespace Gnldev.Durable

/-- A decimal digit. -/
def isDigit (u : UInt16) : Bool := 48 ≤ u ∧ u ≤ 57

/-- A lower-case hexadecimal digit. -/
def isHexLower (u : UInt16) : Bool := isDigit u ∨ (97 ≤ u ∧ u ≤ 102)

/-- The digits of a number: `String(n)`. -/
def decimal (n : ℕ) : JsString := (Nat.toDigits 10 n).flatMap JsString.utf16

/-- The number with the given digits: `Number(s)`. -/
def numberOf (s : JsString) : ℕ := s.foldl (fun n u => 10 * n + (u.toNat - 48)) 0

/-- What follows a prefix. -/
def afterPrefix (p s : JsString) : Option JsString :=
  if s.startsWith p then some (s.drop p.length) else none

/-- What a derived id says about itself. -/
structure DerivedRunIdParts where
  digest : JsString
  /-- From the second execution on. -/
  execution : Option ℕ
  replaySeq : Option ℕ
  fork : Option ℕ
  deriving DecidableEq

def DERIVED_RUN_ID_PREFIX : JsString := js "run1_"

/-- A number without leading zeros that is at least two: `[2-9]\d*|[1-9]\d+`. -/
def isExecutionNumber : JsString → Bool
  | [] => false
  | [u] => 50 ≤ u && isDigit u
  | u :: s => 49 ≤ u && isDigit u && s.all isDigit

/-- A positive number without leading zeros: `[1-9]\d*`. -/
def isPositiveNumber : JsString → Bool
  | [] => false
  | u :: s => 49 ≤ u && isDigit u && s.all isDigit

/-- The suffix of a derived id. -/
def parseAxis (digest : JsString) (suffix : JsString) : Option DerivedRunIdParts :=
  match afterPrefix (js "#") suffix with
  | none => if suffix = [] then some ⟨digest, none, none, none⟩ else none
  | some axis =>
    if isExecutionNumber axis then some ⟨digest, some (numberOf axis), none, none⟩
    else match afterPrefix (js "replay-") axis, afterPrefix (js "fork-") axis with
      | some seq, _ =>
        if seq = js "0" ∨ isPositiveNumber seq then some ⟨digest, none, some (numberOf seq), none⟩
        else none
      | none, some fork =>
        if isPositiveNumber fork then some ⟨digest, none, none, some (numberOf fork)⟩ else none
      | none, none => none

/-- Read a derived id, and nothing else. -/
def parseDerivedRunId (runId : JsString) : Option DerivedRunIdParts :=
  match afterPrefix DERIVED_RUN_ID_PREFIX runId with
  | none => none
  | some rest =>
    let digest := rest.take 32
    if digest.length = 32 ∧ digest.all isHexLower then parseAxis digest (rest.drop 32) else none

def isDerivedRunId (runId : JsString) : Bool := (parseDerivedRunId runId).isSome

/-- The id of the first execution of the work of a derived id. -/
def derivedRunIdBase (runId : JsString) : Option JsString :=
  (parseDerivedRunId runId).map fun parts => DERIVED_RUN_ID_PREFIX ++ parts.digest

/-- Why no id is made. -/
inductive RunIdError where
  /-- The base has a suffix already. -/
  | suffixed
  | notDerived
  | badNumber
  deriving DecidableEq

/-- The id of the execution `n` of the work of a base. -/
def executionRunId (base : JsString) (n : ℕ) : Except RunIdError JsString :=
  if 35 ∈ base then .error .suffixed
  else if !isDerivedRunId base then .error .notDerived
  else if n < 2 then .error .badNumber
  else .ok (base ++ js "#" ++ decimal n)

/-- The id of the fork `n` of the work of a base. -/
def forkRunId (base : JsString) (n : ℕ) : Except RunIdError JsString :=
  if 35 ∈ base then .error .suffixed
  else if !isDerivedRunId base then .error .notDerived
  else if n < 1 then .error .badNumber
  else .ok (base ++ js "#fork-" ++ decimal n)

theorem isDigit_of_mem_decimal {n : ℕ} {u : UInt16} (h : u ∈ decimal n) : isDigit u = true := by
  obtain ⟨c, hc, hu⟩ := List.mem_flatMap.1 h
  have hdigit := Nat.isDigit_of_mem_toDigits (by omega) (by omega) hc
  have hc : 48 ≤ c.toNat ∧ c.toNat ≤ 57 := by
    simpa [Char.isDigit, UInt32.le_iff_toNat_le] using hdigit
  rw [JsString.utf16, if_pos (by omega), List.mem_singleton] at hu
  have hlt : c.toNat % 2 ^ 16 = c.toNat := Nat.mod_eq_of_lt (by omega)
  rw [hu, isDigit, decide_eq_true_eq, UInt16.le_iff_toNat_le, UInt16.le_iff_toNat_le,
    UInt16.toNat_ofNat', hlt]
  exact hc

/-- The digits before the last one, and the last one. -/
theorem decimal_append (n : ℕ) (h : 10 ≤ n) :
    decimal n = decimal (n / 10) ++ decimal (n % 10) := by
  rw [decimal, Nat.toDigits_of_base_le (by omega) h, List.flatMap_append, decimal, decimal,
    Nat.toDigits_of_lt_base (Nat.mod_lt n (by omega))]

theorem numberOf_decimal (n : ℕ) : numberOf (decimal n) = n := by
  induction n using Nat.strongRecOn with
  | ind n ih =>
    have hsmall : ∀ d < 10, numberOf (decimal d) = d := by decide
    by_cases h : n < 10
    · exact hsmall n h
    · have hlast : ∀ d < 10, decimal d = [UInt16.ofNat (48 + d)] := by decide
      have hdigit : ∀ d < 10, (UInt16.ofNat (48 + d)).toNat - 48 = d := by decide
      have hd : n % 10 < 10 := Nat.mod_lt n (by omega)
      have hrest : (decimal (n / 10)).foldl (fun n u => 10 * n + (u.toNat - 48)) 0 = n / 10 :=
        ih (n / 10) (Nat.div_lt_self (by omega) (by omega))
      rw [decimal_append n (by omega), hlast _ hd, numberOf, List.foldl_append, hrest,
        List.foldl_cons, List.foldl_nil, hdigit _ hd]
      omega

theorem decimal_inj {m n : ℕ} (h : decimal m = decimal n) : m = n := by
  rw [← numberOf_decimal m, h, numberOf_decimal]

theorem decimal_ne_nil (n : ℕ) : decimal n ≠ [] := by
  intro h
  obtain ⟨c, hc⟩ := List.exists_mem_of_ne_nil _ (Nat.toDigits_ne_nil (n := n) (b := 10))
  have hempty : JsString.utf16 c = [] := List.flatMap_eq_nil_iff.1 h c hc
  rw [JsString.utf16] at hempty
  split at hempty <;> contradiction

theorem digest_of_parseAxis {digest suffix : JsString} {parts : DerivedRunIdParts}
    (h : parseAxis digest suffix = some parts) : parts.digest = digest := by
  unfold parseAxis at h
  grind

/-- The base of a derived id is the prefix and the digits of a digest. -/
theorem derivedRunIdBase_eq {runId base : JsString} (h : derivedRunIdBase runId = some base) :
    ∃ digest : JsString, base = DERIVED_RUN_ID_PREFIX ++ digest ∧ digest.all isHexLower := by
  obtain ⟨parts, hparts, rfl⟩ := Option.map_eq_some_iff.1 h
  refine ⟨parts.digest, rfl, ?_⟩
  unfold parseDerivedRunId at hparts
  split at hparts
  · contradiction
  · next rest _ =>
    by_cases hd : (rest.take 32).length = 32 ∧ (rest.take 32).all isHexLower = true
    · rw [if_pos hd] at hparts
      rw [digest_of_parseAxis hparts]
      exact hd.2
    · rw [if_neg hd] at hparts
      contradiction

end Gnldev.Durable
