import Gnldev.Durable.RunKeys
import Gnldev.Lib.Double

/-!
# How derived run ids are spelled

The numbers of derived run ids are doubles, written by `String` and read back by
`Number`. What is read back is what was written if the number is below `10 ^ 21`; from
there on an exponent is written, which nothing accepts. And some spellings that are
accepted are read alike: those of a number that is not `ReadAlone`.

* `parseDerivedRunId_eq_some_iff`: which ids are accepted, by their `Suffix`;
* `derivedRunId_reads_back`.
-/

open List

namespace Gnldev.Durable

/-! ## The source's numbers -/

/-- `String(n)`. -/
def numberToString (x : ℕ) : JsString :=
  let digits := decimal (shortest x)
  if x < 10 ^ 21 then digits
  else
    let s := (digits.reverse.dropWhile (· = 48)).reverse
    s.take 1 ++ (if s.length = 1 then [] else js "." ++ s.drop 1) ++ js "e+" ++
      decimal (digits.length - 1)

/-- What an id says, in numbers. -/
structure ReadParts where
  digest : JsString
  execution : Option (WithTop ℕ)
  replaySeq : Option (WithTop ℕ)
  fork : Option (WithTop ℕ)
  deriving DecidableEq

/-- Each of the digits by `Number`. -/
def DerivedRunIdParts.numbers (parts : DerivedRunIdParts) : ReadParts :=
  ⟨parts.digest, parts.execution.map toDouble, parts.replaySeq.map toDouble,
    parts.fork.map toDouble⟩

/-- `parseDerivedRunId(runId)`. -/
def readDerivedRunId (runId : JsString) : Option ReadParts :=
  (parseDerivedRunId runId).map DerivedRunIdParts.numbers

/-- `executionRunId(base, n)`, for a whole number `n`. -/
def writeExecutionRunId (base : JsString) (n : Double) : Except RunIdError JsString :=
  if 35 ∈ base then .error .suffixed
  else if !isDerivedRunId base then .error .notDerived
  else if n.val < 2 then .error .badNumber
  else .ok (base ++ js "#" ++ numberToString n.val)

/-- `forkRunId(base, n)`, for a whole number `n`. -/
def writeForkRunId (base : JsString) (n : Double) : Except RunIdError JsString :=
  if 35 ∈ base then .error .suffixed
  else if !isDerivedRunId base then .error .notDerived
  else if n.val < 1 then .error .badNumber
  else .ok (base ++ js "#fork-" ++ numberToString n.val)

/-! ## Decimal digits -/

theorem isExecutionNumber_iff {w : JsString} :
    isExecutionNumber w = true ↔ isPositiveNumber w = true ∧ w ≠ js "1" := by
  rcases w with _ | ⟨u, _ | ⟨v, w⟩⟩
  · simp [isExecutionNumber, isPositiveNumber]
  · have hone : js "1" = [49] := by decide
    simp only [isExecutionNumber, isPositiveNumber, hone, isDigit, all_nil, Bool.and_eq_true,
      decide_eq_true_eq, ne_eq, List.cons.injEq, and_true, UInt16.le_iff_toNat_le,
      ← UInt16.toNat_inj]
    have h49 : (49 : UInt16).toNat = 49 := rfl
    have h50 : (50 : UInt16).toNat = 50 := rfl
    omega
  · have hone : js "1" = [49] := by decide
    simp [isExecutionNumber, isPositiveNumber, hone]

variable {s : JsString}

theorem isPositiveNumber_append {t : JsString} (hs : isPositiveNumber s = true)
    (ht : t.all isDigit = true) : isPositiveNumber (s ++ t) = true := by
  cases s with
  | nil => cases hs
  | cons u s =>
    simp only [cons_append, isPositiveNumber, all_append, Bool.and_eq_true] at hs ⊢
    exact ⟨hs.1, hs.2, ht⟩

theorem isPositiveNumber_decimal {n : ℕ} (h : 1 ≤ n) : isPositiveNumber (decimal n) = true := by
  induction n using Nat.strongRecOn with
  | ind n ih =>
    have hsmall : ∀ d < 10, 1 ≤ d → isPositiveNumber (decimal d) = true := by decide
    by_cases hn : n < 10
    · exact hsmall n hn h
    · rw [decimal_append n (by omega)]
      refine isPositiveNumber_append (ih (n / 10) (by omega) (by omega)) ?_
      exact all_eq_true.2 fun u hu => isDigit_of_mem_decimal hu

theorem isExecutionNumber_decimal {n : ℕ} (h : 2 ≤ n) : isExecutionNumber (decimal n) = true := by
  refine isExecutionNumber_iff.2 ⟨isPositiveNumber_decimal (by omega), fun hone => ?_⟩
  have hn := congrArg numberOf hone
  rw [numberOf_decimal, show numberOf (js "1") = 1 by decide] at hn
  omega

/-- Digits without zeros at the beginning are those of their number. -/
theorem decimal_numberOf {w : JsString} (h : isPositiveNumber w = true) :
    decimal (numberOf w) = w ∧ 1 ≤ numberOf w := by
  induction w using List.reverseRecOn with
  | nil => cases h
  | append_singleton s u ih =>
    have hdigit : isDigit u = true := by
      cases s with
      | nil =>
        rw [nil_append, isPositiveNumber, Bool.and_eq_true, Bool.and_eq_true] at h
        exact h.1.2
      | cons v s =>
        rw [cons_append, isPositiveNumber, all_append] at h
        simp only [Bool.and_eq_true, all_cons] at h
        exact h.2.2.1
    have hu : 48 ≤ u.toNat ∧ u.toNat ≤ 57 := by
      simpa [isDigit, UInt16.le_iff_toNat_le] using hdigit
    have hlast : decimal (u.toNat - 48) = [u] := by
      have hsmall : ∀ d < 10, decimal d = [UInt16.ofNat (48 + d)] := by decide
      rw [hsmall _ (by omega), show 48 + (u.toNat - 48) = u.toNat by omega, UInt16.ofNat_toNat]
    have hnumber : numberOf (s ++ [u]) = 10 * numberOf s + (u.toNat - 48) := by
      rw [numberOf, foldl_append]
      rfl
    rw [hnumber]
    cases s with
    | nil =>
      refine ⟨(congrArg decimal (Nat.zero_add _)).trans hlast, ?_⟩
      rw [nil_append, isPositiveNumber, Bool.and_eq_true, Bool.and_eq_true] at h
      have h49 : 49 ≤ u.toNat := by simpa [UInt16.le_iff_toNat_le] using h.1.1
      omega
    | cons v s =>
      have hs : isPositiveNumber (v :: s) = true := by
        rw [cons_append, isPositiveNumber, all_append] at h
        rw [isPositiveNumber]
        simp only [Bool.and_eq_true] at h ⊢
        exact ⟨h.1, h.2.1⟩
      obtain ⟨hdigits, hpos⟩ := ih hs
      refine ⟨?_, by omega⟩
      rw [decimal_append _ (by omega), show (10 * numberOf (v :: s) + (u.toNat - 48)) / 10 =
        numberOf (v :: s) by omega, show (10 * numberOf (v :: s) + (u.toNat - 48)) % 10 =
        u.toNat - 48 by omega, hdigits, hlast]

/-! ## Suffixes -/

/-- The suffix of an id, with its number. -/
inductive Suffix where
  | bare
  | execution (n : ℕ)
  | replay (n : ℕ)
  | fork (n : ℕ)

namespace Suffix

/-- The numbers that are accepted. -/
def Valid : Suffix → Prop
  | execution n => 2 ≤ n
  | fork n => 1 ≤ n
  | _ => True

def text : Suffix → JsString
  | bare => []
  | execution n => js "#" ++ decimal n
  | replay n => js "#" ++ (js "replay-" ++ decimal n)
  | fork n => js "#" ++ (js "fork-" ++ decimal n)

def parts (digest : JsString) : Suffix → DerivedRunIdParts
  | bare => ⟨digest, none, none, none⟩
  | execution n => ⟨digest, some n, none, none⟩
  | replay n => ⟨digest, none, some n, none⟩
  | fork n => ⟨digest, none, none, some n⟩

end Suffix

/-- The number that the suffix of an id spells. -/
def DerivedRunIdParts.number (parts : DerivedRunIdParts) : Option ℕ :=
  parts.execution.or (parts.replaySeq.or parts.fork)

/-- 32 hexadecimal digits. -/
def IsDigest (digest : JsString) : Prop := digest.length = 32 ∧ digest.all isHexLower

variable {digest : JsString}

theorem parseAxis_text {x : Suffix} (hx : x.Valid) :
    parseAxis digest x.text = some (x.parts digest) := by
  cases x with
  | bare => rfl
  | execution n =>
    rw [Suffix.text, parseAxis, afterPrefix_eq_some_iff.2 rfl]
    dsimp only
    rw [if_pos (isExecutionNumber_decimal hx), numberOf_decimal]
    rfl
  | replay n =>
    have hseq : decimal n = js "0" ∨ isPositiveNumber (decimal n) = true := by
      obtain rfl | hn : n = 0 ∨ 1 ≤ n := by omega
      · exact .inl (by decide)
      · exact .inr (isPositiveNumber_decimal hn)
    have hno : isExecutionNumber (js "replay-" ++ decimal n) = false := by
      cases decimal n <;> rfl
    rw [Suffix.text, parseAxis, afterPrefix_eq_some_iff.2 rfl]
    dsimp only
    rw [hno, if_neg Bool.false_ne_true, afterPrefix_eq_some_iff.2 rfl]
    dsimp only
    rw [if_pos hseq, numberOf_decimal]
    rfl
  | fork n =>
    have hno : isExecutionNumber (js "fork-" ++ decimal n) = false := by
      cases decimal n <;> rfl
    have hreplay : afterPrefix (js "replay-") (js "fork-" ++ decimal n) = none := by
      rw [afterPrefix, if_neg]
      rw [JsString.startsWith_iff]
      rintro ⟨t, ht⟩
      exact absurd (List.cons.inj ht).1 (by decide)
    rw [Suffix.text, parseAxis, afterPrefix_eq_some_iff.2 rfl]
    dsimp only
    rw [hno, if_neg Bool.false_ne_true, hreplay, afterPrefix_eq_some_iff.2 rfl]
    dsimp only
    rw [if_pos (isPositiveNumber_decimal hx), numberOf_decimal]
    rfl

variable {suffix : JsString} {parts : DerivedRunIdParts}

theorem parseAxis_eq_some (h : parseAxis digest suffix = some parts) :
    ∃ x : Suffix, x.Valid ∧ suffix = x.text ∧ parts = x.parts digest := by
  unfold parseAxis at h
  split at h
  · split at h
    · next hnil => exact ⟨.bare, trivial, hnil, (Option.some.inj h).symm⟩
    · cases h
  · next axis haxis =>
    obtain rfl := afterPrefix_eq_some_iff.1 haxis
    split at h
    · next hexec =>
      obtain ⟨hpos, hone⟩ := isExecutionNumber_iff.1 hexec
      obtain ⟨hdigits, hn⟩ := decimal_numberOf hpos
      have hn' : numberOf axis ≠ 1 := fun he => hone (by rw [← hdigits, he]; decide)
      refine ⟨.execution (numberOf axis), ?_, ?_, (Option.some.inj h).symm⟩
      · rw [Suffix.Valid]
        omega
      · rw [Suffix.text, hdigits]
    · split at h
      · next _ seq hseq =>
        obtain rfl := afterPrefix_eq_some_iff.1 hseq
        split at h
        · next hok =>
          have hdigits : decimal (numberOf seq) = seq := by
            rcases hok with rfl | hpos
            · decide
            · exact (decimal_numberOf hpos).1
          exact ⟨.replay (numberOf seq), trivial, by rw [Suffix.text, hdigits],
            (Option.some.inj h).symm⟩
        · cases h
      · next fork _ hfork =>
        obtain rfl := afterPrefix_eq_some_iff.1 hfork
        split at h
        · next hpos =>
          obtain ⟨hdigits, hn⟩ := decimal_numberOf hpos
          exact ⟨.fork (numberOf fork), hn, by rw [Suffix.text, hdigits],
            (Option.some.inj h).symm⟩
        · cases h
      · cases h

theorem parseDerivedRunId_append (hd : IsDigest digest) (suffix : JsString) :
    parseDerivedRunId (DERIVED_RUN_ID_PREFIX ++ digest ++ suffix) = parseAxis digest suffix := by
  have htake : (digest ++ suffix).take 32 = digest := by rw [← hd.1, take_left]
  have hdrop : (digest ++ suffix).drop 32 = suffix := by rw [← hd.1, drop_left]
  rw [parseDerivedRunId, append_assoc, afterPrefix_eq_some_iff.2 rfl]
  dsimp only
  rw [htake, hdrop]
  exact if_pos hd

/-- An id is accepted if it is the prefix, a digest and a suffix. -/
theorem parseDerivedRunId_eq_some_iff :
    parseDerivedRunId s = some parts ↔ ∃ digest, IsDigest digest ∧ ∃ x : Suffix, x.Valid ∧
      s = DERIVED_RUN_ID_PREFIX ++ digest ++ x.text ∧ parts = x.parts digest := by
  constructor
  · intro h
    unfold parseDerivedRunId at h
    split at h
    · cases h
    · next rest hrest =>
      obtain rfl := afterPrefix_eq_some_iff.1 hrest
      dsimp only at h
      split at h
      · next hd =>
        obtain ⟨x, hx, hsuffix, hparts⟩ := parseAxis_eq_some h
        refine ⟨_, hd, x, hx, ?_, hparts⟩
        rw [← hsuffix, append_assoc, take_append_drop]
      · cases h
  · rintro ⟨digest, hd, x, hx, rfl, rfl⟩
    rw [parseDerivedRunId_append hd, parseAxis_text hx]

/-! ## What is read back -/

/-- No suffix has the sign of an exponent. -/
theorem parseAxis_of_plus (h : 43 ∈ suffix) :
    parseAxis digest suffix = none := by
  rw [Option.eq_none_iff_forall_ne_some]
  rintro parts hparts
  obtain ⟨x, -, rfl, -⟩ := parseAxis_eq_some hparts
  have hdigits (n : ℕ) : 43 ∉ decimal n := fun hmem =>
    absurd (isDigit_of_mem_decimal hmem) (by decide)
  cases x with
  | bare => cases h
  | execution n => exact ((mem_append.1 h).elim (by decide) (hdigits n)).elim
  | replay n =>
    rcases mem_append.1 h with h | h
    · exact absurd h (by decide)
    · exact ((mem_append.1 h).elim (by decide) (hdigits n)).elim
  | fork n =>
    rcases mem_append.1 h with h | h
    · exact absurd h (by decide)
    · exact ((mem_append.1 h).elim (by decide) (hdigits n)).elim

theorem plus_mem_numberToString {x : ℕ} (h : ¬x < 10 ^ 21) : 43 ∈ numberToString x := by
  unfold numberToString
  dsimp only
  rw [if_neg h]
  exact mem_append_left _ (mem_append_right _ (by decide))

theorem readDerivedRunId_text (hd : IsDigest digest) {x : Suffix} (hx : x.Valid) : readDerivedRunId
    (DERIVED_RUN_ID_PREFIX ++ digest ++ x.text) =
      some (x.parts digest).numbers := by
  rw [readDerivedRunId, parseDerivedRunId_append hd, parseAxis_text hx, Option.map_some]

theorem readDerivedRunId_of_plus (hd : IsDigest digest) (h : 43 ∈ suffix) :
    readDerivedRunId (DERIVED_RUN_ID_PREFIX ++ digest ++ suffix) = none := by
  rw [readDerivedRunId, parseDerivedRunId_append hd, parseAxis_of_plus h, Option.map_none]

section Digest

variable {digest : JsString}

theorem hash_notMem_base (hd : IsDigest digest) : 35 ∉ DERIVED_RUN_ID_PREFIX ++ digest := by
  rw [mem_append, not_or]
  exact ⟨by decide, fun hmem => absurd (all_eq_true.1 hd.2 _ hmem) (by decide)⟩

theorem isDerivedRunId_base (hd : IsDigest digest) :
    isDerivedRunId (DERIVED_RUN_ID_PREFIX ++ digest) = true := by
  have h := parseDerivedRunId_append hd []
  rw [append_nil] at h
  rw [isDerivedRunId, h]
  rfl

/-- The digits that are written are those of a number that is accepted if the double is. -/
theorem le_shortest {x : Double} {k : ℕ} (hk : k ≤ 2) (h : k ≤ x.val) : k ≤ shortest x.val := by
  by_contra hlt
  have halone : ReadAlone (shortest x.val) := .inl (by omega)
  have hsame := (halone.toDouble_eq).symm.trans (toDouble_shortest x)
  rw [WithTop.coe_eq_coe] at hsame
  omega

theorem executionRunId_reads_back (hd : IsDigest digest) {n : Double} (hn : 2 ≤ n.val) :
    ∃ id, writeExecutionRunId (DERIVED_RUN_ID_PREFIX ++ digest) n = .ok id ∧
      (readDerivedRunId id = some ⟨digest, some (.some n.val), none, none⟩ ↔ n.val < 10 ^ 21) := by
  refine ⟨DERIVED_RUN_ID_PREFIX ++ digest ++ js "#" ++ numberToString n.val, ?_, ?_⟩
  · rw [writeExecutionRunId, if_neg (hash_notMem_base hd), isDerivedRunId_base hd,
      if_neg (by decide), if_neg (by omega)]
  · rw [append_assoc]
    by_cases h : n.val < 10 ^ 21
    · have hvalid : (Suffix.execution (shortest n.val)).Valid := le_shortest le_rfl hn
      have htext : js "#" ++ numberToString n.val = (Suffix.execution (shortest n.val)).text := by
        rw [numberToString, if_pos h, Suffix.text]
      rw [htext, readDerivedRunId_text hd hvalid, ← toDouble_shortest n]
      exact ⟨fun _ => h, fun _ => rfl⟩
    · rw [readDerivedRunId_of_plus hd (mem_append_right _ (plus_mem_numberToString h))]
      exact ⟨fun he => (nomatch he), fun hlt => absurd hlt h⟩

theorem forkRunId_reads_back (hd : IsDigest digest) {n : Double} (hn : 1 ≤ n.val) :
    ∃ id, writeForkRunId (DERIVED_RUN_ID_PREFIX ++ digest) n = .ok id ∧
      (readDerivedRunId id = some ⟨digest, none, none, some (.some n.val)⟩ ↔ n.val < 10 ^ 21) := by
  refine ⟨DERIVED_RUN_ID_PREFIX ++ digest ++ js "#fork-" ++ numberToString n.val, ?_, ?_⟩
  · rw [writeForkRunId, if_neg (hash_notMem_base hd), isDerivedRunId_base hd,
      if_neg (by decide), if_neg (by omega)]
  · rw [append_assoc]
    by_cases h : n.val < 10 ^ 21
    · have hvalid : (Suffix.fork (shortest n.val)).Valid := le_shortest (by decide) hn
      have htext : js "#fork-" ++ numberToString n.val = (Suffix.fork (shortest n.val)).text := by
        rw [numberToString, if_pos h, Suffix.text, ← append_assoc]
        rfl
      rw [htext, readDerivedRunId_text hd hvalid, ← toDouble_shortest n]
      exact ⟨fun _ => h, fun _ => rfl⟩
    · rw [readDerivedRunId_of_plus hd (mem_append_right _ (plus_mem_numberToString h))]
      exact ⟨fun he => (nomatch he), fun hlt => absurd hlt h⟩

end Digest

namespace Suffix

/-- The suffix of another number. -/
def withNumber (m : ℕ) : Suffix → Suffix
  | bare => bare
  | execution _ => execution m
  | replay _ => replay m
  | fork _ => fork m

variable {m : ℕ}

theorem valid_withNumber (x : Suffix) (hm : 2 ≤ m) : (x.withNumber m).Valid := by
  cases x with
  | bare => trivial
  | execution n => exact hm
  | replay n => trivial
  | fork n => exact (by decide : 1 ≤ 2).trans hm

variable {x : Suffix} {d : JsString}

theorem numbers_withNumber {n : ℕ} (hn : (x.parts d).number = some n) (h : toDouble m = toDouble n) :
    ((x.withNumber m).parts d).numbers = (x.parts d).numbers := by
  cases x with
  | bare => rfl
  | execution k | replay k | fork k =>
    obtain rfl := Option.some.inj hn
    simp only [withNumber, parts, DerivedRunIdParts.numbers, Option.map_some, h]

theorem parts_withNumber_ne {n : ℕ} (hn : (x.parts d).number = some n) (h : m ≠ n) :
    (x.withNumber m).parts d ≠ x.parts d := by
  intro he
  have hm := congrArg DerivedRunIdParts.number he
  cases x with
  | bare => cases hn
  | execution k | replay k | fork k => exact h (Option.some.inj (hm.trans hn))

/-- Suffixes that are read alike are the same if no other number is read as theirs. -/
theorem eq_of_numbers {y : Suffix} {d' : JsString}
    (hx : ∀ n, (x.parts d).number = some n → ReadAlone n)
    (h : (y.parts d').numbers = (x.parts d).numbers) : d' = d ∧ y = x := by
  simp only [DerivedRunIdParts.numbers, ReadParts.mk.injEq] at h
  obtain ⟨hd, hexec, hseq, hfork⟩ := h
  cases x with
  | bare => cases y <;> simp_all [parts]
  | execution n =>
    have hn : ReadAlone n := hx n rfl
    cases y <;> simp_all [parts]
    exact toDouble_inj hn hexec
  | replay n =>
    have hn : ReadAlone n := hx n rfl
    cases y <;> simp_all [parts]
    exact toDouble_inj hn hseq
  | fork n =>
    have hn : ReadAlone n := hx n rfl
    cases y <;> simp_all [parts]
    exact toDouble_inj hn hfork

end Suffix

/-- An accepted spelling is the only one of what it is read as, if no other number is read as its. -/
theorem readDerivedRunId_alone_iff (hs : parseDerivedRunId s = some parts) :
    (∀ t, readDerivedRunId t = readDerivedRunId s → t = s) ↔
      ∀ n, parts.number = some n → ReadAlone n := by
  obtain ⟨d, hd, x, hx, rfl, rfl⟩ := parseDerivedRunId_eq_some_iff.1 hs
  rw [readDerivedRunId_text hd hx]
  constructor
  · intro h n hn
    by_contra halone
    obtain ⟨m, hne, hm, hsame⟩ := exists_toDouble_eq halone
    have hvalid := x.valid_withNumber hm
    have hback := h _ (by rw [readDerivedRunId_text hd hvalid, Suffix.numbers_withNumber hn hsame])
    have hparts : some ((x.withNumber m).parts d) = some (x.parts d) := by
      rw [← parseAxis_text hvalid, ← parseAxis_text hx, append_cancel_left hback]
    exact Suffix.parts_withNumber_ne hn hne (Option.some.inj hparts)
  · intro halone t ht
    obtain ⟨parts', ht', hsame⟩ := Option.map_eq_some_iff.1 ht
    obtain ⟨d', -, y, -, rfl, rfl⟩ := parseDerivedRunId_eq_some_iff.1 ht'
    obtain ⟨rfl, rfl⟩ := Suffix.eq_of_numbers halone hsame
    rfl

/-- The ids of executions and forks are read back from numbers below `10 ^ 21`, and a spelling is
    the only one of what it is read as if its number is `ReadAlone`. -/
theorem derivedRunId_reads_back (digest : JsString) (hd : IsDigest digest) :
    (∀ n : Double, 2 ≤ n.val → ∃ id,
      writeExecutionRunId (DERIVED_RUN_ID_PREFIX ++ digest) n = .ok id ∧
        (readDerivedRunId id = some ⟨digest, some (.some n.val), none, none⟩ ↔ n.val < 10 ^ 21)) ∧
    (∀ n : Double, 1 ≤ n.val → ∃ id,
      writeForkRunId (DERIVED_RUN_ID_PREFIX ++ digest) n = .ok id ∧
        (readDerivedRunId id = some ⟨digest, none, none, some (.some n.val)⟩ ↔ n.val < 10 ^ 21)) ∧
    ∀ s parts, parseDerivedRunId s = some parts →
      ((∀ t, readDerivedRunId t = readDerivedRunId s → t = s) ↔
        ∀ n, parts.number = some n → ReadAlone n) :=
  ⟨fun _ hn => executionRunId_reads_back hd hn, fun _ hn => forkRunId_reads_back hd hn,
    fun _ _ hs => readDerivedRunId_alone_iff hs⟩

/-- A digest of zeros. -/
def zeros : JsString := List.replicate 32 48

theorem derivedRunId_reads_back_zeros : ∃ id,
    writeExecutionRunId (DERIVED_RUN_ID_PREFIX ++ zeros) ⟨2, by decide +kernel⟩ = .ok id ∧
      readDerivedRunId id = some ⟨zeros, some (.some 2), none, none⟩ :=
  have ⟨id, hid, hiff⟩ := (derivedRunId_reads_back zeros (by unfold IsDigest; decide)).1
    ⟨2, by decide +kernel⟩ (by decide)
  ⟨id, hid, hiff.2 (by decide)⟩

/-- An execution that is not read back, and two spellings of one. -/
theorem derivedRunId_misread :
    ((writeExecutionRunId (DERIVED_RUN_ID_PREFIX ++ zeros) ⟨10 ^ 21, by decide +kernel⟩).toOption.bind
      readDerivedRunId) = none ∧
    readDerivedRunId (DERIVED_RUN_ID_PREFIX ++ zeros ++ js "#9007199254740993") =
      readDerivedRunId (DERIVED_RUN_ID_PREFIX ++ zeros ++ js "#9007199254740992") ∧
    (readDerivedRunId (DERIVED_RUN_ID_PREFIX ++ zeros ++ js "#9007199254740992")).isSome := by
  decide +kernel

end Gnldev.Durable
