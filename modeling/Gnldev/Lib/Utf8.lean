import Gnldev.Lib.JsString
import Gnldev.Lib.Prefixes

/-!
# UTF-8

Strings by their code points, and their bytes. In the order of bytes strings are as in
that of code points, since the encoding of a code point ends where it says and keeps the
order (`utf8_lt_utf8_iff`); and a range of the order is what begins with a string, if
nothing is between the last code points of its bounds (`prefix_range_iff`).
-/

open List

namespace Gnldev

/-! ## Ranges of the order -/

section Order

variable {A B : Type} [LinearOrder A] [LinearOrder B]

/-- What is between `p ++ [c]` and `p ++ [d]`, for `d` next to `c`, begins with `p ++ [c]`. -/
theorem prefix_range_iff {p k : List A} {c d : A} (hcd : c < d) (hnext : ∀ x ∈ k, x < d → x ≤ c) :
    ¬k < p ++ [c] ∧ k < p ++ [d] ↔ p ++ [c] <+: k := by
  constructor
  · rintro ⟨hle, hlt⟩
    obtain ⟨r, rfl⟩ : p <+: k :=
      prefix_of_le_of_le (List.le_trans (le_of_isPrefix (prefix_append p [c]))
        (List.not_lt.1 hle)) (List.le_iff_lt_or_eq.2 (.inl hlt))
    rw [prefix_append_right_inj]
    have hlow : ¬r < [c] := fun h => hle (append_left_lt h)
    cases r with
    | nil => exact absurd (nil_lt_cons ..) hlow
    | cons x r =>
      have hx : x < d := by
        by_contra hdx
        refine List.not_le.2 hlt (append_left_le (cons_le_cons_iff.2 ?_))
        exact (not_lt.1 hdx).lt_or_eq.imp_right fun h => ⟨h, nil_le r⟩
      have hxc : c ≤ x := by
        by_contra hxc
        exact hlow (cons_lt_cons_iff.2 (.inl (not_le.1 hxc)))
      obtain rfl := le_antisymm (hnext x (by simp) hx) hxc
      exact ⟨r, rfl⟩
  · rintro ⟨r, rfl⟩
    refine ⟨List.not_lt.2 (le_of_isPrefix (prefix_append _ _)), ?_⟩
    rw [append_assoc]
    exact append_left_lt (cons_lt_cons_iff.2 (.inl hcd))

/-- A code that ends where it says and keeps the order of what it encodes keeps that of lists. -/
theorem flatMap_lt_flatMap {f : A → List B} {s t : List A} (hne : ∀ a ∈ t, f a ≠ [])
    (hf : ∀ a, ∀ b ∈ t, a < b → ∀ x y, f a ++ x < f b ++ y) (h : s < t) :
    s.flatMap f < t.flatMap f := by
  induction t generalizing s with
  | nil => exact absurd h (not_lt_nil s)
  | cons b t ih =>
    rw [flatMap_cons]
    cases s with
    | nil =>
      obtain ⟨y, l, hb⟩ := exists_cons_of_ne_nil (hne b (by simp))
      rw [hb]
      exact nil_lt_cons ..
    | cons a s =>
      rw [flatMap_cons]
      rcases cons_lt_cons_iff.1 h with hab | ⟨rfl, hst⟩
      · exact hf a b (by simp) hab _ _
      · exact append_left_lt (ih (fun a ha => hne a (.tail _ ha))
          (fun a b hb => hf a b (.tail _ hb)) hst)

theorem flatMap_lt_flatMap_iff {f : A → List B} {s t : List A}
    (hne : ∀ a ∈ s ++ t, f a ≠ [])
    (hf : ∀ a, ∀ b ∈ s ++ t, a < b → ∀ x y, f a ++ x < f b ++ y) :
    s.flatMap f < t.flatMap f ↔ s < t := by
  refine ⟨fun h => ?_, flatMap_lt_flatMap (fun a ha => hne a (mem_append_right _ ha))
    fun a b hb => hf a b (mem_append_right _ hb)⟩
  by_contra hst
  rcases List.le_iff_lt_or_eq.1 (List.not_lt.1 hst) with hts | rfl
  · exact List.lt_asymm h (flatMap_lt_flatMap (fun a ha => hne a (mem_append_left _ ha))
      (fun a b hb => hf a b (mem_append_left _ hb)) hts)
  · exact List.lt_irrefl _ h

end Order

/-! ## Code points -/

/-- Whether a code point is a surrogate: then it is no character. -/
def isSurrogate (c : ℕ) : Bool := 0xD800 ≤ c && c ≤ 0xDFFF

/-- The code points of a string: a surrogate pair is one, and so is a lone surrogate. -/
def codePoints : JsString → List ℕ
  | [] => []
  | [u] => [u.toNat]
  | u :: v :: s =>
    if 0xD800 ≤ u.toNat ∧ u.toNat ≤ 0xDBFF ∧ 0xDC00 ≤ v.toNat ∧ v.toNat ≤ 0xDFFF then
      (0x10000 + (u.toNat - 0xD800) * 0x400 + (v.toNat - 0xDC00)) :: codePoints s
    else u.toNat :: codePoints (v :: s)

/-- `String.fromCodePoint(c)`. -/
def fromCodePoint (c : ℕ) : JsString :=
  if c < 0x10000 then [UInt16.ofNat c]
  else [UInt16.ofNat (0xD800 + (c - 0x10000) / 0x400), UInt16.ofNat (0xDC00 + (c - 0x10000) % 0x400)]

/-- The string of some code points. -/
def fromCodePoints (l : List ℕ) : JsString := l.flatMap fromCodePoint

/-- `s.isWellFormed()`: there is no lone surrogate. -/
def WellFormed (s : JsString) : Prop := ∀ c ∈ codePoints s, isSurrogate c = false

/-- A character. -/
def IsScalar (c : ℕ) : Prop := c ≤ 0x10FFFF ∧ isSurrogate c = false

variable {s : JsString} {c : ℕ}

theorem le_of_mem_codePoints (h : c ∈ codePoints s) : c ≤ 0x10FFFF := by
  induction s using codePoints.induct with
  | case1 => cases h
  | case2 u =>
    rw [codePoints, mem_singleton] at h
    have hu : u.toNat < 65536 := u.toNat_lt
    omega
  | case3 u v s hpair ih =>
    rw [codePoints, if_pos hpair, mem_cons] at h
    rcases h with h | h
    · omega
    · exact ih h
  | case4 u v s hpair ih =>
    rw [codePoints, if_neg hpair, mem_cons] at h
    rcases h with rfl | h
    · have hu : u.toNat < 65536 := u.toNat_lt
      omega
    · exact ih h

theorem WellFormed.isScalar (h : WellFormed s) (hc : c ∈ codePoints s) :
    IsScalar c := ⟨le_of_mem_codePoints hc, h c hc⟩

theorem fromCodePoints_codePoints (s : JsString) : fromCodePoints (codePoints s) = s := by
  induction s using codePoints.induct with
  | case1 => rfl
  | case2 u => simp [codePoints, fromCodePoints, fromCodePoint, UInt16.toNat_lt u]
  | case3 u v s hpair ih =>
    rw [codePoints, if_pos hpair, fromCodePoints, flatMap_cons, ← fromCodePoints, ih,
      fromCodePoint, if_neg (by omega)]
    have hu : 0xD800 + (0x10000 + (u.toNat - 0xD800) * 0x400 + (v.toNat - 0xDC00) - 0x10000) / 0x400
      = u.toNat := by omega
    have hv : 0xDC00 + (0x10000 + (u.toNat - 0xD800) * 0x400 + (v.toNat - 0xDC00) - 0x10000) % 0x400
      = v.toNat := by omega
    rw [hu, hv, UInt16.ofNat_toNat, UInt16.ofNat_toNat]
    rfl
  | case4 u v s hpair ih =>
    rw [codePoints, if_neg hpair, fromCodePoints, flatMap_cons, ← fromCodePoints, ih,
      fromCodePoint, if_pos u.toNat_lt, UInt16.ofNat_toNat]
    rfl

/-- Behind a character the code points of a string are read on their own. -/
theorem codePoints_fromCodePoint_append (h : IsScalar c) (s : JsString) :
    codePoints (fromCodePoint c ++ s) = c :: codePoints s := by
  obtain ⟨hmax, hsurrogate⟩ := h
  simp only [isSurrogate, Bool.and_eq_false_iff, decide_eq_false_iff_not] at hsurrogate
  rw [fromCodePoint]
  split
  · next hsmall =>
    have hc : (UInt16.ofNat c).toNat = c := UInt16.toNat_ofNat_of_lt' hsmall
    cases s with
    | nil => simp only [append_nil, codePoints, hc]
    | cons v s =>
      rw [cons_append, nil_append, codePoints, if_neg (by omega), hc]
  · have hu : (UInt16.ofNat (0xD800 + (c - 0x10000) / 0x400)).toNat =
        0xD800 + (c - 0x10000) / 0x400 := UInt16.toNat_ofNat_of_lt' (by rw [UInt16.size]; omega)
    have hv : (UInt16.ofNat (0xDC00 + (c - 0x10000) % 0x400)).toNat =
        0xDC00 + (c - 0x10000) % 0x400 := UInt16.toNat_ofNat_of_lt' (by rw [UInt16.size]; omega)
    rw [cons_append, cons_append, nil_append, codePoints, if_pos (by omega), hu, hv]
    exact congrArg (· :: codePoints s) (by omega)

theorem codePoints_fromCodePoints_append {l : List ℕ} (h : ∀ c ∈ l, IsScalar c) (s : JsString) :
    codePoints (fromCodePoints l ++ s) = l ++ codePoints s := by
  induction l with
  | nil => rfl
  | cons c l ih =>
    rw [fromCodePoints, flatMap_cons, ← fromCodePoints, append_assoc,
      codePoints_fromCodePoint_append (h c (by simp)), ih fun c hc => h c (.tail _ hc)]
    rfl

theorem codePoints_fromCodePoints {l : List ℕ} (h : ∀ c ∈ l, IsScalar c) :
    codePoints (fromCodePoints l) = l := by
  have hl := codePoints_fromCodePoints_append h []
  rwa [append_nil, codePoints, append_nil] at hl

theorem WellFormed.codePoints_append (h : WellFormed s) (t : JsString) :
    codePoints (s ++ t) = codePoints s ++ codePoints t := by
  conv_lhs => rw [← fromCodePoints_codePoints s]
  exact codePoints_fromCodePoints_append (fun c hc => h.isScalar hc) t

theorem WellFormed.codePoints_isPrefix_iff {p k : JsString} (h : WellFormed p) :
    codePoints p <+: codePoints k ↔ p <+: k := by
  constructor
  · rintro ⟨r, hr⟩
    refine ⟨fromCodePoints r, ?_⟩
    have hk := fromCodePoints_codePoints k
    rwa [← hr, fromCodePoints, flatMap_append, ← fromCodePoints, fromCodePoints_codePoints]
      at hk
  · rintro ⟨t, rfl⟩
    exact ⟨codePoints t, (h.codePoints_append t).symm⟩

/-! ## Bytes -/

/-- The bytes of a code point. -/
def utf8Of (c : ℕ) : List ℕ :=
  if c < 0x80 then [c]
  else if c < 0x800 then [0xC0 + c / 0x40, 0x80 + c % 0x40]
  else if c < 0x10000 then [0xE0 + c / 0x1000, 0x80 + c / 0x40 % 0x40, 0x80 + c % 0x40]
  else [0xF0 + c / 0x40000, 0x80 + c / 0x1000 % 0x40, 0x80 + c / 0x40 % 0x40, 0x80 + c % 0x40]

/-- The bytes of a string: for a lone surrogate, those of the replacement character. -/
def utf8 (s : JsString) : List ℕ :=
  (codePoints s).flatMap fun c => utf8Of (if isSurrogate c then 0xFFFD else c)

theorem utf8Of_ne_nil (c : ℕ) : utf8Of c ≠ [] := by
  unfold utf8Of
  split_ifs <;> exact cons_ne_nil _ _

theorem utf8Of_append_lt {a b : ℕ} (hb : b ≤ 0x10FFFF) (h : a < b) (x y : List ℕ) :
    utf8Of a ++ x < utf8Of b ++ y := by
  unfold utf8Of
  split_ifs <;> simp only [cons_append, nil_append, cons_lt_cons_iff] <;> omega

theorem WellFormed.utf8_eq (h : WellFormed s) :
    utf8 s = (codePoints s).flatMap utf8Of := by
  rw [utf8, flatMap_congr fun c hc => by rw [h c hc, if_neg Bool.false_ne_true]]

/-- The order of bytes is that of code points. -/
theorem utf8_lt_utf8_iff {t : JsString} (hs : WellFormed s) (ht : WellFormed t) :
    utf8 s < utf8 t ↔ codePoints s < codePoints t := by
  rw [hs.utf8_eq, ht.utf8_eq]
  refine flatMap_lt_flatMap_iff (fun c _ => utf8Of_ne_nil c) fun a b hb hab => ?_
  refine utf8Of_append_lt ?_ hab
  exact (mem_append.1 hb).elim le_of_mem_codePoints le_of_mem_codePoints

end Gnldev
