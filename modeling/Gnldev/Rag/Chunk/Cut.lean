import Gnldev.Rag.Chunk

/-!
# What cutting keeps

A text is cut without loss at a separator that is white space, if no two parts of it are joined
that have a blank part between them. At `'. '` it is not: the first chunk loses its full stop. So the
chunks cover the text if and only if the text can be cut at white space (`Cuttable`), which says how
long its parts are, and where blank ones stand (`covers_splitRecursive_iff`).
-/

open List

namespace Gnldev.Rag

open Scheduler (isSpace)

variable {sep cur w p text : JsString} {parts pieces seps : List JsString} {size n : ℕ}

/-! ## White space -/

theorem trim_eq_nil : trim text = [] ↔ Blank isSpace text := by
  rw [trim, rdropWhile_eq_nil_iff]
  constructor
  · intro h x hx
    by_contra hne
    have hdrop : text.dropWhile isSpace ≠ [] := fun hnil =>
      hne (dropWhile_eq_nil_iff.1 hnil x hx)
    exact Bool.false_ne_true ((head_dropWhile_not isSpace hdrop).symm.trans
      (h _ (head_mem hdrop)))
  · exact fun h x hx => h x (dropWhile_sublist _ |>.subset hx)

theorem exists_eq_trim (text : JsString) :
    ∃ g g', Blank isSpace g ∧ Blank isSpace g' ∧ text = g ++ trim text ++ g' := by
  refine ⟨text.takeWhile isSpace, (text.dropWhile isSpace).rtakeWhile isSpace,
    fun x hx => mem_takeWhile_imp hx, fun x hx => mem_rtakeWhile_imp hx, ?_⟩
  rw [append_assoc, trim, rdropWhile_append_rtakeWhile, takeWhile_append_dropWhile]

/-! ## Joining -/

theorem mergeFrom_nil_cons : mergeFrom sep size [] (p :: pieces) = mergeFrom sep size p pieces := by
  rw [mergeFrom, if_pos rfl, if_pos (.inr rfl)]

theorem mergeFrom_nil (hcur : cur ≠ []) : mergeFrom sep size cur [] = [cur] := by
  rw [mergeFrom, if_neg hcur]

theorem mergeFrom_of_fits (hcur : cur ≠ []) (h : (cur ++ sep ++ p).length ≤ size) :
    mergeFrom sep size cur (p :: pieces) = mergeFrom sep size (cur ++ sep ++ p) pieces := by
  rw [mergeFrom, if_neg hcur, if_pos (.inl h)]

theorem mergeFrom_of_not_fits (hcur : cur ≠ []) (h : ¬(cur ++ sep ++ p).length ≤ size) :
    mergeFrom sep size cur (p :: pieces) = cur :: mergeFrom sep size p pieces := by
  rw [mergeFrom, if_neg hcur, if_neg (not_or.2 ⟨h, hcur⟩)]

/-- What is joined is not too long, unless it is one piece. -/
theorem mem_mergeFrom {m : JsString} (h : m ∈ mergeFrom sep size cur pieces) :
    m.length ≤ size ∨ m = cur ∨ m ∈ pieces := by
  induction pieces generalizing cur with
  | nil =>
    rw [mergeFrom] at h
    split at h
    · exact absurd h not_mem_nil
    · exact .inr (.inl (mem_singleton.1 h))
  | cons p pieces ih =>
    have hnext (h : m ∈ mergeFrom sep size p pieces) :
        m.length ≤ size ∨ m = cur ∨ m ∈ p :: pieces := by
      rcases ih h with hm | rfl | hm
      · exact .inl hm
      · exact .inr (.inr mem_cons_self)
      · exact .inr (.inr (mem_cons_of_mem _ hm))
    by_cases hcur : cur = []
    · rw [hcur, mergeFrom_nil_cons] at h
      exact hnext h
    by_cases hfits : (cur ++ sep ++ p).length ≤ size
    · rw [mergeFrom_of_fits hcur hfits] at h
      rcases ih h with hm | rfl | hm
      · exact .inl hm
      · exact .inl hfits
      · exact .inr (.inr (mem_cons_of_mem _ hm))
    · rw [mergeFrom_of_not_fits hcur hfits] at h
      rcases mem_cons.1 h with rfl | h
      · exact .inr (.inl rfl)
      · exact hnext h

/-- The first piece that is made begins with the one that is being made. -/
theorem mergeFrom_head (sep : JsString) (size : ℕ) (pieces : List JsString) (hcur : cur ≠ []) :
    ∃ x rest, mergeFrom sep size cur pieces = (cur ++ x) :: rest ∧
      (cur.length ≤ size → (cur ++ x).length ≤ size) := by
  induction pieces generalizing cur with
  | nil => exact ⟨[], [], by rw [mergeFrom_nil hcur, append_nil], by simp⟩
  | cons p pieces ih =>
    by_cases hfits : (cur ++ sep ++ p).length ≤ size
    · have hjoined : cur ++ sep ++ p ≠ [] := by simp [hcur]
      obtain ⟨x, rest, heq, hlen⟩ := ih hjoined
      refine ⟨sep ++ p ++ x, rest, ?_, fun _ => ?_⟩
      · rw [mergeFrom_of_fits hcur hfits, heq]
        simp
      · simpa using hlen hfits
    · exact ⟨[], mergeFrom sep size p pieces, by
        rw [mergeFrom_of_not_fits hcur hfits, append_nil], by simp⟩

/-- The pieces of the parts that are not blank. -/
abbrev nonblank (parts : List JsString) : List JsString := parts.filter (trim · ≠ [])

theorem nonblank_of_blank (hp : trim p = []) : nonblank (p :: parts) = nonblank parts := by
  simp [nonblank, hp]

theorem nonblank_cons (hp : trim p ≠ []) : nonblank (p :: parts) = p :: nonblank parts := by
  simp [nonblank, hp]

/-- No character that is not blank is made up. -/
theorem ink_mergeFrom_le (sep : JsString) (size : ℕ) (cur : JsString) (parts : List JsString) :
    ink isSpace (mergeFrom sep size cur (nonblank parts)).flatten ≤
      ink isSpace cur + ink isSpace (rejoined sep parts) := by
  induction parts generalizing cur with
  | nil =>
    by_cases hcur : cur = []
    · simp [nonblank, mergeFrom, hcur]
    · simp [nonblank, mergeFrom, hcur]
  | cons p parts ih =>
    rw [rejoined_cons, ink_append, ink_append]
    by_cases hp : trim p = []
    · have h := ih cur
      rw [nonblank_of_blank hp]
      omega
    rw [nonblank_cons hp]
    by_cases hcur : cur = []
    · have h := ih p
      rw [hcur, mergeFrom_nil_cons]
      omega
    by_cases hfits : (cur ++ sep ++ p).length ≤ size
    · have h := ih (cur ++ sep ++ p)
      rw [ink_append, ink_append] at h
      rw [mergeFrom_of_fits hcur hfits]
      omega
    · have h := ih p
      rw [mergeFrom_of_not_fits hcur hfits, flatten_cons, ink_append]
      omega

theorem ink_flatMap_le {f : JsString → List JsString}
    (hf : ∀ m, ink isSpace (f m).flatten ≤ ink isSpace m) (ms : List JsString) :
    ink isSpace (ms.flatMap f).flatten ≤ ink isSpace ms.flatten := by
  induction ms with
  | nil => exact le_rfl
  | cons m ms ih =>
    have hm := hf m
    rw [flatMap_cons, flatten_append, flatten_cons, ink_append, ink_append]
    omega

/-! ## Where nothing is lost -/

/-- The parts are filled up to the size, the one that is being filled being `n` long: no blank part
    stands between two that fit in together. (`gap`: one stands after the last that is filled in.) -/
def Tight (sep : JsString) (size : ℕ) : ℕ → Bool → List JsString → Prop
  | _, _, [] => True
  | n, gap, p :: parts =>
    if trim p = [] then Tight sep size n true parts
    else if n ≠ 0 ∧ n + sep.length + p.length ≤ size then
      gap = false ∧ Tight sep size (n + sep.length + p.length) false parts
    else Tight sep size p.length false parts

instance decidableTight (sep : JsString) (size : ℕ) :
    ∀ n gap parts, Decidable (Tight sep size n gap parts)
  | _, _, [] => .isTrue trivial
  | n, gap, p :: parts =>
    letI := decidableTight sep size n true parts
    letI := decidableTight sep size (n + sep.length + p.length) false parts
    letI := decidableTight sep size p.length false parts
    inferInstanceAs (Decidable (if trim p = [] then Tight sep size n true parts
      else if n ≠ 0 ∧ n + sep.length + p.length ≤ size then
        gap = false ∧ Tight sep size (n + sep.length + p.length) false parts
      else Tight sep size p.length false parts))

/-- A text is short enough; or it has parts at a separator that is white space, none with a blank part
    between them fits in with another one, and those that are too long can be cut at the next
    separator. -/
def Cuttable (size : ℕ) : List JsString → JsString → Prop
  | [], _ => True
  | sep :: seps, text => text.length ≤ size ∨
    if (piecesOf sep text).length ≤ 1 then Cuttable size seps text
    else Blank isSpace sep ∧ Tight sep size 0 false (splitOn sep text) ∧
      ∀ p ∈ piecesOf sep text, size < p.length → Cuttable size seps p

instance decidableCuttable (size : ℕ) : ∀ seps text, Decidable (Cuttable size seps text)
  | [], _ => .isTrue trivial
  | sep :: seps, text =>
    letI := decidableCuttable size seps
    inferInstanceAs (Decidable (text.length ≤ size ∨
      if (piecesOf sep text).length ≤ 1 then Cuttable size seps text
      else Blank isSpace sep ∧ Tight sep size 0 false (splitOn sep text) ∧
        ∀ p ∈ piecesOf sep text, size < p.length → Cuttable size seps p))

variable {gap : Bool}

theorem tight_of_blank (hp : trim p = []) :
    Tight sep size n gap (p :: parts) ↔ Tight sep size n true parts := by
  rw [Tight, if_pos hp]

theorem tight_start (hp : trim p ≠ []) :
    Tight sep size 0 gap (p :: parts) ↔ Tight sep size p.length false parts := by
  rw [Tight, if_neg hp, if_neg (by simp)]

theorem tight_cons (hcur : cur ≠ []) (hp : trim p ≠ []) :
    Tight sep size cur.length gap (p :: parts) ↔
      if (cur ++ sep ++ p).length ≤ size then
        gap = false ∧ Tight sep size (cur ++ sep ++ p).length false parts
      else Tight sep size p.length false parts := by
  rw [Tight, if_neg hp, length_append, length_append]
  simp [hcur]

theorem ne_nil_of_trim (hp : trim p ≠ []) : p ≠ [] := by
  rintro rfl
  exact hp rfl

theorem covers_mergeFrom (hsep : Blank isSpace sep) (hcur : cur ≠ [])
    (h : Tight sep size cur.length gap parts) (hw : Blank isSpace w) (hgap : gap = false → w = []) :
    Covers isSpace (cur ++ w ++ rejoined sep parts) (mergeFrom sep size cur (nonblank parts)) := by
  induction parts generalizing cur w gap with
  | nil =>
    rw [nonblank, filter_nil, mergeFrom_nil hcur, rejoined_nil, append_nil]
    exact Covers.single.append_blank hw
  | cons p parts ih =>
    by_cases hp : trim p = []
    · rw [tight_of_blank hp] at h
      have hw' : Blank isSpace (w ++ sep ++ p) := (hw.append hsep).append (trim_eq_nil.1 hp)
      rw [nonblank_of_blank hp]
      simpa using ih hcur h hw' nofun
    rw [tight_cons hcur hp] at h
    rw [nonblank_cons hp]
    by_cases hfits : (cur ++ sep ++ p).length ≤ size
    · rw [if_pos hfits] at h
      rw [mergeFrom_of_fits hcur hfits, hgap h.1]
      simpa using ih (by simp [hcur]) h.2 .nil fun _ => rfl
    · rw [if_neg hfits] at h
      rw [mergeFrom_of_not_fits hcur hfits]
      have hrest := (ih (ne_nil_of_trim hp) h .nil fun _ => rfl).prepend (hw.append hsep)
      simpa using hrest.piece (c := cur)

theorem covers_merge_start (hsep : Blank isSpace sep) (hp : trim p ≠ [])
    (h : Tight sep size 0 gap (p :: parts)) (hw : Blank isSpace w) :
    Covers isSpace (w ++ p ++ rejoined sep parts)
      (mergeFrom sep size [] (nonblank (p :: parts))) := by
  rw [tight_start hp] at h
  rw [nonblank_cons hp, mergeFrom_nil_cons]
  have hcovers := covers_mergeFrom hsep (ne_nil_of_trim hp) h .nil fun _ => rfl
  simpa using hcovers.prepend hw

theorem covers_merge_parts (hsep : Blank isSpace sep) (h : Tight sep size 0 gap (p :: parts))
    (hw : Blank isSpace w) :
    Covers isSpace (w ++ p ++ rejoined sep parts)
      (mergeFrom sep size [] (nonblank (p :: parts))) := by
  induction parts generalizing p w gap with
  | nil =>
    by_cases hp : trim p = []
    · rw [nonblank_of_blank hp, rejoined_nil, append_nil, nonblank, filter_nil, mergeFrom,
        if_pos rfl]
      exact .nil (hw.append (trim_eq_nil.1 hp))
    · exact covers_merge_start hsep hp h hw
  | cons q parts ih =>
    by_cases hp : trim p = []
    · rw [tight_of_blank hp] at h
      have hw' : Blank isSpace (w ++ p ++ sep) := (hw.append (trim_eq_nil.1 hp)).append hsep
      rw [nonblank_of_blank hp]
      simpa using ih h hw'
    · exact covers_merge_start hsep hp h hw

theorem covers_hardCut (size : ℕ+) (text : JsString) : Covers isSpace text (hardCut size text) := by
  induction text using hardCut.induct size with
  | case1 => 
    rw [hardCut]
    exact .nil .nil
  | case2 text hne ih =>
    rw [hardCut, dif_neg hne]
    simpa using ih.piece (c := text.take size)

theorem covers_short : Covers isSpace text (if trim text = [] then [] else [text]) := by
  split
  · next h => exact .nil (trim_eq_nil.1 h)
  · exact .single

variable {size : ℕ+}

theorem covers_of_cuttable (hseps : ∀ sep ∈ seps, sep ≠ []) (h : Cuttable size seps text) :
    Covers isSpace text (splitRecursive size seps text) := by
  induction seps generalizing text with
  | nil =>
    rw [splitRecursive]
    split
    · exact covers_short
    · exact covers_hardCut size text
  | cons sep seps ih =>
    rw [forall_mem_cons] at hseps
    rw [splitRecursive]
    split
    · exact covers_short
    · next hlong =>
      have h := h.resolve_left hlong
      dsimp only
      split
      · next hfew =>
        rw [if_pos hfew] at h
        exact ih hseps.2 h
      · next hfew =>
        rw [if_neg hfew] at h
        obtain ⟨hsep, htight, hcut⟩ := h
        obtain ⟨p, parts, hparts, htext⟩ := splitOn_eq hseps.1 text
        have hmerged : Covers isSpace text (mergeGreedy (piecesOf sep text) sep size) := by
          rw [hparts] at htight
          have hcovers := covers_merge_parts hsep htight (w := []) .nil
          rw [nil_append, ← htext, ← hparts] at hcovers
          exact hcovers
        refine hmerged.flatMap fun m hm => ?_
        split
        · exact .single
        · next hm' =>
          rcases mem_mergeFrom hm with hle | rfl | hmem
          · exact absurd hle hm'
          · exact absurd (Nat.zero_le _) hm'
          · exact ih hseps.2 (hcut m hmem (not_le.1 hm'))

/-! ## Where something is lost -/

theorem ink_hardCut_le (size : ℕ+) (text : JsString) :
    ink isSpace (hardCut size text).flatten ≤ ink isSpace text := by
  induction text using hardCut.induct size with
  | case1 =>
    rw [hardCut]
    exact le_rfl
  | case2 text hne ih =>
    rw [hardCut, dif_neg hne, flatten_cons, ink_append]
    have hparts : ink isSpace text =
        ink isSpace (text.take size) + ink isSpace (text.drop size) := by
      rw [← ink_append, take_append_drop]
    omega

theorem ink_short_le : ink isSpace (if trim text = [] then [] else [text]).flatten ≤
    ink isSpace text := by
  split <;> simp

theorem ink_merge_parts_le (sep : JsString) (size : ℕ) (p : JsString) (parts : List JsString) :
    ink isSpace (mergeFrom sep size [] (nonblank (p :: parts))).flatten ≤
      ink isSpace (p ++ rejoined sep parts) := by
  induction parts generalizing p with
  | nil =>
    by_cases hp : trim p = []
    · rw [nonblank_of_blank hp]
      simp [nonblank, mergeFrom]
    · rw [nonblank_cons hp, mergeFrom_nil_cons, ink_append]
      exact ink_mergeFrom_le sep size p []
  | cons q parts ih =>
    by_cases hp : trim p = []
    · have h := ih q
      rw [nonblank_of_blank hp]
      simp only [rejoined_cons, ink_append] at h ⊢
      omega
    · rw [nonblank_cons hp, mergeFrom_nil_cons, ink_append]
      exact ink_mergeFrom_le sep size p (q :: parts)

/-- What is short stays, and the rest is cut. -/
abbrev cutFurther (size : ℕ+) (seps : List JsString) (m : JsString) : List JsString :=
  if m.length ≤ (size : ℕ) then [m] else splitRecursive size seps m

theorem ink_further_le
    (h : ∀ text, ink isSpace (splitRecursive size seps text).flatten ≤ ink isSpace text)
    (m : JsString) : ink isSpace (cutFurther size seps m).flatten ≤ ink isSpace m := by
  rw [cutFurther]
  split
  · simp
  · exact h m

theorem ink_splitRecursive_le (hseps : ∀ sep ∈ seps, sep ≠ []) (text : JsString) :
    ink isSpace (splitRecursive size seps text).flatten ≤ ink isSpace text := by
  induction seps generalizing text with
  | nil =>
    rw [splitRecursive]
    split
    · exact ink_short_le
    · exact ink_hardCut_le size text
  | cons sep seps ih =>
    rw [forall_mem_cons] at hseps
    rw [splitRecursive]
    split
    · exact ink_short_le
    dsimp only
    split
    · exact ih hseps.2 text
    obtain ⟨p, parts, hparts, htext⟩ := splitOn_eq hseps.1 text
    have hcut := ink_flatMap_le (f := cutFurther size seps) (ink_further_le (ih hseps.2))
      (mergeGreedy (piecesOf sep text) sep size)
    have hmerge := ink_merge_parts_le sep size p parts
    rw [← htext, ← hparts] at hmerge
    exact hcut.trans hmerge

theorem length_le_of_mem_parts (sep : JsString) (h : p ∈ parts) :
    sep.length + p.length ≤ (rejoined sep parts).length := by
  induction parts with
  | nil => exact absurd h not_mem_nil
  | cons q parts ih =>
    rw [rejoined_cons, length_append, length_append]
    rcases mem_cons.1 h with rfl | h
    · omega
    · have hrest := ih h
      omega

/-- If nothing is lost at a separator that is not white space, all is joined. -/
theorem mergeFrom_eq_of_ink (hsep : ¬Blank isSpace sep) (hcur : cur ≠ [])
    (h : ink isSpace cur + ink isSpace (rejoined sep parts) ≤
      ink isSpace (mergeFrom sep size cur (nonblank parts)).flatten) :
    mergeFrom sep size cur (nonblank parts) = [cur ++ rejoined sep parts] := by
  have hpos : 0 < ink isSpace sep := Nat.pos_of_ne_zero fun h => hsep (ink_eq_zero.1 h)
  induction parts generalizing cur with
  | nil => rw [nonblank, filter_nil, mergeFrom_nil hcur, rejoined_nil, append_nil]
  | cons p parts ih =>
    rw [rejoined_cons, ink_append, ink_append] at h
    by_cases hp : trim p = []
    · have hle := ink_mergeFrom_le sep size cur parts
      rw [nonblank_of_blank hp] at h
      omega
    rw [nonblank_cons hp] at h ⊢
    by_cases hfits : (cur ++ sep ++ p).length ≤ size
    · rw [mergeFrom_of_fits hcur hfits] at h ⊢
      rw [ih (by simp [hcur]) (by rw [ink_append, ink_append]; omega), rejoined_cons]
      simp
    · have hle := ink_mergeFrom_le sep size p parts
      rw [mergeFrom_of_not_fits hcur hfits, flatten_cons, ink_append] at h
      omega

/-- A text that is too long loses something at such a separator. -/
theorem ink_merge_parts_lt (hsep : ¬Blank isSpace sep)
    (hlong : size < (p ++ rejoined sep parts).length) (hmany : 1 < (nonblank (p :: parts)).length) :
    ink isSpace (mergeFrom sep size [] (nonblank (p :: parts))).flatten <
      ink isSpace (p ++ rejoined sep parts) := by
  have hpos : 0 < ink isSpace sep := Nat.pos_of_ne_zero fun h => hsep (ink_eq_zero.1 h)
  have hsize : 0 < sep.length := length_pos_of_ne_nil fun h => hsep (h ▸ .nil)
  by_contra hle
  by_cases hp : trim p = []
  · rw [nonblank_of_blank hp] at hmany hle
    rcases parts with _ | ⟨q, parts⟩
    · simp [nonblank] at hmany
    · have hlt := ink_merge_parts_le sep size q parts
      simp only [rejoined_cons, ink_append] at hle hlt
      omega
  rw [nonblank_cons hp] at hmany hle
  rw [mergeFrom_nil_cons, ink_append, not_lt] at hle
  have hall := mergeFrom_eq_of_ink hsep (ne_nil_of_trim hp) hle
  have hmem : p ++ rejoined sep parts ∈ mergeFrom sep size p (nonblank parts) := by
    rw [hall]
    exact mem_singleton_self _
  rcases mem_mergeFrom hmem with hshort | heq | hpart
  · omega
  · obtain ⟨q, hq⟩ := exists_mem_of_length_pos (l := nonblank parts) (by simpa using hmany)
    have hlength := length_le_of_mem_parts sep (mem_of_mem_filter hq)
    have heq := congrArg List.length heq
    rw [length_append] at heq
    omega
  · have hlength := length_le_of_mem_parts sep (mem_of_mem_filter hpart)
    rw [length_append] at hlength
    omega

/-- Two pieces that were not next to each other have not been joined: one of them would have been
    shifted against the other. -/
theorem blank_between_eq_nil {i : ℤ} {x z : JsString} {cs : List JsString}
    (hcur : ¬Blank isSpace cur) (hp : ¬Blank isSpace p) (hw : Blank isSpace w)
    (hsep : Blank isSpace sep)
    (h : Shifted isSpace ((cur ++ sep ++ p ++ x) :: cs)
      (inked isSpace (cur ++ (w ++ sep) ++ (p ++ z)) i)) : w = [] := by
  obtain ⟨k, l, hk⟩ := inked_eq_cons hcur
  obtain ⟨k', l', hk'⟩ := inked_eq_cons hp
  generalize hps : inked isSpace (cur ++ (w ++ sep) ++ (p ++ z)) i = ps at h
  generalize hpieces : (cur ++ sep ++ p ++ x) :: cs = pieces at h
  cases h with
  | nil => nomatch hpieces
  | cons j h =>
    obtain ⟨rfl, rfl⟩ := List.cons.inj hpieces
    simp only [append_assoc, inked_append, inked_of_blank hw, inked_of_blank hsep,
      nil_append] at hps
    have hij : i = j := by
      rw [hk, hk, cons_append, cons_append, List.cons.injEq] at hps
      omega
    rw [hij] at hps
    have hrest := append_cancel_left hps
    rw [hk', hk', cons_append, cons_append, List.cons.injEq] at hrest
    rw [← length_eq_zero_iff]
    omega

section Lost

variable {size : ℕ+}
  (hink : ∀ text, ink isSpace (splitRecursive size seps text).flatten ≤ ink isSpace text)
  (hcut : ∀ text i, Shifted isSpace (splitRecursive size seps text) (inked isSpace text i) →
    Cuttable size seps text)

include hink hcut

variable {gap : Bool} {i : ℤ}

theorem tight_of_shifted (hsep : Blank isSpace sep) (hne : sep ≠ []) (hcur : ¬Blank isSpace cur)
    (hw : Blank isSpace w) (hgap : gap = true ↔ w ≠ []) (h : Shifted isSpace
      ((mergeFrom sep size cur (nonblank parts)).flatMap (cutFurther size seps))
      (inked isSpace (cur ++ w ++ rejoined sep parts) i)) :
    Tight sep size cur.length gap parts ∧ (size < cur.length → Cuttable size seps cur) ∧
      ∀ p ∈ nonblank parts, size < p.length → Cuttable size seps p := by
  have hcur' : cur ≠ [] := fun h => hcur (h ▸ .nil)
  induction parts generalizing cur w gap i with
  | nil =>
    rw [nonblank, filter_nil, mergeFrom_nil hcur', rejoined_nil, append_nil, inked_append,
      inked_of_blank hw, append_nil, flatMap_singleton] at h
    refine ⟨trivial, fun hlong => ?_, nofun⟩
    rw [cutFurther, if_neg (by omega)] at h
    exact hcut cur i h
  | cons p parts ih =>
    by_cases hp : trim p = []
    · rw [tight_of_blank hp]
      rw [nonblank_of_blank hp] at h ⊢
      have hw' : Blank isSpace (w ++ sep ++ p) := (hw.append hsep).append (trim_eq_nil.1 hp)
      have hgap' : true = true ↔ w ++ sep ++ p ≠ [] := by simp [hne]
      exact ih (i := i) hcur hw' hgap' (by simpa using h) hcur'
    have hp' : ¬Blank isSpace p := fun hb => hp (trim_eq_nil.2 hb)
    rw [tight_cons hcur' hp]
    rw [nonblank_cons hp] at h ⊢
    by_cases hfits : (cur ++ sep ++ p).length ≤ size
    · rw [mergeFrom_of_fits hcur' hfits] at h
      have hjoined : ¬Blank isSpace (cur ++ sep ++ p) := fun hb => hp' (blank_append.1 hb).2
      have hjoined' : cur ++ sep ++ p ≠ [] := fun h => hjoined (h ▸ .nil)
      obtain ⟨x, rest, heq, hlen⟩ := mergeFrom_head sep size (nonblank parts) hjoined'
      have hfirst : Shifted isSpace ((cur ++ sep ++ p ++ x) :: rest.flatMap (cutFurther size seps))
          (inked isSpace (cur ++ (w ++ sep) ++ (p ++ rejoined sep parts)) i) := by
        rw [heq, flatMap_cons, cutFurther, if_pos (hlen hfits), singleton_append] at h
        simpa using h
      obtain rfl := blank_between_eq_nil hcur hp' hw hsep hfirst
      have hgap' : gap = false := by simpa using hgap
      have hnone : false = true ↔ ([] : JsString) ≠ [] := by simp
      have hnext := ih (i := i) hjoined .nil hnone (by simpa using h) hjoined'
      rw [if_pos hfits]
      refine ⟨⟨hgap', hnext.1⟩, fun hlong => ?_, forall_mem_cons.2 ⟨fun hlong => ?_, hnext.2.2⟩⟩
      all_goals
        simp only [length_append] at hfits
        omega
    · rw [mergeFrom_of_not_fits hcur' hfits, flatMap_cons, rejoined_cons] at h
      have htext : cur ++ w ++ (sep ++ p ++ rejoined sep parts) =
          (cur ++ (w ++ sep)) ++ (p ++ rejoined sep parts) := by simp
      rw [htext, inked_append, inked_append (s := cur), inked_of_blank (hw.append hsep),
        append_nil] at h
      have hfirst := ink_further_le hink cur
      have hrest := (ink_flatMap_le (f := cutFurther size seps) (ink_further_le hink)
        (mergeFrom sep size p (nonblank parts))).trans (ink_mergeFrom_le sep size p parts)
      have hall := h.length_eq
      rw [length_append, length_inked, length_inked, flatten_append, ink_append,
        ink_append] at hall
      obtain ⟨hcur₁, hrest₁⟩ := h.of_append (by omega)
      have hnone : false = true ↔ ([] : JsString) ≠ [] := by simp
      have hrest₂ : Shifted isSpace
          ((mergeFrom sep size p (nonblank parts)).flatMap (cutFurther size seps))
          (inked isSpace (p ++ [] ++ rejoined sep parts) (i + (cur ++ (w ++ sep)).length)) := by
        simpa using hrest₁
      have hnext := ih hp' .nil hnone hrest₂ (ne_nil_of_trim hp)
      rw [if_neg hfits]
      refine ⟨hnext.1, fun hlong => ?_, forall_mem_cons.2 ⟨hnext.2.1, hnext.2.2⟩⟩
      rw [cutFurther, if_neg (by omega)] at hcur₁
      exact hcut cur i hcur₁

theorem tight_of_shifted_start (hsep : Blank isSpace sep) (hne : sep ≠ []) (hw : Blank isSpace w)
    (hp : trim p ≠ []) (h : Shifted isSpace
      ((mergeFrom sep size [] (nonblank (p :: parts))).flatMap (cutFurther size seps))
      (inked isSpace (w ++ p ++ rejoined sep parts) i)) :
    Tight sep size 0 gap (p :: parts) ∧
      ∀ q ∈ nonblank (p :: parts), size < q.length → Cuttable size seps q := by
  rw [tight_start hp]
  rw [nonblank_cons hp] at h ⊢
  rw [mergeFrom_nil_cons, append_assoc, inked_append, inked_of_blank hw, nil_append] at h
  have hnone : false = true ↔ ([] : JsString) ≠ [] := by simp
  have hstart : Shifted isSpace
      ((mergeFrom sep size p (nonblank parts)).flatMap (cutFurther size seps))
      (inked isSpace (p ++ [] ++ rejoined sep parts) (i + w.length)) := by
    simpa using h
  have hp' : ¬Blank isSpace p := fun hb => hp (trim_eq_nil.2 hb)
  have hall := tight_of_shifted hink hcut hsep hne hp' .nil hnone hstart
  exact ⟨hall.1, forall_mem_cons.2 hall.2⟩

theorem tight_of_shifted_parts (hsep : Blank isSpace sep) (hne : sep ≠ []) (hw : Blank isSpace w)
    (h : Shifted isSpace
      ((mergeFrom sep size [] (nonblank (p :: parts))).flatMap (cutFurther size seps))
      (inked isSpace (w ++ p ++ rejoined sep parts) i)) :
    Tight sep size 0 gap (p :: parts) ∧
      ∀ q ∈ nonblank (p :: parts), size < q.length → Cuttable size seps q := by
  induction parts generalizing p w gap i with
  | nil =>
    by_cases hp : trim p = []
    · rw [tight_of_blank hp, nonblank_of_blank hp]
      exact ⟨trivial, nofun⟩
    · exact tight_of_shifted_start hink hcut hsep hne hw hp h
  | cons q parts ih =>
    by_cases hp : trim p = []
    · rw [tight_of_blank hp]
      rw [nonblank_of_blank hp] at h ⊢
      have hw' : Blank isSpace (w ++ p ++ sep) := (hw.append (trim_eq_nil.1 hp)).append hsep
      exact ih (i := i) hw' (by simpa using h)
    · exact tight_of_shifted_start hink hcut hsep hne hw hp h

end Lost

theorem cuttable_of_shifted (hseps : ∀ sep ∈ seps, sep ≠ []) {i : ℤ}
    (h : Shifted isSpace (splitRecursive size seps text) (inked isSpace text i)) :
    Cuttable size seps text := by
  induction seps generalizing text i with
  | nil => trivial
  | cons sep seps ih =>
    rw [forall_mem_cons] at hseps
    by_cases hshort : text.length ≤ size
    · exact .inl hshort
    refine .inr ?_
    rw [splitRecursive, if_neg hshort] at h
    dsimp only at h
    split
    · next hfew =>
      rw [if_pos hfew] at h
      exact ih hseps.2 h
    next hmany =>
    rw [if_neg hmany] at h
    have hink (t : JsString) : ink isSpace (splitRecursive size seps t).flatten ≤ ink isSpace t :=
      ink_splitRecursive_le hseps.2 t
    obtain ⟨p, parts, hparts, htext⟩ := splitOn_eq hseps.1 text
    rw [piecesOf, hparts] at hmany h ⊢
    have hsep : Blank isSpace sep := by
      by_contra hsep
      have hlong : size < (p ++ rejoined sep parts).length := by
        rw [← htext]
        exact not_le.1 hshort
      have hlost := ink_merge_parts_lt hsep hlong (not_le.1 hmany)
      have hfurther := ink_flatMap_le (f := cutFurther size seps) (ink_further_le hink)
        (mergeGreedy (nonblank (p :: parts)) sep size)
      have hall := h.length_eq
      rw [length_inked, htext] at hall
      exact absurd (hall.trans_le hfurther) (not_le.2 hlost)
    rw [mergeGreedy, htext] at h
    exact ⟨hsep, tight_of_shifted_parts hink (fun _ _ => ih hseps.2) hsep hseps.1 (w := []) .nil h⟩

/-- The chunks of a text cover it if and only if it can be cut at white space. -/
theorem covers_splitRecursive_iff (hseps : ∀ sep ∈ seps, sep ≠ []) :
    Covers isSpace text (splitRecursive size seps text) ↔ Cuttable size seps text :=
  ⟨fun h => cuttable_of_shifted hseps (h.shifted 0), covers_of_cuttable hseps⟩

end Gnldev.Rag
