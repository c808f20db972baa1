import Gnldev.Durable.Semantic.Reading
import Mathlib.Data.List.Zip

/-!
# What the ladder equates

The verdict does not depend on which value came first (`runRuleLadder_comm`): every comparison is
symmetric, and what is left of two values is what each has more of (`residue_eq`).

A match is to keep numbers apart: the digit blocks are the same by value, or one value writes as one
block what the other splits, and a decimal only matches the same number (`Faithful`). The comparisons
of tokens keep to it (`sameBlocks_of_digitValueEqual`, `sameBlocks_of_digitConcatEqual`). Those of the
texts do not: a point is a space to `charNorm`, whether it is one between digits or not, and `squash`
joins digit blocks. So a match keeps to it exactly if values with the same letters and digits have
their points, or without decimals their cuts, between the same digits (`Telling`,
`ladder_keeps_numbers`).
-/

open List

namespace Gnldev.Durable.Semantic

variable {U : Unicode}

/-! ## Either value first -/

/-- What is kept so far is not in the other value any more. -/
theorem foldl_residueStep {kept l b : List JsString} (h : ∀ t ∈ kept, t ∉ b) :
    l.foldl residueStep (kept ++ l, b) = (kept ++ l.diff b, b.diff l) := by
  induction l generalizing kept b with
  | nil => simp
  | cons t l ih =>
    rw [foldl_cons, residueStep]
    by_cases hmem : t ∈ b
    · have hkept : t ∉ kept := fun hk => h t hk hmem
      rw [if_pos hmem, erase_append_right _ hkept, erase_cons_head,
        ih fun t' ht' hb => h t' ht' (mem_of_mem_erase hb), cons_diff_of_mem hmem,
        diff_cons]
    · have hnot : ∀ t' ∈ kept ++ [t], t' ∉ b := by
        intro t' ht'
        rcases mem_append.1 ht' with hk | hk
        · exact h t' hk
        · rwa [mem_singleton.1 hk]
      have hstep := ih hnot
      rw [append_assoc, append_assoc] at hstep
      rw [if_neg hmem, cons_diff_of_not_mem hmem, diff_cons, erase_of_not_mem hmem]
      exact hstep

/-- What is left are the tokens that a value has more often. -/
theorem residue_eq (ta tb : List JsString) : residue ta tb = (ta.diff tb, tb.diff ta) :=
  @foldl_residueStep [] _ _ nofun

theorem groupConflict_comm (a b : List JsString) (groups : List (List JsString)) :
    groupConflict U a b groups = groupConflict U b a groups := by
  refine congrArg (List.any groups) (funext fun group => ?_)
  dsimp only
  rw [Bool.and_comm (!(a.filter _).isEmpty)]
  exact congrArg _ (decide_eq_decide.2 ne_comm)

theorem differences_comm {x y : JsString} : differences x y = differences y x := by
  rw [differences, differences, ← zip_swap y x, countP_map]
  exact countP_congr fun (u, v) _ => by
    rw [decide_eq_true_eq, Function.comp_apply, Prod.swap_prod_mk, decide_eq_true_eq, ne_comm]

theorem shortCodeEdit1_comm (a b : List JsString) (maxLen : ℤ) :
    shortCodeEdit1 a b maxLen = shortCodeEdit1 b a maxLen := by
  rw [shortCodeEdit1, shortCodeEdit1]
  split
  · rfl
  · rw [Bool.eq_iff_iff, any_eq_true, any_eq_true]
    have hswap {a b : List JsString} (h : ∃ x ∈ a, (b.any fun y =>
        x.length = y.length && (x.length : ℤ) ≤ maxLen && differences x y = 1) = true) :
        ∃ y ∈ b, (a.any fun x =>
          y.length = x.length && (y.length : ℤ) ≤ maxLen && differences y x = 1) = true := by
      obtain ⟨x, hx, hany⟩ := h
      obtain ⟨y, hy, hxy⟩ := any_eq_true.1 hany
      simp only [Bool.and_eq_true, decide_eq_true_eq] at hxy
      refine ⟨y, hy, any_eq_true.2 ⟨x, hx, ?_⟩⟩
      simp only [Bool.and_eq_true, decide_eq_true_eq]
      exact ⟨⟨hxy.1.1.symm, hxy.1.1 ▸ hxy.1.2⟩, differences_comm.trans hxy.2⟩
    exact ⟨hswap, hswap⟩

theorem digitValueEqual_comm (ta tb : List JsString) :
    digitValueEqual U ta tb = digitValueEqual U tb ta := by
  induction ta generalizing tb with
  | nil => cases tb <;> rfl
  | cons x ta ih =>
    cases tb with
    | nil => rfl
    | cons y tb =>
      rw [digitValueEqual, digitValueEqual, ih, Bool.and_comm (isDigits U x)]
      refine congrArg (· && _) ?_
      split <;> exact decide_eq_decide.2 eq_comm

theorem digitConcatEqual_iff {ta tb : List JsString} {rawA rawB : JsString} :
    digitConcatEqual U ta tb rawA rawB ↔ (hasDecimal U rawA = false ∧ hasDecimal U rawB = false) ∧
      (ta.filter fun t => !isDigits U t) = (tb.filter fun t => !isDigits U t) ∧
      ((ta.filter (isDigits U)).length = 1 ∨ (tb.filter (isDigits U)).length = 1) ∧
      (ta.filter (isDigits U)).length ≠ (tb.filter (isDigits U)).length ∧
      (ta.filter (isDigits U)).flatten ≠ [] ∧
      (ta.filter (isDigits U)).flatten = (tb.filter (isDigits U)).flatten := by
  rw [digitConcatEqual]
  split
  · next h =>
    rw [Bool.or_eq_true] at h
    refine iff_of_false Bool.false_ne_true fun hall => ?_
    rcases h with h | h
    · rw [hall.1.1] at h
      cases h
    · rw [hall.1.2] at h
      cases h
  next hdec =>
  rw [Bool.or_eq_true, not_or, Bool.not_eq_true, Bool.not_eq_true] at hdec
  rw [and_iff_right hdec]
  split
  · next h => exact iff_of_false Bool.false_ne_true fun hall => h hall.1
  next halpha =>
  rw [and_iff_right (not_ne_iff.1 halpha)]
  dsimp only
  split
  · next h => exact iff_of_false Bool.false_ne_true fun hall => hall.1.elim h.1 h.2
  next hone =>
  rw [and_iff_right (by rwa [not_and_or, not_ne_iff, not_ne_iff] at hone)]
  split
  · next h => exact iff_of_false Bool.false_ne_true fun hall => hall.1 h
  next hlen =>
  rw [and_iff_right hlen, Bool.and_eq_true, decide_eq_true_eq, decide_eq_true_eq, gt_iff_lt,
    length_pos_iff]

theorem digitConcatEqual_comm (ta tb : List JsString) (rawA rawB : JsString) :
    digitConcatEqual U ta tb rawA rawB = digitConcatEqual U tb ta rawB rawA := by
  have hswap {ta tb rawA rawB} (h : digitConcatEqual U ta tb rawA rawB) :
      digitConcatEqual U tb ta rawB rawA := by
    obtain ⟨hdec, halpha, hone, hlen, hne, hjoin⟩ := digitConcatEqual_iff.1 h
    exact digitConcatEqual_iff.2
      ⟨hdec.symm, halpha.symm, hone.symm, hlen.symm, hjoin ▸ hne, hjoin.symm⟩
  exact Bool.eq_iff_iff.2 ⟨hswap, hswap⟩

theorem evaluateField_comm (field a b : JsString) (cfg : SemanticRulesConfig) (off : List RuleId) :
    (evaluateField U field a b cfg off) = (evaluateField U field b a cfg off) := by
  rw [evaluateField, evaluateField]
  simp only [residue_eq, eq_comm (a := b), eq_comm (a := charNorm U b), eq_comm (a := squash U b),
    Bool.and_comm (!hasDecimal U b), digitValueEqual_comm (tokenize U b),
    digitConcatEqual_comm (tokenize U b) _ b, groupConflict_comm ((tokenize U b).diff _),
    shortCodeEdit1_comm ((tokenize U b).diff _)]

/-- The verdict is the same with prior and incoming exchanged. -/
theorem runRuleLadder_comm (keys : List JsString) (prior incoming : FieldValues)
    (cfg : SemanticRulesConfig) :
    runRuleLadder U keys prior incoming cfg = runRuleLadder U keys incoming prior cfg := by
  rw [runRuleLadder, runRuleLadder]
  simp only [evaluateField_comm _ (valueOf prior _)]

/-! ## Numbers kept apart -/

/-- One block is what the others are together. -/
def SplitInto (a b : List (List JsString)) : Prop := 1 < b.length ∧ a = [b.flatten]

/-- The digit blocks are the same by value, or one value writes as one what the other splits. -/
def SameBlocks (U : Unicode) (a b : JsString) : Prop :=
  (digitBlocks U a).map blockValue = (digitBlocks U b).map blockValue ∨
    SplitInto (digitBlocks U a) (digitBlocks U b) ∨ SplitInto (digitBlocks U b) (digitBlocks U a)

/-- What two values that match have in common. -/
structure Faithful (U : Unicode) (a b : JsString) : Prop where
  blocks : SameBlocks U a b
  decimals : Decimal U a ∨ Decimal U b → numbersOf U a = numbersOf U b

/-- Two values are written so that their numbers can be told apart. -/
structure Telling (U : Unicode) (a b : JsString) : Prop where
  /-- Values with a decimal, and with the same letters and digits set off in the same places, have
      their points between the same digits. -/
  points : Decimal U a ∨ Decimal U b → reading U a = reading U b → pointsOf U a = pointsOf U b
  /-- Values without, and with the same letters and digits, have their digits cut into as many and as
      long blocks, leading zeros aside; or one of them has one block, and the other has more. -/
  cuts : ¬Decimal U a → ¬Decimal U b → (reading U a).map Prod.snd = (reading U b).map Prod.snd →
    (digitBlocks U a).map (length ∘ blockValue) = (digitBlocks U b).map (length ∘ blockValue) ∨
      ((digitBlocks U a).length = 1 ∧ 1 < (digitBlocks U b).length) ∨
      ((digitBlocks U b).length = 1 ∧ 1 < (digitBlocks U a).length)

theorem Faithful.refl (a : JsString) : Faithful U a a := ⟨.inl rfl, fun _ => rfl⟩

/-! ### Blocks of digits -/

section Blocks

variable {l l' : List (List JsString)} {run : List JsString}

/-- A block is its leading zeros and its value. -/
theorem eq_zeros_append (run : List JsString) :
    ∃ n, run = replicate n (js "0") ++ blockValue run := by
  refine ⟨(run.takeWhile (· = js "0")).length, ?_⟩
  have hzeros : run.takeWhile (· = js "0") =
      replicate (run.takeWhile (· = js "0")).length (js "0") :=
    eq_replicate_iff.2 ⟨rfl, fun c hc => of_decide_eq_true (all_eq_true.1 all_takeWhile c hc)⟩
  rw [← hzeros, blockValue, takeWhile_append_dropWhile]

theorem head_blockValue {c : JsString} (h : c ∈ (blockValue run).head?) : c ≠ js "0" := by
  rintro rfl
  have := head?_dropWhile_not (fun c : JsString => decide (c = js "0")) run
  rw [show (run.dropWhile fun c => decide (c = js "0")).head? = some (js "0") from h] at this
  simp at this

/-- Digits that are cut into blocks of the same lengths, zeros aside, have the same values. -/
theorem map_blockValue {m n : ℕ}
    (h : replicate m (js "0") ++ l.flatten = replicate n (js "0") ++ l'.flatten)
    (hlen : l.map (length ∘ blockValue) = l'.map (length ∘ blockValue)) :
    l.map blockValue = l'.map blockValue := by
  induction l generalizing m n l' with
  | nil =>
    cases l' with
    | nil => rfl
    | cons r' l' => cases hlen
  | cons r l ih =>
    cases l' with
    | nil => cases hlen
    | cons r' l' =>
      obtain ⟨i, hr⟩ := eq_zeros_append r
      obtain ⟨j, hr'⟩ := eq_zeros_append r'
      rw [map_cons, map_cons, cons.injEq] at hlen
      obtain ⟨hhead, htail⟩ := hlen
      rw [flatten_cons, flatten_cons, hr, hr', append_assoc, append_assoc, ← append_assoc,
        ← append_assoc (replicate n _), replicate_append_replicate, replicate_append_replicate] at h
      rw [map_cons, map_cons]
      have hval := @head_blockValue r
      have hval' := @head_blockValue r'
      simp only [Function.comp_apply] at hhead
      generalize blockValue r = x at h hhead hval ⊢
      generalize blockValue r' = y at h hhead hval' ⊢
      cases x with
      | nil =>
        obtain rfl : y = [] := length_eq_zero_iff.1 hhead.symm
        rw [ih h htail]
      | cons c x =>
        cases y with
        | nil => cases hhead
        | cons d y =>
          -- the zeros before end where the values begin
          have hbegin : ∀ (k : ℕ) (c : JsString) (s : List JsString), c ≠ js "0" →
              blockValue (replicate k (js "0") ++ c :: s) = c :: s := by
            intro k c s hc
            rw [blockValue, dropWhile_append_of_pos (by simp),
              dropWhile_cons_of_neg (by simpa using hc)]
          have hdrop := congrArg blockValue h
          rw [cons_append, cons_append, hbegin _ _ _ (hval rfl), hbegin _ _ _ (hval' rfl)] at hdrop
          obtain ⟨hxy, hrest⟩ := append_inj (show (c :: x) ++ _ = (d :: y) ++ _ from hdrop) hhead
          rw [hxy, ih (m := 0) (n := 0) (by simpa using hrest) htail]

theorem stripZeros_suffix (run : List JsString) : stripZeros U run <:+ run := by
  induction run with
  | nil => exact suffix_rfl
  | cons c run ih =>
    cases run with
    | nil => exact suffix_rfl
    | cons d run =>
      rw [stripZeros]
      split
      · exact ih.trans (suffix_cons _ _)
      · exact suffix_rfl

/-- The rule leaves one zero of a block of zeros. -/
theorem blockValue_stripZeros (run : List JsString) :
    blockValue (stripZeros U run) = blockValue run := by
  induction run with
  | nil => rfl
  | cons c run ih =>
    cases run with
    | nil => rfl
    | cons d run =>
      rw [stripZeros]
      split
      · next h =>
        have hzero : blockValue (c :: d :: run) = blockValue (d :: run) :=
          dropWhile_cons_of_pos (decide_eq_true h.1)
        rw [ih, hzero]
      · rfl

theorem map_digitVal_of_digitValueEqual {ta tb : List JsString} (h : digitValueEqual U ta tb) :
    (ta.filter (isDigits U)).map (digitVal U) = (tb.filter (isDigits U)).map (digitVal U) := by
  induction ta generalizing tb with
  | nil =>
    cases tb with
    | nil => rfl
    | cons y tb => cases h
  | cons x ta ih =>
    cases tb with
    | nil => cases h
    | cons y tb =>
      rw [digitValueEqual, Bool.and_eq_true] at h
      obtain ⟨hxy, htail⟩ := h
      by_cases hdigits : isDigits U x && isDigits U y
      · rw [if_pos hdigits, decide_eq_true_eq] at hxy
        rw [Bool.and_eq_true] at hdigits
        rw [filter_cons_of_pos hdigits.1, filter_cons_of_pos hdigits.2, map_cons,
          map_cons, hxy, ih htail]
      · rw [if_neg hdigits, decide_eq_true_eq] at hxy
        subst hxy
        rw [Bool.and_self] at hdigits
        rw [filter_cons_of_neg hdigits, filter_cons_of_neg hdigits, ih htail]

theorem splitInto_of_flatten (hone : l.length = 1) (hmore : 1 < l'.length)
    (h : l.flatten = l'.flatten) : SplitInto l l' := by
  obtain ⟨r, rfl⟩ := length_eq_one_iff.1 hone
  exact ⟨hmore, by rw [← h, flatten_singleton]⟩

theorem SplitInto.length (h : SplitInto l l') : l.length = 1 ∧ 1 < l'.length :=
  ⟨by rw [h.2]; rfl, h.1⟩

theorem flatten_runsFrom (run cs : List JsString) :
    (runsFrom U run cs).flatten = run ++ cs.filter fun c => U.classOf c = .number := by
  induction cs generalizing run with
  | nil =>
    unfold runsFrom
    split
    · next h => rw [h]; rfl
    · simp
  | cons c cs ih =>
    unfold runsFrom
    split
    · next h => rw [ih, filter_cons_of_pos (by simpa using h), append_assoc, singleton_append]
    · next h =>
      rw [filter_cons_of_neg (by simpa using h)]
      split
      · next hrun => rw [ih, hrun]
      · rw [flatten_cons, ih, nil_append]

variable {a b : JsString} (hU : U.Lawful) (ha : KeepsDigits U a) (hb : KeepsDigits U b)
include hU ha

theorem whole_of_mem_digitBlocks (hrun : run ∈ digitBlocks U a) : ∀ c ∈ run, Whole c := by
  intro c hc
  have hmem : c ∈ (digitBlocks U a).flatten := mem_flatten_of_mem hrun hc
  rw [← ha, flatten_runsFrom, nil_append, mem_filter, decide_eq_true_eq] at hmem
  exact whole_of_mem hU hmem.1 (by rw [hmem.2]; decide)

theorem filter_tokenize_eq : (tokenize U a).filter (isDigits U) = (digitBlocks U a).map flatten := by
  rw [filter_tokenize hU, ha]

include hb

/-- Values that are read alike have the same blocks. -/
theorem digitBlocks_of_reading (h : reading U a = reading U b) : digitBlocks U a = digitBlocks U b := by
  rw [← ha, ← hb, ← runsFrom_reading hU, ← runsFrom_reading hU, h]

/-- Values with the same letters and digits have the same digits. -/
theorem flatten_digitBlocks (h : (reading U a).map Prod.snd = (reading U b).map Prod.snd) :
    (digitBlocks U a).flatten = (digitBlocks U b).flatten := by
  have hspaced : ∀ l : List (Bool × JsString), (spaced l).filter (fun c => U.classOf c = .number) =
      (l.map Prod.snd).filter fun c => U.classOf c = .number := by
    intro l
    induction l with
    | nil => rfl
    | cons p l ih =>
      obtain ⟨gap, c⟩ := p
      have hgap : (if gap then [js " ", c] else [c]).filter (fun c => U.classOf c = .number) =
          [c].filter fun c => U.classOf c = .number := by
        cases gap with
        | false => rfl
        | true => exact filter_cons_of_neg (by rw [hU.space]; decide)
      have hcons : spaced ((gap, c) :: l) = (if gap then [js " ", c] else [c]) ++ spaced l := rfl
      rw [hcons, filter_append, hgap, ih, ← filter_append]
      rfl
  rw [← ha, ← hb, ← runsFrom_reading hU, ← runsFrom_reading hU, flatten_runsFrom, flatten_runsFrom,
    hspaced, hspaced, h]

/-! ### The comparisons -/

theorem sameBlocks_of_digitValueEqual (h : digitValueEqual U (tokenize U a) (tokenize U b)) :
    SameBlocks U a b := by
  left
  have hdigits := map_digitVal_of_digitValueEqual h
  rw [filter_tokenize_eq hU ha, filter_tokenize_eq hU hb, map_map, map_map] at hdigits
  -- the value of a block can be read off what the rule compares
  have hvalue : ∀ {v}, KeepsDigits U v → (digitBlocks U v).map blockValue =
      ((digitBlocks U v).map (digitVal U ∘ flatten)).map fun s => blockValue (characters s) := by
    intro v hv
    rw [map_map]
    refine map_congr_left fun run hrun => ?_
    have hwhole := whole_of_mem_digitBlocks hU hv hrun
    rw [Function.comp_apply, Function.comp_apply, digitVal, characters_flatten hwhole,
      characters_flatten fun c hc => hwhole c ((stripZeros_suffix run).subset hc),
      blockValue_stripZeros]
  rw [hvalue ha, hvalue hb, hdigits]

theorem sameBlocks_of_digitConcatEqual {rawA rawB : JsString}
    (h : digitConcatEqual U (tokenize U a) (tokenize U b) rawA rawB) : SameBlocks U a b := by
  obtain ⟨-, -, hone, hlen, hne, hjoin⟩ := digitConcatEqual_iff.1 h
  rw [filter_tokenize_eq hU ha] at hone hlen hne hjoin
  rw [filter_tokenize_eq hU hb] at hone hlen hjoin
  rw [length_map, length_map] at hone hlen
  have hwhole : ∀ {v}, KeepsDigits U v → ∀ c ∈ (digitBlocks U v).flatten, Whole c := by
    intro v hv c hc
    obtain ⟨run, hrun, hmem⟩ := mem_flatten.1 hc
    exact whole_of_mem_digitBlocks hU hv hrun c hmem
  rw [← flatten_flatten, ← flatten_flatten] at hjoin
  have hdigits := flatten_inj (hwhole ha) (hwhole hb) hjoin
  have hpos : ∀ {l : List (List JsString)}, l.flatten.flatten ≠ [] → l.length ≠ 0 := by
    intro l hl h0
    rw [length_eq_zero_iff.1 h0] at hl
    exact hl rfl
  rw [← flatten_flatten] at hne
  have ha0 := hpos hne
  have hb0 := hpos (hjoin ▸ hne)
  rcases hone with hone | hone
  · exact .inr (.inl (splitInto_of_flatten hone (by omega) hdigits))
  · exact .inr (.inr (splitInto_of_flatten hone (by omega) hdigits.symm))

/-- With the same letters and digits, the blocks are the same exactly if the digits are cut alike. -/
theorem sameBlocks_iff (h : (reading U a).map Prod.snd = (reading U b).map Prod.snd) :
    SameBlocks U a b ↔
      ((digitBlocks U a).map (length ∘ blockValue) = (digitBlocks U b).map (length ∘ blockValue) ∨
        ((digitBlocks U a).length = 1 ∧ 1 < (digitBlocks U b).length) ∨
        ((digitBlocks U b).length = 1 ∧ 1 < (digitBlocks U a).length)) := by
  have hdigits := flatten_digitBlocks hU ha hb h
  constructor
  · rintro (hvalue | hsplit | hsplit)
    · left
      rw [← map_map, ← map_map, hvalue]
    · exact .inr (.inl hsplit.length)
    · exact .inr (.inr hsplit.length)
  · rintro (hlen | ⟨hone, hmore⟩ | ⟨hone, hmore⟩)
    · exact .inl (map_blockValue (m := 0) (n := 0) (by simpa using hdigits) hlen)
    · exact .inr (.inl (splitInto_of_flatten hone hmore hdigits))
    · exact .inr (.inr (splitInto_of_flatten hone hmore hdigits.symm))

/-- Values that are read alike have the same numbers exactly if they have the same points. -/
theorem numbersOf_iff (h : reading U a = reading U b) :
    numbersOf U a = numbersOf U b ↔ pointsOf U a = pointsOf U b := by
  have hblocks : (blocksOf U a).map Prod.snd = (blocksOf U b).map Prod.snd :=
    digitBlocks_of_reading hU ha hb h
  constructor
  · intro hnumbers
    obtain ⟨-, htail⟩ := joinBlocks_inj hnumbers
    -- no point stands before the first
    have hfirst := @head_blocksOf U
    rw [pointsOf, pointsOf]
    have hheadA := @hfirst a
    have hheadB := @hfirst b
    generalize blocksOf U a = l at hblocks htail hheadA ⊢
    generalize blocksOf U b = l' at hblocks htail hheadB ⊢
    cases l with
    | nil =>
      cases l' with
      | nil => rfl
      | cons p' l' => cases hblocks
    | cons p l =>
      cases l' with
      | nil => cases hblocks
      | cons p' l' =>
        rw [tail_cons, tail_cons] at htail
        rw [map_cons, map_cons, hheadA rfl, hheadB rfl, htail]
  · intro hpoints
    have heq : blocksOf U a = blocksOf U b := by
      rw [← zip_unzip (blocksOf U a), ← zip_unzip (blocksOf U b), unzip_eq_map, unzip_eq_map]
      exact congrArg₂ zip hpoints hblocks
    rw [numbersOf, numbersOf, heq]

/-- A match keeps numbers apart exactly if the values are written so that they can be told apart. -/
theorem matched_faithful_iff {field : JsString} {cfg : SemanticRulesConfig} {off : List RuleId} :
    ((evaluateField U field a b cfg off).dir = .matched → Faithful U a b) ↔
      (.punctSpace ∉ off → a ≠ b → Telling U a b) := by
  have hsafe : ((!hasDecimal U a && !hasDecimal U b) = true) ↔ ¬Decimal U a ∧ ¬Decimal U b := by
    rw [Bool.and_eq_true, Bool.not_eq_true', Bool.not_eq_true', ← Bool.not_eq_true,
      ← Bool.not_eq_true, hasDecimal_iff, hasDecimal_iff]
  have hplain (h : ¬Decimal U a ∧ ¬Decimal U b) (hblocks : SameBlocks U a b) : Faithful U a b :=
    ⟨hblocks, fun hdec => absurd hdec (not_or.2 h)⟩
  rw [evaluateField]
  dsimp only
  split
  · next h =>
    subst h
    exact iff_of_true (fun _ => .refl a) fun _ hne => absurd rfl hne
  next hab =>
  split
  · next h =>
    have hread := (charNorm_eq_iff hU).1 h.2
    have hblocks := digitBlocks_of_reading hU ha hb hread
    constructor
    · intro hf _ _
      have hfaith := hf rfl
      exact ⟨fun hdec _ => (numbersOf_iff hU ha hb hread).1 (hfaith.decimals hdec),
        fun _ _ _ => .inl (by rw [hblocks])⟩
    · intro hk _
      exact ⟨.inl (by rw [hblocks]),
        fun hdec => (numbersOf_iff hU ha hb hread).2 ((hk h.1 hab).points hdec hread)⟩
  next htext =>
  split
  · next h =>
    have hletters := (squash_eq_iff hU).1 h.2.2
    have hdec := hsafe.1 h.2.1
    constructor
    · exact fun hf _ _ => ⟨fun hor => absurd hor (not_or.2 hdec),
        fun _ _ _ => (sameBlocks_iff hU ha hb hletters).1 (hf rfl).blocks⟩
    · exact fun hk _ => hplain hdec
        ((sameBlocks_iff hU ha hb hletters).2 ((hk h.1 hab).cuts hdec.1 hdec.2 hletters))
  next hsquash =>
  have hkeep : .punctSpace ∉ off → a ≠ b → Telling U a b := fun hon _ =>
    ⟨fun _ hread => absurd ⟨hon, (charNorm_eq_iff hU).2 hread⟩ htext, fun hda hdb hletters =>
      absurd ⟨hon, hsafe.2 ⟨hda, hdb⟩, (squash_eq_iff hU).2 hletters⟩ hsquash⟩
  refine iff_of_true ?_ hkeep
  split
  · next h => exact fun _ => hplain (hsafe.1 h.2.1) (sameBlocks_of_digitValueEqual hU ha hb h.2.2)
  split
  · next h =>
    have hdec := (digitConcatEqual_iff.1 h.2).1
    refine fun _ => hplain (hsafe.1 ?_) (sameBlocks_of_digitConcatEqual hU ha hb h.2)
    rw [hdec.1, hdec.2]
    rfl
  -- A separator does not match, and neither does what is left.
  split
  · exact nofun
  split
  · exact nofun
  split <;> exact nofun

end Blocks

/-- The verdict does not depend on the order; and a match of two values whose digits survive folding
    keeps their numbers apart exactly if they are written so that these can be told apart. -/
theorem ladder_keeps_numbers (U : Unicode) (cfg : SemanticRulesConfig) :
    (∀ keys prior incoming, (runRuleLadder U keys prior incoming cfg).kind =
      (runRuleLadder U keys incoming prior cfg).kind) ∧
    (U.Lawful → ∀ field a b, KeepsDigits U a → KeepsDigits U b →
      (((evaluateField U field a b cfg (cfg.disable.getD [])).dir = .matched → Faithful U a b) ↔
        (.punctSpace ∉ cfg.disable.getD [] → a ≠ b → Telling U a b))) :=
  ⟨fun keys prior incoming => congrArg _ (runRuleLadder_comm keys prior incoming cfg),
    fun hU _ _ _ ha hb => matched_faithful_iff hU ha hb⟩

/-- Unicode on ASCII texts. -/
def ascii : Unicode where
  nfd v := v
  toLowerCase v := v.map fun u => if 0x41 ≤ u ∧ u ≤ 0x5A then u + 0x20 else u
  classOf c :=
    if c.all fun u => 0x30 ≤ u ∧ u ≤ 0x39 then .number
    else if c.all fun u => (0x41 ≤ u ∧ u ≤ 0x5A) ∨ (0x61 ≤ u ∧ u ≤ 0x7A) then .letter
    else .other

theorem ascii_lawful : ascii.Lawful where
  space := by decide
  surrogate u hu _ := by
    have h : ∀ w : UInt16, w < 0xD800 → ¬u ≤ w := fun w hw hle =>
      absurd (UInt16.lt_of_lt_of_le hw hu) (UInt16.not_lt.2 hle)
    simp [ascii, h]

/-- A number that one value writes as one block, and the other splits. -/
theorem ladder_keeps_invoice : Faithful ascii (js "INV-2026-00142") (js "inv 202600142") := by
  refine ((ladder_keeps_numbers ascii DEFAULT_RULES).2 ascii_lawful (js "f") _ _ ?_ ?_).2
    (fun _ _ => ⟨fun hdec => ?_, fun _ _ _ => ?_⟩) ?_
  · rw [KeepsDigits]
    decide
  · rw [KeepsDigits]
    decide
  · rw [← hasDecimal_iff, ← hasDecimal_iff] at hdec
    exact absurd hdec (by decide)
  · exact .inr (.inr ⟨by decide, by decide⟩)
  · decide +kernel

/-- Two lots are one job, and so are a decimal and two numbers. -/
theorem lots_equated :
    (let ladder (a b : String) :=
      (runRuleLadder ascii [js "f"] [(js "f", js a)] [(js "f", js b)] DEFAULT_RULES).kind
    ladder "lot 1 23" "lot 12 3" = .matched ∧ ladder "1.5 kg" "1 5 kg" = .matched) ∧
    ¬Faithful ascii (js "lot 1 23") (js "lot 12 3") ∧
    ¬Faithful ascii (js "1.5 kg") (js "1 5 kg") := by
  refine ⟨by decide, fun h => ?_, fun h => ?_⟩
  · rcases h.blocks with h | ⟨-, h⟩ | ⟨-, h⟩ <;> exact absurd h (by decide)
  · exact absurd (h.decimals (.inl (hasDecimal_iff.1 (by decide)))) (by decide)

end Gnldev.Durable.Semantic
