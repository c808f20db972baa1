import Gnldev.Durable.Semantic.Rules

/-!
# How a text is read

The numbers of a value as it was given are its blocks of digits, and the points that join them to
decimals (`blocksOf`). The rules read them off a text they have folded, collapsed and cut into tokens.
What they compare is determined here: `charNorm` gives away the letters and digits of the folded text
and where they are set off from each other (`charNorm_eq_iff`), `squash` the letters and digits
(`squash_eq_iff`), and the tokens the blocks of the folded text (`filter_tokenize`).

Folding is Unicode's; that it leaves the blocks of a value as they are is `KeepsDigits`.
-/

open List

namespace Gnldev.Durable.Semantic

/-! ## The numbers of a text -/

section Numbers

variable (U : Unicode)

/-- The blocks of digits among characters, after the beginning of one, each with whether a point and
    nothing else joins it to the block before. -/
def blocksFrom (joined : Bool) (run : List JsString) : List JsString → List (Bool × List JsString)
  | [] => if run = [] then [] else [(joined, run)]
  | c :: s =>
    if U.classOf c = .number then blocksFrom joined (run ++ [c]) s
    else if run = [] then blocksFrom false [] s
    else (joined, run) :: blocksFrom (isPoint c && s.head?.any fun d => U.classOf d = .number) [] s

/-- The blocks of a value. The case of a digit (of a Roman number) is no part of it. -/
def blocksOf (v : JsString) : List (Bool × List JsString) :=
  (blocksFrom U false [] (characters v)).map fun (joined, run) => (joined, run.map U.toLowerCase)

def digitBlocks (v : JsString) : List (List JsString) := (blocksOf U v).map Prod.snd

/-- Which blocks a point joins to the block before. -/
def pointsOf (v : JsString) : List Bool := (blocksOf U v).map Prod.fst

/-- The blocks, those joined by points together. -/
def joinBlocks : List (Bool × List JsString) → List (List (List JsString))
  | [] => []
  | b :: blocks =>
    match joinBlocks blocks with
    | [] => [[b.2]]
    | number :: numbers =>
      if blocks.head?.any Prod.fst then (b.2 :: number) :: numbers else [b.2] :: number :: numbers

/-- The numbers of a value, decimals among them. -/
def numbersOf (v : JsString) : List (List (List JsString)) := joinBlocks (blocksOf U v)

/-- A number, a point and a number somewhere. -/
def Decimal (v : JsString) : Prop :=
  ∃ pre a p b post, characters v = pre ++ a :: p :: b :: post ∧ U.classOf a = .number ∧
    isPoint p ∧ U.classOf b = .number

/-- What a block is worth: the digits without leading zeros. -/
def blockValue (run : List JsString) : List JsString := run.dropWhile (· = js "0")

end Numbers

section NumbersLemmas

variable {U : Unicode}

theorem hasDecimal_iff {v : JsString} : hasDecimal U v ↔ Decimal U v := by
  rw [hasDecimal, Decimal]
  generalize characters v = cs
  constructor
  · intro h
    induction cs with
    | nil => cases h
    | cons a cs ih =>
      match cs, h with
      | b :: c :: s, h =>
        rw [hasDecimalIn, Bool.or_eq_true] at h
        rcases h with h | h
        · simp only [Bool.and_eq_true, decide_eq_true_eq] at h
          exact ⟨[], a, b, c, s, rfl, h.1.1, h.1.2, h.2⟩
        · obtain ⟨pre, x, p, y, post, hcs, hrest⟩ := ih h
          exact ⟨a :: pre, x, p, y, post, by rw [hcs, cons_append], hrest⟩
  · rintro ⟨pre, a, p, b, post, rfl, ha, hp, hb⟩
    induction pre with
    | nil => simp [hasDecimalIn, ha, hp, hb]
    | cons c pre ih =>
      cases pre with
      | nil => simpa [hasDecimalIn] using Or.inr ih
      | cons d pre =>
        cases pre <;> simpa [hasDecimalIn] using Or.inr ih

/-- No point stands before the first block. -/
theorem head_blocksFrom (run cs : List JsString) :
    ∀ p ∈ (blocksFrom U false run cs).head?, p.1 = false := by
  induction cs generalizing run with
  | nil =>
    unfold blocksFrom
    split
    · exact nofun
    · rintro p ⟨⟩
      rfl
  | cons c cs ih =>
    unfold blocksFrom
    split
    · exact ih _
    split
    · exact ih _
    · rintro p ⟨⟩
      rfl

theorem head_blocksOf {v : JsString} {p : Bool × List JsString} (h : p ∈ (blocksOf U v).head?) :
    p.1 = false := by
  rw [blocksOf, head?_map] at h
  obtain ⟨q, hq, rfl⟩ := Option.map_eq_some_iff.1 h
  exact head_blocksFrom _ _ q hq

theorem joinBlocks_ne_nil {b : Bool × List JsString} {blocks : List (Bool × List JsString)} :
    joinBlocks (b :: blocks) ≠ [] := by
  unfold joinBlocks
  split
  · exact cons_ne_nil _ _
  · split <;> exact cons_ne_nil _ _

theorem eq_nil_of_joinBlocks {blocks : List (Bool × List JsString)} (h : joinBlocks blocks = []) :
    blocks = [] := by
  cases blocks with
  | nil => rfl
  | cons b blocks => exact absurd h joinBlocks_ne_nil

theorem nil_notMem_joinBlocks {blocks : List (Bool × List JsString)} : [] ∉ joinBlocks blocks := by
  induction blocks with
  | nil => exact not_mem_nil
  | cons b blocks ih =>
    unfold joinBlocks
    split
    · simp
    · next number numbers hjoin =>
      rw [hjoin] at ih
      have htail : [] ∉ numbers := fun h => ih (.tail _ h)
      split
      · simpa using htail
      · simpa using ih

/-- The numbers give away the blocks and the points between them. -/
theorem joinBlocks_inj {l l' : List (Bool × List JsString)} (h : joinBlocks l = joinBlocks l') :
    l.map Prod.snd = l'.map Prod.snd ∧ l.tail.map Prod.fst = l'.tail.map Prod.fst := by
  induction l generalizing l' with
  | nil =>
    cases l' with
    | nil => exact ⟨rfl, rfl⟩
    | cons b' l' => exact absurd h.symm joinBlocks_ne_nil
  | cons b l ih =>
    cases l' with
    | nil => exact absurd h joinBlocks_ne_nil
    | cons b' l' =>
      -- the second block is joined to the first on both sides, or on neither
      have hnil : [] ∉ joinBlocks l := nil_notMem_joinBlocks
      have hnil' : [] ∉ joinBlocks l' := nil_notMem_joinBlocks
      have hstep : b.2 = b'.2 ∧ joinBlocks l = joinBlocks l' ∧
          (l.head?.any Prod.fst = l'.head?.any Prod.fst) := by
        cases hl : joinBlocks l with
        | nil =>
          obtain rfl := eq_nil_of_joinBlocks hl
          cases hl' : joinBlocks l' with
          | nil =>
            obtain rfl := eq_nil_of_joinBlocks hl'
            exact ⟨by simpa [joinBlocks] using h, rfl, rfl⟩
          | cons number' numbers' =>
            simp only [joinBlocks, hl'] at h
            split at h
            · simp only [cons.injEq] at h
              exact absurd (hl' ▸ h.1.2 ▸ .head _) hnil'
            · simp only [cons.injEq, reduceCtorEq, and_false] at h
        | cons number numbers =>
          cases hl' : joinBlocks l' with
          | nil =>
            simp only [joinBlocks, hl, hl'] at h
            split at h
            · simp only [cons.injEq] at h
              exact absurd (hl ▸ h.1.2 ▸ .head _) hnil
            · simp only [cons.injEq, reduceCtorEq, and_false] at h
          | cons number' numbers' =>
            simp only [joinBlocks, hl, hl'] at h
            split at h <;> split at h <;> simp only [cons.injEq] at h
            · next hj hj' => exact ⟨h.1.1, by rw [h.1.2, h.2], by rw [hj, hj']⟩
            · exact absurd (hl ▸ h.1.2 ▸ .head _) hnil
            · exact absurd (hl' ▸ h.1.2 ▸ .head _) hnil'
            · next hj hj' =>
              rw [Bool.not_eq_true] at hj hj'
              exact ⟨h.1.1, by rw [h.2.1, h.2.2], by rw [hj, hj']⟩
      obtain ⟨hb, hrest, hhead⟩ := hstep
      obtain ⟨hsnd, hfst⟩ := ih hrest
      refine ⟨by rw [map_cons, map_cons, hb, hsnd], ?_⟩
      cases l with
      | nil =>
        cases l' with
        | nil => rfl
        | cons c' l' => cases hsnd
      | cons c l =>
        cases l' with
        | nil => cases hsnd
        | cons c' l' =>
          simp only [head?_cons, Option.any_some] at hhead
          simp only [tail_cons, map_cons] at hfst ⊢
          rw [hhead, hfst]

end NumbersLemmas

/-! ## Characters -/

/-- What the classes of characters are relied on for. -/
structure Unicode.Lawful (U : Unicode) : Prop where
  space : U.classOf (js " ") = .other
  /-- Half a character is neither letter nor number. -/
  surrogate : ∀ u, 0xD800 ≤ u → u < 0xDC00 → U.classOf [u] = .other

/-- A character that does not run into the next. -/
def Whole (c : JsString) : Prop :=
  (∃ u, c = [u] ∧ ¬(0xD800 ≤ u ∧ u < 0xDC00)) ∨
    ∃ u v, c = [u, v] ∧ 0xD800 ≤ u ∧ u < 0xDC00 ∧ 0xDC00 ≤ v ∧ v < 0xE000

section Characters

variable {U : Unicode}

theorem whole_space : Whole (js " ") := .inl ⟨0x20, rfl, by decide⟩

theorem characters_flatten {cs : List JsString} (h : ∀ c ∈ cs, Whole c) :
    characters cs.flatten = cs := by
  induction cs with
  | nil => rfl
  | cons c cs ih =>
    have hcs := ih fun d hd => h d (.tail _ hd)
    rcases h c (.head _) with ⟨u, rfl, hu⟩ | ⟨u, v, rfl, hu⟩
    · rw [flatten_cons, singleton_append]
      cases hrest : cs.flatten with
      | nil =>
        rw [hrest] at hcs
        rw [← hcs]
        rfl
      | cons w rest =>
        rw [characters, if_neg fun hpair => hu ⟨hpair.1, hpair.2.1⟩, ← hrest, hcs]
    · rw [flatten_cons, cons_append, singleton_append, characters, if_pos hu, hcs]

theorem flatten_inj {cs ds : List JsString} (hc : ∀ c ∈ cs, Whole c) (hd : ∀ d ∈ ds, Whole d)
    (h : cs.flatten = ds.flatten) : cs = ds := by
  rw [← characters_flatten hc, h, characters_flatten hd]

theorem whole_of_mem (hU : U.Lawful) {s c : JsString} (hc : c ∈ characters s)
    (hclass : U.classOf c ≠ .other) : Whole c := by
  induction s using characters.induct with
  | case1 => cases hc
  | case2 u =>
    rw [characters, mem_singleton] at hc
    subst hc
    exact .inl ⟨u, rfl, fun hu => hclass (hU.surrogate u hu.1 hu.2)⟩
  | case3 u v s hpair ih =>
    rw [characters, if_pos hpair] at hc
    rcases mem_cons.1 hc with rfl | hc
    · exact .inr ⟨u, v, rfl, hpair⟩
    · exact ih hc
  | case4 u v s hpair ih =>
    rw [characters, if_neg hpair] at hc
    rcases mem_cons.1 hc with rfl | hc
    · exact .inl ⟨u, rfl, fun hu => hclass (hU.surrogate u hu.1 hu.2)⟩
    · exact ih hc

/-- A letter or a digit has no space in it. -/
theorem space_notMem (hU : U.Lawful) {c : JsString} (hc : Whole c) (hclass : U.classOf c ≠ .other) :
    0x20 ∉ c := by
  rcases hc with ⟨u, rfl, -⟩ | ⟨u, v, rfl, hu, -, hv, -⟩
  · intro h
    rw [mem_singleton] at h
    subst h
    exact hclass hU.space
  · intro h
    rcases mem_cons.1 h with rfl | h
    · exact absurd hu (by decide)
    · rw [mem_singleton] at h
      subst h
      exact absurd hv (by decide)

end Characters

/-! ## What the rules read -/

section Reading

variable (U : Unicode)

/-- A value in the form in which characters are compared: decomposed, without the diacritics, in lower
    case, and with a dot on every i. -/
def folded (v : JsString) : JsString :=
  U.toLowerCase (((U.nfd v).filter fun u => !(0x300 ≤ u && u ≤ 0x36F)).map fun u =>
    if u = 0x131 then 0x69 else u)

/-- The letters and digits among characters, each with whether anything else is before it. -/
def readFrom (gap : Bool) : List JsString → List (Bool × JsString)
  | [] => []
  | c :: s => if U.classOf c = .other then readFrom true s else (gap, c) :: readFrom false s

/-- Nothing is before the first. -/
def closeFirst : List (Bool × JsString) → List (Bool × JsString)
  | [] => []
  | (_, c) :: l => (false, c) :: l

/-- The letters and digits of a folded value, and where they are set off. -/
def reading (v : JsString) : List (Bool × JsString) :=
  closeFirst (readFrom U false (characters (folded U v)))

/-- The characters of a reading, with spaces. -/
def spaced (l : List (Bool × JsString)) : List JsString :=
  l.flatMap fun (gap, c) => if gap then [js " ", c] else [c]

/-- The blocks of digits among characters, after the beginning of one. -/
def runsFrom (run : List JsString) : List JsString → List (List JsString)
  | [] => if run = [] then [] else [run]
  | c :: s =>
    if U.classOf c = .number then runsFrom (run ++ [c]) s
    else if run = [] then runsFrom [] s
    else run :: runsFrom [] s

/-- Folding leaves the blocks of digits of a value as they are: no diacritic stands between two
    digits. -/
def KeepsDigits (v : JsString) : Prop := runsFrom U [] (characters (folded U v)) = digitBlocks U v

variable {U}

/-! ### The collapsed text -/

theorem collapseOthers_eq (cs : List JsString) :
    (∃ t, (t = [] ∨ t = js " ") ∧
      collapseOthers U false cs = (spaced (readFrom U false cs)).flatten ++ t) ∧
    ∃ t, (t = [] ∨ t = js " ") ∧
      js " " ++ collapseOthers U true cs = (spaced (readFrom U true cs)).flatten ++ t := by
  induction cs with
  | nil => exact ⟨⟨[], .inl rfl, rfl⟩, js " ", .inr rfl, rfl⟩
  | cons c cs ih =>
    obtain ⟨⟨t, ht, hfalse⟩, t', ht', htrue⟩ := ih
    by_cases hc : U.classOf c = .other
    · simp only [collapseOthers, readFrom, if_pos hc]
      exact ⟨⟨t', ht', htrue⟩, t', ht', htrue⟩
    · simp only [collapseOthers, readFrom, if_neg hc, hfalse]
      refine ⟨⟨t, ht, ?_⟩, t, ht, ?_⟩
      · simp [spaced]
      · simp [spaced]

/-- Spaces around a text that has none at its ends. -/
theorem trimSpaces_pad {x g t : JsString} (hg : g = [] ∨ g = js " ") (ht : t = [] ∨ t = js " ")
    (hhead : ∀ u ∈ x.head?, u ≠ 0x20) (hlast : ∀ u ∈ x.getLast?, u ≠ 0x20) :
    trimSpaces (g ++ x ++ t) = x := by
  have hdrop : ∀ {x g : JsString}, (g = [] ∨ g = js " ") → (∀ u ∈ x.head?, u ≠ 0x20) →
      (g ++ x).dropWhile (· = 0x20) = x := by
    intro x g hg hhead
    have hx : x.dropWhile (· = 0x20) = x := by
      cases x with
      | nil => rfl
      | cons u x => exact dropWhile_cons_of_neg (by simpa using hhead u rfl)
    rcases hg with rfl | rfl
    · exact hx
    · exact hx
  cases x with
  | nil => rcases hg with rfl | rfl <;> rcases ht with rfl | rfl <;> decide
  | cons u x =>
    have hht : ∀ w ∈ ((u :: x) ++ t).head?, w ≠ 0x20 := by simpa using hhead
    have hrev : ((u :: x) ++ t).reverse = t.reverse ++ (u :: x).reverse := reverse_append
    have htr : t.reverse = [] ∨ t.reverse = js " " := by
      rcases ht with rfl | rfl
      · exact .inl rfl
      · exact .inr rfl
    rw [trimSpaces, append_assoc, hdrop hg hht, hrev, hdrop htr (by rwa [head?_reverse]),
      reverse_reverse]

theorem mem_readFrom {gap : Bool} {cs : List JsString} {p : Bool × JsString}
    (h : p ∈ readFrom U gap cs) : p.2 ∈ cs ∧ U.classOf p.2 ≠ .other := by
  induction cs generalizing gap with
  | nil => cases h
  | cons c cs ih =>
    unfold readFrom at h
    split at h
    · exact (ih h).imp_left (.tail _)
    · next hc =>
      rcases mem_cons.1 h with rfl | h
      · exact ⟨.head _, hc⟩
      · exact (ih h).imp_left (.tail _)

theorem mem_closeFirst {l : List (Bool × JsString)} {p : Bool × JsString} (h : p ∈ closeFirst l) :
    ∃ gap, (gap, p.2) ∈ l := by
  cases l with
  | nil => cases h
  | cons q l =>
    rcases mem_cons.1 h with rfl | h
    · exact ⟨q.1, .head _⟩
    · exact ⟨p.1, .tail _ h⟩

/-- What a reading consists of. -/
theorem mem_reading (hU : U.Lawful) {v : JsString} {p : Bool × JsString} (h : p ∈ reading U v) :
    Whole p.2 ∧ U.classOf p.2 ≠ .other ∧ 0x20 ∉ p.2 ∧ p.2 ≠ [] := by
  obtain ⟨gap, hgap⟩ := mem_closeFirst h
  obtain ⟨hmem, hclass⟩ := mem_readFrom hgap
  have hwhole := whole_of_mem hU hmem hclass
  refine ⟨hwhole, hclass, space_notMem hU hwhole hclass, ?_⟩
  rcases hwhole with ⟨u, he, -⟩ | ⟨u, w, he, -⟩
  · rw [he]
    exact cons_ne_nil _ _
  · rw [he]
    exact cons_ne_nil _ _

theorem charNorm_eq (hU : U.Lawful) (v : JsString) :
    charNorm U v = (spaced (reading U v)).flatten := by
  obtain ⟨⟨t, ht, hcollapse⟩, -⟩ := collapseOthers_eq (U := U) (characters (folded U v))
  have hread := @mem_reading U hU v
  change trimSpaces (collapseOthers U false (characters (folded U v))) = _
  rw [hcollapse]
  rw [reading] at hread ⊢
  revert hread
  cases readFrom U false (characters (folded U v)) with
  | nil =>
    intro _
    exact trimSpaces_pad (.inl rfl) ht nofun nofun
  | cons p l =>
    intro hread
    obtain ⟨gap, c⟩ := p
    have hpad : (spaced ((gap, c) :: l)).flatten =
        (if gap then js " " else []) ++ (spaced (closeFirst ((gap, c) :: l))).flatten := by
      cases gap <;> simp [spaced, closeFirst]
    rw [hpad]
    refine trimSpaces_pad ?_ ht ?_ ?_
    · cases gap
      · exact .inl rfl
      · exact .inr rfl
    · intro u hu
      obtain ⟨-, -, hspace, hne⟩ := hread (p := (false, c)) (.head _)
      have hhead : u ∈ c.head? := by
        cases c with
        | nil => exact absurd rfl hne
        | cons w c => simpa [spaced, closeFirst] using hu
      exact fun he => hspace (he ▸ mem_of_mem_head? hhead)
    · intro u hu
      obtain ⟨l', q, hl⟩ := (eq_nil_or_concat (closeFirst ((gap, c) :: l))).resolve_left
        (cons_ne_nil _ _)
      rw [hl] at hu hread
      obtain ⟨-, -, hspace, hne⟩ := hread (p := q) (by simp)
      have hlast : u ∈ q.2.getLast? := by
        obtain ⟨gap', d⟩ := q
        cases gap' <;> simpa [spaced, getLast?_append, getLast?_eq_some_getLast hne] using hu
      exact fun he => hspace (he ▸ mem_of_mem_getLast? hlast)

theorem whole_of_mem_spaced (hU : U.Lawful) {v c : JsString} (h : c ∈ spaced (reading U v)) :
    Whole c := by
  obtain ⟨⟨gap, d⟩, hp, hc⟩ := mem_flatMap.1 h
  have hwhole := (mem_reading hU hp).1
  cases gap with
  | false =>
    change c ∈ [d] at hc
    exact mem_singleton.1 hc ▸ hwhole
  | true =>
    change c ∈ [js " ", d] at hc
    rcases mem_cons.1 hc with rfl | hc
    · exact whole_space
    · exact mem_singleton.1 hc ▸ hwhole

theorem characters_charNorm (hU : U.Lawful) (v : JsString) :
    characters (charNorm U v) = spaced (reading U v) := by
  rw [charNorm_eq hU, characters_flatten fun c => whole_of_mem_spaced hU]

/-- Spaces can be told from letters and digits. -/
theorem spaced_inj {l l' : List (Bool × JsString)} (h : ∀ p ∈ l, p.2 ≠ js " ")
    (h' : ∀ p ∈ l', p.2 ≠ js " ") (heq : spaced l = spaced l') : l = l' := by
  have hcons : ∀ (gap : Bool) (c : JsString) (l : List (Bool × JsString)),
      spaced ((gap, c) :: l) = (if gap then [js " ", c] else [c]) ++ spaced l := fun _ _ _ => rfl
  induction l generalizing l' with
  | nil =>
    cases l' with
    | nil => rfl
    | cons p' l' => obtain ⟨gap', c'⟩ := p'; cases gap' <;> cases heq
  | cons p l ih =>
    obtain ⟨gap, c⟩ := p
    cases l' with
    | nil => cases gap <;> cases heq
    | cons p' l' =>
      obtain ⟨gap', c'⟩ := p'
      have hc : c ≠ js " " := h (gap, c) (.head _)
      have hc' : c' ≠ js " " := h' (gap', c') (.head _)
      have hrest : ∀ {l'' : List (Bool × JsString)}, (∀ p ∈ l'', p.2 ≠ js " ") →
          spaced l = spaced l'' → l = l'' := fun hl'' => ih (fun q hq => h q (.tail _ hq)) hl''
      have hl' : ∀ p ∈ l', p.2 ≠ js " " := fun q hq => h' q (.tail _ hq)
      rw [hcons, hcons] at heq
      cases gap <;> cases gap' <;>
        simp only [if_pos, if_false, Bool.false_eq_true, cons_append, nil_append,
          cons.injEq, true_and] at heq
      · rw [heq.1, hrest hl' heq.2]
      · exact absurd heq.1 hc
      · exact absurd heq.1.symm hc'
      · rw [heq.1, hrest hl' heq.2]

/-- The text that is compared gives away the reading. -/
theorem charNorm_eq_iff (hU : U.Lawful) {a b : JsString} :
    charNorm U a = charNorm U b ↔ reading U a = reading U b := by
  constructor
  · intro h
    have hspaced : spaced (reading U a) = spaced (reading U b) := by
      rw [← characters_charNorm hU, ← characters_charNorm hU, h]
    have hne : ∀ v, ∀ p ∈ reading U v, p.2 ≠ js " " := fun v p hp he =>
      (mem_reading hU hp).2.1 (he ▸ hU.space)
    exact spaced_inj (hne a) (hne b) hspaced
  · intro h
    rw [charNorm_eq hU, charNorm_eq hU, h]

theorem squash_eq (hU : U.Lawful) (v : JsString) :
    squash U v = ((reading U v).map Prod.snd).flatten := by
  rw [squash, charNorm_eq hU]
  have hread := @mem_reading U hU v
  generalize reading U v = l at hread ⊢
  induction l with
  | nil => rfl
  | cons p l ih =>
    obtain ⟨gap, c⟩ := p
    have hc : c.filter (· ≠ 0x20) = c := by
      obtain ⟨-, -, hspace, -⟩ := hread (p := (gap, c)) (.head _)
      refine filter_eq_self.2 fun u hu => decide_eq_true ?_
      rintro rfl
      exact hspace hu
    have hcons : (spaced ((gap, c) :: l)).flatten =
        (if gap then js " " else []) ++ c ++ (spaced l).flatten := by
      cases gap <;> simp [spaced]
    have hgap : (if gap then js " " else []).filter (· ≠ 0x20) = [] := by cases gap <;> rfl
    rw [hcons, filter_append, filter_append, hc, hgap, nil_append, ih fun hq => hread (.tail _ hq)]
    rfl

/-- The form without separators gives away the letters and digits. -/
theorem squash_eq_iff (hU : U.Lawful) {a b : JsString} :
    squash U a = squash U b ↔ (reading U a).map Prod.snd = (reading U b).map Prod.snd := by
  rw [squash_eq hU, squash_eq hU]
  have hwhole : ∀ v, ∀ c ∈ (reading U v).map Prod.snd, Whole c := by
    intro v c hc
    obtain ⟨p, hp, rfl⟩ := mem_map.1 hc
    exact (mem_reading hU hp).1
  exact ⟨flatten_inj (hwhole a) (hwhole b), fun h => by rw [h]⟩

/-! ### The blocks -/

theorem runsFrom_other {run : List JsString} {c : JsString} {cs : List JsString}
    (hc : U.classOf c ≠ .number) :
    runsFrom U run (c :: cs) = if run = [] then runsFrom U [] cs else run :: runsFrom U [] cs := by
  rw [runsFrom, if_neg hc]

/-- Collapsing what is between letters and digits leaves the blocks. -/
theorem runsFrom_spaced (hU : U.Lawful) (cs : List JsString) :
    (∀ run, runsFrom U run (spaced (readFrom U false cs)) = runsFrom U run cs) ∧
      ∀ run, runsFrom U run (spaced (readFrom U true cs)) =
        if run = [] then runsFrom U [] cs else run :: runsFrom U [] cs := by
  have hspace : U.classOf (js " ") ≠ .number := by
    rw [hU.space]
    decide
  induction cs with
  | nil => exact ⟨fun run => rfl, fun run => rfl⟩
  | cons c cs ih =>
    obtain ⟨hfalse, htrue⟩ := ih
    by_cases hc : U.classOf c = .other
    · have hnumber : U.classOf c ≠ .number := by
        rw [hc]
        decide
      simp only [readFrom, if_pos hc]
      refine ⟨fun run => ?_, fun run => ?_⟩
      · rw [htrue, runsFrom_other hnumber]
      · rw [htrue, runsFrom_other hnumber, if_pos rfl]
    · have hcons : ∀ run, runsFrom U run (c :: spaced (readFrom U false cs)) =
          runsFrom U run (c :: cs) := by
        intro run
        rw [runsFrom, runsFrom]
        split
        · exact hfalse _
        · rw [hfalse]
      simp only [readFrom, if_neg hc]
      refine ⟨hcons, fun run => ?_⟩
      show runsFrom U run (js " " :: c :: spaced (readFrom U false cs)) = _
      rw [runsFrom_other hspace, hcons]

/-- The blocks of the text that is compared are those of the folded one. -/
theorem runsFrom_reading (hU : U.Lawful) (v : JsString) :
    runsFrom U [] (spaced (reading U v)) = runsFrom U [] (characters (folded U v)) := by
  have hspace : U.classOf (js " ") ≠ .number := by
    rw [hU.space]
    decide
  rw [reading, ← (runsFrom_spaced hU (characters (folded U v))).1 []]
  cases readFrom U false (characters (folded U v)) with
  | nil => rfl
  | cons p l =>
    obtain ⟨gap, c⟩ := p
    cases gap with
    | false => rfl
    | true =>
      show runsFrom U [] (c :: spaced l) = runsFrom U [] (js " " :: c :: spaced l)
      rw [runsFrom_other hspace, if_pos rfl]

/-- A block is read to its end. -/
theorem runsFrom_append {g : List JsString} (hg : ∀ c ∈ g, U.classOf c = .number)
    (run cs : List JsString) : runsFrom U run (g ++ cs) = runsFrom U (run ++ g) cs := by
  induction g generalizing run with
  | nil => rw [nil_append, append_nil]
  | cons c g ih =>
    rw [cons_append, runsFrom, if_pos (hg c (.head _)), ih (fun d hd => hg d (.tail _ hd)),
      append_assoc, singleton_append]

/-- What is no digit is passed over. -/
theorem runsFrom_pass {g : List JsString} (hg : ∀ c ∈ g, U.classOf c ≠ .number)
    (cs : List JsString) : runsFrom U [] (g ++ cs) = runsFrom U [] cs := by
  induction g with
  | nil => rfl
  | cons c g ih =>
    rw [cons_append, runsFrom_other (hg c (.head _)), if_pos rfl, ih fun d hd => hg d (.tail _ hd)]

theorem runsFrom_closed {run cs : List JsString} (hrun : run ≠ [])
    (hhead : ∀ c ∈ cs.head?, U.classOf c ≠ .number) :
    runsFrom U run cs = run :: runsFrom U [] cs := by
  cases cs with
  | nil => rw [runsFrom, if_neg hrun, runsFrom, if_pos rfl]
  | cons c cs =>
    rw [runsFrom_other (hhead c rfl), runsFrom_other (hhead c rfl), if_neg hrun, if_pos rfl]

/-- The characters are all digits. -/
def allNumbers (U : Unicode) (g : List JsString) : Bool := g.all fun c => U.classOf c = .number

/-- The blocks among groups of one class each, next to groups of other classes. -/
theorem filter_groups {gs : List (List JsString)}
    (hclass : ∀ g ∈ gs, g ≠ [] ∧ ∃ k, ∀ c ∈ g, U.classOf c = k)
    (hnext : gs.IsChain fun g g' => ∀ c ∈ g, ∀ d ∈ g', U.classOf c ≠ U.classOf d) :
    gs.filter (allNumbers U) = runsFrom U [] gs.flatten := by
  induction gs with
  | nil => rfl
  | cons g gs ih =>
    have hrest := ih (fun g' hg' => hclass g' (.tail _ hg')) hnext.tail
    obtain ⟨hne, k, hk⟩ := hclass g (.head _)
    rw [flatten_cons]
    by_cases hnum : k = .number
    · subst hnum
      have hall : allNumbers U g := by
        rw [allNumbers, all_eq_true]
        exact fun c hc => decide_eq_true (hk c hc)
      have hhead : ∀ c ∈ gs.flatten.head?, U.classOf c ≠ .number := by
        intro c hc
        cases gs with
        | nil => cases hc
        | cons g' gs =>
          obtain ⟨hne', -⟩ := hclass g' (.tail _ (.head _))
          obtain ⟨d, hd⟩ := exists_mem_of_ne_nil _ hne
          have hc' : c ∈ g' := by
            rw [flatten_cons, head?_append_of_ne_nil _ hne'] at hc
            exact mem_of_mem_head? hc
          have := (isChain_cons_cons.1 hnext).1 d hd c hc'
          rw [hk d hd] at this
          exact this.symm
      rw [filter_cons_of_pos hall, hrest, runsFrom_append hk, nil_append,
        runsFrom_closed hne hhead]
    · have hnot : ¬allNumbers U g := by
        rw [allNumbers, all_eq_true]
        intro hall
        obtain ⟨c, hc⟩ := exists_mem_of_ne_nil _ hne
        exact hnum ((hk c hc).symm.trans (of_decide_eq_true (hall c hc)))
      rw [filter_cons_of_neg hnot, hrest, runsFrom_pass fun c hc => by rw [hk c hc]; exact hnum]

theorem sameClass {g : List JsString}
    (h : g.IsChain fun c d => (decide (U.classOf c = U.classOf d)) = true) :
    ∃ k, ∀ c ∈ g, U.classOf c = k := by
  induction g with
  | nil => exact ⟨.other, nofun⟩
  | cons c g ih =>
    cases g with
    | nil => exact ⟨_, fun d hd => by rw [mem_singleton.1 hd]⟩
    | cons d g =>
      obtain ⟨hcd, hrest⟩ := isChain_cons_cons.1 h
      obtain ⟨k, hk⟩ := ih hrest
      refine ⟨k, fun e he => ?_⟩
      rcases mem_cons.1 he with rfl | he
      · exact (of_decide_eq_true hcd).trans (hk d (.head _))
      · exact hk e he

/-- The digit tokens of a value are the blocks of its folded form. -/
theorem filter_tokenize (hU : U.Lawful) (v : JsString) :
    (tokenize U v).filter (isDigits U) =
      (runsFrom U [] (characters (folded U v))).map flatten := by
  rw [← runsFrom_reading hU, tokenize, tokensOf, characters_charNorm hU]
  set cs := spaced (reading U v) with hcs
  have hwhole : ∀ c ∈ cs, Whole c := fun c => whole_of_mem_spaced hU
  set gs := cs.splitBy fun c d => U.classOf c = U.classOf d with hgs
  have hflatten : gs.flatten = cs := flatten_splitBy _ _
  have hclass : ∀ g ∈ gs, g ≠ [] ∧ ∃ k, ∀ c ∈ g, U.classOf c = k := fun g hg =>
    ⟨ne_nil_of_mem_splitBy hg, sameClass (isChain_of_mem_splitBy hg)⟩
  have hnext : gs.IsChain fun g g' => ∀ c ∈ g, ∀ d ∈ g', U.classOf c ≠ U.classOf d := by
    refine (isChain_getLast_head_splitBy _ cs).imp_of_mem_imp fun g g' hg hg' => ?_
    rintro ⟨hne, hne', hdiff⟩ c hc d hd heq
    obtain ⟨-, k, hk⟩ := hclass g hg
    obtain ⟨-, k', hk'⟩ := hclass g' hg'
    refine of_decide_eq_false hdiff ?_
    rw [hk _ (getLast_mem hne), hk' _ (head_mem hne'), ← hk c hc, ← hk' d hd, heq]
  rw [filter_map, filter_filter, ← hflatten, ← filter_groups hclass hnext]
  congr 1
  refine filter_congr fun g hg => ?_
  obtain ⟨hne, k, hk⟩ := hclass g hg
  have hg' : characters g.flatten = g := characters_flatten fun c hc =>
    hwhole c (hflatten ▸ mem_flatten_of_mem hg hc)
  obtain ⟨c, g, rfl⟩ := exists_cons_of_ne_nil hne
  have hflat : (c :: g).flatten ≠ [] := by
    intro hnil
    rw [hnil] at hg'
    cases hg'
  rw [Function.comp_apply, isDigits, hg', decide_eq_true hflat, Bool.true_and, head?_cons,
    Option.any_some, hk c (.head _)]
  by_cases hnum : k = .number
  · subst hnum
    rw [decide_eq_true (by decide), Bool.and_true]
    rfl
  · have hnot : (c :: g).all (fun d => U.classOf d = .number) = false := by
      rw [all_cons, hk c (.head _), decide_eq_false hnum, Bool.false_and]
    rw [hnot, Bool.false_and]
    exact hnot.symm

end Reading

end Gnldev.Durable.Semantic
