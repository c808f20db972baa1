import Mathlib.Data.List.TakeWhile
import Gnldev.Lib.Results
import Gnldev.Scheduler.Cron

/-!
# The language of cron expressions

A field is a list, by commas, of `*`, numbers and ranges of numbers, each of them with or without a
step. It allows the numbers that one of its parts allows, and is in range if its parts are within the
bounds of the field. A time is a slot of an expression if its fields match the time; a day matches by
its date or by its weekday if both fields are restricted.

* `parseField_iff`: what is of the language is accepted if it is in range, and then it has the values
  that it allows;
* `nextCronTime_slots`: the next slot is returned if it comes within 366 days, and it is an error if
  none does;
* `cron_exact`: both, and what is rejected besides.
-/

open List

namespace Gnldev.Scheduler

/-! ## Fields -/

/-- A number as it is written. -/
structure Numeral where
  text : JsString
  ne_nil : text ≠ []
  digit : ∀ u ∈ text, isDigit u

inductive CronRange where
  | all
  | one (n : Numeral)
  | span (n m : Numeral)

structure CronPart where
  range : CronRange
  step : Option Numeral

structure CronField where
  parts : List CronPart
  ne_nil : parts ≠ []

namespace Numeral

def value (n : Numeral) : ℤ := digits n.text

/-- What rounds to infinity is not a number. -/
def IsNumber (n : Numeral) : Prop := isFinite (digits n.text)

instance (n : Numeral) : Decidable n.IsNumber := inferInstanceAs (Decidable (isFinite _ = true))

end Numeral

namespace CronRange

def text : CronRange → JsString
  | all => star
  | one n => n.text
  | span n m => n.text ++ dash :: m.text

def lo (min : ℤ) : CronRange → ℤ
  | all => min
  | one n => n.value
  | span n _ => n.value

def hi (max : ℤ) : CronRange → ℤ
  | all => max
  | one n => n.value
  | span _ m => m.value

def AreNumbers : CronRange → Prop
  | all => True
  | one n => n.IsNumber
  | span n m => n.IsNumber ∧ m.IsNumber

/-- The bounds are in order, and those of the field are respected. -/
def InRange (min max : ℤ) (r : CronRange) : Prop :=
  r.AreNumbers ∧ min ≤ r.lo min ∧ r.hi max ≤ max ∧ r.lo min ≤ r.hi max

end CronRange

namespace CronPart

def text (p : CronPart) : JsString :=
  match p.step with
  | none => p.range.text
  | some step => p.range.text ++ slash :: step.text

def stepValue (p : CronPart) : ℤ := (p.step.map (·.value)).getD 1

def InRange (min max : ℤ) (p : CronPart) : Prop :=
  p.range.InRange min max ∧ (∀ step ∈ p.step, step.IsNumber) ∧ 1 ≤ p.stepValue

/-- A value that is some steps from the lower bound. -/
def Allows (min max : ℤ) (p : CronPart) (v : ℤ) : Prop :=
  p.range.lo min ≤ v ∧ v ≤ p.range.hi max ∧ p.stepValue ∣ v - p.range.lo min

end CronPart

namespace CronField

def text (f : CronField) : JsString := [comma].intercalate (f.parts.map (·.text))

def InRange (min max : ℤ) (f : CronField) : Prop := ∀ p ∈ f.parts, p.InRange min max

def Allows (min max : ℤ) (f : CronField) (v : ℤ) : Prop := ∃ p ∈ f.parts, p.Allows min max v

end CronField

/-! ## Reading numbers -/

theorem digit_ne {u : UInt16} (h : isDigit u) : u ≠ comma ∧ u ≠ slash ∧ u ≠ dash ∧ u ≠ 0x2A ∧
    u ≠ 0x2B ∧ isSpace u = false := by
  have hlo : 0x30 ≤ u.toNat ∧ u.toNat ≤ 0x39 := by
    simpa [isDigit, UInt16.le_iff_toNat_le] using h
  refine ⟨?_, ?_, ?_, ?_, ?_, ?_⟩
  iterate 5
    rintro rfl
    revert hlo
    decide
  · rw [isSpace]
    simp only [Bool.or_eq_false_iff, Bool.and_eq_false_iff, decide_eq_false_iff_not,
      UInt16.le_iff_toNat_le, mem_cons, not_mem_nil, or_false]
    refine ⟨⟨.inr ?_, .inl ?_⟩, ?_⟩
    · rw [show UInt16.toNat 0xD = 13 from rfl]
      omega
    · rw [show UInt16.toNat 0x2000 = 8192 from rfl]
      omega
    · rintro (rfl | rfl | rfl | rfl | rfl | rfl | rfl | rfl | rfl) <;> revert hlo <;> decide

namespace Numeral

variable (n : Numeral)

theorem notMem {u : UInt16} (h : isDigit u = false) : u ∉ n.text := fun hu => by
  rw [n.digit u hu] at h
  contradiction

theorem parseInt_text :
    parseInt n.text = if isFinite (digits n.text) then some n.value else none := by
  obtain ⟨u, rest, htext⟩ := exists_cons_of_ne_nil n.ne_nil
  have hu : isDigit u := n.digit u (by rw [htext]; exact .head _)
  obtain ⟨-, -, hdash, -, hplus, hspace⟩ := digit_ne hu
  have htake : n.text.takeWhile isDigit = n.text := takeWhile_eq_self_iff.2 n.digit
  have hdrop : n.text.dropWhile isSpace = n.text := by
    rw [htext, dropWhile_cons_of_neg (by simp [hspace])]
  rw [parseInt, hdrop]
  split
  next negative rest hsign =>
  obtain ⟨rfl, rfl⟩ : negative = false ∧ rest = n.text := by
    rw [htext] at hsign ⊢
    split at hsign
    · next heq => exact absurd (List.cons.inj heq).1 hdash
    · next heq => exact absurd (List.cons.inj heq).1 hplus
    · next => exact ⟨(Prod.mk.inj hsign).1.symm, (Prod.mk.inj hsign).2.symm⟩
  dsimp only
  rw [htake]
  generalize isFinite (digits n.text) = finite
  cases finite <;> simp [n.ne_nil, value]

theorem text_ne_star : n.text ≠ star := fun h => by
  have hmem : (0x2A : UInt16) ∈ n.text := by
    rw [h]
    exact .head _
  exact (digit_ne (n.digit _ hmem)).2.2.2.1 rfl

end Numeral

/-! ## Reading fields -/

theorem mem_upTo {lo hi step v : ℤ} (hstep : 1 ≤ step) :
    v ∈ upTo lo hi step ↔ lo ≤ v ∧ v ≤ hi ∧ step ∣ v - lo := by
  simp only [upTo, mem_map, pure_def, bind_eq_flatMap, mem_flatMap,
    mem_range, mem_singleton]
  constructor
  · rintro ⟨-, ⟨k, hk, rfl⟩, rfl⟩
    have hk : (k : ℤ) ≤ (hi - lo) / step := by omega
    have hmul : (k : ℤ) * step ≤ hi - lo :=
      (Int.mul_le_mul_of_nonneg_right hk (by omega)).trans (Int.ediv_mul_le _ (by omega))
    have hnonneg : 0 ≤ (k : ℤ) * step := Int.mul_nonneg (by omega) (by omega)
    exact ⟨by omega, by omega, ⟨k, by ring⟩⟩
  · rintro ⟨hlo, hhi, k, hk⟩
    have hk₀ : 0 ≤ k := by
      by_contra hneg
      have : step * k < 0 := Int.mul_neg_of_pos_of_neg (by omega) (by omega)
      omega
    have hle : k ≤ (hi - lo) / step := by
      rw [Int.le_ediv_iff_mul_le (by omega), mul_comm]
      omega
    refine ⟨k, ⟨k.toNat, by omega, by omega⟩, ?_⟩
    rw [mul_comm]
    omega

namespace CronRange

variable {min max : ℤ}

theorem notMem (r : CronRange) {u : UInt16} (h : isDigit u = false) (hstar : u ≠ 0x2A)
    (hdash : u ≠ dash) : u ∉ r.text := by
  cases r with
  | all => simpa [text, star] using hstar
  | one n => exact n.notMem h
  | span n m =>
    rw [text, mem_append, mem_cons]
    rintro (hu | hu | hu)
    · exact n.notMem h hu
    · exact hdash hu
    · exact m.notMem h hu

/-- The bounds that are read, if they are numbers. -/
theorem parseRange_text (r : CronRange) : (r.AreNumbers ∧
      parseRange r.text min max = (some (r.lo min), some (r.hi max))) ∨
    (¬r.AreNumbers ∧ ∀ lo hi, parseRange r.text min max ≠ (some lo, some hi)) := by
  cases r with
  | all => exact .inl ⟨trivial, if_pos (.inl rfl)⟩
  | one n =>
    have hread : parseRange n.text min max = (parseInt n.text, parseInt n.text) := by
      rw [parseRange, if_neg (not_or.2 ⟨n.text_ne_star, n.ne_nil⟩), if_neg (n.notMem (by decide))]
    rw [text, hread, n.parseInt_text, AreNumbers, Numeral.IsNumber]
    split
    · next h => exact .inl ⟨h, rfl⟩
    · next h => exact .inr ⟨h, fun _ _ => nofun⟩
  | span n m =>
    have hmem : dash ∈ n.text ++ dash :: m.text := mem_append_right _ (.head _)
    have hstar : n.text ++ dash :: m.text ≠ star := fun h => by
      rw [h] at hmem
      revert hmem
      decide
    have hsplit : (n.text ++ dash :: m.text).splitOn dash = [n.text, m.text] := by
      rw [splitOn_append_cons_self_of_not_mem (n.notMem (by decide)),
        splitOn_eq_singleton (m.notMem (by decide))]
    have hread : parseRange (n.text ++ dash :: m.text) min max =
        (parseInt n.text, parseInt m.text) := by
      rw [parseRange, if_neg (not_or.2 ⟨hstar, by simp⟩), if_pos hmem, hsplit]
    rw [text, hread, n.parseInt_text, m.parseInt_text, AreNumbers, Numeral.IsNumber,
      Numeral.IsNumber]
    generalize isFinite (digits n.text) = finiteLo, isFinite (digits m.text) = finiteHi
    cases finiteLo <;> cases finiteHi <;> simp [lo, hi]

end CronRange

namespace CronPart

variable {min max : ℤ} (p : CronPart)

theorem comma_notMem : comma ∉ p.text := by
  have hrange := p.range.notMem (u := comma) (by decide) (by decide) (by decide)
  rw [text]
  split
  · exact hrange
  · next step _ =>
    rw [mem_append, mem_cons]
    rintro (h | h | h)
    · exact hrange h
    · exact absurd h (by decide)
    · exact step.notMem (by decide) h

/-- The range and the step. -/
theorem splitOn_text :
    p.text.splitOn slash = p.range.text :: (p.step.map (·.text)).toList := by
  have hrange := p.range.notMem (u := slash) (by decide) (by decide) (by decide)
  rw [text]
  split
  · next h => rw [splitOn_eq_singleton hrange, h, Option.map_none, Option.toList_none]
  · next step h =>
    rw [splitOn_append_cons_self_of_not_mem hrange,
      splitOn_eq_singleton (step.notMem (by decide)), h, Option.map_some, Option.toList_some]

/-- The step that is read, if it is a number. -/
theorem parseStep_text : ((∀ step ∈ p.step, step.IsNumber) ∧
      (((p.step.map (·.text)).toList[0]?).map parseInt).getD (some 1) = some p.stepValue) ∨
    (¬(∀ step ∈ p.step, step.IsNumber) ∧
      (((p.step.map (·.text)).toList[0]?).map parseInt).getD (some 1) = none) := by
  rw [stepValue]
  rcases p.step with _ | step
  · exact .inl ⟨nofun, rfl⟩
  · have hread : ((((some step).map (·.text)).toList[0]?).map parseInt).getD (some 1) =
        if isFinite (digits step.text) then some step.value else none := step.parseInt_text
    rw [hread]
    split
    · next h => exact .inl ⟨by rintro _ ⟨⟩; exact h, rfl⟩
    · next h => exact .inr ⟨fun hall => h (hall step rfl), rfl⟩

theorem parsePart_text : (p.InRange min max ∧ parsePart p.text min max =
      .ok (upTo (p.range.lo min) (p.range.hi max) p.stepValue)) ∨
    (¬p.InRange min max ∧ ∃ e, parsePart p.text min max = .error e) := by
  rw [parsePart, splitOn_text, getElem?_cons_succ]
  rcases p.parseStep_text with ⟨hnumber, hread⟩ | ⟨hnot, hread⟩
  swap
  · rw [hread]
    exact .inr ⟨fun h => hnot h.2.1, _, rfl⟩
  rw [hread]
  dsimp only
  by_cases hstep : p.stepValue < 1
  · rw [if_pos hstep]
    exact .inr ⟨fun h => absurd h.2.2 (by omega), _, rfl⟩
  rw [if_neg hstep, headD_cons]
  rcases @CronRange.parseRange_text min max p.range with ⟨hnumbers, hread⟩ | ⟨hnot, hread⟩
  · rw [hread]
    dsimp only
    by_cases hbounds : p.range.lo min < min ∨ max < p.range.hi max ∨ p.range.hi max < p.range.lo min
    · rw [if_pos hbounds]
      refine .inr ⟨fun h => ?_, _, rfl⟩
      obtain ⟨⟨-, hlo, hhi, hle⟩, -⟩ := h
      omega
    · rw [if_neg hbounds]
      exact .inl ⟨⟨⟨hnumbers, by omega, by omega, by omega⟩, hnumber, by omega⟩, rfl⟩
  · refine .inr ⟨fun h => hnot h.1.1, ?_⟩
    split
    · next lo hi heq => exact absurd heq (hread lo hi)
    · exact ⟨_, rfl⟩

end CronPart

section Lists

variable {α β : Type} {f : α → Except CronError β}

theorem mapM_error {x : α} {xs : List α} (hx : x ∈ xs) {e : CronError} (h : f x = .error e) :
    ∃ e, xs.mapM f = .error e := by
  induction xs with
  | nil => contradiction
  | cons y xs ih =>
    rw [mapM_cons]
    rcases hy : f y with e' | b
    · exact ⟨e', rfl⟩
    · rcases mem_cons.1 hx with rfl | hx
      · rw [h] at hy
        contradiction
      · obtain ⟨e', he'⟩ := ih hx
        rw [he']
        exact ⟨e', rfl⟩

end Lists

theorem CronField.splitOn_text (f : CronField) : f.text.splitOn comma = f.parts.map (·.text) := by
  refine splitOn_intercalate comma (fun l hl => ?_) (by simpa using f.ne_nil)
  obtain ⟨p, -, rfl⟩ := mem_map.1 hl
  exact p.comma_notMem

/-- A field of the language is accepted if it is in range, and has the values that it allows. -/
theorem parseField_iff (f : CronField) (min max : ℤ) :
    (f.InRange min max → ∃ vs, parseField f.text min max = .ok vs ∧
      ∀ v, v ∈ vs ↔ f.Allows min max v) ∧
    (¬f.InRange min max → ∃ e, parseField f.text min max = .error e) := by
  rw [parseField, f.splitOn_text]
  constructor
  · intro hrange
    have hparts : ∀ s ∈ f.parts.map (·.text), ∃ p ∈ f.parts, s = p.text ∧
        parsePart s min max = .ok (upTo (p.range.lo min) (p.range.hi max) p.stepValue) := by
      rintro s hs
      obtain ⟨p, hp, rfl⟩ := mem_map.1 hs
      exact ⟨p, hp, rfl, (p.parsePart_text.resolve_right fun h => h.1 (hrange p hp)).2⟩
    have hread : (f.parts.map (·.text)).mapM (parsePart · min max) = .ok (f.parts.map fun p =>
        upTo (p.range.lo min) (p.range.hi max) p.stepValue) := by
      rw [mapM_map]
      exact mapM_ok fun p hp => (p.parsePart_text.resolve_right fun h => h.1 (hrange p hp)).2
    rw [hread]
    refine ⟨_, rfl, fun v => ?_⟩
    rw [mem_flatten]
    constructor
    · rintro ⟨_, hl, hv⟩
      obtain ⟨p, hp, rfl⟩ := mem_map.1 hl
      exact ⟨p, hp, (mem_upTo (hrange p hp).2.2).1 hv⟩
    · rintro ⟨p, hp, hv⟩
      exact ⟨_, mem_map_of_mem hp, (mem_upTo (hrange p hp).2.2).2 hv⟩
  · intro hrange
    obtain ⟨p, hp, hnot⟩ : ∃ p ∈ f.parts, ¬p.InRange min max := by
      simpa [CronField.InRange] using hrange
    obtain ⟨-, e, he⟩ := (@CronPart.parsePart_text min max p).resolve_left fun h => hnot h.1
    obtain ⟨e', he'⟩ := mapM_error (f := (parsePart · min max)) (mem_map_of_mem hp) he
    rw [he']
    exact ⟨e', rfl⟩

variable {min max : ℤ} {vs : List ℤ}

theorem CronField.inRange_of_ok {f : CronField} (h : parseField f.text min max = .ok vs) :
    f.InRange min max := by
  by_contra hrange
  obtain ⟨e, he⟩ := (parseField_iff f min max).2 hrange
  rw [he] at h
  contradiction

/-! ## What is rejected besides -/

/-- As `parseInt` reads them, the step of a part is a number from 1 on, and its range is `*`, or empty,
    or has bounds that are numbers in order and within those of the field. -/
def ReadsInRange (min max : ℤ) (part : JsString) : Prop :=
  let range := (part.splitOn slash).headD []
  let bounds := range.splitOn dash
  (∀ step ∈ (part.splitOn slash)[1]?, ∃ n, parseInt step = some n ∧ 1 ≤ n) ∧
    (range = star ∨ range = [] ∨ ∃ lo hi, parseInt (bounds.headD []) = some lo ∧
      parseInt (bounds[1]?.getD (bounds.headD [])) = some hi ∧ min ≤ lo ∧ lo ≤ hi ∧ hi ≤ max)

theorem parsePart_reads {part : JsString} (h : parsePart part min max = .ok vs) :
    ReadsInRange min max part := by
  rw [parsePart] at h
  split at h
  · contradiction
  next step hstep =>
  split at h
  · contradiction
  next hpos =>
  split at h
  swap
  · contradiction
  next lo hi hrange =>
  split at h
  · contradiction
  next hbounds =>
  refine ⟨fun s hs => ?_, ?_⟩
  · rw [Option.mem_def.1 hs] at hstep
    exact ⟨step, hstep, by omega⟩
  · generalize (part.splitOn slash).headD [] = range at hrange
    rw [parseRange] at hrange
    split at hrange
    · next hall => exact hall.imp id .inl
    refine .inr (.inr ⟨lo, hi, ?_⟩)
    split at hrange
    · split at hrange
      · next hsplit =>
        rw [hsplit]
        exact ⟨(Prod.mk.inj hrange).1, (Prod.mk.inj hrange).2, by omega, by omega, by omega⟩
      · cases hrange
    · next hdash =>
      rw [splitOn_eq_singleton hdash]
      exact ⟨(Prod.mk.inj hrange).1, (Prod.mk.inj hrange).2, by omega, by omega, by omega⟩

theorem parseField_reads {s : JsString} (h : parseField s min max = .ok vs) :
    ∀ part ∈ s.splitOn comma, ReadsInRange min max part := by
  intro part hpart
  rw [parseField] at h
  rcases hread : (s.splitOn comma).mapM (parsePart · min max) with e | vss
  · rw [hread] at h
    contradiction
  · obtain ⟨ws, hws⟩ := exists_mapM_eq_ok_iff.1 ⟨_, hread⟩ part hpart
    exact parsePart_reads hws

/-! ## Expressions -/

structure CronExpr where
  min : CronField
  hour : CronField
  dom : CronField
  mon : CronField
  dow : CronField

namespace CronExpr

/-- The expression is written so, with white space between its fields. -/
def Written (e : CronExpr) (expr : JsString) : Prop :=
  fieldsOf expr = [e.min.text, e.hour.text, e.dom.text, e.mon.text, e.dow.text]

def InRange (e : CronExpr) : Prop :=
  e.min.InRange 0 59 ∧ e.hour.InRange 0 23 ∧ e.dom.InRange 1 31 ∧ e.mon.InRange 1 12 ∧
    e.dow.InRange 0 6

/-- One of the days is enough if neither of their fields is `*`. -/
def DayMatches (e : CronExpr) (t : ℤ) : Prop :=
  let dom := e.dom.Allows 1 31 (getUTCDate t)
  let dow := e.dow.Allows 0 6 (getUTCDay t)
  if e.dom.text ≠ star ∧ e.dow.text ≠ star then dom ∨ dow else dom ∧ dow

def Matches (e : CronExpr) (t : ℤ) : Prop :=
  isDate t ∧ e.min.Allows 0 59 (getUTCMinutes t) ∧ e.hour.Allows 0 23 (getUTCHours t) ∧
    e.mon.Allows 1 12 (getUTCMonth t) ∧ e.DayMatches t

/-- A minute that matches. -/
def Slot (e : CronExpr) (t : ℤ) : Prop := MINUTE ∣ t ∧ e.Matches t

variable {e : CronExpr} {expr : JsString}

theorem parseCron_ok (hexpr : e.Written expr) (hrange : e.InRange) :
    ∃ c, parseCron expr = .ok c ∧ ∀ t, c.Slot t ↔ e.Slot t := by
  obtain ⟨hmin, hhour, hdom, hmon, hdow⟩ := hrange
  obtain ⟨mins, hmins, hminAllows⟩ := (parseField_iff e.min 0 59).1 hmin
  obtain ⟨hours, hhours, hhourAllows⟩ := (parseField_iff e.hour 0 23).1 hhour
  obtain ⟨doms, hdoms, hdomAllows⟩ := (parseField_iff e.dom 1 31).1 hdom
  obtain ⟨mons, hmons, hmonAllows⟩ := (parseField_iff e.mon 1 12).1 hmon
  obtain ⟨dows, hdows, hdowAllows⟩ := (parseField_iff e.dow 0 6).1 hdow
  refine ⟨⟨mins, hours, doms, mons, dows, e.dom.text ≠ star, e.dow.text ≠ star⟩, ?_, fun t => ?_⟩
  · rw [parseCron, hexpr]
    dsimp only
    rw [hmins, hhours, hdoms, hmons, hdows]
    rfl
  · rw [Cron.Slot, Slot, Matches, DayMatches, Cron.fires]
    simp only [Bool.and_eq_true, decide_eq_true_eq, ← hminAllows, ← hhourAllows, ← hdomAllows,
      ← hmonAllows, ← hdowAllows]
    split <;> simp [and_assoc]

theorem parseCron_error (hexpr : e.Written expr) (hrange : ¬e.InRange) :
    ∃ err, parseCron expr = .error err := by
  rw [parseCron, hexpr]
  dsimp only
  rcases hmin : parseField e.min.text 0 59 with err | mins
  · exact ⟨err, rfl⟩
  rcases hhour : parseField e.hour.text 0 23 with err | hours
  · exact ⟨err, rfl⟩
  rcases hdom : parseField e.dom.text 1 31 with err | doms
  · exact ⟨err, rfl⟩
  rcases hmon : parseField e.mon.text 1 12 with err | mons
  · exact ⟨err, rfl⟩
  rcases hdow : parseField e.dow.text 0 6 with err | dows
  · exact ⟨err, rfl⟩
  exact absurd ⟨CronField.inRange_of_ok hmin, CronField.inRange_of_ok hhour,
    CronField.inRange_of_ok hdom, CronField.inRange_of_ok hmon, CronField.inRange_of_ok hdow⟩ hrange

end CronExpr

/-! ## The next slot -/

/-- The end of the search, 366 days after the first minute. -/
def searchEnd (after : ℤ) : ℤ := nextMinute after + LIMIT * MINUTE

variable {c : Cron} {t : ℤ}

theorem Cron.scan_eq_none {n : ℕ} (h : c.scan n t = none) :
    ∀ i : ℕ, i < n → ¬c.fires (t + i * MINUTE) := by
  induction n generalizing t with
  | zero => exact nofun
  | succ n ih =>
    rw [scan] at h
    split at h
    · contradiction
    · next hfires =>
      rintro (_ | i) hi
      · simpa using hfires
      · have hstep : t + ((i + 1 : ℕ) : ℤ) * MINUTE = t + MINUTE + i * MINUTE := by
          push_cast
          ring
        rw [hstep]
        exact ih h i (Nat.lt_of_succ_lt_succ hi)

theorem Cron.scan_lt {n : ℕ} {t' : ℤ} (h : c.scan n t = some t') :
    t' < t + n * MINUTE := by
  induction n generalizing t with
  | zero => contradiction
  | succ n ih =>
    have hminute : (0 : ℤ) < MINUTE := by decide
    have hnonneg : 0 ≤ (n : ℤ) * MINUTE := Int.mul_nonneg (by omega) hminute.le
    have hsum : t + ((n + 1 : ℕ) : ℤ) * MINUTE = t + MINUTE + n * MINUTE := by
      push_cast
      ring
    rw [scan] at h
    split at h
    · cases h
      omega
    · have := ih h
      omega

/-- A match after the given time and before the end of the search is one of the minutes passed. -/
theorem Cron.Slot.exists_minute {after : ℤ} (h : c.Slot t) (hlt : after < t)
    (hend : t < searchEnd after) : ∃ i : ℕ, i < LIMIT ∧ t = nextMinute after + i * MINUTE := by
  obtain ⟨m, hm⟩ := Int.dvd_sub h.1 (minute_dvd_nextMinute after)
  have hle := nextMinute_le h.1 hlt
  have hminute : MINUTE = 60000 := rfl
  have hlimit : (LIMIT : ℤ) = 527040 := rfl
  rw [searchEnd, hlimit, hminute] at hend
  rw [hminute] at hm
  rw [hminute]
  have hlimit : LIMIT = 527040 := rfl
  exact ⟨m.toNat, by omega, by omega⟩

section Next

variable {e : CronExpr} {expr : JsString} {after : ℤ}

theorem nextCronTime_eq {c : Cron} (hc : parseCron expr = .ok c) : nextCronTime expr after =
    match c.scan LIMIT (nextMinute after) with
    | some t => .ok t
    | none => .error (.noMatch expr) := by
  rw [nextCronTime, hc]
  rfl

/-- The next slot is returned if the search reaches it. If it reaches none, there is an error. -/
theorem nextCronTime_slots (hexpr : e.Written expr) (hrange : e.InRange) :
    (∃ t, nextCronTime expr after = .ok t ∧ IsLeast {t | e.Slot t ∧ after < t} t ∧
      t < searchEnd after) ∨
    (nextCronTime expr after = .error (.noMatch expr) ∧
      ∀ t, e.Slot t → after < t → searchEnd after ≤ t) := by
  obtain ⟨c, hc, hslot⟩ := CronExpr.parseCron_ok hexpr hrange
  have hnext := @nextCronTime_eq expr after c hc
  rcases hscan : c.scan LIMIT (nextMinute after) with _ | t
  all_goals rw [hscan] at hnext
  · refine .inr ⟨hnext, fun t ht hlt => ?_⟩
    rw [← hslot] at ht
    by_contra hend
    obtain ⟨i, hi, rfl⟩ := ht.exists_minute hlt (by omega)
    exact Cron.scan_eq_none hscan i hi ht.2
  · obtain ⟨c', hc', hleast⟩ := nextCronTime_isLeast hnext
    obtain rfl : c = c' := by rw [hc] at hc'; exact Except.ok.inj hc'
    simp only [hslot] at hleast
    exact .inl ⟨t, hnext, hleast, Cron.scan_lt hscan⟩

end Next

/-- What is of the language is rejected if it is out of range. Otherwise the next slot is returned if
    it comes within 366 days, and if none does it is an error. A field is rejected too if a part does not
    read as one in range. -/
theorem cron_exact (e : CronExpr) (expr : JsString) (hexpr : e.Written expr) (after : ℤ) :
    (e.InRange →
      (∃ t, nextCronTime expr after = .ok t ∧ IsLeast {t | e.Slot t ∧ after < t} t ∧
        t < searchEnd after) ∨
      (nextCronTime expr after = .error (.noMatch expr) ∧
        ∀ t, e.Slot t → after < t → searchEnd after ≤ t)) ∧
    (¬e.InRange → ∃ err, nextCronTime expr after = .error err) ∧
    (∀ (f : CronField) (min max : ℤ),
      (f.InRange min max → ∃ vs, parseField f.text min max = .ok vs ∧
        ∀ v, v ∈ vs ↔ f.Allows min max v) ∧
      (¬f.InRange min max → ∃ err, parseField f.text min max = .error err)) ∧
    ∀ (s : JsString) (min max : ℤ), (∃ part ∈ s.splitOn comma, ¬ReadsInRange min max part) →
      ∃ err, parseField s min max = .error err := by
  refine ⟨fun hrange => ?_, fun hrange => ?_, fun f => parseField_iff f, ?_⟩
  · exact nextCronTime_slots hexpr hrange
  · obtain ⟨err, herr⟩ := CronExpr.parseCron_error hexpr hrange
    rw [nextCronTime, herr]
    exact ⟨err, rfl⟩
  · rintro s min max ⟨part, hpart, hreads⟩
    rcases hs : parseField s min max with err | vs
    · exact ⟨err, rfl⟩
    · exact absurd (parseField_reads hs part hpart) hreads

namespace CronField

/-- The field that is one number. -/
def number (n : Numeral) : CronField := ⟨[⟨.one n, none⟩], cons_ne_nil _ _⟩

/-- The field `*`. -/
def all : CronField := ⟨[⟨.all, none⟩], cons_ne_nil _ _⟩

variable {min max : ℤ}

theorem number_allows {n : Numeral} {v : ℤ} : (number n).Allows min max v ↔ v = n.value := by
  rw [Allows, number]
  constructor
  · rintro ⟨_, ⟨⟩ | ⟨_, ⟨⟩⟩, hlo, hhi, -⟩
    exact le_antisymm hhi hlo
  · rintro rfl
    exact ⟨_, .head _, le_rfl, le_rfl, one_dvd _⟩

theorem all_allows {v : ℤ} : all.Allows min max v ↔ min ≤ v ∧ v ≤ max := by
  rw [Allows, all]
  constructor
  · rintro ⟨_, ⟨⟩ | ⟨_, ⟨⟩⟩, hlo, hhi, -⟩
    exact ⟨hlo, hhi⟩
  · rintro ⟨hlo, hhi⟩
    exact ⟨_, .head _, hlo, hhi, one_dvd _⟩

theorem number_inRange {n : Numeral} (hn : n.IsNumber) (hmin : min ≤ n.value)
    (hmax : n.value ≤ max) : (number n).InRange min max := by
  rintro _ (⟨⟩ | ⟨_, ⟨⟩⟩)
  exact ⟨⟨hn, hmin, hmax, le_rfl⟩, nofun, le_rfl⟩

theorem all_inRange (h : min ≤ max) : all.InRange min max := by
  rintro _ (⟨⟩ | ⟨_, ⟨⟩⟩)
  exact ⟨⟨trivial, le_rfl, le_rfl, h⟩, nofun, le_rfl⟩

end CronField

section LeapDays

def zero : Numeral := ⟨js "0", by decide, all_eq_true.1 (by decide)⟩
def two : Numeral := ⟨js "2", by decide, all_eq_true.1 (by decide)⟩
def twentyNine : Numeral := ⟨js "29", by decide, all_eq_true.1 (by decide)⟩

/-- 29 February, at midnight. -/
def leapDays : CronExpr := ⟨.number zero, .number zero, .number twentyNine, .number two, .all⟩

theorem leapDays_written : leapDays.Written (js "0 0 29 2 *") := by
  rw [CronExpr.Written]
  decide

theorem leapDays_inRange : leapDays.InRange :=
  ⟨CronField.number_inRange (by decide +kernel) (by decide) (by decide),
    CronField.number_inRange (by decide +kernel) (by decide) (by decide),
    CronField.number_inRange (by decide +kernel) (by decide) (by decide),
    CronField.number_inRange (by decide +kernel) (by decide) (by decide),
    CronField.all_inRange (by decide)⟩

theorem leapDays_dayMatches {t : ℤ} :
    leapDays.DayMatches t ↔ getUTCDate t = 29 ∧ 0 ≤ getUTCDay t ∧ getUTCDay t ≤ 6 := by
  rw [CronExpr.DayMatches, if_neg fun h => h.2 rfl]
  exact and_congr CronField.number_allows CronField.all_allows

theorem civil_day (t : ℤ) : civil t = civil (t / 86400000 * 86400000) := by
  rw [civil, civil, Int.mul_ediv_cancel _ (by decide)]

/-- There is none where no day of a range is 29 February. -/
theorem not_leapDays {first t : ℤ} {n : ℕ}
    (hdays : ∀ k : Fin n, civil ((first + (k : ℕ)) * 86400000) ≠ (2, 29))
    (hlo : first ≤ t / 86400000) (hhi : t / 86400000 < first + n) : ¬leapDays.Slot t := by
  rintro ⟨-, -, -, -, hmon, hday⟩
  have hmon : (civil t).1 = 2 := CronField.number_allows.1 hmon
  have hdate : (civil t).2 = 29 := (leapDays_dayMatches.1 hday).1
  obtain ⟨k, hk⟩ : ∃ k : ℕ, t / 86400000 = first + k := ⟨(t / 86400000 - first).toNat, by omega⟩
  refine hdays ⟨k, by omega⟩ ?_
  rw [← hk, ← civil_day]
  exact Prod.ext hmon hdate

theorem leapDays_slot : leapDays.Slot 1835395200000 :=
  ⟨by decide, by decide, CronField.number_allows.2 (by decide), CronField.number_allows.2 (by decide),
    CronField.number_allows.2 (by decide), leapDays_dayMatches.2 (by decide)⟩

end LeapDays

/-- From 1 February 2028 the next one is found, and neither a step without a number nor a range without
    an end is a day of the month. -/
theorem cron_exact_leapDays :
    (∃ t, nextCronTime (js "0 0 29 2 *") 1832976000000 = .ok t ∧
      IsLeast {t | leapDays.Slot t ∧ 1832976000000 < t} t) ∧
    (∃ err, parseField (js "1,*/") 1 31 = .error err) ∧
    ∃ err, parseField (js "5-") 1 31 = .error err := by
  have hexact := cron_exact leapDays (js "0 0 29 2 *") leapDays_written 1832976000000
  have hstep : ¬ReadsInRange 1 31 (js "*/") := fun h =>
    have ⟨n, hn, _⟩ := h.1 [] rfl
    absurd hn nofun
  have hend : ¬ReadsInRange 1 31 (js "5-") := fun h => by
    rcases h.2 with h | h | ⟨_, _, -, h, -⟩
    · revert h
      decide
    · revert h
      decide
    · exact absurd h nofun
  refine ⟨?_, hexact.2.2.2 _ 1 31 ⟨_, by decide, hstep⟩, hexact.2.2.2 _ 1 31 ⟨_, by decide, hend⟩⟩
  rcases hexact.1 leapDays_inRange with ⟨t, hok, hleast, -⟩ | ⟨-, hlate⟩
  · exact ⟨t, hok, hleast⟩
  · exact absurd (hlate _ leapDays_slot (by decide)) (by decide)

theorem CronPart.text_ne_nil (p : CronPart) : p.text ≠ [] := by
  have hrange : p.range.text ≠ [] := by
    cases p.range with
    | all => exact cons_ne_nil _ _
    | one n => exact n.ne_nil
    | span n m => exact append_ne_nil_of_left_ne_nil n.ne_nil _
  rw [text]
  split
  · exact hrange
  · exact append_ne_nil_of_left_ne_nil hrange _

theorem CronField.nil_notMem_splitOn (f : CronField) : [] ∉ f.text.splitOn comma := by
  rw [f.splitOn_text, mem_map]
  rintro ⟨p, -, hp⟩
  exact p.text_ne_nil hp

/-- From 1 March 2025 the search gives up, although 29 February 2028 matches; and a month `1,,2` is
    accepted, as if it were every month. -/
theorem cron_gives_up : leapDays.Written (js "0 0 29 2 *") ∧ leapDays.InRange ∧
    leapDays.Slot 1835395200000 ∧
    nextCronTime (js "0 0 29 2 *") 1740787200000 = .error (.noMatch (js "0 0 29 2 *")) ∧
    (parseField (js "1,,2") 1 12).toOption = some [1, 1, 2, 3, 4, 5, 6, 7, 8, 9, 10, 11, 12, 2] ∧
    ∀ f : CronField, f.text ≠ js "1,,2" := by
  refine ⟨leapDays_written, leapDays_inRange, leapDays_slot, ?_, by decide +kernel, fun f hf => ?_⟩
  · rcases @nextCronTime_slots _ _ 1740787200000 leapDays_written leapDays_inRange with
      ⟨t, -, hleast, hend⟩ | ⟨herror, -⟩
    · have hafter : 1740787200000 < t := hleast.1.2
      have hsearch : searchEnd 1740787200000 = 1772409660000 := by decide
      have hdays : ∀ k : Fin 367, civil ((20148 + (k : ℕ)) * 86400000) ≠ (2, 29) := by
        decide +kernel
      exact absurd hleast.1.1 (not_leapDays hdays (by omega) (by omega))
    · exact herror
  · refine f.nil_notMem_splitOn ?_
    rw [hf]
    decide

end Gnldev.Scheduler
