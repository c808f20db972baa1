import Mathlib.Order.Bounds.Defs
import Mathlib.Tactic.Ring
import Mathlib.Order.ConditionallyCompleteLattice.Basic
import Mathlib.Data.Int.ConditionallyCompleteOrder
import Gnldev.Lib.JsString

/-!
# Cron expressions

Five fields (`cron.ts`): minute, hour, day of the month, month, day of the week, in UTC,
each a list of numbers, ranges and steps. The next time is found by going from minute to
minute, for 366 days.

* `parseField`, `nextCronTime`: as in the source, with their errors;
* `nextCronTime_isLeast`: the time it returns is the first match after the given one.
-/

namespace Gnldev.Scheduler

/-! ## Numbers in texts -/

/-- White space, as `trim` and `\s` have it. -/
def isSpace (u : UInt16) : Bool :=
  (0x9 ≤ u && u ≤ 0xD) || (0x2000 ≤ u && u ≤ 0x200A) ||
    u ∈ [0x20, 0xA0, 0x1680, 0x2028, 0x2029, 0x202F, 0x205F, 0x3000, (0xFEFF : UInt16)]

def isDigit (u : UInt16) : Bool := 0x30 ≤ u && u ≤ 0x39

/-- The number of a text of digits. -/
def digits (s : JsString) : ℕ := s.foldl (fun n u => 10 * n + (u.toNat - 0x30)) 0

/-- What does not round to infinity. -/
def isFinite (n : ℕ) : Bool := n < 2 ^ 1024 - 2 ^ 970

/-- `parseInt(s, 10)`: the digits a text starts with, after white space and a sign; nothing,
    where it is not a finite number. -/
def parseInt (s : JsString) : Option ℤ :=
  let (negative, rest) := match s.dropWhile isSpace with
    | 0x2D :: rest => (true, rest)
    | 0x2B :: rest => (false, rest)
    | rest => (false, rest)
  let ds := rest.takeWhile isDigit
  if ds = [] || !isFinite (digits ds) then none
  else some (if negative then -digits ds else digits ds)

/-! ## Fields -/

/-- What is wrong with an expression. -/
inductive CronError where
  | fields (expr : JsString)
  | step (part : JsString)
  | range (part : JsString) (min max : ℤ)
  | noMatch (expr : JsString)
  deriving DecidableEq

def comma : UInt16 := 0x2C
def slash : UInt16 := 0x2F
def dash : UInt16 := 0x2D
def star : JsString := [0x2A]

/-- The numbers from `lo` to `hi`, in steps. -/
def upTo (lo hi step : ℤ) : List ℤ :=
  (List.range ((hi - lo) / step + 1).toNat).map fun n => lo + n * step

/-- The ends of a range. -/
def parseRange (rangeRaw : JsString) (min max : ℤ) : Option ℤ × Option ℤ :=
  if rangeRaw = star ∨ rangeRaw = [] then (some min, some max)
  else if dash ∈ rangeRaw then
    match rangeRaw.splitOn dash with
    | a :: b :: _ => (parseInt a, parseInt b)
    | _ => (none, none)
  else (parseInt rangeRaw, parseInt rangeRaw)

/-- A part of a field, between commas. -/
def parsePart (part : JsString) (min max : ℤ) : Except CronError (List ℤ) :=
  let pieces := part.splitOn slash
  match (pieces[1]?.map parseInt).getD (some 1) with
  | none => throw (.step part)
  | some step =>
    if step < 1 then throw (.step part)
    else
      match parseRange (pieces.headD []) min max with
      | (some lo, some hi) =>
        if lo < min ∨ max < hi ∨ hi < lo then throw (.range part min max)
        else return upTo lo hi step
      | _ => throw (.range part min max)

/-- The values a field allows. -/
def parseField (field : JsString) (min max : ℤ) : Except CronError (List ℤ) :=
  List.flatten <$> (field.splitOn comma).mapM (parsePart · min max)

/-- An expression. -/
structure Cron where
  min : List ℤ
  hour : List ℤ
  dom : List ℤ
  mon : List ℤ
  dow : List ℤ
  domRestricted : Bool
  dowRestricted : Bool

/-- The fields of an expression: what is between white space. -/
def fieldsOf (expr : JsString) : List JsString := (expr.splitOnP isSpace).filter (· ≠ [])

def parseCron (expr : JsString) : Except CronError Cron :=
  match fieldsOf expr with
  | [min, hour, dom, mon, dow] => do
    return ⟨← parseField min 0 59, ← parseField hour 0 23, ← parseField dom 1 31,
      ← parseField mon 1 12, ← parseField dow 0 6, dom ≠ star, dow ≠ star⟩
  | _ => throw (.fields expr)

/-! ## Dates -/

def MINUTE : ℤ := 60000

/-- Minutes, hours and weekday of a time in milliseconds. -/
def getUTCMinutes (t : ℤ) : ℤ := t / 60000 % 60
def getUTCHours (t : ℤ) : ℤ := t / 3600000 % 24
def getUTCDay (t : ℤ) : ℤ := (t / 86400000 + 4) % 7

/-- The month and the day of the month. The days are counted from the first of March of the
    year 0, in eras of 400 years, so that a leap day is the last one of its year. -/
def civil (t : ℤ) : ℤ × ℤ :=
  let z := t / 86400000 + 719468
  let doe := z % 146097
  let yoe := (doe - doe / 1460 + doe / 36524 - doe / 146096) / 365
  let doy := doe - (365 * yoe + yoe / 4 - yoe / 100)
  let mp := (5 * doy + 2) / 153
  (if mp < 10 then mp + 3 else mp - 9, doy - (153 * mp + 2) / 5 + 1)

/-- `getUTCMonth() + 1`. -/
def getUTCMonth (t : ℤ) : ℤ := (civil t).1
def getUTCDate (t : ℤ) : ℤ := (civil t).2

/-- 1970-01-01, 2000-02-29 and 2026-06-21. -/
example : [0, 951782400000, 1782000000000].map civil = [(1, 1), (2, 29), (6, 21)] := by decide

/-- The times a `Date` can have. -/
def isDate (t : ℤ) : Bool := t.natAbs ≤ 8640000000000000

/-! ## The next time -/

/-- The expression matches the minute at `t`. Where day of the month and day of the week are
    both restricted, one of them is enough. -/
def Cron.fires (c : Cron) (t : ℤ) : Bool :=
  isDate t && getUTCMinutes t ∈ c.min && getUTCHours t ∈ c.hour && getUTCMonth t ∈ c.mon &&
    (let domOk := decide (getUTCDate t ∈ c.dom)
    let dowOk := decide (getUTCDay t ∈ c.dow)
    if c.domRestricted && c.dowRestricted then domOk || dowOk else domOk && dowOk)

/-- From minute to minute, `n` times at most. -/
def Cron.scan (c : Cron) : ℕ → ℤ → Option ℤ
  | 0, _ => none
  | n + 1, t => if c.fires t then some t else c.scan n (t + MINUTE)

/-- The minutes of 366 days. -/
def LIMIT : ℕ := 366 * 24 * 60

/-- The minute after `after`: `Math.ceil((after + 1) / 60000) * 60000`. -/
def nextMinute (after : ℤ) : ℤ := -(-(after + 1) / MINUTE) * MINUTE

def nextCronTime (expr : JsString) (after : ℤ) : Except CronError ℤ := do
  let c ← parseCron expr
  match c.scan LIMIT (nextMinute after) with
  | some t => return t
  | none => throw (.noMatch expr)

/-! ## The first match -/

/-- A time the expression matches. -/
def Cron.Slot (c : Cron) (t : ℤ) : Prop := MINUTE ∣ t ∧ c.fires t

theorem Cron.scan_eq_some {c : Cron} {n : ℕ} {t t' : ℤ} (h : c.scan n t = some t') :
    ∃ k : ℕ, t' = t + k * MINUTE ∧ c.fires t' ∧ ∀ i : ℕ, i < k → ¬c.fires (t + i * MINUTE) := by
  induction n generalizing t with
  | zero => cases h
  | succ n ih =>
    rw [scan] at h
    split at h
    · next hf =>
      obtain rfl := Option.some.inj h
      exact ⟨0, by ring, hf, nofun⟩
    · next hf =>
      obtain ⟨k, hk, hfires, hbefore⟩ := ih h
      refine ⟨k + 1, by rw [hk]; push_cast; ring, hfires, fun i hi => ?_⟩
      rcases i with _ | i
      · simpa using hf
      · have hstep : t + ((i + 1 : ℕ) : ℤ) * MINUTE = t + MINUTE + i * MINUTE := by
          push_cast
          ring
        rw [hstep]
        exact hbefore i (Nat.lt_of_succ_lt_succ hi)

theorem minute_dvd_nextMinute (after : ℤ) : MINUTE ∣ nextMinute after := Dvd.intro_left _ rfl

theorem lt_nextMinute (after : ℤ) : after < nextMinute after := by
  unfold nextMinute MINUTE
  omega

theorem nextMinute_le {after t : ℤ} (ht : MINUTE ∣ t) (h : after < t) : nextMinute after ≤ t := by
  unfold nextMinute MINUTE at *
  omega

/-- The next time is the first match after the given one. -/
theorem nextCronTime_isLeast {expr : JsString} {after t : ℤ} (h : nextCronTime expr after = .ok t) :
    ∃ c, parseCron expr = .ok c ∧ IsLeast {t | c.Slot t ∧ after < t} t := by
  rw [nextCronTime] at h
  rcases hc : parseCron expr with e | c
  all_goals rw [hc] at h
  · cases h
  · refine ⟨c, rfl, ?_⟩
    change (match c.scan LIMIT (nextMinute after) with
      | some t => Except.ok t
      | none => .error (CronError.noMatch expr)) = .ok t at h
    split at h
    · next t' hscan =>
      obtain rfl := Except.ok.inj h
      obtain ⟨k, hk, hfires, hbefore⟩ := Cron.scan_eq_some hscan
      have hafter := lt_nextMinute after
      have hdvd := minute_dvd_nextMinute after
      refine ⟨⟨⟨?_, hfires⟩, ?_⟩, ?_⟩
      · rw [hk]
        exact Int.dvd_add hdvd (Dvd.intro_left _ rfl)
      · unfold MINUTE at hk
        omega
      · -- Another match is some minutes after the first one, and not among those passed.
        rintro s ⟨⟨hs, hsfires⟩, hlt⟩
        obtain ⟨m, hm⟩ := (Int.dvd_sub hs hdvd)
        have hle := nextMinute_le hs hlt
        by_contra hnot
        have hmk : m < k := by unfold MINUTE at *; omega
        obtain ⟨i, rfl⟩ : ∃ i : ℕ, m = i := ⟨m.toNat, by unfold MINUTE at *; omega⟩
        refine hbefore i (by exact_mod_cast hmk) ?_
        have hsi : nextMinute after + i * MINUTE = s := by
          rw [mul_comm, ← hm]
          ring
        rwa [hsi]
    · cases h

end Gnldev.Scheduler
