import Gnldev.Lib.JsString
import Mathlib.Data.List.Perm.Basic
import Mathlib.Data.List.SplitBy

/-!
# The rule ladder

Whether two values of an identity field are one job written differently (`semantic-rules.ts`).
Normalizers say `matched`, separators `separate`, and what neither settles is gray. The values are
compared as texts, without their spaces, by the values of their digit blocks, and by their digits
joined (`evaluateField`); a ladder of fields matches if all of them do (`runRuleLadder`).

What is asked of Unicode (`Unicode`) is the decomposition, the lower case, and which characters are
letters and numbers.
-/

namespace Gnldev.Durable.Semantic

/-! ## Characters -/

inductive CharClass where
  | letter
  | number
  | other
  deriving DecidableEq

/-- What the language knows of characters. -/
structure Unicode where
  /-- `normalize('NFD')`. -/
  nfd : JsString → JsString
  toLowerCase : JsString → JsString
  /-- `\p{L}`, `\p{N}`, or neither. -/
  classOf : JsString → CharClass

/-- The characters of a string, pairs of surrogates together. -/
def characters : JsString → List JsString
  | [] => []
  | [u] => [[u]]
  | u :: v :: s =>
    if 0xD800 ≤ u ∧ u < 0xDC00 ∧ 0xDC00 ≤ v ∧ v < 0xE000 then [u, v] :: characters s
    else [u] :: characters (v :: s)

/-! ## Normalizers -/

section Normalizers

variable (U : Unicode)

/-- `replace(/[^\p{L}\p{N}]+/gu, ' ')`, where `inRun` tells that the last character was replaced. -/
def collapseOthers (inRun : Bool) : List JsString → JsString
  | [] => []
  | c :: s =>
    if U.classOf c = .other then
      if inRun then collapseOthers true s else js " " ++ collapseOthers true s
    else c ++ collapseOthers false s

/-- `trim()`: no other white space is left. -/
def trimSpaces (s : JsString) : JsString :=
  ((s.dropWhile (· = 0x20)).reverse.dropWhile (· = 0x20)).reverse

/-- Diacritics folded, and what is neither letter nor number collapsed. -/
def charNorm (v : JsString) : JsString :=
  let bare := (U.nfd v).filter fun u => !(0x300 ≤ u && u ≤ 0x36F)
  let dotted := bare.map fun u => if u = 0x131 then 0x69 else u
  trimSpaces (collapseOthers U false (characters (U.toLowerCase dotted)))

/-- `match(/\p{L}+|\p{N}+/gu)`. -/
def tokensOf (s : JsString) : List JsString :=
  (((characters s).splitBy fun c d => U.classOf c = U.classOf d).filter fun run =>
    run.head?.any fun c => U.classOf c ≠ .other).map List.flatten

/-- The words and the digit blocks of a value. -/
def tokenize (v : JsString) : List JsString := tokensOf U (charNorm U v)

/-- The form without separators. -/
def squash (v : JsString) : JsString := (charNorm U v).filter (· ≠ 0x20)

/-- `.` or `,`. -/
def isPoint (c : JsString) : Bool := c = js "." || c = js ","

/-- A number, a point and a number somewhere. -/
def hasDecimalIn : List JsString → Bool
  | a :: b :: c :: s =>
    (U.classOf a = .number && isPoint b && U.classOf c = .number) || hasDecimalIn (b :: c :: s)
  | _ => false

def hasDecimal (v : JsString) : Bool := hasDecimalIn U (characters v)

/-- `/^\p{N}+$/u`. -/
def isDigits (t : JsString) : Bool := t ≠ [] && (characters t).all fun c => U.classOf c = .number

/-- `replace(/^0+(?=\p{N})/u, '')`. -/
def stripZeros : List JsString → List JsString
  | c :: d :: s => if c = js "0" ∧ U.classOf d = .number then stripZeros (d :: s) else c :: d :: s
  | s => s

/-- Leading zeros stripped. -/
def digitVal (t : JsString) : JsString := (stripZeros U (characters t)).flatten

/-- The same tokens, digits by value. -/
def digitValueEqual : List JsString → List JsString → Bool
  | [], [] => true
  | x :: ta, y :: tb =>
    (if isDigits U x && isDigits U y then digitVal U x = digitVal U y else x = y) &&
      digitValueEqual ta tb
  | _, _ => false

/-- One side writes as one block what the other splits. -/
def digitConcatEqual (ta tb : List JsString) (rawA rawB : JsString) : Bool :=
  if hasDecimal U rawA || hasDecimal U rawB then false
  else if (ta.filter fun t => !isDigits U t) ≠ tb.filter fun t => !isDigits U t then false
  else
    let digA := ta.filter (isDigits U)
    let digB := tb.filter (isDigits U)
    if digA.length ≠ 1 ∧ digB.length ≠ 1 then false
    else if digA.length = digB.length then false
    else digA.flatten.length > 0 && digA.flatten = digB.flatten

end Normalizers

/-! ## Separators -/

/-- A token of the first value, removed on both sides if the second has it. -/
def residueStep (ab : List JsString × List JsString) (t : JsString) :
    List JsString × List JsString :=
  if t ∈ ab.2 then (ab.1.erase t, ab.2.erase t) else ab

/-- The tokens that only one side has. -/
def residue (ta tb : List JsString) : List JsString × List JsString :=
  ta.foldl residueStep (ta, tb)

/-- Both sides name members of a closed group, and not the same. -/
def groupConflict (U : Unicode) (a b : List JsString) (groups : List (List JsString)) : Bool :=
  groups.any fun group =>
    let set := group.map (charNorm U)
    let ga := a.filter (· ∈ set)
    let gb := b.filter (· ∈ set)
    !ga.isEmpty && !gb.isEmpty && ga ≠ gb

/-- In how many places two texts differ. -/
def differences (x y : JsString) : ℕ := (x.zip y).countP fun (u, v) => u ≠ v

/-- Two short tokens differ in one place. -/
def shortCodeEdit1 (a b : List JsString) (maxLen : ℤ) : Bool :=
  if maxLen ≤ 0 then false
  else a.any fun x => b.any fun y =>
    x.length = y.length && (x.length : ℤ) ≤ maxLen && differences x y = 1

/-! ## The ladder -/

inductive RuleClass where
  | normalizer
  | separator
  deriving DecidableEq

inductive RuleDir where
  | matched
  | separate
  | gray
  deriving DecidableEq

inductive RuleId where
  | punctSpace
  | digitValue
  | digitConcat
  | sizeLadder
  | shortcodeEdit1
  | gazetteer
  deriving DecidableEq

def RULE_CLASS : RuleId → RuleClass
  | .punctSpace | .digitValue | .digitConcat => .normalizer
  | .sizeLadder | .shortcodeEdit1 | .gazetteer => .separator

/-- What a rule contributed to the outcome of a field. -/
structure RuleTrace where
  rule : RuleId
  cls : RuleClass
  field : JsString
  dir : RuleDir
  deriving DecidableEq

structure SemanticRulesConfig where
  sizeLadders : Option (List (List JsString))
  gazetteers : Option (List (List JsString))
  shortCodeMaxLen : Option ℤ
  disable : Option (List RuleId)

/-- The sizes of clothes. -/
def SIZE_LADDER : List JsString := ["xs", "s", "m", "l", "xl", "xxl", "xxxl"].map js

def DEFAULT_RULES : SemanticRulesConfig := ⟨some [SIZE_LADDER], some [], some 4, none⟩

structure FieldOutcome where
  dir : RuleDir
  traces : List RuleTrace
  deriving DecidableEq

/-- What the rules say of the values of a field. -/
def evaluateField (U : Unicode) (field rawA rawB : JsString) (cfg : SemanticRulesConfig)
    (off : List RuleId) : FieldOutcome :=
  let by_ (rule : RuleId) (dir : RuleDir) : FieldOutcome :=
    ⟨dir, [⟨rule, RULE_CLASS rule, field, dir⟩]⟩
  if rawA = rawB then ⟨.matched, []⟩
  else
    let decimalSafe := !hasDecimal U rawA && !hasDecimal U rawB
    if .punctSpace ∉ off ∧ charNorm U rawA = charNorm U rawB then by_ .punctSpace .matched
    else if .punctSpace ∉ off ∧ decimalSafe ∧ squash U rawA = squash U rawB then
      by_ .punctSpace .matched
    else
      let ta := tokenize U rawA
      let tb := tokenize U rawB
      if .digitValue ∉ off ∧ decimalSafe ∧ digitValueEqual U ta tb then by_ .digitValue .matched
      else if .digitConcat ∉ off ∧ digitConcatEqual U ta tb rawA rawB then by_ .digitConcat .matched
      else
        let (ra, rb) := residue ta tb
        if .sizeLadder ∉ off ∧ groupConflict U ra rb (cfg.sizeLadders.getD [SIZE_LADDER]) then
          by_ .sizeLadder .separate
        else if .gazetteer ∉ off ∧ groupConflict U ra rb (cfg.gazetteers.getD []) then
          by_ .gazetteer .separate
        else if .shortcodeEdit1 ∉ off ∧ shortCodeEdit1 ra rb (cfg.shortCodeMaxLen.getD 4) then
          by_ .shortcodeEdit1 .separate
        else ⟨.gray, []⟩

/-- The values of fields, by their names. -/
abbrev FieldValues := List (JsString × JsString)

/-- `values[k] ?? ''`. -/
def valueOf (values : FieldValues) (k : JsString) : JsString := (values.lookup k).getD []

structure LadderOutcome where
  kind : RuleDir
  trace : List RuleTrace
  deriving DecidableEq

/-- Any separator: separate; all fields equal: matched; else gray. -/
def runRuleLadder (U : Unicode) (keys : List JsString) (prior incoming : FieldValues)
    (cfg : SemanticRulesConfig) : LadderOutcome :=
  let outcomes := keys.map fun k =>
    evaluateField U k (valueOf prior k) (valueOf incoming k) cfg (cfg.disable.getD [])
  let trace := outcomes.flatMap (·.traces)
  if outcomes.any (·.dir = .separate) then ⟨.separate, trace⟩
  else if outcomes.all (·.dir = .matched) then ⟨.matched, trace⟩
  else ⟨.gray, trace⟩

/-- The rules of a configuration, `true` being the defaults. -/
inductive RulesOption where
  | defaults
  | config (cfg : SemanticRulesConfig)

def rulesConfigOf : Option RulesOption → Option SemanticRulesConfig
  | none => none
  | some .defaults => some DEFAULT_RULES
  | some (.config cfg) => some {
      sizeLadders := cfg.sizeLadders <|> DEFAULT_RULES.sizeLadders
      gazetteers := cfg.gazetteers <|> DEFAULT_RULES.gazetteers
      shortCodeMaxLen := cfg.shortCodeMaxLen <|> DEFAULT_RULES.shortCodeMaxLen
      disable := cfg.disable <|> DEFAULT_RULES.disable }

end Gnldev.Durable.Semantic
