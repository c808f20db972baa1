import Gnldev.Durable.Format
import Gnldev.Durable.JournalKey.Named
import Mathlib.Logic.Function.Basic

/-!
# Records are read back

A record that is written with its version is read without it, from the journal and from what was
read of the run before, if its key is one of those that are versioned. The keys of an input, of a
model step and of a call by its arguments are; the key of a call by its id is, if there is no colon
in the id, or the id ends like such a key. The keys of a window that is more than one run are not,
so their records keep the version (`readsBack_iff`).

An older record has the same counts and the same reason to finish in the new shape, unless a count
is null: then it is taken for new (`upgraded_iff`). A record that is in the new shape stays as it is
(`upgradeFormat_new`).
-/

namespace Gnldev.Durable.Format

open JsValue

/-! ## Records, field by field -/

section Records

variable (P : JsString → JsValue → Prop) (R : JsString → JsValue → JsValue → Prop)

mutual

/-- What holds of a field, and of the fields of the parts in it that end the stream. -/
def EachField (name : JsString) : JsValue → Prop
  | arr parts => P name (arr parts) ∧ (name = PARTS → EachPart parts)
  | v => P name v

def EachPart : List JsValue → Prop
  | [] => True
  | part :: parts => EachFinish part ∧ EachPart parts

def EachFinish : JsValue → Prop
  | obj part => isFinish (obj part) → Each part
  | _ => True

/-- What holds of all fields of a record, and of the parts that end its stream. -/
def Each : List (JsString × JsValue) → Prop
  | [] => True
  | (name, v) :: rec => EachField name v ∧ Each rec

end

mutual

/-- A field, and what has become of it. -/
def FieldTo (name : JsString) (w : JsValue) : JsValue → Prop
  | arr parts =>
    if name = PARTS then ∃ parts', w = arr parts' ∧ PartsTo parts' parts else R name (arr parts) w
  | v => R name v w

def PartsTo (parts' : List JsValue) : List JsValue → Prop
  | [] => parts' = []
  | part :: parts => ∃ part' rest, parts' = part' :: rest ∧ PartTo part' part ∧ PartsTo rest parts

def PartTo (part' : JsValue) : JsValue → Prop
  | obj part =>
    if isFinish (obj part) then ∃ rec, part' = obj rec ∧ To rec part else part' = obj part
  | v => part' = v

/-- A record, and what has become of it: the same fields, one by one, but for the version. -/
def To (rec' : List (JsString × JsValue)) : List (JsString × JsValue) → Prop
  | [] => rec' = []
  | (name, v) :: rec =>
    if name = VERSION then To rec' rec
    else ∃ w rest, rec' = (name, w) :: rest ∧ FieldTo name w v ∧ To rest rec

end

end Records

/-- A count, if it is one. -/
def countOf : JsValue → Option JsString
  | num text => some text
  | _ => none

/-- A count of version 1 is a number, or is not there. -/
def OldCount : JsValue → Prop
  | undefined | null | num _ => True
  | _ => False

/-- A field as it is in version 1. -/
structure OldField (name : JsString) (v : JsValue) : Prop where
  usage : name = USAGE → v = undefined ∨
    v.isObj = true ∧ OldCount (v.field INPUT_TOKENS) ∧ OldCount (v.field OUTPUT_TOKENS)
  finishReason : name = FINISH_REASON → v = undefined ∨ ∃ s, v = str s

/-- A field as it is in version 2. -/
structure NewField (name : JsString) (v : JsValue) : Prop where
  version : name ≠ VERSION
  usage : name = USAGE → v = undefined ∨ (v.field INPUT_TOKENS).isObj = true
  finishReason : name = FINISH_REASON → ∀ s, v ≠ str s

/-- The count of the input is not null. -/
def Counted (name : JsString) (v : JsValue) : Prop := name = USAGE → v.field INPUT_TOKENS ≠ null

/-- A field of version 1 and what has become of it in version 2. -/
structure SameTotals (name : JsString) (v w : JsValue) : Prop where
  usage : name = USAGE → v = undefined ∧ w = undefined ∨
    (w.field INPUT_TOKENS).isObj = true ∧ (w.field OUTPUT_TOKENS).isObj = true ∧
      countOf ((w.field INPUT_TOKENS).field (js "total")) = countOf (v.field INPUT_TOKENS) ∧
      countOf ((w.field OUTPUT_TOKENS).field (js "total")) = countOf (v.field OUTPUT_TOKENS)
  finishReason : name = FINISH_REASON → v = undefined ∧ w = undefined ∨
    ∃ s, v = str s ∧ w.field (js "unified") = str s ∧ w.field (js "raw") = str s
  other : name ≠ USAGE → name ≠ FINISH_REASON → w = v

section Upgrade

variable {name : JsString} {v w : JsValue} {rec rec' : List (JsString × JsValue)}

theorem usage_ne : USAGE ≠ FINISH_REASON ∧ USAGE ≠ PARTS ∧ USAGE ≠ VERSION := by decide

/-! ## Upgrades -/

theorem countOf_orUndefined : countOf (orUndefined v) = countOf v := by
  cases v <;> rfl

/-- The counts of version 1, in the shape of version 2. -/
theorem upgradeUsage_of_old (hobj : v.isObj = true) (hin : OldCount (v.field INPUT_TOKENS))
    (hcounted : v.field INPUT_TOKENS ≠ null) : SameTotals USAGE v (upgradeUsage v) := by
  have htruthy : v.truthy = true := by
    cases v with
    | obj _ => rfl
    | _ => contradiction
  have htype : typeofObject (v.field INPUT_TOKENS) = false := by
    cases hfield : v.field INPUT_TOKENS with
    | null => exact absurd hfield hcounted
    | arr _ | obj _ =>
      rw [hfield] at hin
      exact hin.elim
    | _ => rfl
  refine ⟨fun _ => .inr ?_, fun h => absurd h usage_ne.1, fun h => absurd rfl h⟩
  rw [upgradeUsage, htruthy, htype]
  exact ⟨rfl, rfl, countOf_orUndefined, countOf_orUndefined⟩

/-- A field that is no list of parts, in the new shape. -/
def upgradeLeaf (name : JsString) (v : JsValue) : JsValue :=
  if name = USAGE then upgradeUsage v
  else if name = FINISH_REASON then upgradeFinishReason v
  else v

/-- A field has the same totals if and only if it is counted. -/
theorem sameTotals_iff (h : OldField name v) :
    SameTotals name v (upgradeLeaf name v) ↔ Counted name v := by
  by_cases husage : name = USAGE
  · subst husage
    rw [upgradeLeaf, if_pos rfl]
    rcases h.usage rfl with rfl | ⟨hobj, hin, hout⟩
    · refine ⟨fun _ _ => nofun, fun _ => ?_⟩
      exact ⟨fun _ => .inl ⟨rfl, rfl⟩, fun h => absurd h usage_ne.1, fun h => absurd rfl h⟩
    · refine ⟨fun hsame _ hnull => ?_, fun hcounted => upgradeUsage_of_old hobj hin (hcounted rfl)⟩
      -- A null count is taken for an object.
      have hkept : upgradeUsage v = v := by simp [upgradeUsage, hnull, typeofObject]
      rcases hsame.usage rfl with ⟨rfl, -⟩ | ⟨hnew, -⟩
      · contradiction
      · rw [hkept, hnull] at hnew
        contradiction
  · refine ⟨fun _ h => absurd h husage, fun _ => ?_⟩
    rw [upgradeLeaf, if_neg husage]
    refine ⟨fun h => absurd h husage, fun hname => ?_, fun _ hname => if_neg hname⟩
    rw [if_pos hname]
    rcases h.finishReason hname with rfl | ⟨s, rfl⟩
    · exact .inl ⟨rfl, rfl⟩
    · exact .inr ⟨s, rfl, rfl, rfl⟩

theorem eraseField_cons {name k : JsString} :
    eraseField k ((name, v) :: rec) =
      if name = k then eraseField k rec else (name, v) :: eraseField k rec := by
  by_cases hk : name = k <;> simp [eraseField, hk]

theorem fieldTo_leaf (h : OldField name v) (hparts : ∀ parts, v = arr parts → name ≠ PARTS) :
    FieldTo SameTotals name (upgradeField name v) v ↔ EachField Counted name v := by
  have hleaf := sameTotals_iff h
  cases v with
  | arr parts =>
    have hname := hparts parts rfl
    have hup : upgradeField name (arr parts) = upgradeLeaf name (arr parts) := by
      by_cases hreason : name = FINISH_REASON
      · subst hreason
        simp [upgradeField, upgradeLeaf, hname, upgradeFinishReason]
      · simp [upgradeField, upgradeLeaf, hname, hreason]
    rw [hup, FieldTo, EachField, if_neg hname]
    exact ⟨fun h => ⟨hleaf.1 h, fun h => absurd h hname⟩, fun h => hleaf.2 h.1⟩
  | _ =>
    simp only [upgradeField, FieldTo, EachField]
    exact hleaf

mutual

theorem fieldTo_iff (name : JsString) : ∀ v : JsValue, EachField OldField name v →
    (FieldTo SameTotals name (upgradeField name v) v ↔ EachField Counted name v)
  | arr parts, h => by
    by_cases hname : name = PARTS
    · subst hname
      rw [EachField] at h
      have hcounted : Counted PARTS (arr parts) := fun h => absurd h.symm usage_ne.2.1
      have hparts := partsTo_iff parts (h.2 rfl)
      rw [upgradeField, if_pos rfl, FieldTo, if_pos rfl, EachField, ← hparts]
      constructor
      · intro ⟨parts', heq, hto⟩
        obtain rfl := JsValue.arr.inj heq
        exact ⟨hcounted, fun _ => hto⟩
      · exact fun hto => ⟨_, rfl, hto.2 rfl⟩
    · rw [EachField] at h
      exact fieldTo_leaf h.1 fun _ _ => hname
  | undefined, h | null, h | .bool _, h | num _, h | str _, h | func, h | obj _, h => by
    exact fieldTo_leaf (by simpa only [EachField] using h) nofun

theorem partsTo_iff : ∀ parts : List JsValue, EachPart OldField parts →
    (PartsTo SameTotals (upgradeParts parts) parts ↔ EachPart Counted parts)
  | [], _ => by simp [PartsTo, upgradeParts, EachPart]
  | part :: parts, h => by
    rw [EachPart] at h
    have hpart := partTo_iff part h.1
    have hparts := partsTo_iff parts h.2
    rw [upgradeParts, PartsTo, EachPart, ← hpart, ← hparts]
    constructor
    · intro ⟨part', rest, heq, hto⟩
      obtain ⟨rfl, rfl⟩ := List.cons.inj heq
      exact hto
    · exact fun hto => ⟨_, _, rfl, hto⟩

theorem partTo_iff : ∀ part : JsValue, EachFinish OldField part →
    (PartTo SameTotals (upgradePart part) part ↔ EachFinish Counted part)
  | obj part, h => by
    rw [EachFinish] at h
    rw [upgradePart, PartTo, EachFinish]
    by_cases hfinish : isFinish (obj part) = true
    · rw [if_pos hfinish, if_pos hfinish]
      have hpart := to_iff part (h hfinish)
      constructor
      · intro ⟨rec, heq, hto⟩ _
        obtain rfl := JsValue.obj.inj heq
        exact hpart.1 hto
      · exact fun hto => ⟨_, rfl, hpart.2 (hto hfinish)⟩
    · rw [if_neg hfinish, if_neg hfinish]
      exact ⟨fun _ h => absurd h hfinish, fun _ => rfl⟩
  | undefined, _ | null, _ | .bool _, _ | num _, _ | str _, _ | func, _ | arr _, _ => by
    simp [upgradePart, PartTo, EachFinish]

/-- A record of version 1 has the same totals in the new shape if and only if it is counted. -/
theorem to_iff : ∀ rec : List (JsString × JsValue), Each OldField rec →
    (To SameTotals (eraseField VERSION (upgradeFields rec)) rec ↔ Each Counted rec)
  | [], _ => by simp [To, upgradeFields, eraseField, Each]
  | (name, v) :: rec, h => by
    rw [Each] at h
    have hrec := to_iff rec h.2
    have hfield := fieldTo_iff name v h.1
    rw [upgradeFields, eraseField_cons, To, Each]
    by_cases hname : name = VERSION
    · -- The version goes.
      rw [if_pos hname, if_pos hname, hrec]
      subst hname
      have hcounted : EachField Counted VERSION v := by
        have hnot (v : JsValue) : Counted VERSION v := fun h => absurd h.symm usage_ne.2.2
        cases v with
        | arr parts =>
          rw [EachField]
          exact ⟨hnot _, fun h => absurd h (by decide)⟩
        | _ =>
          simp only [EachField]
          exact hnot _
      exact ⟨fun h => ⟨hcounted, h⟩, And.right⟩
    · rw [if_neg hname, if_neg hname, ← hfield, ← hrec]
      constructor
      · intro ⟨w, rest, heq, hto⟩
        obtain ⟨hw, rfl⟩ := List.cons.inj heq
        obtain rfl := (Prod.mk.inj hw).2
        exact hto
      · exact fun hto => ⟨_, _, rfl, hto⟩

end

/-- The version of a record that is erased does not show. -/
theorem eraseField_setField : eraseField name (setField name v rec) = eraseField name rec := by
  induction rec with
  | nil => simp [setField, OrderedMap.putEntry, eraseField]
  | cons field rec ih =>
    obtain ⟨k, w⟩ := field
    rw [setField] at ih
    rw [setField, OrderedMap.putEntry]
    split
    · next hk =>
      subst hk
      rw [eraseField_cons, eraseField_cons, if_pos rfl, if_pos rfl]
    · next hk => rw [eraseField_cons, eraseField_cons, if_neg hk, if_neg hk, ih]

theorem eraseField_of_lookup (h : rec.lookup name = none) : eraseField name rec = rec := by
  rw [List.lookup_eq_none_iff] at h
  refine List.filter_eq_self.2 fun field hfield => decide_eq_true fun heq => ?_
  exact bne_iff_ne.1 (h field hfield) heq.symm

variable {next : JsString → JsString} {key : Option JsString}

/-- A record of version 1 that is read. -/
theorem upgradeFormat_one (h : versionOf rec = js "1") :
    upgradeFormat next key (obj rec) = .ok (obj (eraseField VERSION (upgradeFields rec))) := by
  have hlt : exceedsTwo (js "1") = false ∧ belowTwo (js "1") = true := by decide
  simp only [upgradeFormat, h, hlt.1, hlt.2, Bool.false_eq_true, if_false, if_true, upgradeOne,
    eraseField_setField]

/-- A record of version 2 that is read. -/
theorem upgradeFormat_two (h : versionOf rec = js "2") :
    upgradeFormat next key (obj rec) = .ok (obj (eraseField VERSION rec)) := by
  have hlt : exceedsTwo (js "2") = false ∧ belowTwo (js "2") = false := by decide
  simp only [upgradeFormat, h, hlt.1, hlt.2, Bool.false_eq_true, if_false]

/-! ## New records -/

theorem upgradeField_new_leaf (h : NewField name v) (hparts : ∀ parts, v = arr parts → name ≠ PARTS) :
    upgradeField name v = v := by
  have husage (hname : name = USAGE) : upgradeUsage v = v := by
    rcases h.usage hname with rfl | hobj
    · rfl
    · have htype : typeofObject (v.field INPUT_TOKENS) = true := by
        cases hfield : v.field INPUT_TOKENS with
        | obj _ => rfl
        | _ =>
          rw [hfield] at hobj
          contradiction
      simp [upgradeUsage, htype]
  have hreason (hname : name = FINISH_REASON) : upgradeFinishReason v = v := by
    cases v with
    | str s => exact absurd rfl (h.finishReason hname s)
    | _ => rfl
  cases v with
  | arr parts =>
    rw [upgradeField, if_neg (hparts parts rfl)]
    split
    · next hname => exact husage hname
    · rfl
  | _ =>
    simp only [upgradeField]
    split
    · next hname => exact husage hname
    · split
      · next hname => exact hreason hname
      · rfl

theorem lookup_version_of_new (h : Each NewField rec) : rec.lookup VERSION = none := by
  induction rec with
  | nil => rfl
  | cons field rec ih =>
    obtain ⟨name, v⟩ := field
    rw [Each] at h
    have hname : name ≠ VERSION := by
      have hfield := h.1
      cases v with
      | arr parts =>
        rw [EachField] at hfield
        exact hfield.1.version
      | _ =>
        simp only [EachField] at hfield
        exact hfield.version
    rw [List.lookup_cons, beq_false_of_ne hname.symm]
    exact ih h.2

mutual

theorem upgradeField_new (name : JsString) :
    ∀ v : JsValue, EachField NewField name v → upgradeField name v = v
  | arr parts, h => by
    rw [EachField] at h
    by_cases hname : name = PARTS
    · rw [upgradeField, if_pos hname, upgradeParts_new parts (h.2 hname)]
    · exact upgradeField_new_leaf h.1 fun _ _ => hname
  | undefined, h | null, h | .bool _, h | num _, h | str _, h | func, h | obj _, h => by
    exact upgradeField_new_leaf (by simpa only [EachField] using h) nofun

theorem upgradeParts_new : ∀ parts : List JsValue, EachPart NewField parts →
    upgradeParts parts = parts
  | [], _ => by rw [upgradeParts]
  | part :: parts, h => by
    rw [EachPart] at h
    rw [upgradeParts, upgradePart_new part h.1, upgradeParts_new parts h.2]

theorem upgradePart_new : ∀ part : JsValue, EachFinish NewField part → upgradePart part = part
  | obj part, h => by
    rw [EachFinish] at h
    rw [upgradePart]
    split
    · next hfinish =>
      rw [upgradeFields_new part (h hfinish),
        eraseField_of_lookup (lookup_version_of_new (h hfinish))]
    · rfl
  | undefined, _ | null, _ | .bool _, _ | num _, _ | str _, _ | func, _ | arr _, _ => by
    simp [upgradePart]

theorem upgradeFields_new : ∀ rec : List (JsString × JsValue), Each NewField rec →
    upgradeFields rec = rec
  | [], _ => by rw [upgradeFields]
  | (name, v) :: rec, h => by
    rw [Each] at h
    rw [upgradeFields, upgradeField_new name v h.1, upgradeFields_new rec h.2]

end

theorem versionOf_stamped : versionOf (stampFormat rec) = js "2" := by
  rw [versionOf, stampFormat, lookup_setField, if_pos rfl]

theorem versionOf_unstamped (h : rec.lookup VERSION = none) : versionOf rec = js "1" := by
  rw [versionOf, h]

/-- A stamped record is read without its version. -/
theorem upgradeFormat_stamped (h : rec.lookup VERSION = none) :
    upgradeFormat next key (obj (stampFormat rec)) = .ok (obj rec) := by
  rw [upgradeFormat_two versionOf_stamped, stampFormat, eraseField_setField, eraseField_of_lookup h]

/-- A record in the new shape stays as it is, with a version or without. -/
theorem upgradeFormat_new (h : Each NewField rec) :
    upgradeFormat next key (obj rec) = .ok (obj rec) ∧
      upgradeFormat next key (obj (stampFormat rec)) = .ok (obj rec) := by
  have hversion := lookup_version_of_new h
  refine ⟨?_, upgradeFormat_stamped hversion⟩
  rw [upgradeFormat_one (versionOf_unstamped hversion), upgradeFields_new rec h,
    eraseField_of_lookup hversion]

/-- A record of version 1 that is read has the same totals if and only if it is counted. -/
theorem upgraded_iff (hversion : versionOf rec = js "1") (h : Each OldField rec) :
    (∃ rec', upgradeFormat next key (obj rec) = .ok (obj rec') ∧ To SameTotals rec' rec) ↔
      Each Counted rec := by
  rw [upgradeFormat_one hversion, ← to_iff rec h]
  constructor
  · intro ⟨rec', heq, hto⟩
    obtain rfl := JsValue.obj.inj (Except.ok.inj heq)
    exact hto
  · exact fun hto => ⟨_, rfl, hto⟩

end Upgrade

/-! ## Keys -/

/-- An id of a call, or the end of one, that a key of a call may end with: there is no colon in it,
    or what follows the last one is `input`, or a number after `model`, or anything after `tool`. -/
def CallId (id : JsString) : Prop :=
  sep ∉ id ∨ ∃ a last, id = a ++ sep :: last ∧ sep ∉ last ∧
    (js ":tool" <:+ sep :: a ∨ last = js "input" ∨
      (js ":model" <:+ sep :: a ∧ last ≠ [] ∧ last.all isDigit))

/-- The keys that records are written to with their version. -/
def Stamped : JournalKey → Prop
  | .input _ | .model _ _ | .tool _ _ | .toolByArgs _ _ _ | .toolThread _ _ _
  | .toolCrossRun _ _ => True
  | _ => False

/-- The keys whose records are read without it. -/
def Gated : JournalKey → Prop
  | .input _ | .model _ _ | .toolByArgs _ _ _ => True
  | .tool _ toolCallId => CallId toolCallId
  | _ => False

section Keys

variable {q a last w id : JsString}

/-- Whether a key is versioned is decided by what is around its last colon. -/
theorem isVersionedKey_iff (hlast : sep ∉ last) : isVersionedKey (q ++ sep :: last) = true ↔
    js ":tool" <:+ q ∨ last = js "input" ∨ (js ":model" <:+ q ∧ last ≠ [] ∧ last.all isDigit) := by
  have hno : ∀ u ∈ last.reverse, decide (u ≠ sep) = true := fun u hu => by
    simpa using fun h : u = sep => hlast (h ▸ List.mem_reverse.1 hu)
  have hrev : (q ++ sep :: last).reverse = last.reverse ++ (sep :: q.reverse) := by simp
  have htake : ((q ++ sep :: last).reverse.takeWhile (· ≠ sep)).reverse = last := by
    rw [hrev, List.takeWhile_append_of_pos hno]
    simp
  have hdrop : ((q ++ sep :: last).reverse.dropWhile (· ≠ sep)).reverse = q ++ [sep] := by
    rw [hrev, List.dropWhile_append_of_pos hno]
    simp
  have hsuffix (v : JsString) : (v ++ [sep]).isSuffixOf (q ++ [sep]) = true ↔ v <:+ q := by
    rw [List.isSuffixOf_iff_suffix, ← List.reverse_prefix, List.reverse_append, List.reverse_append]
    simp
  have htool := hsuffix (js ":tool")
  have hmodel := hsuffix (js ":model")
  have hword : js ":tool" ++ [sep] = js ":tool:" ∧ js ":model" ++ [sep] = js ":model:" := by decide
  rw [hword.1] at htool
  rw [hword.2] at hmodel
  rw [isVersionedKey, htake, hdrop]
  simp [htool, hmodel, isDigit, or_assoc, and_assoc]

/-- A word that begins with a colon, and has no other, is after the last colon. -/
theorem suffix_after_sep (hw : sep ∉ w) : sep :: w <:+ q ++ sep :: a ↔ sep :: w <:+ sep :: a := by
  refine ⟨fun h => ?_, fun h => h.trans (List.suffix_append q _)⟩
  rcases List.suffix_or_suffix_of_suffix h (List.suffix_append q (sep :: a)) with h | ⟨z, hz⟩
  · exact h
  · cases z with
    | nil => exact ⟨[], hz.symm⟩
    | cons u z =>
      have hrest := (List.cons.inj hz).2
      exact absurd (hrest ▸ List.mem_append_right z List.mem_cons_self) hw

theorem exists_last_sep (h : sep ∈ id) : ∃ a last, id = a ++ sep :: last ∧ sep ∉ last := by
  obtain ⟨as, bs, heq, hno⟩ := List.eq_append_cons_of_mem (List.mem_reverse.2 h)
  refine ⟨bs.reverse, as.reverse, ?_, fun h => hno (List.mem_reverse.1 h)⟩
  simpa using congrArg List.reverse heq

theorem word_plain : sep ∉ js "tool" ∧ sep ∉ js "model" := by decide

/-- The key of a call is versioned if its id may end one. -/
theorem isVersionedKey_tool {runId : JsString} :
    isVersionedKey (runKeys.tool runId id) = true ↔ CallId id := by
  have hkey : runKeys.tool runId id = (runId ++ js ":tool") ++ sep :: id := by
    have hword : js ":tool:" = js ":tool" ++ [sep] := by decide
    rw [runKeys.tool, hword]
    simp
  have hcut (a last : JsString) : runKeys.tool runId (a ++ sep :: last) =
      ((runId ++ js ":tool") ++ sep :: a) ++ sep :: last := by
    have hword : js ":tool:" = js ":tool" ++ [sep] := by decide
    rw [runKeys.tool, hword]
    simp
  have hends (a last : JsString) (hlast : sep ∉ last) :
      isVersionedKey (runKeys.tool runId (a ++ sep :: last)) = true ↔
        js ":tool" <:+ sep :: a ∨ last = js "input" ∨
          (js ":model" <:+ sep :: a ∧ last ≠ [] ∧ last.all isDigit) := by
    rw [hcut, isVersionedKey_iff hlast]
    exact or_congr (suffix_after_sep word_plain.1)
      (or_congr Iff.rfl (and_congr (suffix_after_sep word_plain.2) Iff.rfl))
  constructor
  · intro h
    by_cases hid : sep ∈ id
    · obtain ⟨a, last, rfl, hlast⟩ := exists_last_sep hid
      exact .inr ⟨a, last, rfl, hlast, (hends a last hlast).1 h⟩
    · exact .inl hid
  · rintro (hid | ⟨a, last, rfl, hlast, h⟩)
    · rw [hkey, isVersionedKey_iff hid]
      exact .inl (List.suffix_append _ _)
    · exact (hends a last hlast).2 h

/-- A name by a tool and its arguments. -/
theorem argsName_plain {toolName hash : JsString} (hname : sep ∉ toolName) (hhash : isArgsHash hash) :
    sep ∉ js "args-" ++ toolName ++ js "-" ++ hash ∧
      js "args-" ++ toolName ++ js "-" ++ hash ≠ js "input" ∧
      ¬(js "args-" ++ toolName ++ js "-" ++ hash).all isDigit := by
  refine ⟨fun h => ?_, fun h => ?_, fun h => ?_⟩
  · simp only [List.mem_append] at h
    rcases h with ((h | h) | h) | h
    · exact absurd h (by decide)
    · exact hname h
    · exact absurd h (by decide)
    · exact (argsHash_plain hhash).1 h
  · have hhead := congrArg List.head? h
    simp [js, JsString.utf16] at hhead
  · have hhead := List.all_eq_true.1 h 0x61 (by simp [js, JsString.utf16])
    exact absurd hhead (by decide)

/-- A stamped key is versioned if and only if it is one of those. -/
theorem isVersionedKey_stamped {k : JournalKey} {key : JsString} (hk : Stamped k)
    (hbuilt : k.build = .ok key) (hhash : ∀ hash ∈ k.hashes, isArgsHash hash) :
    isVersionedKey key = true ↔ Gated k := by
  cases k with
  | input runId =>
    obtain rfl := Except.ok.inj hbuilt
    have hkey : runKeys.input runId = runId ++ sep :: js "input" := rfl
    rw [hkey, isVersionedKey_iff (by decide)]
    exact iff_of_true (.inr (.inl rfl)) trivial
  | model runId step =>
    obtain rfl := Except.ok.inj hbuilt
    have hkey : runKeys.model runId (decimal step) =
        (runId ++ js ":model") ++ sep :: decimal step := by
      have hword : EntryKind.model.separator = js ":model" ++ [sep] := by decide
      rw [runKeys.model, hword]
      simp
    rw [hkey, isVersionedKey_iff (decimal_plain step).1]
    refine iff_of_true (.inr (.inr ⟨List.suffix_append _ _, ?_, ?_⟩)) trivial
    · exact decimal_ne_nil step
    · exact List.all_eq_true.2 fun u hu => isDigit_of_mem_decimal hu
  | tool runId toolCallId =>
    obtain rfl := Except.ok.inj hbuilt
    exact isVersionedKey_tool
  | toolByArgs runId toolName hash =>
    obtain ⟨hname, rfl⟩ := toolByArgs_spells hbuilt
    obtain ⟨hplain, -, -⟩ := argsName_plain hname (hhash hash (.head _))
    have hkey : runId ++ js ":tool:args-" ++ toolName ++ js "-" ++ hash =
        runKeys.tool runId (js "args-" ++ toolName ++ js "-" ++ hash) := by
      have hword : js ":tool:args-" = js ":tool:" ++ js "args-" := by decide
      rw [runKeys.tool, hword]
      simp
    rw [hkey, isVersionedKey_tool]
    exact iff_of_true (.inl hplain) trivial
  | toolCrossRun toolName hash =>
    obtain ⟨hname, rfl⟩ := toolCrossRun_spells hbuilt
    obtain ⟨hplain, hinput, hdigits⟩ := argsName_plain hname (hhash hash (.head _))
    have hkey : js "xrun:args-" ++ toolName ++ js "-" ++ hash =
        js "xrun" ++ sep :: (js "args-" ++ toolName ++ js "-" ++ hash) := by
      have hword : js "xrun:args-" = js "xrun" ++ sep :: js "args-" := by decide
      rw [hword]
      simp
    rw [hkey, isVersionedKey_iff hplain]
    refine iff_of_false ?_ id
    rintro (h | h | h)
    · exact absurd h (by decide)
    · exact hinput h
    · exact hdigits h.2.2
  | toolThread threadId toolName hash =>
    obtain ⟨hthread, hkey⟩ := ok_of_assertThreadId hbuilt
    unfold runKeys.assertNoColonInToolName at hkey
    split at hkey
    · contradiction
    next hname =>
    obtain rfl := Except.ok.inj hkey
    obtain ⟨hplain, hinput, hdigits⟩ := argsName_plain hname (hhash hash (.head _))
    have hcut : js "xthr:" ++ threadId ++ js ":args-" ++ toolName ++ js "-" ++ hash =
        (js "xthr" ++ sep :: threadId) ++ sep :: (js "args-" ++ toolName ++ js "-" ++ hash) := by
      have hword : js "xthr:" = js "xthr" ++ [sep] ∧ js ":args-" = sep :: js "args-" := by decide
      rw [hword.1, hword.2]
      simp
    change isVersionedKey
      (js "xthr:" ++ threadId ++ js ":args-" ++ toolName ++ js "-" ++ hash) = true ↔ False
    rw [hcut, isVersionedKey_iff hplain]
    refine iff_of_false ?_ id
    rintro (h | h | h)
    · -- A thread has no part `tool`.
      have hword := (suffix_after_sep word_plain.1).1 h
      have hsegment := hasRecordSegment_iff.2 ⟨_, .tool, hword, .inl rfl⟩
      rw [hasRecordSegment_thread hthread] at hsegment
      contradiction
    · exact hinput h
    · exact hdigits h.2.2
  | _ => exact hk.elim

end Keys

/-! ## Reading back -/

/-- What is written with its version is read without it, from the journal and from the cache. -/
structure ReadsBack (next : JsString → JsString) (key : JsString) (x : List (JsString × JsValue)) :
    Prop where
  journal : ∀ ctx : DurableCtx, ctx.replayCache.bind (· key) = none →
    (ctxGet next { ctx with journal := Function.update ctx.journal key (some (obj (stampFormat x))) }
      key).1 = .ok (some (obj x))
  cache : ∀ (ctx : DurableCtx) (cache : JsString → Option JsValue), ctx.replayCache = some cache →
    cache key = some (obj (stampFormat x)) → (ctxGet next ctx key).1 = .ok (some (obj x))

theorem readsBack_iff {key : JsString} {x : List (JsString × JsValue)}
    (hx : x.lookup VERSION = none) :
    ReadsBack next key x ↔ isVersionedKey key = true := by
  constructor
  · intro h
    by_contra hkey
    have hread := h.cache ⟨fun _ => none, some fun _ => some (obj (stampFormat x))⟩ _ rfl rfl
    have hraw : (ctxGet next ⟨fun _ => none, some fun _ => some (obj (stampFormat x))⟩ key).1 =
        .ok (some (obj (stampFormat x))) := by
      simp [ctxGet, hkey]
    rw [hraw] at hread
    have heq : stampFormat x = x := JsValue.obj.inj (Option.some.inj (Except.ok.inj hread))
    have hlookup : (stampFormat x).lookup VERSION = some (num (js "2")) := by
      rw [stampFormat, lookup_setField, if_pos rfl]
    rw [heq, hx] at hlookup
    contradiction
  · intro hkey
    have hup : upgradeFormat next (some key) (obj (stampFormat x)) = .ok (obj x) :=
      upgradeFormat_stamped hx
    refine ⟨fun ctx hctx => ?_, fun ctx cache hctx hcache => ?_⟩
    · simp [ctxGet, hctx, hkey, hup, Except.map]
    · simp [ctxGet, hctx, hcache, hkey, hup, Except.map]

/-- Stamped records are read back: a record is read as it was written if and only if its key is one
    of those that are gated; a record of version 1 has the same totals and the same reason to finish
    in the new shape, and the same other fields, if and only if its counts of the input are not
    null; and a record in the new shape stays as it is. -/
theorem stamped_reads_back (next : JsString → JsString) :
    (∀ (k : JournalKey) (key : JsString) (x : List (JsString × JsValue)), Stamped k →
      k.build = .ok key → (∀ hash ∈ k.hashes, isArgsHash hash) → x.lookup VERSION = none →
      (ReadsBack next key x ↔ Gated k)) ∧
    (∀ (key : Option JsString) (rec : List (JsString × JsValue)), versionOf rec = js "1" →
      Each OldField rec →
      ((∃ rec', upgradeFormat next key (obj rec) = .ok (obj rec') ∧ To SameTotals rec' rec) ↔
        Each Counted rec)) ∧
    ∀ (key : Option JsString) (rec : List (JsString × JsValue)), Each NewField rec →
      upgradeFormat next key (obj rec) = .ok (obj rec) ∧
        upgradeFormat next key (obj (stampFormat rec)) = .ok (obj rec) :=
  ⟨fun _ _ _ hk hbuilt hhash hx => (readsBack_iff hx).trans (isVersionedKey_stamped hk hbuilt hhash),
    fun _ _ hversion h => upgraded_iff hversion h, fun _ _ h => upgradeFormat_new h⟩

/-- A step of a stream, of version 1. -/
def streamed : List (JsString × JsValue) :=
  [(PARTS, arr [object [("type", str (js "finish")), ("finishReason", str (js "stop")),
    ("usage", object [("inputTokens", num (js "3")), ("outputTokens", num (js "2"))])]])]

theorem streamed_reads_back :
    ReadsBack id (js "r:tool:call-9") [(js "status", str (js "succeeded"))] ∧
    ∃ rec', upgradeFormat id none (obj streamed) = .ok (obj rec') ∧ To SameTotals rec' streamed := by
  have hother {name : JsString} {v : JsValue} (h : name ≠ USAGE ∧ name ≠ FINISH_REASON) :
      OldField name v := ⟨fun hname => absurd hname h.1, fun hname => absurd hname h.2⟩
  have hreason : OldField FINISH_REASON (str (js "stop")) :=
    ⟨fun h => absurd h.symm usage_ne.1, fun _ => .inr ⟨_, rfl⟩⟩
  have husage : OldField USAGE
      (object [("inputTokens", num (js "3")), ("outputTokens", num (js "2"))]) :=
    ⟨fun _ => .inr ⟨rfl, trivial, trivial⟩, fun h => absurd h usage_ne.1⟩
  have hold : Each OldField streamed :=
    ⟨⟨hother (by decide), fun _ =>
      ⟨fun _ => ⟨hother (by decide), hreason, husage, trivial⟩, trivial⟩⟩, trivial⟩
  have hcounted : Each Counted streamed := by
    simp [streamed, object, Each, EachField, EachPart, EachFinish, isFinish, Counted, PARTS, USAGE,
      field, INPUT_TOKENS]
  exact ⟨((stamped_reads_back id).1 (.tool (js "r") (js "call-9")) _ _ trivial rfl
    (List.forall_mem_nil _) rfl).2
    (.inl (by decide)), ((stamped_reads_back id).2.1 none streamed rfl hold).2 hcounted⟩

def itemRunId (batchId key : JsString) : JsString := js "batch:" ++ batchId ++ js ":" ++ key

def itemToolCallId (key : JsString) : JsString := js "item:" ++ key

/-- The record of an item of a batch keeps its version. -/
theorem item_keeps_version :
    assertRunIdSafe (itemRunId (js "b") (js "k")) = .ok () ∧
    ∃ key, (JournalKey.tool (itemRunId (js "b") (js "k")) (itemToolCallId (js "k"))).build = .ok key ∧
      let x := [(js "status", str (js "succeeded"))]
      (ctxGet id ⟨Function.update (fun _ => none) key (some (obj (stampFormat x))), none⟩ key).1 =
        .ok (some (obj (x ++ [(VERSION, num (js "2"))]))) := by
  refine ⟨by decide, _, rfl, rfl⟩

end Gnldev.Durable.Format
