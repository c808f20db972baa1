import Gnldev.Lib.JsValue
import Gnldev.Lib.OrderedMap

/-!
# Merge patches

JSON documents, as they are read: what is found along a path of names (`JsValue.readAt`). Documents
that are read the same along all paths are the same (`JsValue.Same`); the order of their fields does
not count. An array is a value like any other.

A merge patch is a document that says what is to change in another one: a null removes a field, an
object is a patch of the field, and any other value replaces it (`mergePatch`, RFC 7396). What comes
out has no null where a patch can look (`nullFree_mergePatch`).
-/

namespace Gnldev

namespace JsValue

/-! ## Paths -/

/-- `v` is an object, and no array. -/
def isObj : JsValue → Bool
  | obj _ => true
  | _ => false

/-- The fields of an object. -/
def fields : JsValue → List (JsString × JsValue)
  | obj fs => fs
  | _ => []

/-- A value without its fields. -/
def shape : JsValue → JsValue
  | obj _ => obj []
  | v => v

/-- What is found along a path. -/
def readAt (v : JsValue) : List JsString → Option JsValue
  | [] => some v.shape
  | name :: path => (v.fields.lookup name).bind fun w => w.readAt path

/-- Documents that are read the same. -/
def Same (v w : JsValue) : Prop := ∀ path, v.readAt path = w.readAt path

/-- No field is null, at any depth. -/
def NullFree (v : JsValue) : Prop := ∀ name path, v.readAt (name :: path) ≠ some null

/-- The names in an object are pairwise different, at any depth. -/
inductive Distinct : JsValue → Prop
  | leaf {v} : v.isObj = false → Distinct v
  | fields {fs} : (fs.map Prod.fst).Nodup → (∀ name v, fs.lookup name = some v → Distinct v) →
      Distinct (obj fs)

section Paths

variable {v w : JsValue} {fs gs : List (JsString × JsValue)} {name : JsString}

theorem sizeOf_lookup (h : fs.lookup name = some v) : sizeOf v < sizeOf (obj fs) := by
  have hfields : sizeOf v < sizeOf fs := by
    induction fs with
    | nil => contradiction
    | cons field fs ih =>
      obtain ⟨k, w⟩ := field
      rw [List.lookup_cons] at h
      split at h
      · obtain rfl := Option.some.inj h
        simp only [List.cons.sizeOf_spec, Prod.mk.sizeOf_spec]
        omega
      · have := ih h
        simp only [List.cons.sizeOf_spec]
        omega
  rw [obj.sizeOf_spec]
  omega

theorem mem_of_lookup (h : fs.lookup name = some v) : (name, v) ∈ fs := by
  obtain ⟨before, after, rfl, -⟩ := List.lookup_eq_some_iff.1 h
  simp

/-- By what is in the list. -/
theorem Distinct.of_mem (hnodup : (fs.map Prod.fst).Nodup) (h : ∀ field ∈ fs, field.2.Distinct) :
    (obj fs).Distinct :=
  .fields hnodup fun _ _ hv => h _ (mem_of_lookup hv)

/-- Induction on the fields of objects. -/
@[elab_as_elim]
theorem fields_induction {P : JsValue → Prop} (leaf : ∀ v, v.isObj = false → P v)
    (object : ∀ fs, (∀ name v, fs.lookup name = some v → P v) → P (obj fs)) (v : JsValue) : P v := by
  cases hv : v.isObj with
  | false => exact leaf v hv
  | true =>
    match v with
    | obj fs => exact object fs fun name w h => fields_induction leaf object w
termination_by sizeOf v
decreasing_by exact sizeOf_lookup h

theorem shape_eq_null : v.shape = null ↔ v = null := by
  cases v <;> simp [shape]

theorem Same.refl (v : JsValue) : v.Same v := fun _ => rfl

theorem Same.symm (h : v.Same w) : w.Same v := fun path => (h path).symm

/-- Fields that are read the same. -/
def SameField : Option JsValue → Option JsValue → Prop
  | none, none => True
  | some v, some w => v.Same w
  | _, _ => False

theorem sameField_refl : ∀ o : Option JsValue, SameField o o
  | none => trivial
  | some v => .refl v

/-- Objects are the same if their fields are. -/
theorem same_obj_iff :
    (obj fs).Same (obj gs) ↔ ∀ name, SameField (fs.lookup name) (gs.lookup name) := by
  constructor
  · intro h name
    have hpath (path : List JsString) := h (name :: path)
    simp only [readAt, fields] at hpath
    cases hf : fs.lookup name with
    | none =>
      cases hg : gs.lookup name with
      | none => trivial
      | some w => exact absurd (hpath []) (by simp [hf, hg, readAt])
    | some v =>
      cases hg : gs.lookup name with
      | none => exact absurd (hpath []) (by simp [hf, hg, readAt])
      | some w =>
        intro path
        simpa [hf, hg] using hpath path
  · intro h path
    cases path with
    | nil => rfl
    | cons name path =>
      have hname := h name
      simp only [readAt, fields]
      cases hf : fs.lookup name with
      | none =>
        cases hg : gs.lookup name with
        | none => rfl
        | some w =>
          rw [hf, hg] at hname
          exact hname.elim
      | some v =>
        cases hg : gs.lookup name with
        | none =>
          rw [hf, hg] at hname
          exact hname.elim
        | some w =>
          rw [hf, hg] at hname
          exact hname path

/-- An object without null: no field is null, and none has one. -/
theorem nullFree_obj_iff : (obj fs).NullFree ↔
    ∀ name v, fs.lookup name = some v → v.shape ≠ null ∧ v.NullFree := by
  constructor
  · intro h name v hv
    refine ⟨fun hnull => h name [] ?_, fun name' path hpath => h name (name' :: path) ?_⟩
    · simp [readAt, fields, hv, hnull]
    · rw [readAt, fields, hv]
      exact hpath
  · intro h name path
    rw [readAt, fields]
    cases hv : fs.lookup name with
    | none => nofun
    | some v =>
      obtain ⟨hshape, hfree⟩ := h name v hv
      cases path with
      | nil => exact fun heq => hshape (Option.some.inj heq)
      | cons name' path => exact hfree name' path

/-- By what is in the list. -/
theorem nullFree_of_mem (hnull : ∀ field ∈ fs, field.2 ≠ null)
    (h : ∀ field ∈ fs, field.2.NullFree) : (obj fs).NullFree :=
  nullFree_obj_iff.2 fun _ _ hv =>
    ⟨fun heq => hnull _ (mem_of_lookup hv) (shape_eq_null.1 heq), h _ (mem_of_lookup hv)⟩

theorem nullFree_leaf (h : v.isObj = false) : v.NullFree := by
  intro name path
  cases v <;> simp_all [readAt, fields, isObj]

theorem Same.nullFree (h : v.Same w) (hv : v.NullFree) : w.NullFree :=
  fun name path => h (name :: path) ▸ hv name path

end Paths

end JsValue

open JsValue

/-! ## Patches -/

/-- A field is removed. -/
def eraseField (name : JsString) (fs : List (JsString × JsValue)) : List (JsString × JsValue) :=
  fs.filter (·.1 ≠ name)

theorem lookup_eraseField (name k : JsString) (fs : List (JsString × JsValue)) :
    (eraseField name fs).lookup k = if k = name then none else fs.lookup k := by
  induction fs with
  | nil => simp [eraseField]
  | cons field fs ih =>
    obtain ⟨n, v⟩ := field
    rw [eraseField, List.filter_cons]
    by_cases hn : n = name
    · simp only [hn, ne_eq, not_true_eq_false, decide_false, Bool.false_eq_true, if_false]
      rw [← eraseField, ih, List.lookup_cons]
      by_cases hk : k = name
      · simp [hk]
      · simp [hk, beq_false_of_ne hk]
    · simp only [ne_eq, hn, not_false_eq_true, decide_true, if_true, List.lookup_cons]
      rw [← eraseField, ih]
      by_cases hkn : k = n
      · simp [hkn, hn]
      · simp [beq_false_of_ne hkn]

/-- A field is set. -/
def setField (name : JsString) (v : JsValue) (fs : List (JsString × JsValue)) :
    List (JsString × JsValue) := OrderedMap.putEntry name v fs

theorem lookup_setField (name k : JsString) (v : JsValue) (fs : List (JsString × JsValue)) :
    (setField name v fs).lookup k = if k = name then some v else fs.lookup k := by
  rw [lawful_beq_subsingleton (List.instBEq : BEq JsString) instBEqOfDecidableEq]
  by_cases hk : k = name
  · rw [if_pos hk, hk]
    exact OrderedMap.lookup_putEntry_self name v fs
  · rw [if_neg hk]
    exact OrderedMap.lookup_putEntry_of_ne hk v fs

mutual

/-- The document that is changed as the patch says. -/
def mergePatch (target : JsValue) : JsValue → JsValue
  | .obj patch => .obj (patchFields target.fields patch)
  | v => v

/-- The fields, changed one after the other. -/
def patchFields (target : List (JsString × JsValue)) :
    List (JsString × JsValue) → List (JsString × JsValue)
  | [] => target
  | (name, v) :: patch => patchFields (patchField target name v) patch

/-- A field is changed. -/
def patchField (target : List (JsString × JsValue)) (name : JsString) :
    JsValue → List (JsString × JsValue)
  | .null => eraseField name target
  | v => setField name (mergePatch ((target.lookup name).getD .undefined) v) target

end

/-- What a patch makes of a field. -/
def patched (target : Option JsValue) : Option JsValue → Option JsValue
  | none => target
  | some .null => none
  | some v => some (mergePatch (target.getD .undefined) v)

section Patches

variable {v w : JsValue} {target patch : List (JsString × JsValue)} {name k : JsString}

theorem mergePatch_leaf (h : v.isObj = false) : mergePatch w v = v := by
  cases v with
  | obj _ => contradiction
  | _ => rw [mergePatch]; nofun

theorem mergePatch_obj : mergePatch w (.obj patch) = .obj (patchFields w.fields patch) := by
  rw [mergePatch]

theorem patched_of_ne {o : Option JsValue} (h : v ≠ .null) :
    patched o (some v) = some (mergePatch (o.getD .undefined) v) := by
  cases v <;> first | rfl | contradiction

theorem mergePatch_ne_null (h : v ≠ .null) : mergePatch w v ≠ .null := by
  cases v with
  | obj _ => rw [mergePatch_obj]; nofun
  | _ => rwa [mergePatch_leaf rfl]

/-- The field itself is changed, and no other. -/
theorem lookup_patchField : (patchField target name v).lookup k =
    if k = name then patched (target.lookup name) (some v) else target.lookup k := by
  by_cases hnull : v = .null
  · subst hnull
    rw [patchField, lookup_eraseField]
    rfl
  · have hput : patchField target name v =
        setField name (mergePatch ((target.lookup name).getD .undefined) v) target := by
      rw [patchField]
      exact hnull
    rw [hput, patched_of_ne hnull, lookup_setField]

/-- Every field is changed as the patch says of it. -/
theorem lookup_patchFields (h : (patch.map Prod.fst).Nodup) :
    (patchFields target patch).lookup k = patched (target.lookup k) (patch.lookup k) := by
  induction patch generalizing target with
  | nil => rw [patchFields]; rfl
  | cons field patch ih =>
    obtain ⟨name, v⟩ := field
    obtain ⟨hname, hpatch⟩ := List.nodup_cons.1 h
    rw [patchFields, ih hpatch, lookup_patchField, List.lookup_cons]
    by_cases hk : k = name
    · subst hk
      have hnone : patch.lookup k = none := by
        rw [List.lookup_eq_none_iff]
        intro field hfield
        exact bne_iff_ne.2 fun heq => hname (List.mem_map.2 ⟨field, hfield, heq.symm⟩)
      rw [hnone, if_pos rfl, beq_self_eq_true]
      rfl
    · rw [if_neg hk, beq_false_of_ne hk]

/-- A patch leaves no null where it can look. -/
theorem nullFree_mergePatch (hv : v.Distinct) (hw : w.NullFree) : (mergePatch w v).NullFree := by
  induction v using fields_induction generalizing w with
  | leaf v hleaf => rw [mergePatch_leaf hleaf]; exact nullFree_leaf hleaf
  | object fs ih =>
    cases hv with
    | leaf h => contradiction
    | fields hnodup hdistinct =>
      rw [mergePatch_obj, nullFree_obj_iff]
      intro name u hu
      rw [lookup_patchFields hnodup] at hu
      have hkept (x : JsValue) (hx : w.fields.lookup name = some x) :
          x.shape ≠ .null ∧ x.NullFree := by
        cases w with
        | obj gs => exact nullFree_obj_iff.1 hw name x hx
        | _ => contradiction
      cases hf : fs.lookup name with
      | none =>
        rw [hf] at hu
        exact hkept u hu
      | some x =>
        rw [hf] at hu
        by_cases hnull : x = .null
        · subst hnull
          contradiction
        rw [patched_of_ne hnull] at hu
        obtain rfl := Option.some.inj hu
        refine ⟨?_, ih name x hf (hdistinct name x hf) ?_⟩
        · exact fun h => mergePatch_ne_null hnull (shape_eq_null.1 h)
        · cases hw' : w.fields.lookup name with
          | none => exact nullFree_leaf rfl
          | some y => exact (hkept y hw').2

end Patches

end Gnldev
