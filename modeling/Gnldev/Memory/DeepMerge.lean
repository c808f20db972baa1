import Gnldev.Durable.RunId
import Gnldev.Lib.MergePatch

/-!
# Merging working memory

An update of the working memory (`deep-merge.ts`) goes through the fields of a patch: a null removes
the field, an object is merged into the object that is there, and any other value replaces it. What
comes out is what the patch says of the memory (`mergePatch`), has no null in it, and is not changed
by the same patch again, if and only if the patch `PatchFits`:

* an object that meets no object is stored as it is, so it must have no null in it;
* the name `__proto__` sets no field, unless the memory has one of this name.

The two come together in `deepMerge_iff`.
-/

namespace Gnldev.Memory

open JsValue

/-- The name of the prototype. -/
def PROTO : JsString := js "__proto__"

/-! ## The merge -/

/-- An object that is being filled: its own fields and, after it, its prototypes, down to that of
    every object. -/
structure Filled where
  own : List (JsString × JsValue)
  protos : List JsValue

/-- A field of an object, or an element of an array. -/
def ownField (name : JsString) : JsValue → Option JsValue
  | obj fs => fs.lookup name
  | arr elems => (elems.zipIdx.find? fun elem => Durable.decimal elem.2 = name).map Prod.fst
  | _ => none

namespace Filled

/-- `out[k]`. The methods of every object are no objects. -/
def get (out : Filled) (k : JsString) : JsValue :=
  match out.own.lookup k with
  | some v => v
  | none =>
    match out.protos.findSome? (ownField k) with
    | some v => v
    | none => if k = PROTO then out.protos.headD (obj []) else undefined

/-- `out[k] = v`, of a value with these prototypes. Without a field of this name, `__proto__` sets the
    prototype. -/
def assign (out : Filled) (k : JsString) (v : JsValue) (protos : List JsValue) : Filled :=
  if k = PROTO ∧ out.own.lookup k = none then
    match v with
    | obj _ | arr _ => { out with protos := v :: protos }
    | _ => out
  else { out with own := setField k v out.own }

end Filled

mutual

/-- `out`, after the entries of the update. -/
def mergeEntries (out : Filled) : List (JsString × JsValue) → Filled
  | [] => out
  | (k, v) :: update => mergeEntries (mergeEntry out k v) update

def mergeEntry (out : Filled) (k : JsString) : JsValue → Filled
  | null => { out with own := eraseField k out.own }
  | obj update =>
    match out.get k with
    | obj existing =>
      let merged := mergeEntries ⟨existing, []⟩ update
      out.assign k (obj merged.own) merged.protos
    | _ => out.assign k (obj update) []
  | v => out.assign k v []

end

def deepMerge (existing update : JsValue) : JsValue :=
  match existing, update with
  | obj existing, obj update => obj (mergeEntries ⟨existing, []⟩ update).own
  | _, obj update => obj update
  | _, _ => obj []

/-- The patch can be applied: an object that meets no object has no null in it, and `__proto__` is
    removed, or is a field of the memory. -/
inductive PatchFits : JsValue → JsValue → Prop
  | leaf {e v} : v.isObj = false → PatchFits e v
  | fresh {e fs} : e.isObj = false → (obj fs).NullFree → PatchFits e (obj fs)
  | fields {es fs} : (∀ v, fs.lookup PROTO = some v → v = null ∨ (es.lookup PROTO).isSome) →
      (∀ k v, fs.lookup k = some v → PatchFits ((es.lookup k).getD undefined) v) →
      PatchFits (obj es) (obj fs)

section Merge

variable {e u v w : JsValue} {es us own : List (JsString × JsValue)} {k : JsString}

/-- What a value of the update makes of a field. -/
def merged (existing : JsValue) (v : JsValue) : JsValue :=
  match existing, v with
  | obj _, obj _ => deepMerge existing v
  | _, _ => v

/-- A field as it is after the entry. -/
def entered (existing : Option JsValue) : Option JsValue → Option JsValue
  | none => existing
  | some null => none
  | some v => some (merged (existing.getD undefined) v)

theorem lookup_eq_none {name : JsString} {fs : List (JsString × JsValue)}
    (h : name ∉ fs.map Prod.fst) : fs.lookup name = none := by
  rw [List.lookup_eq_none_iff]
  intro field hfield
  exact bne_iff_ne.2 fun heq => h (List.mem_map.2 ⟨field, hfield, heq.symm⟩)

/-- By what is in the patch, without the name `__proto__`. -/
theorem PatchFits.of_mem (hproto : PROTO ∉ us.map Prod.fst)
    (h : ∀ field ∈ us, PatchFits ((es.lookup field.1).getD undefined) field.2) :
    PatchFits (obj es) (obj us) := by
  refine .fields (fun v hv => ?_) fun k v hv => h (k, v) (mem_of_lookup hv)
  rw [lookup_eq_none hproto] at hv
  contradiction

theorem entered_of_ne {o : Option JsValue} (h : v ≠ null) :
    entered o (some v) = some (merged (o.getD undefined) v) := by
  cases v <;> first | rfl | contradiction

/-- What is read of an object whose prototype has not been set. -/
theorem get_own (h : k = PROTO → (own.lookup k).isSome) :
    (Filled.mk own []).get k = (own.lookup k).getD undefined := by
  rw [Filled.get]
  cases hown : own.lookup k with
  | some v => rfl
  | none =>
    have hk : k ≠ PROTO := fun hk => by simpa [hown] using h hk
    simp [hk]

theorem assign_own {protos : List JsValue} (h : k = PROTO → (own.lookup k).isSome) :
    (Filled.mk own []).assign k v protos = ⟨setField k v own, []⟩ := by
  unfold Filled.assign
  rw [if_neg]
  intro ⟨hk, hnone⟩
  simpa [hnone] using h hk

/-- An entry that sets no prototype changes its field. -/
theorem mergeEntry_own (hk : k = PROTO → v = null ∨ (own.lookup k).isSome) :
    ∃ own', mergeEntry ⟨own, []⟩ k v = ⟨own', []⟩ ∧
      ∀ k', own'.lookup k' = if k' = k then entered (own.lookup k) (some v) else own.lookup k' := by
  by_cases hnull : v = null
  · subst hnull
    exact ⟨eraseField k own, by rw [mergeEntry], fun k' => lookup_eraseField k k' own⟩
  have hself (h : k = PROTO) : (own.lookup k).isSome := (hk h).resolve_left hnull
  have hassign : mergeEntry ⟨own, []⟩ k v =
      ⟨setField k (merged ((own.lookup k).getD undefined) v) own, []⟩ := by
    cases v with
    | null => contradiction
    | obj update =>
      rw [mergeEntry, get_own hself]
      cases (own.lookup k).getD undefined with
      | obj existing => exact assign_own hself
      | _ => exact assign_own hself
    | _ =>
      rw [mergeEntry, assign_own hself, merged]
      all_goals nofun
  refine ⟨_, hassign, fun k' => ?_⟩
  rw [entered_of_ne hnull, lookup_setField]

/-- Where no entry sets the prototype, every field is changed by its own. -/
theorem mergeEntries_own (hnodup : (us.map Prod.fst).Nodup)
    (hproto : ∀ v, us.lookup PROTO = some v → v = null ∨ (own.lookup PROTO).isSome) :
    (mergeEntries ⟨own, []⟩ us).own.lookup k = entered (own.lookup k) (us.lookup k) := by
  induction us generalizing own with
  | nil => rw [mergeEntries]; rfl
  | cons field us ih =>
    obtain ⟨name, v⟩ := field
    obtain ⟨hname, hus⟩ := List.nodup_cons.1 hnodup
    have hset (hname : name = PROTO) : v = null ∨ (own.lookup name).isSome := by
      subst hname
      exact hproto v (by simp)
    obtain ⟨own', hown', hlookup⟩ := mergeEntry_own hset
    rw [mergeEntries, hown', ih hus, hlookup, List.lookup_cons]
    · by_cases hk : k = name
      · subst hk
        rw [if_pos rfl, lookup_eq_none hname, beq_self_eq_true]
        rfl
      · rw [if_neg hk, beq_false_of_ne hk]
    · intro w hw
      by_cases hk : PROTO = name
      · subst hk
        rw [lookup_eq_none hname] at hw
        contradiction
      · rw [hlookup, if_neg hk]
        exact hproto w (by rw [List.lookup_cons, beq_false_of_ne hk, hw])

/-- No entry makes a field of the name `__proto__`. -/
theorem mergeEntries_proto {out : Filled} (h : out.own.lookup PROTO = none) :
    (mergeEntries out us).own.lookup PROTO = none := by
  have hassign {out : Filled} (h : out.own.lookup PROTO = none) (k : JsString) (v : JsValue)
      (protos : List JsValue) : (out.assign k v protos).own.lookup PROTO = none := by
    unfold Filled.assign
    split
    · split <;> exact h
    · next hk =>
      have hne : PROTO ≠ k := fun heq => hk ⟨heq.symm, heq ▸ h⟩
      rw [lookup_setField, if_neg hne, h]
  induction us generalizing out with
  | nil => rwa [mergeEntries]
  | cons field us ih =>
    obtain ⟨k, v⟩ := field
    rw [mergeEntries]
    refine ih ?_
    cases v with
    | null =>
      rw [mergeEntry, lookup_eraseField]
      split
      · rfl
      · exact h
    | obj update =>
      rw [mergeEntry]
      split <;> exact hassign h ..
    | _ =>
      rw [mergeEntry]
      · exact hassign h ..
      all_goals nofun

/-! ## When it is a patch -/

theorem merged_leaf (h : v.isObj = false) : merged e v = v := by
  cases v with
  | obj _ => contradiction
  | _ => cases e <;> rfl

theorem merged_fresh (h : e.isObj = false) : merged e v = v := by
  cases e with
  | obj _ => contradiction
  | _ => rfl

theorem merged_obj : merged (obj es) (obj us) = obj (mergeEntries ⟨es, []⟩ us).own := rfl

/-- An object without null is what it makes of nothing. -/
theorem same_mergePatch_fresh (hv : v.Distinct) (hfree : v.NullFree) (he : e.isObj = false) :
    v.Same (mergePatch e v) := by
  induction v using fields_induction generalizing e with
  | leaf v hleaf =>
    rw [mergePatch_leaf hleaf]
    exact .refl v
  | object fs ih =>
    have hfields : e.fields = [] := by
      cases e with
      | obj _ => contradiction
      | _ => rfl
    cases hv with
    | leaf h => contradiction
    | fields hnodup hdistinct =>
      rw [mergePatch_obj, same_obj_iff, hfields]
      intro k
      rw [lookup_patchFields hnodup]
      cases hk : fs.lookup k with
      | none => trivial
      | some x =>
        obtain ⟨hnull, hx⟩ := nullFree_obj_iff.1 hfree k x hk
        rw [patched_of_ne fun h => hnull (shape_eq_null.2 h)]
        exact ih k x hk (hdistinct k x hk) hx rfl

/-- A value is merged as a patch says if and only if it fits. -/
theorem merged_same_iff (hv : v.Distinct) : (merged e v).Same (mergePatch e v) ↔ PatchFits e v := by
  induction v using fields_induction generalizing e with
  | leaf v hleaf =>
    rw [merged_leaf hleaf, mergePatch_leaf hleaf]
    exact ⟨fun _ => .leaf hleaf, fun _ => .refl v⟩
  | object fs ih =>
    cases he : e.isObj with
    | false =>
      rw [merged_fresh he]
      constructor
      · intro h
        exact .fresh he (h.symm.nullFree (nullFree_mergePatch hv (nullFree_leaf he)))
      · intro h
        cases h with
        | leaf h => contradiction
        | fresh _ hfree => exact same_mergePatch_fresh hv hfree he
        | fields _ _ => contradiction
    | true =>
      obtain ⟨es, rfl⟩ : ∃ es, e = obj es := by
        cases e with
        | obj es => exact ⟨es, rfl⟩
        | _ => contradiction
      cases hv with
      | leaf h => contradiction
      | fields hnodup hdistinct =>
        rw [merged_obj, mergePatch_obj, same_obj_iff]
        simp only [lookup_patchFields hnodup, JsValue.fields]
        by_cases hproto : ∀ v, fs.lookup PROTO = some v → v = null ∨ (es.lookup PROTO).isSome
        · -- Every field is merged by its own entry.
          have hfield (k : JsString) :
              SameField (entered (es.lookup k) (fs.lookup k)) (patched (es.lookup k) (fs.lookup k)) ↔
                ∀ v, fs.lookup k = some v → PatchFits ((es.lookup k).getD undefined) v := by
            cases hk : fs.lookup k with
            | none =>
              refine ⟨fun _ v hv => ?_, fun _ => ?_⟩
              · contradiction
              · exact sameField_refl _
            | some v =>
              by_cases hnull : v = null
              · subst hnull
                refine ⟨fun _ v hv => ?_, fun _ => trivial⟩
                obtain rfl := Option.some.inj hv
                exact .leaf rfl
              · rw [entered_of_ne hnull, patched_of_ne hnull]
                refine (ih k v hk (hdistinct k v hk)).trans ⟨fun h w hw => ?_, fun h => h v rfl⟩
                obtain rfl := Option.some.inj hw
                exact h
          simp only [mergeEntries_own hnodup hproto, hfield]
          constructor
          · exact fun h => .fields hproto fun k v hv => h k v hv
          · intro h
            cases h with
            | leaf h => contradiction
            | fresh h _ => contradiction
            | fields _ h => exact h
        · -- The patch has a field `__proto__`, and the memory will not.
          constructor
          · intro h
            refine absurd (h PROTO) ?_
            push Not at hproto
            obtain ⟨v, hv, hnull, hnone⟩ := hproto
            rw [mergeEntries_proto (Option.not_isSome_iff_eq_none.1 hnone), hv, patched_of_ne hnull]
            exact id
          · intro h
            cases h with
            | leaf h => contradiction
            | fresh h _ => contradiction
            | fields h _ => exact absurd h hproto

/-- An object without null is not changed by itself. -/
theorem merged_self (hv : v.Distinct) (hfree : v.NullFree) : (merged v v).Same v := by
  induction v using fields_induction with
  | leaf v hleaf =>
    rw [merged_leaf hleaf]
    exact .refl v
  | object fs ih =>
    cases hv with
    | leaf h => contradiction
    | fields hnodup hdistinct =>
      rw [merged_obj, same_obj_iff]
      intro k
      rw [mergeEntries_own hnodup fun v hv => .inr (by rw [hv]; rfl)]
      cases hk : fs.lookup k with
      | none => trivial
      | some x =>
        obtain ⟨hnull, hx⟩ := nullFree_obj_iff.1 hfree k x hk
        rw [entered_of_ne fun h => hnull (shape_eq_null.2 h)]
        exact ih k x hk (hdistinct k x hk) hx

/-- A patch that fits changes nothing when it comes again. -/
theorem merged_again (hv : v.Distinct) (h : PatchFits e v) :
    (merged (merged e v) v).Same (merged e v) := by
  induction v using fields_induction generalizing e with
  | leaf v hleaf =>
    rw [merged_leaf hleaf, merged_leaf hleaf]
    exact .refl v
  | object fs ih =>
    cases h with
    | leaf h => contradiction
    | fresh he hfree =>
      rw [merged_fresh he]
      exact merged_self hv hfree
    | @fields es _ hproto hfits =>
      cases hv with
      | leaf h => contradiction
      | fields hnodup hdistinct =>
        have hown (k : JsString) : (mergeEntries ⟨es, []⟩ fs).own.lookup k =
            entered (es.lookup k) (fs.lookup k) := mergeEntries_own hnodup hproto
        rw [merged_obj, merged_obj, same_obj_iff]
        intro k
        rw [mergeEntries_own hnodup fun v hv => ?_, hown]
        · cases hk : fs.lookup k with
          | none => exact sameField_refl _
          | some v =>
            by_cases hnull : v = null
            · subst hnull
              trivial
            · rw [entered_of_ne hnull, entered_of_ne hnull]
              exact ih k v hk (hdistinct k v hk) (hfits k v hk)
        · refine or_iff_not_imp_left.2 fun hnull => ?_
          rw [hown, hv, entered_of_ne hnull]
          rfl

end Merge

/-- What an update makes of the memory: what the patch says, without null, and the same again, if and
    only if the patch fits. -/
theorem deepMerge_iff {es us : List (JsString × JsValue)} (hu : (obj us).Distinct)
    (he : (obj es).NullFree) :
    ((deepMerge (obj es) (obj us)).Same (mergePatch (obj es) (obj us)) ∧
      (deepMerge (obj es) (obj us)).NullFree ∧
      (deepMerge (deepMerge (obj es) (obj us)) (obj us)).Same (deepMerge (obj es) (obj us))) ↔
    PatchFits (obj es) (obj us) := by
  have hsame := merged_same_iff (e := obj es) hu
  refine ⟨fun h => hsame.1 h.1, fun h => ?_⟩
  refine ⟨hsame.2 h, (hsame.2 h).symm.nullFree (nullFree_mergePatch hu he), merged_again hu h⟩

end Gnldev.Memory
