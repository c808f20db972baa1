import Gnldev.Durable.OwnedName

/-!
# The keys of the event bus

The markers of an event, the cursor of a consumer and the logs of a topic live
under keys built by concatenation, each component escaped (`events/src/index.ts`).
Keys of different families differ (`family`), and the cursors of different
consumers have different keys (`cursorKeyOf_injective`).
-/

namespace Gnldev.Events

open Durable

/-- What the escape writes for a code unit. -/
def encUnit (u : UInt16) : JsString :=
  if u = percent then js "%25" else if u = colon then js "%3A" else [u]

/-- The escape of one component of a key: `%` and `:` are rewritten. -/
def enc (part : JsString) : JsString := part.flatMap encUnit

/-- The log of a topic. -/
def logNsOf (topic : JsString) : JsString := js "evt:" ++ enc topic

/-- Whether an id carries an owner. -/
def isOwnedId (id : JsString) : Bool :=
  (ownerOfName id).1.orgId.isSome || (ownerOfName id).1.resourceId.isSome

/-- The key of a marker; an owned event's begins with its id. -/
def markerKey (fam topic consumer id : JsString) : JsString :=
  if isOwnedId id then fam ++ colon :: (enc id ++ colon :: (enc topic ++ colon :: enc consumer))
  else fam ++ colon :: (enc topic ++ colon :: (enc consumer ++ colon :: enc id))

def ackKey (topic consumer id : JsString) : JsString := markerKey (js "evtack") topic consumer id
def attKey (topic consumer id : JsString) : JsString := markerKey (js "evtatt") topic consumer id
def deadKey (topic consumer id : JsString) : JsString := markerKey (js "evtdead") topic consumer id

/-- The depth index of a topic, for an organization. -/
def depthNsOf (topic : JsString) : Option JsString → JsString
  | none => js "evtdepth:" ++ enc topic
  | some orgId => js "org:" ++ orgId ++ js ":evtdepth:" ++ enc topic

def cursorKeyOf (topic consumer : JsString) : JsString :=
  js "evtcursor:" ++ (enc topic ++ colon :: enc consumer)

def rescanKeyOf (topic consumer : JsString) : JsString :=
  js "evtrescan:" ++ (enc topic ++ colon :: enc consumer)

/-! ## Families -/

/-- The family of a key: what stands before its first `:`. -/
def family (key : JsString) : JsString := key.takeWhile (· ≠ colon)

theorem family_append (fam rest : JsString) (h : colon ∉ fam) :
    family (fam ++ colon :: rest) = fam := takeWhile_append_colon h rest

theorem family_markerKey (fam topic consumer id : JsString) (h : colon ∉ fam) :
    family (markerKey fam topic consumer id) = fam := by
  unfold markerKey
  split
  · exact family_append _ _ h
  · exact family_append _ _ h

@[simp] theorem family_ackKey (t c id : JsString) : family (ackKey t c id) = js "evtack" :=
  family_markerKey _ _ _ _ (by decide)

@[simp] theorem family_attKey (t c id : JsString) : family (attKey t c id) = js "evtatt" :=
  family_markerKey _ _ _ _ (by decide)

@[simp] theorem family_deadKey (t c id : JsString) : family (deadKey t c id) = js "evtdead" :=
  family_markerKey _ _ _ _ (by decide)

@[simp] theorem family_cursorKeyOf (t c : JsString) :
    family (cursorKeyOf t c) = js "evtcursor" :=
  family_append (js "evtcursor") _ (by decide)

@[simp] theorem family_rescanKeyOf (t c : JsString) :
    family (rescanKeyOf t c) = js "evtrescan" :=
  family_append (js "evtrescan") _ (by decide)

/-! ## The escape -/

theorem unescN_encUnit (n : ℕ) (u : UInt16) (s : JsString) :
    unescN (n + 1) (encUnit u ++ s) = u :: unescN n s := by
  unfold encUnit
  split
  · next h => rw [h]; rfl
  · split
    · next h => rw [h]; rfl
    · next h _ => rw [List.singleton_append, unescN, if_neg h]

theorem encUnit_length_pos (u : UInt16) : 0 < (encUnit u).length := by
  unfold encUnit
  split
  · decide
  · split
    · decide
    · exact Nat.zero_lt_one

theorem unescN_enc (s : JsString) (n : ℕ) (hn : (enc s).length ≤ n) : unescN n (enc s) = s := by
  induction s generalizing n with
  | nil => cases n <;> rfl
  | cons u s ih =>
    rw [enc, List.flatMap_cons, List.length_append] at hn
    have hpos := encUnit_length_pos u
    obtain ⟨n, rfl⟩ : ∃ m, n = m + 1 := ⟨n - 1, by omega⟩
    rw [enc, List.flatMap_cons, unescN_encUnit]
    exact congrArg (u :: ·) (ih n (by rw [enc]; omega))

theorem enc_injective {s t : JsString} (h : enc s = enc t) : s = t := by
  rw [← unescN_enc s _ (Nat.le_refl _), h, unescN_enc t _ (Nat.le_refl _)]

theorem colon_notMem_enc (s : JsString) : colon ∉ enc s := by
  induction s with
  | nil => exact List.not_mem_nil
  | cons u s ih =>
    rw [enc, List.flatMap_cons, List.mem_append, not_or]
    refine ⟨?_, ih⟩
    unfold encUnit
    split
    · decide
    · split
      · decide
      · next hc => simpa using Ne.symm hc

/-- Different topics or consumers have different cursors. -/
theorem cursorKeyOf_injective {t c t' c' : JsString} (h : cursorKeyOf t c = cursorKeyOf t' c') :
    t = t' ∧ c = c' := by
  have h := List.append_cancel_left h
  have hp : enc t ++ colon :: enc c <+: enc t' ++ colon :: enc c' :=
    h ▸ List.prefix_refl (enc t ++ colon :: enc c)
  obtain ⟨ht, -⟩ := isPrefix_append_colon (colon_notMem_enc t) (colon_notMem_enc t') hp
  rw [ht] at h
  exact ⟨enc_injective ht, enc_injective (List.cons.inj (List.append_cancel_left h)).2⟩

end Gnldev.Events
