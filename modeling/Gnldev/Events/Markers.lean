import Gnldev.Durable.OwnedName.ReadBack
import Gnldev.Events.Erasure

/-!
# The markers of an event

A topic does not wear the mark of an owned name, and the id of an owned event begins
with it; so the two orders of a marker's components share no key, and a marker tells
its family, topic, consumer and event. The markers under the prefix that an erasure
deletes are those of the owner's events: `markerKey_separates`.
-/

open List

namespace Gnldev.Events

open Durable

theorem isOwnedId_ownedName {name id : JsString} {owner : Owner}
    (h : ownedName name owner = .ok id) : isOwnedId id = true ↔ owner ≠ ⟨none, none⟩ := by
  rw [isOwnedId, ownerOfName_ownedName h]
  rcases owner with ⟨_ | o, _ | r⟩ <;> simp

/-- An escape that begins another one, of a string that it begins. -/
theorem enc_isPrefix_enc {p s : JsString} (h : enc p <+: enc s) : p <+: s := by
  have hunit : ∀ {u v : UInt16} {x y : JsString}, encUnit u ++ x <+: encUnit v ++ y →
      u = v ∧ x <+: y := by
    -- One step of reading back tells the unit, and what is left.
    intro u v x y ⟨z, hz⟩
    have hread (n : ℕ) : u :: unescN n (x ++ z) = v :: unescN n y := by
      rw [← unescN_encUnit, ← unescN_encUnit, ← hz, append_assoc]
    obtain rfl := (List.cons.inj (hread 0)).1
    rw [append_assoc] at hz
    exact ⟨rfl, z, append_cancel_left hz⟩
  induction p generalizing s with
  | nil => exact nil_prefix
  | cons u p ih =>
    rw [enc, flatMap_cons] at h
    cases s with
    | nil =>
      have hlen := h.length_le
      have hpos := encUnit_length_pos u
      rw [length_append, enc, flatMap_nil, length_nil] at hlen
      omega
    | cons v s =>
      rw [enc, flatMap_cons] at h
      obtain ⟨rfl, h⟩ := hunit h
      exact cons_prefix_cons.2 ⟨rfl, ih (by rwa [enc, enc])⟩

theorem enc_append (s t : JsString) : enc (s ++ t) = enc s ++ enc t := flatMap_append

theorem isPrefix_enc_append {p s a : JsString} (h : enc p <+: enc s ++ colon :: a) : p <+: s := by
  rcases prefix_or_prefix_of_prefix h (prefix_append _ _) with hp | ⟨r, hr⟩
  · exact enc_isPrefix_enc hp
  · have hcolon : colon ∉ r := fun hmem =>
      colon_notMem_enc p (hr ▸ mem_append_right _ hmem)
    rw [← hr, prefix_append_right_inj] at h
    cases r with
    | nil => exact enc_isPrefix_enc (by rw [← hr, append_nil])
    | cons u r => exact absurd ((cons_prefix_cons.1 h).1 ▸ mem_cons_self) hcolon

section Markers

variable {P : Type} {fam fam' topic topic' consumer consumer' id id' : JsString}

/-- The markers under an owner's prefix are those of the events with an id of that owner. -/
theorem startsWith_markerPrefix_iff {owner : Owner} {p : JsString} (hfam : fam ∈ MARKER_FAMILIES)
    (hfam' : fam' ∈ MARKER_FAMILIES) (ht : assertTopic topic = .ok ())
    (hp : ownedPrefix owner = .ok p) (ho : owner ≠ ⟨none, none⟩)
    {name : JsString} {other : Owner} (hid : ownedName name other = .ok id) :
    (markerKey fam' topic consumer id).startsWith (markerPrefix fam p) = true ↔
      fam' = fam ∧ other = owner := by
  rw [JsString.startsWith_iff, markerPrefix]
  refine ⟨fun h => ?_, ?_⟩
  · have hcut {b : JsString} (he : fam ++ colon :: enc p <+: fam' ++ colon :: b) :
        fam' = fam ∧ enc p <+: b :=
      (isPrefix_append_colon (colon_notMem_family hfam) (colon_notMem_family hfam') he).imp_left
        Eq.symm
    rw [markerKey] at h
    split at h
    · obtain ⟨hsame, hrest⟩ := hcut h
      exact ⟨hsame, ownedPrefix_isPrefix_ownedName hp hid (isPrefix_enc_append hrest)⟩
    · -- A system event's marker begins with its topic, which does not wear the mark.
      have hmark : OWNED <+: topic := by
        obtain ⟨rfl, -, -⟩ := ownerPart_ok hp
        exact (prefix_append _ _).trans (isPrefix_enc_append (hcut h).2)
      rw [assertTopic] at ht
      split at ht
      · cases ht
      · rw [assertSystemName, if_pos (JsString.startsWith_iff.2 hmark)] at ht
        cases ht
  · rintro ⟨rfl, rfl⟩
    obtain ⟨q, hq, z, rfl⟩ := ownedPrefix_of_ownedName hid ho
    cases hp.symm.trans hq
    rw [markerKey, if_pos ((isOwnedId_ownedName hid).2 ho), enc_append, append_assoc]
    exact ⟨_, append_assoc ..⟩

/-- A marker of an event of an owner. -/
def MarkerOf (owner : Owner) (k : JsString) : Prop :=
  ∃ fam ∈ MARKER_FAMILIES, ∃ topic consumer name id, assertTopic topic = .ok () ∧
    ownedName name owner = .ok id ∧ k = markerKey fam topic consumer id

theorem eraseEvents_kv (p k : JsString) (w : WorkState P EvtValue) :
    (eraseEvents p w).kv.val k =
      if ∃ fam ∈ MARKER_FAMILIES, k.startsWith (markerPrefix fam p) = true then none
      else w.kv.val k := by
  simp only [eraseEvents, WorkState.deletePrefix, WorkState.deleteIdPrefix, Kv.delete, MARKER_FAMILIES,
    mem_cons, not_mem_nil, or_false, exists_eq_or_imp, exists_eq_left]
  grind

/-- The markers of an owner are those under the prefixes that an erasure of an owner deletes. -/
theorem MarkerOf.startsWith_iff {owner other : Owner} {p k : JsString} (hk : MarkerOf other k)
    (hp : ownedPrefix owner = .ok p) (ho : owner ≠ ⟨none, none⟩) :
    (∃ fam ∈ MARKER_FAMILIES, k.startsWith (markerPrefix fam p) = true) ↔ other = owner := by
  obtain ⟨fam, hfam, topic, consumer, name, id, ht, hid, rfl⟩ := hk
  constructor
  · rintro ⟨fam', hfam', h⟩
    exact ((startsWith_markerPrefix_iff hfam' hfam ht hp ho hid).1 h).2
  · exact fun h => ⟨fam, hfam, (startsWith_markerPrefix_iff hfam hfam ht hp ho hid).2 ⟨rfl, h⟩⟩

/-- Markers of valid topics: different ones have different keys. An erasure deletes the markers of the
    owner's events, and no marker of another owner's or the system's and no key of another kind. -/
theorem markerKey_separates :
    (∀ fam ∈ MARKER_FAMILIES, ∀ fam' ∈ MARKER_FAMILIES, ∀ topic topic' consumer consumer' id id',
      assertTopic topic = .ok () → assertTopic topic' = .ok () →
      markerKey fam topic consumer id = markerKey fam' topic' consumer' id' →
        fam = fam' ∧ topic = topic' ∧ consumer = consumer' ∧ id = id') ∧
      ∀ (owner : Owner) (w w' : WorkState P EvtValue), owner ≠ ⟨none, none⟩ →
        eventErase owner w = .ok w' →
          (∀ k, MarkerOf owner k → w'.kv.val k = none) ∧
          (∀ other k, other ≠ owner → MarkerOf other k → w'.kv.val k = w.kv.val k) ∧
          ∀ k, family k ∉ MARKER_FAMILIES → w'.kv.val k = w.kv.val k := by
  refine ⟨fun fam hfam fam' hfam' _ _ _ _ _ _ ht ht' => markerKey_injective hfam hfam'
    (isOwnedId_of_assertTopic ht) (isOwnedId_of_assertTopic ht'),
    fun owner w w' ho h => ?_⟩
  obtain ⟨p, hp, rfl⟩ := eventErase_ok h
  refine ⟨fun k hk => ?_, fun other k hne hk => ?_, fun k hk => ?_⟩
  · rw [eraseEvents_kv, if_pos ((hk.startsWith_iff hp ho).2 rfl)]
  · rw [eraseEvents_kv, if_neg (mt (hk.startsWith_iff hp ho).1 hne)]
  · simp only [MARKER_FAMILIES, mem_cons, not_mem_nil, or_false, not_or] at hk
    exact eraseEvents_val p hk.1 hk.2.1 hk.2.2

/-- The erasure of `A` deletes the ack of its event, and the attempts of `B`'s event stay. -/
theorem markerKey_separates_awaitingRedelivery :
    ∃ w', eventErase ⟨none, some (js "A")⟩ awaitingRedelivery = .ok w' ∧
      Has (ackKey (js "t") (js "c") (js "~o~:A:x")) awaitingRedelivery ∧
      w'.kv.val (ackKey (js "t") (js "c") (js "~o~:A:x")) = none ∧
      Has (attKey (js "t") (js "c") (js "~o~:B:y")) awaitingRedelivery ∧
      w'.kv.val (attKey (js "t") (js "c") (js "~o~:B:y")) =
        awaitingRedelivery.kv.val (attKey (js "t") (js "c") (js "~o~:B:y")) :=
  have hrun := fun w' => markerKey_separates.2 ⟨none, some (js "A")⟩ awaitingRedelivery w' (by decide)
  ⟨_, rfl, by unfold Has; decide +kernel,
    (hrun _ rfl).1 _ ⟨_, by decide, _, _, js "x", _, by rfl, by rfl, rfl⟩,
    by unfold Has; decide +kernel,
    (hrun _ rfl).2.1 ⟨none, some (js "B")⟩ _ (by decide)
      ⟨_, by decide, _, _, js "y", _, by rfl, by rfl, rfl⟩⟩

end Markers

end Gnldev.Events
