import Gnldev.Durable.Org.View

/-!
# A journal of its own

To an organization, its view is a journal of its own: the part of the shared one that is under its
prefix, without it (`MemoryJournal.only`).

The runs are found in the keys, prefix included. In the organization `model`, every key reads as a
record of the run `org`; and so does a key `model:…` in any other one. The input and the outcome of
a run are not seen then (`view_misses_run`). A line terminator in an id hides all records.

* `Plain`: a value and its key that are read alike with the prefix before the key;
* `viewPerform_eq`: what a view answers, and what it does to its own part; `viewPerform_other`:
  what it does to another one, nothing;
* `view_private`: as long as all that is written is plain, each view is a journal of its own.
-/

open List

namespace Gnldev.Durable

open Function

variable {P : Type}

/-! ## Prefixes -/

section Prefix

variable {p q k r s : JsString}

@[simp] theorem afterPrefix_append (p k : JsString) : afterPrefix p (p ++ k) = some k :=
  afterPrefix_eq_some_iff.2 rfl

theorem naming_afterPrefix (p : JsString) : OrderedMap.Naming (afterPrefix p) := by
  intro a b c ha hb
  rw [afterPrefix_eq_some_iff.1 ha, afterPrefix_eq_some_iff.1 hb]

theorem afterPrefix_eq_none_iff : afterPrefix p s = none ↔ ¬p <+: s := by
  rw [← JsString.startsWith_iff, afterPrefix]
  split <;> simp_all

/-- What is the start of a text without the prefix has no prefix. -/
theorem afterPrefix_of_start (hrs : r <+: s) (h : afterPrefix p s = none) :
    afterPrefix p r = none :=
  afterPrefix_eq_none_iff.2 fun hr => afterPrefix_eq_none_iff.1 h (hr.trans hrs)

theorem afterPrefix_of_length (h : r.length < p.length) : afterPrefix p r = none :=
  afterPrefix_eq_none_iff.2 fun hr => absurd hr.length_le h.not_ge

theorem startsWith_append (p s k : JsString) :
    JsString.startsWith (p ++ k) (p ++ s) = JsString.startsWith k s := by
  rw [Bool.eq_iff_iff, JsString.startsWith_iff, JsString.startsWith_iff,
    prefix_append_right_inj]

theorem dropPrefix_append (p k : JsString) : dropPrefix p (p ++ k) = k := by
  rw [dropPrefix, if_pos (JsString.startsWith_iff.2 (prefix_append p k)), drop_left]

/-- A text at its first colon, and at any of its colons. -/
theorem cut_at_sep {a b c d : JsString} (ha : sep ∉ a) (h : a ++ sep :: c = b ++ sep :: d) :
    b = a ∧ c = d ∨ ∃ e, b = a ++ sep :: e ∧ c = e ++ sep :: d := by
  rcases append_eq_append_iff.1 h with ⟨e, rfl, he⟩ | ⟨e, rfl, he⟩
  · rcases e with _ | ⟨u, e⟩
    · exact .inl ⟨append_nil a, (List.cons.inj he).2⟩
    · obtain ⟨rfl, rfl⟩ := List.cons.inj he
      exact .inr ⟨e, rfl, rfl⟩
  · rcases e with _ | ⟨u, e⟩
    · exact .inl ⟨(append_nil b).symm, (List.cons.inj he).2.symm⟩
    · obtain ⟨rfl, -⟩ := List.cons.inj he
      exact absurd (mem_append_right b mem_cons_self) ha

theorem eq_of_append_sep {a b c d : JsString} (ha : sep ∉ a) (hb : sep ∉ b)
    (h : a ++ sep :: c = b ++ sep :: d) : a = b ∧ c = d := by
  rcases cut_at_sep ha h with ⟨rfl, rfl⟩ | ⟨e, rfl, -⟩
  · exact ⟨rfl, rfl⟩
  · exact absurd (mem_append_right a mem_cons_self) hb

namespace OrgId

variable {o o' : OrgId}

theorem pre_append (o : OrgId) (k : JsString) :
    o.pre ++ k = js "org" ++ sep :: (o.id ++ sep :: k) := by
  rw [pre, append_assoc, append_assoc]
  rfl

/-- The keys of an organization are under no other prefix. -/
theorem afterPrefix_other (h : o ≠ o') (k : JsString) : afterPrefix o.pre (o'.pre ++ k) = none := by
  rw [afterPrefix_eq_none_iff]
  rintro ⟨t, ht⟩
  rw [pre_append, pre_append] at ht
  obtain ⟨-, ht⟩ := eq_of_append_sep (by decide) (by decide) ht
  obtain ⟨hid, -⟩ := eq_of_append_sep o.notMem o'.notMem ht
  obtain ⟨id, hne, hmem⟩ := o
  obtain rfl : id = o'.id := hid
  exact h rfl

end OrgId

end Prefix

/-! ## The part of an organization -/

/-- The part of a journal under a prefix. -/
def MemoryJournal.only (w : MemoryJournal P) (p : JsString) : MemoryJournal P where
  store := w.store.restrict (afterPrefix p) (naming_afterPrefix p)
  times := fun k => w.times (p ++ k)
  counters := w.counters.restrict (afterPrefix p) (naming_afterPrefix p)

namespace MemoryJournal

variable (w : MemoryJournal P) (p k : JsString) {K : JsString} (v : JournalValue P) (now : ℕ)

theorem get_only : (w.only p).store.get k = w.store.get (p ++ k) :=
  OrderedMap.get_restrict (naming_afterPrefix p) _ (afterPrefix_append p k)

theorem getCounters_only : (w.only p).counters.get k = w.counters.get (p ++ k) :=
  OrderedMap.get_restrict (naming_afterPrefix p) _ (afterPrefix_append p k)

theorem update_only {T : Type} (times : JsString → T) (t : T) :
    (fun k' => update times (p ++ k) t (p ++ k')) =
      update (fun k' => times (p ++ k')) k t := by
  funext k'
  rcases eq_or_ne k' k with rfl | hne
  · rw [update_self, update_self]
  · rw [update_of_ne hne, update_of_ne]
    exact fun h => hne (append_cancel_left h)

theorem update_other {T : Type} (times : JsString → T) (hK : afterPrefix p K = none) (t : T) :
    (fun k' => update times K t (p ++ k')) = fun k' => times (p ++ k') := by
  funext k'
  refine update_of_ne ?_ _ _
  rintro rfl
  rw [afterPrefix_append] at hK
  contradiction

/-! ### Writing in it -/

theorem put_only : (w.put now (p ++ k) v).only p = (w.only p).put now k v := by
  ext1
  · exact OrderedMap.restrict_put_of_some (naming_afterPrefix p) _ (afterPrefix_append p k) v
  · dsimp only [put, only]
    rcases w.times (p ++ k) with _ | t
    · exact update_only p k w.times _
    · rfl
  · rfl

theorem insert_only : (w.insert now (p ++ k) v).only p = (w.only p).insert now k v := by
  ext1
  · exact OrderedMap.restrict_put_of_some (naming_afterPrefix p) _ (afterPrefix_append p k) v
  · exact update_only p k w.times _
  · rfl

theorem replace_only : MemoryJournal.only { w with store := w.store.put (p ++ k) v } p =
    { w.only p with store := (w.only p).store.put k v } := by
  ext1
  · exact OrderedMap.restrict_put_of_some (naming_afterPrefix p) _ (afterPrefix_append p k) v
  · rfl
  · rfl

theorem incrBy_only (fields : List (JsString × ℤ)) :
    (w.incrBy (p ++ k) fields).only p = (w.only p).incrBy k fields := by
  ext1
  · rfl
  · rfl
  · rw [incrBy, incrBy, getCounters_only]
    exact OrderedMap.restrict_put_of_some (naming_afterPrefix p) _ (afterPrefix_append p k) _

theorem deletePrefix_only (start : JsString) :
    (w.deletePrefix (p ++ start)).2.only p = ((w.only p).deletePrefix start).2 := by
  have hstart (k k' : JsString) (h : afterPrefix p k = some k') :
      (!JsString.startsWith k (p ++ start)) = !JsString.startsWith k' start := by
    rw [afterPrefix_eq_some_iff.1 h, startsWith_append]
  ext1
  · exact OrderedMap.restrict_filterKeys (naming_afterPrefix p) _ hstart
  · funext k
    change (if JsString.startsWith (p ++ k) (p ++ start) ∧ (w.store.get (p ++ k)).isSome then none
      else w.times (p ++ k)) = if JsString.startsWith k start ∧ ((w.only p).store.get k).isSome
        then none else w.times (p ++ k)
    rw [startsWith_append, get_only]
  · exact OrderedMap.restrict_filterKeys (naming_afterPrefix p) _ hstart

/-! ### Writing elsewhere -/

variable {p} (hK : afterPrefix p K = none)

include hK

theorem put_other : (w.put now K v).only p = w.only p := by
  ext1
  · exact OrderedMap.restrict_put_of_none (naming_afterPrefix p) _ hK v
  · dsimp only [put, only]
    rcases w.times K with _ | t
    · exact update_other p w.times hK _
    · rfl
  · rfl

theorem insert_other : (w.insert now K v).only p = w.only p := by
  ext1
  · exact OrderedMap.restrict_put_of_none (naming_afterPrefix p) _ hK v
  · exact update_other p w.times hK _
  · rfl

theorem replace_other :
    MemoryJournal.only { w with store := w.store.put K v } p = w.only p := by
  ext1
  · exact OrderedMap.restrict_put_of_none (naming_afterPrefix p) _ hK v
  · rfl
  · rfl

theorem incrBy_other (fields : List (JsString × ℤ)) : (w.incrBy K fields).only p = w.only p := by
  ext1
  · rfl
  · rfl
  · exact OrderedMap.restrict_put_of_none (naming_afterPrefix p) _ hK _

end MemoryJournal

/-! ### Batches, and whole prefixes -/

namespace MemoryJournal

variable (w : MemoryJournal P) (p : JsString) (now : ℕ)

theorem applyWrites_only (batch : JournalBatch P) :
    (w.applyWrites now (batch.prefixed p)).only p = (w.only p).applyWrites now batch := by
  have hincrs (incrs : List (JsString × List (JsString × ℤ))) (w : MemoryJournal P) :
      ((incrs.map fun e => (p ++ e.1, e.2)).foldl (fun w e => w.incrBy e.1 e.2) w).only p =
        incrs.foldl (fun w e => w.incrBy e.1 e.2) (w.only p) := by
    induction incrs generalizing w with
    | nil => rfl
    | cons i incrs ih => rw [map_cons, foldl_cons, ih, foldl_cons, incrBy_only]
  have hputs (puts : List (JsString × JournalValue P)) (w : MemoryJournal P) :
      ((puts.map fun e => (p ++ e.1, e.2)).foldl (fun w e => w.put now e.1 e.2) w).only p =
        puts.foldl (fun w e => w.put now e.1 e.2) (w.only p) := by
    induction puts generalizing w with
    | nil => rfl
    | cons e puts ih => rw [map_cons, foldl_cons, ih, foldl_cons, put_only]
  rw [applyWrites_eq, applyWrites_eq, ← hincrs]
  exact hputs _ _

theorem applyBatch_only (batch : JournalBatch P) :
    (w.applyBatch now (batch.prefixed p)).1 = ((w.only p).applyBatch now batch).1 ∧
      (w.applyBatch now (batch.prefixed p)).2.only p = ((w.only p).applyBatch now batch).2 := by
  obtain ⟨claim, incrs, puts⟩ := batch
  rcases claim with _ | ⟨key, value⟩
  · exact ⟨rfl, w.applyWrites_only p now ⟨none, incrs, puts⟩⟩
  · have hwrites := (w.insert now (p ++ key) value).applyWrites_only p now
      ⟨some (key, value), incrs, puts⟩
    simp only [applyBatch, JournalBatch.prefixed, Option.map_some, get_only]
    split
    · exact ⟨rfl, rfl⟩
    · exact ⟨rfl, by rw [← insert_only]; exact hwrites⟩

theorem applyBatch_other {q : JsString} (hq : ∀ k, afterPrefix p (q ++ k) = none)
    (batch : JournalBatch P) : (w.applyBatch now (batch.prefixed q)).2.only p = w.only p := by
  have hincrs (incrs : List (JsString × List (JsString × ℤ))) (w : MemoryJournal P) :
      ((incrs.map fun e => (q ++ e.1, e.2)).foldl (fun w e => w.incrBy e.1 e.2) w).only p =
        w.only p := by
    induction incrs generalizing w with
    | nil => rfl
    | cons i incrs ih => rw [map_cons, foldl_cons, ih, incrBy_other _ (hq _)]
  have hputs (puts : List (JsString × JournalValue P)) (w : MemoryJournal P) :
      ((puts.map fun e => (q ++ e.1, e.2)).foldl (fun w e => w.put now e.1 e.2) w).only p =
        w.only p := by
    induction puts generalizing w with
    | nil => rfl
    | cons e puts ih => rw [map_cons, foldl_cons, ih, put_other _ _ _ (hq _)]
  have hwrites (w : MemoryJournal P) :
      (w.applyWrites now (batch.prefixed q)).only p = w.only p := by
    rw [applyWrites_eq]
    exact (hputs _ _).trans (hincrs _ _)
  obtain ⟨claim, incrs, puts⟩ := batch
  rcases claim with _ | ⟨key, value⟩
  · exact hwrites w
  · rw [applyBatch]
    simp only [JournalBatch.prefixed, Option.map_some]
    split
    · rfl
    · rw [← insert_other w value now (hq key)]
      exact hwrites _

theorem countP_only (start : JsString) {V : Type} (l : List (JsString × V)) :
    l.countP (·.1.startsWith (p ++ start)) =
      (OrderedMap.pick (afterPrefix p) l).countP (·.1.startsWith start) := by
  rw [OrderedMap.pick, countP_filterMap]
  refine countP_congr fun e _ => ?_
  rcases he : afterPrefix p e.1 with _ | k
  · rw [Option.map_none, Option.map_none, Option.getD_none, Bool.false_eq_true, iff_false,
      JsString.startsWith_iff]
    exact fun h => afterPrefix_eq_none_iff.1 he ((prefix_append p start).trans h)
  · rw [Option.map_some, Option.map_some, Option.getD_some, afterPrefix_eq_some_iff.1 he,
      startsWith_append]

theorem deletePrefix_other {q : JsString} (hq : ∀ k, afterPrefix p (q ++ k) = none)
    (start : JsString) : (w.deletePrefix (q ++ start)).2.only p = w.only p := by
  -- No key of the part is under the other prefix.
  have hkeep (k : JsString) : JsString.startsWith (p ++ k) (q ++ start) = false := by
    by_contra h
    obtain ⟨t, ht⟩ := JsString.startsWith_iff.1 (Bool.of_not_eq_false h)
    have hnone := hq (start ++ t)
    rw [← append_assoc, ht, afterPrefix_append] at hnone
    contradiction
  have hall {V : Type} (m : OrderedMap JsString V) :
      (m.filterKeys (!·.startsWith (q ++ start))).restrict (afterPrefix p) (naming_afterPrefix p) =
        m.restrict (afterPrefix p) (naming_afterPrefix p) := by
    have hkept : ∀ k k', afterPrefix p k = some k' →
        (!JsString.startsWith k (q ++ start)) = (fun _ => true) k' := by
      intro k k' h
      rw [afterPrefix_eq_some_iff.1 h, hkeep, Bool.not_false]
    rw [OrderedMap.restrict_filterKeys (naming_afterPrefix p) m hkept]
    exact OrderedMap.ext (filter_true _)
  ext1
  · exact hall w.store
  · funext k
    change (if JsString.startsWith (p ++ k) (q ++ start) ∧ _ then none else w.times (p ++ k)) = _
    rw [hkeep, if_neg (by simp)]
    rfl
  · exact hall w.counters

/-! ### Keys -/

theorem foldl_addNew (L out : List JsString) :
    (L.foldl addNew out).filterMap (afterPrefix p) =
      (L.filterMap (afterPrefix p)).foldl addNew (out.filterMap (afterPrefix p)) := by
  induction L generalizing out with
  | nil => rfl
  | cons K L ih =>
    rw [foldl_cons, ih]
    rcases hK : afterPrefix p K with _ | k
    · rw [filterMap_cons_none hK, addNew]
      split
      · rfl
      · rw [filterMap_append, filterMap_cons_none hK, filterMap_nil, append_nil]
    · rw [filterMap_cons_some hK, foldl_cons]
      congr 1
      have hmem : k ∈ out.filterMap (afterPrefix p) ↔ K ∈ out := by
        rw [mem_filterMap]
        refine ⟨fun ⟨K', hK', hk⟩ => ?_, fun h => ⟨K, h, hK⟩⟩
        rwa [naming_afterPrefix p K K' k hK hk]
      rw [addNew, addNew, if_congr hmem rfl rfl]
      split
      · rfl
      · rw [filterMap_append, filterMap_cons_some hK, filterMap_nil]

theorem listKeysUpTo_only (limit : ℕ) (start : JsString) (out L : List JsString) :
    listKeysUpTo limit (p ++ start) (out.map (p ++ ·)) L =
      (listKeysUpTo limit start out (L.filterMap (afterPrefix p))).map (p ++ ·) := by
  have hfull (out L : List JsString) (h : limit ≤ out.length) :
      listKeysUpTo limit start out L = out := by
    cases L with
    | nil => rfl
    | cons K L => rw [listKeysUpTo, if_pos h]
  induction L generalizing out with
  | nil => rfl
  | cons K L ih =>
    rw [listKeysUpTo, length_map]
    split
    · next h => rw [hfull _ _ h]
    · next h =>
      rcases hK : afterPrefix p K with _ | k
      · have hstart : ¬JsString.startsWith K (p ++ start) := by
          rw [JsString.startsWith_iff]
          exact fun h => afterPrefix_eq_none_iff.1 hK ((prefix_append p start).trans h)
        rw [if_neg hstart, filterMap_cons_none hK, ih]
      · obtain rfl := afterPrefix_eq_some_iff.1 hK
        rw [filterMap_cons_some hK, listKeysUpTo, if_neg h, startsWith_append]
        split
        · rw [← ih, addNew, addNew]
          have hmem : p ++ k ∈ out.map (p ++ ·) ↔ k ∈ out :=
            mem_map_of_injective (append_right_injective p)
          rw [if_congr hmem rfl rfl]
          split
          · rfl
          · rw [map_append, map_singleton]
        · exact ih out

theorem listKeys_only (start : JsString) (limit : Option ℕ) :
    (w.listKeys (p ++ start) limit).map (·.drop p.length) = (w.only p).listKeys start limit := by
  have hkeys : (w.only p).store.entries.map Prod.fst ++ (w.only p).counters.entries.map Prod.fst =
      (w.store.entries.map Prod.fst ++ w.counters.entries.map Prod.fst).filterMap
        (afterPrefix p) := by
    rw [filterMap_append, ← OrderedMap.keys_pick, ← OrderedMap.keys_pick]
    rfl
  rcases limit with _ | limit
  · have hnew := foldl_addNew p (w.store.entries.map Prod.fst ++ w.counters.entries.map Prod.fst) []
    rw [filterMap_nil, ← hkeys] at hnew
    rw [listKeys, listKeys, keys, keys, ← hnew, filter_filterMap, ← filterMap_eq_map,
      filterMap_filter]
    congr 1
    funext K
    rcases hK : afterPrefix p K with _ | k
    · rw [if_neg]
      · rfl
      · rw [JsString.startsWith_iff]
        exact fun h => afterPrefix_eq_none_iff.1 hK ((prefix_append p start).trans h)
    · obtain rfl := afterPrefix_eq_some_iff.1 hK
      rw [startsWith_append, Option.filter_some, Function.comp_apply, drop_left]
  · rw [listKeys, listKeys, hkeys]
    change (listKeysUpTo limit (p ++ start) ([].map (p ++ ·)) _).map _ = _
    rw [listKeysUpTo_only, map_map]
    refine (map_congr_left fun k _ => ?_).trans (map_id _)
    exact drop_left

end MemoryJournal

/-! ## Reading keys -/

section Keys

variable {p k r t : JsString} {kind : EntryKind}

/-- The prefix makes a separator, by itself or with the start of the key. -/
def Crosses (o : OrgId) (k : JsString) : Prop :=
  ∃ kind : EntryKind, o.id = kind.word ∨ kind.word ++ [sep] <+: k

variable {o : OrgId}

/-- The prefix makes no separator where there was none, unless it crosses. -/
theorem splitRecord_none_append (hk : splitRecord k = none) (hcross : ¬Crosses o k) :
    splitRecord (o.pre ++ k) = none := by
  rcases hp : splitRecord (o.pre ++ k) with _ | ⟨r, kind, t⟩
  · rfl
  have hlen := length_of_splitRecord_append hk hp
  have hword : sep ∉ kind.word := by cases kind <;> decide
  obtain ⟨heq, -⟩ := eq_of_splitRecord hp
  rw [OrgId.pre_append, EntryKind.separator, append_assoc, cons_append, cons_append,
    append_assoc, singleton_append] at heq
  -- The prefix has two colons, and the separator begins at one of them.
  refine absurd ?_ hcross
  rcases cut_at_sep (by decide) heq with ⟨-, hid⟩ | ⟨r, rfl, hid⟩
  · exact ⟨kind, .inl (eq_of_append_sep o.notMem hword hid).1⟩
  · rcases cut_at_sep o.notMem hid with ⟨-, rfl⟩ | ⟨r, rfl, -⟩
    · exact ⟨kind, .inr ⟨t, by simp⟩⟩
    · have hpre : o.pre.length = o.id.length + 5 := by
        rw [OrgId.pre, length_append, length_append, show (js "org:").length = 4 by decide,
          length_singleton]
        omega
      simp only [length_append, length_cons, hpre,
        show (js "org").length = 3 by decide] at hlen
      omega

/-- A value and its key are read alike with the prefix of the organization before the key. -/
structure Plain (o : OrgId) (k : JsString) (v : JournalValue P) : Prop where
  /-- The run of the key is not the one with the empty id. -/
  named : runIdOfKey k v ≠ some []
  /-- If the id of the organization has a line terminator, the key belongs to no run. -/
  line : o.id.any isLineTerminator → runIdOfKey k v = none
  /-- If the prefix makes a separator, the key has one itself, or belongs to no run. -/
  cross : Crosses o k → (parseJournalKey k).isSome ∨
    runIdOfKey k v = none ∧ outcomeOfKey k v = none

theorem any_isLineTerminator_pre (o : OrgId) (k : JsString) :
    (o.pre ++ k).any isLineTerminator = (o.id.any isLineTerminator || k.any isLineTerminator) := by
  rw [OrgId.pre, any_append, any_append, any_append,
    show (js "org:").any isLineTerminator = false by decide,
    show [sep].any isLineTerminator = false by decide, Bool.false_or, Bool.or_false]

variable {v : JournalValue P}

/-- A record is one of the same run; and what is none is none of a run of the organization. -/
theorem parseJournalKey_append (hplain : Plain o k v) :
    (∃ r kind, parseJournalKey k = some (r, kind) ∧
      parseJournalKey (o.pre ++ k) = some (o.pre ++ r, kind)) ∨
    (parseJournalKey k = none ∧ ∃ r kind, parseJournalKey (o.pre ++ k) = some (r, kind) ∧
      afterPrefix o.pre r = none ∧ runIdOfKey k v = none ∧ outcomeOfKey k v = none) ∨
    (parseJournalKey k = none ∧ parseJournalKey (o.pre ++ k) = none) := by
  rcases hk : parseJournalKey k with _ | ⟨r, kind⟩
  · rcases hp : parseJournalKey (o.pre ++ k) with _ | ⟨r, kind⟩
    · exact .inr (.inr ⟨rfl, rfl⟩)
    -- The key has no line terminator, so it is not split.
    have hline : (o.pre ++ k).any isLineTerminator = false := by
      by_contra h
      rw [parseJournalKey, if_pos (Bool.of_not_eq_false h)] at hp
      contradiction
    rw [any_isLineTerminator_pre, Bool.or_eq_false_iff] at hline
    have hsplit : splitRecord k = none := by
      rcases hsplit : splitRecord k with _ | ⟨r, kind, t⟩
      · rfl
      · rw [parseJournalKey_of_split hline.2 hsplit] at hk
        contradiction
    obtain ⟨t, ht⟩ := splitRecord_of_parseJournalKey hp
    have hcross : Crosses o k := by
      by_contra h
      rw [splitRecord_none_append hsplit h] at ht
      contradiction
    rcases hplain.cross hcross with hsome | ⟨hrun, hout⟩
    · rw [hk] at hsome
      contradiction
    · exact .inr (.inl ⟨rfl, r, kind, rfl,
        afterPrefix_of_length (length_of_splitRecord_append hsplit ht), hrun, hout⟩)
  · obtain ⟨t, ht⟩ := splitRecord_of_parseJournalKey hk
    refine .inl ⟨r, kind, rfl, parseJournalKey_of_split ?_ (splitRecord_append ht o.pre)⟩
    rw [any_isLineTerminator_pre, Bool.or_eq_false_iff]
    constructor
    · by_contra h
      have hnone := hplain.line (Bool.of_not_eq_false h)
      rw [runIdOfKey, hk] at hnone
      contradiction
    · by_contra h
      rw [parseJournalKey, if_pos (Bool.of_not_eq_false h)] at hk
      contradiction

theorem beforeEnd_prepend {e : JsString} (p : JsString) (h : beforeEnd e k = some r) :
    beforeEnd e (p ++ k) = some (p ++ r) := by
  rw [beforeEnd_eq_some_iff] at h ⊢
  rw [h, append_assoc]

/-- An end that was not there begins in the prefix. -/
theorem length_of_beforeEnd_append {e : JsString} (h : beforeEnd e k = none)
    (hp : beforeEnd e (p ++ k) = some r) : r.length < p.length := by
  rw [beforeEnd_eq_some_iff] at hp
  by_contra hle
  rcases append_eq_append_iff.1 hp with ⟨c, rfl, rfl⟩ | ⟨c, rfl, -⟩
  · rw [beforeEnd_eq_some_iff.2 rfl] at h
    contradiction
  · rcases c with _ | ⟨u, c⟩
    · rw [append_nil, append_cancel_left_eq] at hp
      have hnil : beforeEnd e k = some [] := beforeEnd_eq_some_iff.2 hp
      rw [h] at hnil
      contradiction
    · simp at hle

/-- The run of a key is the same one; and what belongs to none, belongs to none of the
    organization. -/
theorem runIdOfKey_append (hplain : Plain o k v) :
    (∃ r, r ≠ [] ∧ runIdOfKey k v = some r ∧ runIdOfKey (o.pre ++ k) v = some (o.pre ++ r)) ∨
    (runIdOfKey k v = none ∧
      ∀ r, runIdOfKey (o.pre ++ k) v = some r → afterPrefix o.pre r = none) := by
  rcases parseJournalKey_append hplain with
    ⟨r, kind, hk, hp⟩ | ⟨hk, r, kind, hp, hr, hrun, -⟩ | ⟨hk, hp⟩
  · have hrun : runIdOfKey k v = some r := by rw [runIdOfKey, hk]
    refine .inl ⟨r, fun he => hplain.named (he ▸ hrun), hrun, by rw [runIdOfKey, hp]⟩
  · refine .inr ⟨hrun, fun r' hr' => ?_⟩
    rw [runIdOfKey, hp] at hr'
    rwa [← Option.some.inj hr']
  · -- It may be the input of a run.
    have hline := hplain.line
    have hnamed := hplain.named
    simp only [runIdOfKey, hk, hp, any_isLineTerminator_pre, Bool.or_eq_true] at hline hnamed ⊢
    rcases hend : beforeEnd (js ":input") k with _ | r
    · refine .inr ⟨by rw [ite_self], fun r hr => ?_⟩
      split at hr
      · contradiction
      · exact afterPrefix_of_length (length_of_beforeEnd_append hend hr)
    · rw [hend] at hline hnamed
      by_cases hno : k.any isLineTerminator ∨ ¬v.versioned
      · refine .inr ⟨if_pos hno, fun r hr => ?_⟩
        rw [if_pos (hno.imp_left .inr)] at hr
        contradiction
      · rw [if_neg hno] at hnamed hline ⊢
        have hid : ¬o.id.any isLineTerminator := fun h => absurd (hline h) (by simp)
        rw [if_neg (by tauto), beforeEnd_prepend o.pre hend]
        exact .inl ⟨r, fun he => hnamed (he ▸ rfl), rfl, rfl⟩

theorem outcomeOfKey_append (o : OrgId) (k : JsString) (v : JournalValue P) :
    (∃ r status, outcomeOfKey k v = some (r, status) ∧
      outcomeOfKey (o.pre ++ k) v = some (o.pre ++ r, status)) ∨
    (outcomeOfKey k v = none ∧
      ∀ r status, outcomeOfKey (o.pre ++ k) v = some (r, status) → afterPrefix o.pre r = none) := by
  rcases hstatus : v.outcomeStatus with _ | status
  · simp [outcomeOfKey, hstatus]
  rcases hend : beforeEnd (js ":outcome") k with _ | r
  · refine .inr ⟨by rw [outcomeOfKey, hend], fun r status' hr => ?_⟩
    rcases hp : beforeEnd (js ":outcome") (o.pre ++ k) with _ | r'
    · rw [outcomeOfKey, hp] at hr
      contradiction
    · rw [outcomeOfKey, hp, hstatus] at hr
      obtain ⟨rfl, -⟩ := by simpa using hr
      exact afterPrefix_of_length (length_of_beforeEnd_append hend hp)
  · refine .inl ⟨r, status, by rw [outcomeOfKey, hend, hstatus], ?_⟩
    rw [outcomeOfKey, beforeEnd_prepend o.pre hend, hstatus]

/-! ### Keys of others -/

theorem prefix_of_parseJournalKey (h : parseJournalKey k = some (r, kind)) : r <+: k := by
  obtain ⟨t, -, hk⟩ := eq_of_parseJournalKey h
  exact ⟨_, hk.symm⟩

theorem prefix_of_runIdOfKey (h : runIdOfKey k v = some r) : r <+: k := by
  rw [runIdOfKey] at h
  split at h
  · next hk =>
    obtain rfl := Option.some.inj h
    exact prefix_of_parseJournalKey hk
  · split at h
    · contradiction
    · exact ⟨_, (beforeEnd_eq_some_iff.1 h).symm⟩

theorem prefix_of_outcomeOfKey {status : OutcomeStatus} (h : outcomeOfKey k v = some (r, status)) :
    r <+: k := by
  rw [outcomeOfKey] at h
  split at h
  · next hend _ =>
    obtain ⟨rfl, -⟩ := by simpa using h
    exact ⟨_, (beforeEnd_eq_some_iff.1 hend).symm⟩
  · contradiction

end Keys

/-! ## Reading the part of an organization -/

section Reading

variable {o : OrgId} {w : MemoryJournal P}

/-- All that the organization has written is plain. -/
def MemoryJournal.PlainIn (w : MemoryJournal P) (o : OrgId) : Prop :=
  ∀ k v, (o.pre ++ k, v) ∈ w.store.entries → Plain o k v

/-- The runs of the organization. -/
def RunsOf.only (m : RunsOf P) (p : JsString) : RunsOf P :=
  m.restrict (afterPrefix p) (naming_afterPrefix p)

theorem get_runs_only (m : RunsOf P) (p r : JsString) : (m.only p).get r = m.get (p ++ r) :=
  OrderedMap.get_restrict _ _ (afterPrefix_append p r)

theorem register_only (m : RunsOf P) (p r : JsString) :
    (m.register (p ++ r)).only p = (m.only p).register r := by
  rw [RunsOf.register, RunsOf.register, get_runs_only]
  split
  · rfl
  · exact OrderedMap.restrict_put_of_some _ _ (afterPrefix_append p r) _

variable {p : JsString}

theorem register_other (m : RunsOf P) {r : JsString} (h : afterPrefix p r = none) :
    (m.register r).only p = m.only p := by
  rw [RunsOf.register]
  split
  · rfl
  · exact OrderedMap.restrict_put_of_none _ _ h _

variable {k : JsString} {v : JournalValue P}

theorem registerOwner_only (hplain : Plain o k v) (m : RunsOf P) :
    (m.registerOwner (o.pre ++ k) v).only o.pre = (m.only o.pre).registerOwner k v := by
  rw [RunsOf.registerOwner, RunsOf.registerOwner]
  rcases runIdOfKey_append hplain with ⟨r, hr, hk, hp⟩ | ⟨hk, hp⟩
  · have hne : o.pre ++ r ≠ [] := fun h => hr (append_eq_nil_iff.1 h).2
    simp only [hk, hp, if_neg hr, if_neg hne]
    exact register_only m o.pre r
  · rw [hk]
    split
    · next r hrun =>
      split
      · rfl
      · exact register_other m (hp r hrun)
    · rfl

theorem registerOutcome_only (k : JsString) (v : JournalValue P) (m : RunsOf P) :
    (m.registerOutcome (o.pre ++ k) v).only o.pre = (m.only o.pre).registerOutcome k v := by
  rw [RunsOf.registerOutcome, RunsOf.registerOutcome]
  rcases outcomeOfKey_append o k v with ⟨r, status, hk, hp⟩ | ⟨hk, hp⟩
  · rw [hk, hp]
    exact register_only m o.pre r
  · rw [hk]
    split
    · next r status hout => exact register_other m (hp r status hout)
    · rfl

theorem add_only (hplain : Plain o k v) (m : RunsOf P) :
    (m.add (o.pre ++ k, v)).only o.pre = (m.only o.pre).add (k, v) := by
  rw [RunsOf.add, RunsOf.add]
  rcases parseJournalKey_append hplain with
    ⟨r, kind, hk, hp⟩ | ⟨hk, r, kind, hp, hr, hrun, hout⟩ | ⟨hk, hp⟩
  · simp only [hk, hp, get_runs_only]
    exact OrderedMap.restrict_put_of_some _ _ (afterPrefix_append _ r) _
  · -- The record is one of a run outside of the organization.
    simp only [hk, hp, RunsOf.registerOwner, RunsOf.registerOutcome, hrun, hout]
    exact OrderedMap.restrict_put_of_none _ _ hr _
  · rw [hk, hp]
    exact (registerOutcome_only k v _).trans
      (congrArg (·.registerOutcome k v) (registerOwner_only hplain m))

variable {K : JsString}

theorem add_other (h : afterPrefix p K = none) (v : JournalValue P) (m : RunsOf P) :
    (m.add (K, v)).only p = m.only p := by
  rw [RunsOf.add]
  split
  · next r kind hparse =>
    exact OrderedMap.restrict_put_of_none _ _
      (afterPrefix_of_start (prefix_of_parseJournalKey hparse) h) _
  · have howner : (m.registerOwner K v).only p = m.only p := by
      rw [RunsOf.registerOwner]
      split
      · next r hrun =>
        split
        · rfl
        · exact register_other m (afterPrefix_of_start (prefix_of_runIdOfKey hrun) h)
      · rfl
    rw [RunsOf.registerOutcome]
    split
    · next r status hout =>
      rw [register_other _ (afterPrefix_of_start (prefix_of_outcomeOfKey hout) h), howner]
    · exact howner

/-- The runs of the part are the runs of the organization. -/
theorem byRun_only (h : w.PlainIn o) :
    (byRun w.store).only o.pre = byRun (w.only o.pre).store := by
  refine OrderedMap.foldl_pick (f := afterPrefix o.pre) (RunsOf.only · o.pre) ?_ ?_ .empty
  · intro m K k v hmem hk
    obtain rfl := afterPrefix_eq_some_iff.1 hk
    exact add_only (h k v hmem) m
  · intro m K v _ hK
    exact add_other hK v m

theorem summaryOf_only (w : MemoryJournal P) (p r : JsString) (entries : List (ListedEntry P)) :
    (summaryOf w.store (p ++ r) entries).own p = some (summaryOf (w.only p).store r entries) := by
  rw [ListedRun.own]
  simp only [summaryOf, afterPrefix_append, Option.map_some, MemoryJournal.get_only,
    append_assoc]

/-- The runs of an organization, as they are listed. -/
theorem listRuns_own (w : MemoryJournal P) (p : JsString) :
    (listRuns w.store).filterMap (·.own p) =
      ((byRun w.store).only p).entries.map fun (r, entries) =>
        summaryOf (w.only p).store r entries := by
  rw [listRuns, filterMap_map]
  change _ = (OrderedMap.pick (afterPrefix p) (byRun w.store).entries).map _
  rw [OrderedMap.pick, map_filterMap]
  congr 1
  funext e
  obtain ⟨R, entries⟩ := e
  rcases hR : afterPrefix p R with _ | r
  · rw [Option.map_none, Option.map_none, Function.comp_apply, ListedRun.own]
    exact congrArg _ hR
  · obtain rfl := afterPrefix_eq_some_iff.1 hR
    exact summaryOf_only w p r entries

theorem listRuns_only (h : w.PlainIn o) :
    (listRuns w.store).filterMap (·.own o.pre) = listRuns (w.only o.pre).store := by
  rw [listRuns_own, byRun_only h, listRuns]

theorem recordOf_only (hplain : Plain o k v) (r : JsString) :
    recordOf (o.pre ++ r) (o.pre ++ k, v) =
      (recordOf r (k, v)).map fun e => (o.pre ++ e.1, e.2) := by
  rw [recordOf, recordOf]
  rcases parseJournalKey_append hplain with
    ⟨r', kind, hk, hp⟩ | ⟨hk, r', kind, hp, hr, -, -⟩ | ⟨hk, hp⟩
  · rw [hk, hp]
    simp only [append_cancel_left_eq]
    split
    · rfl
    · rfl
  · rw [hk, hp]
    refine if_neg ?_
    rintro rfl
    rw [afterPrefix_append] at hr
    contradiction
  · rw [hk, hp]
    rfl

theorem recordOf_other (h : afterPrefix p K = none) (v : JournalValue P) (r : JsString) :
    recordOf (p ++ r) (K, v) = none := by
  rw [recordOf]
  split
  · next r' kind hparse =>
    refine if_neg ?_
    rintro rfl
    have hnone := afterPrefix_of_start (prefix_of_parseJournalKey hparse) h
    rw [afterPrefix_append] at hnone
    contradiction
  · rfl

theorem readRun_only (h : w.PlainIn o) (r : JsString) :
    (w.readRun (o.pre ++ r)).map (·.stripped o.pre) = (w.only o.pre).readRun r := by
  have hkeys : w.store.entries.filterMap (recordOf (o.pre ++ r)) =
      ((w.only o.pre).store.entries.filterMap (recordOf r)).map
        fun e => (o.pre ++ e.1, e.2) := by
    change _ = ((OrderedMap.pick (afterPrefix o.pre) w.store.entries).filterMap _).map _
    rw [OrderedMap.pick, filterMap_filterMap, map_filterMap]
    refine filterMap_congr fun e he => ?_
    obtain ⟨K, v⟩ := e
    rcases hK : afterPrefix o.pre K with _ | k
    · exact recordOf_other hK v r
    · obtain rfl := afterPrefix_eq_some_iff.1 hK
      exact recordOf_only (h k v he) r
  rw [MemoryJournal.readRun, MemoryJournal.readRun, hkeys]
  refine ext_getElem? fun seq => ?_
  rw [getElem?_map, getElem?_mapIdx, getElem?_map, getElem?_mapIdx,
    Option.map_map, Option.map_map]
  congr 1
  funext e
  obtain ⟨k, kind, v⟩ := e
  simp only [ReadEntry.stripped, Function.comp_apply, dropPrefix_append]
  rfl

/-! ### The age of runs -/

/-- The ages of the runs of the organization. -/
def agesOnly (last : OrderedMap JsString RunAge) (p : JsString) : OrderedMap JsString RunAge :=
  last.restrict (afterPrefix p) (naming_afterPrefix p)

theorem get_agesOnly (last : OrderedMap JsString RunAge) (p r : JsString) :
    (agesOnly last p).get r = last.get (p ++ r) :=
  OrderedMap.get_restrict _ _ (afterPrefix_append p r)

theorem addAge_only (hplain : Plain o k v) (last : OrderedMap JsString RunAge) :
    agesOnly (w.addAge last (o.pre ++ k, v)) o.pre =
      (w.only o.pre).addAge (agesOnly last o.pre) (k, v) := by
  have htool (h : (runIdOfKey k v).isSome) : (parseJournalKey (o.pre ++ k)).any (·.2 = .tool) =
      (parseJournalKey k).any (·.2 = .tool) := by
    rcases parseJournalKey_append hplain with
      ⟨r, kind, hk, hp⟩ | ⟨hk, r, kind, hp, hr, hrun, -⟩ | ⟨hk, hp⟩
    · rw [hk, hp]
      rfl
    · rw [hrun] at h
      contradiction
    · rw [hk, hp]
  rw [MemoryJournal.addAge, MemoryJournal.addAge]
  rcases runIdOfKey_append hplain with ⟨r, hr, hk, hp⟩ | ⟨hk, hp⟩
  · have hne : o.pre ++ r ≠ [] := fun h => hr (append_eq_nil_iff.1 h).2
    rw [hk] at htool
    simp only [hk, hp, if_neg hr, if_neg hne, htool rfl, get_agesOnly]
    exact OrderedMap.restrict_put_of_some _ _ (afterPrefix_append _ r) _
  · rw [hk]
    split
    · rfl
    · next r hrun =>
      split
      · rfl
      · exact OrderedMap.restrict_put_of_none _ _ (hp r hrun) _

theorem addAge_other (h : afterPrefix p K = none) (v : JournalValue P)
    (last : OrderedMap JsString RunAge) :
    agesOnly (w.addAge last (K, v)) p = agesOnly last p := by
  rw [MemoryJournal.addAge]
  split
  · rfl
  · next r hrun =>
    split
    · rfl
    · exact OrderedMap.restrict_put_of_none _ _
        (afterPrefix_of_start (prefix_of_runIdOfKey hrun) h) _

/-- The runs of an organization without activity. -/
theorem listStaleRuns_own (w : MemoryJournal P) (p : JsString) (cutoff : ℕ) (incl : Bool) :
    (w.listStaleRuns cutoff incl).filterMap (afterPrefix p) =
      ((agesOnly (w.store.entries.foldl w.addAge .empty) p).entries.filter fun (_, age) =>
        age.ts < cutoff && (incl || !age.suspended)).map Prod.fst := by
  rw [MemoryJournal.listStaleRuns, ← OrderedMap.keys_pick]
  change _ = ((OrderedMap.pick (afterPrefix p) _).filter _).map Prod.fst
  rw [OrderedMap.pick, OrderedMap.pick, filterMap_filter, filter_filterMap]
  congr 2
  funext e
  obtain ⟨R, age⟩ := e
  rcases afterPrefix p R with _ | r
  · simp
  · simp [Option.filter_some]

theorem listStaleRuns_only (h : w.PlainIn o) (cutoff : ℕ) (incl : Bool) :
    (w.listStaleRuns cutoff incl).filterMap (afterPrefix o.pre) =
      (w.only o.pre).listStaleRuns cutoff incl := by
  have hages : agesOnly (w.store.entries.foldl w.addAge .empty) o.pre =
      (w.only o.pre).store.entries.foldl (w.only o.pre).addAge .empty := by
    refine OrderedMap.foldl_pick (f := afterPrefix o.pre) (agesOnly · o.pre) ?_ ?_ .empty
    · intro last K k v hmem hk
      obtain rfl := afterPrefix_eq_some_iff.1 hk
      exact addAge_only (h k v hmem) last
    · intro last K v _ hK
      exact addAge_other hK v last
  rw [listStaleRuns_own, hages, MemoryJournal.listStaleRuns]

end Reading

/-! ### Pages of runs -/

section Paged

variable {p : JsString} {limit pos : ℕ} {rows items items' : List ListedRun}

theorem takeOwn_some {next : ℕ} (h : takeOwn p limit pos rows items = (items', some next)) :
    pos < next ∧ next ≤ pos + rows.length ∧
      items' = items ++ (rows.take (next - pos)).filterMap (·.own p) := by
  induction rows generalizing pos items with
  | nil => cases h
  | cons r rows ih =>
    rw [takeOwn] at h
    rcases hown : r.own p with _ | r'
    · simp only [hown] at h
      obtain ⟨hlt, hle, rfl⟩ := ih h
      refine ⟨by omega, by rw [length_cons]; omega, ?_⟩
      rw [show next - pos = next - (pos + 1) + 1 by omega, take_succ_cons,
        filterMap_cons_none hown]
    · simp only [hown] at h
      split at h
      · obtain ⟨rfl, hnext⟩ := Prod.mk.inj h
        obtain rfl := Option.some.inj hnext
        refine ⟨by omega, by rw [length_cons]; omega, ?_⟩
        rw [Nat.add_sub_cancel_left, take_succ_cons, take_zero,
          filterMap_cons_some hown, filterMap_nil]
      · obtain ⟨hlt, hle, rfl⟩ := ih h
        refine ⟨by omega, by rw [length_cons]; omega, ?_⟩
        rw [show next - pos = next - (pos + 1) + 1 by omega, take_succ_cons,
          filterMap_cons_some hown, append_assoc, singleton_append]

theorem takeOwn_none (h : takeOwn p limit pos rows items = (items', none))
    (hitems : items.length < limit) :
    items'.length < limit ∧ items' = items ++ rows.filterMap (·.own p) := by
  induction rows generalizing pos items with
  | nil =>
    obtain ⟨rfl, -⟩ := Prod.mk.inj h
    exact ⟨hitems, (append_nil _).symm⟩
  | cons r rows ih =>
    rw [takeOwn] at h
    rcases hown : r.own p with _ | r'
    · simp only [hown] at h
      rw [filterMap_cons_none hown]
      exact ih h hitems
    · simp only [hown] at h
      split at h
      · cases h
      · next hlimit =>
        obtain ⟨hlt, rfl⟩ := ih h (by rw [length_append, length_singleton]; omega)
        refine ⟨hlt, ?_⟩
        rw [filterMap_cons_some hown, append_assoc, singleton_append]

/-- The pages of a list, drawn until there are enough runs of the organization. -/
theorem viewPage_cuts (all : List ListedRun) {chunk fuel : ℕ} (hchunk : 0 < chunk)
    (hfuel : all.length - pos < fuel) (hitems : items.length < limit) :
    (∀ items', viewPage p (slicePage all chunk) limit fuel pos items = (items', none) →
      items' = items ++ (all.drop pos).filterMap (·.own p)) ∧
    ∀ items' next, viewPage p (slicePage all chunk) limit fuel pos items = (items', some next) →
      pos < next ∧ next ≤ all.length ∧
        items' = items ++ ((all.drop pos).take (next - pos)).filterMap (·.own p) := by
  induction fuel generalizing pos items with
  | zero => exact absurd hfuel (Nat.not_lt_zero _)
  | succ fuel ih =>
    rw [viewPage, slicePage]
    simp only
    rcases htake : takeOwn p limit pos ((all.drop pos).take chunk) items with ⟨out, _ | next⟩
    · obtain ⟨hlt, rfl⟩ := takeOwn_none htake hitems
      simp only [if_neg hlt.not_ge]
      by_cases hmore : pos + chunk < all.length
      · -- There is another page of the store.
        have hlen : ((all.drop pos).take chunk).length = chunk := by
          rw [length_take, length_drop]
          omega
        have hdrop : all.drop pos = (all.drop pos).take chunk ++ all.drop (pos + chunk) := by
          rw [← drop_drop, take_append_drop]
        have hfuel' : all.length - (pos + chunk) < fuel := by omega
        simp only [if_pos hmore, hlen]
        obtain ⟨hlast, hnext⟩ := ih hfuel' hlt
        refine ⟨fun items' h => ?_, fun items' next h => ?_⟩
        · rw [hlast items' h, append_assoc, ← filterMap_append, ← hdrop]
        · obtain ⟨hpos, hle, rfl⟩ := hnext items' next h
          refine ⟨by omega, hle, ?_⟩
          rw [append_assoc, ← filterMap_append, ← drop_drop, ← take_add,
            show chunk + (next - (pos + chunk)) = next - pos by omega]
      · simp only [if_neg hmore]
        refine ⟨fun items' h => ?_, fun items' next h => by cases h⟩
        obtain ⟨rfl, -⟩ := Prod.mk.inj h
        rw [take_of_length_le (by rw [length_drop]; omega)]
    · refine ⟨fun items' h => (by cases h), fun items' next' h => ?_⟩
      obtain ⟨rfl, hnext⟩ := Prod.mk.inj h
      obtain rfl := Option.some.inj hnext
      obtain ⟨hlt, hle, rfl⟩ := takeOwn_some htake
      rw [length_take, length_drop] at hle
      refine ⟨hlt, by omega, ?_⟩
      rw [take_take, Nat.min_eq_left (by omega)]

theorem viewListRunsPaged_cuts (p : JsString) (store : JournalStore P) (q : RunFilter)
    (hlimit : 0 < limit) :
    Cuts (viewListRunsPaged p store q limit) ((listRuns store).filter q.keeps) (·.own p) := by
  have hfuel (pos : ℕ) : ((listRuns store).filter q.keeps).length - pos <
      (listRuns store).length + 1 := by
    have hle := length_filter_le q.keeps (listRuns store)
    omega
  have hchunk : 0 < max limit 50 := by omega
  have hnil : ([] : List ListedRun).length < limit := hlimit
  constructor
  · intro pos items h
    exact (viewPage_cuts _ hchunk (hfuel pos) hnil).1 items h
  · intro pos items next h
    exact (viewPage_cuts _ hchunk (hfuel pos) hnil).2 items next h

/-- A filter does not look at the id. -/
theorem filterMap_own_filter (q : RunFilter) (l : List ListedRun) :
    (l.filter q.keeps).filterMap (·.own p) = (l.filterMap (·.own p)).filter q.keeps := by
  rw [filterMap_filter, filter_filterMap]
  congr 1
  funext r
  rcases hown : r.own p with _ | r'
  · rw [Option.filter_none, ite_self]
  · obtain ⟨runId, -, rfl⟩ := Option.map_eq_some_iff.1 hown
    rw [Option.filter_some]
    rfl

theorem walk_viewListRunsPaged (p : JsString) (store : JournalStore P) (q : RunFilter)
    (hlimit : 0 < limit) :
    walk (viewListRunsPaged p store q limit) ((listRuns store).length + 1) 0 =
      some (((listRuns store).filterMap (·.own p)).filter q.keeps) := by
  have hle := length_filter_le q.keeps (listRuns store)
  rw [walk_eq (viewListRunsPaged_cuts p store q hlimit) (by omega), drop_zero,
    filterMap_own_filter]

theorem walkRuns_only {o : OrgId} {w : MemoryJournal P} (h : w.PlainIn o) (q : RunFilter)
    (hlimit : 0 < limit) :
    walk (viewListRunsPaged o.pre w.store q limit) ((listRuns w.store).length + 1) 0 =
      (w.only o.pre).walkRuns q limit := by
  rw [walk_viewListRunsPaged o.pre w.store q hlimit, listRuns_only h, MemoryJournal.walkRuns]
  change _ = walk (slicePage ((listRuns (w.only o.pre).store).filter q.keeps) limit) _ 0
  have hle := length_filter_le q.keeps (listRuns (w.only o.pre).store)
  rw [walk_eq (slicePage_cuts _ hlimit) (by omega), drop_zero, filterMap_some]

end Paged

/-! ## A step of a view -/

section Step

variable [DecidableEq P] {o o' : OrgId} {w : MemoryJournal P} (now : ℕ)

/-- The operation looks for runs in the keys. -/
def JournalOp.ReadsRuns : JournalOp P → Prop
  | .readRun _ | .listRuns | .listStaleRuns _ _ | .walkRuns _ _ => True
  | _ => False

/-- What a view answers, and what it makes of its part: as a journal of its own. -/
theorem viewPerform_eq (op : JournalOp P) (h : op.ReadsRuns → w.PlainIn o) :
    (viewPerform o.pre w now op).1 = ((w.only o.pre).perform now op).1 ∧
      (viewPerform o.pre w now op).2.only o.pre = ((w.only o.pre).perform now op).2 := by
  cases op with
  | get key => exact ⟨congrArg JournalAnswer.value (w.get_only o.pre key).symm, rfl⟩
  | put key value => exact ⟨rfl, w.put_only o.pre key value now⟩
  | putIfAbsent key value =>
    simp only [viewPerform, MemoryJournal.perform, MemoryJournal.putIfAbsent,
      MemoryJournal.get_only]
    split
    · exact ⟨rfl, rfl⟩
    · exact ⟨rfl, w.insert_only o.pre key value now⟩
  | putIfMatch key expected value =>
    simp only [viewPerform, MemoryJournal.perform, MemoryJournal.putIfMatch,
      MemoryJournal.get_only]
    split
    · exact ⟨rfl, w.replace_only o.pre key value⟩
    · exact ⟨rfl, rfl⟩
  | incrBy key fields => exact ⟨rfl, w.incrBy_only o.pre key fields⟩
  | getCounters key =>
    exact ⟨congrArg JournalAnswer.counters (w.getCounters_only o.pre key).symm, rfl⟩
  | applyBatch batch =>
    obtain ⟨hflag, honly⟩ := w.applyBatch_only o.pre now batch
    exact ⟨congrArg JournalAnswer.flag hflag, honly⟩
  | getMany keys =>
    refine ⟨congrArg JournalAnswer.values ?_, rfl⟩
    rw [MemoryJournal.getMany, MemoryJournal.getMany, map_map]
    exact map_congr_left fun k _ => (w.get_only o.pre k).symm
  | listKeys start limit =>
    exact ⟨congrArg JournalAnswer.keys (w.listKeys_only o.pre start limit), rfl⟩
  | deletePrefix start =>
    refine ⟨congrArg JournalAnswer.count ?_, w.deletePrefix_only o.pre start⟩
    exact congrArg₂ _ (MemoryJournal.countP_only ..) (MemoryJournal.countP_only ..)
  | readRun runId => exact ⟨congrArg JournalAnswer.entries (readRun_only (h trivial) runId), rfl⟩
  | listRuns => exact ⟨congrArg (JournalAnswer.runs ∘ some) (listRuns_only (h trivial)), rfl⟩
  | listStaleRuns cutoff incl =>
    exact ⟨congrArg JournalAnswer.runIds (listStaleRuns_only (h trivial) cutoff incl), rfl⟩
  | walkRuns q limit => exact ⟨congrArg JournalAnswer.runs (walkRuns_only (h trivial) q limit.2), rfl⟩

/-- What a view makes of the part of another organization: nothing. -/
theorem viewPerform_other (hne : o ≠ o') (op : JournalOp P) :
    (viewPerform o'.pre w now op).2.only o.pre = w.only o.pre := by
  have hkey (k : JsString) := OrgId.afterPrefix_other hne k
  cases op with
  | put key value => exact w.put_other value now (hkey key)
  | putIfAbsent key value =>
    simp only [viewPerform, MemoryJournal.putIfAbsent]
    split
    · rfl
    · exact w.insert_other value now (hkey key)
  | putIfMatch key expected value =>
    simp only [viewPerform, MemoryJournal.putIfMatch]
    split
    · exact w.replace_other value (hkey key)
    · rfl
  | incrBy key fields => exact w.incrBy_other (hkey key) fields
  | applyBatch batch => exact w.applyBatch_other o.pre now hkey batch
  | deletePrefix start => exact w.deletePrefix_other o.pre hkey start
  | get | getCounters | getMany | listKeys | readRun | listRuns | listStaleRuns | walkRuns => rfl

/-- What an operation writes is plain. -/
def PlainOp (o : OrgId) : JournalOp P → Prop
  | .put key value | .putIfAbsent key value | .putIfMatch key _ value => Plain o key value
  | .applyBatch batch =>
    (∀ e ∈ batch.claim, Plain o e.1 e.2) ∧ ∀ e ∈ batch.puts, Plain o e.1 e.2
  | _ => True

/-- All values of a journal are plain, in an organization. -/
def MemoryJournal.AllPlain (w : MemoryJournal P) (o : OrgId) : Prop :=
  ∀ k v, w.store.get k = some v → Plain o k v

omit [DecidableEq P] in
theorem plainIn_iff : w.PlainIn o ↔ (w.only o.pre).AllPlain o := by
  refine forall₂_congr fun k v => ?_
  rw [OrderedMap.mem_entries_iff, MemoryJournal.get_only]

omit [DecidableEq P] in
theorem allPlain_put {k : JsString} {v : JournalValue P} (h : w.AllPlain o) (hv : Plain o k v)
    {w' : MemoryJournal P} (hw' : w'.store = w.store.put k v) : w'.AllPlain o := by
  intro k' v' hget
  rw [hw'] at hget
  rcases eq_or_ne k' k with rfl | hne
  · rw [OrderedMap.get_put_self] at hget
    rwa [← Option.some.inj hget]
  · rw [OrderedMap.get_put_of_ne _ hne] at hget
    exact h k' v' hget

omit [DecidableEq P] in
theorem allPlain_applyWrites {batch : JournalBatch P} (h : w.AllPlain o)
    (hputs : ∀ e ∈ batch.puts, Plain o e.1 e.2) : (w.applyWrites now batch).AllPlain o := by
  have hincrs (incrs : List (JsString × List (JsString × ℤ))) (w : MemoryJournal P) :
      (incrs.foldl (fun w e => w.incrBy e.1 e.2) w).store = w.store := by
    induction incrs generalizing w with
    | nil => rfl
    | cons i incrs ih => exact ih _
  have hfold (puts : List (JsString × JournalValue P)) (hputs : ∀ e ∈ puts, Plain o e.1 e.2)
      (w : MemoryJournal P) (h : w.AllPlain o) :
      (puts.foldl (fun w e => w.put now e.1 e.2) w).AllPlain o := by
    induction puts generalizing w with
    | nil => exact h
    | cons e puts ih =>
      exact ih (fun e he => hputs e (.tail _ he)) _ (allPlain_put h (hputs e (.head _)) rfl)
  refine hfold batch.puts hputs _ fun k v hget => h k v ?_
  rwa [hincrs] at hget

theorem perform_allPlain {op : JournalOp P} (h : w.AllPlain o) (hop : PlainOp o op) :
    (w.perform now op).2.AllPlain o := by
  cases op with
  | put key value => exact allPlain_put h hop rfl
  | putIfAbsent key value =>
    simp only [MemoryJournal.perform, MemoryJournal.putIfAbsent]
    split
    · exact h
    · exact allPlain_put h hop rfl
  | putIfMatch key expected value =>
    simp only [MemoryJournal.perform, MemoryJournal.putIfMatch]
    split
    · exact allPlain_put h hop rfl
    · exact h
  | applyBatch batch =>
    obtain ⟨hclaim, hputs⟩ := hop
    simp only [MemoryJournal.perform, MemoryJournal.applyBatch]
    split
    · exact allPlain_applyWrites now h hputs
    · next key value heq =>
      split
      · exact h
      · exact allPlain_applyWrites now (allPlain_put h (hclaim _ heq) rfl) hputs
  | deletePrefix start =>
    intro k v hget
    have hmem := OrderedMap.mem_entries_iff.2 hget
    exact h k v (OrderedMap.mem_entries_iff.1 (mem_of_mem_filter hmem))
  | incrBy | get | getCounters | getMany | listKeys | readRun | listRuns | listStaleRuns
  | walkRuns => exact h

end Step

/-! ## All interleavings -/

section Runs

variable [DecidableEq P]

/-- An operation through the view of an organization, at a time. -/
structure ViewStep (P : Type) where
  org : OrgId
  op : JournalOp P
  now : ℕ

/-- What the views of a journal answer, one after the other. -/
def runViews (w : MemoryJournal P) : List (ViewStep P) → List (OrgId × JournalAnswer P)
  | [] => []
  | s :: steps =>
    let (answer, w') := viewPerform s.org.pre w s.now s.op
    (s.org, answer) :: runViews w' steps

/-- What a journal answers. -/
def runOwn (w : MemoryJournal P) : List (ViewStep P) → List (JournalAnswer P)
  | [] => []
  | s :: steps =>
    let (answer, w') := w.perform s.now s.op
    answer :: runOwn w' steps

/-- A view is a journal of its own, as long as what is written through it is plain. -/
theorem view_private (w : MemoryJournal P) (steps : List (ViewStep P)) (o : OrgId)
    (hw : w.PlainIn o) (hsteps : ∀ s ∈ steps, s.org = o → PlainOp o s.op) :
    ((runViews w steps).filter (·.1 = o)).map Prod.snd =
      runOwn (w.only o.pre) (steps.filter (·.org = o)) := by
  induction steps generalizing w with
  | nil => rfl
  | cons s steps ih =>
    obtain ⟨org, op, now⟩ := s
    have hrest : ∀ s ∈ steps, s.org = o → PlainOp o s.op := fun s hs => hsteps s (.tail _ hs)
    by_cases ho : org = o
    · subst ho
      obtain ⟨hanswer, honly⟩ := viewPerform_eq now op fun _ => hw
      have hw' : (viewPerform org.pre w now op).2.PlainIn org := by
        rw [plainIn_iff, honly]
        exact perform_allPlain now (plainIn_iff.1 hw) (hsteps _ (.head _) rfl)
      rw [runViews, filter_cons_of_pos (by simp), filter_cons_of_pos (by simp),
        map_cons, runOwn, ih _ hw' hrest, honly, hanswer]
    · have honly : (viewPerform org.pre w now op).2.only o.pre = w.only o.pre :=
        viewPerform_other now (Ne.symm ho) op
      have hw' : (viewPerform org.pre w now op).2.PlainIn o := by
        rwa [plainIn_iff, honly, ← plainIn_iff]
      rw [runViews, filter_cons_of_neg (by simpa using ho),
        filter_cons_of_neg (by simpa using ho), ih _ hw' hrest, honly]

end Runs

/-- The record of an input. -/
def inputValue : JournalValue Unit := ⟨true, none, none, none, none, none, ()⟩

/-- A run begins in an organization, and is listed; another organization writes meanwhile. -/
def beginAndList (o o' : OrgId) : List (ViewStep Unit) :=
  [⟨o, .put (js "r:input") inputValue, 0⟩, ⟨o', .put (js "s:input") inputValue, 1⟩,
    ⟨o, .listRuns, 2⟩]

def acme : OrgId := ⟨js "acme", by decide, by decide⟩
def acme2 : OrgId := ⟨js "acme2", by decide, by decide⟩
def orgModel : OrgId := ⟨js "model", by decide, by decide⟩

/-- The run is listed, and no other one is. -/
theorem view_private_acme :
    (∀ s ∈ beginAndList acme acme2, s.org = acme → PlainOp acme s.op) ∧
      ((runViews MemoryJournal.empty (beginAndList acme acme2)).filter (·.1 = acme)).map Prod.snd =
        runOwn (MemoryJournal.empty.only acme.pre)
          ((beginAndList acme acme2).filter (·.org = acme)) := by
  have hplain : ∀ s ∈ beginAndList acme acme2, s.org = acme → PlainOp acme s.op := by
    intro s hs horg
    rcases hs with _ | ⟨_, _ | ⟨_, _ | ⟨_, hs⟩⟩⟩
    · refine ⟨by decide, by decide, ?_⟩
      rintro ⟨_ | _, h | h⟩ <;> revert h <;> decide
    · exact absurd horg (by decide)
    · trivial
    · cases hs
  exact ⟨hplain, view_private _ _ _ nofun hplain⟩

/-- In the organization `model`, the run is not listed. -/
theorem view_misses_run :
    ((runViews MemoryJournal.empty (beginAndList orgModel acme)).filter
      (·.1 = orgModel)).map Prod.snd ≠
    runOwn (MemoryJournal.empty.only orgModel.pre)
      ((beginAndList orgModel acme).filter (·.org = orgModel)) := by
  intro h
  have hlists : ([.done, .runs (some [])] : List (JournalAnswer Unit)) =
      [.done, .runs (some [⟨⟨js "r", .completed, 0, 0⟩, none, none, none, none⟩])] := h
  simp at hlists

end Gnldev.Durable
