import Gnldev.Durable.Retention

/-!
# What a deletion leaves

Values under keys, after a deletion: one key is gone after `deleteExactKey` and no other
(`get_deleteExactKey`), and in a family of keys those that are read as the thread's
(`get_purgeThreadNamespace`), however they are deleted.
-/

open List

namespace Gnldev.Durable

variable {P : Type} {w : MemoryJournal P}

namespace MemoryJournal

theorem get_put (now : ℕ) (k k' : JsString) (v : JournalValue P) :
    (w.put now k v).get k' = if k' = k then some v else w.get k' := by
  change (w.store.put k v).get k' = _
  by_cases h : k' = k
  · rw [if_pos h, h, OrderedMap.get_put_self]
  · rw [if_neg h]
    exact OrderedMap.get_put_of_ne _ h _

theorem mem_foldl_addNew {k : JsString} (L out : List JsString) :
    k ∈ L.foldl addNew out ↔ k ∈ out ∨ k ∈ L := by
  induction L generalizing out with
  | nil => simp
  | cons a L ih =>
    rw [foldl_cons, ih, addNew]
    split
    · next h =>
      rw [mem_cons]
      refine ⟨fun h => h.imp_right .inr, ?_⟩
      rintro (hk | rfl | hk)
      · exact .inl hk
      · exact .inl h
      · exact .inr hk
    · rw [mem_append, mem_singleton, mem_cons, or_assoc]

/-- A key with a value is listed. -/
theorem mem_listKeys {k start : JsString} {v : JournalValue P} (h : w.get k = some v)
    (hstart : k.startsWith start) : k ∈ w.listKeys start none := by
  refine mem_filter.2 ⟨?_, hstart⟩
  refine (mem_foldl_addNew _ _).2 (.inr (mem_append_left _ ?_))
  exact mem_map_of_mem (OrderedMap.mem_entries_iff.2 h)

theorem startsWith_of_mem_listKeys {k start : JsString} (h : k ∈ w.listKeys start none) :
    k.startsWith start := (mem_filter.1 h).2

theorem get_deletePrefix (start k : JsString) :
    (w.deletePrefix start).2.get k = if k.startsWith start then none else w.get k := by
  have hmem (v : JournalValue P) : (w.deletePrefix start).2.get k = some v ↔
      w.get k = some v ∧ !k.startsWith start := by
    rw [get, get, ← OrderedMap.mem_entries_iff, ← OrderedMap.mem_entries_iff]
    exact mem_filter
  refine Option.ext fun v => ?_
  rw [hmem v]
  split
  · next h => simp [h]
  · next h => simp [h]

end MemoryJournal

open MemoryJournal

section Deletion

variable (now : ℕ)

theorem get_restore (k : JsString) (e : JsString × Option (JournalValue P)) :
    (restore now w e).get k = if k = e.1 ∧ e.2.isSome then e.2 else w.get k := by
  obtain ⟨k', _ | v⟩ := e
  · simp [restore]
  · rw [restore, MemoryJournal.get_put]
    simp

/-- Keys that are written again have the values that they had. -/
theorem get_foldl_restore (u : MemoryJournal P) (keys : List JsString) (k : JsString) :
    ((keys.map fun k => (k, u.get k)).foldl (restore now) w).get k =
      if k ∈ keys ∧ (u.get k).isSome then u.get k else w.get k := by
  induction keys generalizing w with
  | nil => simp
  | cons a keys ih =>
    rw [map_cons, foldl_cons, ih, get_restore]
    by_cases hk : k = a
    · subst hk
      by_cases hsome : (u.get k).isSome <;> simp [hsome]
    · simp [hk]

/-- One key is deleted, and no other. -/
theorem get_deleteExactKey (key k : JsString) :
    (deleteExactKey now w key).2.get k = if k = key then none else w.get k := by
  rw [deleteExactKey]
  split
  · next hnone =>
    split
    · next hk => rw [hk, hnone]
    · rfl
  · next hsome =>
    dsimp only
    rw [get_foldl_restore, get_deletePrefix]
    by_cases hk : k = key
    · subst hk
      simp [JsString.startsWith_iff]
    · rw [if_neg hk]
      rcases hget : w.get k with _ | v
      · simp
      · by_cases hstart : k.startsWith key
        · rw [if_pos ⟨mem_filter.2 ⟨mem_listKeys hget hstart, by simpa using hk⟩, rfl⟩]
        · rw [if_neg hstart]
          split <;> rfl

theorem get_deleteKeys (keys : List JsString) (k : JsString) :
    (deleteKeys now w keys).2.get k = if k ∈ keys then none else w.get k := by
  have hfold (total : ℕ) (w : MemoryJournal P) :
      ((keys.foldl (fun e k => (e.1 + (deleteExactKey now e.2 k).1, (deleteExactKey now e.2 k).2))
        (total, w)).2).get k = if k ∈ keys then none else w.get k := by
    induction keys generalizing total w with
    | nil => simp
    | cons a keys ih =>
      rw [foldl_cons]
      rw [ih, get_deleteExactKey]
      by_cases hk : k = a
      · simp [hk]
      · simp [hk]
  rw [deleteKeys_eq]
  exact hfold 0 w

/-- Keys that are listed are deleted, however many there are. -/
theorem get_deleteKeys_listed (start : JsString) (f : JsString → Bool) (k : JsString) :
    (deleteKeys now w ((w.listKeys start none).filter f)).2.get k =
      if k.startsWith start ∧ f k then none else w.get k := by
  rw [get_deleteKeys]
  rcases hget : w.get k with _ | v
  · rw [ite_self, ite_self]
  · by_cases h : k.startsWith start ∧ f k
    · rw [if_pos h, if_pos (mem_filter.2 ⟨mem_listKeys hget h.1, h.2⟩)]
    · rw [if_neg h, if_neg]
      intro hmem
      obtain ⟨hlisted, hf⟩ := mem_filter.1 hmem
      exact h ⟨startsWith_of_mem_listKeys hlisted, hf⟩

/-- In a family of keys, those that are read as the thread's are deleted. -/
theorem get_purgeThreadNamespace (start threadId : JsString)
    (ownerOf : JsString → Option JsString) (k : JsString) :
    (purgeThreadNamespace now start threadId ownerOf w).2.get k =
      if k.startsWith (threadScope start threadId) ∧ ownThreadKey start threadId ownerOf k then none
      else w.get k := by
  rw [purgeThreadNamespace]
  split
  · next hall =>
    rw [get_deletePrefix]
    rcases hget : w.get k with _ | v
    · rw [ite_self, ite_self]
    · by_cases hstart : k.startsWith (threadScope start threadId)
      · rw [if_pos hstart, if_pos ⟨hstart, all_eq_true.1 hall k (mem_listKeys hget hstart)⟩]
      · rw [if_neg hstart, if_neg fun h => hstart h.1]
  · exact get_deleteKeys_listed now ..

end Deletion

end Gnldev.Durable
