import Gnldev.Durable.Retention.Delete
import Gnldev.Durable.Retention.ThreadKey

/-!
# Purging a thread

`purgeThread` is to delete a thread, and no other one. What it deletes is known for each key
(`Removed`, `get_purgeThread`), and whether it is the thread's is read off the key, except for the
record of the owner: that is deleted as a prefix, and the record of the thread `t:owner2` goes with
the one of `t` (`purgeThread_takes_owner`). So it deletes exactly the thread unless there is such a
record, or a key that is not read right (`ThreadsApart`, `purgeThread_exact`).
-/

open List

namespace Gnldev.Durable

variable {P : Type} {w : MemoryJournal P} {threadId : JsString}

/-! ## What is deleted -/

/-- The families of keys whose thread is read off the key. -/
inductive Family : JsString → (JsString → Option JsString) → Prop
  | mem : Family MEM_PREFIX threadIdOfMemKey
  | xthr : Family XTHR_PREFIX threadIdOfXthrKey
  | om : Family OM_PREFIX threadIdOfOmKey

/-- The purge of a thread deletes the key. -/
inductive Removed (w : MemoryJournal P) (threadId k : JsString) : Prop
  | family {start : JsString} {ownerOf : JsString → Option JsString} (h : Family start ownerOf)
      (hstart : k.startsWith (threadScope start threadId))
      (hown : ownThreadKey start threadId ownerOf k)
  | owner (hrecord : (w.get (threadOwnerKey threadId)).isSome)
      (hstart : k.startsWith (threadOwnerKey threadId))
  | trace (hstart : k.startsWith RESTHR_PREFIX) (htrace : traceOf threadId k)

/-- How the families of keys begin. -/
def ROOTS : List JsString := [MEM_PREFIX, XTHR_PREFIX, OM_PREFIX, js "thread:", RESTHR_PREFIX]

/-- A key is in one family. -/
theorem eq_of_startsWith_root {r r' x y : JsString} (hr : r ∈ ROOTS) (hr' : r' ∈ ROOTS)
    (h : JsString.startsWith (r ++ x) (r' ++ y)) : r = r' := by
  have hapart : ∀ r ∈ ROOTS, ∀ r' ∈ ROOTS, r <+: r' ∨ r' <+: r → r = r' := by decide
  refine hapart r hr r' hr' (List.prefix_or_prefix_of_prefix (prefix_append r x) ?_)
  exact (prefix_append r' y).trans (JsString.startsWith_iff.1 h)

theorem startsWith_root_eq_false {r r' x y : JsString} (hr : r ∈ ROOTS) (hr' : r' ∈ ROOTS)
    (hne : r ≠ r') : JsString.startsWith (r ++ x) (r' ++ y) = false :=
  Bool.eq_false_iff.2 fun h => hne (eq_of_startsWith_root hr hr' h)

/-- The record of the owner is deleted as a prefix. -/
theorem get_purgeThreadOwner (k : JsString) :
    (purgeThreadOwner w threadId).2.get k =
      if (w.get (threadOwnerKey threadId)).isSome ∧ k.startsWith (threadOwnerKey threadId) then none
      else w.get k := by
  rw [purgeThreadOwner]
  split
  · next hget => rw [MemoryJournal.get_deletePrefix, hget]; simp
  · next hget => rw [hget]; simp

theorem Family.mem_roots {start : JsString} {ownerOf : JsString → Option JsString}
    (h : Family start ownerOf) :
    start ∈ ROOTS ∧ js "thread:" ≠ start ∧ RESTHR_PREFIX ≠ start := by
  rcases h with _ | _ | _ <;> decide

/-- The key is gone if it is removed, and has its value else. -/
theorem get_purgeThread (now : ℕ) (k : JsString) :
    (Removed w threadId k → (purgeThread now w threadId).2.get k = none) ∧
      (¬Removed w threadId k → (purgeThread now w threadId).2.get k = w.get k) := by
  -- The purges of families leave the record of the owner.
  have hfamily {start : JsString} {ownerOf : JsString → Option JsString} (h : Family start ownerOf) :
      (threadOwnerKey threadId).startsWith (threadScope start threadId) = false := by
    rw [threadOwnerKey, threadScope, append_assoc, append_assoc]
    exact startsWith_root_eq_false (by decide) h.mem_roots.1 h.mem_roots.2.1
  rw [purgeThread]
  simp only [get_deleteKeys_listed, get_purgeThreadOwner, get_purgeThreadNamespace, hfamily .mem,
    hfamily .xthr, hfamily .om, Bool.false_eq_true, false_and, if_false]
  constructor
  · rintro (⟨⟨⟩ | ⟨⟩ | ⟨⟩, hstart, hown⟩ | ⟨hrecord, hstart⟩ | ⟨hstart, htrace⟩)
    · simp [hstart, hown]
    · simp [hstart, hown]
    · simp [hstart, hown]
    · simp [hrecord, hstart]
    · simp [hstart, htrace]
  · intro hno
    rw [if_neg fun h => hno (.trace h.1 h.2), if_neg fun h => hno (.owner h.1 h.2),
      if_neg fun h => hno (.family .om h.1 h.2), if_neg fun h => hno (.family .xthr h.1 h.2),
      if_neg fun h => hno (.family .mem h.1 h.2)]

/-- A key that is there is gone just if it is removed. -/
theorem get_purgeThread_eq_none_iff {now : ℕ} {k : JsString} {v : JournalValue P}
    (hget : w.get k = some v) :
    (purgeThread now w threadId).2.get k = none ↔ Removed w threadId k := by
  refine ⟨fun hgone => ?_, (get_purgeThread now k).1⟩
  by_contra hno
  rw [(get_purgeThread now k).2 hno, hget] at hgone
  contradiction

/-! ## Whose the keys are -/

section Reading

variable {start owner rest s : JsString} {ownerOf : JsString → Option JsString}

theorem startsWith_threadScope_iff :
    JsString.startsWith (start ++ s) (threadScope start threadId) ↔
      ∃ leaf, s = threadId ++ sep :: leaf := by
  have hscope : threadScope start threadId = start ++ (threadId ++ [sep]) := append_assoc ..
  rw [hscope, JsString.startsWith_iff, prefix_append_right_inj]
  refine ⟨fun ⟨leaf, h⟩ => ⟨leaf, ?_⟩, fun ⟨leaf, h⟩ => ⟨leaf, ?_⟩⟩
  · rw [← h, append_assoc]
    rfl
  · rw [h, append_assoc]
    rfl

theorem drop_threadScope (leaf : JsString) :
    (start ++ (threadId ++ sep :: leaf)).drop (threadScope start threadId).length = leaf := by
  have hscope : start ++ (threadId ++ sep :: leaf) = threadScope start threadId ++ leaf := by
    simp [threadScope, js, JsString.utf16, sep]
  rw [hscope, drop_left]

/-- A key that is read is the thread's that is read. -/
theorem own_iff_of_some (hread : ownerOf (start ++ (owner ++ sep :: rest)) = some owner) :
    JsString.startsWith (start ++ (owner ++ sep :: rest)) (threadScope start threadId) ∧
      ownThreadKey start threadId ownerOf (start ++ (owner ++ sep :: rest)) ↔ owner = threadId := by
  rw [ownThreadKey, hread]
  refine ⟨fun h => of_decide_eq_true h.2, fun h => ⟨?_, decide_eq_true h⟩⟩
  exact startsWith_threadScope_iff.2 ⟨rest, by rw [h]⟩

/-- A key that is not read is the thread's if there is one segment left. -/
theorem own_iff_of_none (hread : ownerOf (start ++ s) = none) :
    JsString.startsWith (start ++ s) (threadScope start threadId) ∧
      ownThreadKey start threadId ownerOf (start ++ s) ↔
        ∃ leaf, sep ∉ leaf ∧ s = threadId ++ sep :: leaf := by
  rw [ownThreadKey, hread, startsWith_threadScope_iff]
  constructor
  · rintro ⟨⟨leaf, rfl⟩, hown⟩
    rw [drop_threadScope] at hown
    exact ⟨leaf, of_decide_eq_true hown, rfl⟩
  · rintro ⟨leaf, hleaf, rfl⟩
    rw [drop_threadScope]
    exact ⟨⟨leaf, rfl⟩, decide_eq_true hleaf⟩

/-- A key that has an id is read as its thread's, and one that has none if it is one segment. -/
theorem own_iff {threadId' : JsString}
    (hread : ownerOf (start ++ (threadId' ++ sep :: rest)) = nonempty threadId') :
    JsString.startsWith (start ++ (threadId' ++ sep :: rest)) (threadScope start threadId) ∧
      ownThreadKey start threadId ownerOf (start ++ (threadId' ++ sep :: rest)) ↔
        if threadId' = [] ∧ sep ∈ rest then ∃ leaf, sep ∉ leaf ∧ sep :: rest = threadId ++ sep :: leaf
        else threadId' = threadId := by
  by_cases hid : threadId' = []
  · subst hid
    rw [own_iff_of_none hread, nil_append]
    split
    · rfl
    · next hrest =>
      rw [not_and] at hrest
      refine ⟨fun ⟨leaf, hleaf, h⟩ => ?_, fun h => ⟨rest, hrest rfl, by rw [← h]; rfl⟩⟩
      rcases threadId with _ | ⟨u, threadId⟩
      · rfl
      · rw [(List.cons.inj h).2] at hrest
        exact absurd (mem_append_right _ mem_cons_self) (hrest rfl)
  · rw [nonempty, if_neg hid] at hread
    rw [own_iff_of_some hread, if_neg fun h => hid h.1]

end Reading

theorem removed_family_iff {start : JsString} {ownerOf : JsString → Option JsString}
    (h : Family start ownerOf) (s : JsString) : Removed w threadId (start ++ s) ↔
      JsString.startsWith (start ++ s) (threadScope start threadId) ∧
        ownThreadKey start threadId ownerOf (start ++ s) := by
  obtain ⟨hroot, hthread, htraces⟩ := h.mem_roots
  refine ⟨fun hremoved => ?_, fun hown => .family h hown.1 hown.2⟩
  rcases hremoved with ⟨h', hstart, hown⟩ | ⟨-, hstart⟩ | ⟨hstart, -⟩
  · have heq := eq_of_startsWith_root hroot h'.mem_roots.1
      (by rwa [threadScope, append_assoc] at hstart)
    rcases h with _ | _ | _ <;> rcases h' with _ | _ | _
    all_goals first | exact ⟨hstart, hown⟩ | exact absurd heq (by decide)
  · rw [threadOwnerKey, append_assoc] at hstart
    exact absurd (eq_of_startsWith_root hroot (by decide) hstart) hthread.symm
  · rw [← append_nil RESTHR_PREFIX] at hstart
    exact absurd (eq_of_startsWith_root hroot (by decide) hstart) htraces.symm

theorem removed_owner_iff (threadId' : JsString) :
    Removed w threadId (threadOwnerKey threadId') ↔ (w.get (threadOwnerKey threadId)).isSome ∧
      threadOwnerKey threadId <+: threadOwnerKey threadId' := by
  refine ⟨fun h => ?_, fun h => .owner h.1 (JsString.startsWith_iff.2 h.2)⟩
  rcases h with ⟨h', hstart, -⟩ | ⟨hrecord, hstart⟩ | ⟨hstart, -⟩
  · rw [threadOwnerKey, threadScope, append_assoc, append_assoc] at hstart
    exact absurd (eq_of_startsWith_root (by decide) h'.mem_roots.1 hstart) h'.mem_roots.2.1
  · exact ⟨hrecord, JsString.startsWith_iff.1 hstart⟩
  · rw [threadOwnerKey, append_assoc, ← append_nil RESTHR_PREFIX] at hstart
    exact absurd (eq_of_startsWith_root (by decide) (by decide) hstart) (by decide)

theorem sep_notMem_escOwnerPart (v : JsString) : sep ∉ escOwnerPart v := by
  rw [escOwnerPart, mem_flatMap]
  rintro ⟨u, -, hu⟩
  split at hu
  · exact absurd hu (by decide)
  · split at hu
    · exact absurd hu (by decide)
    · next hne => exact hne (mem_singleton.1 hu).symm

theorem removed_trace_iff (resourceId threadId' : JsString) :
    Removed w threadId ((ThreadKey.trace resourceId).key threadId') ↔ threadId' = threadId := by
  have hkey : (ThreadKey.trace resourceId).key threadId' =
      RESTHR_PREFIX ++ (escOwnerPart resourceId ++ sep :: threadId') := by
    simp [ThreadKey.key, ThreadKey.start, ThreadKey.leaf, js, JsString.utf16, sep]
  have hread : traceOf threadId (RESTHR_PREFIX ++ (escOwnerPart resourceId ++ sep :: threadId')) ↔
      threadId' = threadId := by
    rw [traceOf, drop_left, dropWhile_append_of_pos]
    · simp
    · intro u hu
      exact decide_eq_true fun he => sep_notMem_escOwnerPart resourceId (he ▸ hu)
  rw [hkey, ← hread]
  refine ⟨fun h => ?_, .trace (JsString.startsWith_iff.2 (prefix_append ..))⟩
  rcases h with ⟨h', hstart, -⟩ | ⟨-, hstart⟩ | ⟨-, htrace⟩
  · rw [threadScope, append_assoc] at hstart
    exact absurd (eq_of_startsWith_root (by decide) h'.mem_roots.1 hstart) h'.mem_roots.2.2
  · rw [threadOwnerKey, append_assoc] at hstart
    exact absurd (eq_of_startsWith_root (by decide) (by decide) hstart) (by decide)
  · exact htrace

/-- The tool is named as a family of keys is. -/
def ThreadKey.Misnamed : ThreadKey → Prop
  | dedup _ _ tail => ∃ f ∈ XTHR_FAMILIES, f <:+: tail
  | _ => False

/-- The record of a tool with such a name is removed with the thread that is read, which is not
    its own. -/
theorem removed_misnamed_iff {k : ThreadKey} (h : k.Misnamed) (threadId' : JsString) :
    (Removed w threadId (k.key threadId') ↔ threadIdOfXthrKey (k.key threadId') = some threadId) ∧
      threadIdOfXthrKey (k.key threadId') ≠ some threadId' := by
  rcases k with _ | ⟨family, hfamily, tail⟩ | _ | _ | _ | _
  · exact h.elim
  · obtain ⟨f, hf, htail⟩ := h
    obtain ⟨owner, rest, hread, heq, hne⟩ :=
      threadIdOfXthrKey_of_family hfamily hf htail threadId'
    have hkey : (ThreadKey.dedup family hfamily tail).key threadId' =
      XTHR_PREFIX ++ (threadId' ++ (family ++ tail)) := append_assoc ..
    rw [hkey, hread, Option.some.injEq, ne_eq, Option.some.injEq]
    refine ⟨?_, hne⟩
    rw [heq] at hread ⊢
    rw [removed_family_iff .xthr, own_iff_of_some hread]
  all_goals exact h.elim

/-- Another key is removed with its thread, except that nothing is read of a key without an id. -/
theorem removed_key_iff {k : ThreadKey} (h : ¬k.Misnamed) (howner : k ≠ .owner)
    (threadId' : JsString) : Removed w threadId (k.key threadId') ↔
      if threadId' = [] ∧ sep ∈ k.leaf.tail then ∃ leaf, sep ∉ leaf ∧ k.leaf = threadId ++ sep :: leaf
      else threadId' = threadId := by
  have hfamily {start rest : JsString} {ownerOf : JsString → Option JsString}
      (hf : Family start ownerOf) (hstart : k.start = start) (hleaf : k.leaf = sep :: rest)
      (hread : ownerOf (start ++ (threadId' ++ (sep :: rest))) = nonempty threadId') :
      Removed w threadId (k.key threadId') ↔
        if threadId' = [] ∧ sep ∈ k.leaf.tail then
          ∃ leaf, sep ∉ leaf ∧ k.leaf = threadId ++ sep :: leaf
        else threadId' = threadId := by
    rw [ThreadKey.key, hstart, hleaf, append_assoc, removed_family_iff hf, own_iff hread]
    rfl
  rcases k with ⟨suffix, hs⟩ | ⟨family, hs, tail⟩ | ⟨suffix, hs⟩ | step | _ | resourceId
  · have hcons : ∀ s ∈ MEM_SUFFIXES, s = sep :: s.tail := by decide
    refine hfamily .mem rfl (hcons suffix hs) ?_
    rw [← hcons suffix hs]
    exact threadIdOfMemKey_key hs threadId'
  · obtain ⟨word, rfl, -⟩ := eq_cons_of_mem_families hs
    have htail : ∀ f ∈ XTHR_FAMILIES, ¬f <:+: tail := fun f hf htail => h ⟨f, hf, htail⟩
    exact hfamily .xthr rfl rfl (threadIdOfXthrKey_key hs htail threadId')
  · have hcons : ∀ s ∈ OM_SUFFIXES, s = sep :: s.tail := by decide
    refine hfamily .om rfl (hcons suffix hs) ?_
    rw [← hcons suffix hs]
    exact threadIdOfOmKey_counter hs threadId'
  · exact hfamily .om rfl rfl (threadIdOfOmKey_proc step threadId')
  · contradiction
  · rw [removed_trace_iff, if_neg]
    exact fun h => not_mem_nil h.2

/-! ## Exactly the thread -/

/-- A thread is gone, and no other one has lost anything. -/
structure ThreadPurged (w : MemoryJournal P) (threadId : JsString) (w' : MemoryJournal P) : Prop where
  gone : ∀ k : ThreadKey, w'.get (k.key threadId) = none
  kept : ∀ threadId', runKeys.assertThreadId threadId' = .ok () → threadId' ≠ threadId →
    ∀ k : ThreadKey, w'.get (k.key threadId') = w.get (k.key threadId')

/-- What a thread has is told apart from what another one has. -/
structure ThreadsApart (w : MemoryJournal P) (threadId : JsString) : Prop where
  /-- No record of an owner begins as the thread's does. -/
  owner : (w.get (threadOwnerKey threadId)).isSome →
    ∀ threadId', runKeys.assertThreadId threadId' = .ok () → threadId' ≠ threadId →
      threadOwnerKey threadId <+: threadOwnerKey threadId' → w.get (threadOwnerKey threadId') = none
  /-- No record of a tool that is named as a family is the thread's, or is read as the thread's. -/
  named : ∀ (k : ThreadKey) threadId', k.Misnamed → (w.get (k.key threadId')).isSome →
    threadId' ≠ threadId ∧ (runKeys.assertThreadId threadId' = .ok () →
      threadIdOfXthrKey (k.key threadId') ≠ some threadId)
  /-- No key that has no id, and more than one segment, is the thread's, or ends after it. -/
  nameless : ∀ k : ThreadKey, ¬k.Misnamed → sep ∈ k.leaf.tail → (w.get (k.key [])).isSome →
    threadId ≠ [] ∧ ∀ leaf, sep ∉ leaf → k.leaf ≠ threadId ++ sep :: leaf

theorem ThreadsApart.purged (h : ThreadsApart w threadId) (now : ℕ) :
    ThreadPurged w threadId (purgeThread now w threadId).2 := by
  refine ⟨fun k => ?_, fun threadId' hid hne k => ?_⟩
  · rcases hget : w.get (k.key threadId) with _ | v
    · by_cases hremoved : Removed w threadId (k.key threadId)
      · exact (get_purgeThread now _).1 hremoved
      · rw [(get_purgeThread now _).2 hremoved, hget]
    · have hsome : (w.get (k.key threadId)).isSome := by rw [hget]; rfl
      refine (get_purgeThread now _).1 ?_
      by_cases howner : k = .owner
      · subst howner
        exact (removed_owner_iff threadId).2 ⟨hsome, prefix_rfl⟩
      · have hnamed : ¬k.Misnamed := fun hm => (h.named k threadId hm hsome).1 rfl
        rw [removed_key_iff hnamed howner, if_neg]
        rintro ⟨rfl, hsep⟩
        exact (h.nameless k hnamed hsep hsome).1 rfl
  · rcases hget : w.get (k.key threadId') with _ | v
    · by_cases hremoved : Removed w threadId (k.key threadId')
      · exact (get_purgeThread now _).1 hremoved
      · rw [(get_purgeThread now _).2 hremoved, hget]
    · have hsome : (w.get (k.key threadId')).isSome := by rw [hget]; rfl
      rw [(get_purgeThread now _).2, hget]
      by_cases howner : k = .owner
      · subst howner
        intro hremoved
        obtain ⟨hrecord, hstart⟩ := (removed_owner_iff threadId').1 hremoved
        rw [ThreadKey.key_owner, h.owner hrecord threadId' hid hne hstart] at hget
        contradiction
      · by_cases hm : k.Misnamed
        · rw [(removed_misnamed_iff hm threadId').1]
          exact (h.named k threadId' hm hsome).2 hid
        · rw [removed_key_iff hm howner]
          split
          · next hnil =>
            obtain ⟨rfl, hsep⟩ := hnil
            rintro ⟨leaf, hleaf, heq⟩
            exact (h.nameless k hm hsep hsome).2 leaf hleaf heq
          · exact hne

theorem ThreadPurged.apart {now : ℕ}
    (h : ThreadPurged w threadId (purgeThread now w threadId).2) : ThreadsApart w threadId := by
  -- A key that is there is removed just if it is the thread's.
  have hself (k : ThreadKey) (hsome : (w.get (k.key threadId)).isSome) :
      Removed w threadId (k.key threadId) := by
    obtain ⟨v, hv⟩ := Option.isSome_iff_exists.1 hsome
    exact (get_purgeThread_eq_none_iff hv).1 (h.gone k)
  have hother (k : ThreadKey) (threadId' : JsString) (hid : runKeys.assertThreadId threadId' = .ok ())
      (hne : threadId' ≠ threadId) (hsome : (w.get (k.key threadId')).isSome) :
      ¬Removed w threadId (k.key threadId') := by
    obtain ⟨v, hv⟩ := Option.isSome_iff_exists.1 hsome
    rw [← get_purgeThread_eq_none_iff hv, h.kept threadId' hid hne k, hv]
    exact Option.some_ne_none v
  refine ⟨fun hrecord threadId' hid hne hstart => ?_, fun k threadId' hm hsome => ?_,
    fun k hm hsep hsome => ?_⟩
  · by_contra hsome
    refine hother .owner threadId' hid hne (Option.isSome_iff_ne_none.2 hsome) ?_
    exact (removed_owner_iff threadId').2 ⟨hrecord, hstart⟩
  · have hne : threadId' ≠ threadId := by
      rintro rfl
      obtain ⟨hremoved, hread⟩ := @removed_misnamed_iff _ w threadId' _ hm threadId'
      exact hread (hremoved.1 (hself k hsome))
    refine ⟨hne, fun hid hread => hother k threadId' hid hne hsome ?_⟩
    exact (removed_misnamed_iff hm threadId').1.2 hread
  · have howner : k ≠ .owner := by
      rintro rfl
      exact absurd hsep (by decide)
    have hiff := @removed_key_iff _ w threadId _ hm howner []
    rw [if_pos ⟨rfl, hsep⟩] at hiff
    have hne : threadId ≠ [] := by
      rintro rfl
      obtain ⟨leaf, hleaf, heq⟩ := hiff.1 (hself k hsome)
      rw [heq] at hsep
      exact hleaf hsep
    exact ⟨hne, fun leaf hleaf heq => hother k [] rfl hne.symm hsome (hiff.2 ⟨leaf, hleaf, heq⟩)⟩

/-- Purging a thread deletes exactly it, just if what it has is told apart. -/
theorem purgeThread_exact (now : ℕ) (w : MemoryJournal P) (threadId : JsString) :
    ThreadPurged w threadId (purgeThread now w threadId).2 ↔ ThreadsApart w threadId :=
  ⟨ThreadPurged.apart, fun h => h.purged now⟩

/-- Two threads, of which each has an owner. -/
def ownedThreads : MemoryJournal Unit :=
  let record : JournalValue Unit := ⟨false, none, none, none, some (js "ann"), none, ()⟩
  (MemoryJournal.empty.put 0 (threadOwnerKey (js "t")) record).put 0
    (threadOwnerKey (js "t:owner2")) record

/-- With the owner of a thread, the owner of a thread whose id goes on from there is deleted. -/
theorem purgeThread_takes_owner :
    ¬ThreadPurged ownedThreads (js "t") (purgeThread 0 ownedThreads (js "t")).2 := by
  intro h
  have hkept := h.kept (js "t:owner2") rfl (by decide) .owner
  revert hkept
  decide +kernel

end Gnldev.Durable
