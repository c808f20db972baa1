import Gnldev.Durable.JournalKey.Named

/-!
# Keys of different records

A record is found by its run, its kind and its id (`key_eq_iff`). The id of a call may be what another
call is named by, its tool and its arguments, and these two have one key: `keys_named`.
-/

namespace Gnldev.Durable

namespace JournalKey

/-- What the key has after its run. -/
def tail : Option EntryKind → JsString → JsString
  | some kind, id => kind.separator ++ id
  | none, id => js ":input" ++ id

variable {k k' : JournalKey} {key key' runId id : JsString} {kind : Option EntryKind}

theorem ownTail (hid : kind = none → id = []) : OwnTail (tail kind id) := by
  rcases kind with _ | kind
  · rw [hid rfl]
    exact .input
  · exact .record kind id

theorem tail_inj {kind' : Option EntryKind} {id' : JsString} (hid : kind = none → id = [])
    (hid' : kind' = none → id' = []) (h : tail kind id = tail kind' id') :
    kind = kind' ∧ id = id' := by
  rcases kind with _ | kind <;> rcases kind' with _ | kind'
  · exact ⟨rfl, by rw [hid rfl, hid' rfl]⟩
  · rw [hid rfl] at h
    exact absurd h (input_ne_separator kind' id')
  · rw [hid' rfl] at h
    exact absurd h.symm (input_ne_separator kind id)
  · by_cases hkind : kind = kind'
    · subst hkind
      exact ⟨rfl, List.append_cancel_left h⟩
    · refine absurd h (JsString.append_ne_append ?_ ?_ id id') <;>
        (cases kind <;> cases kind' <;> first | contradiction | decide)

/-- The key of a record is made of its run, its kind and its id. -/
theorem key_of_entry (h : k.Accepted key) (he : k.entryOf = some (runId, kind, id)) :
    SafeRunId runId ∧ (kind = none → id = []) ∧ key = runId ++ tail kind id := by
  have hbuilt := h.built
  cases k
  case model r step =>
    obtain ⟨rfl, rfl, rfl⟩ := by simpa [entryOf] using he
    exact ⟨safeRunId_of_ok (h.run _ rfl), nofun, (Except.ok.inj hbuilt).symm.trans (model_eq _ _)⟩
  case tool r toolCallId =>
    obtain ⟨rfl, rfl, rfl⟩ := by simpa [entryOf] using he
    exact ⟨safeRunId_of_ok (h.run _ rfl), nofun, (Except.ok.inj hbuilt).symm.trans (tool_eq _ _)⟩
  case toolByArgs r toolName hash =>
    obtain ⟨rfl, rfl, rfl⟩ := by simpa only [entryOf, Option.some.injEq, Prod.mk.injEq] using he
    refine ⟨safeRunId_of_ok (h.run _ rfl), nofun, ?_⟩
    rw [← (toolByArgs_spells hbuilt).2, tail,
      show js ":tool:args-" = EntryKind.tool.separator ++ js "args-" by decide]
    simp
  case input r =>
    obtain ⟨rfl, rfl, rfl⟩ := by simpa [entryOf] using he
    exact ⟨safeRunId_of_ok (h.run _ rfl), fun _ => rfl, by
      rw [← Except.ok.inj hbuilt, tail, List.append_nil, runKeys.input]⟩
  all_goals contradiction

/-- Records have one key if and only if they are one record of one run. -/
theorem key_eq_iff (h : k.Accepted key) (h' : k'.Accepted key') (he : k.entryOf.isSome)
    (he' : k'.entryOf.isSome) : key = key' ↔ k.entryOf = k'.entryOf := by
  obtain ⟨⟨r, kind, id⟩, he⟩ := Option.isSome_iff_exists.1 he
  obtain ⟨⟨r', kind', id'⟩, he'⟩ := Option.isSome_iff_exists.1 he'
  obtain ⟨hrun, hid, rfl⟩ := key_of_entry h he
  obtain ⟨hrun', hid', rfl⟩ := key_of_entry h' he'
  rw [he, he', Option.some.injEq, Prod.mk.injEq, Prod.mk.injEq]
  constructor
  · intro heq
    obtain rfl := eq_of_record_keys hrun.recordSegment hrun'.recordSegment (ownTail hid)
      (ownTail hid') heq
    exact ⟨rfl, tail_inj hid hid' (List.append_cancel_left heq)⟩
  · rintro ⟨rfl, rfl, rfl⟩
    rfl

/-- A digest is as long as another one. -/
theorem argsId_inj {toolName toolName' hash hash' : JsString} (hhash : isArgsHash hash)
    (hhash' : isArgsHash hash')
    (h : js "args-" ++ toolName ++ js "-" ++ hash = js "args-" ++ toolName' ++ js "-" ++ hash') :
    toolName = toolName' ∧ hash = hash' := by
  have hlen {s : JsString} (hs : isArgsHash s) : s.length = 16 := by
    rw [isArgsHash, Bool.and_eq_true, decide_eq_true_eq] at hs
    exact hs.1
  obtain ⟨hname, hh⟩ := List.append_inj' h (by rw [hlen hhash, hlen hhash'])
  rw [List.append_left_inj, List.append_right_inj] at hname
  exact ⟨hname, hh⟩

/-- The keys that are of a record. -/
theorem entry_cases (he : k.entryOf = some (runId, kind, id)) :
    (∃ step, k = model runId step ∧ kind = some .model ∧ id = decimal step) ∨
    (k = tool runId id ∧ kind = some .tool) ∨
    (∃ toolName hash, k = toolByArgs runId toolName hash ∧ kind = some .tool ∧
      id = js "args-" ++ toolName ++ js "-" ++ hash) ∨
    (k = input runId ∧ kind = none) := by
  cases k
  case model r step =>
    obtain ⟨rfl, rfl, rfl⟩ := by simpa [entryOf] using he
    exact .inl ⟨step, rfl, rfl, rfl⟩
  case tool r toolCallId =>
    obtain ⟨rfl, rfl, rfl⟩ := by simpa [entryOf] using he
    exact .inr (.inl ⟨rfl, rfl⟩)
  case toolByArgs r toolName hash =>
    obtain ⟨rfl, rfl, rfl⟩ := by simpa only [entryOf, Option.some.injEq, Prod.mk.injEq] using he
    exact .inr (.inr (.inl ⟨toolName, hash, rfl, rfl, rfl⟩))
  case input r =>
    obtain ⟨rfl, rfl, rfl⟩ := by simpa [entryOf] using he
    exact .inr (.inr (.inr ⟨rfl, rfl⟩))
  all_goals contradiction

theorem entry_of_sameCall (h : k.SameCall k') : k.entryOf = k'.entryOf := by
  unfold SameCall at h
  split at h
  · obtain ⟨rfl, rfl⟩ := h
    rfl
  · contradiction

/-- Keys that are of one record are the same, or a call whose id is the other one's tool and
    arguments. -/
theorem entry_eq_iff (h : k.Accepted key) (h' : k'.Accepted key') (he : k.entryOf.isSome) :
    k.entryOf = k'.entryOf ↔ k = k' ∨ k.SameCall k' ∨ k'.SameCall k := by
  constructor
  · intro heq
    obtain ⟨⟨r, kind, id⟩, he⟩ := Option.isSome_iff_exists.1 he
    rcases entry_cases he with ⟨step, rfl, rfl, rfl⟩ | ⟨rfl, rfl⟩ | ⟨n, hash, rfl, rfl, rfl⟩ |
        ⟨rfl, rfl⟩ <;>
      rcases entry_cases (heq.symm.trans he) with ⟨step', rfl, hkind, hid⟩ | ⟨rfl, hkind⟩ |
        ⟨n', hash', rfl, hkind, hid⟩ | ⟨rfl, hkind⟩ <;> try contradiction
    · exact .inl (by rw [decimal_inj hid])
    · exact .inl rfl
    · exact .inr (.inl ⟨rfl, hid⟩)
    · exact .inr (.inr ⟨rfl, rfl⟩)
    · obtain ⟨rfl, rfl⟩ := argsId_inj (h.hash hash (.head _)) (h'.hash hash' (.head _)) hid
      exact .inl rfl
    · exact .inl rfl
  · rintro (rfl | hcall | hcall)
    · rfl
    · exact entry_of_sameCall hcall
    · exact (entry_of_sameCall hcall).symm

end JournalKey

/-! ## Keys name their run -/

open JournalKey

/-- A key is read as what it is if and only if its ids are clear, and two records have one key if and
    only if they are the same, or the id of the one call is the tool and arguments of the other. -/
theorem keys_named {P : Type} {k : JournalKey} {key : JsString} (h : k.Accepted key) :
    (k.Named P key ↔ k.Clear key) ∧
    ∀ {k' : JournalKey} {key' : JsString}, k'.Accepted key' → k.entryOf.isSome → k'.entryOf.isSome →
      (key = key' ↔ k = k' ∨ k.SameCall k' ∨ k'.SameCall k) :=
  ⟨named_iff h, fun h' he he' => (key_eq_iff h h' he he').trans (entry_eq_iff h h' he)⟩

/-- The call `call-1` of the run `r1`. -/
theorem accepted_call : (tool (js "r1") (js "call-1")).Accepted (js "r1:tool:call-1") where
  built := by decide
  run := fun r hr => by
    obtain rfl := Option.some.inj (Option.mem_def.1 hr)
    decide
  hash := nofun
  toolCallId := fun r => ⟨fun h => absurd (JournalKey.tool.inj h).2 (by decide), nofun⟩
  leaf := nofun

theorem call_named : (tool (js "r1") (js "call-1")).Named Unit (js "r1:tool:call-1") :=
  (keys_named accepted_call).1.2 ⟨by rw [hasRecord_iff]; decide, by decide⟩

/-- The call `a:tool:b` of the run `r1` is read as the call `b` of a run `r1:tool:a`. -/
theorem call_of_another_run :
    ¬∀ (k : JournalKey) (key : JsString), k.Accepted key → k.Named Unit key := by
  intro h
  have haccepted : (tool (js "r1") (js "a:tool:b")).Accepted (js "r1:tool:a:tool:b") := by
    refine ⟨by decide, fun r hr => ?_, nofun, fun r => ⟨fun h => ?_, nofun⟩, nofun⟩
    · obtain rfl := Option.some.inj (Option.mem_def.1 hr)
      decide
    · exact absurd (JournalKey.tool.inj h).2 (by decide)
  exact absurd (h _ _ haccepted).parse (by decide)

end Gnldev.Durable
