import Gnldev.Durable.JournalKey

/-!
# What keys are read as

A key is read at its last separator. The ids before the last one make none that is not there without
them (`splitRecord_after`), so a key is read as what it is if and only if its last id is clear.
-/

open List

namespace Gnldev.Durable

/-! ## The last separator -/

namespace EntryKind

theorem sep_notMem_word (kind : EntryKind) : sep ∉ kind.word := by cases kind <;> decide

theorem separator_append (kind : EntryKind) (s : JsString) :
    kind.separator ++ s = (sep :: kind.word) ++ sep :: s := by simp [separator]

end EntryKind

variable {kind : EntryKind}

/-- A separator that is the last one. -/
theorem splitRecord_of_last {t : JsString} (ht : t ≠ [])
    (hlast : splitRecord (kind.word ++ sep :: t) = none) :
    splitRecord (sep :: (kind.word ++ sep :: t)) = some ([], kind, t) := by
  have hafter : afterPrefix kind.separator (sep :: (kind.word ++ sep :: t)) = some t :=
    afterPrefix_eq_some_iff.2 (by simp [EntryKind.separator])
  rw [splitRecord, hlast]
  rcases kind with _ | _
  · rw [hafter]
    exact if_neg ht
  · have hmodel : afterPrefix EntryKind.model.separator
        (sep :: (EntryKind.tool.word ++ sep :: t)) = none := by
      refine Option.eq_none_iff_forall_ne_some.2 fun t' h => absurd (afterPrefix_eq_some_iff.1 h) ?_
      have hne := JsString.append_ne_append (p := EntryKind.tool.separator)
        (q := EntryKind.model.separator) (by decide) (by decide) t t'
      rwa [EntryKind.separator_append] at hne
    rw [hafter, hmodel]
    exact if_neg ht

/-- What has a separator in it is split. -/
theorem isSome_splitRecord {a t : JsString} (ht : t ≠ []) :
    (splitRecord (a ++ (kind.separator ++ t))).isSome := by
  have hhead : (splitRecord (kind.separator ++ t)).isSome := by
    rw [EntryKind.separator_append, cons_append]
    rcases hlast : splitRecord (kind.word ++ sep :: t) with _ | ⟨p, k, t'⟩
    · rw [splitRecord_of_last ht hlast]
      rfl
    · rw [splitRecord, hlast]
      rfl
  obtain ⟨⟨p, k, t'⟩, h⟩ := Option.isSome_iff_exists.1 hhead
  rw [splitRecord_append h]
  rfl

variable {id : JsString}

theorem hasRecord_iff : HasRecord id ↔ (splitRecord (sep :: id)).isSome := by
  constructor
  · rintro ⟨a, kind, t, ht, h⟩
    rw [h]
    exact isSome_splitRecord ht
  · intro h
    obtain ⟨⟨p, kind, t⟩, h⟩ := Option.isSome_iff_exists.1 h
    obtain ⟨heq, ht⟩ := eq_of_splitRecord h
    exact ⟨p, kind, t, ht, by rw [heq, append_assoc]⟩

/-- What has no separator in it makes none with what follows a colon. -/
theorem splitRecord_after {a : JsString} (ha : hasRecordSegment a = false) (r : JsString) :
    splitRecord (a ++ sep :: r) =
      (splitRecord (sep :: r)).map fun (p, kind, t) => (a ++ p, kind, t) := by
  rcases hr : splitRecord (sep :: r) with _ | ⟨p, kind, t⟩
  · rcases h : splitRecord (a ++ sep :: r) with _ | ⟨p, kind, t⟩
    · rfl
    have hlen := length_of_splitRecord_append hr h
    obtain ⟨heq, -⟩ := eq_of_splitRecord h
    rw [append_assoc] at heq
    -- The separator begins before the colon.
    obtain ⟨c, rfl, hc⟩ : ∃ c, a = p ++ c ∧ kind.separator ++ t = c ++ sep :: r := by
      rcases append_eq_append_iff.1 heq with ⟨c, rfl, -⟩ | ⟨c, ha, hc⟩
      · rw [length_append] at hlen
        omega
      · exact ⟨c, ha, hc⟩
    have hne : c ≠ [] := by
      rintro rfl
      rw [append_nil] at hlen
      exact absurd hlen (lt_irrefl _)
    rw [EntryKind.separator_append, cons_append] at hc
    rw [hasRecordSegment_of_word kind hne (by simp) hc.symm] at ha
    contradiction
  · rw [splitRecord_append hr]
    rfl

/-- A record is split at its separator, unless its id is. -/
theorem splitRecord_separator (hid : id ≠ []) :
    splitRecord (kind.separator ++ id) = some ([], kind, id) ↔ ¬HasRecord id := by
  have hword : hasRecordSegment kind.word = false := hasRecordSegment_of_notMem kind.sep_notMem_word
  have hafter := splitRecord_after hword id
  rw [hasRecord_iff, EntryKind.separator_append, cons_append]
  rcases hs : splitRecord (sep :: id) with _ | ⟨p, k, t⟩
  · rw [hs, Option.map_none] at hafter
    simpa using splitRecord_of_last hid hafter
  · rw [hs, Option.map_some] at hafter
    rw [splitRecord, hafter]
    simp

section Parse

variable {a id : JsString} {kind : EntryKind}

/-- The key of a record is read as that of its run. -/
theorem parse_record (ha : hasRecordSegment a = false) (hline : a.any isLineTerminator = false)
    (hid : id ≠ []) : parseJournalKey (a ++ (kind.separator ++ id)) = some (a, kind) ↔
      ¬HasRecord id ∧ id.any isLineTerminator = false := by
  have hkind : kind.separator.any isLineTerminator = false := by cases kind <;> decide
  have hsep := EntryKind.separator_append kind id
  rw [cons_append] at hsep
  have hafter := splitRecord_after ha (kind.word ++ sep :: id)
  rw [← hsep] at hafter
  rw [parseJournalKey, any_append, any_append, hline, hkind, Bool.false_or, Bool.false_or,
    hafter, ← splitRecord_separator hid]
  rcases hany : id.any isLineTerminator with _ | _
  · rcases hs : splitRecord (kind.separator ++ id) with _ | ⟨p, k, t⟩
    · simp
    · have heq := (eq_of_splitRecord hs).1
      constructor
      · intro h
        obtain ⟨hp, rfl⟩ : a ++ p = a ∧ k = kind := by simpa using h
        obtain rfl : p = [] := append_cancel_left (hp.trans (append_nil a).symm)
        rw [nil_append, append_cancel_left_eq] at heq
        exact ⟨by rw [heq], rfl⟩
      · rintro ⟨h, -⟩
        obtain ⟨rfl, rfl, rfl⟩ := by simpa using h
        simp
  · simp

/-- A key that is none of a record is read as none. -/
theorem parse_none (ha : hasRecordSegment a = false) :
    parseJournalKey (a ++ sep :: id) = none ↔
      ¬HasRecord id ∨ (a ++ sep :: id).any isLineTerminator := by
  rw [parseJournalKey, splitRecord_after ha, hasRecord_iff]
  rcases (a ++ sep :: id).any isLineTerminator with _ | _ <;>
    rcases splitRecord (sep :: id) with _ | x <;> simp

end Parse

/-! ## Ids -/

theorem not_hasRecord_of_notMem (h : sep ∉ id) : ¬HasRecord id := by
  rintro ⟨a, kind, t, -, heq⟩
  have hcount := congrArg (List.count sep) heq
  have hsep : List.count sep kind.separator = 2 := by cases kind <;> decide
  rw [count_cons_self, count_eq_zero_of_not_mem h, count_append, count_append,
    hsep] at hcount
  omega

/-- A run id that is accepted. -/
structure SafeRunId (runId : JsString) : Prop where
  recordSegment : hasRecordSegment runId = false
  line : runId.any isLineTerminator = false

theorem safeRunId_of_ok {runId : JsString} (h : assertRunIdSafe runId = .ok ()) :
    SafeRunId runId := by
  refine ⟨(ownKeys_of_safe h).recordSegment, ?_⟩
  unfold assertRunIdSafe at h
  split_ifs at h with _ _ hspace
  have hline : [(0x0A : UInt16), 0x0D, 0x2028, 0x2029].all isSpaceOrControl = true := by decide
  rw [any_eq_false]
  intro u hu hterm
  refine hspace (any_eq_true.2 ⟨u, hu, all_eq_true.1 hline u ?_⟩)
  simpa [isLineTerminator] using hterm

/-- A thread id that is accepted has no separator, and makes none with a colon before it. -/
theorem hasRecordSegment_thread {threadId : JsString}
    (h : runKeys.assertThreadId threadId = .ok ()) : hasRecordSegment (sep :: threadId) = false := by
  by_contra hs
  obtain ⟨c, kind, ⟨a, ha⟩, hkind⟩ := hasRecordSegment_iff.1 (Bool.of_not_eq_false hs)
  obtain ⟨t, hc, ht⟩ : ∃ t, c = sep :: (kind.word ++ t) ∧ (t = [] ∨ ∃ t', t = sep :: t') := by
    rcases hkind with rfl | ⟨t, rfl⟩
    · exact ⟨[], by simp, .inl rfl⟩
    · exact ⟨sep :: t, by simp [EntryKind.separator], .inr ⟨t, rfl⟩⟩
  have hword : kind.word ∈ (kind.word ++ t).splitOn sep := by
    rcases ht with rfl | ⟨t', rfl⟩
    · rw [append_nil, splitOn_eq_singleton kind.sep_notMem_word]
      exact mem_singleton_self _
    · rw [splitOn_append_cons_self, splitOn_eq_singleton kind.sep_notMem_word]
      exact mem_append_left _ (mem_singleton_self _)
  have hmem : kind.word ∈ runKeys.segments threadId := by
    have hsplit : (sep :: threadId).splitOn sep = [] :: threadId.splitOn sep :=
      splitOn_append_cons_self [] threadId
    rw [← ha, hc, splitOn_append_cons_self] at hsplit
    have hin : kind.word ∈ [] :: threadId.splitOn sep := by
      rw [← hsplit]
      exact mem_append_right _ hword
    refine (mem_cons.1 hin).resolve_left ?_
    cases kind <;> decide
  unfold runKeys.assertThreadId at h
  split at h
  · contradiction
  · next hno => exact hno (by cases kind <;> simp_all [EntryKind.word])

variable {hash : JsString}

theorem argsHash_plain (h : isArgsHash hash) :
    sep ∉ hash ∧ hash.any isLineTerminator = false := by
  rw [isArgsHash, Bool.and_eq_true, all_eq_true] at h
  have hhex (u : UInt16) (hu : u ∈ hash) : 48 ≤ u ∧ u ≤ 57 ∨ 97 ≤ u ∧ u ≤ 102 := by
    simpa [isHexLower, isDigit] using h.2 u hu
  refine ⟨fun hsep => ?_, any_eq_false.2 fun u hu hline => ?_⟩
  · exact absurd (hhex sep hsep) (by decide)
  · have hrange := hhex u hu
    simp only [isLineTerminator, mem_cons, not_mem_nil, or_false,
      decide_eq_true_eq] at hline
    rcases hline with rfl | rfl | rfl | rfl <;> exact absurd hrange (by decide)

theorem decimal_plain (n : ℕ) : sep ∉ decimal n ∧ (decimal n).any isLineTerminator = false := by
  have hdigit (u : UInt16) (hu : u ∈ decimal n) : 48 ≤ u ∧ u ≤ 57 := by
    simpa [isDigit] using isDigit_of_mem_decimal hu
  refine ⟨fun hsep => absurd (hdigit sep hsep) (by decide), any_eq_false.2 fun u hu hline => ?_⟩
  have hrange := hdigit u hu
  simp only [isLineTerminator, mem_cons, not_mem_nil, or_false, decide_eq_true_eq] at hline
  rcases hline with rfl | rfl | rfl | rfl <;> exact absurd hrange (by decide)

/-- A word between colons, as the end of what is before it and the start of what follows. -/
theorem cut_key {w v : JsString} (h : w = sep :: (v ++ [sep])) (a t : JsString) :
    a ++ w ++ t = (a ++ sep :: v) ++ sep :: t := by
  rw [h]
  simp

variable {toolName key : JsString}

theorem toolByArgs_spells {runId : JsString} (h : runKeys.toolByArgs runId toolName hash = .ok key) :
    sep ∉ toolName ∧ runId ++ js ":tool:args-" ++ toolName ++ js "-" ++ hash = key := by
  unfold runKeys.toolByArgs runKeys.assertNoColonInToolName at h
  split at h
  · contradiction
  · next hname => exact ⟨hname, Except.ok.inj h⟩

theorem toolCrossRun_spells (h : runKeys.toolCrossRun toolName hash = .ok key) :
    sep ∉ toolName ∧ js "xrun:args-" ++ toolName ++ js "-" ++ hash = key := by
  unfold runKeys.toolCrossRun runKeys.assertNoColonInToolName at h
  split at h
  · contradiction
  · next hname => exact ⟨hname, Except.ok.inj h⟩

theorem toolCrossRunOwner_spells (h : runKeys.toolCrossRunOwner toolName hash = .ok key) :
    sep ∉ toolName ∧ js "xrun:owner-" ++ toolName ++ js "-" ++ hash = key := by
  unfold runKeys.toolCrossRunOwner runKeys.assertNoColonInToolName at h
  split at h
  · contradiction
  · next hname => exact ⟨hname, Except.ok.inj h⟩

theorem ok_of_assertThreadId {threadId : JsString} {next : Except ToolError JsString}
    (h : (do runKeys.assertThreadId threadId; next) = .ok key) :
    runKeys.assertThreadId threadId = .ok () ∧ next = .ok key := by
  rcases hthread : runKeys.assertThreadId threadId with e | u
  · rw [hthread] at h
    contradiction
  · rw [hthread] at h
    exact ⟨rfl, h⟩

/-- What is named by a tool and its arguments has no colon. -/
theorem argsId_plain (hname : sep ∉ toolName) (hhash : sep ∉ hash) :
    ¬HasRecord (js "args-" ++ toolName ++ js "-" ++ hash) := by
  refine not_hasRecord_of_notMem fun h => ?_
  simp only [mem_append] at h
  rcases h with ((h | h) | h) | h
  · exact absurd h (by decide)
  · exact hname h
  · exact absurd h (by decide)
  · exact hhash h

/-! ## Keys are named by their last id -/

section Named

variable {P : Type} {key runId a id : JsString} {kind : EntryKind}

namespace JournalKey

theorem isRecordOf_iff :
    IsRecordOf P key runId kind ↔ parseJournalKey key = some (runId, kind) := by
  refine ⟨fun h => h.parse, fun h => ⟨h, fun value => ?_⟩⟩
  rw [runIdOfKey, h]

/-- The record of a run. -/
theorem isRecordOf_key (hrun : SafeRunId runId) (hid : id ≠ []) :
    IsRecordOf P (runId ++ (kind.separator ++ id)) runId kind ↔
      ¬HasRecord id ∧ id.any isLineTerminator = false := by
  rw [isRecordOf_iff]
  exact parse_record hrun.recordSegment hrun.line hid

/-- The input of a run. -/
theorem input_named (hrun : SafeRunId runId) : (input runId).Named P (runKeys.input runId) := by
  have hkey : runKeys.input runId = runId ++ sep :: js "input" := by
    rw [runKeys.input, show js ":input" = sep :: js "input" by decide]
  have hnone : parseJournalKey (runKeys.input runId) = none := by
    rw [hkey]
    exact (parse_none hrun.recordSegment).2 (.inl (not_hasRecord_of_notMem (by decide)))
  refine ⟨hnone, fun value hv => ?_⟩
  have hline : (runKeys.input runId).any isLineTerminator = false := by
    rw [runKeys.input, any_append, hrun.line]
    decide
  rw [runIdOfKey, hnone]
  simp only [hline, hv, not_true_eq_false, or_self, Bool.false_eq_true, if_false]
  exact beforeEnd_eq_some_iff.2 rfl

/-- A key that is read as none is read as what it is. -/
theorem named_of_none {o : Option JsString} (h : parseJournalKey key = none) :
    ∀ r kind, parseJournalKey key = some (r, kind) → r ∈ o := by
  intro r kind hr
  rw [h] at hr
  contradiction

/-- A key that is not read as its writer's is read as what it is if it is read as none. -/
theorem none_iff {o : Option JsString}
    (ho : ∀ r kind, parseJournalKey key = some (r, kind) → r ∉ o) :
    (∀ r kind, parseJournalKey key = some (r, kind) → r ∈ o) ↔ parseJournalKey key = none := by
  refine ⟨fun h => ?_, named_of_none⟩
  rcases hp : parseJournalKey key with _ | ⟨r, kind⟩
  · rfl
  · exact absurd (h r kind hp) (ho r kind hp)

variable {v : JsString}

/-- Another key of a run. -/
theorem runKey_named_iff (hrun : SafeRunId runId) (hv : hasRecordSegment (sep :: v) = false)
    (w : JsString) (hw : w = sep :: (v ++ [sep])) :
    (∀ r kind, parseJournalKey (runId ++ w ++ id) = some (r, kind) → r ∈ some runId) ↔
      ¬HasRecord id ∨ (runId ++ w ++ id).any isLineTerminator := by
  rw [none_iff, cut_key hw]
  · exact parse_none (hasRecordSegment_append hrun.recordSegment hv)
  · rintro r kind hr hmem
    obtain rfl := Option.some.inj (Option.mem_def.1 hmem)
    obtain ⟨t, -, heq⟩ := eq_of_parseJournalKey hr
    rw [append_assoc, append_cancel_left_eq, hw] at heq
    -- The word before the id would be the kind of a record.
    have hcut : (sep :: v) ++ sep :: id = sep :: (kind.word ++ sep :: t) := by
      rw [EntryKind.separator_append] at heq
      simpa using heq
    have hseg := hasRecordSegment_of_word (a := []) kind (cons_ne_nil sep v) (by simp) hcut
    rw [nil_append, hv] at hseg
    contradiction

/-- A key of a run whose end does not depend on anything. -/
theorem runKey_named {r w : JsString} (hrun : SafeRunId runId) (hr : ¬HasRecord r)
    (hw : w = sep :: r) :
    ∀ r kind, parseJournalKey (runId ++ w) = some (r, kind) → r ∈ some runId := by
  rw [hw]
  exact named_of_none ((parse_none hrun.recordSegment).2 (.inl hr))

/-- What is before an id, up to a colon. -/
theorem preKey_none_iff (hv : hasRecordSegment v = false) (w : JsString) (hw : w = v ++ [sep]) :
    parseJournalKey (w ++ id) = none ↔
      ¬HasRecord id ∨ (w ++ id).any isLineTerminator := by
  have hkey : w ++ id = v ++ sep :: id := by rw [hw]; simp
  rw [hkey]
  exact parse_none hv

/-- After a word and a colon, an id is not the start of its own record. -/
theorem not_own_record {t : JsString} (hrun : SafeRunId runId) (hv : sep ∉ v) :
    v ++ sep :: runId ≠ runId ++ (kind.separator ++ t) := by
  intro h
  have hword : sep :: v ≠ kind.separator ++ t := by
    intro hword
    rw [EntryKind.separator_append, cons_append, List.cons.injEq] at hword
    exact hv (by rw [hword.2]; simp)
  rcases append_eq_append_iff.1 h with ⟨c, rfl, hc⟩ | ⟨c, rfl, hc⟩
  · rcases c with _ | ⟨u, c⟩
    · rw [append_nil, nil_append] at hc
      exact hword hc
    · obtain ⟨rfl, hc⟩ := List.cons.inj hc
      have hseg : hasRecordSegment (v ++ sep :: c) = true :=
        hasRecordSegment_iff.2
          ⟨kind.separator ++ t, kind, ⟨c, hc.symm⟩, .inr (prefix_append _ t)⟩
      rw [hrun.recordSegment] at hseg
      contradiction
  · rcases c with _ | ⟨u, c⟩
    · rw [append_nil] at hword
      exact hword hc.symm
    · rw [EntryKind.separator_append, cons_append, cons_append, List.cons.injEq] at hc
      exact hv (by rw [← hc.1]; simp)

/-- The id of a run, after a word. -/
theorem wordKey_named_iff (hrun : SafeRunId runId) (hv : sep ∉ v)
    (hline : v.any isLineTerminator = false) (w : JsString) (hw : w = v ++ [sep]) :
    (∀ r kind, parseJournalKey (w ++ runId) = some (r, kind) → r ∈ some runId) ↔
      ¬HasRecord runId := by
  have hvs : hasRecordSegment v = false := hasRecordSegment_of_notMem hv
  have hany : (w ++ runId).any isLineTerminator = false := by
    rw [hw, any_append, any_append, hline, hrun.line]
    decide
  rw [none_iff, preKey_none_iff hvs w hw, hany]
  · simp
  · rintro r kind hr hmem
    obtain rfl := Option.some.inj (Option.mem_def.1 hmem)
    obtain ⟨t, -, heq⟩ := eq_of_parseJournalKey hr
    exact not_own_record hrun hv (by rw [← heq, hw]; simp)

/-- A key of a thread. -/
theorem threadKey_named_iff {threadId : JsString} (h : runKeys.assertThreadId threadId = .ok ())
    (hv : hasRecordSegment v = false) (w : JsString) (hw : w = v ++ [sep]) :
    (∀ r kind, parseJournalKey (w ++ threadId ++ js ":" ++ id) = some (r, kind) → r ∈ none) ↔
      ¬HasRecord id ∨ (w ++ threadId ++ js ":" ++ id).any isLineTerminator := by
  have hkey : w ++ threadId ++ js ":" ++ id = (v ++ sep :: threadId) ++ sep :: id := by
    rw [hw, show js ":" = [sep] by decide]
    simp
  rw [none_iff fun _ _ _ => Option.not_mem_none _, hkey]
  exact parse_none (hasRecordSegment_append hv (hasRecordSegment_thread h))

/-- A key of a family of a thread. -/
theorem threadKey_named_iff_of_family {threadId toolName hash : JsString}
    (h : runKeys.assertThreadId threadId = .ok ()) (family w : JsString) (hw : w = js ":" ++ family) :
    (∀ r kind, parseJournalKey (js "xthr:" ++ threadId ++ w ++ toolName ++ js "-" ++ hash) =
        some (r, kind) → r ∈ none) ↔
      ¬HasRecord (family ++ toolName ++ js "-" ++ hash) ∨
        (js "xthr:" ++ threadId ++ w ++ toolName ++ js "-" ++ hash).any isLineTerminator := by
  have hkey : js "xthr:" ++ threadId ++ w ++ toolName ++ js "-" ++ hash =
      js "xthr:" ++ threadId ++ js ":" ++ (family ++ toolName ++ js "-" ++ hash) := by
    rw [hw]
    simp
  rw [hkey]
  exact threadKey_named_iff (v := js "xthr") h (by decide) _ (by decide)

/-- A key of the calls of all runs. -/
theorem xrun_named {toolName hash family : JsString} (hname : sep ∉ toolName) (hhash : sep ∉ hash)
    (hfamily : sep ∉ family) (w : JsString) (hw : w = js "xrun:" ++ family) :
    ∀ r kind, parseJournalKey (w ++ toolName ++ js "-" ++ hash) = some (r, kind) → r ∈ none := by
  have hkey : w ++ toolName ++ js "-" ++ hash =
      js "xrun:" ++ (family ++ toolName ++ js "-" ++ hash) := by
    rw [hw]
    simp
  rw [hkey]
  refine named_of_none ((preKey_none_iff (v := js "xrun") (by decide) _ (by decide)).2 (.inl ?_))
  refine not_hasRecord_of_notMem fun h => ?_
  simp only [mem_append] at h
  rcases h with ((h | h) | h) | h
  · exact hfamily h
  · exact hname h
  · exact absurd h (by decide)
  · exact hhash h

/-- A key is read as what it is if and only if its ids are clear. -/
theorem named_iff {k : JournalKey} (h : k.Accepted key) : k.Named P key ↔ k.Clear key := by
  have hrun (runId : JsString) (hmem : runId ∈ k.runId?) : SafeRunId runId :=
    safeRunId_of_ok (h.run runId hmem)
  have hbuilt := h.built
  rcases k with ⟨runId, step⟩ | ⟨runId, toolCallId⟩ | ⟨runId, toolName, hash⟩ | runId |
    ⟨runId, toolCallId⟩ | ⟨runId, name⟩ | runId | runId | runId | runId | ⟨runId, i⟩ | ⟨runId, i⟩ |
    ⟨runId, i⟩ | runId | runId | runId | ⟨threadId, leaf⟩ | ⟨threadId, toolName, hash⟩ |
    ⟨threadId, toolName, hash⟩ | ⟨threadId, toolName, hash⟩ | ⟨threadId, toolName, prior, new⟩ |
    ⟨threadId, toolName, h₁, h₂⟩ | ⟨toolName, hash⟩ | ⟨toolName, hash⟩ | ⟨resourceId, toolName, hash⟩
  case model =>
    obtain rfl := Except.ok.inj hbuilt
    obtain ⟨hsep, hline⟩ := decimal_plain step
    rw [model_eq]
    exact iff_of_true ((isRecordOf_key (hrun runId rfl) (decimal_ne_nil step)).2
      ⟨not_hasRecord_of_notMem hsep, hline⟩) trivial
  case tool =>
    obtain rfl := Except.ok.inj hbuilt
    rw [tool_eq]
    refine isRecordOf_key (hrun runId rfl) ?_
    rintro rfl
    exact (h.toolCallId runId).1 rfl
  case toolByArgs =>
    obtain ⟨hname, rfl⟩ := toolByArgs_spells hbuilt
    have hhash := argsHash_plain (h.hash hash (.head _))
    have hkey : runId ++ js ":tool:args-" ++ toolName ++ js "-" ++ hash =
        runId ++ (EntryKind.tool.separator ++ (js "args-" ++ toolName ++ js "-" ++ hash)) := by
      rw [show js ":tool:args-" = EntryKind.tool.separator ++ js "args-" by decide]
      simp
    have hplain := argsId_plain hname hhash.1
    have hne : js "args-" ++ toolName ++ js "-" ++ hash ≠ [] := by
      rw [show js "args-" = 0x61 :: js "rgs-" by decide]
      simp
    rw [hkey]
    refine (isRecordOf_key (hrun runId rfl) hne).trans ⟨fun hclear => ?_, fun hclear => ⟨hplain, ?_⟩⟩
    · have hany := hclear.2
      simp only [any_append, Bool.or_eq_false_iff] at hany
      exact hany.1.1.2
    · have hname' : toolName.any isLineTerminator = false := hclear
      rw [any_append, any_append, any_append, hname', hhash.2]
      decide
  case input =>
    obtain rfl := Except.ok.inj hbuilt
    exact iff_of_true (input_named (hrun runId rfl)) trivial
  case approval =>
    obtain rfl := Except.ok.inj hbuilt
    exact runKey_named_iff (v := js "approval") (hrun runId rfl) (by decide) _ (by decide)
  case proc =>
    obtain rfl := Except.ok.inj hbuilt
    exact runKey_named_iff (v := js "proc") (hrun runId rfl) (by decide) _ (by decide)
  case cfgModel =>
    obtain rfl := Except.ok.inj hbuilt
    exact iff_of_true (runKey_named (hrun runId rfl) (r := js "cfg:model")
      (by rw [hasRecord_iff]; decide) (by decide)) trivial
  case cfgLimits =>
    obtain rfl := Except.ok.inj hbuilt
    exact iff_of_true (runKey_named (hrun runId rfl) (r := js "cfg:limits")
      (by rw [hasRecord_iff]; decide) (by decide)) trivial
  case outcome =>
    obtain rfl := Except.ok.inj hbuilt
    exact iff_of_true (runKey_named (hrun runId rfl) (r := js "outcome")
      (by rw [hasRecord_iff]; decide) (by decide)) trivial
  case memoryContext =>
    obtain rfl := Except.ok.inj hbuilt
    exact iff_of_true (runKey_named (hrun runId rfl) (r := js "memctx")
      (by rw [hasRecord_iff]; decide) (by decide)) trivial
  case netRoute =>
    obtain rfl := Except.ok.inj hbuilt
    refine iff_of_true ((runKey_named_iff (v := js "net:route") (hrun runId rfl) (by decide) _
      (by decide)).2 (.inl ?_)) trivial
    rcases i with _ | i
    · exact not_hasRecord_of_notMem (by decide)
    · exact not_hasRecord_of_notMem (decimal_plain i).1
  case netStep =>
    obtain rfl := Except.ok.inj hbuilt
    exact iff_of_true ((runKey_named_iff (v := js "net:step") (hrun runId rfl) (by decide) _
      (by decide)).2 (.inl (not_hasRecord_of_notMem (decimal_plain i).1))) trivial
  case netVeto =>
    obtain rfl := Except.ok.inj hbuilt
    exact iff_of_true ((runKey_named_iff (v := js "net:veto") (hrun runId rfl) (by decide) _
      (by decide)).2 (.inl (not_hasRecord_of_notMem (decimal_plain i).1))) trivial
  case memAppended =>
    obtain rfl := Except.ok.inj hbuilt
    exact wordKey_named_iff (v := js "mem-appended") (hrun runId rfl) (by decide) (by decide) _
      (by decide)
  case memUserAppended =>
    obtain rfl := Except.ok.inj hbuilt
    exact wordKey_named_iff (v := js "mem-user-appended") (hrun runId rfl) (by decide) (by decide) _
      (by decide)
  case workflowStatus =>
    obtain rfl := Except.ok.inj hbuilt
    exact wordKey_named_iff (v := js "wfrun") (hrun runId rfl) (by decide) (by decide) _ (by decide)
  case mem =>
    obtain ⟨hthread, hkey⟩ := ok_of_assertThreadId hbuilt
    obtain rfl := Except.ok.inj hkey
    refine iff_of_true ((threadKey_named_iff (v := js "mem") hthread (by decide) _ (by decide)).2
      (.inl (not_hasRecord_of_notMem ?_))) trivial
    have hleaves : ∀ leaf ∈ MEM_LEAVES, sep ∉ leaf := by decide
    exact hleaves leaf (h.leaf threadId leaf rfl)
  case toolThread =>
    obtain ⟨hthread, hkey⟩ := ok_of_assertThreadId hbuilt
    unfold runKeys.assertNoColonInToolName at hkey
    split at hkey
    · contradiction
    · next hname =>
      obtain rfl := Except.ok.inj hkey
      have hhash := argsHash_plain (h.hash hash (.head _))
      exact iff_of_true ((threadKey_named_iff_of_family hthread (js "args-") _ (by decide)).2
        (.inl (argsId_plain hname hhash.1))) trivial
  case threadDupMarker =>
    obtain ⟨hthread, hkey⟩ := ok_of_assertThreadId hbuilt
    obtain rfl := Except.ok.inj hkey
    exact threadKey_named_iff_of_family hthread (js "dup-") _ (by decide)
  case sem =>
    obtain ⟨hthread, hkey⟩ := ok_of_assertThreadId hbuilt
    obtain rfl := Except.ok.inj hkey
    exact threadKey_named_iff_of_family hthread (js "sem-") _ (by decide)
  case semTomb =>
    obtain ⟨hthread, hkey⟩ := ok_of_assertThreadId hbuilt
    obtain rfl := Except.ok.inj hkey
    have hiff := @threadKey_named_iff_of_family _ toolName
      (prior ++ js "-" ++ new) hthread (js "semtomb-") (js ":semtomb-") (by decide)
    simp only [← append_assoc] at hiff
    exact hiff
  case semJudge =>
    obtain ⟨hthread, hkey⟩ := ok_of_assertThreadId hbuilt
    obtain rfl := Except.ok.inj hkey
    have hiff := @threadKey_named_iff_of_family _ toolName
      ((inOrder h₁ h₂).1 ++ js "-" ++ (inOrder h₁ h₂).2) hthread (js "semjudge-")
      (js ":semjudge-") (by decide)
    simp only [← append_assoc] at hiff
    exact hiff
  case toolCrossRun =>
    obtain ⟨hname, rfl⟩ := toolCrossRun_spells hbuilt
    have hhash := argsHash_plain (h.hash hash (.head _))
    exact iff_of_true
      (@xrun_named _ _ (js "args-") hname hhash.1 (by decide) _ (by decide)) trivial
  case toolCrossRunOwner =>
    obtain ⟨hname, rfl⟩ := toolCrossRunOwner_spells hbuilt
    have hhash := argsHash_plain (h.hash hash (.head _))
    exact iff_of_true
      (@xrun_named _ _ (js "owner-") hname hhash.1 (by decide) _ (by decide)) trivial
  case xid =>
    obtain rfl := Except.ok.inj hbuilt
    have hiff := @preKey_none_iff (resourceId ++ js ":" ++ toolName ++ js ":" ++ hash)
      (js "xid:res") (by decide) (js "xid:res:") (by decide)
    simp only [← append_assoc] at hiff
    exact (none_iff fun _ _ _ => Option.not_mem_none _).trans hiff

end JournalKey

end Named

end Gnldev.Durable
