import Gnldev.Durable.RunId
import Gnldev.Durable.Tool.Record
import Mathlib.Data.List.Infix

/-!
# The keys of a run

Every key of a run starts with its id. What the journal can tell from a key alone
(`journal.ts`, `run.ts`) is whose *record* it is: that of a model step or of a tool
call, by the last separator `:model:` or `:tool:` in it (`parseJournalKey`). A run
id that has such a separator, or would make one, is refused (`assertRunIdSafe`), so
that the keys of two runs are different (`eq_of_record_keys`).
-/

open List

namespace Gnldev.Durable

/-- The records that a run is replayed from. -/
inductive EntryKind where
  | model | tool
  deriving DecidableEq

namespace EntryKind

def word : EntryKind → JsString
  | model => js "model"
  | tool => js "tool"

/-- `:model:` or `:tool:`. -/
def separator (kind : EntryKind) : JsString := sep :: kind.word ++ [sep]

end EntryKind

namespace runKeys

def model (runId step : JsString) : JsString := runId ++ EntryKind.model.separator ++ step

end runKeys

/-! ## Reading a key -/

/-- What `.` does not match. -/
def isLineTerminator (u : UInt16) : Bool := u ∈ [0x0A, 0x0D, 0x2028, 0x2029]

/-- A key at its last separator that has something after it. -/
def splitRecord : JsString → Option (JsString × EntryKind × JsString)
  | [] => none
  | u :: s =>
    match splitRecord s with
    | some (p, kind, t) => some (u :: p, kind, t)
    | none =>
      match afterPrefix EntryKind.model.separator (u :: s),
        afterPrefix EntryKind.tool.separator (u :: s) with
      | some t, _ => if t = [] then none else some ([], .model, t)
      | none, some t => if t = [] then none else some ([], .tool, t)
      | none, none => none

/-- The run and the kind of a record, by its key: `^(.*):(model|tool):.+$`. -/
def parseJournalKey (key : JsString) : Option (JsString × EntryKind) :=
  if key.any isLineTerminator then none
  else (splitRecord key).map fun (runId, kind, _) => (runId, kind)

/-- What follows the last `:model:` of a key. -/
def afterLastModel : JsString → Option JsString
  | [] => none
  | u :: s => (afterLastModel s).or (afterPrefix EntryKind.model.separator (u :: s))

variable {p s t : JsString}

theorem afterPrefix_eq_some_iff : afterPrefix p s = some t ↔ s = p ++ t := by
  unfold afterPrefix
  split
  · next h =>
    obtain ⟨r, rfl⟩ := JsString.startsWith_iff.1 h
    rw [drop_left, Option.some.injEq, append_cancel_left_eq]
  · next h =>
    refine ⟨fun h => by contradiction, fun e => absurd ?_ h⟩
    exact JsString.startsWith_iff.2 ⟨t, e.symm⟩

variable {key : JsString} {kind : EntryKind}

/-- A key that is split is the concatenation of its parts. -/
theorem eq_of_splitRecord (h : splitRecord key = some (p, kind, t)) :
    key = p ++ kind.separator ++ t ∧ t ≠ [] := by
  induction key generalizing p with
  | nil => contradiction
  | cons u s ih =>
    unfold splitRecord at h
    split at h
    · next hs =>
      obtain ⟨rfl, rfl, rfl⟩ := by simpa using h
      obtain ⟨hs, ht⟩ := ih hs
      exact ⟨congrArg (u :: ·) hs, ht⟩
    · split at h
      all_goals
        first
        | contradiction
        | split at h
          · contradiction
          · next hp ht =>
            obtain ⟨rfl, rfl, rfl⟩ := by simpa using h
            exact ⟨by simpa using afterPrefix_eq_some_iff.1 ‹_›, ht⟩

variable {runId : JsString}

theorem splitRecord_of_parseJournalKey (h : parseJournalKey key = some (runId, kind)) :
    ∃ t, splitRecord key = some (runId, kind, t) := by
  unfold parseJournalKey at h
  split at h
  · contradiction
  · obtain ⟨⟨p, k, t⟩, hsplit, h⟩ := Option.map_eq_some_iff.1 h
    obtain ⟨rfl, rfl⟩ := by simpa using h
    exact ⟨t, hsplit⟩

theorem eq_of_parseJournalKey (h : parseJournalKey key = some (runId, kind)) :
    ∃ t, t ≠ [] ∧ key = runId ++ (kind.separator ++ t) := by
  obtain ⟨t, hsplit⟩ := splitRecord_of_parseJournalKey h
  obtain ⟨hkey, ht⟩ := eq_of_splitRecord hsplit
  exact ⟨t, ht, by rw [hkey, append_assoc]⟩

section Split

variable {p k r t : JsString} {kind : EntryKind}

theorem parseJournalKey_of_split (hline : k.any isLineTerminator = false)
    (h : splitRecord k = some (r, kind, t)) : parseJournalKey k = some (r, kind) := by
  rw [parseJournalKey, if_neg (by rw [hline]; exact Bool.false_ne_true), h, Option.map_some]

/-- The last separator of a key is where it was before. -/
theorem splitRecord_append (h : splitRecord k = some (r, kind, t)) (p : JsString) :
    splitRecord (p ++ k) = some (p ++ r, kind, t) := by
  induction p with
  | nil => exact h
  | cons u p ih => rw [cons_append, splitRecord, ih, cons_append]

/-- A separator that was not there begins in the prefix. -/
theorem length_of_splitRecord_append (h : splitRecord k = none)
    (hp : splitRecord (p ++ k) = some (r, kind, t)) : r.length < p.length := by
  induction p generalizing r with
  | nil =>
    rw [nil_append, h] at hp
    contradiction
  | cons u p ih =>
    rw [cons_append, splitRecord] at hp
    split at hp
    · next r' kind' t' hs =>
      obtain ⟨rfl, rfl, rfl⟩ := by simpa using hp
      exact Nat.succ_lt_succ (ih hs)
    · have hr : r = [] := by
        split at hp
        · split at hp
          · contradiction
          · obtain ⟨rfl, -⟩ := by simpa using hp
            rfl
        · split at hp
          · contradiction
          · obtain ⟨rfl, -⟩ := by simpa using hp
            rfl
        · contradiction
      rw [hr]
      exact Nat.succ_pos _

end Split

/-- A key that cannot be split has nothing after its last `:model:`. -/
theorem afterLastModel_of_splitRecord_none (h : splitRecord s = none) :
    afterLastModel s = none ∨ afterLastModel s = some [] := by
  induction s with
  | nil => exact .inl rfl
  | cons u s ih =>
    rw [afterLastModel]
    unfold splitRecord at h
    split at h
    · contradiction
    · next hs =>
      rcases ih hs with ih | ih
      · rw [ih, Option.none_or]
        split at h
        · next t ht =>
          by_cases he : t = []
          · exact .inr (by rw [ht, he])
          · simp [he] at h
        · next ht _ => exact .inl ht
        · next ht _ => exact .inl ht
      · exact .inr (by rw [ih, Option.some_or])

/-- The last `:model:` of the key of a model step is the one it is split at, unless the
    key ends in another one. -/
theorem afterLastModel_of_splitRecord (h : splitRecord key = some (p, .model, t)) :
    afterLastModel key = some t ∨ afterLastModel key = some [] := by
  induction key generalizing p with
  | nil => contradiction
  | cons u s ih =>
    rw [afterLastModel]
    unfold splitRecord at h
    split at h
    · next hs =>
      obtain ⟨rfl, rfl, rfl⟩ := by simpa using h
      rcases ih hs with ih | ih
      · exact .inl (by rw [ih, Option.some_or])
      · exact .inr (by rw [ih, Option.some_or])
    · next hs =>
      rcases afterLastModel_of_splitRecord_none hs with hlast | hlast
      · rw [hlast, Option.none_or]
        split at h
        · next t' _ ht =>
          split at h
          · contradiction
          · obtain ⟨-, rfl⟩ := by simpa using h
            exact .inl ht
        · split at h
          · contradiction
          · simp at h
        · contradiction
      · exact .inr (by rw [hlast, Option.some_or])

/-! ## Ids of runs -/

/-- The engine's own families of keys. -/
def RESERVED_KEY_ROOTS : List JsString :=
  [js "mem", js "xthr", js "xid", js "xrun", js "om", js "thread", js "lesson", js "sugg",
    js "suggstats", js "org", js "res"]

/-- White space, and control characters: `[\u0000-\u001f\u007f\s]`. -/
def isSpaceOrControl (u : UInt16) : Bool :=
  u ≤ 0x20 ∨ u = 0x7F ∨ u = 0xA0 ∨ u = 0x1680 ∨ (0x2000 ≤ u ∧ u ≤ 0x200A) ∨ u = 0x2028 ∨
    u = 0x2029 ∨ u = 0x202F ∨ u = 0x205F ∨ u = 0x3000 ∨ u = 0xFEFF

/-- The part of a key before its first colon. -/
def keyRoot (key : JsString) : JsString := key.takeWhile (· ≠ sep)

/-- `:(?:model|tool)(?::|$)`. -/
def hasRecordSegment (s : JsString) : Bool :=
  s.tails.any fun t => [EntryKind.model, .tool].any fun kind =>
    t = sep :: kind.word || kind.separator.isPrefixOf t

/-- A part of the id that has a `#` is a derived id. -/
def onlyEmbeddedDerivedHashes (runId : JsString) : Bool :=
  (runId.splitOn sep).all fun segment => 35 ∉ segment || isDerivedRunId segment

/-- Why an id is refused. -/
inductive RunIdRefusal where
  | empty
  | tooLong
  | spaceOrControl
  | notDerived
  | hash
  | reservedRoot
  | recordSegment
  deriving DecidableEq

/-- A run id keeps to its own keys. -/
def assertRunIdSafe (runId : JsString) : Except RunIdRefusal Unit :=
  if runId.length = 0 then .error .empty
  else if 512 < runId.length then .error .tooLong
  else if runId.any isSpaceOrControl then .error .spaceOrControl
  else if runId.startsWith DERIVED_RUN_ID_PREFIX && !isDerivedRunId runId then .error .notDerived
  else if !runId.startsWith DERIVED_RUN_ID_PREFIX && 35 ∈ runId && !onlyEmbeddedDerivedHashes runId
    then .error .hash
  else if keyRoot runId ∈ RESERVED_KEY_ROOTS ∨ (keyRoot runId).startsWith (js "__") then
    .error .reservedRoot
  else if hasRecordSegment runId then .error .recordSegment
  else .ok ()

/-- What keeps the keys of a run its own. -/
structure OwnKeys (runId : JsString) : Prop where
  recordSegment : hasRecordSegment runId = false
  root : keyRoot runId ∉ RESERVED_KEY_ROOTS

theorem ownKeys_of_safe (h : assertRunIdSafe runId = .ok ()) :
    OwnKeys runId := by
  unfold assertRunIdSafe at h
  split_ifs at h with _ _ _ _ _ hroot hsegment
  exact ⟨by simpa using hsegment, fun hmem => hroot (.inl hmem)⟩

theorem keyRoot_append (s z : JsString) : keyRoot (s ++ sep :: z) = keyRoot s := by
  unfold keyRoot
  induction s with
  | nil => rfl
  | cons u s ih =>
    rw [cons_append, takeWhile_cons, takeWhile_cons, ih]

theorem keyRoot_of_notMem (h : sep ∉ s) : keyRoot s = s := by
  have hall : ∀ u ∈ s, decide (u ≠ sep) = true := fun u hu =>
    decide_eq_true fun he => h (he ▸ hu)
  have htake : (s ++ []).takeWhile _ = s ++ [].takeWhile _ := takeWhile_append_of_pos hall
  rwa [append_nil, takeWhile_nil, append_nil] at htake

/-! ## Keys of different runs -/

theorem tool_eq (runId x : JsString) :
    runKeys.tool runId x = runId ++ (EntryKind.tool.separator ++ x) := by
  rw [runKeys.tool, append_assoc, show js ":tool:" = EntryKind.tool.separator by decide]

theorem model_eq (runId x : JsString) :
    runKeys.model runId x = runId ++ (EntryKind.model.separator ++ x) :=
  append_assoc ..

theorem tool_ne_model (runId x y : JsString) : runKeys.tool runId x ≠ runKeys.model runId y := by
  rw [tool_eq, model_eq]
  intro h
  exact absurd (append_cancel_left h) (JsString.append_ne_append (by decide) (by decide) x y)

theorem input_ne_separator (kind : EntryKind) (t : JsString) :
    js ":input" ≠ kind.separator ++ t := by
  have h := JsString.append_ne_append (p := js ":input") (q := kind.separator)
    (by cases kind <;> decide) (by cases kind <;> decide) [] t
  rwa [append_nil] at h

/-- What follows the id in a key that is read as a run's: its input, or a record. -/
inductive OwnTail : JsString → Prop where
  | input : OwnTail (js ":input")
  | record (kind : EntryKind) (t : JsString) : OwnTail (kind.separator ++ t)

variable {c r : JsString}

/-- A word between colons cannot be cut by a colon. -/
theorem word_prefix {w : JsString} (hc : c ≠ []) (hw : sep ∉ w)
    (h : c ++ sep :: r = sep :: (w ++ t)) : sep :: w <+: c := by
  obtain ⟨u, c, rfl⟩ := exists_cons_of_ne_nil hc
  rw [cons_append, List.cons.injEq] at h
  obtain ⟨rfl, h⟩ := h
  refine (prefix_cons_inj _).2 ?_
  rcases append_eq_append_iff.1 h with ⟨d, rfl, hd⟩ | ⟨d, rfl, -⟩
  · cases d with
    | nil => exact ⟨[], by simp⟩
    | cons v d =>
      obtain ⟨rfl, -⟩ := cons_eq_cons.1 hd
      exact absurd (by simp) hw
  · exact prefix_append w d

theorem hasRecordSegment_iff : hasRecordSegment s = true ↔
    ∃ (c : JsString) (kind : EntryKind), c <:+ s ∧
      (c = sep :: kind.word ∨ kind.separator <+: c) := by
  rw [hasRecordSegment, any_eq_true]
  constructor
  · rintro ⟨c, hc, hkind⟩
    obtain ⟨kind, -, hkind⟩ := any_eq_true.1 hkind
    exact ⟨c, kind, (mem_tails _ _).1 hc, by simpa using hkind⟩
  · rintro ⟨c, kind, hc, hkind⟩
    refine ⟨c, (mem_tails _ _).2 hc, any_eq_true.2 ⟨kind, ?_, by simpa using hkind⟩⟩
    rcases kind with _ | _ <;> decide

theorem hasRecordSegment_of_notMem (h : sep ∉ s) : hasRecordSegment s = false := by
  by_contra hs
  obtain ⟨c, kind, hc, hkind⟩ := hasRecordSegment_iff.1 (Bool.of_not_eq_false hs)
  refine h (hc.subset ?_)
  rcases hkind with rfl | hkind
  · exact mem_cons_self
  · exact hkind.subset mem_cons_self

variable {a : JsString}

/-- What ends where the word of a separator does, or with the separator. -/
theorem hasRecordSegment_of_word (kind : EntryKind) (hc : c ≠ []) (ht : ∀ u ∈ t.head?, u = sep)
    (h : c ++ sep :: r = sep :: (kind.word ++ t)) :
    hasRecordSegment (a ++ c) = true := by
  have hword : sep ∉ kind.word := by cases kind <;> decide
  obtain ⟨d, rfl⟩ := word_prefix hc hword h
  refine hasRecordSegment_iff.2 ⟨_, kind, suffix_append a _, ?_⟩
  cases d with
  | nil => exact .inl (append_nil _)
  | cons v d =>
    have hv : v = sep := by
      simp only [cons_append, append_assoc, List.cons.injEq,
        append_cancel_left_eq, true_and] at h
      exact ht v (by rw [← h, head?_cons, Option.mem_some])
    exact .inr ⟨d, by simp [EntryKind.separator, hv]⟩

/-- What is put after a colon makes no separator with what is before it. -/
theorem hasRecordSegment_append (ha : hasRecordSegment a = false)
    (hr : hasRecordSegment (sep :: r) = false) : hasRecordSegment (a ++ sep :: r) = false := by
  by_contra hs
  obtain ⟨c, kind, ⟨p, hp⟩, hkind⟩ := hasRecordSegment_iff.1 (Bool.of_not_eq_false hs)
  have hsuffix : ¬c <:+ sep :: r := fun hc => by
    rw [hasRecordSegment_iff.2 ⟨c, kind, hc, hkind⟩] at hr
    contradiction
  rcases append_eq_append_iff.1 hp with ⟨c', rfl, rfl⟩ | ⟨c', rfl, hc⟩
  · have hne : c' ≠ [] := fun h0 => hsuffix (by rw [h0]; exact suffix_refl _)
    obtain ⟨t, ht, hword⟩ : ∃ t : JsString, (∀ u ∈ t.head?, u = sep) ∧
        c' ++ sep :: r = sep :: (kind.word ++ t) := by
      rcases hkind with hword | ⟨t, ht⟩
      · exact ⟨[], by simp, by rw [hword, append_nil]⟩
      · exact ⟨sep :: t, by simp, by rw [← ht, EntryKind.separator]; simp⟩
    rw [hasRecordSegment_of_word kind hne ht hword] at ha
    contradiction
  · exact hsuffix ⟨c', hc.symm⟩

/-- No id is another one and the start of one of its keys. -/
theorem hasRecordSegment_of_tail {T U : JsString} (hc : c ≠ []) (hT : OwnTail T) (hU : OwnTail U)
    (h : U = c ++ T) : hasRecordSegment (a ++ c) = true := by
  obtain ⟨r, rfl⟩ : ∃ r, T = sep :: r := by
    cases hT with
    | input => exact ⟨js "input", by decide⟩
    | record kind t => exact ⟨_, rfl⟩
  cases hU with
  | input =>
    obtain ⟨d, rfl⟩ : (sep :: js "input") <+: c :=
      word_prefix hc (by decide) (t := []) (by rw [← h]; decide)
    have hlen := congrArg List.length h
    rw [length_append, length_append, show (js ":input").length = 6 by decide,
      show (sep :: js "input" : JsString).length = 6 by decide, length_cons] at hlen
    omega
  | record kind t =>
    refine hasRecordSegment_of_word kind hc (t := sep :: t) ?_ (r := r) ?_
    · simp
    · rw [← h, EntryKind.separator]
      simp

/-- Runs with a key in common are the same. -/
theorem eq_of_record_keys {b T U : JsString} (ha : hasRecordSegment a = false)
    (hb : hasRecordSegment b = false) (hT : OwnTail T) (hU : OwnTail U) (h : a ++ T = b ++ U) :
    a = b := by
  rcases append_eq_append_iff.1 h with ⟨c, rfl, hc⟩ | ⟨c, rfl, hc⟩
  · by_contra hne
    have hc0 : c ≠ [] := fun h0 => hne (by rw [h0, append_nil])
    rw [hasRecordSegment_of_tail hc0 hU hT hc] at hb
    contradiction
  · by_contra hne
    have hc0 : c ≠ [] := fun h0 => hne (by rw [h0, append_nil])
    rw [hasRecordSegment_of_tail hc0 hT hU hc] at ha
    contradiction

end Gnldev.Durable
