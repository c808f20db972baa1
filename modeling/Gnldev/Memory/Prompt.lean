import Gnldev.Memory.Recall
import Mathlib.Data.List.Pairwise

/-!
# A prompt the provider accepts

A provider refuses a prompt in which a call has no result or a result no call, or one of them is
shown twice (`Accepted`). A store holds turns in which every call is answered, some of them twice
(`Stored`).

Pairing fetches what answers a call, and drops what is shown a second time among the rows that
recall has found (`Shown`). The window is no part of that: it may begin after a call whose result it
shows, it may show a turn twice, or once more than recall has shown it; and nothing looks for the
call of a result that recall has found. So the prompt is accepted just when the window and the rows
found allow it (`composed_accepted_iff`, `Fits`).
-/

open List

namespace Gnldev.Memory

/-- No call and no result is shown twice, every call is answered later, and every result has its call
    before it. -/
def Accepted (messages : List ModelMessage) : Prop :=
  Paired ModelMessage.calls ModelMessage.results messages

/-! ## What is stored -/

/-- Messages in which every call is answered by a later one, and no id is used twice. -/
structure Turn where
  messages : List ModelMessage
  calls_once : (namesOf ModelMessage.calls messages).Nodup
  results_once : (namesOf ModelMessage.results messages).Nodup
  answered : Answered ModelMessage.calls ModelMessage.results ∅ messages

/-- The ids of a turn. -/
def Turn.ids (turn : Turn) : List JsString :=
  namesOf ModelMessage.calls turn.messages ++ namesOf ModelMessage.results turn.messages

/-- Threads of turns, one after the other. Two turns with an id in common are the same turn, stored
    twice. -/
structure Stored where
  rows : JsString → List ThreadRecord
  turns : JsString → List Turn
  of_turns : ∀ t, (rows t).map (·.message) = (turns t).flatMap (·.messages)
  sorted : ∀ t, (rows t).Pairwise (·.seq < ·.seq)
  named : ∀ t, ∀ r ∈ rows t, r.threadId = t
  apart : ∀ t t', ∀ turn ∈ turns t, ∀ turn' ∈ turns t',
    turn.messages = turn'.messages ∨ turn.ids.Disjoint turn'.ids

/-- The calls of rows, and what they answer. -/
abbrev callsOf (rows : List ThreadRecord) : List JsString := namesOf (·.calls) rows
abbrev resultsOf (rows : List ThreadRecord) : List JsString := namesOf (·.results) rows

namespace Stored

variable (store : Stored)

/-- The row is stored. -/
def Holds (r : ThreadRecord) : Prop := r ∈ store.rows r.threadId

variable {store} {r r' m m' : ThreadRecord} {id : JsString}

theorem Holds.turn (h : store.Holds r) :
    ∃ turn ∈ store.turns r.threadId, r.message ∈ turn.messages := by
  have hmem : r.message ∈ (store.turns r.threadId).flatMap (·.messages) :=
    store.of_turns _ ▸ mem_map_of_mem h
  exact mem_flatMap.1 hmem

/-- Two messages of a turn with a name in common are one. -/
theorem message_unique {f : ModelMessage → List JsString} {messages : List ModelMessage} {m m' : ModelMessage}
    (honce : (namesOf f messages).Nodup) (hm : m ∈ messages) (hm' : m' ∈ messages) (hid : id ∈ f m)
    (hid' : id ∈ f m') : m = m' := by
  by_contra hne
  have : Std.Symm (Function.onFun List.Disjoint f) := ⟨fun _ _ h id hid hid' => h hid' hid⟩
  have hdisjoint := (nodup_flatMap.1 honce).2.forall hm hm' hne
  exact hdisjoint hid hid'

/-- Rows that make the same call have the same message, and so have rows that answer it. -/
theorem same_of_call (h : store.Holds r) (h' : store.Holds r') (hid : id ∈ r.calls)
    (hid' : id ∈ r'.calls) : r.message = r'.message := by
  obtain ⟨turn, ht, hm⟩ := h.turn
  obtain ⟨turn', ht', hm'⟩ := h'.turn
  rcases store.apart _ _ turn ht turn' ht' with heq | hapart
  · exact message_unique turn.calls_once hm (heq ▸ hm') hid hid'
  · refine absurd (mem_append_left _ (mem_flatMap.2 ⟨_, hm', hid'⟩)) (hapart ?_)
    exact mem_append_left _ (mem_flatMap.2 ⟨_, hm, hid⟩)

theorem same_of_result (h : store.Holds r) (h' : store.Holds r') (hid : id ∈ r.results)
    (hid' : id ∈ r'.results) : r.message = r'.message := by
  obtain ⟨turn, ht, hm⟩ := h.turn
  obtain ⟨turn', ht', hm'⟩ := h'.turn
  rcases store.apart _ _ turn ht turn' ht' with heq | hapart
  · exact message_unique turn.results_once hm (heq ▸ hm') hid hid'
  · refine absurd (mem_append_right _ (mem_flatMap.2 ⟨_, hm', hid'⟩)) (hapart ?_)
    exact mem_append_right _ (mem_flatMap.2 ⟨_, hm, hid⟩)

theorem Holds.calls_nodup (h : store.Holds r) : r.calls.Nodup := by
  obtain ⟨turn, -, hm⟩ := h.turn
  exact (nodup_flatMap.1 turn.calls_once).1 _ hm

theorem Holds.results_nodup (h : store.Holds r) : r.results.Nodup := by
  obtain ⟨turn, -, hm⟩ := h.turn
  exact (nodup_flatMap.1 turn.results_once).1 _ hm

/-- Every call of a thread is answered later in it. -/
theorem rows_answered (t : JsString) :
    Answered (·.calls) (·.results) (∅ : Set JsString) (store.rows t) := by
  have h : Answered ModelMessage.calls ModelMessage.results (∅ : Set JsString)
      ((store.rows t).map (·.message)) := by
    rw [store.of_turns]
    exact answered_flatMap fun turn _ => turn.answered
  exact answered_map.1 h

/-- So it is found from the call on. -/
theorem exists_answer (h : store.Holds r) (hid : id ∈ r.calls) :
    ∃ m, answerTo store.rows r id = some m := by
  obtain ⟨l, l', hsplit⟩ := append_of_mem h
  have hanswered := store.rows_answered r.threadId
  rw [hsplit, answered_append] at hanswered
  obtain ⟨m, hm, hresult⟩ := mem_flatMap.1 ((hanswered.2.1 id hid).resolve_right not_false)
  have hsorted := store.sorted r.threadId
  rw [hsplit] at hsorted
  have hlater := (pairwise_cons.1 (pairwise_append.1 hsorted).2.1).1 m hm
  refine Option.isSome_iff_exists.1 (find?_isSome.2 ⟨m, ?_, by simpa using ⟨hlater, hresult⟩⟩)
  rw [hsplit]
  exact mem_append_right _ (.tail _ hm)

theorem answer_holds (h : answerTo store.rows r id = some m) : store.Holds m ∧ id ∈ m.results := by
  have hmem := mem_of_find?_eq_some h
  have hfound := find?_some h
  refine ⟨?_, (by simpa using hfound : r.seq < m.seq ∧ id ∈ m.results).2⟩
  rw [Holds, store.named _ m hmem]
  exact hmem

end Stored

/-! ## What is shown -/

section Shown

variable (store : Stored) (found recent : List ThreadRecord)

/-- Neither what recall has found nor the window answers the call. -/
def Lacks (id : JsString) : Prop := id ∉ resultsOf found ∧ id ∉ resultsOf recent

/-- A row that answers a lacking call of one of the rows shows the result. -/
def Fetched (before : List ThreadRecord) (id : JsString) : Prop :=
  ∃ r ∈ before, ∃ id' ∈ r.calls, Lacks found recent id' ∧
    ∃ m, answerTo store.rows r id' = some m ∧ id ∈ m.results

/-- The rows that are fetched for a row: they answer its lacking calls, as far as nothing has been
    fetched for them before, and each only once. -/
structure Fetches (before : List ThreadRecord) (r : ThreadRecord) (fresh : List ThreadRecord) :
    Prop where
  of_call : ∀ m ∈ fresh, ∃ id ∈ r.calls, Lacks found recent id ∧
    ¬Fetched store found recent before id ∧ answerTo store.rows r id = some m
  all : ∀ id ∈ r.calls, Lacks found recent id → Fetched store found recent before id ∨
    id ∈ resultsOf fresh
  once : (resultsOf fresh).Nodup

/-- What pairing shows of rows. -/
inductive Shown : List ThreadRecord → List ThreadRecord → Prop
  | nil : Shown [] []
  /-- A call or a result is not shown again. -/
  | copy {before out : List ThreadRecord} {r : ThreadRecord} (h : Shown before out)
    (hcopy : ∃ r' ∈ before, r'.message = r.message) : Shown (before ++ [r]) out
  | row {before out fresh : List ThreadRecord} {r : ThreadRecord} (h : Shown before out)
    (hfirst : ∀ r' ∈ before, r'.message = r.message → r.calls = [] ∧ r.results = [])
    (hfresh : Fetches store found recent before r fresh) : Shown (before ++ [r]) (out ++ r :: fresh)

/-- When the rows that recall has found can be put before the window. -/
structure Fits : Prop where
  /-- The window shows no call and no result twice, and none that is found as well. -/
  calls_once : (callsOf recent).Nodup
  results_once : (resultsOf recent).Nodup
  calls_apart : ∀ r ∈ found, ∀ id ∈ r.calls, id ∉ callsOf recent
  results_apart : ∀ r ∈ found, ∀ id ∈ r.results, id ∉ resultsOf recent
  /-- The result of a row found is of a call of an earlier row found. -/
  called : Called (·.calls) (·.results) (∅ : Set JsString) found
  /-- The result of a row of the window is of an earlier call of it, or of a row found. -/
  recent_called : Called (·.calls) (·.results) {id | id ∈ callsOf found} recent
  /-- What is fetched for a row answers only this row, and makes no call. -/
  fetched : ∀ r ∈ found, ∀ id ∈ r.calls, Lacks found recent id → ∀ m,
    answerTo store.rows r id = some m → m.calls = [] ∧ ∀ id' ∈ m.results, id' ∈ r.calls

/-- No row that is fetched makes a call of its own. -/
def FetchedPlain : Prop :=
  ∀ r ∈ found, ∀ id ∈ r.calls, Lacks found recent id → ∀ m, answerTo store.rows r id = some m →
    m.calls = []

end Shown

section Pairing

variable {store : Stored} {found recent before out fresh : List ThreadRecord} {r r' m : ThreadRecord}
  {id id' : JsString} {s : Pairing}

theorem calls_of_message (h : r.message = r'.message) : r.calls = r'.calls :=
  congrArg ModelMessage.calls h

theorem results_of_message (h : r.message = r'.message) : r.results = r'.results :=
  congrArg ModelMessage.results h

variable (hfound : ∀ r ∈ found, store.Holds r) (hrecent : ∀ r ∈ recent, store.Holds r)

include hfound hrecent in
/-- A row that answers a lacking call answers nothing that is answered by the rows there are. -/
theorem lacks_of_same (hm : store.Holds m) (hid : id ∈ m.results) (hid' : id' ∈ m.results)
    (hlacks : Lacks found recent id) : Lacks found recent id' := by
  have hno {rows : List ThreadRecord} (hrows : ∀ r ∈ rows, store.Holds r)
      (hlacks : id ∉ resultsOf rows) : id' ∉ resultsOf rows := by
    intro hmem
    obtain ⟨r, hr, hresult⟩ := mem_flatMap.1 hmem
    have hsame := Stored.same_of_result hm (hrows r hr) hid' hresult
    exact hlacks (mem_flatMap.2 ⟨r, hr, results_of_message hsame ▸ hid⟩)
  exact ⟨hno hfound hlacks.1, hno hrecent hlacks.2⟩

include hfound hrecent in
theorem Fetched.lacks (h : Fetched store found recent before id) : Lacks found recent id := by
  obtain ⟨r, hr, id', hid', hlacks, m, hanswer, hid⟩ := h
  obtain ⟨hm, hresult⟩ := Stored.answer_holds hanswer
  exact lacks_of_same hfound hrecent hm hresult hid hlacks

/-- What is fetched shows all its results. -/
theorem Fetched.same (h : Fetched store found recent before id) (hm : store.Holds m)
    (hid : id ∈ m.results) (hid' : id' ∈ m.results) : Fetched store found recent before id' := by
  obtain ⟨r, hr, id₀, hid₀, hlacks, m₀, hanswer, hresult⟩ := h
  have hsame := Stored.same_of_result (Stored.answer_holds hanswer).1 hm hresult hid
  exact ⟨r, hr, id₀, hid₀, hlacks, m₀, hanswer, results_of_message hsame ▸ hid'⟩

theorem fetched_append : Fetched store found recent (before ++ [r]) id ↔
    Fetched store found recent before id ∨ Fetched store found recent [r] id := by
  simp only [Fetched, mem_append, or_and_right, exists_or]

/-- The answer to the call of a row is that to the call of its copy. -/
theorem answer_same (h' : store.Holds r') (hsame : r'.message = r.message)
    (hid : id ∈ r.calls) (hanswer : answerTo store.rows r id = some m) :
    ∃ m', answerTo store.rows r' id = some m' ∧ m'.message = m.message := by
  obtain ⟨m', hanswer'⟩ := Stored.exists_answer h' (calls_of_message hsame ▸ hid)
  obtain ⟨hm, hresult⟩ := Stored.answer_holds hanswer
  obtain ⟨hm', hresult'⟩ := Stored.answer_holds hanswer'
  exact ⟨m', hanswer', Stored.same_of_result hm' hm hresult' hresult⟩

/-- A copy of an earlier row has nothing fetched for it. -/
theorem fetched_copy (hbefore : ∀ r ∈ before, store.Holds r)
    (hcopy : ∃ r' ∈ before, r'.message = r.message) :
    Fetched store found recent (before ++ [r]) id ↔ Fetched store found recent before id := by
  rw [fetched_append, or_iff_left_iff_imp]
  rintro ⟨r₀, hr₀, id', hid', hlacks, m, hanswer, hid⟩
  obtain rfl := mem_singleton.1 hr₀
  obtain ⟨r', hr', hsame⟩ := hcopy
  obtain ⟨m', hanswer', hm'⟩ := answer_same (hbefore r' hr') hsame hid' hanswer
  exact ⟨r', hr', id', calls_of_message hsame ▸ hid', hlacks, m', hanswer',
    results_of_message hm' ▸ hid⟩

theorem fetched_noCalls (h : r.calls = []) :
    Fetched store found recent (before ++ [r]) id ↔ Fetched store found recent before id := by
  simp [Fetched, h]

/-- Where the loop stands. -/
structure PairInv (store : Stored) (found recent before : List ThreadRecord) (s : Pairing) :
    Prop where
  shown : Shown store found recent before s.out
  seenCall : ∀ id, id ∈ s.seenCall ↔ id ∈ callsOf before
  seenResult : ∀ id, id ∈ s.seenResult ↔
    (∃ r ∈ before, r.calls = [] ∧ id ∈ r.results) ∨ Fetched store found recent before id
  answered : ∀ id, id ∈ s.answered ↔
    id ∈ resultsOf found ∨ id ∈ resultsOf recent ∨ Fetched store found recent before id

theorem claim_eq_some {set ids set' : List JsString} :
    claim set ids = some set' ↔ ids ≠ [] ∧ (∀ id ∈ ids, id ∉ set) ∧ set' = set ++ ids := by
  rw [claim]
  split
  · next h =>
    rw [Option.some_inj]
    exact ⟨fun heq => ⟨h.1, h.2, heq.symm⟩, fun heq => heq.2.2.symm⟩
  · next h => exact ⟨nofun, fun heq => absurd ⟨heq.1, heq.2.1⟩ h⟩

theorem claim_eq_none {set ids : List JsString} (hne : ids ≠ []) :
    claim set ids = none ↔ ∃ id ∈ ids, id ∈ set := by
  rw [claim]
  split
  · next h =>
    simp only [reduceCtorEq, false_iff, not_exists, not_and]
    exact h.2
  · next h =>
    simp only [true_iff]
    by_contra! hnew
    exact h ⟨hne, hnew⟩

/-! ### One row -/

/-- A copy is left out. -/
theorem PairInv.copy (h : PairInv store found recent before s) (hbefore : ∀ r ∈ before, store.Holds r)
    (hcopy : ∃ r' ∈ before, r'.message = r.message) (dropped : List (ThreadRecord × DropReason)) :
    PairInv store found recent (before ++ [r]) { s with dropped } where
  shown := .copy h.shown hcopy
  seenCall id := by
    obtain ⟨r', hr', hsame⟩ := hcopy
    rw [h.seenCall, mem_names_concat, iff_self_or, ← calls_of_message hsame]
    exact fun hid => mem_flatMap.2 ⟨r', hr', hid⟩
  seenResult id := by
    rw [h.seenResult, fetched_copy hbefore hcopy]
    obtain ⟨r', hr', hsame⟩ := hcopy
    simp only [mem_append, mem_singleton, or_and_right, exists_or, exists_eq_left]
    refine or_congr_left (iff_self_or.2 fun hr => ⟨r', hr', ?_⟩)
    rwa [calls_of_message hsame, results_of_message hsame]
  answered id := by rw [h.answered, fetched_copy hbefore hcopy]

/-- A row without calls is shown. -/
theorem PairInv.noCalls (h : PairInv store found recent before s) (hcalls : r.calls = [])
    (hfirst : ∀ r' ∈ before, r'.message = r.message → r.results = []) {seenResult : List JsString}
    (hseen : ∀ id, id ∈ seenResult ↔ id ∈ s.seenResult ∨ id ∈ r.results) :
    PairInv store found recent (before ++ [r]) { s with seenResult, out := s.out ++ [r] } where
  shown := by
    refine .row h.shown (fun r' hr' hsame => ⟨hcalls, hfirst r' hr' hsame⟩)
      ⟨nofun, ?_, nodup_nil⟩
    rw [hcalls]
    exact nofun
  seenCall id := by simp [h.seenCall, hcalls]
  seenResult id := by
    rw [hseen, h.seenResult, fetched_noCalls hcalls]
    simp only [mem_append, mem_singleton, or_and_right, exists_or, exists_eq_left, hcalls,
      true_and]
    exact or_right_comm
  answered id := by rw [h.answered, fetched_noCalls hcalls]

/-- The rows that are claimed: they show new results, each once, and leave no result unseen. -/
theorem claimFresh_spec {seen : List JsString} {repair : List ThreadRecord}
    (hrepair : ∀ m ∈ repair, m.results.Nodup) :
    (∀ m ∈ (claimFresh seen repair).1, m ∈ repair) ∧ (resultsOf (claimFresh seen repair).1).Nodup ∧
      (∀ id ∈ resultsOf (claimFresh seen repair).1, id ∉ seen) ∧
      (∀ id, id ∈ (claimFresh seen repair).2 ↔
        id ∈ seen ∨ id ∈ resultsOf (claimFresh seen repair).1) ∧
      ∀ m ∈ repair, m.results ≠ [] →
        ∃ id ∈ m.results, id ∈ seen ∨ id ∈ resultsOf (claimFresh seen repair).1 := by
  induction repair generalizing seen with
  | nil => simp [claimFresh]
  | cons m repair ih =>
    have hrest : ∀ m ∈ repair, m.results.Nodup := fun m hm => hrepair m (.tail _ hm)
    rw [claimFresh]
    split
    · next seen' hclaim =>
      obtain ⟨hne, hnew, rfl⟩ := claim_eq_some.1 hclaim
      obtain ⟨hsub, honce, hunseen, hseen, hall⟩ := @ih (seen ++ m.results) hrest
      simp only [mem_append, not_or] at hunseen hseen hall
      refine ⟨forall_mem_cons.2 ⟨.head _, fun m' hm' => .tail _ (hsub m' hm')⟩, ?_, ?_, ?_, ?_⟩
      · exact nodup_append'.2 ⟨hrepair m (.head _), honce,
          fun id hid hid' => (hunseen id hid').2 hid⟩
      · intro id hid
        rcases mem_append.1 hid with hid | hid
        · exact hnew id hid
        · exact (hunseen id hid).1
      · intro id
        change id ∈ (claimFresh (seen ++ m.results) repair).2 ↔ id ∈ seen ∨
          id ∈ m.results ++ resultsOf (claimFresh (seen ++ m.results) repair).1
        rw [hseen, mem_append, or_assoc]
      · refine forall_mem_cons.2 ⟨fun hne => ?_, fun m' hm' hne => ?_⟩
        · obtain ⟨id, hid⟩ := exists_mem_of_ne_nil _ hne
          exact ⟨id, hid, .inr (mem_append_left _ hid)⟩
        · obtain ⟨id, hid, (hold | hold) | hold⟩ := hall m' hm' hne
          · exact ⟨id, hid, .inl hold⟩
          · exact ⟨id, hid, .inr (mem_append_left _ hold)⟩
          · exact ⟨id, hid, .inr (mem_append_right _ hold)⟩
    · next hclaim =>
      obtain ⟨hsub, honce, hunseen, hseen, hall⟩ := @ih seen hrest
      refine ⟨fun m' hm' => .tail _ (hsub m' hm'), honce, hunseen, hseen, ?_⟩
      refine forall_mem_cons.2 ⟨fun hne => ?_, hall⟩
      obtain ⟨id, hid, hseen⟩ := (claim_eq_none hne).1 hclaim
      exact ⟨id, hid, .inl hseen⟩

/-- A row with new calls is shown, with what is fetched for it. -/
theorem PairInv.newCalls (hfound : ∀ r ∈ found, store.Holds r) (hrecent : ∀ r ∈ recent, store.Holds r)
    (h : PairInv store found recent before s) (hbefore : ∀ r ∈ before, r ∈ found) (hr : store.Holds r)
    (hne : r.calls ≠ []) (hnew : ∀ id ∈ r.calls, id ∉ s.seenCall) {repair : List ThreadRecord}
    (hrepair : repair = (r.calls.filter (· ∉ s.answered)).filterMap (answerTo store.rows r)) :
    PairInv store found recent (before ++ [r])
      { s with
        answered := s.answered ++ repair.flatMap (·.results)
        seenCall := s.seenCall ++ r.calls
        seenResult := (claimFresh s.seenResult repair).2
        out := s.out ++ r :: (claimFresh s.seenResult repair).1 } := by
  -- What is fetched, and which of its rows are new.
  have hmem (m : ThreadRecord) : m ∈ repair ↔ ∃ id ∈ r.calls, (Lacks found recent id ∧
      ¬Fetched store found recent before id) ∧ answerTo store.rows r id = some m := by
    simp only [hrepair, mem_filterMap, mem_filter, decide_eq_true_eq, h.answered, not_or,
      and_assoc, Lacks]
  have hholds (m : ThreadRecord) (hm : m ∈ repair) : store.Holds m := by
    obtain ⟨id, -, -, hanswer⟩ := (hmem m).1 hm
    exact (Stored.answer_holds hanswer).1
  obtain ⟨hsub, honce, -, hseen, hshow⟩ :=
    @claimFresh_spec s.seenResult repair fun m hm => (hholds m hm).results_nodup
  have hall : ∀ id ∈ r.calls, Lacks found recent id → Fetched store found recent before id ∨
      id ∈ resultsOf (claimFresh s.seenResult repair).1 := by
    intro id hid hlacks
    refine or_iff_not_imp_left.2 fun hunfetched => ?_
    obtain ⟨m, hanswer⟩ := Stored.exists_answer hr hid
    obtain ⟨hm, hresult⟩ := Stored.answer_holds hanswer
    have hin := (hmem m).2 ⟨id, hid, ⟨hlacks, hunfetched⟩, hanswer⟩
    obtain ⟨id', hid', hold | hfresh⟩ := hshow m hin (ne_nil_of_mem hresult)
    · -- Its results are new, since it is fetched for the first time.
      rcases (h.seenResult id').1 hold with ⟨r', hr', -, hold⟩ | hold
      · have hknown : id' ∈ resultsOf found := mem_flatMap.2 ⟨r', hbefore r' hr', hold⟩
        exact absurd hknown (lacks_of_same hfound hrecent hm hresult hid' hlacks).1
      · exact absurd (hold.same hm hid' hresult) hunfetched
    · obtain ⟨m', hm', hresult'⟩ := mem_flatMap.1 hfresh
      have hsame := Stored.same_of_result hm (hholds m' (hsub m' hm')) hid' hresult'
      exact mem_flatMap.2 ⟨m', hm', results_of_message hsame ▸ hresult⟩
  have hrow (id : JsString) (h : id ∈ resultsOf repair) : Fetched store found recent [r] id := by
    obtain ⟨m, hm, hid⟩ := mem_flatMap.1 h
    obtain ⟨id', hid', ⟨hlacks, -⟩, hanswer⟩ := (hmem m).1 hm
    exact ⟨r, .head _, id', hid', hlacks, m, hanswer, hid⟩
  have hfresh (id : JsString) (h : Fetched store found recent [r] id) :
      Fetched store found recent before id ∨ id ∈ resultsOf (claimFresh s.seenResult repair).1 := by
    obtain ⟨r₀, hr₀, id', hid', hlacks, m, hanswer, hid⟩ := h
    obtain rfl := mem_singleton.1 hr₀
    obtain ⟨hm, hresult⟩ := Stored.answer_holds hanswer
    refine (hall id' hid' hlacks).imp (fun h => h.same hm hresult hid) fun h => ?_
    obtain ⟨m', hm', hresult'⟩ := mem_flatMap.1 h
    have hsame := Stored.same_of_result hm (hholds m' (hsub m' hm')) hresult hresult'
    exact mem_flatMap.2 ⟨m', hm', results_of_message hsame ▸ hid⟩
  have hrepaired (id : JsString) (h : id ∈ resultsOf (claimFresh s.seenResult repair).1) :
      id ∈ resultsOf repair := by
    obtain ⟨m, hm, hid⟩ := mem_flatMap.1 h
    exact mem_flatMap.2 ⟨m, hsub m hm, hid⟩
  refine ⟨.row h.shown (fun r' hr' hsame => ?_) ⟨fun m hm => ?_, hall, honce⟩, fun id => ?_,
    fun id => ?_, fun id => ?_⟩
  · obtain ⟨id, hid⟩ := exists_mem_of_ne_nil _ hne
    refine absurd ((h.seenCall id).2 (mem_flatMap.2 ⟨r', hr', ?_⟩)) (hnew id hid)
    exact calls_of_message hsame ▸ hid
  · obtain ⟨id, hid, ⟨hlacks, hunfetched⟩, hanswer⟩ := (hmem m).1 (hsub m hm)
    exact ⟨id, hid, hlacks, hunfetched, hanswer⟩
  · rw [mem_append, h.seenCall, mem_names_concat]
  · have hsame : Fetched store found recent before id ∨ Fetched store found recent [r] id ↔
        Fetched store found recent before id ∨ id ∈ resultsOf (claimFresh s.seenResult repair).1 :=
      ⟨fun h => h.elim .inl (hfresh id), Or.imp_right fun h => hrow id (hrepaired id h)⟩
    rw [hseen, h.seenResult, or_assoc, ← hsame, fetched_append]
    simp [or_and_right, exists_or, hne]
  · have hsame : Fetched store found recent before id ∨ Fetched store found recent [r] id ↔
        Fetched store found recent before id ∨ id ∈ resultsOf repair :=
      ⟨fun h => h.elim .inl fun h => (hfresh id h).imp_right (hrepaired id), Or.imp_right (hrow id)⟩
    rw [mem_append, h.answered, fetched_append, hsame, or_assoc, or_assoc]

/-- One row. -/
theorem PairInv.step (hfound : ∀ r ∈ found, store.Holds r) (hrecent : ∀ r ∈ recent, store.Holds r)
    (h : PairInv store found recent before s) (hbefore : ∀ r ∈ before, r ∈ found) (hr : r ∈ found) :
    PairInv store found recent (before ++ [r]) (pairRow store.rows s r) := by
  have hholds (r : ThreadRecord) (hr : r ∈ before) : store.Holds r := hfound r (hbefore r hr)
  rw [pairRow]
  split
  · next hcalls =>
    split
    · next hresults =>
      have hseen (id : JsString) : id ∈ s.seenResult ↔ id ∈ s.seenResult ∨ id ∈ r.results := by
        simp [hresults]
      exact h.noCalls hcalls (fun _ _ _ => hresults) hseen
    · next hresults =>
      split
      · next seenResult hclaim =>
        obtain ⟨hne, hnew, rfl⟩ := claim_eq_some.1 hclaim
        refine h.noCalls hcalls (fun r' hr' hsame => ?_) fun id => mem_append
        obtain ⟨id, hid⟩ := exists_mem_of_ne_nil _ hne
        refine absurd ((h.seenResult id).2 (.inl ⟨r', hr', ?_, ?_⟩)) (hnew id hid)
        · rw [calls_of_message hsame, hcalls]
        · exact results_of_message hsame ▸ hid
      · next hclaim =>
        obtain ⟨id, hid, hseen⟩ := (claim_eq_none hresults).1 hclaim
        refine h.copy hholds ?_ _
        rcases (h.seenResult id).1 hseen with ⟨r', hr', -, hid'⟩ | hseen
        · exact ⟨r', hr', Stored.same_of_result (hholds r' hr') (hfound r hr) hid' hid⟩
        · -- What has been fetched is not among the rows found.
          exact absurd (mem_flatMap.2 ⟨r, hr, hid⟩) (hseen.lacks hfound hrecent).1
  · next hcalls =>
    split
    · next hclaim =>
      obtain ⟨id, hid, hseen⟩ := (claim_eq_none hcalls).1 hclaim
      obtain ⟨r', hr', hid'⟩ := mem_flatMap.1 ((h.seenCall id).1 hseen)
      exact h.copy hholds ⟨r', hr', Stored.same_of_call (hholds r' hr') (hfound r hr) hid' hid⟩ _
    · next seenCall hclaim =>
      obtain ⟨-, hnew, rfl⟩ := claim_eq_some.1 hclaim
      have hnext := h.newCalls hfound hrecent hbefore (hfound r hr) hcalls hnew rfl
      simp only
      split
      · next hmissing =>
        rw [hmissing] at hnext
        simpa [claimFresh] using hnext
      · split
        · next hlost =>
          -- Every call of the thread is answered later in it.
          obtain ⟨id, hid, hlost⟩ := hlost
          obtain ⟨m, hanswer⟩ := Stored.exists_answer (hfound r hr) (mem_filter.1 hid).1
          refine absurd (mem_flatMap.2 ⟨m, ?_, (Stored.answer_holds hanswer).2⟩) hlost
          exact mem_filterMap.2 ⟨id, hid, hanswer⟩
        · exact hnext

/-- The whole loop. -/
theorem shown_foldl (hfound : ∀ r ∈ found, store.Holds r) (hrecent : ∀ r ∈ recent, store.Holds r)
    {rest : List ThreadRecord} (hsplit : found = before ++ rest)
    (h : PairInv store found recent before s) :
    Shown store found recent found (rest.foldl (pairRow store.rows) s).out := by
  induction rest generalizing before s with
  | nil =>
    rw [append_nil] at hsplit
    exact hsplit ▸ h.shown
  | cons r rest ih =>
    have hbefore : ∀ r ∈ before, r ∈ found := fun r hr => hsplit ▸ mem_append_left _ hr
    have hr : r ∈ found := by simp [hsplit]
    have hnext := h.step hfound hrecent hbefore hr
    exact ih (by simp [hsplit]) hnext

/-- Rows without calls and results are shown as they are. -/
theorem shown_plain (h : ∀ r ∈ before, r.calls = [] ∧ r.results = []) :
    Shown store found recent before before := by
  induction before using List.reverseRecOn with
  | nil => exact .nil
  | append_singleton before r ih =>
    obtain ⟨hcalls, hresults⟩ := h r (by simp)
    refine .row (ih fun r hr => h r (mem_append_left _ hr)) (fun _ _ _ => ⟨hcalls, hresults⟩)
      ⟨nofun, ?_, nodup_nil⟩
    rw [hcalls]
    exact nofun

/-- What pairing returns: what is listed, or the rows found, if none has a call and one has a
    result. -/
theorem pairRecalled_shown (hfound : ∀ r ∈ found, store.Holds r)
    (hrecent : ∀ r ∈ recent, store.Holds r) :
    Shown store found recent found (pairRecalledToolCalls store.rows found recent).1 ∨
      (pairRecalledToolCalls store.rows found recent).1 = found ∧ (∀ r ∈ found, r.calls = []) ∧
        ∃ r ∈ found, r.results ≠ [] := by
  rw [pairRecalledToolCalls]
  split
  · have hstart : PairInv store found recent []
        ⟨(found ++ recent).flatMap (·.results), [], [], [], []⟩ := by
      refine ⟨.nil, ?_, ?_, ?_⟩
      · simp
      · simp [Fetched]
      · simp [Fetched, flatMap_append]
    exact .inl (shown_foldl hfound hrecent rfl hstart)
  · next hcalls =>
    simp only [any_eq_true, decide_eq_true_eq, not_exists, not_and, not_not] at hcalls
    by_cases hresults : ∀ r ∈ found, r.results = []
    · exact .inl (shown_plain fun r hr => ⟨hcalls r hr, hresults r hr⟩)
    · exact .inr ⟨rfl, hcalls, by simpa using hresults⟩

/-! ## What is listed is accepted -/

/-- The calls of a row that is no copy are new. -/
theorem new_of_first (hbefore : ∀ r ∈ before, store.Holds r) (hr : store.Holds r)
    (hfirst : ∀ r' ∈ before, r'.message = r.message → r.calls = [] ∧ r.results = [])
    (hid : id ∈ r.calls) : id ∉ callsOf before := by
  intro hmem
  obtain ⟨r', hr', hcall⟩ := mem_flatMap.1 hmem
  have hsame := Stored.same_of_call (hbefore r' hr') hr hcall hid
  exact ne_nil_of_mem hid (hfirst r' hr' hsame).1

/-- All calls and results of the rows are shown. -/
theorem Shown.names_mem (f : ModelMessage → List JsString) (h : Shown store found recent before out)
    (hid : id ∈ namesOf (f ·.message) before) : id ∈ namesOf (f ·.message) out := by
  induction h with
  | nil => exact hid
  | copy h hcopy ih =>
    rcases mem_names_concat.1 hid with hid | hid
    · exact ih hid
    · obtain ⟨r', hr', hsame⟩ := hcopy
      exact ih (mem_flatMap.2 ⟨r', hr', hsame ▸ hid⟩)
  | row h hfirst hfresh ih => exact mem_names_cons.2 ((mem_names_concat.1 hid).imp ih .inl)

theorem Shown.calls_mem (h : Shown store found recent before out) (hid : id ∈ callsOf before) :
    id ∈ callsOf out := h.names_mem ModelMessage.calls hid

theorem Shown.results_mem (h : Shown store found recent before out) (hid : id ∈ resultsOf before) :
    id ∈ resultsOf out := h.names_mem ModelMessage.results hid

/-- The rows that are fetched for a row of the ones found. -/
theorem Fetches.noCalls (h : Fetches store found recent before r fresh)
    (hplain : FetchedPlain store found recent) (hr : r ∈ found) : ∀ m ∈ fresh, m.calls = [] := by
  intro m hm
  obtain ⟨id, hid, hlacks, -, hanswer⟩ := h.of_call m hm
  exact hplain r hr id hid hlacks m hanswer

theorem Shown.mem_calls (h : Shown store found recent before out)
    (hplain : FetchedPlain store found recent) (hbefore : ∀ r ∈ before, r ∈ found)
    (hid : id ∈ callsOf out) : id ∈ callsOf before := by
  induction h with
  | nil => exact hid
  | copy h hcopy ih =>
    exact mem_names_concat.2 (.inl (ih (fun r hr => hbefore r (mem_append_left _ hr)) hid))
  | row h hfirst hfresh ih =>
    rcases mem_names_cons.1 hid with hid | hid | hid
    · exact mem_names_concat.2 (.inl (ih (fun r hr => hbefore r (mem_append_left _ hr)) hid))
    · exact mem_names_concat.2 (.inr hid)
    · obtain ⟨m, hm, hid⟩ := mem_flatMap.1 hid
      rw [hfresh.noCalls hplain (hbefore _ (by simp)) m hm] at hid
      exact absurd hid not_mem_nil

theorem Shown.mem_results (h : Shown store found recent before out) (hid : id ∈ resultsOf out) :
    id ∈ resultsOf before ∨ Fetched store found recent before id := by
  induction h with
  | nil => exact .inl hid
  | copy h hcopy ih => exact (ih hid).imp (mem_names_concat.2 <| .inl ·) (fetched_append.2 <| .inl ·)
  | row h hfirst hfresh ih =>
    rcases mem_names_cons.1 hid with hid | hid | hid
    · exact (ih hid).imp (mem_names_concat.2 <| .inl ·) (fetched_append.2 <| .inl ·)
    · exact .inl (mem_names_concat.2 (.inr hid))
    · obtain ⟨m, hm, hid⟩ := mem_flatMap.1 hid
      obtain ⟨id', hid', hlacks, -, hanswer⟩ := hfresh.of_call m hm
      exact .inr (fetched_append.2 (.inr ⟨_, .head _, id', hid', hlacks, m, hanswer, hid⟩))

include hfound in
/-- No call is shown twice. -/
theorem Shown.calls_once (h : Shown store found recent before out)
    (hplain : FetchedPlain store found recent) (hbefore : ∀ r ∈ before, r ∈ found) :
    (callsOf out).Nodup := by
  induction h with
  | nil => exact nodup_nil
  | copy h hcopy ih => exact ih fun r hr => hbefore r (mem_append_left _ hr)
  | @row before out fresh r h hfirst hfresh ih =>
    have hbefore' : ∀ r ∈ before, r ∈ found := fun r hr => hbefore r (mem_append_left _ hr)
    have hr : r ∈ found := hbefore r (by simp)
    have hfresh' : namesOf (·.calls) fresh = [] :=
      flatMap_eq_nil_iff.2 (hfresh.noCalls hplain hr)
    have hout : callsOf (out ++ r :: fresh) = callsOf out ++ r.calls := by
      rw [callsOf, names_cons, hfresh', append_nil]
    rw [hout, nodup_append']
    refine ⟨ih hbefore', (hfound r hr).calls_nodup, fun id hid hid' => ?_⟩
    exact new_of_first (fun r hr => hfound r (hbefore' r hr)) (hfound r hr) hfirst hid'
      (h.mem_calls hplain hbefore' hid)

include hfound hrecent in
/-- No result is shown twice. -/
theorem Shown.results_once (h : Shown store found recent before out)
    (hbefore : ∀ r ∈ before, r ∈ found) : (resultsOf out).Nodup := by
  induction h with
  | nil => exact nodup_nil
  | copy h hcopy ih => exact ih fun r hr => hbefore r (mem_append_left _ hr)
  | @row before out fresh r h hfirst hfresh ih =>
    have hbefore' : ∀ r ∈ before, r ∈ found := fun r hr => hbefore r (mem_append_left _ hr)
    have hr : r ∈ found := hbefore r (by simp)
    have hmem {id : JsString} (hid : id ∈ r.results) : id ∈ resultsOf found :=
      mem_flatMap.2 ⟨r, hr, hid⟩
    rw [resultsOf, names_cons]
    refine nodup_append'.2 ⟨ih hbefore', nodup_append'.2 ⟨(hfound r hr).results_nodup,
      hfresh.once, fun id hid hid' => ?_⟩, fun id hid hid' => ?_⟩
    · obtain ⟨m, hm, hresult⟩ := mem_flatMap.1 hid'
      obtain ⟨id', hid', hlacks, -, hanswer⟩ := hfresh.of_call m hm
      obtain ⟨hm, hresult'⟩ := Stored.answer_holds hanswer
      exact (lacks_of_same hfound hrecent hm hresult' hresult hlacks).1 (hmem hid)
    · rcases mem_append.1 hid' with hid' | hid'
      · rcases h.mem_results hid with hid | hid
        · obtain ⟨r', hr', hresult⟩ := mem_flatMap.1 hid
          have hsame := Stored.same_of_result (hfound r' (hbefore' r' hr')) (hfound r hr) hresult hid'
          rw [(hfirst r' hr' hsame).2] at hid'
          exact not_mem_nil hid'
        · exact (hid.lacks hfound hrecent).1 (hmem hid')
      · obtain ⟨m, hm, hresult⟩ := mem_flatMap.1 hid'
        obtain ⟨id', -, hlacks, hunfetched, hanswer⟩ := hfresh.of_call m hm
        obtain ⟨hm, hresult'⟩ := Stored.answer_holds hanswer
        rcases h.mem_results hid with hid | hid
        · obtain ⟨r', hr', hold⟩ := mem_flatMap.1 hid
          refine (lacks_of_same hfound hrecent hm hresult' hresult hlacks).1 ?_
          exact mem_flatMap.2 ⟨r', hbefore' r' hr', hold⟩
        · exact hunfetched (hid.same hm hresult hresult')

/-- Every result has its call before it. -/
theorem Shown.called (h : Shown store found recent before out)
    (hcalled : Called (·.calls) (·.results) (∅ : Set JsString) before)
    (hfetched : ∀ r ∈ before, ∀ id ∈ r.calls, Lacks found recent id → ∀ m,
      answerTo store.rows r id = some m → ∀ id' ∈ m.results, id' ∈ r.calls) :
    Called (·.calls) (·.results) (∅ : Set JsString) out := by
  induction h with
  | nil => trivial
  | copy h hcopy ih =>
    exact ih (called_append.1 hcalled).1 fun r hr => hfetched r (mem_append_left _ hr)
  | @row before out fresh r h hfirst hfresh ih =>
    obtain ⟨hbefore, hr, -⟩ := called_append.1 hcalled
    refine called_append.2 ⟨ih hbefore fun r hr => hfetched r (mem_append_left _ hr), ?_, ?_⟩
    · exact fun id hid => (hr id hid).imp_right h.calls_mem
    · refine called_of_known fun id hid => .inr ?_
      obtain ⟨m, hm, hresult⟩ := mem_flatMap.1 hid
      obtain ⟨id', hid', hlacks, -, hanswer⟩ := hfresh.of_call m hm
      exact hfetched r (by simp) id' hid' hlacks m hanswer id hresult

/-- A call that no earlier row makes has its result after it. -/
theorem not_result_of_first
    (hcalled : Called (·.calls) (·.results) (∅ : Set JsString) (before ++ [r]))
    (hfirst : id ∉ callsOf before) : id ∉ resultsOf (before ++ [r]) := by
  obtain ⟨hbefore, hr, -⟩ := called_append.1 hcalled
  intro hmem
  rcases mem_names_concat.1 hmem with hid | hid
  · exact hfirst ((hbefore.subset hid).resolve_left not_false)
  · exact hfirst ((hr id hid).resolve_left not_false)

include hfound in
/-- Every call is answered after it: by a row shown, by the window, or by a row that is still to
    come. -/
theorem Shown.answered (h : Shown store found recent before out) (hfit : Fits store found recent)
    (hbefore : before <+: found) : Answered (·.calls) (·.results)
      {id | id ∈ resultsOf recent ∨ id ∈ resultsOf found ∧ id ∉ resultsOf before} out := by
  induction h with
  | nil => trivial
  | @copy before out r h hcopy ih =>
    refine (ih ((prefix_append _ _).trans hbefore)).mono fun id hid => ?_
    obtain ⟨r', hr', hsame⟩ := hcopy
    refine hid.imp_right fun ⟨hmem, hno⟩ => ⟨hmem, fun hold => hno ?_⟩
    exact (mem_names_concat.1 hold).elim (·) fun hid =>
      mem_flatMap.2 ⟨r', hr', results_of_message hsame ▸ hid⟩
  | @row before out fresh r h hfirst hfresh ih =>
    have hin : ∀ r' ∈ before ++ [r], r' ∈ found := fun r' hr' => hbefore.subset hr'
    have hr : r ∈ found := hin r (by simp)
    have hplain := hfresh.noCalls (fun r hr id hid hl m hm => (hfit.fetched r hr id hid hl m hm).1) hr
    refine answered_append.2 ⟨(ih ((prefix_append _ _).trans hbefore)).mono fun id hid => ?_,
      fun id hid => ?_, answered_of_no_calls hplain⟩
    · rcases hid with hid | ⟨hmem, hno⟩
      · exact .inr (.inl hid)
      · by_cases hid : id ∈ r.results
        · exact .inl (mem_append_left _ hid)
        · exact .inr (.inr ⟨hmem, fun hold => (mem_names_concat.1 hold).elim hno hid⟩)
    · have hnew : id ∉ callsOf before := new_of_first
        (fun r hr => hfound r (hin r (mem_append_left _ hr))) (hfound r hr) hfirst hid
      have hcalled : Called (·.calls) (·.results) (∅ : Set JsString) (before ++ [r]) := by
        obtain ⟨rest, hrest⟩ := hbefore
        exact (called_append.1 (hrest ▸ hfit.called)).1
      by_cases hrecent : id ∈ resultsOf recent
      · exact .inr (.inl hrecent)
      by_cases hmem : id ∈ resultsOf found
      · exact .inr (.inr ⟨hmem, not_result_of_first hcalled hnew⟩)
      · -- Nothing answers it, so that its answer is fetched; it cannot have been fetched before.
        refine .inl ((hfresh.all id hid ⟨hmem, hrecent⟩).resolve_left fun hfetched => ?_)
        obtain ⟨r', hr', id', hid', hlacks, m, hanswer, hresult⟩ := hfetched
        refine hnew (mem_flatMap.2 ⟨r', hr', ?_⟩)
        exact (hfit.fetched r' (hin r' (mem_append_left _ hr')) id' hid' hlacks m hanswer).2 id
          hresult

include hfound hrecent in
/-- What is listed can be put before the window. -/
theorem Fits.paired (hfit : Fits store found recent) (h : Shown store found recent found out)
    (hanswered : Answered (·.calls) (·.results) (∅ : Set JsString) recent) :
    Paired (·.calls) (·.results) (out ++ recent) := by
  have hplain : FetchedPlain store found recent :=
    fun r hr id hid hl m hm => (hfit.fetched r hr id hid hl m hm).1
  have hself : ∀ r ∈ found, r ∈ found := fun _ hr => hr
  refine paired_append_iff.2 ⟨
    nodup_append'.2 ⟨h.calls_once hfound hplain hself, hfit.calls_once, ?_⟩,
    nodup_append'.2 ⟨h.results_once hfound hrecent hself, hfit.results_once, ?_⟩,
    (h.answered hfound hfit prefix_rfl).mono ?_, hanswered, ?_, ?_⟩
  · intro id hid hid'
    obtain ⟨r, hr, hcall⟩ := mem_flatMap.1 (h.mem_calls hplain hself hid)
    exact hfit.calls_apart r hr id hcall hid'
  · intro id hid hid'
    rcases h.mem_results hid with hid | hid
    · obtain ⟨r, hr, hresult⟩ := mem_flatMap.1 hid
      exact hfit.results_apart r hr id hresult hid'
    · exact (hid.lacks hfound hrecent).2 hid'
  · rintro id (hid | ⟨hid, hno⟩)
    · exact hid
    · exact absurd hid hno
  · exact h.called hfit.called fun r hr id hid hl m hm => (hfit.fetched r hr id hid hl m hm).2
  · exact hfit.recent_called.mono fun id hid => h.calls_mem hid

/-! ## What is accepted fits -/

include hfound hrecent in
/-- If what is shown has its calls before its results, so have the rows, and nothing is fetched but
    the answers to one row. -/
theorem Shown.called_inv (h : Shown store found recent before out)
    (hplain : FetchedPlain store found recent) (hbefore : ∀ r ∈ before, r ∈ found)
    (hcalled : Called (·.calls) (·.results) (∅ : Set JsString) out) :
    Called (·.calls) (·.results) (∅ : Set JsString) before ∧
      ∀ r ∈ before, ∀ id ∈ r.calls, Lacks found recent id → ∀ m,
        answerTo store.rows r id = some m → ∀ id' ∈ m.results, id' ∈ r.calls := by
  induction h with
  | nil => exact ⟨trivial, nofun⟩
  | @copy before out r h hcopy ih =>
    have hin : ∀ r ∈ before, r ∈ found := fun r hr => hbefore r (mem_append_left _ hr)
    obtain ⟨hbefore', hfetched⟩ := ih hin hcalled
    obtain ⟨r', hr', hsame⟩ := hcopy
    refine ⟨called_append.2 ⟨hbefore', fun id hid => ?_, trivial⟩, fun r₀ hr₀ => ?_⟩
    · exact hbefore'.subset (mem_flatMap.2 ⟨r', hr', results_of_message hsame ▸ hid⟩)
    · rcases mem_append.1 hr₀ with hr₀ | hr₀
      · exact hfetched r₀ hr₀
      · obtain rfl := mem_singleton.1 hr₀
        intro id hid hlacks m hanswer id' hid'
        obtain ⟨m', hanswer', hm'⟩ := answer_same (hfound r' (hin r' hr')) hsame hid hanswer
        rw [← calls_of_message hsame] at hid ⊢
        exact hfetched r' hr' id hid hlacks m' hanswer' id' (results_of_message hm' ▸ hid')
  | @row before out fresh r h hfirst hfresh ih =>
    have hin : ∀ r ∈ before, r ∈ found := fun r hr => hbefore r (mem_append_left _ hr)
    have hr : r ∈ found := hbefore r (by simp)
    obtain ⟨hout, hresults, hrest⟩ := called_append.1 hcalled
    obtain ⟨hbefore', hfetched⟩ := ih hin hout
    refine ⟨called_append.2 ⟨hbefore', fun id hid => ?_, trivial⟩, fun r₀ hr₀ => ?_⟩
    · exact (hresults id hid).imp_right (h.mem_calls hplain hin)
    rcases mem_append.1 hr₀ with hr₀ | hr₀
    · exact hfetched r₀ hr₀
    obtain rfl := mem_singleton.1 hr₀
    intro id hid hlacks m hanswer id' hid'
    have hnew := new_of_first (fun r hr => hfound r (hin r hr)) (hfound _ hr) hfirst hid
    rcases hfresh.all id hid hlacks with ⟨r', hr', id₀, hid₀, hlacks₀, m₀, hanswer₀, hresult⟩ | hmem
    · -- It has not been fetched for an earlier row: that row would make the call.
      exact absurd (mem_flatMap.2 ⟨r', hr', hfetched r' hr' id₀ hid₀ hlacks₀ m₀ hanswer₀ id
        hresult⟩) hnew
    · obtain ⟨m', hm', hresult'⟩ := mem_flatMap.1 hmem
      obtain ⟨hm, hresult⟩ := Stored.answer_holds hanswer
      obtain ⟨id₀, hid₀, hlacks₀, hunfetched, hanswer₀⟩ := hfresh.of_call m' hm'
      obtain ⟨hheld, hresult₀⟩ := Stored.answer_holds hanswer₀
      have hsame := results_of_message (Stored.same_of_result hm hheld hresult hresult')
      rw [hsame] at hid'
      have hcall : id' ∈ callsOf out ∨ id' ∈ r₀.calls := by
        have hnone : namesOf (·.calls) fresh = [] :=
          flatMap_eq_nil_iff.2 (hfresh.noCalls hplain hr)
        have hknown := hrest.subset (mem_flatMap.2 ⟨m', hm', hid'⟩)
        rw [hnone] at hknown
        simpa using hknown
      refine hcall.resolve_left fun hout => hunfetched ?_
      -- An earlier row that makes the other call would have fetched the same answer.
      obtain ⟨r', hr', hcall'⟩ := mem_flatMap.1 (h.mem_calls hplain hin hout)
      obtain ⟨m₁, hanswer₁⟩ := Stored.exists_answer (hfound r' (hin r' hr')) hcall'
      obtain ⟨hm₁, hresult₁⟩ := Stored.answer_holds hanswer₁
      have hsame₁ := results_of_message (Stored.same_of_result hm₁ hheld hresult₁ hid')
      exact ⟨r', hr', id', hcall', lacks_of_same hfound hrecent hheld hresult₀ hid' hlacks₀, m₁,
        hanswer₁, hsame₁ ▸ hresult₀⟩

include hfound hrecent in
/-- Rows fit if what is listed of them is accepted before the window. -/
theorem fits_of_paired (h : Shown store found recent found out)
    (hplain : FetchedPlain store found recent)
    (hpaired : Paired (·.calls) (·.results) (out ++ recent)) : Fits store found recent := by
  obtain ⟨hcalls, hresults, -, -, hcalled, hrecalled⟩ := paired_append_iff.1 hpaired
  obtain ⟨-, hcalls, hcallsApart⟩ := nodup_append'.1 hcalls
  obtain ⟨-, hresults, hresultsApart⟩ := nodup_append'.1 hresults
  obtain ⟨hbefore, hfetched⟩ := h.called_inv hfound hrecent hplain (fun _ hr => hr) hcalled
  refine ⟨hcalls, hresults, fun r hr id hid => ?_, fun r hr id hid => ?_, hbefore, ?_, ?_⟩
  · exact hcallsApart (h.calls_mem (mem_flatMap.2 ⟨r, hr, hid⟩))
  · exact hresultsApart (h.results_mem (mem_flatMap.2 ⟨r, hr, hid⟩))
  · exact hrecalled.mono fun id hid => h.mem_calls hplain (fun _ hr => hr) hid
  · exact fun r hr id hid hl m hm => ⟨hplain r hr id hid hl m hm, hfetched r hr id hid hl m hm⟩

include hfound hrecent in
/-- What pairing puts before the window is accepted just if the rows fit. -/
theorem pairRecalled_iff (hanswered : Answered (·.calls) (·.results) (∅ : Set JsString) recent) :
    Paired (·.calls) (·.results) ((pairRecalledToolCalls store.rows found recent).1 ++ recent) ∧
      FetchedPlain store found recent ↔ Fits store found recent := by
  rcases pairRecalled_shown hfound hrecent with h | ⟨heq, hcalls, r, hr, hresults⟩
  · refine ⟨fun ⟨hpaired, hplain⟩ => fits_of_paired hfound hrecent h hplain hpaired, fun hfit => ?_⟩
    exact ⟨hfit.paired hfound hrecent h hanswered,
      fun r hr id hid hl m hm => (hfit.fetched r hr id hid hl m hm).1⟩
  · -- A result that has been found without any call is shown, and nothing is its call.
    have hno (hcalled : Called (·.calls) (·.results) (∅ : Set JsString) found) : False := by
      obtain ⟨id, hid⟩ := exists_mem_of_ne_nil _ hresults
      rcases hcalled.subset (mem_flatMap.2 ⟨r, hr, hid⟩) with hnone | hcall
      · exact hnone
      · obtain ⟨r', hr', hcall⟩ := mem_flatMap.1 hcall
        rw [hcalls r' hr'] at hcall
        exact not_mem_nil hcall
    rw [heq]
    refine iff_of_false (fun ⟨hpaired, _⟩ => hno ?_) fun hfit => hno hfit.called
    exact (called_append.1 hpaired.called).1

end Pairing

/-! ## The prompt -/

/-- The memory reads the store, and recall finds rows of it, in any order. -/
structure AgentMemory.Over (memory : AgentMemory) (store : Stored) : Prop where
  reads : memory.allMessages = store.rows
  finds : ∀ t q scope, ∀ r ∈ memory.recall t q scope, store.Holds r

section Compose

variable {store : Stored} {memory : AgentMemory} {threadId : JsString} {query : Option JsString}
  {scope : Option Scope}

theorem sliceLast_suffix {α : Type} (n : ℤ) (all : List α) : sliceLast n all <:+ all := by
  rw [sliceLast]
  split
  · exact drop_suffix _ _
  · exact drop_suffix _ _

/-- What fits into the window is the window. -/
theorem sliceLast_of_le {α : Type} {n : ℤ} {all : List α} (h : all.length ≤ n) :
    sliceLast n all = all := by
  rw [sliceLast]
  split
  · have hlength : all.length - n.toNat = 0 := by omega
    rw [hlength, drop_zero]
  · have hnil : all = [] := eq_nil_of_length_eq_zero (by omega)
    rw [hnil, drop_nil]

/-- The prompt is what pairing puts before the window, and the window. -/
theorem messages_eq : (memory.composeTrack1 threadId query scope).messages =
    ((pairRecalledToolCalls memory.allMessages (memory.injected threadId query scope)
      (memory.recent threadId)).1 ++ memory.recent threadId).map (·.message) := by
  rw [AgentMemory.composeTrack1, AgentMemory.injected]
  split
  · rw [map_append]
  · have hwindow : (if ((memory.allMessages threadId).length : ℤ) ≤ memory.recentN then
        memory.allMessages threadId else memory.recent threadId) = memory.recent threadId := by
      split
      · next hle => exact (sliceLast_of_le hle).symm
      · rfl
    simp only [hwindow]
    rfl

/-- The prompt is accepted, and no row that is fetched makes a call, just if the rows found fit. -/
theorem composed_accepted_iff (h : memory.Over store) :
    Accepted (memory.composeTrack1 threadId query scope).messages ∧
        FetchedPlain store (memory.injected threadId query scope) (memory.recent threadId) ↔
      Fits store (memory.injected threadId query scope) (memory.recent threadId) := by
  have hfound : ∀ r ∈ memory.injected threadId query scope, store.Holds r := by
    intro r hr
    rw [AgentMemory.injected] at hr
    split at hr
    · exact h.finds _ _ _ r (mem_of_mem_filter hr)
    · exact absurd hr not_mem_nil
  have hsuffix : memory.recent threadId <:+ store.rows threadId := by
    rw [AgentMemory.recent, h.reads]
    exact sliceLast_suffix _ _
  have hrecent : ∀ r ∈ memory.recent threadId, store.Holds r := by
    intro r hr
    have hmem := hsuffix.subset hr
    rw [Stored.Holds, store.named _ r hmem]
    exact hmem
  have hanswered : Answered (·.calls) (·.results) (∅ : Set JsString) (memory.recent threadId) := by
    obtain ⟨before, hbefore⟩ := hsuffix
    have hall := store.rows_answered threadId
    rw [← hbefore, answered_append] at hall
    exact hall.2
  rw [Accepted, messages_eq, paired_map, h.reads]
  exact pairRecalled_iff hfound hrecent hanswered

end Compose

/-! ## A short thread -/

/-- A text, a call with a text, and what answers it. -/
def textMessage : ModelMessage := ⟨none, .parts [⟨.other, [], none⟩]⟩
def callMessage : ModelMessage := ⟨none, .parts [⟨.other, [], none⟩, ⟨.toolCall, js "x", none⟩]⟩
def answerMessage : ModelMessage := ⟨none, .parts [⟨.toolResult, js "x", none⟩]⟩

def askedTurn : Turn :=
  ⟨[callMessage, answerMessage], by decide, by decide, by simp [Answered]; decide⟩
def saidTurn : Turn := ⟨[textMessage], by decide, by decide, by simp [Answered]; decide⟩

/-- A thread of two turns, and no other one. -/
def shortStore : Stored where
  rows t :=
    if t = js "t" then
      [⟨⟨1, callMessage⟩, js "t"⟩, ⟨⟨2, answerMessage⟩, js "t"⟩, ⟨⟨3, textMessage⟩, js "t"⟩]
    else []
  turns t := if t = js "t" then [askedTurn, saidTurn] else []
  of_turns t := by
    split
    · rfl
    · rfl
  sorted t := by
    split
    · simp
    · exact List.Pairwise.nil
  named t := by
    split
    · next h => simp [h]
    · exact nofun
  apart t t' turn hturn turn' hturn' := by
    have hmem {t : JsString} {turn : Turn}
        (h : turn ∈ if t = js "t" then [askedTurn, saidTurn] else []) :
        turn = askedTurn ∨ turn = saidTurn := by
      split at h
      · simpa using h
      · exact absurd h not_mem_nil
    rcases hmem hturn with rfl | rfl <;> rcases hmem hturn' with rfl | rfl
    · exact .inl rfl
    · exact .inr (disjoint_nil_right _)
    · exact .inr (disjoint_nil_left _)
    · exact .inl rfl

/-- A memory over it: its window has so many rows, and recall finds the first row. -/
def shortMemory (recentN : ℤ) : AgentMemory :=
  ⟨recentN, true, none, shortStore.rows, fun _ _ _ => [⟨⟨1, callMessage⟩, js "t"⟩]⟩

theorem shortMemory_over (recentN : ℤ) : (shortMemory recentN).Over shortStore where
  reads := rfl
  finds _ _ _ r hr := by
    obtain rfl := mem_singleton.1 hr
    exact mem_cons_self

/-- The window is the last text; the call is found, and what answers it is fetched. -/
theorem composed_accepted_found :
    Accepted ((shortMemory 1).composeTrack1 (js "t") (some (js "q")) none).messages := by
  refine ((composed_accepted_iff (shortMemory_over 1)).2 ?_).1
  have hinjected : (shortMemory 1).injected (js "t") (some (js "q")) none =
      [⟨⟨1, callMessage⟩, js "t"⟩] := by decide
  have hrecent : (shortMemory 1).recent (js "t") = [⟨⟨3, textMessage⟩, js "t"⟩] := by decide
  rw [hinjected, hrecent]
  refine ⟨by decide, by decide, by decide, by decide, ⟨by decide, trivial⟩, ⟨by decide, trivial⟩, ?_⟩
  intro r hr id hid _ m hanswer
  obtain rfl := mem_singleton.1 hr
  obtain rfl := mem_singleton.1 hid
  obtain rfl := Option.some_inj.1 hanswer
  exact ⟨rfl, by decide⟩

/-- The window begins with the answer, and nothing is found: its call is not shown. -/
theorem window_opens_in_turn : (shortMemory 2).Over shortStore ∧
    ¬Accepted ((shortMemory 2).composeTrack1 (js "t") none none).messages := by
  refine ⟨shortMemory_over 2, fun h => ?_⟩
  have hmessages : ((shortMemory 2).composeTrack1 (js "t") none none).messages =
      [answerMessage, textMessage] := by decide
  rw [hmessages] at h
  exact h.called.1 (js "x") (by decide)

end Gnldev.Memory
