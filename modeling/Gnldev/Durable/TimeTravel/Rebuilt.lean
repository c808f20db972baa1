import Gnldev.Durable.TimeTravel
import Gnldev.Lib.Blocks

/-!
# When the conversation is valid

A record that several calls share, in steps apart, stands before the later ones, and
what it returned is said for all of them there. A record that no call is left for is
said under its own id. So the conversation that is rebuilt is not valid for every
journal; it is for those in which every record stands after all its calls (`Sound`).

* `Lookup.named`: what a record is said for, by the records before it;
* `claims_foldl`: what is claimed is what a resolved record is for;
* `conversation_valid`: the conversation is valid exactly if the window is sound;
* `later_call_answered_first`: a record that two steps share.
-/

open List

namespace Gnldev.Durable.TimeTravel

variable {M I O : Type}

/-! ## What a record is for -/

/-- The ids of the calls of an entry. -/
def JournalEntry.callIds (e : JournalEntry I O) : List JsString := e.calls.map (·.toolCallId)

namespace Lookup

variable (l : Lookup)

/-- By its list, or else by its key, a record is for the calls with this id. -/
def isFor (key : JsString) (r : ToolRow O) (id : JsString) : Bool :=
  match r.resolvedToolCallIds with
  | some ids => id ∈ ids
  | none => id = toolIdFromKey key ∨ l.argsKeyByToolCallId id = some (toolIdFromKey key)

/-- A resolved record settles what it is for. -/
def settles (e : JournalEntry I O) (id : JsString) : Bool :=
  match e with
  | .model .. => false
  | .tool key r => r.resolved && l.isFor key r id

/-- What a record is for and no record before has settled. -/
def fresh (before : List (JournalEntry I O)) (key : JsString) (r : ToolRow O) : List JsString :=
  (l.toolCalls.map (·.toolCallId)).filter fun id =>
    l.isFor key r id && !before.any (l.settles · id)

/-- What a record is said for. -/
def named (before : List (JournalEntry I O)) : JournalEntry I O → List JsString
  | .model .. => []
  | .tool key r =>
    match l.fresh before key r with
    | [] => [toolIdFromKey key]
    | ids => ids

end Lookup

/-- Every record of the window is said for calls that are made before it, once each, and
    that no other record is said for. A call that is on no list is settled by its own
    record, if at all. -/
structure Sound (l : Lookup) (keyOf : CallPart I → JsString) (window : List (JournalEntry I O)) :
    Prop where
  issued : ∀ before e after, window = before ++ e :: after →
    ∀ id ∈ l.named before e, id ∈ before.flatMap JournalEntry.callIds
  distinct : ∀ before e after, window = before ++ e :: after → (l.named before e).Nodup
  apart : ∀ before e after, window = before ++ e :: after →
    ∀ m e' after', after = m ++ e' :: after' →
      ∀ id ∈ l.named (before ++ e :: m) e', id ∉ l.named before e
  keyed : ∀ c ∈ windowCalls window,
    (∃ key r ids, .tool key r ∈ window ∧ r.resolved = true ∧ r.resolvedToolCallIds = some ids ∧
      c.toolCallId ∈ ids) ∨
    ((∃ key r, .tool key r ∈ window ∧ r.resolved = true ∧ r.resolvedToolCallIds = none ∧
      (c.toolCallId = toolIdFromKey key ∨
        l.argsKeyByToolCallId c.toolCallId = some (toolIdFromKey key))) ↔
    ∃ key r, .tool key r ∈ window ∧ r.resolved = true ∧ r.resolvedToolCallIds = none ∧
      key = keyOf c)

/-! ## What is claimed -/

section Claims

variable {l : Lookup} {before : List (JournalEntry I O)} {claimed : List JsString}

theorem candidates_ids (key : JsString) (r : ToolRow O) :
    (l.candidates key r).map (·.toolCallId) =
      (l.toolCalls.map (·.toolCallId)).filter (l.isFor key r) := by
  rw [Lookup.candidates, filter_map]
  refine congrArg _ ?_
  cases hids : r.resolvedToolCallIds with
  | none => exact filter_congr fun x _ => by simp [Lookup.isFor, hids]
  | some ids => exact filter_congr fun x _ => by simp [Lookup.isFor, hids]

theorem matched_ids (key : JsString) (r : ToolRow O) :
    (l.matched claimed (.tool key r : JournalEntry I O)).map (·.toolCallId) =
      ((l.toolCalls.map (·.toolCallId)).filter (l.isFor key r)).filter (· ∉ claimed) := by
  rw [← candidates_ids, filter_map]
  rfl

/-- Of the calls, those are claimed that a record before settles. -/
def Claims (l : Lookup) (before : List (JournalEntry I O)) (claimed : List JsString) : Prop :=
  ∀ id ∈ l.toolCalls.map (·.toolCallId), id ∈ claimed ↔ before.any (l.settles · id) = true

theorem Claims.matched (h : Claims l before claimed) (key : JsString) (r : ToolRow O) :
    (l.matched claimed (.tool key r : JournalEntry I O)).map (·.toolCallId) =
      l.fresh before key r := by
  rw [matched_ids, filter_filter, Lookup.fresh]
  refine filter_congr fun id hid => ?_
  have hclaim : decide (id ∉ claimed) = !before.any (l.settles · id) := by
    rw [decide_not, Bool.eq_iff_iff.2 (decide_eq_true_iff.trans (h id hid))]
  rw [hclaim, Bool.and_comm]

theorem Claims.step (h : Claims l before claimed) (e : JournalEntry I O) :
    Claims l (before ++ [e]) (l.claim claimed e) := by
  intro id hid
  rw [any_append, any_cons, any_nil, Bool.or_false, Bool.or_eq_true, ← h id hid]
  rcases e with ⟨key, value⟩ | ⟨key, r⟩
  · simp [Lookup.claim, Lookup.settles]
  · rw [Lookup.claim, Lookup.settles]
    cases r.resolved with
    | false => simp
    | true =>
      -- What is claimed already is not claimed again.
      rw [if_pos rfl, matched_ids, mem_append, mem_filter, mem_filter]
      by_cases hclaimed : id ∈ claimed
      · simp [hclaimed]
      · simp [hclaimed, hid]

theorem claims_foldl (h : Claims l before claimed) (window : List (JournalEntry I O)) :
    Claims l (before ++ window) (window.foldl l.claim claimed) := by
  induction window generalizing before claimed with
  | nil => exact (append_nil before).symm ▸ h
  | cons e window ih =>
    rw [append_cons]
    exact ih (h.step e)

theorem claims_nil : Claims l ([] : List (JournalEntry I O)) [] := fun id _ => by simp

end Claims

/-! ## The messages -/

/-- What is said at an entry. -/
def Lookup.said [Nullish O] (l : Lookup) (before : List (JournalEntry I O)) (e : JournalEntry I O) :
    List (Message M I O) :=
  match e with
  | .model _ value => [.assistant ((settleModelContent value).filterMap shownPart)]
  | .tool _ r => (l.named before e).map fun id => .tool id r.shown

section Messages

variable [Nullish O] {l : Lookup} {before : List (JournalEntry I O)} {claimed : List JsString}

theorem render_eq (h : Claims l before claimed) (e : JournalEntry I O) :
    (render e (l.matched claimed e) : List (Message M I O)) = l.said before e := by
  rcases e with ⟨key, value⟩ | ⟨key, r⟩
  · rfl
  · rw [Lookup.said, Lookup.named, ← h.matched]
    rcases l.matched claimed (.tool key r : JournalEntry I O) with _ | ⟨m, ms⟩
    · rfl
    · simp [render]

theorem zipWith_render (h : Claims l before claimed) (window : List (JournalEntry I O)) :
    ((window.zipWith render (l.matchesByIndex window claimed)).flatten : List (Message M I O)) =
      blocks l.said before window := by
  induction window generalizing before claimed with
  | nil => rfl
  | cons e window ih =>
    rw [Lookup.matchesByIndex, zipWith_cons_cons, flatten_cons, render_eq h, ih (h.step e),
      blocks]

/-- An assistant message makes the calls of its model step. -/
theorem toolCalls_shown (content : List (ContentPart I)) :
    (content.filterMap shownPart).filterMap ContentPart.toolCall? =
      content.filterMap ContentPart.toolCall? := by
  rw [filterMap_filterMap]
  refine filterMap_congr fun p _ => ?_
  rcases p with _ | _ | _ | _ <;> rfl

theorem callIds_blocks (before window : List (JournalEntry I O)) :
    namesOf Message.callIds (blocks l.said before window : List (Message M I O)) =
      window.flatMap JournalEntry.callIds := by
  rw [namesOf, flatMap_blocks]
  refine blocks_const fun before e => ?_
  rcases e with ⟨key, value⟩ | ⟨key, r⟩
  · simp [Lookup.said, Message.callIds, JournalEntry.callIds, JournalEntry.calls, toolCalls_shown]
  · simp [Lookup.said, Message.callIds, JournalEntry.callIds, JournalEntry.calls]

theorem resultIds_said (before : List (JournalEntry I O)) (e : JournalEntry I O) :
    (l.said before e : List (Message M I O)).flatMap Message.resultIds = l.named before e := by
  rcases e with ⟨key, value⟩ | ⟨key, r⟩
  · rfl
  · rw [Lookup.said, flatMap_map]
    exact flatMap_singleton' _

theorem resultIds_blocks (before window : List (JournalEntry I O)) :
    namesOf Message.resultIds (blocks l.said before window : List (Message M I O)) =
      blocks l.named before window := by
  rw [namesOf, flatMap_blocks]
  exact congrArg (blocks · before window) (funext₂ resultIds_said)

theorem called_said {known : Set JsString} (before : List (JournalEntry I O))
    (e : JournalEntry I O) :
    Called Message.callIds Message.resultIds known (l.said before e : List (Message M I O)) ↔
      ∀ id ∈ l.named before e, id ∈ known := by
  constructor
  · intro h id hid
    rw [← resultIds_said (M := M)] at hid
    rcases h.subset hid with hknown | hcall
    · exact hknown
    · rcases e with ⟨key, value⟩ | ⟨key, r⟩
      · exact absurd hid not_mem_nil
      · simp [namesOf, Lookup.said, Message.callIds] at hcall
  · intro h
    refine called_of_known fun id hid => h id ?_
    rwa [namesOf, resultIds_said] at hid

/-- The results have their calls before them if the records have. -/
theorem called_messages (window : List (JournalEntry I O)) :
    Called Message.callIds Message.resultIds ∅ (blocks l.said [] window : List (Message M I O)) ↔
      ∀ before e after, window = before ++ e :: after →
        ∀ id ∈ l.named before e, id ∈ before.flatMap JournalEntry.callIds := by
  rw [called_blocks]
  simp only [called_said, callIds_blocks, nil_append, Set.mem_ofPred_eq, Set.mem_empty_iff_false,
    false_or]

end Messages

/-! ## The calls -/

section Calls

variable {hash : I → JsString} {window : List (JournalEntry I O)} {keyOf : CallPart I → JsString}

variable {c : CallPart I}

theorem mem_ids (hc : c ∈ windowCalls window) :
    c.toolCallId ∈ (lookup hash window).toolCalls.map (·.toolCallId) := by
  rw [lookup, map_map]
  exact mem_map_of_mem hc

/-- A call is pending if no record settles it. -/
theorem mem_pending_iff (hc : c ∈ windowCalls window) :
    refOf c ∈ (lookup hash window).toolCalls.filter
        (·.toolCallId ∉ window.foldl (lookup hash window).claim []) ↔
      ¬∃ e ∈ window, (lookup hash window).settles e c.toolCallId = true := by
  have hclaims : Claims (lookup hash window) window _ := claims_foldl claims_nil window
  have hmem : refOf c ∈ (lookup hash window).toolCalls := mem_map_of_mem hc
  rw [mem_filter, and_iff_right hmem, decide_eq_true_iff, ← any_eq_true]
  exact not_congr (hclaims _ (mem_ids hc))

theorem exists_settles_iff {l : Lookup} {id : JsString} :
    (∃ e ∈ window, l.settles e id = true) ↔
      (∃ key r ids, .tool key r ∈ window ∧ r.resolved = true ∧
        r.resolvedToolCallIds = some ids ∧ id ∈ ids) ∨
      ∃ key r, .tool key r ∈ window ∧ r.resolved = true ∧ r.resolvedToolCallIds = none ∧
        (id = toolIdFromKey key ∨ l.argsKeyByToolCallId id = some (toolIdFromKey key)) := by
  constructor
  · rintro ⟨⟨key, value⟩ | ⟨key, r⟩, he, hsettles⟩
    · contradiction
    · obtain ⟨hresolved, hfor⟩ := Bool.and_eq_true_iff.1 hsettles
      rw [Lookup.isFor] at hfor
      cases hids : r.resolvedToolCallIds with
      | none => exact .inr ⟨key, r, he, hresolved, hids, by simpa [hids] using hfor⟩
      | some ids => exact .inl ⟨key, r, ids, he, hresolved, hids, by simpa [hids] using hfor⟩
  · rintro (⟨key, r, ids, he, hresolved, hids, hid⟩ | ⟨key, r, he, hresolved, hids, hid⟩)
    · exact ⟨_, he, by simp [Lookup.settles, Lookup.isFor, hresolved, hids, hid]⟩
    · exact ⟨_, he, by simp [Lookup.settles, Lookup.isFor, hresolved, hids, hid]⟩

theorem exists_serves_iff :
    (∃ key r, .tool key r ∈ window ∧ r.resolved = true ∧ serves keyOf key r c) ↔
      (∃ key r ids, .tool key r ∈ window ∧ r.resolved = true ∧
        r.resolvedToolCallIds = some ids ∧ c.toolCallId ∈ ids) ∨
      ∃ key r, .tool key r ∈ window ∧ r.resolved = true ∧ r.resolvedToolCallIds = none ∧
        key = keyOf c := by
  constructor
  · rintro ⟨key, r, he, hresolved, hserves⟩
    rw [serves] at hserves
    cases hids : r.resolvedToolCallIds with
    | none => exact .inr ⟨key, r, he, hresolved, hids, by simpa [hids] using hserves⟩
    | some ids => exact .inl ⟨key, r, ids, he, hresolved, hids, by simpa [hids] using hserves⟩
  · rintro (⟨key, r, ids, he, hresolved, hids, hid⟩ | ⟨key, r, he, hresolved, hids, hid⟩)
    · exact ⟨key, r, he, hresolved, by simpa [serves, hids] using hid⟩
    · exact ⟨key, r, he, hresolved, by simpa [serves, hids] using hid⟩

end Calls

/-! ## The conversation -/

theorem or_iff_or_left {p q r : Prop} : (p ∨ q ↔ p ∨ r) ↔ p ∨ (q ↔ r) := by tauto

variable {window : List (JournalEntry I O)}

theorem mem_windowCalls_of_issued {id : JsString} (h : id ∈ window.flatMap JournalEntry.callIds) :
    ∃ c ∈ windowCalls window, c.toolCallId = id := by
  rwa [← mem_map, windowCalls, map_flatMap]

/-- If the results have their calls before them, no call has two exactly if no id is said twice. -/
theorem once_iff {ids : List JsString} (h : ∀ id ∈ ids, id ∈ window.flatMap JournalEntry.callIds) :
    (∀ c ∈ windowCalls window, ids.count c.toolCallId ≤ 1) ↔ ids.Nodup := by
  rw [nodup_iff_count_le_one]
  refine ⟨fun honce id => ?_, fun hcount c _ => hcount c.toolCallId⟩
  by_cases hid : id ∈ ids
  · obtain ⟨c, hc, rfl⟩ := mem_windowCalls_of_issued (h id hid)
    exact honce c hc
  · rw [count_eq_zero_of_not_mem hid]
    exact Nat.zero_le 1

theorem mem_of_issued {l : Lookup} (h : ∀ before e after, window = before ++ e :: after →
      ∀ id ∈ l.named before e, id ∈ before.flatMap JournalEntry.callIds) :
    ∀ id ∈ blocks l.named [] window, id ∈ window.flatMap JournalEntry.callIds := by
  refine forall_mem_blocks.2 fun before e after hwindow id hid => ?_
  rw [hwindow, flatMap_append]
  exact mem_append_left _ (h before e after hwindow id hid)

/-- The conversation of a run up to a step is valid exactly if the entries up to it are sound. -/
theorem conversation_valid [Nullish O] (hash : I → JsString) (runId : JsString)
    (modes : JsString → ToolMode I) (entries : List (JournalEntry I O)) (uptoStep : ℤ)
    (seed : Option (ReconstructSeed M)) :
    ValidConversation (recordKey hash runId modes) (windowOf entries uptoStep)
        ((reconstructState hash entries uptoStep seed).messages.drop
          (seedMessages seed : List (Message M I O)).length)
        (reconstructState hash entries uptoStep seed : ReconstructedState M I O).pending ↔
      Sound (lookup hash (windowOf entries uptoStep)) (recordKey hash runId modes)
        (windowOf entries uptoStep) := by
  have hmessages : (reconstructState hash entries uptoStep seed).messages.drop
      (seedMessages seed : List (Message M I O)).length =
        blocks (lookup hash (windowOf entries uptoStep)).said [] (windowOf entries uptoStep) := by
    rw [reconstructState, List.drop_left, zipWith_render claims_nil]
  rw [hmessages]
  constructor
  · rintro ⟨honce, hcalled, hpending⟩
    have hissued := (called_messages _).1 hcalled
    rw [resultIds_blocks, once_iff (mem_of_issued hissued), nodup_blocks] at honce
    refine ⟨hissued, honce.1, honce.2, fun c hc => ?_⟩
    have hiff := not_iff_not.1 ((mem_pending_iff hc).symm.trans (hpending c hc))
    rw [exists_settles_iff, exists_serves_iff] at hiff
    exact or_iff_or_left.1 hiff
  · rintro ⟨hissued, hdistinct, hapart, hkeyed⟩
    refine ⟨?_, (called_messages _).2 hissued, fun c hc => ?_⟩
    · rw [resultIds_blocks, once_iff (mem_of_issued hissued), nodup_blocks]
      exact ⟨hdistinct, hapart⟩
    · refine (mem_pending_iff hc).trans (not_congr ?_)
      rw [exists_settles_iff, exists_serves_iff]
      exact or_iff_or_left.2 (hkeyed c hc)

instance : Nullish Unit := ⟨fun _ => false⟩

/-- A tool that keeps one record for an order, called for the same order in two steps. -/
def twoTurns : List (JournalEntry Unit Unit) :=
  [.model (js "r:model:0") ⟨some [.toolCall (js "call-1") (js "chargeOrder") ()], none⟩,
    .tool (js "r:tool:args-chargeOrder-o1")
      ⟨.succeeded, some (), some [js "call-1", js "call-2"]⟩,
    .model (js "r:model:1") ⟨some [.toolCall (js "call-2") (js "chargeOrder") ()], none⟩,
    .model (js "r:model:2") ⟨some [.text (js "done")], none⟩]

def twoTurnsState : ReconstructedState Unit Unit Unit :=
  reconstructState (fun _ => js "h") twoTurns 4 none

/-- The second call has its result before it. -/
theorem second_call_answered_first :
    ¬ValidConversation (recordKey (fun _ => js "h") (js "r") fun _ => .args (some fun _ => js "o1"))
      (windowOf twoTurns 4) twoTurnsState.messages twoTurnsState.pending := by
  intro h
  have hmessages : twoTurnsState.messages =
      [.assistant [.toolCall (js "call-1") (js "chargeOrder") ()],
        .tool (js "call-1") (.output ()), .tool (js "call-2") (.output ()),
        .assistant [.toolCall (js "call-2") (js "chargeOrder") ()],
        .assistant [.text (js "done")]] := by decide
  have hcalled := h.called
  rw [hmessages] at hcalled
  rcases hcalled.2.2.1 (js "call-2") (List.mem_singleton.2 rfl) with (hnone | hfirst) | hresult
  · exact hnone
  · exact absurd hfirst (by decide)
  · exact absurd hresult (by decide)

end Gnldev.Durable.TimeTravel
