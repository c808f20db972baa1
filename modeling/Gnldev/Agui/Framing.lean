import Gnldev.Agui.Convert
import Mathlib.Data.List.Induction
import Mathlib.Data.List.Nodup

/-!
# The framing of texts and calls

The events of a run are converted one by one, and the state is threaded through. A text is closed
before anything that is no piece of it, whatever comes (`scan_convertAll`). A call whose input was
streamed is framed a second time if a text begins before the call comes, since the state of a text
that begins has no streamed calls.
-/

open List

namespace Gnldev.Agui

open Durable JsValue

/-- The events, converted one after the other. -/
def convertAll (ctx : AguiConvertContext) :
    List AgentStreamEvent → AguiConvertState → Except JsValue (List AguiEvent × AguiConvertState)
  | [], state => .ok ([], state)
  | e :: events, state => do
    let (ys, state) ← toAguiEvents ctx e state
    let (zs, state) ← convertAll ctx events state
    return (ys ++ zs, state)

/-- The id of a text. -/
def textId (ctx : AguiConvertContext) (n : ℕ) : JsString := ctx.runId ++ js ":text:" ++ decimal n

section Step

variable {ctx : AguiConvertContext} {e : AgentStreamEvent} {state state' : AguiConvertState}
  {ys : List AguiEvent}

/-- The call has been framed, as far as the state says. -/
def AguiConvertState.streamed (state : AguiConvertState) (toolCallId : JsValue) : Bool :=
  (state.streamedToolIds.getD []).any (·.sameValueZero toolCallId)

/-- Events that have no frame of their own, and are no boundary of a text. -/
def Aside : AgentStreamEventName → Prop
  | .reasoningStart | .reasoningDelta | .reasoningEnd | .source | .file | .stepStart | .stepFinish
  | .toolError | .raw => True
  | _ => False

/-- What ends a text and is not of a call. -/
inductive Ends : AgentStreamEventName → AguiEvent → Prop
  | interrupt {value} : Ends .interrupt (.CUSTOM (js "gnl.interrupt") value)
  | error {message code rawEvent} : Ends .error (.RUN_ERROR message code rawEvent)
  | done {threadId runId result} : Ends .done (.RUN_FINISHED threadId runId result)

/-- What an event is converted to. -/
inductive Step (ctx : AguiConvertContext) (state : AguiConvertState) :
    AgentStreamEvent → List AguiEvent → AguiConvertState → Prop
  | more {data text messageId} : openText state = some messageId →
      Step ctx state ⟨.textDelta, data⟩ [.TEXT_MESSAGE_CONTENT messageId text] state
  | opened {data text} : openText state = none →
      Step ctx state ⟨.textDelta, data⟩
        [.TEXT_MESSAGE_START (textId ctx state.textSeq) (js "assistant"),
          .TEXT_MESSAGE_CONTENT (textId ctx state.textSeq) text]
        ⟨true, some (textId ctx state.textSeq), state.textSeq + 1, none⟩
  | inputStart {data} {name : JsValue} :
      Step ctx state ⟨.toolInputStart, data⟩
        ((closeText state).1 ++ [.TOOL_CALL_START (data.field (js "toolCallId")) name])
        { (closeText state).2 with
          streamedToolIds := some ((closeText state).2.streamedToolIds.getD [] ++
            [data.field (js "toolCallId")]) }
  | inputDelta {data delta} :
      Step ctx state ⟨.toolInputDelta, data⟩
        [.TOOL_CALL_ARGS (data.field (js "toolCallId")) delta] state
  | inputEnd {data} :
      Step ctx state ⟨.toolInputEnd, data⟩ [.TOOL_CALL_END (data.field (js "toolCallId"))] state
  | framed {data} : state.streamed (data.field (js "toolCallId")) = true →
      Step ctx state ⟨.toolCall, data⟩ (closeText state).1 (closeText state).2
  | call {data} {name : JsValue} {args} : state.streamed (data.field (js "toolCallId")) = false →
      Step ctx state ⟨.toolCall, data⟩
        ((closeText state).1 ++ [.TOOL_CALL_START (data.field (js "toolCallId")) name,
          .TOOL_CALL_ARGS (data.field (js "toolCallId")) args,
          .TOOL_CALL_END (data.field (js "toolCallId"))])
        (closeText state).2
  | result {data messageId content} : (data.field (js "toolCallId")).toText = .ok messageId →
      Step ctx state ⟨.toolResult, data⟩
        ((closeText state).1 ++ [.TOOL_CALL_RESULT (messageId ++ js ":result")
          (data.field (js "toolCallId")) content (js "tool")])
        (closeText state).2
  | ended {event data y} : Ends event y →
      Step ctx state ⟨event, data⟩ ((closeText state).1 ++ [y]) (closeText state).2
  | aside {event data} : Aside event →
      Step ctx state ⟨event, data⟩ [.CUSTOM (js "gnl." ++ event.text) data] state

theorem streamed_closeText (toolCallId : JsValue) :
    (closeText state).2.streamed toolCallId = state.streamed toolCallId := by
  unfold closeText
  split <;> rfl

theorem toAguiEvents_step (h : toAguiEvents ctx e state = .ok (ys, state')) :
    Step ctx state e ys state' := by
  obtain ⟨event, data⟩ := e
  unfold toAguiEvents at h
  cases event
  case textDelta =>
    dsimp only at h
    split at h
    · next messageId hopen =>
      obtain ⟨rfl, rfl⟩ := Prod.mk.inj (Except.ok.inj h)
      exact .more hopen
    · next hopen =>
      obtain ⟨rfl, rfl⟩ := Prod.mk.inj (Except.ok.inj h)
      exact .opened hopen
  case toolInputStart =>
    obtain ⟨rfl, rfl⟩ := Prod.mk.inj (Except.ok.inj h)
    exact .inputStart
  case toolInputDelta =>
    rcases ht : ((data.field (js "delta")).coalesce (.str [])).toText with e | s
    · simp only [ht] at h
      contradiction
    · simp only [ht] at h
      obtain ⟨rfl, rfl⟩ := Prod.mk.inj (Except.ok.inj h)
      exact .inputDelta
  case toolInputEnd =>
    obtain ⟨rfl, rfl⟩ := Prod.mk.inj (Except.ok.inj h)
    exact .inputEnd
  case toolCall =>
    dsimp only at h
    split at h
    · next hstreamed =>
      obtain ⟨rfl, rfl⟩ := Prod.mk.inj (Except.ok.inj h)
      exact .framed ((streamed_closeText _).symm.trans hstreamed)
    · next hstreamed =>
      obtain ⟨rfl, rfl⟩ := Prod.mk.inj (Except.ok.inj h)
      exact .call ((streamed_closeText _).symm.trans (Bool.not_eq_true _ ▸ hstreamed))
  case toolResult =>
    rcases ht : (data.field (js "toolCallId")).toText with e | s
    · simp only [ht] at h
      contradiction
    · simp only [ht] at h
      obtain ⟨rfl, rfl⟩ := Prod.mk.inj (Except.ok.inj h)
      exact .result ht
  case interrupt =>
    obtain ⟨rfl, rfl⟩ := Prod.mk.inj (Except.ok.inj h)
    exact .ended .interrupt
  case error =>
    rcases ht : ((data.field (js "error")).coalesce (.str (js "unknown error"))).toText with e | s
    · simp only [ht] at h
      contradiction
    · simp only [ht] at h
      obtain ⟨rfl, rfl⟩ := Prod.mk.inj (Except.ok.inj h)
      exact .ended .error
  case done =>
    obtain ⟨rfl, rfl⟩ := Prod.mk.inj (Except.ok.inj h)
    exact .ended .done
  all_goals
    obtain ⟨rfl, rfl⟩ := Prod.mk.inj (Except.ok.inj h)
    exact .aside trivial

theorem exists_toAguiEvents (he : Converts e) (state : AguiConvertState) :
    ∃ ys state', toAguiEvents ctx e state = .ok (ys, state') := by
  obtain ⟨⟨ys, state'⟩, h⟩ := (toAguiEvents_isOk_iff e state).2 he
  exact ⟨ys, state', h⟩

end Step

/-- A fold of steps. -/
inductive Steps (ctx : AguiConvertContext) :
    AguiConvertState → List AgentStreamEvent → List AguiEvent → AguiConvertState → Prop
  | nil {state} : Steps ctx state [] [] state
  | cons {state e ys state' events zs state''} : Step ctx state e ys state' →
      Steps ctx state' events zs state'' → Steps ctx state (e :: events) (ys ++ zs) state''

section Steps

variable {ctx : AguiConvertContext} {events : List AgentStreamEvent} {out : List AguiEvent}
  {state state' : AguiConvertState}

theorem convertAll_ok (h : ∀ e ∈ events, Converts e) (state : AguiConvertState) :
    ∃ out state', convertAll ctx events state = .ok (out, state') ∧
      Steps ctx state events out state' := by
  induction events generalizing state with
  | nil => exact ⟨[], state, rfl, .nil⟩
  | cons e events ih =>
    rw [forall_mem_cons] at h
    obtain ⟨ys, state₁, hstep⟩ := exists_toAguiEvents h.1 state
    obtain ⟨zs, state₂, hrest, hsteps⟩ := ih h.2 state₁
    refine ⟨ys ++ zs, state₂, ?_, .cons (toAguiEvents_step hstep) hsteps⟩
    rw [convertAll, hstep]
    change (convertAll ctx events state₁ >>= fun r => pure (ys ++ r.1, r.2)) = _
    rw [hrest]
    rfl

/-! ## Texts -/

/-- What no text may be open at. -/
def Boundary : AguiEvent → Prop
  | .TOOL_CALL_START .. | .TOOL_CALL_RESULT .. | .RUN_ERROR .. | .RUN_FINISHED .. => True
  | .CUSTOM name _ => name = js "gnl.interrupt"
  | _ => False

instance : DecidablePred Boundary
  | .TOOL_CALL_START .. | .TOOL_CALL_RESULT .. | .RUN_ERROR .. | .RUN_FINISHED .. => .isTrue trivial
  | .CUSTOM name _ => inferInstanceAs (Decidable (name = js "gnl.interrupt"))
  | .RUN_STARTED .. | .TEXT_MESSAGE_START .. | .TEXT_MESSAGE_CONTENT .. | .TEXT_MESSAGE_END ..
  | .TOOL_CALL_ARGS .. | .TOOL_CALL_END .. => .isFalse id

/-- The text that is open after an event, if the event may come. -/
def scanEvent (cur : Option JsString) : AguiEvent → Option (Option JsString)
  | .TEXT_MESSAGE_START m _ => if cur = none then some (some m) else none
  | .TEXT_MESSAGE_CONTENT m _ => if cur = some m then some cur else none
  | .TEXT_MESSAGE_END m => if cur = some m then some none else none
  | y => if Boundary y ∧ cur ≠ none then none else some cur

/-- The text that is open after the events. -/
def scan : Option JsString → List AguiEvent → Option (Option JsString)
  | cur, [] => some cur
  | cur, y :: ys => (scanEvent cur y).bind (scan · ys)

theorem scan_append (cur : Option JsString) (ys zs : List AguiEvent) :
    scan cur (ys ++ zs) = (scan cur ys).bind (scan · zs) := by
  induction ys generalizing cur with
  | nil => rfl
  | cons y ys ih =>
    rw [cons_append, scan, scan]
    rcases scanEvent cur y with _ | cur'
    · rfl
    · exact ih cur'

theorem openText_closeText : openText (closeText state).2 = none := by
  unfold closeText
  split
  · next h => exact h
  · rfl

theorem scan_closeText : scan (openText state) (closeText state).1 = some none := by
  unfold closeText
  split
  · next h => rw [h, scan]
  · next m h => simp [h, scan, scanEvent]

theorem openText_opened (n k : ℕ) : openText ⟨true, some (textId ctx n), k, none⟩ =
    some (textId ctx n) := by
  have hne : textId ctx n ≠ [] := fun h => decimal_ne_nil n (append_eq_nil_iff.1 h).2
  simp [openText, hne]

variable {e : AgentStreamEvent} {ys : List AguiEvent}

/-- What an event is converted to keeps the texts in their frames. -/
theorem scan_step (h : Step ctx state e ys state') :
    scan (openText state) ys = some (openText state') := by
  have hclosed (ys : List AguiEvent) (hys : scan none ys = some none) :
      scan (openText state) ((closeText state).1 ++ ys) = some none := by
    rw [scan_append, scan_closeText]
    exact hys
  cases h with
  | more hopen => simp [scan, scanEvent, hopen]
  | opened hopen =>
    rw [openText_opened]
    simp [scan, scanEvent, hopen]
  | inputStart =>
    exact (hclosed _ (by simp [scan, scanEvent])).trans (congrArg some openText_closeText).symm
  | inputDelta => simp [scan, scanEvent, Boundary]
  | inputEnd => simp [scan, scanEvent, Boundary]
  | framed => rw [scan_closeText, openText_closeText]
  | call => 
    rw [openText_closeText]
    exact hclosed _ (by simp [scan, scanEvent])
  | result =>
    rw [openText_closeText]
    exact hclosed _ (by simp [scan, scanEvent])
  | ended hends =>
    rw [openText_closeText]
    exact hclosed _ (by cases hends <;> simp [scan, scanEvent])
  | @aside event data haside =>
    have hname : js "gnl." ++ event.text ≠ js "gnl.interrupt" := by
      cases event <;> first | exact haside.elim | decide
    simp [scan, scanEvent, Boundary, hname]

theorem scan_steps (h : Steps ctx state events out state') :
    scan (openText state) out = some (openText state') := by
  induction h with
  | nil => rfl
  | cons hstep _ ih =>
    rw [scan_append, scan_step hstep]
    exact ih

/-- The ids of the texts that begin. -/
def textIds (ys : List AguiEvent) : List JsString :=
  ys.filterMap fun
    | .TEXT_MESSAGE_START m _ => some m
    | _ => none

/-- The ids of the texts that end. -/
def endIds (ys : List AguiEvent) : List JsString :=
  ys.filterMap fun
    | .TEXT_MESSAGE_END m => some m
    | _ => none

/-- The ids of the texts with a piece. -/
def pieceIds (ys : List AguiEvent) : List JsString :=
  ys.filterMap fun
    | .TEXT_MESSAGE_CONTENT m _ => some m
    | _ => none

theorem textIds_append (ys zs : List AguiEvent) : textIds (ys ++ zs) = textIds ys ++ textIds zs :=
  filterMap_append

theorem endIds_append (ys zs : List AguiEvent) : endIds (ys ++ zs) = endIds ys ++ endIds zs :=
  filterMap_append

variable {cur : Option JsString}

/-- An event that is not of a text leaves open what is open. -/
theorem scanEvent_other {y : AguiEvent} {cur' : Option JsString} (ht : textIds [y] = [])
    (he : endIds [y] = []) (h : scanEvent cur' y = some cur) :
    cur = cur' := by
  cases y with
  | TEXT_MESSAGE_START m _ => exact absurd ht (cons_ne_nil _ _)
  | TEXT_MESSAGE_END m => exact absurd he (cons_ne_nil _ _)
  | TEXT_MESSAGE_CONTENT m _ =>
    rw [scanEvent, Option.ite_none_right_eq_some] at h
    exact (Option.some.inj h.2).symm
  | _ =>
    simp only [scanEvent, Option.ite_none_left_eq_some] at h
    exact (Option.some.inj h.2).symm

/-- A text is open if and only if it has begun and has not ended. -/
theorem scan_eq_some (h : scan none ys = some cur) (hnodup : (textIds ys).Nodup) :
    (∀ m, cur = some m ↔ m ∈ textIds ys ∧ m ∉ endIds ys) ∧ ∀ m ∈ endIds ys, m ∈ textIds ys := by
  induction ys using List.reverseRecOn generalizing cur with
  | nil =>
    obtain rfl := Option.some.inj h
    exact ⟨by simp [textIds], nofun⟩
  | append_singleton ys y ih =>
    rw [scan_append, Option.bind_eq_some_iff] at h
    obtain ⟨cur', hys, hy⟩ := h
    rw [scan, Option.bind_eq_some_iff] at hy
    obtain ⟨cur₁, hy, hcur⟩ := hy
    obtain rfl := Option.some.inj hcur
    rw [textIds_append] at hnodup ⊢
    rw [endIds_append]
    obtain ⟨hopen, hended⟩ := ih hys (nodup_append.1 hnodup).1
    by_cases hstart : ∃ m role, y = .TEXT_MESSAGE_START m role
    · obtain ⟨m, role, rfl⟩ := hstart
      rw [scanEvent, Option.ite_none_right_eq_some] at hy
      obtain ⟨rfl, hcur⟩ := hy
      obtain rfl := Option.some.inj hcur
      have hnew : m ∉ textIds ys := fun hm =>
        (nodup_append.1 hnodup).2.2 m hm m mem_cons_self rfl
      have hids : textIds [AguiEvent.TEXT_MESSAGE_START m role] = [m] := rfl
      have hends : endIds [AguiEvent.TEXT_MESSAGE_START m role] = [] := rfl
      rw [hids, hends, append_nil]
      refine ⟨fun k => ?_, fun k hk => mem_append_left _ (hended k hk)⟩
      constructor
      · rintro ⟨⟩
        exact ⟨mem_append_right _ mem_cons_self, fun hm => hnew (hended m hm)⟩
      · rintro ⟨hk, hk'⟩
        rcases mem_append.1 hk with hk | hk
        · exact nomatch (hopen k).2 ⟨hk, hk'⟩
        · rw [mem_singleton.1 hk]
    by_cases hend : ∃ m, y = .TEXT_MESSAGE_END m
    · obtain ⟨m, rfl⟩ := hend
      rw [scanEvent, Option.ite_none_right_eq_some] at hy
      obtain ⟨rfl, hcur⟩ := hy
      obtain rfl := Option.some.inj hcur
      have hids : textIds [AguiEvent.TEXT_MESSAGE_END m] = [] := rfl
      have hends : endIds [AguiEvent.TEXT_MESSAGE_END m] = [m] := rfl
      rw [hids, hends, append_nil]
      refine ⟨fun k => iff_of_false nofun fun ⟨hk, hk'⟩ => ?_, fun k hk => ?_⟩
      · rw [mem_append, not_or] at hk'
        obtain ⟨⟩ := (hopen k).2 ⟨hk, hk'.1⟩
        exact hk'.2 mem_cons_self
      · rcases mem_append.1 hk with hk | hk
        · exact hended k hk
        · rw [mem_singleton.1 hk]
          exact ((hopen m).1 rfl).1
    have hids : textIds [y] = [] := by
      cases y <;> first | rfl | exact absurd ⟨_, _, rfl⟩ hstart
    have hends : endIds [y] = [] := by
      cases y <;> first | rfl | exact absurd ⟨_, rfl⟩ hend
    obtain rfl := scanEvent_other hids hends hy
    rw [hids, hends, append_nil, append_nil]
    exact ⟨hopen, hended⟩

/-- A piece of a text is between its beginning and its end, and no text is open at a boundary. -/
structure TextFramed (out : List AguiEvent) : Prop where
  between : ∀ ys m delta zs, out = ys ++ .TEXT_MESSAGE_CONTENT m delta :: zs →
    m ∈ textIds ys ∧ m ∉ endIds ys ∧ m ∈ endIds zs
  closed : ∀ ys y zs, out = ys ++ y :: zs → Boundary y → ∀ m ∈ textIds ys, m ∈ endIds ys

theorem scan_before {zs : List AguiEvent} {y : AguiEvent} (h : scan none (ys ++ y :: zs) = some cur) :
    ∃ cur' cur₁, scan none ys = some cur' ∧ scanEvent cur' y = some cur₁ := by
  rw [scan_append, Option.bind_eq_some_iff] at h
  obtain ⟨cur', hys, hrest⟩ := h
  rw [scan, Option.bind_eq_some_iff] at hrest
  obtain ⟨cur₁, hy, -⟩ := hrest
  exact ⟨cur', cur₁, hys, hy⟩

/-- Texts are framed if and only if none is open at the end. -/
theorem textFramed_iff (h : scan none out = some cur) (hnodup : (textIds out).Nodup)
    (hpiece : ∀ m ∈ textIds out, m ∈ pieceIds out) :
    TextFramed out ↔ cur = none := by
  have hend := scan_eq_some h hnodup
  have hbefore {ys : List AguiEvent} {zs} (hout : out = ys ++ zs) : (textIds ys).Nodup := by
    rw [hout, textIds_append] at hnodup
    exact (nodup_append.1 hnodup).1
  constructor
  · intro hframed
    by_contra hcur
    obtain ⟨m, rfl⟩ := Option.ne_none_iff_exists'.1 hcur
    obtain ⟨hm, hm'⟩ := (hend.1 m).1 rfl
    obtain ⟨y, hy, heq⟩ := mem_filterMap.1 (hpiece m hm)
    obtain ⟨delta, rfl⟩ : ∃ delta, y = .TEXT_MESSAGE_CONTENT m delta := by
      cases y <;> simp_all
    obtain ⟨ys, zs, hout⟩ := append_of_mem hy
    have hlater := (hframed.between ys m delta zs hout).2.2
    rw [hout, endIds_append] at hm'
    exact hm' (mem_append_right _ (mem_filterMap.2
      ((mem_filterMap.1 hlater).imp fun z hz => ⟨mem_cons_of_mem _ hz.1, hz.2⟩)))
  · rintro rfl
    constructor
    · intro ys m delta zs hout
      obtain ⟨cur', cur₁, hys, hy⟩ := scan_before (hout ▸ h)
      rw [scanEvent, Option.ite_none_right_eq_some] at hy
      obtain ⟨hm, hm'⟩ := ((scan_eq_some hys (hbefore hout)).1 m).1 hy.1
      have hmem : m ∈ endIds out := by
        by_contra hno
        have hstarted : m ∈ textIds out := by
          rw [hout, textIds_append]
          exact mem_append_left _ hm
        exact nomatch (hend.1 m).2 ⟨hstarted, hno⟩
      rw [hout, endIds_append] at hmem
      exact ⟨hm, hm', (mem_append.1 hmem).resolve_left hm'⟩
    · intro ys y zs hout hy m hm
      obtain ⟨cur', cur₁, hys, hscan⟩ := scan_before (hout ▸ h)
      have hcur : cur' = none := by
        cases y <;> first | exact hy.elim | simp_all [scanEvent, Boundary]
      by_contra hno
      rw [hcur] at hys
      exact nomatch ((scan_eq_some hys (hbefore hout)).1 m).2 ⟨hm, hno⟩

/-! ## Ids -/

/-- The ids of the results of calls. -/
def resultIds (ys : List AguiEvent) : List JsString :=
  ys.filterMap fun
    | .TOOL_CALL_RESULT m .. => some m
    | _ => none

theorem textIds_closeText : textIds (closeText state).1 = [] := by
  unfold closeText
  split <;> rfl

theorem textSeq_closeText : (closeText state).2.textSeq = state.textSeq := by
  unfold closeText
  split <;> rfl

theorem resultIds_closeText : resultIds (closeText state).1 = [] := by
  unfold closeText
  split <;> rfl

/-- At most one text begins, and it has the next number. -/
theorem textIds_step (h : Step ctx state e ys state') :
    ∃ n, textIds ys = (List.range' state.textSeq n).map (textId ctx) ∧
      state'.textSeq = state.textSeq + n := by
  have hnone (zs : List AguiEvent) (hzs : textIds zs = []) :
      textIds ((closeText state).1 ++ zs) = (List.range' state.textSeq 0).map (textId ctx) := by
    rw [textIds_append, textIds_closeText, hzs]
    rfl
  cases h with
  | opened hopen => exact ⟨1, rfl, rfl⟩
  | more hopen => exact ⟨0, rfl, rfl⟩
  | inputStart => exact ⟨0, hnone _ rfl, textSeq_closeText⟩
  | inputDelta => exact ⟨0, rfl, rfl⟩
  | inputEnd => exact ⟨0, rfl, rfl⟩
  | framed => exact ⟨0, textIds_closeText, textSeq_closeText⟩
  | call => exact ⟨0, hnone _ rfl, textSeq_closeText⟩
  | result => exact ⟨0, hnone _ rfl, textSeq_closeText⟩
  | ended hends => exact ⟨0, hnone _ (by cases hends <;> rfl), textSeq_closeText⟩
  | aside => exact ⟨0, rfl, rfl⟩

theorem textIds_steps (h : Steps ctx state events out state') :
    ∃ n, textIds out = (List.range' state.textSeq n).map (textId ctx) := by
  induction h with
  | nil => exact ⟨0, rfl⟩
  | cons hstep _ ih =>
    obtain ⟨n, hys, hseq⟩ := textIds_step hstep
    obtain ⟨k, hzs⟩ := ih
    refine ⟨n + k, ?_⟩
    rw [textIds_append, hys, hzs, hseq, ← map_append, range'_append_1]

theorem textId_inj {m n : ℕ} (h : textId ctx m = textId ctx n) : m = n :=
  decimal_inj (append_cancel_left h)

theorem nodup_textIds (h : Steps ctx state events out state') : (textIds out).Nodup := by
  obtain ⟨n, hids⟩ := textIds_steps h
  rw [hids]
  exact List.Nodup.map (fun _ _ => textId_inj) nodup_range'

theorem pieceIds_append (ys zs : List AguiEvent) :
    pieceIds (ys ++ zs) = pieceIds ys ++ pieceIds zs := filterMap_append

/-- A text that begins has a piece. -/
theorem textIds_subset_pieceIds (h : Steps ctx state events out state') :
    ∀ m ∈ textIds out, m ∈ pieceIds out := by
  induction h with
  | nil => nofun
  | @cons state e ys state₁ events zs state₂ hstep _ ih =>
    intro m hm
    rw [textIds_append, mem_append] at hm
    rw [pieceIds_append, mem_append]
    refine hm.imp (fun hm => ?_) (ih m)
    have hnone {zs : List AguiEvent} (hzs : textIds zs = []) :
        m ∉ textIds ((closeText state).1 ++ zs) := by
      rw [textIds_append, textIds_closeText, hzs]
      exact not_mem_nil
    cases hstep with
    | opened hopen =>
      rw [mem_singleton.1 (show m ∈ [textId ctx state.textSeq] from hm)]
      exact mem_cons_self
    | more hopen => exact nomatch hm
    | inputStart => exact absurd hm (hnone rfl)
    | inputDelta => exact nomatch hm
    | inputEnd => exact nomatch hm
    | framed =>
      rw [textIds_closeText] at hm
      exact nomatch hm
    | call => exact absurd hm (hnone rfl)
    | result => exact absurd hm (hnone rfl)
    | ended hends => exact absurd hm (hnone (by cases hends <;> rfl))
    | aside => exact nomatch hm

/-! ## Calls -/

/-- The steps of a call. -/
inductive ToolStep where
  | start
  | delta
  | stop
  | call
  | result
  deriving DecidableEq

/-- The step of a call that an event is. -/
def toolStep : AgentStreamEventName → Option ToolStep
  | .toolInputStart => some .start
  | .toolInputDelta => some .delta
  | .toolInputEnd => some .stop
  | .toolCall => some .call
  | .toolResult => some .result
  | _ => none

/-- The step of the call with the id that an event is. -/
def stepOf (id : JsString) (e : AgentStreamEvent) : Option ToolStep :=
  if (e.data.field (js "toolCallId")).isStr id then toolStep e.event else none

def stepsOf (id : JsString) (events : List AgentStreamEvent) : List ToolStep :=
  events.filterMap (stepOf id)

/-- The frames of a call. -/
inductive Frame where
  | start
  | args
  | stop
  deriving DecidableEq

/-- The frame of the call with the id that an event is. -/
def frameOf (id : JsString) : AguiEvent → Option Frame
  | .TOOL_CALL_START toolCallId _ => if toolCallId.isStr id then some .start else none
  | .TOOL_CALL_ARGS toolCallId _ => if toolCallId.isStr id then some .args else none
  | .TOOL_CALL_END toolCallId => if toolCallId.isStr id then some .stop else none
  | _ => none

def framesOf (id : JsString) (ys : List AguiEvent) : List Frame := ys.filterMap (frameOf id)

/-- The frames of a step, after which the call is marked as streamed, or before which it was. -/
def stepFrames (streamed : Bool) : Option ToolStep → List Frame
  | some .start => [.start]
  | some .delta => [.args]
  | some .stop => [.stop]
  | some .call => if streamed then [] else [.start, .args, .stop]
  | _ => []

/-- Whether the call is marked as streamed after an event. -/
def nextStreamed (id : JsString) (streamed : Bool) (e : AgentStreamEvent) : Bool :=
  if stepOf id e = some .start then true else if e.event = .textDelta then false else streamed

/-- No call is marked as streamed while a text is open. -/
def AguiConvertState.Unmarked (state : AguiConvertState) : Prop :=
  openText state ≠ none → state.streamedToolIds = none

theorem sameValueZero_str (v : JsValue) (id : JsString) : v.sameValueZero (.str id) = v.isStr id := by
  cases v <;> rfl

theorem isStr_iff {v : JsValue} {id : JsString} : v.isStr id = true ↔ v = .str id := by
  cases v <;> simp [isStr]

theorem framesOf_append (id : JsString) (ys zs : List AguiEvent) :
    framesOf id (ys ++ zs) = framesOf id ys ++ framesOf id zs := filterMap_append

theorem framesOf_closeText (id : JsString) : framesOf id (closeText state).1 = [] := by
  unfold closeText
  split <;> rfl

theorem unmarked_step (h : Step ctx state e ys state') (hmarked : state.Unmarked) :
    state'.Unmarked := by
  have hclosed : (closeText state).2.Unmarked := fun h => absurd openText_closeText h
  cases h with
  | more | inputDelta | inputEnd | aside => exact hmarked
  | opened => exact fun _ => rfl
  | inputStart => exact fun h => absurd openText_closeText h
  | framed | call | result | ended => exact hclosed

theorem streamed_step (h : Step ctx state e ys state') (hmarked : state.Unmarked) (id : JsString) :
    state'.streamed (.str id) = nextStreamed id (state.streamed (.str id)) e := by
  have hclosed : (closeText state).2.streamed (.str id) = state.streamed (.str id) :=
    streamed_closeText _
  cases h with
  | more hopen =>
    have hnone : state.streamed (.str id) = false := by
      rw [AguiConvertState.streamed, hmarked (by simp [hopen])]
      rfl
    simp [nextStreamed, stepOf, toolStep, hnone]
  | opened => simp [nextStreamed, stepOf, toolStep, AguiConvertState.streamed]
  | @inputStart data name =>
    have hmark : AguiConvertState.streamed { (closeText state).2 with
        streamedToolIds := some ((closeText state).2.streamedToolIds.getD [] ++
          [data.field (js "toolCallId")]) } (.str id) =
        (state.streamed (.str id) || (data.field (js "toolCallId")).isStr id) := by
      rw [← hclosed, AguiConvertState.streamed, AguiConvertState.streamed, Option.getD_some,
        any_append, any_cons, any_nil, Bool.or_false, sameValueZero_str]
    rw [hmark, nextStreamed, stepOf]
    rcases (data.field (js "toolCallId")).isStr id <;> simp [toolStep]
  | inputDelta => simp [nextStreamed, stepOf, toolStep]
  | inputEnd => simp [nextStreamed, stepOf, toolStep]
  | framed => simp [nextStreamed, stepOf, toolStep, hclosed]
  | call => simp [nextStreamed, stepOf, toolStep, hclosed]
  | result => simp [nextStreamed, stepOf, toolStep, hclosed]
  | ended hends => cases hends <;> simp [nextStreamed, stepOf, toolStep, hclosed]
  | @aside event data haside =>
    cases event <;> first | exact haside.elim | simp [nextStreamed, stepOf, toolStep]

/-- The frames of a call that an event is converted to. -/
theorem framesOf_step (h : Step ctx state e ys state') (id : JsString) :
    framesOf id ys = stepFrames (state.streamed (.str id)) (stepOf id e) := by
  cases h with
  | more | opened =>
    rw [stepOf]
    split <;> rfl
  | inputStart =>
    rw [framesOf_append, framesOf_closeText, stepOf]
    split <;> simp_all [framesOf, frameOf, stepFrames, toolStep]
  | inputDelta => 
    rw [stepOf]
    split <;> simp_all [framesOf, frameOf, stepFrames, toolStep]
  | inputEnd =>
    rw [stepOf]
    split <;> simp_all [framesOf, frameOf, stepFrames, toolStep]
  | framed hstreamed =>
    rw [framesOf_closeText, stepOf]
    split
    · next hid =>
      rw [isStr_iff.1 hid] at hstreamed
      simp [stepFrames, toolStep, hstreamed]
    · rfl
  | call hstreamed =>
    rw [framesOf_append, framesOf_closeText, stepOf]
    split
    · next hid =>
      rw [isStr_iff.1 hid] at hstreamed ⊢
      simp [framesOf, frameOf, stepFrames, toolStep, hstreamed, isStr]
    · next hid => simp [framesOf, frameOf, stepFrames, hid]
  | result =>
    rw [framesOf_append, framesOf_closeText, stepOf]
    split <;> rfl
  | ended hends =>
    rw [framesOf_append, framesOf_closeText, stepOf]
    cases hends <;> split <;> rfl
  | @aside event data haside =>
    rw [stepOf]
    cases event <;> first | exact haside.elim | (split <;> rfl)

/-- The frames of a call that the events are converted to. -/
def expected (id : JsString) : Bool → List AgentStreamEvent → List Frame
  | _, [] => []
  | streamed, e :: events =>
    stepFrames streamed (stepOf id e) ++ expected id (nextStreamed id streamed e) events

theorem framesOf_steps (h : Steps ctx state events out state') (hmarked : state.Unmarked)
    (id : JsString) : framesOf id out = expected id (state.streamed (.str id)) events := by
  induction h with
  | nil => rfl
  | cons hstep _ ih =>
    rw [framesOf_append, framesOf_step hstep, ih (unmarked_step hstep hmarked),
      streamed_step hstep hmarked]
    rfl

end Steps

end Gnldev.Agui
