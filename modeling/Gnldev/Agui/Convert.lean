import Gnldev.Durable.AgentStream
import Gnldev.Durable.RunId

/-!
# Events of the AG-UI protocol

The events of a run, converted one by one (`convert.ts`). The protocol frames texts and tool calls,
which the events do not: a text is opened at its first piece and closed at the next event that is
not a piece of it, and a call whose input was streamed is not framed a second time. What is open is
the state, which is threaded through a run.

An event is converted in every state or in none (`toAguiEvents_isOk_iff`): what it is made of must
have a text.
-/

namespace Gnldev.Agui

open Durable JsValue

/-- An event of the protocol. -/
inductive AguiEvent where
  | RUN_STARTED (threadId runId : JsString)
  | RUN_FINISHED (threadId runId : JsString) (result : Option JsValue)
  | RUN_ERROR (message : JsString) (code rawEvent : Option JsValue)
  | TEXT_MESSAGE_START (messageId role : JsString)
  | TEXT_MESSAGE_CONTENT (messageId : JsString) (delta : JsValue)
  | TEXT_MESSAGE_END (messageId : JsString)
  | TOOL_CALL_START (toolCallId toolCallName : JsValue)
  | TOOL_CALL_ARGS (toolCallId : JsValue) (delta : Option JsString)
  | TOOL_CALL_END (toolCallId : JsValue)
  | TOOL_CALL_RESULT (messageId : JsString) (toolCallId : JsValue) (content : Option JsString)
      (role : JsString)
  | CUSTOM (name : JsString) (value : JsValue)

structure AguiConvertContext where
  threadId : JsString
  runId : JsString

structure AguiConvertState where
  /-- A text is open. -/
  textOpen : Bool
  textMessageId : Option JsString
  /-- The number of the next text. -/
  textSeq : ℕ
  /-- The calls whose input was streamed. -/
  streamedToolIds : Option (List JsValue)

def initialAguiConvertState : AguiConvertState := ⟨false, none, 0, none⟩

/-- The text that is open. -/
def openText (state : AguiConvertState) : Option JsString :=
  if state.textOpen then state.textMessageId.filter (· ≠ []) else none

/-- Close the text that is open. -/
def closeText (state : AguiConvertState) : List AguiEvent × AguiConvertState :=
  match openText state with
  | none => ([], state)
  | some messageId =>
    ([.TEXT_MESSAGE_END messageId], { state with textOpen := false, textMessageId := none })

/-- What an event is converted to. -/
def toAguiEvents (ctx : AguiConvertContext) (gnlEvent : AgentStreamEvent)
    (state : AguiConvertState) : Except JsValue (List AguiEvent × AguiConvertState) :=
  let data := gnlEvent.data
  let (events, closed) := closeText state
  match gnlEvent.event with
  | .textDelta =>
    let text := (data.field (js "text")).coalesce (.str [])
    match openText state with
    | some messageId => .ok ([.TEXT_MESSAGE_CONTENT messageId text], state)
    | none =>
      let messageId := ctx.runId ++ js ":text:" ++ decimal state.textSeq
      .ok ([.TEXT_MESSAGE_START messageId (js "assistant"), .TEXT_MESSAGE_CONTENT messageId text],
        ⟨true, some messageId, state.textSeq + 1, none⟩)
  | .toolInputStart =>
    let toolCallId := data.field (js "toolCallId")
    .ok (events ++ [.TOOL_CALL_START toolCallId (data.field (js "toolName"))],
      { closed with streamedToolIds := some (closed.streamedToolIds.getD [] ++ [toolCallId]) })
  | .toolInputDelta => do
    let delta ← toText ((data.field (js "delta")).coalesce (.str []))
    return ([.TOOL_CALL_ARGS (data.field (js "toolCallId")) (some delta)], state)
  | .toolInputEnd => .ok ([.TOOL_CALL_END (data.field (js "toolCallId"))], state)
  | .toolCall =>
    let toolCallId := data.field (js "toolCallId")
    if (closed.streamedToolIds.getD []).any (·.sameValueZero toolCallId) then .ok (events, closed)
    else .ok (events ++ [.TOOL_CALL_START toolCallId (data.field (js "toolName")),
      .TOOL_CALL_ARGS toolCallId ((data.field (js "input")).coalesce (.obj [])).stringify,
      .TOOL_CALL_END toolCallId], closed)
  | .toolResult => do
    let toolCallId := data.field (js "toolCallId")
    let messageId ← toText toolCallId
    return (events ++ [.TOOL_CALL_RESULT (messageId ++ js ":result") toolCallId
      ((data.field (js "output")).coalesce .null).stringify (js "tool")], closed)
  | .interrupt => .ok (events ++ [.CUSTOM (js "gnl.interrupt") data], closed)
  | .error => do
    let message ← toText ((data.field (js "error")).coalesce (.str (js "unknown error")))
    let code := data.field (js "code")
    let detail := data.field (js "detail")
    return (events ++ [.RUN_ERROR message (if code.truthy then some code else none)
      (if detail.isUndefined then none else some detail)], closed)
  | .done =>
    let finishReason := data.field (js "finishReason")
    let usage := data.field (js "usage")
    .ok (events ++ [.RUN_FINISHED ctx.threadId ctx.runId
      (if finishReason.isUndefined && usage.isUndefined then none
        else some (object [("finishReason", finishReason), ("usage", usage)]))], closed)
  | event => .ok ([.CUSTOM (js "gnl." ++ event.text) data], state)

/-! ## Which events are converted -/

/-- The event is converted. -/
def Converts (e : AgentStreamEvent) : Prop :=
  match e.event with
  | .toolInputDelta => ((e.data.field (js "delta")).coalesce (.str [])).hasText
  | .toolResult => (e.data.field (js "toolCallId")).hasText
  | .error => ((e.data.field (js "error")).coalesce (.str (js "unknown error"))).hasText
  | _ => True

variable {ctx : AguiConvertContext}

theorem toText_bind_isOk_iff {α : Type} {v : JsValue} {f : JsString → α} :
    (∃ r, (do return f (← v.toText) : Except JsValue α) = .ok r) ↔ v.hasText := by
  rw [hasText_iff]
  rcases v.toText with e | s
  · exact iff_of_false (fun ⟨_, h⟩ => nomatch h) fun ⟨_, h⟩ => nomatch h
  · exact iff_of_true ⟨_, rfl⟩ ⟨_, rfl⟩

theorem toAguiEvents_isOk_iff (e : AgentStreamEvent) (state : AguiConvertState) :
    (∃ r, toAguiEvents ctx e state = .ok r) ↔ Converts e := by
  obtain ⟨event, data⟩ := e
  unfold toAguiEvents Converts
  cases event
  case toolInputDelta => exact toText_bind_isOk_iff
  case toolResult => exact toText_bind_isOk_iff
  case error => exact toText_bind_isOk_iff
  case textDelta =>
    refine iff_of_true ?_ trivial
    dsimp only
    split <;> exact ⟨_, rfl⟩
  case toolCall =>
    refine iff_of_true ?_ trivial
    dsimp only
    split <;> exact ⟨_, rfl⟩
  all_goals exact iff_of_true ⟨_, rfl⟩ trivial

end Gnldev.Agui
