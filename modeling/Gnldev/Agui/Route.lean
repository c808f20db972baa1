import Gnldev.Agui.Convert

/-!
# The AG-UI stream of a run

The stream of a run in the other protocol (`route.ts`). It has a text of its own for what
`Durable.agentStreamEvents` does, and converts each event as it goes. An event that cannot be
converted throws where it is emitted, so the stream ends there with an error.
-/

namespace Gnldev.Agui

open Durable JsValue

def LIMIT_ERROR_CODES : AgentStreamCodes where
  runLimitExceeded := js "run_limit_exceeded"
  toolLoopDetected := js "tool_loop_detected"

abbrev AguiStream := Gen AguiConvertState AguiEvent JsValue

section Stream

variable (ctx : AguiConvertContext)

/-- Convert an event, and write what it is converted to. Each is one frame. -/
def emit (event : AgentStreamEventName) (data : List (String × JsValue)) : AguiStream Unit :=
  Gen.convert (toAguiEvents ctx) ⟨event, object data⟩

/-- The frames of a part. -/
def pipePart (part : JsValue) : AguiStream Unit := do
  let type ← part.read (js "type")
  match PartType.of? type with
  | some .textDelta =>
    let text := ((part.field (js "text")).coalesce (part.field (js "delta"))).coalesce (.str [])
    if text.truthy then emit ctx .textDelta [("text", text)]
  | some .toolCall =>
    emit ctx .toolCall [("toolCallId", part.field (js "toolCallId")),
      ("toolName", part.field (js "toolName")), ("input", part.field (js "input"))]
  | some .toolResult =>
    if ((part.field (js "output")).field (js "__gnl_suspend")).truthy then pure ()
    else if ((part.field (js "output")).field (js "__gnl_limit_exceeded")).truthy then pure ()
    else if ((part.field (js "output")).field (js "__gnl_blocked")).truthy then pure ()
    else emit ctx .toolResult [("toolCallId", part.field (js "toolCallId")),
      ("toolName", part.field (js "toolName")), ("output", part.field (js "output"))]
  | some .reasoningStart => emit ctx .reasoningStart [("id", part.field (js "id"))]
  | some .reasoningDelta =>
    let text := ((part.field (js "text")).coalesce (part.field (js "delta"))).coalesce (.str [])
    if text.truthy then emit ctx .reasoningDelta [("id", part.field (js "id")), ("text", text)]
  | some .reasoningEnd => emit ctx .reasoningEnd [("id", part.field (js "id"))]
  | some .toolInputStart =>
    emit ctx .toolInputStart
      [("toolCallId", (part.field (js "toolCallId")).coalesce (part.field (js "id"))),
        ("toolName", part.field (js "toolName"))]
  | some .toolInputDelta =>
    emit ctx .toolInputDelta
      [("toolCallId", (part.field (js "toolCallId")).coalesce (part.field (js "id"))),
        ("delta", part.field (js "delta"))]
  | some .toolInputEnd =>
    emit ctx .toolInputEnd
      [("toolCallId", (part.field (js "toolCallId")).coalesce (part.field (js "id")))]
  | some .source =>
    emit ctx .source [("sourceType", part.field (js "sourceType")), ("id", part.field (js "id")),
      ("url", part.field (js "url")), ("title", part.field (js "title"))]
  | some .file =>
    emit ctx .file [("mediaType", (part.field (js "file")).field (js "mediaType")),
      ("base64", (part.field (js "file")).field (js "base64"))]
  | some .startStep => emit ctx .stepStart []
  | some .finishStep =>
    emit ctx .stepFinish [("finishReason", part.field (js "finishReason")),
      ("usage", part.field (js "usage"))]
  | some .toolError =>
    let cause := part.field (js "error")
    let error ← toText ((cause.field (js "message")).coalesce cause)
    emit ctx .toolError [("toolCallId", part.field (js "toolCallId")),
      ("toolName", part.field (js "toolName")), ("error", .str error)]
  | some .error =>
    let cause := part.field (js "error")
    let error ← toText ((cause.field (js "message")).coalesce cause)
    emit ctx .error [("error", .str error)]
  | some .start | some .finish | some .textStart | some .textEnd | some .abort | some .raw => pure ()
  | none => emit ctx .raw [("type", type)]

/-- The frames of the parts, as long as the client is there. True if it is there to the end. -/
def pipeParts (aborted : ℕ → Bool) : ℕ → List JsValue → AguiStream Bool
  | _, [] => pure true
  | i, part :: parts => do
    if aborted i then return false
    pipePart ctx part
    pipeParts aborted (i + 1) parts

/-- `{ ...v, runId }`. -/
def withRunId (runId : JsString) (v : JsValue) : JsValue :=
  let fields := match v with
    | .obj fields => fields
    | .arr elems => elems.zipIdx.map fun (v, i) => (decimal i, v)
    | .str s => s.zipIdx.map fun (u, i) => (decimal i, .str [u])
    | _ => []
  .obj (if (fields.lookup (js "runId")).isSome then
      fields.map fun (name, v) => (name, if name = js "runId" then .str runId else v)
    else fields ++ [(js "runId", .str runId)])

/-- The frames of the ending. -/
def pipeEnding (result : StreamTextResult) : AguiStream Unit := do
  let steps ← result.steps
  match ← limitBreachFromSteps steps with
  | some breach =>
    emit ctx .error [("error", breach.field (js "message")),
      ("code", .str (if (breach.field (js "kind")).isStr (js "loop")
        then LIMIT_ERROR_CODES.toolLoopDetected else LIMIT_ERROR_CODES.runLimitExceeded)),
      ("detail", breach.field (js "detail"))]
  | none =>
    match ← blockedFromSteps steps with
    | some blocked =>
      let code ← blockedCode (blocked.field (js "code"))
      emit ctx .error [("error", blocked.field (js "message")), ("code", code),
        ("detail", blocked.field (js "detail"))]
    | none =>
      let interrupts ← interruptsFromSteps steps
      if interrupts ≠ [] then
        emit ctx .interrupt [("interrupts", .arr (interrupts.map (withRunId ctx.runId))),
          ("runId", .str ctx.runId)]
      emit ctx .done [("runId", .str ctx.runId),
        ("finishReason", orUndefined result.finishReason), ("usage", orUndefined result.usage)]

/-- The frames of a run. The client may go away; `aborted i` says whether it has when the part `i`
    is taken. -/
def pipeAguiStream (aborted : ℕ → Bool) (result : StreamTextResult) : AguiStream Unit := do
  Gen.yield (.RUN_STARTED ctx.threadId ctx.runId)
  tryCatch (do
    let isThere ← pipeParts ctx aborted 0 result.parts
    Gen.rethrow (if isThere then result.thrown else none)
    pipeEnding ctx result) fun e => do
      let error ← toText ((e.field (js "message")).coalesce e)
      emit ctx .error [("error", .str error)]

end Stream

end Gnldev.Agui
