import Gnldev.Lib.Generator
import Gnldev.Lib.JsValue

/-!
# Streaming a run

What a run sends while it runs (`agent-stream.ts`): the parts of the model's stream one by one, and
an ending, which is found by a scan of the steps once the parts are over. A part that is not known is
named, and never carried; what a tool returned to stop the run is internal, and its meaning is in the
ending.

* `agentStreamEvents`: the events of a run;
* `endsOnce_iff` (`AgentStream.Ending`): when there is one ending, and it is last.
-/

namespace Gnldev.Durable

open JsValue

/-! ## Parts and events -/

/-- What is known of the parts of a stream. -/
inductive PartType where
  | textDelta | toolCall | toolResult
  | reasoningStart | reasoningDelta | reasoningEnd
  | toolInputStart | toolInputDelta | toolInputEnd
  | source | file | startStep | finishStep | toolError | error
  | start | finish | textStart | textEnd | abort | raw
  deriving DecidableEq

namespace PartType

def name : PartType → JsString
  | textDelta => js "text-delta"
  | toolCall => js "tool-call"
  | toolResult => js "tool-result"
  | reasoningStart => js "reasoning-start"
  | reasoningDelta => js "reasoning-delta"
  | reasoningEnd => js "reasoning-end"
  | toolInputStart => js "tool-input-start"
  | toolInputDelta => js "tool-input-delta"
  | toolInputEnd => js "tool-input-end"
  | source => js "source"
  | file => js "file"
  | startStep => js "start-step"
  | finishStep => js "finish-step"
  | toolError => js "tool-error"
  | error => js "error"
  | start => js "start"
  | finish => js "finish"
  | textStart => js "text-start"
  | textEnd => js "text-end"
  | abort => js "abort"
  | raw => js "raw"

def all : List PartType :=
  [textDelta, toolCall, toolResult, reasoningStart, reasoningDelta, reasoningEnd, toolInputStart,
    toolInputDelta, toolInputEnd, source, file, startStep, finishStep, toolError, error, start,
    finish, textStart, textEnd, abort, raw]

/-- The case of a `switch` on the type of a part; the default has none. -/
def of? (type : JsValue) : Option PartType := all.find? fun t => type.isStr t.name

end PartType

inductive AgentStreamEventName where
  | textDelta | toolCall | toolResult
  | reasoningStart | reasoningDelta | reasoningEnd
  | toolInputStart | toolInputDelta | toolInputEnd
  | source | file | stepStart | stepFinish | toolError | error | raw | interrupt | done
  deriving DecidableEq

namespace AgentStreamEventName

def text : AgentStreamEventName → JsString
  | textDelta => js "text-delta"
  | toolCall => js "tool-call"
  | toolResult => js "tool-result"
  | reasoningStart => js "reasoning-start"
  | reasoningDelta => js "reasoning-delta"
  | reasoningEnd => js "reasoning-end"
  | toolInputStart => js "tool-input-start"
  | toolInputDelta => js "tool-input-delta"
  | toolInputEnd => js "tool-input-end"
  | source => js "source"
  | file => js "file"
  | stepStart => js "step-start"
  | stepFinish => js "step-finish"
  | toolError => js "tool-error"
  | error => js "error"
  | raw => js "raw"
  | interrupt => js "interrupt"
  | done => js "done"

end AgentStreamEventName

structure AgentStreamEvent where
  event : AgentStreamEventName
  data : JsValue

structure AgentStreamCodes where
  runLimitExceeded : JsString
  toolLoopDetected : JsString

/-- A stream of a run. A promise is resolved with a value, or rejected with an error. -/
structure StreamTextResult where
  /-- The parts that `fullStream` yields. -/
  parts : List JsValue
  /-- What it throws after them. -/
  thrown : Option JsValue
  steps : Except JsValue JsValue
  finishReason : Except JsValue JsValue
  usage : Except JsValue JsValue

/-! ## Steps -/

def errText (e : JsValue) : Except JsValue JsString := ((e.field (js "message")).coalesce e).toText

/-- The output of a tool that stops the run, by the field that says so. -/
def hasSentinel (name : JsString) (part : JsValue) : Bool :=
  (part.field (js "type")).isStr PartType.toolResult.name &&
    ((part.field (js "output")).field name).truthy

/-- The first sentinel of the steps. -/
def sentinelFromSteps (name : JsString) : List JsValue → Except JsValue (Option JsValue)
  | [] => .ok none
  | step :: steps => do
    let content ← step.read (js "content")
    let parts ← (content.coalesce (.arr [])).iterate
    match parts.find? (hasSentinel name) with
    | some part => return some ((part.field (js "output")).field name)
    | none => sentinelFromSteps name steps

def limitBreachFromSteps (steps : JsValue) : Except JsValue (Option JsValue) := do
  sentinelFromSteps (js "__gnl_limit_exceeded") (← (steps.coalesce (.arr [])).iterate)

def blockedFromSteps (steps : JsValue) : Except JsValue (Option JsValue) := do
  sentinelFromSteps (js "__gnl_blocked") (← (steps.coalesce (.arr [])).iterate)

/-- An interrupt of a nested run, as one of the outer run. -/
def nestedInterrupt (nested i : JsValue) : Except JsValue JsValue := do
  let toolCallId ← i.read (js "toolCallId")
  let runId ← toText (nested.field (js "runId"))
  let reason ← toText ((i.field (js "reason")).coalesce (.str (js "approval required")))
  let semPair := i.field (js "semPair")
  return .obj ([(js "toolCallId", toolCallId), (js "toolName", i.field (js "toolName")),
    (js "args", i.field (js "args")),
    (js "reason", .str (js "A delegated sub-agent (nested run '" ++ runId ++
      js "') stopped for a human: " ++ reason))] ++
    if semPair.truthy then [(js "semPair", semPair)] else [])

/-- The interrupts that a suspended call shows its caller. -/
def surfacedInterrupts (sus : JsValue) : Except JsValue (List JsValue) :=
  let nested :=
    if (sus.field (js "kind")).isStr (js "nested") then sus.field (js "nested") else .undefined
  let inner := (nested.field (js "interrupts")).coalesce (.arr [])
  if !inner.hasLength then .ok [sus]
  else match inner with
    | .arr is => is.mapM (nestedInterrupt nested)
    | _ => .error (typeError (js "inner.map is not a function"))

/-- The interrupts of a part of a step. -/
def partInterrupts (part : JsValue) : Except JsValue (List JsValue) :=
  if hasSentinel (js "__gnl_suspend") part then
    surfacedInterrupts ((part.field (js "output")).field (js "__gnl_suspend"))
  else .ok []

def stepInterrupts (step : JsValue) : Except JsValue (List JsValue) := do
  let parts ← ((step.field (js "content")).coalesce (.arr [])).iterate
  return (← parts.mapM partInterrupts).flatten

def interruptsFromSteps (steps : JsValue) : Except JsValue (List JsValue) := do
  let steps ← (steps.coalesce (.arr [])).iterate
  return (← steps.mapM stepInterrupts).flatten

def BLOCKED_ERROR_CODES : List (JsString × JsString) :=
  [(js "SideEffectRetryBlockedError", js "side_effect_retry_blocked"),
    (js "RetryLimitExceededError", js "retry_limit_exceeded"),
    (js "RunBusyError", js "run_busy"),
    (js "StepRetryBlockedError", js "step_retry_blocked")]

/-- The methods of every object. -/
def OBJECT_PROTOTYPE : List JsString :=
  [js "constructor", js "hasOwnProperty", js "isPrototypeOf", js "propertyIsEnumerable",
    js "toLocaleString", js "toString", js "valueOf", js "__defineGetter__", js "__defineSetter__",
    js "__lookupGetter__", js "__lookupSetter__"]

/-- `BLOCKED_ERROR_CODES[code] ?? 'run_busy'`. -/
def blockedCode (code : JsValue) : Except JsValue JsValue := do
  let name ← code.toText
  match BLOCKED_ERROR_CODES.lookup name with
  | some c => return .str c
  | none =>
    return if name ∈ OBJECT_PROTOTYPE then .func
      else if name = js "__proto__" then .obj []
      else .str (js "run_busy")

/-! ## The events -/

/-- What a tool returned to stop the run. -/
def isSentinel (output : JsValue) : Bool :=
  (output.field (js "__gnl_suspend")).truthy || (output.field (js "__gnl_limit_exceeded")).truthy ||
    (output.field (js "__gnl_blocked")).truthy

abbrev AgentStream := Gen Unit AgentStreamEvent JsValue

def send (event : AgentStreamEventName) (data : List (String × JsValue)) : AgentStream Unit :=
  Gen.yield ⟨event, object data⟩

/-- The event of a part. -/
def streamPart (part : JsValue) : AgentStream Unit := do
  let type ← part.read (js "type")
  match PartType.of? type with
  | some .textDelta =>
    let text := ((part.field (js "text")).coalesce (part.field (js "delta"))).coalesce (.str [])
    if text.truthy then send .textDelta [("text", text)]
  | some .toolCall =>
    send .toolCall [("toolCallId", part.field (js "toolCallId")),
      ("toolName", part.field (js "toolName")), ("input", part.field (js "input"))]
  | some .toolResult =>
    if isSentinel (part.field (js "output")) then pure ()
    else send .toolResult [("toolCallId", part.field (js "toolCallId")),
      ("toolName", part.field (js "toolName")), ("output", part.field (js "output"))]
  | some .reasoningStart => send .reasoningStart [("id", part.field (js "id"))]
  | some .reasoningDelta =>
    let text := ((part.field (js "text")).coalesce (part.field (js "delta"))).coalesce (.str [])
    if text.truthy then send .reasoningDelta [("id", part.field (js "id")), ("text", text)]
  | some .reasoningEnd => send .reasoningEnd [("id", part.field (js "id"))]
  | some .toolInputStart =>
    send .toolInputStart
      [("toolCallId", (part.field (js "toolCallId")).coalesce (part.field (js "id"))),
        ("toolName", part.field (js "toolName"))]
  | some .toolInputDelta =>
    send .toolInputDelta
      [("toolCallId", (part.field (js "toolCallId")).coalesce (part.field (js "id"))),
        ("delta", part.field (js "delta"))]
  | some .toolInputEnd =>
    send .toolInputEnd
      [("toolCallId", (part.field (js "toolCallId")).coalesce (part.field (js "id")))]
  | some .source =>
    send .source [("sourceType", part.field (js "sourceType")), ("id", part.field (js "id")),
      ("url", part.field (js "url")), ("title", part.field (js "title"))]
  | some .file =>
    send .file [("mediaType", (part.field (js "file")).field (js "mediaType")),
      ("base64", (part.field (js "file")).field (js "base64"))]
  | some .startStep => send .stepStart []
  | some .finishStep =>
    send .stepFinish [("finishReason", part.field (js "finishReason")),
      ("usage", part.field (js "usage"))]
  | some .toolError =>
    let error ← errText (part.field (js "error"))
    send .toolError [("toolCallId", part.field (js "toolCallId")),
      ("toolName", part.field (js "toolName")), ("error", .str error)]
  | some .error =>
    let error ← errText (part.field (js "error"))
    send .error [("error", .str error)]
  | some .start | some .finish | some .textStart | some .textEnd | some .abort | some .raw => pure ()
  | none => send .raw [("type", type)]

/-- The code of a breach of a limit. -/
def breachCode (codes : AgentStreamCodes) (breach : JsValue) : JsValue :=
  .str (if (breach.field (js "kind")).isStr (js "loop") then codes.toolLoopDetected
    else codes.runLimitExceeded)

/-- `undefined`, if the promise is rejected. -/
def orUndefined : Except JsValue JsValue → JsValue
  | .ok v => v
  | .error _ => .undefined

/-- The ending of a stream whose parts are over. -/
def streamEnding (result : StreamTextResult) (runId : JsString) (codes : AgentStreamCodes) :
    AgentStream Unit := do
  let steps ← result.steps
  match ← limitBreachFromSteps steps with
  | some breach =>
    send .error [("error", breach.field (js "message")), ("code", breachCode codes breach),
      ("detail", breach.field (js "detail"))]
  | none =>
    match ← blockedFromSteps steps with
    | some blocked =>
      let code ← blockedCode (blocked.field (js "code"))
      send .error [("error", blocked.field (js "message")), ("code", code),
        ("detail", blocked.field (js "detail"))]
    | none =>
      let interrupts ← interruptsFromSteps steps
      if interrupts ≠ [] then send .interrupt [("interrupts", .arr interrupts)]
      send .done [("runId", .str runId), ("finishReason", orUndefined result.finishReason),
        ("usage", orUndefined result.usage)]

/-- The events of a run, until something is thrown. -/
def streamBody (result : StreamTextResult) (runId : JsString) (codes : AgentStreamCodes) :
    AgentStream Unit := do
  result.parts.forM streamPart
  Gen.rethrow result.thrown
  streamEnding result runId codes

/-- The events of a run. -/
def agentStreamEvents (result : StreamTextResult) (runId : JsString) (codes : AgentStreamCodes) :
    AgentStream Unit :=
  tryCatch (streamBody result runId codes) fun e => do
    let error ← errText e
    send .error [("error", .str error)]

end Gnldev.Durable
