import Gnldev.Durable.AgentStream
import Gnldev.Durable.RunId
import Gnldev.Lib.Memo
import Gnldev.Lib.MergePatch

/-!
# Retrying a turn

A processor can reject what a turn has produced, by throwing a `ProcessorRetry`: the turn is taken
again, with its feedback as one more message (`run.ts`). The decision is recorded, as is every answer
of the model and of the tools, so that an execution that is resumed takes the same turns.

A turn is what `generateText` does with its options (`GenerateText`). It is not part of the model: the
rules are about every one. An error that is thrown when a step has finished is swallowed there. It is
kept aside, and stops the loop of steps.

* `onStepFinish`: what the processors say of a step;
* `settle`: what becomes of the result of a turn;
* `runGenerateWithRetryLadder`: the turns.
-/

namespace Gnldev.Durable

open JsValue

/-! ## What is thrown -/

/-- `opts.maxRetries` is a number of times. -/
structure ProcessorRetry where
  feedback : JsString
  processor : JsString
  maxRetries : Option ℕ
  deriving DecidableEq

def ProcessorRetry.maxForProc (err : ProcessorRetry) : ℕ := err.maxRetries.getD 1

/-- The error that a tool has returned, instead of throwing it. -/
inductive SentinelError where
  | sideEffectRetryBlocked (message detail : JsValue)
  | retryLimitExceeded (message detail : JsValue)
  | compensatedRun (runId : JsValue)
  | runBusy (message : JsValue)
  | toolLoopDetected (message detail : JsValue)
  | duplicateSideEffect (message detail : JsValue)
  | taintedSideEffect (message detail : JsValue)
  | runLimitExceeded (message detail : JsValue)

inductive Thrown where
  | retry (err : ProcessorRetry)
  /-- `RetryExhaustedByProcessorError`. -/
  | exhausted (message processor feedback : JsString)
  | sentinel (err : SentinelError)
  | value (v : JsValue)

/-! ## Processors -/

/-- What a hook sees of a step. -/
structure ProcessorStepOutput where
  stepNumber : ℕ
  text : JsValue
  toolCalls : JsValue
  toolResults : JsValue
  finishReason : JsValue
  usage : JsValue

structure ProcessorOutput where
  text : JsValue
  messages : JsValue
  result : JsValue

/-- A processor: what it says depends on nothing but what it is shown. -/
structure Processor where
  processOutputStep : Option (ProcessorStepOutput → Except Thrown Unit)
  processOutput : Option (ProcessorOutput → Except Thrown ProcessorOutput)

def stepOutput (n : ℕ) (step : JsValue) : ProcessorStepOutput :=
  ⟨n, step.field (js "text"), step.field (js "toolCalls"), step.field (js "toolResults"),
    step.field (js "finishReason"), step.field (js "usage")⟩

def onStepFinish (processors : List Processor) (n : ℕ) (step : JsValue) : Except Thrown Unit :=
  processors.forM fun p =>
    match p.processOutputStep with
    | some hook => hook (stepOutput n step)
    | none => .ok ()

def processOutputs (processors : List Processor) (pout : ProcessorOutput) :
    Except Thrown ProcessorOutput :=
  processors.foldlM (fun pout p =>
    match p.processOutput with
    | some hook => hook pout
    | none => .ok pout) pout

/-- The hooks: the number of the next step, and the error that one of them has thrown. -/
structure StepHooks where
  stepNumber : ℕ
  failure : Option Thrown

namespace StepHooks

def init : StepHooks := ⟨0, none⟩

/-- The first error is kept. A thrown `undefined` is as if there were none. -/
def park (failure : Option Thrown) (err : Thrown) : Option Thrown :=
  match failure, err with
  | some first, _ => some first
  | none, .value .undefined => none
  | none, err => some err

/-- A step has finished. -/
def finish (processors : List Processor) (hooks : StepHooks) (step : JsValue) : StepHooks :=
  ⟨hooks.stepNumber + 1,
    match onStepFinish processors hooks.stepNumber step with
    | .ok () => hooks.failure
    | .error err => park hooks.failure err⟩

end StepHooks

/-! ## Records -/

/-- The keys of a run: a step of the model, the call of a tool, and the decision to take a turn
    again (`proc:retry:<attempt>`). -/
inductive TurnKey where
  | model (step : ℕ)
  | tool (toolCallId : JsString)
  | retry (attempt : ℕ)
  deriving DecidableEq

structure RetryDecision where
  feedback : JsString
  processor : JsString

namespace TurnKey

/-- What is asked: the model with its parameters, the tool with its input. -/
abbrev Ask : TurnKey → Type
  | model _ => JsValue
  | tool _ => JsValue
  | retry _ => ProcessorRetry

abbrev Ans : TurnKey → Type
  | model _ => JsValue
  | tool _ => JsValue
  | retry _ => RetryDecision

end TurnKey

/-- The model and the tools: what they may answer. -/
structure LadderWorld where
  model : JsValue → JsValue → Prop
  tool : JsString → JsValue → JsValue → Prop

def LadderWorld.Live (world : LadderWorld) : ∀ key : TurnKey, key.Ask → key.Ans → Prop
  | .model _, params, answer => world.model params answer
  | .tool toolCallId, input, output => world.tool toolCallId input output
  | .retry _, err, decision => decision = ⟨err.feedback, err.processor⟩

abbrev LadderProg := MemoProg TurnKey.Ask TurnKey.Ans

/-! ## A turn -/

/-- What `generateText` does. After a step the loop goes on, or stops with `stopped` if a hook has
    failed. -/
inductive GenerateText where
  | model (params : JsValue) (next : JsValue → GenerateText)
  | tool (toolCallId : JsString) (input : JsValue) (next : JsValue → GenerateText)
  | stepFinished (step stopped : JsValue) (next : GenerateText)
  | resolved (result : JsValue)
  | rejected (err : Thrown)

structure GenerateOptions where
  messages : JsValue
  prompt : JsValue

/-- What lives over the turns: the step of the model (`withDurableModel`), and the hooks. -/
structure Closures where
  modelStep : ℕ
  hooks : StepHooks

def Closures.init : Closures := ⟨0, .init⟩

def GenerateText.run (processors : List Processor) :
    GenerateText → Closures → LadderProg (Except Thrown JsValue × Closures)
  | model params next, c => do
    let answer ← memo (.model c.modelStep) params
    (next answer).run processors { c with modelStep := c.modelStep + 1 }
  | tool toolCallId input next, c => do
    let output ← memo (.tool toolCallId) input
    (next output).run processors c
  | stepFinished step stopped next, c =>
    let hooks := c.hooks.finish processors step
    match hooks.failure with
    | some _ => .pure (.ok stopped, { c with hooks })
    | none => next.run processors { c with hooks }
  | resolved result, c => .pure (.ok result, c)
  | rejected err, c => .pure (.error err, c)

/-! ## What becomes of a result -/

def errorFromBlocked (b : JsValue) : SentinelError :=
  let message := b.field (js "message")
  let detail := b.field (js "detail")
  if (b.field (js "code")).isStr (js "SideEffectRetryBlockedError") then
    .sideEffectRetryBlocked message detail
  else if (b.field (js "code")).isStr (js "RetryLimitExceededError") then
    .retryLimitExceeded message detail
  else if (b.field (js "code")).isStr (js "CompensatedRunError") then
    .compensatedRun ((detail.field (js "runId")).coalesce (.str (js "unknown")))
  else .runBusy message

def errorFromLimit (b : JsValue) : SentinelError :=
  let message := b.field (js "message")
  let detail := b.field (js "detail")
  if (b.field (js "kind")).isStr (js "loop") then .toolLoopDetected message detail
  else if (b.field (js "kind")).isStr (js "duplicateSideEffect") then
    .duplicateSideEffect message detail
  else if (b.field (js "kind")).isStr (js "taintedSideEffect") then .taintedSideEffect message detail
  else .runLimitExceeded message detail

def streamFinishError (steps : JsValue) : Except JsValue (Option SentinelError) := do
  match ← blockedFromSteps steps with
  | some blocked => return some (errorFromBlocked blocked)
  | none => return (← limitBreachFromSteps steps).map errorFromLimit

/-- The interrupts of a turn. -/
def turnInterrupts (steps : JsValue) : Except JsValue (List JsValue) := do
  let steps ← steps.iterate
  let found ← steps.mapM fun step => do
    let content ← step.read (js "content")
    let parts ← (content.coalesce (.arr [])).iterate
    return (← parts.mapM partInterrupts).flatten
  return found.flatten

def producedMessages (result : JsValue) : JsValue :=
  let final := ((result.field (js "response")).field (js "messages")).coalesce (.arr [])
  match result.field (js "steps") with
  | .arr steps =>
    let all := steps.flatMap fun step =>
      match ((step.field (js "response")).field (js "messages")).coalesce (.arr []) with
      | .arr messages => messages
      | v => [v]
    if all = [] then final else .arr all
  | _ => final

/-- `{ ...v }`. -/
def spread : JsValue → List (JsString × JsValue)
  | .obj fields => fields
  | _ => []

/-- The text and the messages of the result are those of the processors. -/
def shadowProps (result : JsValue) (pout : ProcessorOutput) : JsValue :=
  let response := setField (js "messages") pout.messages (spread (result.field (js "response")))
  .obj (setField (js "response") (.obj response) (setField (js "text") pout.text (spread result)))

structure LadderResult where
  result : JsValue
  interrupts : List JsValue
  /-- The messages that are to be remembered, if processors have seen them. -/
  produced : Option JsValue

def stepsOf (result : JsValue) : JsValue := (result.field (js "steps")).coalesce (.arr [])

/-- What the processors are shown. -/
def turnOutput (result : JsValue) : ProcessorOutput :=
  ⟨result.field (js "text"), producedMessages result, result⟩

/-- The end of a turn that no hook has failed. -/
def settle (processors : List Processor) (result : JsValue) : Except Thrown LadderResult := do
  match ← (streamFinishError (stepsOf result)).mapError .value with
  | some err => throw (.sentinel err)
  | none =>
    let interrupts ← (turnInterrupts (stepsOf result)).mapError .value
    if processors ≠ [] ∧ interrupts = [] then
      let pout ← processOutputs processors (turnOutput result)
      return ⟨shadowProps result pout, interrupts, some pout.messages⟩
    else return ⟨result, interrupts, none⟩

/-! ## The turns -/

def RETRY_LADDER_GLOBAL_CAP : ℕ := 3

def appendRetryFeedback (options : GenerateOptions) (feedback : JsString) : GenerateOptions :=
  let userMessage (content : JsValue) : JsValue :=
    .obj [(js "role", .str (js "user")), (js "content", content)]
  let prior := match options.messages with
    | .arr messages => messages
    | _ =>
      match options.prompt with
      | .str text => [userMessage (.str text)]
      | .arr messages => messages
      | _ => []
  { messages := .arr (prior ++
      [userMessage (.arr [.obj [(js "type", .str (js "text")), (js "text", .str feedback)]])])
    prompt := .undefined }

/-- A value of `usedByProcessor`: a number, or a text, for the name of a method of every object is
    there from the beginning. -/
inductive UsedRetries where
  | count (n : ℕ)
  | text (t : JsString)
  deriving DecidableEq

namespace UsedRetries

/-- `({})[processor] ?? 0`. The text is what a function, or an object, becomes in `+`. -/
def inherited (processor : JsString) : UsedRetries :=
  if processor = js "__proto__" then .text (js "[object Object]")
  else if processor ∈ OBJECT_PROTOTYPE then
    let name := if processor = js "constructor" then js "Object" else processor
    .text (js "function " ++ name ++ js "() { [native code] }")
  else .count 0

/-- `usedForProc + 1`. -/
def succ : UsedRetries → UsedRetries
  | count n => count (n + 1)
  | text t => text (t ++ js "1")

/-- `usedForProc >= maxForProc`. No number is as large as a text that is none. -/
def reached : UsedRetries → ℕ → Bool
  | count n, maxForProc => maxForProc ≤ n
  | text _, _ => false

def toText : UsedRetries → JsString
  | count n => decimal n
  | text t => t

end UsedRetries

structure RetryLadder where
  options : GenerateOptions
  usedByProcessor : JsString → UsedRetries
  attempt : ℕ
  closures : Closures
  /-- What processors have thrown. The source does not keep it. -/
  thrown : List ProcessorRetry

namespace RetryLadder

def init (options : GenerateOptions) : RetryLadder := ⟨options, .inherited, 0, .init, []⟩

/-- `usedByProcessor[processor] = usedForProc + 1`. No text becomes a prototype. -/
def count (used : JsString → UsedRetries) (processor : JsString) : JsString → UsedRetries :=
  if processor = js "__proto__" then used
  else Function.update used processor (used processor).succ

/-- The retry is honoured. -/
def honour (s : RetryLadder) (err : ProcessorRetry) (decision : RetryDecision) : RetryLadder :=
  { s with
    options := appendRetryFeedback s.options decision.feedback
    usedByProcessor := count s.usedByProcessor err.processor
    attempt := s.attempt + 1 }

def exhausted (runId : JsString) (s : RetryLadder) (err : ProcessorRetry) : Thrown :=
  .exhausted (js "@gnldev/durable: '" ++ runId ++ js "' retry ladder exhausted for processor '" ++
    err.processor ++ js "' (attempt " ++ decimal s.attempt ++ js "/" ++
    decimal RETRY_LADDER_GLOBAL_CAP ++ js " global, " ++
    (s.usedByProcessor err.processor).toText ++ js "/" ++ decimal err.maxForProc ++
    js " for this processor) — last feedback: " ++ err.feedback) err.processor err.feedback

end RetryLadder

/-- How a turn ends. -/
inductive TurnEnd where
  | returned (result : LadderResult)
  | threw (err : Thrown)
  /-- The error is caught. -/
  | caught (err : ProcessorRetry)

namespace TurnEnd

/-- `catch (err) { if (err instanceof ProcessorRetry) … throw err; }`. -/
def catching : Except Thrown LadderResult → TurnEnd
  | .ok result => returned result
  | .error (.retry err) => caught err
  | .error err => threw err

/-- The end of a turn. What a hook has thrown is not caught. -/
def of (processors : List Processor) (failure : Option Thrown) : Except Thrown JsValue → TurnEnd
  | .error err => catching (.error err)
  | .ok result =>
    match failure with
    | some err => threw err
    | none => catching (settle processors result)

/-- What a processor has thrown. -/
def retried : TurnEnd → List ProcessorRetry
  | threw (.retry err) => [err]
  | caught err => [err]
  | _ => []

end TurnEnd

/-- What the ladder returns or throws, and what it leaves. -/
abbrev LadderOutcome := Except Thrown LadderResult × RetryLadder

variable (processors : List Processor) (generateText : GenerateOptions → GenerateText)
  (runId : JsString)

def ladderFrom (s : RetryLadder) : LadderProg LadderOutcome := do
  let (turn, closures) ← (generateText s.options).run processors s.closures
  let ended := TurnEnd.of processors closures.hooks.failure turn
  let s' := { s with closures, thrown := s.thrown ++ ended.retried }
  match ended with
  | .returned result => return (.ok result, s')
  | .threw err => return (.error err, s')
  | .caught err =>
    if _h : RETRY_LADDER_GLOBAL_CAP ≤ s.attempt ∨
        (s.usedByProcessor err.processor).reached err.maxForProc then
      return (.error (s'.exhausted runId err), s')
    else
      let decision ← memo (.retry s.attempt) err
      ladderFrom (s'.honour err decision)
termination_by RETRY_LADDER_GLOBAL_CAP - s.attempt
decreasing_by
  simp only [RetryLadder.honour]
  omega

def runGenerateWithRetryLadder (options : GenerateOptions) : LadderProg LadderOutcome :=
  ladderFrom processors generateText runId (.init options)

end Gnldev.Durable
