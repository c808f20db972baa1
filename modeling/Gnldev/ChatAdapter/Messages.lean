import Gnldev.Durable.AgentStream
import Gnldev.Durable.TimeTravel.Rebuilt

/-!
# The rebuilt chat

A client that loads a run gets messages for its chat, made from the conversation that
is rebuilt from the journal (`messages.ts`, `sentinel-mask.ts`). A call and its result
become one part of the message that makes the call. Results are collected by the id of
the call, from the seed and the run together, and what is internal to the engine is
masked.

* `maskSentinelOutput`: an output, as a client may see it;
* `toUIMessages`: the messages;
* `ShowsRun`: each message says what its model step does, and each call shows the
  output of its own record.
-/

namespace Gnldev.ChatAdapter

open Durable Durable.TimeTravel JsValue

/-! ## Masks -/

structure MaskedToolOutput where
  display : JsValue
  interrupts : Option (List JsValue)
  /-- The first of them. -/
  interrupt : Option JsValue

def sentinels : List JsString :=
  [js "__gnl_suspend", js "__gnl_limit_exceeded", js "__gnl_blocked"]

/-- What a client sees of a tool that may not run. -/
def blockedDisplay (code message : JsValue) : JsValue :=
  object [("blocked", .bool true), ("code", code), ("message", message)]

def maskSentinelOutput (output : JsValue) (toolNameHint : JsString) :
    Except JsValue MaskedToolOutput := do
  let suspend := output.field (js "__gnl_suspend")
  let limit := output.field (js "__gnl_limit_exceeded")
  let blocked := output.field (js "__gnl_blocked")
  if suspend.truthy then
    let interrupts ← surfacedInterrupts suspend
    return {
      display := object [("pending", .str (js "approval")),
        ("toolName", (suspend.field (js "toolName")).coalesce (.str toolNameHint)),
        ("reason", suspend.field (js "reason"))]
      interrupts := some interrupts
      interrupt := interrupts.head? }
  else if limit.truthy then
    return ⟨blockedDisplay (limit.field (js "kind")) (limit.field (js "message")), none, none⟩
  else if blocked.truthy then
    return ⟨blockedDisplay (blocked.field (js "code")) (blocked.field (js "message")), none, none⟩
  else return ⟨output, none, none⟩

/-! ## Messages -/

instance : Nullish JsValue := ⟨isNullish⟩

/-- The content of a message of the seed: a text, parts, or something else. -/
inductive SeedContent (I : Type) where
  | text (s : JsString)
  | parts (l : List (ContentPart I))
  | other

/-- A message of the seed: of a tool, with its results, or of somebody. -/
inductive SeedMessage (I : Type) where
  | tool (results : List (JsString × JsValue))
  | assistant (content : SeedContent I)
  | system (content : SeedContent I)
  | user (content : SeedContent I)

inductive UIRole where
  | system | user | assistant
  deriving DecidableEq

/-- The state of a call: its input is there, or its output too. -/
inductive UIState where
  | inputAvailable
  | outputAvailable (output : ToolOutput JsValue)

/-- A part of a message, with inputs in `J`. -/
inductive UIPart (J : Type) where
  | text (text : JsString)
  | reasoning (text : JsString)
  | tool (toolName toolCallId : JsString) (input : J) (state : UIState)

structure UIMessage (J : Type) where
  id : JsString
  role : UIRole
  parts : List (UIPart J)

/-- What the code outside the model gives: the digest of an input, and what it parses to. -/
structure ChatCall (I J : Type) where
  hash : I → JsString
  parseToolInput : I → J
  seed : Option (ReconstructSeed (SeedMessage I))
  runId : Option JsString

section ToUIMessages

variable {I J : Type}

def textFromContent : SeedContent I → JsString
  | .text s => s
  | .parts l => l.flatMap fun p =>
      match p with
      | .text t => t
      | _ => []
  | .other => []

def isTool : Message (SeedMessage I) I JsValue → Bool
  | .tool .. | .seed (.tool _) => true
  | _ => false

/-- The results that a message has. -/
def resultsOf : Message (SeedMessage I) I JsValue → List (JsString × ToolOutput JsValue)
  | .tool toolCallId output => [(toolCallId, output)]
  | .seed (.tool results) => results.map fun (id, o) => (id, .output o)
  | _ => []

/-- The last result of each id. -/
def toolOutputs (messages : List (Message (SeedMessage I) I JsValue)) :
    JsString → Option (ToolOutput JsValue) :=
  (messages.flatMap resultsOf).foldl (fun m (id, o) => Function.update m id (some o)) fun _ => none

/-- A result, as it is shown. A record is no sentinel, and is shown as it is. -/
def displayOf (toolName : JsString) : ToolOutput JsValue → Except JsValue (ToolOutput JsValue)
  | .output o => do return .output (← maskSentinelOutput o toolName).display
  | .record r => .ok (.record r)

/-- The state of a call. -/
def stateOf (outputs : JsString → Option (ToolOutput JsValue)) (c : CallPart I) :
    Except JsValue UIState :=
  match outputs c.toolCallId with
  | some o => do return .outputAvailable (← displayOf c.toolName o)
  | none => .ok .inputAvailable

/-- The part for a part of a model step, if it is shown. -/
def partOf (parse : I → J) (outputs : JsString → Option (ToolOutput JsValue)) :
    ContentPart I → Except JsValue (List (UIPart J))
  | .text t => .ok (if t = [] then [] else [.text t])
  | .reasoning t => .ok (if t = [] then [] else [.reasoning t])
  | .toolCall toolCallId toolName input => do
    return [.tool toolName toolCallId (parse input)
      (← stateOf outputs ⟨toolCallId, toolName, input⟩)]
  | .other => .ok []

def partsOf (parse : I → J) (outputs : JsString → Option (ToolOutput JsValue))
    (content : List (ContentPart I)) : Except JsValue (List (UIPart J)) := do
  let parts := (← content.mapM (partOf parse outputs)).flatten
  return if parts = [] then [.text []] else parts

def modelValues {O : Type} (entries : List (JournalEntry I O)) : List (ModelRecord I) :=
  entries.filterMap fun e =>
    match e with
    | .model _ value => some value
    | .tool .. => none

/-- How many messages are of the seed. -/
def seedLen (seed : Option (ReconstructSeed (SeedMessage I))) : ℕ :=
  match seed with
  | some ⟨some messages, _⟩ => messages.length
  | some ⟨none, some _⟩ => 1
  | _ => 0

def messageId (runId : JsString) (i : ℕ) : JsString := runId ++ js ":msg:" ++ decimal i

/-- The content that an assistant message is made from: of the run, that of the next model
    record; of the seed, its own. -/
def contentForParts (call : ChatCall I J) (i : ℕ) (models : List (ModelRecord I))
    (own : List (ContentPart I)) : List (ContentPart I) × List (ModelRecord I) :=
  if seedLen call.seed ≤ i then
    ((models.head?.map settleModelContent).getD [], models.tail)
  else (own, models)

/-- The messages for the `i`-th message of the conversation, and the model records that are left. -/
def uiMessageOf (call : ChatCall I J) (outputs : JsString → Option (ToolOutput JsValue)) (i : ℕ)
    (models : List (ModelRecord I)) (m : Message (SeedMessage I) I JsValue) :
    Except JsValue (List (UIMessage J)) × List (ModelRecord I) :=
  let id := messageId (call.runId.getD (js "run")) i
  let assistant (own : List (ContentPart I)) :=
    let (content, models) := contentForParts call i models own
    ((partsOf call.parseToolInput outputs content).map fun parts => [⟨id, .assistant, parts⟩], models)
  match m with
  | .tool .. | .seed (.tool _) => (.ok [], models)
  | .user content => (.ok [⟨id, .user, [.text content]⟩], models)
  | .seed (.system content) => (.ok [⟨id, .system, [.text (textFromContent content)]⟩], models)
  | .seed (.user content) => (.ok [⟨id, .user, [.text (textFromContent content)]⟩], models)
  | .assistant content => assistant content
  | .seed (.assistant (.parts content)) => assistant content
  | .seed (.assistant _) => assistant []

/-- The messages from the `i`-th on. -/
def uiMessagesFrom (call : ChatCall I J) (outputs : JsString → Option (ToolOutput JsValue)) :
    ℕ → List (ModelRecord I) → List (Message (SeedMessage I) I JsValue) →
      Except JsValue (List (UIMessage J))
  | _, _, [] => .ok []
  | i, models, m :: ms => do
    let (shown, models) := uiMessageOf call outputs i models m
    return (← shown) ++ (← uiMessagesFrom call outputs (i + 1) models ms)

def toUIMessages (call : ChatCall I J) (entries : List (JournalEntry I JsValue)) :
    Except JsValue (List (UIMessage J)) :=
  let messages := (reconstructState call.hash entries entries.length call.seed).messages
  uiMessagesFrom call (toolOutputs messages) 0 (modelValues entries) messages

end ToUIMessages

/-! ## What is expected of them -/

section Spec

variable {I J : Type}

/-- What a part says, whatever the state of its call. A text that is empty says nothing. -/
def UIPart.said : UIPart J → Option (ContentPart J)
  | text t => if t = [] then none else some (.text t)
  | reasoning t => if t = [] then none else some (.reasoning t)
  | tool toolName toolCallId input _ => some (.toolCall toolCallId toolName input)

/-- What a part of a model step says to the client. -/
def saidBy (parse : I → J) : ContentPart I → Option (ContentPart J)
  | .text t => if t = [] then none else some (.text t)
  | .reasoning t => if t = [] then none else some (.reasoning t)
  | .toolCall toolCallId toolName input => some (.toolCall toolCallId toolName (parse input))
  | .other => none

def UIPart.state? : UIPart J → Option UIState
  | tool _ _ _ state => some state
  | _ => none

/-- The record under a key. -/
def recordAt (entries : List (JournalEntry I JsValue)) (key : JsString) : Option (ToolRow JsValue) :=
  entries.findSome? fun e =>
    match e with
    | .model .. => none
    | .tool key' r => if key' = key then some r else none

def IsSentinel (v : JsValue) : Prop := ∃ name ∈ sentinels, (v.field name).truthy = true

/-- A call shows its own record: its input, if there is none or it is still executed, and what may be
    seen of its output otherwise. -/
def ShowsCall (own : Option (ToolRow JsValue)) (c : CallPart I) (state : UIState) : Prop :=
  match own with
  | none => state = .inputAvailable
  | some r =>
    if r.status = .running then state = .inputAvailable
    else ∃ masked, maskSentinelOutput (r.output.getD .undefined) c.toolName = .ok masked ∧
      state = .outputAvailable (.output masked.display) ∧ ¬IsSentinel masked.display

/-- A message shows a model step: what it says, and each of its calls. -/
structure ShowsStep (parse : I → J) (own : CallPart I → Option (ToolRow JsValue))
    (v : ModelRecord I) (m : UIMessage J) : Prop where
  role : m.role = .assistant
  said : m.parts.filterMap UIPart.said = (settleModelContent v).filterMap (saidBy parse)
  calls : List.Forall₂ (fun c state => ShowsCall (own c) c state)
    ((settleModelContent v).filterMap ContentPart.toolCall?) (m.parts.filterMap UIPart.state?)

/-- The chat has a message for each message of the seed that is not a tool's, and then one for each
    model step, and no id twice. -/
structure ShowsRun (call : ChatCall I J) (keyOf : CallPart I → JsString)
    (entries : List (JournalEntry I JsValue)) (chat : List (UIMessage J)) : Prop where
  ids : (chat.map (·.id)).Nodup
  steps : ∃ seeded run, chat = seeded ++ run ∧
    seeded.length = ((seedMessages call.seed : List (Message (SeedMessage I) I JsValue)).filter
      (!isTool ·)).length ∧
    List.Forall₂ (ShowsStep call.parseToolInput fun c => recordAt entries (keyOf c))
      (modelValues entries) run

end Spec

end Gnldev.ChatAdapter
