import Gnldev.Durable.Fork
import Gnldev.Lib.LastIndex
import Gnldev.Lib.Paired

/-!
# Time travel

The conversation of a run up to a step is rebuilt from its journal (`time-travel.ts`).
A tool record is *for* the calls that its list names or, if it has none, for those its
key is made of: the key of a call, or the key of the arguments. What it returned is
then said for each of them, where the record stands. The records that are resolved
settle their calls. The others are pending.

* `reconstructState`: the three passes over the entries;
* `ValidConversation`: each call has one result at most, after the call, and is
  pending if no resolved record serves it;
* `recordKey`, `serves`: the record of a call, as the tool keeps it.
-/

namespace Gnldev.Durable.TimeTravel

/-! ## Entries -/

inductive ToolStatus where
  | succeeded | denied | reflected | suspended | failed | running
  deriving DecidableEq

/-- A tool record, as far as it is read here. One that failed or runs has no output. -/
structure ToolRow (O : Type) where
  status : ToolStatus
  output : Option O
  resolvedToolCallIds : Option (List JsString)
  deriving DecidableEq

/-- `suspended` still waits for an approval, `running` is still executed. -/
def ToolRow.resolved {O : Type} (r : ToolRow O) : Bool :=
  r.status ≠ .suspended && r.status ≠ .running

inductive JournalEntry (I O : Type) where
  | model (key : JsString) (value : ModelRecord I)
  | tool (key : JsString) (value : ToolRow O)
  deriving DecidableEq

/-- The calls of an entry. -/
def JournalEntry.calls {I O : Type} : JournalEntry I O → List (CallPart I)
  | model _ value => (settleModelContent value).filterMap ContentPart.toolCall?
  | tool .. => []

/-- What follows the last `:tool:` of a key. -/
def toolIdFromKey (key : JsString) : JsString :=
  match List.lastIndexOf (js ":tool:") key with
  | some i => key.drop (i + (js ":tool:").length)
  | none => key

/-! ## Messages -/

/-- The outputs that `??` passes over: `null` and `undefined`. -/
class Nullish (O : Type) where
  isNullish : O → Bool

/-- What a tool message shows: the output of a record, or the record if it has none. -/
inductive ToolOutput (O : Type) where
  | output (o : O)
  | record (r : ToolRow O)
  deriving DecidableEq

/-- `rec?.output ?? rec`. -/
def ToolRow.shown {O : Type} [Nullish O] (r : ToolRow O) : ToolOutput O :=
  match r.output.filter (!Nullish.isNullish ·) with
  | some o => .output o
  | none => .record r

/-- A message of the conversation. Those of the seed are in `M`. -/
inductive Message (M I O : Type) where
  | seed (m : M)
  | user (content : JsString)
  | assistant (content : List (ContentPart I))
  | tool (toolCallId : JsString) (output : ToolOutput O)
  deriving DecidableEq

structure ReconstructSeed (M : Type) where
  messages : Option (List M)
  /-- A prompt that is a text. -/
  prompt : Option JsString

structure ToolCallRef where
  toolCallId : JsString
  toolName : JsString
  deriving DecidableEq

structure ReconstructedState (M I O : Type) where
  step : ℕ
  messages : List (Message M I O)
  pending : List ToolCallRef
  deriving DecidableEq

/-- The parts of a model step that an assistant message has. -/
def shownPart {I : Type} : ContentPart I → Option (ContentPart I)
  | .text t => some (.text t)
  | .toolCall toolCallId toolName input => some (.toolCall toolCallId toolName input)
  | _ => none

section Reconstruct

variable {M I O : Type}

def seedMessages : Option (ReconstructSeed M) → List (Message M I O)
  | none => []
  | some ⟨some messages, _⟩ => messages.map .seed
  | some ⟨none, some prompt⟩ => [.user prompt]
  | some ⟨none, none⟩ => []

/-! ## The first pass: the calls -/

/-- The calls of the window, and the id that each has by its arguments. -/
structure Lookup where
  toolCalls : List ToolCallRef
  argsKeyByToolCallId : JsString → Option JsString

/-- The id of a call by its arguments. `hash` is that of the input, parsed if it is a
    text. -/
def argsId (hash : I → JsString) (c : CallPart I) : JsString :=
  js "args-" ++ c.toolName ++ js "-" ++ hash c.input

def windowCalls (window : List (JournalEntry I O)) : List (CallPart I) :=
  window.flatMap JournalEntry.calls

def refOf (c : CallPart I) : ToolCallRef := ⟨c.toolCallId, c.toolName⟩

def lookup (hash : I → JsString) (window : List (JournalEntry I O)) : Lookup where
  toolCalls := (windowCalls window).map refOf
  argsKeyByToolCallId := (windowCalls window).foldl
    (fun m c => Function.update m c.toolCallId (some (argsId hash c))) fun _ => none

/-! ## The second pass: who is served -/

namespace Lookup

variable (l : Lookup)

/-- The calls that a record is for. -/
def candidates (key : JsString) (r : ToolRow O) : List ToolCallRef :=
  match r.resolvedToolCallIds with
  | some ids => l.toolCalls.filter (·.toolCallId ∈ ids)
  | none => l.toolCalls.filter fun x =>
      x.toolCallId = toolIdFromKey key ∨
        l.argsKeyByToolCallId x.toolCallId = some (toolIdFromKey key)

/-- Those that no earlier record has claimed. -/
def matched (claimed : List JsString) : JournalEntry I O → List ToolCallRef
  | .model .. => []
  | .tool key r => (l.candidates key r).filter (·.toolCallId ∉ claimed)

/-- A resolved record claims them. -/
def claim (claimed : List JsString) (e : JournalEntry I O) : List JsString :=
  match e with
  | .model .. => claimed
  | .tool _ r => if r.resolved then claimed ++ (l.matched claimed e).map (·.toolCallId) else claimed

def matchesByIndex : List (JournalEntry I O) → List JsString → List (List ToolCallRef)
  | [], _ => []
  | e :: window, claimed => l.matched claimed e :: matchesByIndex window (l.claim claimed e)

end Lookup

/-! ## The third pass: the messages -/

def render [Nullish O] : JournalEntry I O → List ToolCallRef → List (Message M I O)
  | .model _ value, _ => [.assistant ((settleModelContent value).filterMap shownPart)]
  | .tool key r, [] => [.tool (toolIdFromKey key) r.shown]
  | .tool _ r, ms => ms.map fun m => .tool m.toolCallId r.shown

/-- The entries up to a step. -/
def windowOf (entries : List (JournalEntry I O)) (uptoStep : ℤ) : List (JournalEntry I O) :=
  entries.take (max 0 (min uptoStep entries.length)).toNat

def reconstructState [Nullish O] (hash : I → JsString) (entries : List (JournalEntry I O)) (uptoStep : ℤ)
    (seed : Option (ReconstructSeed M)) : ReconstructedState M I O :=
  let window := windowOf entries uptoStep
  let l := lookup hash window
  { step := window.length
    messages := seedMessages seed ++ (window.zipWith render (l.matchesByIndex window [])).flatten
    pending := l.toolCalls.filter (·.toolCallId ∉ window.foldl l.claim []) }

/-! ## What is expected of it -/

/-- How a tool keeps its records: one for each call, or one for the same arguments, or the
    same key of its own, by their hash. Of a record that runs share, each call has a copy. -/
inductive ToolMode (I : Type) where
  | call
  | args (idempotencyKey : Option (I → JsString))

/-- Where a call of the run has its record. -/
def recordKey (hash : I → JsString) (runId : JsString) (modes : JsString → ToolMode I)
    (c : CallPart I) : JsString :=
  match modes c.toolName with
  | .call => runKeys.tool runId c.toolCallId
  | .args idempotencyKey => runKeys.tool runId (argsId (idempotencyKey.getD hash) c)

/-- A record serves the calls on its list or, if it has none, those it is the record of. -/
def serves (keyOf : CallPart I → JsString) (key : JsString) (r : ToolRow O) (c : CallPart I) :
    Prop :=
  match r.resolvedToolCallIds with
  | some ids => c.toolCallId ∈ ids
  | none => key = keyOf c

/-- The calls that a message makes. -/
def Message.callIds : Message M I O → List JsString
  | assistant content => (content.filterMap ContentPart.toolCall?).map (·.toolCallId)
  | _ => []

/-- The calls that a message has a result of. -/
def Message.resultIds : Message M I O → List JsString
  | tool toolCallId _ => [toolCallId]
  | _ => []

/-- The messages are a conversation with the calls of the window: a call has one result at most,
    a result has its call in a message before, and a call is pending if no resolved record serves
    it. -/
structure ValidConversation (keyOf : CallPart I → JsString) (window : List (JournalEntry I O))
    (messages : List (Message M I O)) (pending : List ToolCallRef) : Prop where
  once : ∀ c ∈ windowCalls window, (namesOf Message.resultIds messages).count c.toolCallId ≤ 1
  called : Called Message.callIds Message.resultIds ∅ messages
  pending : ∀ c ∈ windowCalls window, refOf c ∈ pending ↔
    ¬∃ key r, .tool key r ∈ window ∧ r.resolved = true ∧ serves keyOf key r c

end Reconstruct

end Gnldev.Durable.TimeTravel
