import Gnldev.Durable.TimeTravel
import Gnldev.Lib.FirstDiff
import Mathlib.Data.List.Sort

/-!
# Regression

Two runs are compared decision by decision (`regression.ts`): the model steps in their
order, each followed by the calls it makes. Ids of calls differ between runs, so the
decisions are aligned by position. A model step is read as it is generated, and the
record of a call is looked up by the id of the call.

* `buildDecisionSequence`, `diffRuns`: the decisions, and their comparison;
* `SameRuns`: the runs have decided the same, in any shape and under any keys;
* `SeesEveryDifference`: the comparison finds the first difference, if there is one.
-/

namespace Gnldev.Durable.Regression

open TimeTravel

/-- A tool record, as far as it is read here. -/
structure CallRecord (O : Type) where
  status : TimeTravel.ToolStatus
  argsHash : Option JsString
  output : Option O
  deriving DecidableEq

/-- A record of a run. The key of a model record ends in the number of its step. -/
inductive RunRecord (I O : Type) where
  | model (step : ℕ) (value : ModelRecord I)
  | tool (key : JsString) (value : CallRecord O)

inductive DecisionKind where
  | model | tool
  deriving DecidableEq

def DecisionKind.text : DecisionKind → JsString
  | model => js "model"
  | tool => js "tool"

/-- A decision: a model step, or a call with its record. -/
inductive DecisionPoint (I O : Type) where
  | model (step : ℕ) (value : ModelRecord I)
  | tool (step : ℕ) (toolCallId toolName : JsString) (value : Option (CallRecord O))
  deriving DecidableEq

/-- What the code outside the model computes: the digest of an input that is parsed if it is
    a text, the canonical form of a text, and the text of an output. -/
structure Texts (I O : Type) where
  argsHash : I → JsString
  normalize : JsString → JsString
  stableStringify : O → JsString

/-- A call, by its tool and the digest of its arguments. -/
structure CallSig where
  toolName : JsString
  argsHash : JsString
  deriving DecidableEq

section Sequence

variable {I O : Type}

namespace DecisionPoint

def step : DecisionPoint I O → ℕ
  | model step _ => step
  | tool step _ _ _ => step

def kind : DecisionPoint I O → DecisionKind
  | model .. => .model
  | tool .. => .tool

end DecisionPoint

/-- The model records, in the order of their steps. -/
def modelSteps (entries : List (RunRecord I O)) : List (ℕ × ModelRecord I) :=
  (entries.filterMap fun e =>
    match e with
    | .model step value => some (step, value)
    | .tool .. => none).insertionSort fun a b => a.1 ≤ b.1

/-- The tool records by what follows the last `:tool:` of their keys. -/
def toolById (entries : List (RunRecord I O)) : JsString → Option (CallRecord O) :=
  entries.foldl
    (fun m e =>
      match e with
      | .model .. => m
      | .tool key value => Function.update m (TimeTravel.toolIdFromKey key) (some value))
    fun _ => none

/-- The decision of a part, if it is a call with an id. -/
def toolPoint (byId : JsString → Option (CallRecord O)) (step : ℕ) :
    ContentPart I → Option (DecisionPoint I O)
  | .toolCall toolCallId toolName _ =>
    if toolCallId = [] then none else some (.tool step toolCallId toolName (byId toolCallId))
  | _ => none

/-- The decisions of a model step: its own, and those of the calls in its content. -/
def stepPoints (byId : JsString → Option (CallRecord O)) :
    ℕ × ModelRecord I → List (DecisionPoint I O)
  | (step, value) => .model step value :: (value.content.getD []).filterMap (toolPoint byId step)

def buildDecisionSequence (entries : List (RunRecord I O)) : List (DecisionPoint I O) :=
  (modelSteps entries).flatMap (stepPoints (toolById entries))

/-! ## Comparison -/

structure DiffDetail (O : Type) where
  textA : Option JsString := none
  textB : Option JsString := none
  toolCallsA : Option (List CallSig) := none
  toolCallsB : Option (List CallSig) := none
  toolName : Option JsString := none
  argsHashA : Option JsString := none
  argsHashB : Option JsString := none
  statusA : Option TimeTravel.ToolStatus := none
  statusB : Option TimeTravel.ToolStatus := none
  outputA : Option O := none
  outputB : Option O := none
  note : Option JsString := none

inductive DiffStatus where
  | same | changed | missing | added
  deriving DecidableEq

structure DiffEntry (O : Type) where
  step : ℕ
  kind : DecisionKind
  status : DiffStatus
  detail : Option (DiffDetail O)

structure DiffSummary where
  same : ℕ
  changed : ℕ
  missing : ℕ
  added : ℕ
  deriving DecidableEq

def DiffSummary.total (s : DiffSummary) : ℕ := s.same + s.changed + s.missing + s.added

structure RunDiff (O : Type) where
  steps : List (DiffEntry O)
  divergentAt : Option ℕ
  summary : DiffSummary

variable (texts : Texts I O)

/-- The texts of some content, one after the other. -/
def textOf (content : List (ContentPart I)) : JsString :=
  content.flatMap fun p =>
    match p with
    | .text t => t
    | _ => []

/-- The calls of some content. -/
def callsOf (content : List (ContentPart I)) : List CallSig :=
  (content.filterMap ContentPart.toolCall?).map fun c => ⟨c.toolName, texts.argsHash c.input⟩

def modelText (value : ModelRecord I) : JsString := textOf (value.content.getD [])

def modelToolCalls (value : ModelRecord I) : List CallSig := callsOf texts (value.content.getD [])

/-- The calls as they are compared: `stableStringify` normalizes the texts in them. -/
def stableCalls (calls : List CallSig) : List CallSig :=
  calls.map fun c => ⟨texts.normalize c.toolName, texts.normalize c.argsHash⟩

/-- The same, or what is different. -/
def compareModelPoints (av bv : ModelRecord I) : Option (DiffDetail O) :=
  let textA := modelText av
  let textB := modelText bv
  let callsA := modelToolCalls texts av
  let callsB := modelToolCalls texts bv
  if textA = textB ∧ stableCalls texts callsA = stableCalls texts callsB then none
  else some { textA, textB, toolCallsA := callsA, toolCallsB := callsB }

def compareToolPoints (nameA nameB : JsString) (va vb : Option (CallRecord O)) :
    Option (DiffDetail O) :=
  let statusA := va.map (·.status)
  let statusB := vb.map (·.status)
  let argsHashA := va.bind (·.argsHash)
  let argsHashB := vb.bind (·.argsHash)
  let outputA := va.bind (·.output)
  let outputB := vb.bind (·.output)
  if nameA = nameB ∧ statusA = statusB ∧ argsHashA = argsHashB ∧
      outputA.map texts.stableStringify = outputB.map texts.stableStringify then none
  else some {
    toolName := some (if nameA = nameB then nameA else nameA ++ js " -> " ++ nameB)
    statusA, statusB, argsHashA, argsHashB, outputA, outputB }

def comparePoints : DecisionPoint I O → DecisionPoint I O → Option (DiffDetail O)
  | .model _ av, .model _ bv => compareModelPoints texts av bv
  | .tool _ _ nameA va, .tool _ _ nameB vb => compareToolPoints texts nameA nameB va vb
  | a, b => some { note := some (js "kind changed: " ++ a.kind.text ++ js " -> " ++ b.kind.text) }

def describePointA : DecisionPoint I O → DiffDetail O
  | .model _ value =>
    { textA := some (modelText value), toolCallsA := some (modelToolCalls texts value) }
  | .tool _ _ toolName v =>
    { toolName := some toolName, statusA := v.map (·.status), argsHashA := v.bind (·.argsHash)
      outputA := v.bind (·.output) }

def describePointB : DecisionPoint I O → DiffDetail O
  | .model _ value =>
    { textB := some (modelText value), toolCallsB := some (modelToolCalls texts value) }
  | .tool _ _ toolName v =>
    { toolName := some toolName, statusB := v.map (·.status), argsHashB := v.bind (·.argsHash)
      outputB := v.bind (·.output) }

/-- The decisions of both runs, by position. -/
def diffEntries : List (DecisionPoint I O) → List (DecisionPoint I O) → List (DiffEntry O)
  | [], bs => bs.map fun b => ⟨b.step, b.kind, .added, some (describePointB texts b)⟩
  | a :: as, [] => ⟨a.step, a.kind, .missing, some (describePointA texts a)⟩ :: diffEntries as []
  | a :: as, b :: bs =>
    let detail := comparePoints texts a b
    ⟨a.step, a.kind, if detail.isNone then .same else .changed, detail⟩ :: diffEntries as bs

def summaryOf (steps : List (DiffEntry O)) : DiffSummary where
  same := steps.countP (·.status = .same)
  changed := steps.countP (·.status = .changed)
  missing := steps.countP (·.status = .missing)
  added := steps.countP (·.status = .added)

/-- Compare two runs, by their records. -/
def diffRuns (entriesA entriesB : List (RunRecord I O)) : RunDiff O :=
  let steps := diffEntries texts (buildDecisionSequence entriesA) (buildDecisionSequence entriesB)
  { steps, divergentAt := steps.findIdx? (·.status ≠ .same), summary := summaryOf steps }

end Sequence

/-! ## What is expected of it -/

section Spec

variable {I O : Type}

/-- The record under a key. -/
def recordAt (entries : List (RunRecord I O)) (key : JsString) : Option (CallRecord O) :=
  entries.findSome? fun e =>
    match e with
    | .model .. => none
    | .tool key' value => if key' = key then some value else none

/-- A run: its records, and where each call has its own. -/
structure Run (I O : Type) where
  entries : List (RunRecord I O)
  keyOf : CallPart I → JsString

/-- The record of a call of the run. -/
def Run.own (run : Run I O) (c : CallPart I) : Option (CallRecord O) :=
  recordAt run.entries (run.keyOf c)

/-- The calls of a model step. -/
def callsIn (value : ModelRecord I) : List (CallPart I) :=
  (settleModelContent value).filterMap ContentPart.toolCall?

variable (texts : Texts I O)

/-- Two steps say the same and make the same calls. -/
def sameStep (av bv : ModelRecord I) : Bool :=
  textOf (settleModelContent av) = textOf (settleModelContent bv) &&
    callsOf texts (settleModelContent av) = callsOf texts (settleModelContent bv)

/-- Two calls have come to the same: the status and the output of their records. -/
def sameResult [DecidableEq O] (va vb : Option (CallRecord O)) : Bool :=
  va.map (·.status) = vb.map (·.status) && va.bind (·.output) = vb.bind (·.output)

/-- The runs have decided the same, step by step. -/
def SameRuns [DecidableEq O] (a b : Run I O) : Prop :=
  List.Forall₂ (fun p q => sameStep texts p.2 q.2 = true ∧
    List.Forall₂ (fun c d => sameResult (a.own c) (b.own d) = true) (callsIn p.2) (callsIn q.2))
    (modelSteps a.entries) (modelSteps b.entries)

/-- A decision of a run: a model step, or a call of a step, with its record. -/
inductive Decision (I O : Type) where
  | model (step : ℕ) (value : ModelRecord I)
  | call (step : ℕ) (value : ModelRecord I) (c : CallPart I) (own : Option (CallRecord O))

/-- A decision for each call of a step. -/
def Run.callDecisions (run : Run I O) (step : ℕ) (value : ModelRecord I)
    (calls : List (CallPart I)) : List (Decision I O) :=
  calls.map fun c => .call step value c (run.own c)

/-- The decisions of a step. -/
def Run.stepDecisions (run : Run I O) : ℕ × ModelRecord I → List (Decision I O)
  | (step, value) => .model step value :: run.callDecisions step value (callsIn value)

/-- All decisions of a run. -/
def Run.decisions (run : Run I O) : List (Decision I O) :=
  (modelSteps run.entries).flatMap run.stepDecisions

/-- Two steps that are the same, or two calls of one tool that have come to the same. -/
def sameDecision [DecidableEq O] : Decision I O → Decision I O → Bool
  | .model _ av, .model _ bv => sameStep texts av bv
  | .call _ _ c va, .call _ _ d vb => c.toolName = d.toolName && sameResult va vb
  | _, _ => false

/-- A decision, as the code has it if it lists it. -/
def Run.pointOf (run : Run I O) : Decision I O → DecisionPoint I O
  | .model step value => .model step value
  | .call step _ c _ => .tool step c.toolCallId c.toolName (toolById run.entries c.toolCallId)

/-- The comparison finds no difference exactly if there is none. Otherwise it finds the first one, at
    its place among the decisions of each run. It counts all decisions of the longer run. -/
structure SeesEveryDifference [DecidableEq O] (a b : Run I O) (d : RunDiff O) : Prop where
  undefined_iff : d.divergentAt = none ↔ SameRuns texts a b
  first : ∀ i, d.divergentAt = some i →
    firstDiff (sameDecision texts) a.decisions b.decisions = some i ∧
    (buildDecisionSequence a.entries).take (i + 1) = (a.decisions.take (i + 1)).map a.pointOf ∧
    (buildDecisionSequence b.entries).take (i + 1) = (b.decisions.take (i + 1)).map b.pointOf
  counts : d.summary.total = max a.decisions.length b.decisions.length

end Spec

end Gnldev.Durable.Regression
