import Gnldev.Durable.Compensation
import Gnldev.Durable.MemoryJournal

/-!
# Names of keys

All keys of the journal share one space, and whose record a key is, is read off its text
(`parseJournalKey`, `runIdOfKey`). The keys of model steps and tool calls are to be read as the
records of their run, and no other key as a record. A key is made of ids, and what it is read as is
decided by the last id in it: a tool call, a name or a run whose id has a part `model` or `tool`
makes a record of a run that there is not (`keys_named`).

* `JournalKey`: the keys, by how they are built;
* `JournalKey.entryOf`: what a record is of its run;
* `JournalKey.Named`: a key is read as what it is;
* `JournalKey.Clear`: no id in it can be mistaken.
-/

namespace Gnldev.Durable

/-! ## Keys -/

namespace runKeys

def approval (runId toolCallId : JsString) : JsString := runId ++ js ":approval:" ++ toolCallId

def input (runId : JsString) : JsString := runId ++ js ":input"

def toolCrossRunOwner (toolName hash : JsString) : Except ToolError JsString := do
  assertNoColonInToolName toolName
  return js "xrun:owner-" ++ toolName ++ js "-" ++ hash

def memAppended (runId : JsString) : JsString := js "mem-appended:" ++ runId

def memUserAppended (runId : JsString) : JsString := js "mem-user-appended:" ++ runId

def memoryContext (runId : JsString) : JsString := runId ++ js ":memctx"

def cfgModel (runId : JsString) : JsString := runId ++ js ":cfg:model"

def cfgLimits (runId : JsString) : JsString := runId ++ js ":cfg:limits"

def outcome (runId : JsString) : JsString := runId ++ js ":outcome"

end runKeys

namespace netKeys

/-- Of a turn, or of the answer that is forced at the end. -/
def route (runId : JsString) (i : Option ℕ) : JsString :=
  runId ++ js ":net:route:" ++ i.elim (js "final") decimal

def step (runId : JsString) (i : ℕ) : JsString := runId ++ js ":net:step:" ++ decimal i

def veto (runId : JsString) (i : ℕ) : JsString := runId ++ js ":net:veto:" ++ decimal i

end netKeys

def workflowStatusKey (runId : JsString) : JsString := js "wfrun:" ++ runId

def MEM_LEAVES : List JsString := [js "messages", js "working"]

def memKey (threadId leaf : JsString) : Except ToolError JsString := do
  runKeys.assertThreadId threadId
  return js "mem:" ++ threadId ++ js ":" ++ leaf

def semKey (threadId toolName hash : JsString) : Except ToolError JsString := do
  runKeys.assertThreadId threadId
  return js "xthr:" ++ threadId ++ js ":sem-" ++ toolName ++ js "-" ++ hash

def semTombKey (threadId toolName prior new : JsString) : Except ToolError JsString := do
  runKeys.assertThreadId threadId
  return js "xthr:" ++ threadId ++ js ":semtomb-" ++ toolName ++ js "-" ++ prior ++ js "-" ++ new

/-- Two digests, the lesser one first. -/
def inOrder (h₁ h₂ : JsString) : JsString × JsString := if h₁ ≤ h₂ then (h₁, h₂) else (h₂, h₁)

def semJudgeKey (threadId toolName h₁ h₂ : JsString) : Except ToolError JsString := do
  runKeys.assertThreadId threadId
  let (lo, hi) := inOrder h₁ h₂
  return js "xthr:" ++ threadId ++ js ":semjudge-" ++ toolName ++ js "-" ++ lo ++ js "-" ++ hi

def xidKey (resourceId toolName hash : JsString) : JsString :=
  js "xid:res:" ++ resourceId ++ js ":" ++ toolName ++ js ":" ++ hash

/-- A key, by how it is built. -/
inductive JournalKey where
  | model (runId : JsString) (step : ℕ)
  | tool (runId toolCallId : JsString)
  | toolByArgs (runId toolName hash : JsString)
  | input (runId : JsString)
  | approval (runId toolCallId : JsString)
  | proc (runId name : JsString)
  | cfgModel (runId : JsString)
  | cfgLimits (runId : JsString)
  | outcome (runId : JsString)
  | memoryContext (runId : JsString)
  | netRoute (runId : JsString) (i : Option ℕ)
  | netStep (runId : JsString) (i : ℕ)
  | netVeto (runId : JsString) (i : ℕ)
  | memAppended (runId : JsString)
  | memUserAppended (runId : JsString)
  | workflowStatus (runId : JsString)
  | mem (threadId leaf : JsString)
  | toolThread (threadId toolName hash : JsString)
  | threadDupMarker (threadId toolName hash : JsString)
  | sem (threadId toolName hash : JsString)
  | semTomb (threadId toolName prior new : JsString)
  | semJudge (threadId toolName h₁ h₂ : JsString)
  | toolCrossRun (toolName hash : JsString)
  | toolCrossRunOwner (toolName hash : JsString)
  | xid (resourceId toolName hash : JsString)

namespace JournalKey

/-- The key, unless its builder throws. -/
def build : JournalKey → Except ToolError JsString
  | model runId step => .ok (runKeys.model runId (decimal step))
  | tool runId toolCallId => .ok (runKeys.tool runId toolCallId)
  | toolByArgs runId toolName hash => runKeys.toolByArgs runId toolName hash
  | input runId => .ok (runKeys.input runId)
  | approval runId toolCallId => .ok (runKeys.approval runId toolCallId)
  | proc runId name => .ok (runKeys.proc runId name)
  | cfgModel runId => .ok (runKeys.cfgModel runId)
  | cfgLimits runId => .ok (runKeys.cfgLimits runId)
  | outcome runId => .ok (runKeys.outcome runId)
  | memoryContext runId => .ok (runKeys.memoryContext runId)
  | netRoute runId i => .ok (netKeys.route runId i)
  | netStep runId i => .ok (netKeys.step runId i)
  | netVeto runId i => .ok (netKeys.veto runId i)
  | memAppended runId => .ok (runKeys.memAppended runId)
  | memUserAppended runId => .ok (runKeys.memUserAppended runId)
  | workflowStatus runId => .ok (workflowStatusKey runId)
  | mem threadId leaf => memKey threadId leaf
  | toolThread threadId toolName hash => runKeys.toolThread threadId toolName hash
  | threadDupMarker threadId toolName hash => threadDupMarkerKey threadId toolName hash
  | sem threadId toolName hash => semKey threadId toolName hash
  | semTomb threadId toolName prior new => semTombKey threadId toolName prior new
  | semJudge threadId toolName h₁ h₂ => semJudgeKey threadId toolName h₁ h₂
  | toolCrossRun toolName hash => runKeys.toolCrossRun toolName hash
  | toolCrossRunOwner toolName hash => runKeys.toolCrossRunOwner toolName hash
  | xid resourceId toolName hash => .ok (xidKey resourceId toolName hash)

/-- The run that the key is of. -/
def runId? : JournalKey → Option JsString
  | model runId _ | tool runId _ | toolByArgs runId _ _ | input runId | approval runId _
  | proc runId _ | cfgModel runId | cfgLimits runId | outcome runId | memoryContext runId
  | netRoute runId _ | netStep runId _ | netVeto runId _ | memAppended runId
  | memUserAppended runId | workflowStatus runId => some runId
  | _ => none

/-- The digests in the key. -/
def hashes : JournalKey → List JsString
  | toolByArgs _ _ hash | toolThread _ _ hash | threadDupMarker _ _ hash | sem _ _ hash
  | toolCrossRun _ hash | toolCrossRunOwner _ hash | xid _ _ hash => [hash]
  | semTomb _ _ prior new => [prior, new]
  | semJudge _ _ h₁ h₂ => [h₁, h₂]
  | _ => []

end JournalKey

/-- The digest of arguments: 16 hexadecimal digits. -/
def isArgsHash (hash : JsString) : Bool := hash.length = 16 && hash.all isHexLower

namespace JournalKey

/-- The key is built from ids that are accepted. -/
structure Accepted (k : JournalKey) (key : JsString) : Prop where
  built : k.build = .ok key
  run : ∀ runId ∈ k.runId?, assertRunIdSafe runId = .ok ()
  hash : ∀ hash ∈ k.hashes, isArgsHash hash
  toolCallId : ∀ runId, k ≠ tool runId [] ∧ k ≠ approval runId []
  leaf : ∀ threadId leaf, k = mem threadId leaf → leaf ∈ MEM_LEAVES

/-! ## What a key is read as -/

/-- The key is read as the record of a run. -/
structure IsRecordOf (P : Type) (key runId : JsString) (kind : EntryKind) : Prop where
  parse : parseJournalKey key = some (runId, kind)
  runId : ∀ value : JournalValue P, runIdOfKey key value = some runId

/-- A key is read as what it is: the record of its run, its input, or no record of a run that did
    not write it. -/
def Named (P : Type) (key : JsString) : JournalKey → Prop
  | model runId _ => IsRecordOf P key runId .model
  | tool runId _ => IsRecordOf P key runId .tool
  | toolByArgs runId _ _ => IsRecordOf P key runId .tool
  | input runId => parseJournalKey key = none ∧
    ∀ value : JournalValue P, value.versioned → runIdOfKey key value = some runId
  | k => ∀ runId kind, parseJournalKey key = some (runId, kind) → runId ∈ k.runId?

end JournalKey

/-- After a colon, the id makes a record: it has a part that is a kind, and something follows. -/
def HasRecord (id : JsString) : Prop :=
  ∃ (a : JsString) (kind : EntryKind) (t : JsString), t ≠ [] ∧ sep :: id = a ++ (kind.separator ++ t)

namespace JournalKey

/-- No id in the key can be mistaken. What is not to be read as a record is safe with a line
    terminator in it. -/
def Clear (key : JsString) : JournalKey → Prop
  | tool _ toolCallId => ¬HasRecord toolCallId ∧ toolCallId.any isLineTerminator = false
  | toolByArgs _ toolName _ => toolName.any isLineTerminator = false
  | approval _ toolCallId => ¬HasRecord toolCallId ∨ key.any isLineTerminator
  | proc _ name => ¬HasRecord name ∨ key.any isLineTerminator
  | memAppended runId | memUserAppended runId | workflowStatus runId => ¬HasRecord runId
  | threadDupMarker _ toolName hash =>
    ¬HasRecord (js "dup-" ++ toolName ++ js "-" ++ hash) ∨ key.any isLineTerminator
  | sem _ toolName hash =>
    ¬HasRecord (js "sem-" ++ toolName ++ js "-" ++ hash) ∨ key.any isLineTerminator
  | semTomb _ toolName prior new =>
    ¬HasRecord (js "semtomb-" ++ toolName ++ js "-" ++ prior ++ js "-" ++ new) ∨
      key.any isLineTerminator
  | semJudge _ toolName h₁ h₂ =>
    ¬HasRecord (js "semjudge-" ++ toolName ++ js "-" ++ (inOrder h₁ h₂).1 ++ js "-" ++
      (inOrder h₁ h₂).2) ∨ key.any isLineTerminator
  | xid resourceId toolName hash =>
    ¬HasRecord (resourceId ++ js ":" ++ toolName ++ js ":" ++ hash) ∨ key.any isLineTerminator
  | _ => True

/-- What a record, or an input, is of its run: its kind and its id. -/
def entryOf : JournalKey → Option (JsString × Option EntryKind × JsString)
  | model runId step => some (runId, some .model, decimal step)
  | tool runId toolCallId => some (runId, some .tool, toolCallId)
  | toolByArgs runId toolName hash =>
    some (runId, some .tool, js "args-" ++ toolName ++ js "-" ++ hash)
  | input runId => some (runId, none, [])
  | _ => none

/-- The id of a call is another call's tool and arguments. -/
def SameCall : JournalKey → JournalKey → Prop
  | tool runId toolCallId, toolByArgs runId' toolName hash =>
    runId = runId' ∧ toolCallId = js "args-" ++ toolName ++ js "-" ++ hash
  | _, _ => False

end JournalKey

end Gnldev.Durable
