import Gnldev.Durable.Journal
import Gnldev.Lib.Kv

/-!
# Tool records and duplicate markers

What a durable tool keeps in the journal (`journal.ts`, `durable-tool.ts`): one
record for each *tool key*, whose status says how far the call is, and one *marker*
for each tool and arguments, which says which call of them is, or was, executed.

* `ToolRecord`, `Stored`: the record, and the record with its format version;
* `Tool`, `Ctx`, `ToolCall`: a tool, the run that calls it, and a call;
* `ToolCall.key`, `ToolCall.dupKey`: where a call keeps its record and its marker.

Texts for people (reasons, messages, guidance) are left out: no decision reads them.
-/

namespace Gnldev.Durable

/-! ## Outputs -/

/-- Who asked the question of a suspended call. -/
inductive SuspendKind where
  | confirm | guard | duplicate | semantic | taint
  /-- A sub-agent's question, carried by the call of the sub-agent. -/
  | nested
  | other
  deriving DecidableEq

/-- The sentinel `__gnl_suspend`. -/
structure Suspend where
  toolCallId : JsString
  kind : SuspendKind
  /-- The calls of the sub-agent that wait for an answer. -/
  interrupts : List JsString
  deriving DecidableEq

/-- Who refused a call. -/
inductive Denial where
  | human | confirm | policy
  deriving DecidableEq

/-- Why the model is asked to reconsider. -/
inductive Nudge where
  | duplicate | taint | loop
  deriving DecidableEq

/-- Why a run is stopped. -/
inductive LimitKind where
  | duplicateSideEffect | taintedSideEffect | loop | maxToolCalls
  deriving DecidableEq

/-- The errors of a call. -/
inductive ToolError where
  /-- The journal, or code outside the engine, has thrown. -/
  | rejected (e : JsString)
  | runBusy
  | sideEffectRetryBlocked
  | retryLimitExceeded
  | compensatedRun
  | ownerMismatch
  | divergence
  | journalFormat
  /-- A tool or thread name that breaks the journal's keys. -/
  | badName
  /-- Not of the source: the polling of the model is bounded. -/
  | stopped
  deriving DecidableEq

/-- The text of an error that is recorded. -/
def ToolError.text : ToolError → JsString
  | rejected e => e
  | _ => []

/-- What a call returns: a value, or a sentinel of the engine. -/
inductive Out (V : Type) where
  | value (v : V)
  | suspend (s : Suspend)
  | denied (by_ : Denial)
  | skipped (first : JsString)
  | reflected (why : Nudge)
  | limitExceeded (kind : LimitKind)
  | blocked (err : ToolError)
  deriving DecidableEq

/-! ## Records -/

/-- The record under a tool key. -/
inductive ToolRecord (V : Type) where
  /-- A claim: the tool is being executed. -/
  | running (startedAt : Int) (attempts : Option ℕ)
  | succeeded (output : Out V) (argsHash : Option JsString) (resolved : Option (List JsString))
  | denied (output : Out V) (resolved : Option (List JsString))
  | reflected (output : Out V) (argsHash : Option JsString) (resolved : Option (List JsString))
  | suspended (output : Out V)
  | failed (error : JsString) (attempts : Option ℕ) (sideEffect : Bool)
  deriving DecidableEq

namespace ToolRecord

variable {V : Type}

/-- The output of a record whose call is over: it succeeded, was denied or reflected. -/
def final : ToolRecord V → Option (Out V)
  | succeeded output _ _ => some output
  | denied output _ => some output
  | reflected output _ _ => some output
  | _ => none

/-- The output of a record that a call can consume: a final one, or a suspended one. -/
def settled : ToolRecord V → Option (Out V)
  | suspended output => some output
  | r => r.final

/-- The calls that have been served the record. -/
def resolved : ToolRecord V → List JsString
  | succeeded _ _ ids => ids.getD []
  | denied _ ids => ids.getD []
  | reflected _ _ ids => ids.getD []
  | _ => []

/-- The record with other resolved calls, if it is final. -/
def withResolved (ids : List JsString) : ToolRecord V → ToolRecord V
  | succeeded output hash _ => succeeded output hash (some ids)
  | denied output _ => denied output (some ids)
  | reflected output hash _ => reflected output hash (some ids)
  | r => r

/-- The attempts of a record in doubt, which the next one counts on from. -/
def attempts : ToolRecord V → ℕ
  | running _ n => n.getD 1
  | failed _ n _ => n.getD 1
  | _ => 0

/-- It is not known whether the tool has run. -/
def uncertain : ToolRecord V → Bool
  | running .. => true
  | failed .. => true
  | _ => false

def isSuspended : ToolRecord V → Bool
  | suspended _ => true
  | _ => false

/-- The sentinel of a suspended record. -/
def suspension : ToolRecord V → Option Suspend
  | suspended (.suspend s) => some s
  | _ => none

/-- The record carries a sub-agent's question. -/
def isProxySuspend (r : ToolRecord V) : Bool := r.suspension.any (·.kind = .nested)

/-- The questions of a sub-agent, of a record that carries them. -/
def interrupts (r : ToolRecord V) : List JsString :=
  match r.suspension with
  | some s => if s.kind = .nested then s.interrupts else []
  | none => []

end ToolRecord

/-- A record as it is stored: with the version of its format (one if it has no stamp),
    and the key it is a copy of, if it is one. -/
structure Stored (V : Type) where
  v : ℕ
  record : ToolRecord V
  mirrorOf : Option JsString
  deriving DecidableEq

/-- The version written. -/
def JOURNAL_FORMAT_VERSION : ℕ := 2

section Format

variable {V : Type}

/-- Stamp a record. -/
def stampFormat (record : ToolRecord V) : Stored V := ⟨JOURNAL_FORMAT_VERSION, record, none⟩

/-- Read a stored record. Version one has the same tool records as version two. -/
def upgradeFormat (s : Stored V) : Except ToolError (ToolRecord V) :=
  if JOURNAL_FORMAT_VERSION < s.v then .error .journalFormat else .ok s.record

end Format

/-- The marker of a tool and its arguments. -/
structure DupMarker where
  firstToolCallId : JsString
  at_ : Int
  nudged : Bool
  /-- The call is still executed. -/
  inFlight : Bool
  /-- The call has failed, and given the marker back. -/
  released : Bool
  deriving DecidableEq

/-- The marker of a call that is over, and has not failed. -/
def DupMarker.completed (m : DupMarker) : Bool := !m.released && !m.inFlight

/-! ## Keys -/

/-- The separator. -/
def sep : UInt16 := 0x3A

namespace runKeys

def tool (runId toolCallId : JsString) : JsString := runId ++ js ":tool:" ++ toolCallId

def proc (runId name : JsString) : JsString := runId ++ js ":proc:" ++ name

/-- Tool names are parts of keys. -/
def assertNoColonInToolName (toolName : JsString) : Except ToolError Unit :=
  if sep ∈ toolName then .error .badName else .ok ()

/-- The parts of a name between separators. -/
def segments (s : JsString) : List JsString := s.splitOn sep

/-- Thread ids are parts of keys too. -/
def assertThreadId (threadId : JsString) : Except ToolError Unit :=
  if js "model" ∈ segments threadId ∨ js "tool" ∈ segments threadId then .error .badName else .ok ()

def toolByArgs (runId toolName hash : JsString) : Except ToolError JsString := do
  assertNoColonInToolName toolName
  return runId ++ js ":tool:args-" ++ toolName ++ js "-" ++ hash

def toolCrossRun (toolName hash : JsString) : Except ToolError JsString := do
  assertNoColonInToolName toolName
  return js "xrun:args-" ++ toolName ++ js "-" ++ hash

def toolThread (threadId toolName hash : JsString) : Except ToolError JsString := do
  assertThreadId threadId
  assertNoColonInToolName toolName
  return js "xthr:" ++ threadId ++ js ":args-" ++ toolName ++ js "-" ++ hash

end runKeys

theorem tool_inj {runId x y : JsString} :
    runKeys.tool runId x = runKeys.tool runId y ↔ x = y := by
  rw [runKeys.tool, runKeys.tool, List.append_cancel_left_eq]

/-- The marker of a run. -/
def dupMarkerKey (runId toolName hash : JsString) : JsString :=
  runKeys.proc runId (js "dup-" ++ toolName ++ js "-" ++ hash)

/-- The marker of a thread. -/
def threadDupMarkerKey (threadId toolName hash : JsString) : Except ToolError JsString := do
  runKeys.assertThreadId threadId
  return js "xthr:" ++ threadId ++ js ":dup-" ++ toolName ++ js "-" ++ hash

/-- The keys whose records are upgraded when a run is replayed. -/
def isVersionedKey (key : JsString) : Bool :=
  let last := (key.reverse.takeWhile (· ≠ sep)).reverse
  let before := (key.reverse.dropWhile (· ≠ sep)).reverse
  (js ":tool:").isSuffixOf before || (last = js "input" && before ≠ []) ||
    ((js ":model:").isSuffixOf before && last ≠ [] && last.all fun c => 0x30 ≤ c && c ≤ 0x39)

/-! ## Policies -/

/-- What to do about a repeated side effect. -/
inductive DupAction where
  | off | warn | reflect | block | suspend | skip
  deriving DecidableEq

inductive DupScope where
  | run | thread
  deriving DecidableEq

/-- A policy for duplicates, as it is given. -/
structure DupSpec where
  action : DupAction
  scope : Option DupScope
  ttlMs : Option Int
  semantic : Bool

/-- The forms of the policy: an action, a policy, or one for each class of effects. -/
inductive DupRaw where
  | action (a : DupAction)
  | spec (s : DupSpec)
  | byClass (cells : JsString → Option DupSpec) (default_ : Option DupSpec) (semantic : Bool)

/-- The policy of a tool. -/
structure DupConfig where
  action : DupAction
  scope : DupScope
  ttlMs : Option Int
  semantic : Bool

/-- The policy for a tool of an effect class. -/
def dupConfigOf (raw : Option DupRaw) (effectClass : Option JsString) : DupConfig :=
  match raw with
  | none => ⟨.warn, .run, none, false⟩
  | some (.action a) => ⟨a, .run, none, false⟩
  | some (.spec s) => ⟨s.action, s.scope.getD .run, s.ttlMs, s.semantic⟩
  | some (.byClass cells default_ semantic) =>
    let spec := ((effectClass.bind cells).or default_).getD ⟨.warn, none, none, false⟩
    ⟨spec.action, spec.scope.getD .run, spec.ttlMs, semantic && spec.action = .suspend⟩

/-- What to do about a side effect after untrusted content. -/
inductive TaintAction where
  | off | warn | reflect | block | suspend
  deriving DecidableEq

/-- The limits of a run. -/
structure RunLimits where
  sideEffectDuplicates : Option DupRaw
  taintedSideEffects : Option TaintAction
  /-- An approval is spent by one attempt. -/
  approvalPerAttempt : Bool

/-! ## Tools, runs and calls -/

/-- The window in which calls with the same arguments are one. -/
inductive Window where
  | run | crossRun | thread
  deriving DecidableEq

/-- A tool, as far as the engine looks at it. -/
structure Tool where
  name : JsString
  idempotencyWindow : Option Window
  /-- It declares `idempotency: 'args'`, or a key of its own. -/
  argsIdempotent : Bool
  idempotent : Option Bool
  sideEffect_ : Option Bool
  confirm : Bool
  untrusted : Bool
  recover : Bool
  lookup : Bool
  maxRetries_ : Option ℕ
  timeoutMs : Option Int
  claimTtlMs : Option Int
  effectClass : Option JsString
  semanticIdentity : Bool

/-- A run, as far as a tool call looks at it. -/
structure Ctx where
  runId : JsString
  threadId : Option JsString
  /-- The run acts for a user. -/
  user : Bool
  approvals : JsString → Option Bool
  noApprovals : Bool
  guard : Bool
  strict : Bool
  /-- The run is replayed from a snapshot of its records. -/
  replayCache : Bool
  blockedAsSentinel : Bool
  limits : Option RunLimits
  toolTimeoutMs : Option Int
  claimTtlMs : Option Int
  processors : Bool

/-- A call of a tool's `execute`: `hash` is that of its arguments, or of the tool's own key. -/
structure ToolCall where
  tool : Tool
  ctx : Ctx
  toolCallId : JsString
  hash : JsString
  /-- The declared identity does not identify these arguments. -/
  identityUnusable : Bool
  /-- The tool's own description of the arguments throws. -/
  describeThrows : Bool
  /-- A bound on the rounds of polling. -/
  rounds : ℕ

def CLAIM_TTL_MS : Int := 30000
def DEFAULT_MAX_RETRIES : ℕ := 3

namespace ToolCall

variable (c : ToolCall)

/-- The window, narrowed to the run without a thread. -/
def effWindow : Window :=
  match c.tool.idempotencyWindow.getD .run, c.ctx.threadId with
  | .thread, none => .run
  | w, _ => w

/-- Calls with the same arguments are one. -/
def argsMode : Bool := c.tool.idempotencyWindow.getD .run ≠ .run || c.tool.argsIdempotent

/-- Where the call keeps its record. -/
def key : Except ToolError JsString :=
  if c.argsMode then
    match c.effWindow, c.ctx.threadId with
    | .crossRun, _ => runKeys.toolCrossRun c.tool.name c.hash
    | .thread, some threadId => runKeys.toolThread threadId c.tool.name c.hash
    | _, _ => runKeys.toolByArgs c.ctx.runId c.tool.name c.hash
  else .ok (runKeys.tool c.ctx.runId c.toolCallId)

/-- The record of a cross-run call has an owner. -/
def owned : Bool := c.effWindow = .crossRun && c.argsMode

/-- The tool has side effects, unless it says otherwise. -/
def sideEffect : Bool := c.tool.sideEffect_.getD (c.tool.idempotent ≠ some true)

/-- How long a claim is live. -/
def claimTtl : Int :=
  (c.tool.claimTtlMs.or c.ctx.claimTtlMs).getD
    (max CLAIM_TTL_MS ((c.tool.timeoutMs.or c.ctx.toolTimeoutMs).getD 0))

def maxRetries : ℕ := c.tool.maxRetries_.getD DEFAULT_MAX_RETRIES

/-- The policy for duplicates. -/
def dupCfg : DupConfig :=
  dupConfigOf (c.ctx.limits.bind (·.sideEffectDuplicates)) c.tool.effectClass

/-- Where the call keeps its marker, if it has one. -/
def dupKey : Except ToolError (Option JsString) :=
  if !c.argsMode && c.sideEffect && c.dupCfg.action ≠ .off then
    match c.dupCfg.scope, c.ctx.threadId with
    | .thread, some threadId => some <$> threadDupMarkerKey threadId c.tool.name c.hash
    | _, _ => .ok (some (dupMarkerKey c.ctx.runId c.tool.name c.hash))
  else .ok none

/-- Completed work of the same person is looked up across channels. -/
def xidPlan : Bool := c.tool.semanticIdentity && c.sideEffect && !c.identityUnusable && c.ctx.user

/-- Similar work of the thread is looked up. -/
def semPlan : Bool :=
  c.dupCfg.semantic && c.tool.semanticIdentity && c.sideEffect && c.ctx.threadId.isSome &&
    !c.identityUnusable && !c.describeThrows

/-- The answer to the call's own question; an answer to a proxy's question is none. -/
def approved {V : Type} (record : Option (ToolRecord V)) : Option Bool :=
  if record.any (·.isProxySuspend) then none else c.ctx.approvals c.toolCallId

/-- A question of the sub-agent has been answered. -/
def nestedAnswered {V : Type} (record : ToolRecord V) : Bool :=
  record.interrupts.any fun id => (c.ctx.approvals id).isSome

end ToolCall

end Gnldev.Durable
