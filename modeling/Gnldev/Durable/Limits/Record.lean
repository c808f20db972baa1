import Gnldev.Durable.Limits.State
import Gnldev.Lib.Prog

/-!
# Recording outcomes

How the limit state is written (`limits.ts`): the counters by atomic increments,
the chain by compare-and-swap, and both at once by the *seeding* of a run whose
chain is missing. `recordToolOutcome` is called by `writeToolTerminal`
(`durable-tool.ts`), after the record of the outcome has been written.

As everywhere, the conditional writes are optional members of the store, and code
that lacks them falls back to a read and a write.

* `LimitsStore`: the part of the journal the limits use, over the monad of the programs;
* `limMachine`: the journal with atomic operations. It keeps, as a history no
  operation reads, which outcomes were recorded, and which of them the scan that
  seeded the state had before it (`LimRun`).
-/

namespace Gnldev.Durable

/-- The journal as the limits see it. -/
structure LimitsStore (m : Type → Type) where
  getChain : JsString → m (Option LimitChain)
  putChain : JsString → LimitChain → m Unit
  /-- `putIfAbsent` on the chain's key. -/
  chainIfAbsent : Option (JsString → LimitChain → m Bool)
  /-- `putIfMatch` on the chain's key. -/
  chainIfMatch : Option (JsString → LimitChain → LimitChain → m Bool)
  getCounters : JsString → m (Option LimitCounters)
  putCounters : JsString → LimitCounters → m Unit
  incrBy : Option (JsString → LimitCounters → m Unit)
  readRun : Option (JsString → m (List JournalEntry))
  getModel : JsString → ℕ → m (Option (Option Usage))
  putTool : JsString → JsString → OutcomeRecord → m Unit

/-- Where a tool call keeps its record. -/
inductive RecordPlace where
  /-- Under the id of the call. -/
  | call
  /-- Under the tool and its arguments. -/
  | args
  /-- Outside the run, under a key of its own; the run has a copy. -/
  | outside (key : JsString)
  deriving DecidableEq

/-- The outcome of a tool call, as `writeToolTerminal` is told it. -/
structure ToolOutcome where
  toolCallId : JsString
  toolName : JsString
  hash : JsString
  status : ToolStatus
  /-- The tool has side effects; recorded for a failed call only. -/
  sideEffect : Bool
  place : RecordPlace
  deriving DecidableEq

/-- What follows `tool:` in the key of the record. -/
def ToolOutcome.recordId (o : ToolOutcome) : JsString :=
  match o.place with
  | .args => js "args-" ++ o.toolName ++ js "-" ++ o.hash
  | _ => o.toolCallId

/-- The record that is written. Only a success and a nudge carry the arguments' hash. -/
def ToolOutcome.record (o : ToolOutcome) : OutcomeRecord where
  status := o.status
  toolName := some o.toolName
  argsHash := if o.status = .succeeded ∨ o.status = .reflected then some o.hash else none
  sideEffect := o.status = .failed && o.sideEffect
  mirrorOf := match o.place with
    | .outside key => some key
    | _ => none

/-- The live path counts the outcome. -/
def ToolOutcome.counts (o : ToolOutcome) : Bool := countsOutcome o.status o.sideEffect

section Source

variable {m : Type → Type} [Monad m] (store : LimitsStore m) (runId : JsString)

/-- Add to the counters; nothing is written for a delta of zeros. -/
def incrCounters (delta : LimitCounters) : m Unit :=
  if delta = emptyCounters then pure ()
  else
    match store.incrBy with
    | some incrBy => incrBy runId delta
    | none => do
      let current := (← store.getCounters runId).getD emptyCounters
      store.putCounters runId (current.add delta)

def CHAIN_CAS_ATTEMPTS : ℕ := 3

/-- Update the chain, in at most so many compare-and-swaps; then without one. -/
def writeChainLoop (mutate : LimitChain → LimitChain) : ℕ → m Unit
  | 0 => do
    let current ← store.getChain runId
    store.putChain runId (mutate (current.getD emptyChain))
  | attempts + 1 => do
    match ← store.getChain runId with
    | none =>
      match store.chainIfAbsent with
      | some putIfAbsent =>
        if ← putIfAbsent runId (mutate emptyChain) then return
        writeChainLoop mutate attempts
      | none => store.putChain runId (mutate emptyChain)
    | some current =>
      match store.chainIfMatch with
      | some putIfMatch =>
        if ← putIfMatch runId current (mutate current) then return
        writeChainLoop mutate attempts
      | none => store.putChain runId (mutate current)

def writeChainCas (mutate : LimitChain → LimitChain) : m Unit :=
  writeChainLoop store runId mutate CHAIN_CAS_ATTEMPTS

/-- Claim the chain's key for a seeded chain. -/
def claimChain (chain : LimitChain) : m Bool :=
  match store.chainIfAbsent with
  | some putIfAbsent => putIfAbsent runId chain
  | none => do
    if (← store.getChain runId).isSome then return false
    store.putChain runId chain
    return true

/-- Seed the state of a run whose chain is missing: whether this call has done it. -/
def ensureSeeded : m Bool := do
  if (← store.getChain runId).isSome then return false
  match store.readRun with
  | none => return false
  | some readRun =>
    let (counters, chain) := seedFromHistory (← readRun runId)
    if ← claimChain store runId chain then
      incrCounters store runId counters
      return true
    else return false

/-- Add an outcome to the state: one tool call, and a link of the chain. -/
def addOutcome (toolCallId toolName hash : JsString) (status : ToolStatus) (sideEffect : Bool) :
    m Unit := do
  if countsOutcome status sideEffect then
    incrCounters store runId { emptyCounters with succeededToolCalls := 1 }
  writeChainCas store runId fun chain =>
    applyToolOutcomeToChain chain toolCallId (some toolName) (some hash) status

/-- Update the state when an outcome has been written. -/
def recordToolOutcome (toolCallId toolName hash : JsString) (status : ToolStatus)
    (sideEffect : Bool) : m Unit := do
  if (← store.getChain runId).isSome then
    addOutcome store runId toolCallId toolName hash status sideEffect
  else if store.readRun.isNone then return
  else if ← ensureSeeded store runId then
    -- The scan has seen this call's own record.
    return
  else addOutcome store runId toolCallId toolName hash status sideEffect

/-- Write the record of an outcome, and update the limit state. -/
def writeToolTerminal (o : ToolOutcome) : m Unit := do
  store.putTool runId o.recordId o.record
  recordToolOutcome store runId o.toolCallId o.toolName o.hash o.status o.sideEffect

/-- The usage of the model steps from a number on, over at most `fuel` of them. -/
def computeModelStepsDelta : ℕ → ℕ → LimitCounters → m LimitCounters
  | 0, _, delta => return delta
  | fuel + 1, seen, delta => do
    match ← store.getModel runId seen with
    | none => return delta
    | some usage => computeModelStepsDelta fuel (seen + 1) (applyModelStepDelta delta usage)

/-- Count the model steps that have not been counted yet. -/
def countModelSteps (fuel : ℕ) : m Unit := do
  let _ ← ensureSeeded store runId
  let counters := (← store.getCounters runId).getD emptyCounters
  let delta ← computeModelStepsDelta store runId fuel counters.modelStepsSeen emptyCounters
  incrCounters store runId delta

end Source

/-! ## The machine -/

/-- The operations of the journal. -/
inductive LimOp where
  | getChain (runId : JsString)
  | putChain (runId : JsString) (chain : LimitChain)
  | chainIfAbsent (runId : JsString) (chain : LimitChain)
  | chainIfMatch (runId : JsString) (expected chain : LimitChain)
  | getCounters (runId : JsString)
  | putCounters (runId : JsString) (counters : LimitCounters)
  | incrBy (runId : JsString) (delta : LimitCounters)
  | readRun (runId : JsString)
  | getModel (runId : JsString) (step : ℕ)
  | putTool (runId id : JsString) (record : OutcomeRecord)

/-- Their answers. -/
abbrev LimOp.Res : LimOp → Type
  | getChain _ => Option LimitChain
  | putChain .. => Unit
  | chainIfAbsent .. => Bool
  | chainIfMatch .. => Bool
  | getCounters _ => Option LimitCounters
  | putCounters .. => Unit
  | incrBy .. => Unit
  | readRun _ => List JournalEntry
  | getModel .. => Option (Option Usage)
  | putTool .. => Unit

/-- The programs of the limits. -/
abbrev LimM := Prog LimOp LimOp.Res

/-- An operation, as a program. -/
def performLim (o : LimOp) : LimM o.Res := Prog.perform o

/-- The store, with every conditional write. -/
def limStore : LimitsStore LimM where
  getChain r := performLim (.getChain r)
  putChain r c := performLim (.putChain r c)
  chainIfAbsent := some fun r c => performLim (.chainIfAbsent r c)
  chainIfMatch := some fun r e c => performLim (.chainIfMatch r e c)
  getCounters r := performLim (.getCounters r)
  putCounters r c := performLim (.putCounters r c)
  incrBy := some fun r d => performLim (.incrBy r d)
  readRun := some fun r => performLim (.readRun r)
  getModel r n := performLim (.getModel r n)
  putTool r id v := performLim (.putTool r id v)

/-- A record that was written: by whom, whether it counts, and whether it replaced
    one that does. -/
structure Written where
  tid : ℕ
  counts : Bool
  replaced : Bool
  deriving DecidableEq

/-- The journal of a run, and what has happened to it. -/
structure LimRun where
  entries : List JournalEntry
  chain : Option LimitChain
  counters : Option LimitCounters
  /-- The records written, the latest first. -/
  written : List Written
  /-- What was written when a program last read the run. -/
  scans : ℕ → List Written
  /-- Who has seeded the state, and what was written when it read the run. -/
  seeding : Option (ℕ × List Written)
  /-- The tool calls a program has added to the counters. -/
  added : ℕ → ℕ

namespace LimRun

variable (s : LimRun) (i : ℕ)

def setChain (chain : LimitChain) : LimRun := { s with chain := some chain }

/-- The chain of a run that had none, claimed by the program `i`. -/
def seed (chain : LimitChain) : LimRun :=
  { s with chain := some chain, seeding := some (i, s.scans i) }

def incr (delta : LimitCounters) : LimRun :=
  { s with
    counters := some ((s.counters.getD emptyCounters).add delta)
    added := Function.update s.added i (s.added i + delta.succeededToolCalls) }

def scan : LimRun := { s with scans := Function.update s.scans i s.written }

def record (id : JsString) (r : OutcomeRecord) : LimRun :=
  { s with
    entries := putTool id r s.entries
    written := ⟨i, r.counts, (toolAt id s.entries).any (·.counts)⟩ :: s.written }

end LimRun

/-- An operation of the program `i` on the journal of its run. -/
def LimOp.execRun (i : ℕ) : (o : LimOp) → LimRun → o.Res × LimRun
  | .getChain _, s => (s.chain, s)
  | .putChain _ c, s => ((), s.setChain c)
  | .chainIfAbsent _ c, s => if s.chain = none then (true, s.seed i c) else (false, s)
  | .chainIfMatch _ e c, s => if s.chain = some e then (true, s.setChain c) else (false, s)
  | .getCounters _, s => (s.counters, s)
  | .putCounters _ c, s => ((), { s with counters := some c })
  | .incrBy _ d, s => ((), s.incr i d)
  | .readRun _, s => (s.entries, s.scan i)
  | .getModel _ n, s => (modelAt n s.entries, s)
  | .putTool _ id r, s => ((), s.record i id r)

/-- The run an operation is about. -/
def LimOp.runId : LimOp → JsString
  | .getChain r | .putChain r _ | .chainIfAbsent r _ | .chainIfMatch r _ _ | .getCounters r
  | .putCounters r _ | .incrBy r _ | .readRun r | .getModel r _ | .putTool r _ _ => r

/-- The journal with atomic operations. -/
def limMachine : Machine LimOp LimOp.Res (JsString → LimRun) Unit Empty where
  exec i _ o w :=
    let (r, s) := o.execRun i (w o.runId)
    (r, Function.update w o.runId s)
  env e := e.elim

end Gnldev.Durable
