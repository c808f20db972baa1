import Gnldev.Lib.JsString
import Mathlib.Data.Rat.Defs

/-!
# The limit state of a run

What the per-run limits keep (`limits.ts`): additive counters, and the *chain*, the
resettable rest: which tool has been called with which arguments how often in a
row, and the ids of the tool calls whose sub-agents' spend is inherited.

Both are maintained outcome by outcome (`applyToolOutcomeToChain`), and rebuilt by
one scan of the run's journal when they are missing (`seedFromHistory`). The journal
of a run is an insertion-ordered map: a record that is overwritten keeps the
position of its first write (`putTool`).

Costs are exact numbers here.
-/

namespace Gnldev.Durable

/-- The statuses of a tool record. -/
inductive ToolStatus where
  | running | succeeded | failed | denied | suspended | reflected
  deriving DecidableEq

/-- The purely additive counters. -/
structure LimitCounters where
  /-- The next model step to be read. -/
  modelStepsSeen : ℕ
  totalTokens : ℕ
  costUsd : ℚ
  /-- The run's own successful calls, and its failed ones with a side effect. -/
  succeededToolCalls : ℕ
  deriving DecidableEq

def emptyCounters : LimitCounters := ⟨0, 0, 0, 0⟩

/-- The counters with a delta. -/
def LimitCounters.add (c d : LimitCounters) : LimitCounters where
  modelStepsSeen := c.modelStepsSeen + d.modelStepsSeen
  totalTokens := c.totalTokens + d.totalTokens
  costUsd := c.costUsd + d.costUsd
  succeededToolCalls := c.succeededToolCalls + d.succeededToolCalls

/-- The loop chain, and the candidates for sub-agent runs. -/
structure LimitChain where
  lastToolName : Option JsString
  lastArgsHash : Option JsString
  consecutiveRepeats : ℕ
  /-- The model has been asked to reconsider this chain. -/
  reflected : Bool
  subRunIds : List JsString
  deriving DecidableEq

def emptyChain : LimitChain := ⟨none, none, 0, false, []⟩

/-! ## The journal of a run -/

/-- What a model step used, and what it cost. -/
structure Usage where
  totalTokens : ℕ
  costUsd : ℚ
  deriving DecidableEq

/-- What the limits read of a tool record. -/
structure OutcomeRecord where
  status : ToolStatus
  toolName : Option JsString
  argsHash : Option JsString
  /-- The tool of a failed record has side effects. -/
  sideEffect : Bool
  /-- The key the record is a copy of, if it is one. -/
  mirrorOf : Option JsString
  deriving DecidableEq

/-- An entry of a run's journal: a model step with its usage, or a tool record, under
    what follows `tool:` in its key. -/
inductive JournalEntry where
  | model (step : ℕ) (usage : Option Usage)
  | tool (id : JsString) (record : OutcomeRecord)
  deriving DecidableEq

/-- Write a tool record: a new one goes to the end, an overwritten one stays in its place. -/
def putTool (id : JsString) (record : OutcomeRecord) : List JournalEntry → List JournalEntry
  | [] => [.tool id record]
  | .tool id' record' :: entries =>
    if id' = id then .tool id record :: entries
    else .tool id' record' :: putTool id record entries
  | .model step usage :: entries => .model step usage :: putTool id record entries

/-- The tool record under an id. -/
def toolAt (id : JsString) : List JournalEntry → Option OutcomeRecord
  | [] => none
  | .tool id' record :: entries => if id' = id then some record else toolAt id entries
  | .model .. :: entries => toolAt id entries

/-- Write a model step. -/
def putModel (step : ℕ) (usage : Option Usage) : List JournalEntry → List JournalEntry
  | [] => [.model step usage]
  | .model step' usage' :: entries =>
    if step' = step then .model step usage :: entries
    else .model step' usage' :: putModel step usage entries
  | .tool id record :: entries => .tool id record :: putModel step usage entries

/-- The model step with a number. -/
def modelAt (step : ℕ) : List JournalEntry → Option (Option Usage)
  | [] => none
  | .model step' usage :: entries => if step' = step then some usage else modelAt step entries
  | .tool .. :: entries => modelAt step entries

/-! ## Outcomes -/

/-- The outcome counts as a tool call: it succeeded, or failed with a side effect. -/
def countsOutcome (status : ToolStatus) (sideEffect : Bool) : Bool :=
  status = .succeeded || (status = .failed && sideEffect)

/-- The record counts as a tool call of its run: a copy does not. -/
def OutcomeRecord.counts (r : OutcomeRecord) : Bool :=
  r.mirrorOf.isNone && countsOutcome r.status r.sideEffect

/-- Add a tool call's outcome to the chain. -/
def applyToolOutcomeToChain (chain : LimitChain) (toolCallId : JsString)
    (toolName argsHash : Option JsString) (status : ToolStatus) : LimitChain :=
  let subRunIds := if toolCallId ∈ chain.subRunIds then chain.subRunIds
    else chain.subRunIds ++ [toolCallId]
  match status with
  | .succeeded =>
    if chain.lastToolName = toolName ∧ chain.lastArgsHash = argsHash then
      { chain with subRunIds, consecutiveRepeats := chain.consecutiveRepeats + 1 }
    else ⟨toolName, argsHash, 1, false, subRunIds⟩
  | .reflected =>
    -- A nudge is about the chain it matches, and does not break it; it leaves any other alone.
    if chain.lastToolName = toolName ∧ chain.lastArgsHash = argsHash then
      { chain with subRunIds, reflected := true }
    else { chain with subRunIds }
  | _ => ⟨none, none, 0, false, subRunIds⟩

/-- Add a model step to the counters. -/
def applyModelStepDelta (delta : LimitCounters) (usage : Option Usage) : LimitCounters :=
  match usage with
  | some u => { delta with
      totalTokens := delta.totalTokens + u.totalTokens
      costUsd := delta.costUsd + u.costUsd
      modelStepsSeen := delta.modelStepsSeen + 1 }
  | none => { delta with modelStepsSeen := delta.modelStepsSeen + 1 }

/-- The scan of one entry. -/
def seedEntry (s : LimitCounters × LimitChain) : JournalEntry → LimitCounters × LimitChain
  | .model _ usage => (applyModelStepDelta s.1 usage, s.2)
  | .tool id v =>
    -- A copy of a record that is not run-scoped is skipped.
    if v.mirrorOf.isSome then s
    else
      (if countsOutcome v.status v.sideEffect then
        { s.1 with succeededToolCalls := s.1.succeededToolCalls + 1 } else s.1,
        applyToolOutcomeToChain s.2 id v.toolName v.argsHash v.status)

/-- The limit state rebuilt by one scan of the run's journal. -/
def seedFromHistory (entries : List JournalEntry) : LimitCounters × LimitChain :=
  entries.foldl seedEntry (emptyCounters, emptyChain)

/-! ## The gate -/

/-- The limits a tool call is checked against. -/
structure ToolLimits where
  /-- The loop detection, if it is on: so many identical calls in a row. -/
  maxRepeats : Option ℕ
  /-- A repeat is answered by a nudge first. -/
  reflectOnRepeat : Bool
  maxToolCalls : Option ℕ
  deriving DecidableEq

/-- Why a tool call is not executed. -/
inductive ToolGateBreach where
  | loop (repeats : ℕ) (ignoredNudge : Bool)
  | maxToolCalls (value : ℕ)
  /-- Not a stop: the model is asked to reconsider. -/
  | reflect (repeats : ℕ)
  deriving DecidableEq

/-- How often the tool has been called with the arguments, right before. -/
def priorRepeats (chain : LimitChain) (toolName hash : JsString) : ℕ :=
  if chain.lastToolName = some toolName ∧ chain.lastArgsHash = some hash then
    chain.consecutiveRepeats else 0

/-- The loop detection's part of the gate. -/
def loopBreach (limits : ToolLimits) (toolName hash : JsString) (chain : LimitChain) :
    Option ToolGateBreach :=
  limits.maxRepeats.bind fun maxRepeats =>
    if 0 < maxRepeats ∧ maxRepeats ≤ priorRepeats chain toolName hash then
      if limits.reflectOnRepeat && !chain.reflected then
        some (.reflect (priorRepeats chain toolName hash))
      else some (.loop (priorRepeats chain toolName hash) chain.reflected)
    else none

/-- The decision about a tool call, from the state of the run and the calls of its
    sub-agents. -/
def gateDecision (limits : ToolLimits) (toolName hash : JsString) (chain : LimitChain)
    (toolCalls subCalls : ℕ) : Option ToolGateBreach :=
  loopBreach limits toolName hash chain <|>
    limits.maxToolCalls.bind fun maxToolCalls =>
      if maxToolCalls ≤ toolCalls + subCalls then some (.maxToolCalls (toolCalls + subCalls))
      else none

/-! ## The number of calls -/

/-- The tool calls the records of a run amount to. -/
def counted : List JournalEntry → ℕ
  | [] => 0
  | .tool _ r :: entries => (if r.counts then 1 else 0) + counted entries
  | .model .. :: entries => counted entries

/-- A write adds the outcome to the number, and takes the one it replaces away. -/
theorem counted_putTool (id : JsString) (r : OutcomeRecord) (entries : List JournalEntry) :
    counted (putTool id r entries) + (if (toolAt id entries).any (·.counts) then 1 else 0) =
      counted entries + if r.counts then 1 else 0 := by
  induction entries with
  | nil => simp [putTool, toolAt, counted]
  | cons e entries ih =>
    cases e with
    | model step usage => exact ih
    | tool id' r' =>
      by_cases h : id' = id
      · simp only [putTool, toolAt, counted, if_pos h, Option.any_some]
        omega
      · simp only [putTool, toolAt, counted, if_neg h]
        omega

theorem seedEntry_succeededToolCalls (s : LimitCounters × LimitChain) (e : JournalEntry) :
    (seedEntry s e).1.succeededToolCalls = s.1.succeededToolCalls + counted [e] := by
  cases e with
  | model step usage =>
    cases usage with
    | none => rfl
    | some u => rfl
  | tool id v =>
    by_cases hm : v.mirrorOf.isSome
    · have hn : v.mirrorOf ≠ none := Option.isSome_iff_ne_none.1 hm
      simp [seedEntry, counted, OutcomeRecord.counts, hm, hn]
    · have hn : v.mirrorOf = none := Option.not_isSome_iff_eq_none.1 hm
      by_cases hc : countsOutcome v.status v.sideEffect = true
      · simp [seedEntry, counted, OutcomeRecord.counts, hn, hc]
      · simp [seedEntry, counted, OutcomeRecord.counts, hn, hc]

/-- The scan counts every record once. -/
theorem seedFromHistory_succeededToolCalls (entries : List JournalEntry) :
    (seedFromHistory entries).1.succeededToolCalls = counted entries := by
  have hfold : ∀ (s : LimitCounters × LimitChain),
      (entries.foldl seedEntry s).1.succeededToolCalls =
        s.1.succeededToolCalls + counted entries := by
    induction entries with
    | nil => exact fun s => rfl
    | cons e entries ih =>
      intro s
      rw [List.foldl_cons, ih, seedEntry_succeededToolCalls]
      cases e with
      | model step usage => simp [counted]
      | tool id v => simp [counted, Nat.add_assoc]
  rw [seedFromHistory, hfold]
  exact Nat.zero_add _

end Gnldev.Durable
