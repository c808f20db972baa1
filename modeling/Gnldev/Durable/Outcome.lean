import Gnldev.Durable.Limits.State

/-!
# How a run ended

Each attempt at a run records that it started, and each ending what it was
(`outcome.ts`). A record is replaced only by one that is not older, and a start never
replaces a later ending, nor a cancellation. What `listRuns` says about a run
(`journal.ts`) is derived from the record and from the tool calls that wait for a
human.
-/

namespace Gnldev.Durable

/-- What an outcome record says. -/
inductive OutcomeStatus where
  | running | completed | failed | canceled
  deriving DecidableEq

structure RunOutcomeRecord where
  status : OutcomeStatus
  /-- When it was decided. -/
  decidedAt : ℕ
  /-- The message of a failure. -/
  error : Option JsString
  deriving DecidableEq

/-- The record that stands after `next` has been reported, with no one else writing. -/
def recordRunOutcome (cur : Option RunOutcomeRecord) (next : RunOutcomeRecord)
    (fillOnly notAfterTerminal : Bool) : RunOutcomeRecord :=
  match cur with
  | none => next
  | some cur =>
    if fillOnly then cur
    -- a run that has ended did not end by being canceled
    else if notAfterTerminal ∧ cur.status ≠ .running then cur
    else if next.decidedAt < cur.decidedAt then cur
    else if cur.status = .canceled ∧ next.status = .running then cur
    -- at the same time, an ending is newer than a start
    else if cur.decidedAt = next.decidedAt ∧ next.status = .running ∧ cur.status ≠ .running then cur
    else next

def runStarted (cur : Option RunOutcomeRecord) (now : ℕ) : RunOutcomeRecord :=
  recordRunOutcome cur ⟨.running, now, none⟩ false false

def runSucceeded (cur : Option RunOutcomeRecord) (now : ℕ) : RunOutcomeRecord :=
  recordRunOutcome cur ⟨.completed, now, none⟩ false false

def runFailed (cur : Option RunOutcomeRecord) (error : JsString) (now : ℕ) : RunOutcomeRecord :=
  recordRunOutcome cur ⟨.failed, now, some error⟩ false false

/-- The failure of an attempt that lost its run to another one. -/
def runFailedIfUnrecorded (cur : Option RunOutcomeRecord) (error : JsString) (now : ℕ) :
    RunOutcomeRecord :=
  recordRunOutcome cur ⟨.failed, now, some error⟩ true false

def runCanceled (cur : Option RunOutcomeRecord) (now : ℕ) : RunOutcomeRecord :=
  recordRunOutcome cur ⟨.canceled, now, none⟩ false true

/-! ## The status of a run -/

inductive RunStatus where
  | completed | suspended | failed | running | canceled
  deriving DecidableEq

/-- The status of a run, from its outcome and whether a tool call is suspended. -/
def deriveRunStatus (suspended : Bool) (outcome : Option OutcomeStatus) : RunStatus :=
  if outcome = some .canceled then .canceled
  else if suspended then .suspended
  else if outcome = some .failed then .failed
  else if outcome = some .running then .running
  else .completed

structure RunSummary where
  runId : JsString
  status : RunStatus
  modelSteps : ℕ
  toolCalls : ℕ
  deriving DecidableEq

/-- The entry is a tool call that waits for a human. -/
def JournalEntry.suspended : JournalEntry → Bool
  | .tool _ record => record.status = .suspended
  | .model .. => false

def JournalEntry.isModel : JournalEntry → Bool
  | .model .. => true
  | .tool .. => false

def summarizeRun (runId : JsString) (entries : List JournalEntry)
    (outcome : Option OutcomeStatus) : RunSummary where
  runId
  status := deriveRunStatus (entries.any (·.suspended)) outcome
  modelSteps := entries.countP (·.isModel)
  toolCalls := entries.countP (!·.isModel)

end Gnldev.Durable
