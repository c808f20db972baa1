import Gnldev.Durable.MemoryJournal

/-!
# The index of the runs

The journal in SQLite (`sqlite-storage.ts`, `SqliteRunJournal`) does not look for runs in its keys.
Next to the table of its keys it has one with a row for each run, `gnl_runs`: how many model steps
and tool calls the run has, whether one of them waits for a human, and what its outcome says. Each
write brings the row of its run up to date, by what has changed (`touchRunDelta`); a conditional
write of a record counts again (`recountRun`).

* `SqliteJournal`, and its writes, one by one. Each is one transaction;
* `IndexOp`, `SqliteJournal.apply`: the writes as data;
* `SqliteJournal.listRuns`, `SqliteJournal.countRunsByStatus`: what is read of the index.

When rows were written is left out: it is for the order in which runs are listed.
-/

namespace Gnldev.Durable

variable {P : Type}

/-! ## Tables -/

/-- A row of `gnl_run_journal`. -/
structure JournalRow (P : Type) where
  runId : Option JsString
  kind : Option EntryKind
  suspended : Bool
  value : JournalValue P

/-- A row of `gnl_runs`. -/
structure RunRow where
  modelSteps : ℕ
  toolCalls : ℕ
  suspended : Bool
  suspendedCount : ℤ
  failed : Bool
  running : Bool
  canceled : Bool
  deriving DecidableEq

structure SqliteJournal (P : Type) where
  journal : OrderedMap JsString (JournalRow P)
  runs : OrderedMap JsString RunRow
  counters : OrderedMap JsString Counters

/-- The values under the keys. -/
def SqliteJournal.contents (s : SqliteJournal P) : JournalStore P := s.journal.mapValues (·.value)

/-- A tool call that waits for a human, by its key. -/
def suspendedOf (key : JsString) (value : JournalValue P) : Bool :=
  (parseJournalKey key).any (·.2 = .tool) && value.suspended

/-- The row of a key. -/
def rowFor (key : JsString) (value : JournalValue P) : JournalRow P where
  runId := (parseJournalKey key).map Prod.fst
  kind := (parseJournalKey key).map Prod.snd
  suspended := suspendedOf key value
  value

/-! ## The index -/

abbrev RunIndex := OrderedMap JsString RunRow

/-- The row of a run after a write, by what has changed. A run that is new gets a row. -/
def touchRunDelta (runs : RunIndex) (runId : JsString) (kind : Option EntryKind) (isInsert : Bool)
    (suspendedDelta : ℤ) : RunIndex :=
  let m := if isInsert ∧ kind = some .model then 1 else 0
  let t := if isInsert ∧ kind = some .tool then 1 else 0
  runs.put runId <|
    match runs.get runId with
    | none => ⟨m, t, 0 < suspendedDelta, max 0 suspendedDelta, false, false, false⟩
    | some r =>
      { r with
        modelSteps := r.modelSteps + m
        toolCalls := r.toolCalls + t
        suspendedCount := r.suspendedCount + suspendedDelta
        suspended := 0 < r.suspendedCount + suspendedDelta }

/-- All flags from one status. -/
def RunRow.withOutcome (r : RunRow) (status : Option OutcomeStatus) : RunRow :=
  { r with
    failed := status = some .failed
    running := status = some .running
    canceled := status = some .canceled }

/-- Only a row that is there is updated. -/
def setOutcome (runs : RunIndex) (runId : JsString) (status : OutcomeStatus) : RunIndex :=
  match runs.get runId with
  | none => runs
  | some r => runs.put runId (r.withOutcome (some status))

/-- The run whose input is written. -/
def touchOwner (runs : RunIndex) (key : JsString) (value : JournalValue P) : RunIndex :=
  match runIdOfKey key value with
  | some owner => if owner = [] then runs else touchRunDelta runs owner none false 0
  | none => runs

/-- The run whose outcome is written. -/
def touchOutcome (runs : RunIndex) (key : JsString) (value : JournalValue P) : RunIndex :=
  match outcomeOfKey key value with
  | some (runId, status) => setOutcome (touchRunDelta runs runId none false 0) runId status
  | none => runs

/-- How many rows of a run are of a kind. -/
def countKind (journal : OrderedMap JsString (JournalRow P)) (runId : JsString) (kind : EntryKind) :
    ℕ :=
  journal.entries.countP fun (_, r) => r.runId = some runId && r.kind = some kind

def countSuspended (journal : OrderedMap JsString (JournalRow P)) (runId : JsString) : ℕ :=
  journal.entries.countP fun (_, r) => r.runId = some runId && r.suspended

/-- The row of a run, counted again. What its outcome says stays. -/
def recountRun (journal : OrderedMap JsString (JournalRow P)) (runs : RunIndex) (runId : JsString) :
    RunIndex :=
  let s : ℤ := countSuspended journal runId
  runs.put runId
    { (runs.get runId).getD ⟨0, 0, false, 0, false, false, false⟩ with
      modelSteps := countKind journal runId .model
      toolCalls := countKind journal runId .tool
      suspended := 0 < s
      suspendedCount := s }

/-! ## Writes -/

namespace SqliteJournal

def empty : SqliteJournal P := ⟨.empty, .empty, .empty⟩

variable (s : SqliteJournal P)

/-- The key with a value: a new row, or the row there is with another value. -/
def upsert (key : JsString) (value : JournalValue P) : OrderedMap JsString (JournalRow P) :=
  s.journal.put key <|
    match s.journal.get key with
    | none => rowFor key value
    | some r => { r with value, suspended := suspendedOf key value }

/-- What is added to the count of the run's tool calls that wait. -/
def suspendedDelta (key : JsString) (value : JournalValue P) : ℤ :=
  (if suspendedOf key value then 1 else 0) -
    (if (s.journal.get key).any (·.suspended) then 1 else 0)

def putCore (key : JsString) (value : JournalValue P) : SqliteJournal P :=
  { s with
    journal := s.upsert key value
    runs := match parseJournalKey key with
      | none => touchOutcome (touchOwner s.runs key value) key value
      | some (runId, kind) => touchRunDelta s.runs runId (some kind) (s.journal.get key).isNone
          (s.suspendedDelta key value) }

def putIfAbsentCore (key : JsString) (value : JournalValue P) : Bool × SqliteJournal P :=
  match s.journal.get key with
  | some _ => (false, s)
  | none => (true,
      { s with
        journal := s.journal.put key (rowFor key value)
        runs := match parseJournalKey key with
          | none => touchOutcome (touchOwner s.runs key value) key value
          | some (runId, kind) => touchRunDelta s.runs runId (some kind) true
              (if suspendedOf key value then 1 else 0) })

/-- The input of a run is not looked for: the keys that are meant are those of locks. -/
def putIfMatch [DecidableEq P] (key : JsString) (expected value : JournalValue P) :
    Bool × SqliteJournal P :=
  if (s.journal.get key).map (·.value) = some expected then
    let journal := s.upsert key value
    (true,
      { s with
        journal
        runs := match parseJournalKey key with
          | none => touchOutcome s.runs key value
          | some (runId, _) => recountRun journal s.runs runId })
  else (false, s)

def incrByCore (key : JsString) (fields : List (JsString × ℤ)) : SqliteJournal P :=
  let cur := (s.counters.get key).getD .empty
  { s with counters := s.counters.put key (MemoryJournal.addFields cur fields) }

/-- The writes of a batch, without its claim. -/
def applyWrites (batch : JournalBatch P) : SqliteJournal P :=
  batch.puts.foldl (fun s (k, v) => s.putCore k v)
    (batch.incrs.foldl (fun s (k, fields) => s.incrByCore k fields) s)

def applyBatch (batch : JournalBatch P) : Bool × SqliteJournal P :=
  match batch.claim with
  | none => (true, s.applyWrites batch)
  | some (key, value) =>
    match s.putIfAbsentCore key value with
    | (false, s) => (false, s)
    | (true, s) => (true, s.applyWrites batch)

/-- The keys with a prefix; and of the index the runs with it, and the one that has the prefix
    without its colon for an id. -/
def deletePrefix (start : JsString) : ℕ × SqliteJournal P :=
  let rid := if start.getLast? = some sep then start.dropLast else start
  (s.journal.entries.countP (·.1.startsWith start),
    { journal := s.journal.filterKeys (!·.startsWith start)
      runs := s.runs.filterKeys fun runId => !(runId = rid || runId.startsWith start)
      counters := s.counters.filterKeys (!·.startsWith start) })

end SqliteJournal

/-! ## Writes as data -/

inductive IndexOp (P : Type) where
  | put (key : JsString) (value : JournalValue P)
  | putIfAbsent (key : JsString) (value : JournalValue P)
  | putIfMatch (key : JsString) (expected value : JournalValue P)
  | applyBatch (batch : JournalBatch P)
  /-- All keys of a run. -/
  | deleteRun (id : JsString)

def SqliteJournal.apply [DecidableEq P] (s : SqliteJournal P) : IndexOp P → SqliteJournal P
  | .put key value => s.putCore key value
  | .putIfAbsent key value => (s.putIfAbsentCore key value).2
  | .putIfMatch key expected value => (s.putIfMatch key expected value).2
  | .applyBatch batch => (s.applyBatch batch).2
  | .deleteRun id => (s.deletePrefix (id ++ [sep])).2

/-! ## Reading the index -/

def outcomeOfRow (r : RunRow) : Option OutcomeStatus :=
  if r.canceled then some .canceled
  else if r.failed then some .failed
  else if r.running then some .running
  else none

/-- The rows that have a status, as a condition on the columns. -/
def RunRow.statusWhere (r : RunRow) : RunStatus → Bool
  | .canceled => r.canceled
  | .suspended => !r.canceled && r.suspended
  | .failed => !r.canceled && !r.suspended && r.failed
  | .running => !r.canceled && !r.suspended && !r.failed && r.running
  | .completed => !r.canceled && !r.suspended && !r.failed && !r.running

/-- The status by which rows are counted. -/
def RunRow.statusCase (r : RunRow) : RunStatus :=
  if r.canceled then .canceled
  else if r.suspended then .suspended
  else if r.failed then .failed
  else if r.running then .running
  else .completed

namespace SqliteJournal

variable (s : SqliteJournal P)

/-- A run of the index, with what its input says. -/
def toSummary (runId : JsString) (r : RunRow) : ListedRun :=
  let input := (s.journal.get (runId ++ js ":input")).map (·.value)
  { runId
    status := deriveRunStatus r.suspended (outcomeOfRow r)
    modelSteps := r.modelSteps
    toolCalls := r.toolCalls
    threadId := truthy (input.bind (·.threadId))
    agent := truthy (input.bind (·.agent))
    resourceId := truthy (input.bind (·.resourceId))
    workKey := truthy (input.bind (·.workKey)) }

/-- The runs that are asked for: the status is looked for in the index, the rest in the inputs. -/
def listRuns (q : RunFilter) : List ListedRun :=
  ((s.runs.entries.filter fun e => q.status.all e.2.statusWhere).map fun e =>
    s.toSummary e.1 e.2).filter fun r => (truthy q.agent).all (r.agent = some ·) &&
      (truthy q.resourceId).all (r.resourceId = some ·) && (truthy q.workKey).all (r.workKey = some ·)

def countRunsByStatus (status : RunStatus) : ℕ :=
  s.runs.entries.countP (·.2.statusCase = status)

end SqliteJournal

end Gnldev.Durable
