import Gnldev.Durable.Outcome
import Gnldev.Durable.RunKeys
import Gnldev.Lib.OrderedMap
import Gnldev.Lib.Paging
import Mathlib.Data.PNat.Basic

/-!
# The journal in memory

The reference journal (`journal.ts`, `InMemoryJournal`): values under keys, in the order the
keys came, when each key was first written, and counters. Runs are not kept: they are found in
the keys. A *record* of a run has a separator in its key (`parseJournalKey`); its input and its
outcome have none, and are known by the end of the key and by the value (`runIdOfKey`,
`outcomeStatusOf`).

* `MemoryJournal`, and its operations, one by one;
* `JournalOp`, `MemoryJournal.perform`: the operations as data, with what they answer.
-/

namespace Gnldev.Durable

variable {P : Type}

/-! ## Values and keys -/

/-- A value: what is read of it, and the rest. -/
structure JournalValue (P : Type) where
  /-- It has the mark of a record of the journal. -/
  versioned : Bool
  status : Option JsString
  threadId : Option JsString
  agent : Option JsString
  resourceId : Option JsString
  workKey : Option JsString
  rest : P
  deriving DecidableEq

/-- `s.endsWith(e)`. -/
def JsString.endsWith (s e : JsString) : Bool := e.isSuffixOf s

/-- What is before an end. -/
def beforeEnd (e s : JsString) : Option JsString :=
  if JsString.endsWith s e then some (s.take (s.length - e.length)) else none

theorem beforeEnd_eq_some_iff {e k r : JsString} : beforeEnd e k = some r ↔ k = r ++ e := by
  rw [beforeEnd, JsString.endsWith]
  split
  · next h =>
    obtain ⟨s, rfl⟩ := List.isSuffixOf_iff_suffix.1 h
    rw [List.length_append, Nat.add_sub_cancel, List.take_left, Option.some.injEq,
      List.append_cancel_right_eq]
  · next h =>
    refine ⟨fun h => by contradiction, fun he => absurd ?_ h⟩
    exact List.isSuffixOf_iff_suffix.2 ⟨r, he.symm⟩

/-- The run a key belongs to: a record, or the input of a run. -/
def runIdOfKey (key : JsString) (value : JournalValue P) : Option JsString :=
  match parseJournalKey key with
  | some (runId, _) => some runId
  | none =>
    if key.any isLineTerminator ∨ ¬value.versioned then none else beforeEnd (js ":input") key

/-- A status that an outcome can have. -/
def OutcomeStatus.ofStatus (status : JsString) : Option OutcomeStatus :=
  if status = js "failed" then some .failed
  else if status = js "completed" then some .completed
  else if status = js "running" then some .running
  else if status = js "canceled" then some .canceled
  else none

def JournalValue.outcomeStatus (value : JournalValue P) : Option OutcomeStatus :=
  value.status.bind OutcomeStatus.ofStatus

/-- The run whose outcome a key has, with the status. -/
def outcomeOfKey (key : JsString) (value : JournalValue P) : Option (JsString × OutcomeStatus) :=
  match beforeEnd (js ":outcome") key, value.outcomeStatus with
  | some runId, some status => some (runId, status)
  | _, _ => none

def JournalValue.suspended (value : JournalValue P) : Bool := value.status = some (js "suspended")

/-! ## Runs -/

/-- A record of a run, as it is listed. -/
abbrev ListedEntry (P : Type) := EntryKind × JournalValue P

/-- The record is a tool call that waits for a human. -/
def ListedEntry.suspended (e : ListedEntry P) : Bool := e.1 = .tool && e.2.suspended

/-- A run, as it is listed. -/
structure ListedRun extends RunSummary where
  threadId : Option JsString
  agent : Option JsString
  resourceId : Option JsString
  workKey : Option JsString
  deriving DecidableEq

abbrev JournalStore (P : Type) := OrderedMap JsString (JournalValue P)

/-- The records of each run. -/
abbrev RunsOf (P : Type) := OrderedMap JsString (List (ListedEntry P))

/-- The run is there, with no records if it is new. -/
def RunsOf.register (byRun : RunsOf P) (runId : JsString) : RunsOf P :=
  match byRun.get runId with
  | some _ => byRun
  | none => byRun.put runId []

/-- The run whose input a key may be. -/
def RunsOf.registerOwner (byRun : RunsOf P) (key : JsString) (value : JournalValue P) : RunsOf P :=
  match runIdOfKey key value with
  | some owner => if owner = [] then byRun else byRun.register owner
  | none => byRun

/-- The run whose outcome a key may be. -/
def RunsOf.registerOutcome (byRun : RunsOf P) (key : JsString) (value : JournalValue P) :
    RunsOf P :=
  match outcomeOfKey key value with
  | some (runId, _) => byRun.register runId
  | none => byRun

/-- What a key adds to the runs. -/
def RunsOf.add (byRun : RunsOf P) : JsString × JournalValue P → RunsOf P
  | (key, value) =>
    match parseJournalKey key with
    | some (runId, kind) => byRun.put runId ((byRun.get runId).getD [] ++ [(kind, value)])
    | none => (byRun.registerOwner key value).registerOutcome key value

def byRun (store : JournalStore P) : RunsOf P := store.entries.foldl RunsOf.add .empty

/-- An empty text is none. -/
def truthy (s : Option JsString) : Option JsString := s.filter (· ≠ [])

/-- A run with its records, and what its outcome and its input say. -/
def summaryOf (store : JournalStore P) (runId : JsString) (entries : List (ListedEntry P)) :
    ListedRun :=
  let input := store.get (runId ++ js ":input")
  { runId
    status := deriveRunStatus (entries.any ListedEntry.suspended)
      ((store.get (runId ++ js ":outcome")).bind JournalValue.outcomeStatus)
    modelSteps := entries.countP (·.1 = .model)
    toolCalls := entries.countP (·.1 = .tool)
    threadId := truthy (input.bind (·.threadId))
    agent := truthy (input.bind (·.agent))
    resourceId := truthy (input.bind (·.resourceId))
    workKey := truthy (input.bind (·.workKey)) }

def listRuns (store : JournalStore P) : List ListedRun :=
  (byRun store).entries.map fun (runId, entries) => summaryOf store runId entries

/-- Which runs are asked for. -/
structure RunFilter where
  status : Option RunStatus
  agent : Option JsString
  resourceId : Option JsString
  workKey : Option JsString

def RunFilter.keeps (q : RunFilter) (r : ListedRun) : Bool :=
  q.status.all (r.status = ·) && (truthy q.agent).all (r.agent = some ·) &&
    (truthy q.resourceId).all (r.resourceId = some ·) &&
    (truthy q.workKey).all (r.workKey = some ·)

/-- A page of the runs. -/
def listRunsPaged (store : JournalStore P) (q : RunFilter) (limit pos : ℕ) : ListPage ListedRun :=
  slicePage ((listRuns store).filter q.keeps) limit pos

/-! ## The journal -/

abbrev Counters := OrderedMap JsString ℤ

@[ext] structure MemoryJournal (P : Type) where
  store : JournalStore P
  /-- When a key was first written. -/
  times : JsString → Option ℕ
  counters : OrderedMap JsString Counters

/-- A batch of writes, with a claim. -/
structure JournalBatch (P : Type) where
  claim : Option (JsString × JournalValue P)
  incrs : List (JsString × List (JsString × ℤ))
  puts : List (JsString × JournalValue P)

/-- A record of a run, as it is read. -/
structure ReadEntry (P : Type) where
  key : JsString
  runId : JsString
  kind : EntryKind
  value : JournalValue P
  seq : ℕ
  ts : Option ℕ
  deriving DecidableEq

/-- The record of a run that a key has. -/
def recordOf (runId : JsString) :
    JsString × JournalValue P → Option (JsString × EntryKind × JournalValue P)
  | (key, value) =>
    match parseJournalKey key with
    | some (owner, kind) => if owner = runId then some (key, kind, value) else none
    | none => none

/-- The last activity of a run. -/
structure RunAge where
  ts : ℕ
  suspended : Bool

namespace MemoryJournal

def empty : MemoryJournal P := ⟨.empty, fun _ => none, .empty⟩

variable (w : MemoryJournal P)

def get (key : JsString) : Option (JournalValue P) := w.store.get key

def put (now : ℕ) (key : JsString) (value : JournalValue P) : MemoryJournal P :=
  { w with
    store := w.store.put key value
    times := match w.times key with
      | some _ => w.times
      | none => Function.update w.times key (some now) }

/-- The key is new. -/
def insert (now : ℕ) (key : JsString) (value : JournalValue P) : MemoryJournal P :=
  { w with
    store := w.store.put key value
    times := Function.update w.times key (some now) }

def putIfAbsent (now : ℕ) (key : JsString) (value : JournalValue P) : Bool × MemoryJournal P :=
  match w.store.get key with
  | some _ => (false, w)
  | none => (true, w.insert now key value)

/-- Values are compared by their texts, with sorted keys. -/
def putIfMatch [DecidableEq P] (key : JsString) (expected value : JournalValue P) :
    Bool × MemoryJournal P :=
  if w.store.get key = some expected then (true, { w with store := w.store.put key value })
  else (false, w)

def addFields (cur : Counters) (fields : List (JsString × ℤ)) : Counters :=
  fields.foldl (fun cur (f, d) => cur.put f ((cur.get f).getD 0 + d)) cur

def incrBy (key : JsString) (fields : List (JsString × ℤ)) : MemoryJournal P :=
  { w with counters := w.counters.put key (addFields ((w.counters.get key).getD .empty) fields) }

def getCounters (key : JsString) : Option Counters := w.counters.get key

/-- The writes of a batch, without its claim. -/
def applyWrites (now : ℕ) (batch : JournalBatch P) : MemoryJournal P :=
  batch.puts.foldl (fun w (k, v) => w.put now k v)
    (batch.incrs.foldl (fun w (k, fields) => w.incrBy k fields) w)

theorem applyWrites_eq (now : ℕ) (batch : JournalBatch P) :
    w.applyWrites now batch = batch.puts.foldl (fun w e => w.put now e.1 e.2)
      (batch.incrs.foldl (fun w e => w.incrBy e.1 e.2) w) := rfl

/-- All of a batch, or nothing of it if its claim is lost. -/
def applyBatch (now : ℕ) (batch : JournalBatch P) : Bool × MemoryJournal P :=
  match batch.claim with
  | none => (true, w.applyWrites now batch)
  | some (key, value) =>
    if (w.store.get key).isSome then (false, w)
    else (true, (w.insert now key value).applyWrites now batch)

def getMany (keys : List JsString) : List (Option (JournalValue P)) := keys.map w.store.get

/-- A key that is not there yet comes to the end. -/
def addNew (out : List JsString) (k : JsString) : List JsString := if k ∈ out then out else out ++ [k]

/-- The keys of the values and of the counters, each once. -/
def keys : List JsString :=
  (w.store.entries.map Prod.fst ++ w.counters.entries.map Prod.fst).foldl addNew []

/-- The first keys with a prefix. -/
def listKeysUpTo (limit : ℕ) (start : JsString) : (out keys : List JsString) → List JsString
  | out, [] => out
  | out, k :: ks =>
    if limit ≤ out.length then out
    else listKeysUpTo limit start (if k.startsWith start then addNew out k else out) ks

def listKeys (start : JsString) (limit : Option ℕ) : List JsString :=
  match limit with
  | none => w.keys.filter (·.startsWith start)
  | some limit => listKeysUpTo limit start []
      (w.store.entries.map Prod.fst ++ w.counters.entries.map Prod.fst)

/-- The number of the keys that are deleted, and the rest. -/
def deletePrefix (start : JsString) : ℕ × MemoryJournal P :=
  (w.store.entries.countP (·.1.startsWith start) + w.counters.entries.countP (·.1.startsWith start),
    { store := w.store.filterKeys (!·.startsWith start)
      times := fun k => if k.startsWith start ∧ (w.store.get k).isSome then none else w.times k
      counters := w.counters.filterKeys (!·.startsWith start) })

/-- The records of a run. -/
def readRun (runId : JsString) : List (ReadEntry P) :=
  (w.store.entries.filterMap (recordOf runId)).mapIdx fun seq (key, kind, value) =>
    ⟨key, runId, kind, value, seq, w.times key⟩

/-- What a key says about the last activity of its run. -/
def addAge (last : OrderedMap JsString RunAge) :
    JsString × JournalValue P → OrderedMap JsString RunAge
  | (key, value) =>
    match runIdOfKey key value with
    | none => last
    | some owner =>
      if owner = [] then last
      else
        let cur := (last.get owner).getD ⟨0, false⟩
        let tool := (parseJournalKey key).any (·.2 = .tool)
        last.put owner ⟨max cur.ts ((w.times key).getD 0), cur.suspended || tool && value.suspended⟩

def listStaleRuns (cutoff : ℕ) (includeSuspended : Bool) : List JsString :=
  ((w.store.entries.foldl w.addAge .empty).entries.filter fun (_, age) =>
    age.ts < cutoff && (includeSuspended || !age.suspended)).map Prod.fst

/-- All pages of the runs. -/
def walkRuns (q : RunFilter) (limit : ℕ) : Option (List ListedRun) :=
  walk (listRunsPaged w.store q limit) ((listRuns w.store).length + 1) 0

end MemoryJournal

/-! ## Operations as data -/

inductive JournalOp (P : Type) where
  | get (key : JsString)
  | put (key : JsString) (value : JournalValue P)
  | putIfAbsent (key : JsString) (value : JournalValue P)
  | putIfMatch (key : JsString) (expected value : JournalValue P)
  | incrBy (key : JsString) (fields : List (JsString × ℤ))
  | getCounters (key : JsString)
  | applyBatch (batch : JournalBatch P)
  | getMany (keys : List JsString)
  | listKeys (start : JsString) (limit : Option ℕ)
  | deletePrefix (start : JsString)
  | readRun (runId : JsString)
  | listRuns
  | listStaleRuns (cutoff : ℕ) (includeSuspended : Bool)
  /-- A full walk of `listRunsPaged`. A limit of zero has no full walk. -/
  | walkRuns (q : RunFilter) (limit : ℕ+)

inductive JournalAnswer (P : Type) where
  | done
  | flag (b : Bool)
  | value (v : Option (JournalValue P))
  | counters (c : Option Counters)
  | values (vs : List (Option (JournalValue P)))
  | keys (ks : List JsString)
  | count (n : ℕ)
  | entries (es : List (ReadEntry P))
  | runs (rs : Option (List ListedRun))
  | runIds (ids : List JsString)

/-- What a journal answers, and what it becomes. -/
def MemoryJournal.perform [DecidableEq P] (w : MemoryJournal P) (now : ℕ) :
    JournalOp P → JournalAnswer P × MemoryJournal P
  | .get key => (.value (w.get key), w)
  | .put key value => (.done, w.put now key value)
  | .putIfAbsent key value => (w.putIfAbsent now key value).map .flag id
  | .putIfMatch key expected value => (w.putIfMatch key expected value).map .flag id
  | .incrBy key fields => (.done, w.incrBy key fields)
  | .getCounters key => (.counters (w.getCounters key), w)
  | .applyBatch batch => (w.applyBatch now batch).map .flag id
  | .getMany keys => (.values (w.getMany keys), w)
  | .listKeys start limit => (.keys (w.listKeys start limit), w)
  | .deletePrefix start => (w.deletePrefix start).map .count id
  | .readRun runId => (.entries (w.readRun runId), w)
  | .listRuns => (.runs (some (Durable.listRuns w.store)), w)
  | .listStaleRuns cutoff incl => (.runIds (w.listStaleRuns cutoff incl), w)
  | .walkRuns q limit => (.runs (w.walkRuns q limit), w)

end Gnldev.Durable
