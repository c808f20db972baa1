import Gnldev.Durable.OwnedName
import Gnldev.Durable.RunLock
import Gnldev.Durable.WorkStore
import Mathlib.Data.PNat.Notation

/-!
# The queue

`enqueue` appends a job to the log `qjob`; a worker's `runOnce` scans the log from
the persisted cursor, takes the lease of the first job that has no `qdone` or
`qfail` marker, and runs its handler (`queue/src/index.ts`). The lease is a run
lock in the run journal; beside it the worker writes its token under `qown`, and
swaps it for itself before each terminal write (`stillOwns`).

The handlers, `claimRunOwner` and the heartbeat's flag `lockLost` are code outside
the model: they answer anything, at every call. The heartbeat's renewals are calls
of their own, made for any token at any time.
-/

namespace Gnldev.Queue

open Durable

/-! ## Records -/

/-- A caller of the engine. -/
inductive Caller where
  | user (id : JsString) (orgId : Option JsString)
  | staff (orgId : Option JsString)
  | unknown
  deriving DecidableEq

/-- An entry of the `qjob` log; the depth index has entries with a type only. -/
structure JobRecord (P : Type) where
  type : JsString
  payload : Option P
  owner : Owner
  /-- An explicit job of the staff. -/
  staff : Bool
  deriving DecidableEq

/-- What the queue keeps in the work store. -/
inductive JobValue where
  | cursor (c : ℕ)
  /-- A `qdone` marker, with its time. -/
  | done (at_ : Int)
  /-- A `qfail` marker, with its error and the number of attempts, if it counts them. -/
  | fail (error : JsString) (attempts : Option ℕ)
  /-- A `qatt` counter. -/
  | attempts (n : ℕ)
  /-- A `qown` token. -/
  | token (t : JsString)
  deriving DecidableEq

/-- Whether a stored value counts as true. -/
def truthy : Option JobValue → Bool
  | none => false
  | some (.cursor _) => true
  | some (.done _) => true
  | some (.fail ..) => true
  | some (.attempts n) => n ≠ 0
  | some (.token t) => t ≠ []

/-- A cursor. -/
def readCursor : Option JobValue → Option ℕ
  | some (.cursor c) => some c
  | _ => none

/-- A counter of attempts. -/
def readAttempts : Option JobValue → ℕ
  | some (.attempts n) => n
  | _ => 0

/-! ## Keys -/

def QCURSOR : JsString := js "qcursor"
def QJOB : JsString := js "qjob"
def qdone (id : JsString) : JsString := js "qdone:" ++ id
def qfail (id : JsString) : JsString := js "qfail:" ++ id
def qatt (id : JsString) : JsString := js "qatt:" ++ id
def qown (id : JsString) : JsString := js "qown:" ++ id

/-- The run of a job. -/
def runIdOf (id : JsString) : JsString := js "job:" ++ id

/-- The run whose lock is the lease of a job. -/
def leaseOf (id : JsString) : JsString := runIdOf id ++ js ":lease"

/-- The depth index of an organization. -/
def depthNs : Option JsString → JsString
  | none => js "qdepth"
  | some orgId => js "org:" ++ orgId ++ js ":qdepth"

/-! ## Programs -/

/-- What the programs of the queue perform. -/
inductive QOp (P : Type) where
  | work (o : WorkOp (JobRecord P) JobValue)
  /-- An operation on the run journal's locks, or reading its clock. -/
  | lock (o : LockOp)
  /-- Record the owner of a job's run. -/
  | claimRunOwner (id : JsString)
  /-- Start the handler of a job. -/
  | handler (job : LogRecord (JobRecord P))
  /-- Read the flag the heartbeat sets. -/
  | lockLost
  /-- Read the process's clock. -/
  | dateNow
  | randomUUID

/-- The answers: `claimRunOwner` and the handler throw or not. -/
abbrev QOp.Res {P : Type} : QOp P → Type
  | work o => o.Res
  | lock o => o.Res
  | claimRunOwner _ => Except JsString Unit
  | handler _ => Except JsString Unit
  | lockLost => Bool
  | dateNow => Int
  | randomUUID => JsString

/-- The programs of the queue. -/
abbrev QM (P : Type) := Prog (QOp P) QOp.Res

/-- The work store of the queue. -/
abbrev QStore (P : Type) := WorkStore (QM P) (JobRecord P) JobValue

variable {P : Type}

/-- The operations of the programs. -/
def perform (o : QOp P) : QM P o.Res := Prog.perform o

/-- The options of a worker; nothing for `maxAttempts` is `Infinity`. -/
structure WorkerOptions where
  owner : JsString
  ttlMs : Int
  maxAttempts : Option ℕ
  /-- The types of jobs with a handler. -/
  handlers : JsString → Bool

/-- The attempt `n` reaches the limit. -/
def WorkerOptions.exhausted (opts : WorkerOptions) (n : ℕ) : Bool := opts.maxAttempts.any (· ≤ n)

section Worker

variable (work : QStore P) (runs : Journal (QM P) LockRecord) (opts : WorkerOptions)

/-- The gate of the terminal writes: the token under `qown` is still the lock's. -/
def stillOwns (id token : JsString) : QM P Bool := do
  if ← perform .lockLost then return false
  match work.putIfMatch with
  | none => return true
  | some putIfMatch => putIfMatch (qown id) (.token token) (.token token)

/-- A job without a handler is dead. -/
def failUnhandled (job : LogRecord (JobRecord P)) (token : JsString) : QM P Unit := do
  if ← stillOwns work job.id token then
    work.put (qfail job.id) (.fail (js "no handler: " ++ job.payload.type) none)

/-- The handler has returned. -/
def succeed (job : LogRecord (JobRecord P)) (token : JsString) : QM P Unit := do
  if ← stillOwns work job.id token then
    work.put (qdone job.id) (.done (← perform .dateNow))

/-- The handler, or `claimRunOwner` before it, has thrown: count the attempt, and bury the
    job after the last one. -/
def failAttempt (job : LogRecord (JobRecord P)) (token err : JsString) : QM P Unit := do
  if ← stillOwns work job.id token then
    let n := readAttempts (← work.get (qatt job.id)) + 1
    work.put (qatt job.id) (.attempts n)
    if opts.exhausted n then work.put (qfail job.id) (.fail err (some n))

/-- What a worker does with a job under its lease. -/
def attempt (job : LogRecord (JobRecord P)) (token : JsString) : QM P Unit := do
  if opts.handlers job.payload.type then
    match ← perform (.claimRunOwner job.id) with
    | .error err => failAttempt work opts job token err
    | .ok () =>
      match ← perform (.handler job) with
      | .error err => failAttempt work opts job token err
      | .ok () => succeed work job token
  else failUnhandled work job token

/-- Run a job under its lease, and release it. -/
def runJob (job : LogRecord (JobRecord P)) (lock : RunLock) : QM P Unit := do
  if work.putIfMatch.isSome then work.put (qown job.id) (.token lock.token)
  attempt work opts job lock.token
  lock.release runs

/-- What the scan of a page says. -/
inductive Scan where
  /-- A job was run. -/
  | ran
  /-- No job could be taken; whether all of them are terminal. -/
  | passed (allTerminal : Bool)

/-- Scan the jobs of a page. -/
def scanItems : List (LogRecord (JobRecord P)) → Bool → QM P Scan
  | [], allTerminal => return .passed allTerminal
  | job :: items, allTerminal => do
    if truthy (← work.get (qdone job.id)) then scanItems items allTerminal
    else if truthy (← work.get (qfail job.id)) then scanItems items allTerminal
    else
      let token ← perform .randomUUID
      match ← acquireRunLock runs (leaseOf job.id) opts.owner opts.ttlMs none token with
      -- Held by another worker.
      | none => scanItems items false
      | some lock =>
        runJob work runs opts job lock
        return .ran

/-- Scan from the cursor on, over at most `fuel` pages. -/
def scanPages : ℕ → Option ℕ → QM P Bool
  | 0, _ => return false
  | fuel + 1, cursor => do
    let page ← work.list QJOB cursor
    match ← scanItems work runs opts page.items true with
    | .ran => return true
    | .passed allTerminal =>
      match page.nextCursor with
      | none => return false
      | some next =>
        if allTerminal then
          -- A page whose jobs are all terminal is never scanned again.
          work.put QCURSOR (.cursor next)
          scanPages fuel (some next)
        else scanPages fuel (some next)

/-- Claim and run one pending job, scanning at most `fuel` pages. -/
def runOnce (fuel : ℕ) : QM P Bool := do
  scanPages work runs opts fuel (readCursor (← work.get QCURSOR))

end Worker

/-! ## Adding jobs -/

/-- The options of `enqueue`. -/
structure EnqueueOptions where
  id : Option JsString
  maxDepth : Option ℕ
  resourceId : Option JsString
  orgId : Option JsString
  caller : Option Caller

/-- Why a job is refused. -/
inductive EnqueueError where
  /-- Both `caller` and a different `resourceId` or `orgId` were given. -/
  | twoOwners
  /-- The work store is an organization's. -/
  | scoped (orgId : JsString)
  | invalidOrgId (orgId : JsString)
  | invalidResourceId (resourceId : JsString)
  | depthExceeded (type : JsString) (depth maxDepth : ℕ)
  | name (e : NameError)

/-- The organization of a caller. -/
def Caller.org : Caller → Option JsString
  | user _ orgId => orgId
  | staff orgId => orgId
  | unknown => none

/-- The user of a caller. -/
def Caller.resource : Caller → Option JsString
  | user id _ => some id
  | _ => none

/-- The owner fields of a job, and whether it is the staff's. -/
def jobOwnerOf (opts : EnqueueOptions) : Except EnqueueError (Owner × Bool) :=
  match opts.caller with
  | none => .ok (⟨opts.orgId, opts.resourceId⟩, false)
  | some c =>
    if (opts.resourceId.isSome ∧ opts.resourceId ≠ c.resource) ∨
        (opts.orgId.isSome ∧ c.org.isSome ∧ opts.orgId ≠ c.org) then .error .twoOwners
    else .ok (⟨c.org.or opts.orgId, c.resource.or opts.resourceId⟩,
      match c with | .staff _ => true | _ => false)

/-- The checks before a job is added. -/
def enqueueCheck (scopedTo : Option JsString) (opts : EnqueueOptions) :
    Except EnqueueError (Owner × Bool) := do
  let (owner, staff) ← jobOwnerOf opts
  if let some orgId := scopedTo then throw (.scoped orgId)
  if let some orgId := owner.orgId then
    if orgId = [] ∨ colon ∈ orgId then throw (.invalidOrgId orgId)
  if let some resourceId := owner.resourceId then
    if resourceId = [] then throw (.invalidResourceId resourceId)
  return (owner, staff)

section Enqueue

variable (work : QStore P)

/-- Append a job under its name, and its record in the depth index. -/
def enqueueAs (rec_ : JobRecord P) (name : Option JsString) :
    QM P (Except EnqueueError JsString) :=
  match name.mapM (ownedName · rec_.owner) with
  | .error e => return .error (.name e)
  | .ok stored => do
    let id ← work.append QJOB rec_ stored
    let _ ← work.append (depthNs rec_.owner.orgId) ⟨rec_.type, none, ⟨none, none⟩, false⟩ (some id)
    return .ok id

/-- Append a job; an owned one always has an id. -/
def enqueueNamed (rec_ : JobRecord P) (id : Option JsString) :
    QM P (Except EnqueueError JsString) := do
  match id with
  | some name => enqueueAs work rec_ (some name)
  | none =>
    if rec_.owner.orgId.isSome ∨ rec_.owner.resourceId.isSome then
      enqueueAs work rec_ (some (← perform .randomUUID))
    else enqueueAs work rec_ none

/-- Add a job to the queue. -/
def enqueue (scopedTo : Option JsString) (type : JsString) (payload : P) (opts : EnqueueOptions) :
    QM P (Except EnqueueError JsString) :=
  match enqueueCheck scopedTo opts with
  | .error e => return .error e
  | .ok (owner, staff) =>
    let rec_ : JobRecord P := ⟨type, some payload, owner, staff⟩
    match opts.maxDepth with
    | none => enqueueNamed work rec_ opts.id
    | some maxDepth => do
      let depth ← countUpTo work (depthNs owner.orgId) maxDepth
      if depth ≥ maxDepth then return .error (.depthExceeded type depth maxDepth)
      enqueueNamed work rec_ opts.id

end Enqueue

/-! ## The machine -/

/-- What happened, as far as the statements about leases speak of it. No operation
    reads these events. -/
inductive QEvent where
  /-- The call `i` won a lock, with a token. -/
  | acquired (key : JsString) (i : ℕ) (token : JsString)
  /-- The call `i` put a value under a key. -/
  | wrote (key : JsString) (i : ℕ) (value : JobValue)
  /-- The call `i` swapped the value of a key. -/
  | swapped (key : JsString) (i : ℕ)
  deriving DecidableEq

/-- The run journal and its clock, the work store, the tokens drawn so far and by
    whom, and what happened, the latest first. -/
structure QWorld (P : Type) where
  clock : Int
  runs : Kv JsString LockRecord
  work : WorkState (JobRecord P) JobValue
  drawn : List (ℕ × JsString)
  trace : List QEvent

/-- What an operation of the call `i` makes happen. A lock is won by inserting it,
    or by swapping it for one with another token. -/
def QOp.events (i : ℕ) : (o : QOp P) → o.Res → List QEvent
  | .lock (.kv (.putIfAbsent k v)), won => if won then [.acquired k i v.token] else []
  | .lock (.kv (.putIfMatch k e v)), won =>
    if won ∧ e.token ≠ v.token then [.acquired k i v.token] else []
  | .work (.put k v), _ => [.wrote k i v]
  | .work (.putIfMatch k _ _), won => if won then [.swapped k i] else []
  | _, _ => []

/-- A token no list has yet, and the proposed one if it is such. -/
def freshFor (drawn : List (ℕ × JsString)) (proposed : JsString) : JsString :=
  if proposed ∈ drawn.map (·.2) then
    List.replicate ((drawn.map (·.2.length)).foldr max 0 + 1) 0x30
  else proposed

/-- What the code outside the model answers at a call. -/
structure QAnswer where
  time : Int
  outcome : Except JsString Unit
  lost : Bool
  id : JsString

/-- Both stores with atomic operations, pages of `limit` records, one clock of the
    run journal, which does not go back, and random ids that are never drawn twice. -/
def qMachine (limit : ℕ+) : Machine (QOp P) QOp.Res (QWorld P) QAnswer ℕ where
  exec i a o w :=
    match o with
    | .work o =>
      let (r, s) := o.exec limit (.attempts 1) i w.clock a.id w.work
      (r, { w with work := s, trace := QOp.events i (.work o) r ++ w.trace })
    | .lock o =>
      let (r, s) := lockMachine.exec i () o ⟨w.clock, w.runs⟩
      (r, { w with runs := s.kv, trace := QOp.events (P := P) i (.lock o) r ++ w.trace })
    | .claimRunOwner _ => (a.outcome, w)
    | .handler _ => (a.outcome, w)
    | .lockLost => (a.lost, w)
    | .dateNow => (a.time, w)
    | .randomUUID =>
      let token := freshFor w.drawn a.id
      (token, { w with drawn := (i, token) :: w.drawn })
  env n w := { w with clock := w.clock + n }

/-- The work store as the programs see it. -/
def qStore : QStore P where
  append ns payload id := perform (.work (.append ns payload id))
  list ns cursor := perform (.work (.list ns cursor))
  get k := perform (.work (.get k))
  put k v := perform (.work (.put k v))
  ackOnce k := perform (.work (.ackOnce k))
  putIfMatch := some fun k e v => perform (.work (.putIfMatch k e v))

/-- The run journal as the programs see it. -/
def qRuns : Journal (QM P) LockRecord where
  get k := perform (.lock (.kv (.get k)))
  put k v := perform (.lock (.kv (.put k v)))
  putIfAbsent := some fun k v => perform (.lock (.kv (.putIfAbsent k v)))
  putIfMatch := some fun k e v => perform (.lock (.kv (.putIfMatch k e v)))
  now := perform (.lock .now)

/-- A call on the queue. -/
inductive QCall (P : Type) where
  | enqueue (type : JsString) (payload : P) (opts : EnqueueOptions)
  | runOnce (opts : WorkerOptions) (fuel : ℕ)
  /-- A beat of the heartbeat of a worker holding a handle. -/
  | renew (lock : RunLock) (ttlMs : Int)

/-- The program of a call. -/
def QCall.prog : QCall P → QM P Unit
  | enqueue type payload opts => do
    let _ ← Queue.enqueue qStore none type payload opts
  | runOnce opts fuel => do
    let _ ← Queue.runOnce qStore qRuns opts fuel
  | renew lock ttlMs => do
    let _ ← lock.renew qRuns ttlMs

/-- The calls before any of them has run, on an empty store. -/
def qStart (calls : ℕ → QCall P) (t : Int) : Conf (QOp P) QOp.Res Unit (QWorld P) :=
  ⟨⟨t, Kv.empty, ⟨fun _ => [], Kv.empty⟩, [], []⟩, fun i => (calls i).prog⟩

end Gnldev.Queue
