import Gnldev.Durable.WorkStore
import Gnldev.Events.Keys
import Mathlib.Data.PNat.Notation
import Mathlib.Algebra.Order.Ring.Unbundled.Rat

/-!
# The event bus

`emit` appends an event to the log of its topic; a consumer's `poll` delivers the
events it has not marked yet to its handler, page by page, and moves its cursor
over the pages that need not be scanned again (`events/src/index.ts`). A delivery
that failed often enough is quarantined under `evtdead:`; `retryDeadEvent`
releases it, and `listDeadEvents` shows it.

The handler, the schedule `retryDelayMs` and the clock of the process are code
outside the model: they answer anything, at every call.
-/

namespace Gnldev.Events

open Durable

/-! ## Records -/

/-- The identity of a release: how many there were, and when the last was. The
    source joins the two numbers by `@`. -/
abbrev Stamp := ℕ × Int

/-- The `evtatt:` record. -/
structure StoredAttempts where
  /-- Failed attempts of the current streak. -/
  n : ℕ
  firstAt : Int
  /-- The earliest time of the next attempt. -/
  nextAt : ℚ
  /-- The release the streak belongs to. -/
  gen : Option Stamp
  deriving DecidableEq

/-- The `evtdead:` record. -/
structure StoredDead where
  error : JsString
  attempts : ℕ
  at_ : Int
  releasedAt : Option Int
  releases : Option ℕ
  deriving DecidableEq

/-- What the consumers keep in the work store. -/
inductive EvtValue where
  | flag (b : Bool)
  /-- A cursor; none is `''`, the start of the log. -/
  | cursor (c : Option ℕ)
  | attempts (a : StoredAttempts)
  /-- A bare number of attempts, as an older build wrote it. -/
  | count (n : ℕ)
  | dead (d : StoredDead)
  deriving DecidableEq

/-- The attempts in either shape. -/
def readAttempts : Option EvtValue → Option StoredAttempts
  | none => none
  | some (.count n) => some ⟨n, 0, 0, none⟩
  | some (.attempts a) => some a
  | some _ => some ⟨0, 0, 0, none⟩

/-- A dead-letter record. -/
def readDead : Option EvtValue → Option StoredDead
  | some (.dead d) => some d
  | _ => none

/-- A cursor, with `''` as none. -/
def readCursor : Option EvtValue → Option ℕ
  | some (.cursor c) => c
  | _ => none

/-- `releasedAt` is set (and not zero). -/
def StoredDead.isReleased (d : StoredDead) : Bool := d.releasedAt.any (· ≠ 0)

def releaseStamp (rec_ : Option StoredDead) : Stamp :=
  ((rec_.bind (·.releases)).getD 0, (rec_.bind (·.releasedAt)).getD 0)

/-- The default retry schedule. -/
def defaultRetryDelay (attempt : ℕ) : ℚ := min (60000 * 2 ^ (attempt - 1)) 3600000

/-! ## Programs -/

/-- What a handler is told about an event. -/
structure EventMeta where
  id : JsString
  topic : JsString
  owner : Owner

/-- What the programs of the bus perform. -/
inductive EvtOp (P : Type) where
  | work (o : WorkOp P EvtValue)
  /-- Call the handler. -/
  | handler (payload : P) (meta_ : EventMeta)
  /-- Ask the schedule for a delay. -/
  | retryDelay (attempt : ℕ)
  | now
  | randomUUID

/-- The answers: a handler throws or not, a schedule returns a finite number or
    something else. -/
abbrev EvtOp.Res {P : Type} : EvtOp P → Type
  | work o => o.Res
  | handler .. => Except JsString Unit
  | retryDelay _ => Option ℚ
  | now => Int
  | randomUUID => JsString

/-- The programs of the bus. -/
abbrev EvtM (P : Type) := Prog (EvtOp P) EvtOp.Res

/-- The work store of the bus. -/
abbrev EvtStore (P : Type) := WorkStore (EvtM P) P EvtValue

variable {P : Type}

/-- The operations of the program. -/
def perform (o : EvtOp P) : EvtM P o.Res := Prog.perform o

section Source

variable (work : EvtStore P)

/-- The options of a consumer. Nothing for `maxAttempts` is `Infinity`. -/
structure ConsumerOptions where
  name : JsString
  maxAttempts : Option ℕ

/-- The attempt `n` reaches the limit. -/
def ConsumerOptions.exhausted (opts : ConsumerOptions) (n : ℕ) : Bool :=
  opts.maxAttempts.any (· ≤ n)

/-- The delay after an attempt: the caller's, or the default one if the caller's
    code throws or does not return a finite number. -/
def delayFor (attempt : ℕ) : EvtM P ℚ := do
  match ← perform (.retryDelay attempt) with
  | none => return defaultRetryDelay attempt
  | some raw => return max 0 raw

/-- `putIfMatch`, or `put` if there is nothing to race with or the store has none. -/
def replace (key : JsString) (expected : Option EvtValue) (value : EvtValue) : EvtM P Bool :=
  match expected, work.putIfMatch with
  | some expected, some putIfMatch => putIfMatch key expected value
  | _, _ => do
    work.put key value
    return true

variable (topic : JsString) (opts : ConsumerOptions)

/-- The records of a failed attempt, the event's `n`th in a row: whether the
    cursor is frozen by it. -/
def recordFailure (e : LogRecord P) (freshRaw attRaw : Option EvtValue) (err : JsString)
    (now : Int) (n : ℕ) (frozen : Bool) : EvtM P Bool := do
  let dk := deadKey topic opts.name e.id
  let fresh := readDead freshRaw
  let att := readAttempts attRaw
  let delay ← delayFor n
  let firstAt := match att with
    | some a => if a.firstAt = 0 then now else a.firstAt
    | none => now
  let next : StoredAttempts := ⟨n, firstAt, now + delay, att.bind (·.gen)⟩
  if ← replace work (attKey topic opts.name e.id) attRaw (.attempts next) then
    if opts.exhausted n then
      let rec_ : StoredDead := ⟨err, n, now, none, fresh.bind (·.releases)⟩
      return if ← replace work dk freshRaw (.dead rec_) then frozen else true
    else return true
  else return true

/-- The bookkeeping of a failed attempt. -/
def onFailure (e : LogRecord P) (dead : Option StoredDead) (attRaw : Option EvtValue)
    (err : JsString) (frozen : Bool) : EvtM P Bool := do
  let freshRaw ← work.get (deadKey topic opts.name e.id)
  -- Released while the handler ran: the attempt is discarded, the release stands.
  if releaseStamp (readDead freshRaw) ≠ releaseStamp dead then return true
  let now ← perform .now
  let n := ((readAttempts attRaw).map (·.n)).getD 0 + 1
  if opts.exhausted n then
    -- Already delivered by another process: acked, so that the cursor may pass it.
    if (← work.get (ackKey topic opts.name e.id)).isSome then return frozen
    else recordFailure work topic opts e freshRaw attRaw err now n frozen
  else recordFailure work topic opts e freshRaw attRaw err now n frozen

/-- Hand an event to the handler: whether the cursor is frozen, and the number
    delivered. -/
def deliver (e : LogRecord P) (dead : Option StoredDead) (attRaw : Option EvtValue)
    (frozen : Bool) (delivered : ℕ) : EvtM P (Bool × ℕ) := do
  match ← perform (.handler e.payload ⟨e.id, topic, (ownerOfName e.id).1⟩) with
  | .error err => return (← onFailure work topic opts e dead attRaw err frozen, delivered)
  | .ok () =>
    -- The marker comes after the handler; another process may have set it first.
    return (frozen, if ← work.ackOnce (ackKey topic opts.name e.id) then delivered + 1 else delivered)

/-- One event of a page. -/
def pollEvent (e : LogRecord P) (frozen : Bool) (delivered : ℕ) : EvtM P (Bool × ℕ) := do
  if (← work.get (ackKey topic opts.name e.id)).isSome then return (frozen, delivered)
  let dead := readDead (← work.get (deadKey topic opts.name e.id))
  if dead.any (!·.isReleased) then return (frozen, delivered)
  let attRaw ← work.get (attKey topic opts.name e.id)
  match readAttempts attRaw with
  | none => deliver work topic opts e dead attRaw frozen delivered
  | some att =>
    -- Not due yet, but still retryable: the cursor is frozen all the same.
    if att.nextAt > (← perform .now) then return (true, delivered)
    deliver work topic opts e dead attRaw frozen delivered

/-- The events of a page. -/
def pollItems : List (LogRecord P) → Bool → ℕ → EvtM P (Bool × ℕ)
  | [], frozen, delivered => return (frozen, delivered)
  | e :: items, frozen, delivered => do
    let (frozen, delivered) ← pollEvent work topic opts e frozen delivered
    pollItems items frozen delivered

/-- A pass from the cursor on, over at most `fuel` pages. -/
def pollPages (rescan : Bool) : ℕ → Option ℕ → Bool → ℕ → EvtM P ℕ
  | 0, _, _, delivered => return delivered
  | fuel + 1, cursor, frozen, delivered => do
    let page ← work.list (logNsOf topic) cursor
    let (frozen, delivered) ← pollItems work topic opts page.items frozen delivered
    match page.nextCursor with
    | none =>
      -- The last page is never passed: it must be scanned for new events.
      if rescan then work.put (rescanKeyOf topic opts.name) (.flag false)
      return delivered
    | some cursor =>
      if frozen then pollPages rescan fuel (some cursor) frozen delivered
      else
        work.put (cursorKeyOf topic opts.name) (.cursor (some cursor))
        pollPages rescan fuel (some cursor) frozen delivered

/-- Deliver the consumer's unmarked events, in a pass over at most `fuel` pages. -/
def poll (fuel : ℕ) : EvtM P ℕ := do
  if (← work.get (rescanKeyOf topic opts.name)) = some (.flag true) then
    work.put (cursorKeyOf topic opts.name) (.cursor none)
    pollPages work topic opts true fuel none false 0
  else
    let cursor := readCursor (← work.get (cursorKeyOf topic opts.name))
    pollPages work topic opts false fuel cursor false 0

variable (consumer : JsString)

/-- Release a quarantined event, in at most `tries` compare-and-swaps. -/
def retryDeadLoop (eventId : JsString) : ℕ → EvtM P Bool
  | 0 => return false
  | tries + 1 => do
    let dk := deadKey topic consumer eventId
    match readDead (← work.get dk) with
    | none => return false
    | some rec_ =>
      if (← work.get (ackKey topic consumer eventId)).isSome then return false
      let released : StoredDead :=
        { rec_ with releasedAt := some (← perform .now), releases := some (rec_.releases.getD 0 + 1) }
      -- The reset carries the release's stamp, and comes before the rescan flag.
      work.put (attKey topic consumer eventId) (.attempts ⟨0, 0, 0, some (releaseStamp released)⟩)
      if ← replace work dk (some (.dead rec_)) (.dead released) then
        work.put (rescanKeyOf topic consumer) (.flag true)
        return true
      retryDeadLoop eventId tries

def RELEASE_CAS_TRIES : ℕ := 5

/-- Release a quarantined event back for delivery. -/
def retryDeadEvent (eventId : JsString) : EvtM P Bool :=
  retryDeadLoop work topic consumer eventId RELEASE_CAS_TRIES

/-- The state of an event that was quarantined. -/
inductive DeadStatus where
  | quarantined
  | released
  | delivered
  deriving DecidableEq

/-- An event that was quarantined, for the operator. -/
structure DeadEvent (P : Type) where
  rec_ : StoredDead
  id : JsString
  topic : JsString
  consumer : JsString
  payload : P
  owner : Owner
  status : DeadStatus

/-- The dead events of a page. -/
def listDeadItems : List (LogRecord P) → List (DeadEvent P) → EvtM P (List (DeadEvent P))
  | [], out => return out
  | e :: items, out => do
    match readDead (← work.get (deadKey topic consumer e.id)) with
    | none => listDeadItems items out
    | some rec_ =>
      let acked := (← work.get (ackKey topic consumer e.id)).isSome
      let status := if acked then .delivered else if rec_.isReleased then .released else .quarantined
      listDeadItems items
        (out ++ [⟨rec_, e.id, topic, consumer, e.payload, (ownerOfName e.id).1, status⟩])

/-- The dead events from the cursor on, in at most `fuel` pages. -/
def listDeadPages : ℕ → Option ℕ → List (DeadEvent P) → EvtM P (List (DeadEvent P))
  | 0, _, out => return out
  | fuel + 1, cursor, out => do
    let page ← work.list (logNsOf topic) cursor
    let out ← listDeadItems work topic consumer page.items out
    match page.nextCursor with
    | none => return out
    | some cursor => listDeadPages fuel (some cursor) out

/-- Every event that has been quarantined for the consumer. -/
def listDeadEvents (fuel : ℕ) : EvtM P (List (DeadEvent P)) :=
  listDeadPages work topic consumer fuel none []

end Source

/-! ## Publishing -/

/-- The options of `emit`. -/
structure EmitOptions where
  id : Option JsString
  maxDepth : Option ℕ
  owner : Owner

/-- Why an event is refused. -/
inductive EmitError where
  /-- The work store is an organization's. -/
  | scoped (orgId : JsString)
  | emptyTopic
  | invalidOrgId (orgId : JsString)
  | invalidResourceId (resourceId : JsString)
  | depthExceeded (topic : JsString) (depth maxDepth : ℕ)
  | name (e : NameError)

/-- A topic is a system name. -/
def assertTopic (topic : JsString) : Except EmitError Unit :=
  if topic = [] then .error .emptyTopic else (assertSystemName topic).mapError .name

/-- The checks before an event is published. -/
def emitCheck (scopedTo : Option JsString) (topic : JsString) (opts : EmitOptions) :
    Except EmitError Unit := do
  if let some orgId := scopedTo then throw (.scoped orgId)
  assertTopic topic
  if let some orgId := opts.owner.orgId then
    if orgId = [] ∨ colon ∈ orgId then throw (.invalidOrgId orgId)
  if let some resourceId := opts.owner.resourceId then
    if resourceId = [] then throw (.invalidResourceId resourceId)

section Emit

variable [EmptyCollection P] (work : EvtStore P)

/-- Append an event under its name, and its record in the depth index. -/
def emitAs (topic : JsString) (payload : P) (opts : EmitOptions) (name : Option JsString) :
    EvtM P (Except EmitError JsString) :=
  match name.mapM (ownedName · opts.owner) with
  | .error e => return .error (.name e)
  | .ok stored => do
    let id ← work.append (logNsOf topic) payload stored
    let _ ← work.append (depthNsOf topic opts.owner.orgId) {} (some id)
    return .ok id

/-- Append an event; an owned one always has an id. -/
def emitNamed (topic : JsString) (payload : P) (opts : EmitOptions) :
    EvtM P (Except EmitError JsString) := do
  match opts.id with
  | some name => emitAs work topic payload opts (some name)
  | none =>
    if opts.owner.orgId.isSome ∨ opts.owner.resourceId.isSome then
      emitAs work topic payload opts (some (← perform .randomUUID))
    else emitAs work topic payload opts none

/-- Publish an event to a topic. -/
def emit (scopedTo : Option JsString) (topic : JsString) (payload : P) (opts : EmitOptions) :
    EvtM P (Except EmitError JsString) :=
  match emitCheck scopedTo topic opts with
  | .error e => return .error e
  | .ok () =>
    match opts.maxDepth with
    | none => emitNamed work topic payload opts
    | some maxDepth => do
      let depth ← countUpTo work (depthNsOf topic opts.owner.orgId) maxDepth
      if depth ≥ maxDepth then return .error (.depthExceeded topic depth maxDepth)
      emitNamed work topic payload opts

end Emit

/-! ## Markers -/

/-- The families of markers. -/
def MARKER_FAMILIES : List JsString := [js "evtack", js "evtatt", js "evtdead"]

theorem colon_notMem_family {fam : JsString} (h : fam ∈ MARKER_FAMILIES) : colon ∉ fam := by
  revert fam
  decide

/-- A component without separators tells where it ends. -/
theorem enc_append_inj {s t a b : JsString} (h : enc s ++ colon :: a = enc t ++ colon :: b) :
    s = t ∧ a = b := by
  obtain ⟨he, hab⟩ := JsString.append_cons_inj (colon_notMem_enc s) (colon_notMem_enc t) h
  exact ⟨enc_injective he, hab⟩

/-- A topic a consumer can be created for is not owned. -/
theorem isOwnedId_of_assertTopic {topic : JsString} (h : assertTopic topic = .ok ()) :
    isOwnedId topic = false := by
  unfold assertTopic at h
  split at h
  · cases h
  · unfold assertSystemName at h
    split at h
    · cases h
    · next hs => simp [isOwnedId, ownerOfName, hs]

/-- A marker tells its components. -/
theorem markerKey_injective {fam fam' topic topic' consumer consumer' id id' : JsString}
    (hfam : fam ∈ MARKER_FAMILIES) (hfam' : fam' ∈ MARKER_FAMILIES)
    (ht : isOwnedId topic = false) (ht' : isOwnedId topic' = false)
    (h : markerKey fam topic consumer id = markerKey fam' topic' consumer' id') :
    fam = fam' ∧ topic = topic' ∧ consumer = consumer' ∧ id = id' := by
  have hcut {a b : JsString} (he : fam ++ colon :: a = fam' ++ colon :: b) : fam = fam' ∧ a = b :=
    JsString.append_cons_inj (colon_notMem_family hfam) (colon_notMem_family hfam') he
  -- A topic is not the id of an owned event.
  have hne {t : JsString} {i : JsString} (ht : isOwnedId t = false) (hi : isOwnedId i = true) :
      t ≠ i := by
    rintro rfl
    rw [hi] at ht
    cases ht
  rw [markerKey, markerKey] at h
  split at h
  · next hid =>
    split at h
    · obtain ⟨rfl, hids⟩ := hcut h
      obtain ⟨rfl, htopics⟩ := enc_append_inj hids
      obtain ⟨rfl, hconsumers⟩ := enc_append_inj htopics
      exact ⟨rfl, rfl, enc_injective hconsumers, rfl⟩
    · exact absurd (enc_append_inj (hcut h).2).1.symm (hne ht' hid)
  · split at h
    · next hid' => exact absurd (enc_append_inj (hcut h).2).1 (hne ht hid')
    · obtain ⟨rfl, htopics⟩ := hcut h
      obtain ⟨rfl, hconsumers⟩ := enc_append_inj htopics
      obtain ⟨rfl, hids⟩ := enc_append_inj hconsumers
      exact ⟨rfl, rfl, rfl, enc_injective hids⟩

end Gnldev.Events
