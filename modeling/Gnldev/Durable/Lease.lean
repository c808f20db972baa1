import Gnldev.Durable.Journal
import Gnldev.Lib.Kv
import Gnldev.Lib.Protocol

/-!
# Leases

A *lease* on a piece of unattended work (`lease.ts`) is one record in the journal: who does the work,
and until when. An owner takes it if nobody has it, renews its own, and takes over one that has
expired; all but the first compare and swap the record that was read. It is given up early by
swapping in a record that has expired.

A read that fails counts as a read of nothing. A write may fail, too, before or after it took effect,
and then the call throws.
-/

namespace Gnldev.Durable

/-- Who has the lease, and until when; a record without a number there has no end. -/
structure Lease where
  owner : JsString
  expiresAt : Option Int
  deriving DecidableEq

section Source

variable {m : Type → Type} [Monad m] [MonadExceptOf Unit m] (journal : Journal m Lease)
  (key owner : JsString)

/-- `(await journal.get(key).catch(() => undefined)) ?? undefined`. -/
def currentLease : m (Option Lease) := tryCatchThe Unit (journal.get key) fun _ => return none

/-- Try to hold the lease for `ttlMs` from `now` on. -/
def acquireLease (ttlMs now : Int) : m Bool := do
  let next : Lease := ⟨owner, some (now + ttlMs)⟩
  match ← currentLease journal key with
  | none => claim journal key next
  | some cur =>
    match cur.expiresAt with
    | none => claim journal key next
    | some expiresAt =>
      if cur.owner ≠ owner ∧ expiresAt > now then return false
      -- Renewing and taking over are one operation.
      match journal.putIfMatch with
      | some putIfMatch => putIfMatch key cur next
      | none =>
        journal.put key next
        return true

/-- Give up the lease before its end. -/
def releaseLease : m Unit := do
  match ← currentLease journal key with
  | none => return ()
  | some cur =>
    if cur.owner ≠ owner then return ()
    match journal.putIfMatch with
    | some putIfMatch => let _ ← putIfMatch key cur ⟨owner, some 0⟩
    | none => journal.put key ⟨owner, some 0⟩

end Source

/-! ## Callers of one lease -/

/-- An operation on the journal may fail. -/
abbrev LeaseRes (o : KvOp JsString Lease) : Type := Except Unit o.Res

abbrev LeaseM : Type → Type := ExceptT Unit (Prog (KvOp JsString Lease) LeaseRes)

/-- How the journal answers: as it should, or it fails before the operation, or after it. -/
inductive LeaseAnswer where
  | answers | fails | failsAfter
  deriving DecidableEq

/-- The journal, and the clock the callers read, up to their skew. -/
structure LeaseWorld where
  clock : Int
  kv : Kv JsString Lease

/-- The journal with atomic operations. -/
def leaseMachine : Machine (KvOp JsString Lease) LeaseRes LeaseWorld LeaseAnswer ℕ where
  exec i a o w :=
    match a with
    | .answers => (.ok (w.kv.exec i w.clock o).1, { w with kv := (w.kv.exec i w.clock o).2 })
    | .fails => (.error (), w)
    | .failsAfter => (.error (), { w with kv := (w.kv.exec i w.clock o).2 })
  env n w := { w with clock := w.clock + n }

/-- An operation, as a program that may throw. -/
def performLease (o : KvOp JsString Lease) : LeaseM o.Res := ExceptT.mk (Prog.perform o)

/-- The journal as the callers see it. -/
def leaseJournal : Journal LeaseM Lease where
  get k := performLease (.get k)
  put k v := performLease (.put k v)
  putIfAbsent := some fun k v => performLease (.putIfAbsent k v)
  putIfMatch := some fun k e v => performLease (.putIfMatch k e v)
  now := return 0

/-- A call of an owner; an acquisition has read its time before. -/
inductive LeaseCall where
  | acquire (owner : JsString) (ttlMs now : Int)
  | release (owner : JsString)
  deriving DecidableEq

/-- Whose call it is. -/
def LeaseCall.owner : LeaseCall → JsString
  | acquire owner _ _ => owner
  | release owner => owner

/-- What a call returns. -/
inductive LeaseReply where
  | acquired (mayWork : Bool)
  | released
  deriving DecidableEq

variable (key : JsString)

/-- The program of a call. -/
def LeaseCall.prog : LeaseCall → LeaseM LeaseReply
  | acquire owner ttlMs now => .acquired <$> acquireLease leaseJournal key owner ttlMs now
  | release owner => (fun _ => .released) <$> releaseLease leaseJournal key owner

/-- The callers before any of them has run, on a journal without the lease. -/
def leaseStart (calls : ℕ → LeaseCall) (t : Int) :
    Conf (KvOp JsString Lease) LeaseRes (Except Unit LeaseReply) LeaseWorld :=
  ⟨⟨t, Kv.empty⟩, fun i => ((calls i).prog key).run⟩

end Gnldev.Durable
