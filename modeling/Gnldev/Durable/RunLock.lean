import Gnldev.Durable.Journal
import Gnldev.Lib.Kv
import Gnldev.Lib.Protocol

/-!
# The run lock

An advisory lock on a run (`run-lock.ts`), kept as one record in the journal:
its owner, when it expires, and the *fencing token* of the acquisition that wrote
it. An acquisition inserts the record, or takes over one that has expired, by
comparing and swapping the record it read; renewing and releasing are
compare-and-swaps too, made only by the acquisition whose token is in the record.
-/

namespace Gnldev.Durable

/-- The record of a lock. -/
structure LockRecord where
  owner : JsString
  expires : Int
  /-- The identity of the acquisition. -/
  token : JsString
  deriving DecidableEq

/-- A handle on an acquired lock. -/
structure RunLock where
  runId : JsString
  owner : JsString
  token : JsString
  deriving DecidableEq

/-- The key of the lock of a run. -/
def lockKey (runId : JsString) : JsString := runId ++ js ":lock"

section Source

variable {m : Type → Type} [Monad m] (journal : Journal m LockRecord)

/-- The acquisition at the time `at_`. -/
def acquireRunLockAt (runId owner : JsString) (ttlMs : Int) (token : JsString) (at_ : Int) :
    m (Option RunLock) := do
  let key := lockKey runId
  let rec_ : LockRecord := ⟨owner, at_ + ttlMs, token⟩
  let lock : RunLock := ⟨runId, owner, token⟩
  if ← claim journal key rec_ then return some lock
  match ← journal.get key with
  | none =>
    -- The claim was lost but the record is gone: once more.
    return if ← claim journal key rec_ then some lock else none
  | some cur =>
    if cur.expires ≥ at_ then return none
    match journal.putIfMatch with
    | some putIfMatch => return if ← putIfMatch key cur rec_ then some lock else none
    | none =>
      journal.put key rec_
      return some lock

/-- Acquire the lock: a handle if it is free or has expired, nothing while
    someone else's is live. The token is a fresh one (`randomUUID`). -/
def acquireRunLock (runId owner : JsString) (ttlMs : Int) (now : Option Int) (token : JsString) :
    m (Option RunLock) := do
  let at_ ← match now with
    | some t => pure t
    | none => journal.now
  acquireRunLockAt journal runId owner ttlMs token at_

/-- Extend the lock by `ttlMs` from now, if the record still carries our token. -/
def RunLock.renew (lock : RunLock) (ttlMs : Int) : m Bool := do
  let key := lockKey lock.runId
  match ← journal.get key with
  | none => return false
  | some cur =>
    if cur.token ≠ lock.token then return false
    let at_ ← journal.now
    let next : LockRecord := ⟨lock.owner, at_ + ttlMs, lock.token⟩
    match journal.putIfMatch with
    | some putIfMatch => putIfMatch key cur next
    | none =>
      journal.put key next
      return true

/-- One attempt after another at replacing our record by a dead one. -/
def RunLock.releaseLoop (lock : RunLock) : ℕ → m Unit
  | 0 => return ()
  | attempts + 1 => do
    let key := lockKey lock.runId
    match ← journal.get key with
    | none => return ()
    | some cur =>
      if cur.token ≠ lock.token then return ()
      let dead : LockRecord := ⟨lock.owner, 0, lock.token⟩
      match journal.putIfMatch with
      | some putIfMatch =>
        if ← putIfMatch key cur dead then return ()
        lock.releaseLoop attempts
      | none => journal.put key dead

/-- Release the lock, by moving its expiry into the past: at most three attempts. -/
def RunLock.release (lock : RunLock) : m Unit := lock.releaseLoop journal 3

end Source

/-! ## Callers on one run -/

/-- What the callers perform: an operation on the journal, or reading its clock. -/
inductive LockOp where
  | kv (o : KvOp JsString LockRecord)
  | now

/-- The answers. -/
abbrev LockOp.Res : LockOp → Type
  | kv o => o.Res
  | now => Int

/-- The journal, and its clock. -/
structure LockWorld where
  clock : Int
  kv : Kv JsString LockRecord

/-- The journal with atomic operations and one clock, which does not go back. -/
def lockMachine : Machine LockOp LockOp.Res LockWorld Unit ℕ where
  exec i _
    | .kv o, w => let (r, s) := w.kv.exec i w.clock o; (r, { w with kv := s })
    | .now, w => (w.clock, w)
  env n w := { w with clock := w.clock + n }

/-- The journal as the callers see it. -/
def lockJournal : Journal (Prog LockOp LockOp.Res) LockRecord where
  get k := Prog.perform (LockOp.kv (.get k))
  put k v := Prog.perform (LockOp.kv (.put k v))
  putIfAbsent := some fun k v => Prog.perform (LockOp.kv (.putIfAbsent k v))
  putIfMatch := some fun k e v => Prog.perform (LockOp.kv (.putIfMatch k e v))
  now := Prog.perform LockOp.now

/-- A call: an acquisition, with the fresh token it draws, or the use of a handle
    (by its holder, or by one that has been superseded). -/
inductive LockCall where
  | acquire (owner : JsString) (ttlMs : Int) (now : Option Int) (token : JsString)
  | renew (owner token : JsString) (ttlMs : Int)
  | release (owner token : JsString)

/-- The token of the handle a call uses. -/
def LockCall.handle : LockCall → Option JsString
  | acquire .. => none
  | renew _ token _ => some token
  | release _ token => some token

/-- What a call returns. -/
inductive LockReply where
  | handle (lock : Option RunLock)
  | renewed (ok : Bool)
  | released

variable (runId : JsString)

/-- The program of a call. -/
def LockCall.prog : LockCall → Prog LockOp LockOp.Res LockReply
  | acquire owner ttlMs now token =>
    .handle <$> acquireRunLock lockJournal runId owner ttlMs now token
  | renew owner token ttlMs => .renewed <$> RunLock.renew lockJournal ⟨runId, owner, token⟩ ttlMs
  | release owner token => (fun _ => .released) <$> RunLock.release lockJournal ⟨runId, owner, token⟩

/-- The callers before any of them has run, on a journal without the lock. -/
def lockStart (calls : ℕ → LockCall) (t : Int) : Conf LockOp LockOp.Res LockReply LockWorld :=
  ⟨⟨t, Kv.empty⟩, fun i => (calls i).prog runId⟩

end Gnldev.Durable
