import Gnldev.Durable.RunLock

/-!
# The run lock excludes

Any number of acquisitions, renewals and releases on one run, in any
interleaving. The protocol of the calls (`LockCall.Step`) keeps what a call has
read until it swaps it: an acquisition only replaces a record that had expired by
its own time, and a renewal or a release only one carrying its own token. So every
write of the history is justified by the record it replaced (`Justified`), and
the leases the handles believe in are disjoint in time.

* `LockSafe`: the guarantees of the lock, on the history of its record;
* `runLock_safe`: they hold after every run in which the times handed to the
  acquisitions are those of the journal's clock (`OneClock`).
-/

namespace Gnldev.Durable

open Function

variable (runId : JsString)

/-- How far a call is, and what it holds. -/
inductive LockPhase where
  | start
  /-- An acquisition at the time `t`. -/
  | timed (t : Int)
  /-- An acquisition at the time `t` has read the expired record `cur`. -/
  | expired (t : Int) (cur : LockRecord)
  /-- A handle has read the record `cur` carrying its token. -/
  | own (cur : LockRecord)
  /-- A renewal at the time `t` has read `cur` before. -/
  | renewing (cur : LockRecord) (t : Int)
  /-- The call returns, having written or not. -/
  | done (wrote : Bool)

/-- The protocol of a call. -/
inductive LockCall.Step : LockCall → LockPhase → (o : LockOp) → o.Res → LockPhase → Prop
  | now {owner ttlMs token t} :
    Step (.acquire owner ttlMs none token) .start .now t (.timed t)
  | claim {owner ttlMs now token t won} :
    Step (.acquire owner ttlMs now token) (.timed t)
      (.kv (.putIfAbsent (lockKey runId) ⟨owner, t + ttlMs, token⟩)) won
      (if won then .done true else .timed t)
  | gone {owner ttlMs now token t} :
    Step (.acquire owner ttlMs now token) (.timed t) (.kv (.get (lockKey runId))) none (.timed t)
  | live {owner ttlMs now token t cur} : t ≤ cur.expires →
    Step (.acquire owner ttlMs now token) (.timed t) (.kv (.get (lockKey runId))) (some cur)
      (.done false)
  | expired {owner ttlMs now token t cur} : cur.expires < t →
    Step (.acquire owner ttlMs now token) (.timed t) (.kv (.get (lockKey runId))) (some cur)
      (.expired t cur)
  | takeOver {owner ttlMs now token t cur won} : cur.expires < t →
    Step (.acquire owner ttlMs now token) (.expired t cur)
      (.kv (.putIfMatch (lockKey runId) cur ⟨owner, t + ttlMs, token⟩)) won (.done won)
  | stale {c r} : Step c .start (.kv (.get (lockKey runId))) r (.done false)
  | ours {c cur} : c.handle = some cur.token →
    Step c .start (.kv (.get (lockKey runId))) (some cur) (.own cur)
  | renewAt {owner token ttlMs cur t} :
    Step (.renew owner token ttlMs) (.own cur) .now t (.renewing cur t)
  | renew {owner token ttlMs cur t won} : cur.token = token →
    Step (.renew owner token ttlMs) (.renewing cur t)
      (.kv (.putIfMatch (lockKey runId) cur ⟨owner, t + ttlMs, token⟩)) won (.done won)
  | release {owner token cur won} : cur.token = token →
    Step (.release owner token) (.own cur)
      (.kv (.putIfMatch (lockKey runId) cur ⟨owner, 0, token⟩)) won
      (if won then .done true else .start)

/-- Where a call starts. -/
def LockCall.phase : LockCall → LockPhase
  | acquire _ _ (some t) _ => .timed t
  | _ => .start

/-- An acquisition returns its handle exactly when it has written the record. -/
def Acquired (owner token : JsString) (ph : LockPhase) (lock : Option RunLock) : Prop :=
  (ph = .done true ∧ lock = some ⟨runId, owner, token⟩) ∨ (ph ≠ .done true ∧ lock = none)

/-- What a call returns, by its phase. -/
def LockCall.Replies : LockCall → LockPhase → LockReply → Prop
  | acquire owner _ _ token, ph, reply =>
    ∃ lock, reply = .handle lock ∧ Acquired runId owner token ph lock
  | _, _, _ => True

/-! ## The calls follow the protocol -/

section Follows

open Prog LockCall

variable {runId} {owner token : JsString} {ttlMs : Int}

theorem acquireRunLockAt_follows (now : Option Int) (t : Int) :
    (acquireRunLockAt lockJournal runId owner ttlMs token t).Follows
      ((acquire owner ttlMs now token).Step runId) (.timed t)
      (Acquired runId owner token) := by
  intro won
  refine ⟨_, .claim, ?_⟩
  cases won with
  | true => exact .inl ⟨rfl, rfl⟩
  | false =>
    rintro (_ | cur)
    · refine ⟨_, .gone, fun won => ⟨_, .claim, ?_⟩⟩
      cases won <;> simp [Acquired]
    · by_cases hcur : t ≤ cur.expires
      · refine ⟨_, .live hcur, ?_⟩
        simp [hcur, Acquired]
      · have hexp : cur.expires < t := Int.not_le.1 hcur
        refine ⟨_, .expired hexp, ?_⟩
        simp only [Prog.bind, ge_iff_le, if_neg hcur]
        refine fun won => ⟨_, .takeOver hexp, ?_⟩
        cases won <;> simp [Acquired]

theorem acquireRunLock_follows (now : Option Int) :
    (acquireRunLock lockJournal runId owner ttlMs now token).Follows
      ((acquire owner ttlMs now token).Step runId) (acquire owner ttlMs now token).phase
      (Acquired runId owner token) := by
  cases now with
  | some t => exact acquireRunLockAt_follows _ t
  | none => exact fun t => ⟨_, .now, acquireRunLockAt_follows _ t⟩

theorem renew_follows :
    (RunLock.renew lockJournal ⟨runId, owner, token⟩ ttlMs).Follows
      ((renew owner token ttlMs).Step runId) .start fun _ _ => True := by
  rintro (_ | cur)
  · exact ⟨_, .stale, trivial⟩
  · by_cases hcur : cur.token = token
    · refine ⟨_, .ours (by simp [handle, hcur]), ?_⟩
      simp only [Prog.bind, hcur, ne_eq, not_true_eq_false, if_false]
      refine fun t => ⟨_, .renewAt, fun won => ⟨_, .renew hcur, trivial⟩⟩
    · refine ⟨_, .stale, ?_⟩
      simp [hcur]

/-- Every attempt at releasing starts over. -/
theorem releaseLoop_follows (attempts : ℕ) :
    (RunLock.releaseLoop lockJournal ⟨runId, owner, token⟩ attempts).Follows
      ((release owner token).Step runId) .start fun _ _ => True := by
  induction attempts with
  | zero => trivial
  | succ attempts ih =>
    rintro (_ | cur)
    · exact ⟨_, .stale, trivial⟩
    · by_cases hcur : cur.token = token
      · refine ⟨_, .ours (by simp [handle, hcur]), ?_⟩
        simp only [Prog.bind, hcur, ne_eq, not_true_eq_false, if_false]
        refine fun won => ⟨_, .release hcur, ?_⟩
        cases won with
        | true => trivial
        | false => exact ih
      · refine ⟨_, .stale, ?_⟩
        simp [hcur]

/-- Every call follows its protocol. -/
theorem prog_follows (c : LockCall) :
    (c.prog runId).Follows (c.Step runId) c.phase (c.Replies runId) := by
  cases c with
  | acquire owner ttlMs now token =>
    exact (acquireRunLock_follows now).bind fun ph lock h => ⟨lock, rfl, h⟩
  | renew owner token ttlMs => exact renew_follows.bind fun _ _ _ => trivial
  | release owner token => exact (releaseLoop_follows 3).bind fun _ _ _ => trivial

end Follows

/-! ## The history of the record -/

/-- The time an acquisition is handed by its caller, if any. -/
def LockCall.time : LockCall → Option Int
  | acquire _ _ now _ => now
  | _ => none

/-- A write is justified by the record it replaced: an acquisition inserts the
    record or replaces one expired at its own time, a handle replaces a record
    with its own token. -/
structure Justified (calls : ℕ → LockCall) (wr : Write JsString LockRecord) : Prop where
  acquired : ∀ owner ttlMs now token, calls wr.tid = .acquire owner ttlMs now token →
    ∃ at_ : Int, (∀ t, now = some t → at_ = t) ∧ at_ ≤ wr.time ∧
      wr.new = ⟨owner, at_ + ttlMs, token⟩ ∧ ∀ cur, wr.old = some cur → cur.expires < at_
  kept : ∀ token, (calls wr.tid).handle = some token →
    wr.new.token = token ∧ ∃ cur, wr.old = some cur ∧ cur.token = token

/-- The token of the last acquisition that succeeded. -/
def lastAcquired (calls : ℕ → LockCall) : List (Write JsString LockRecord) → Option JsString
  | [] => none
  | wr :: log =>
    match calls wr.tid with
    | .acquire _ _ _ token => some token
    | _ => lastAcquired calls log

/-- The lease of a handle: until when the last record with its token is valid. -/
def leaseOf : List (Write JsString LockRecord) → JsString → Option Int
  | [], _ => none
  | wr :: log, token => if wr.new.token = token then some wr.new.expires else leaseOf log token

section History

variable {runId} {calls : ℕ → LockCall} {log : List (Write JsString LockRecord)} {clock : Int}

/-- A write that changes the token of the record is an acquisition of an expired one. -/
theorem Justified.superseded {wr : Write JsString LockRecord} (h : Justified calls wr)
    {cur : LockRecord} (hold : wr.old = some cur) (hne : cur.token ≠ wr.new.token) :
    cur.expires < wr.time := by
  cases hc : (calls wr.tid).handle with
  | some token =>
    obtain ⟨hnew, cur', hold', htok⟩ := h.kept token hc
    rw [hold, Option.some.injEq] at hold'
    rw [hold', htok, hnew] at hne
    exact absurd rfl hne
  | none =>
    cases hcall : calls wr.tid with
    | acquire owner ttlMs now token =>
      obtain ⟨at_, -, hat, -, hexp⟩ := h.acquired _ _ _ _ hcall
      exact Int.lt_of_lt_of_le (hexp cur hold) hat
    | renew => rw [hcall] at hc; cases hc
    | release => rw [hcall] at hc; cases hc

variable (hkey : ∀ wr ∈ log, wr.key = lockKey runId) (hco : Kv.Coherent log)
  (hj : ∀ wr ∈ log, Justified calls wr)
include hkey hco hj

/-- The record carries the token of the last acquisition. -/
theorem valueOf_token :
    (Kv.valueOf log (lockKey runId)).map (·.token) = lastAcquired calls log := by
  induction log with
  | nil => rfl
  | cons wr log ih =>
    have ih := ih (fun w h => hkey w (.tail _ h)) hco.2 (fun w h => hj w (.tail _ h))
    have hk := hkey wr (.head _)
    have hwr := hj wr (.head _)
    have hold := hco.1
    rw [hk] at hold
    rw [Kv.valueOf, if_pos hk, lastAcquired]
    cases hc : calls wr.tid with
    | acquire owner ttlMs now token =>
      obtain ⟨at_, -, -, hnew, -⟩ := hwr.acquired _ _ _ _ hc
      rw [hnew]
      rfl
    -- A handle's write keeps the token, so that the one before it decides.
    | renew owner token ttlMs =>
      obtain ⟨hnew, cur, hcur, htok⟩ := hwr.kept token (by rw [hc]; rfl)
      rw [← hold, hcur, Option.map_some, htok] at ih
      simp [← ih, hnew]
    | release owner token =>
      obtain ⟨hnew, cur, hcur, htok⟩ := hwr.kept token (by rw [hc]; rfl)
      rw [← hold, hcur, Option.map_some, htok] at ih
      simp [← ih, hnew]

/-- Only the lease of the record's token can be live. -/
theorem leaseOf_lt (hpast : ∀ wr ∈ log, wr.time ≤ clock) {a : JsString} {e : Int}
    (ha : leaseOf log a = some e)
    (hcur : (Kv.valueOf log (lockKey runId)).map (·.token) ≠ some a) : e < clock := by
  induction log with
  | nil => cases ha
  | cons wr log ih =>
    have hk := hkey wr (.head _)
    have hold := hco.1
    rw [hk] at hold
    rw [Kv.valueOf, if_pos hk, Option.map_some, ne_eq, Option.some.injEq] at hcur
    rw [leaseOf, if_neg hcur] at ha
    by_cases hlast : (Kv.valueOf log (lockKey runId)).map (·.token) = some a
    · -- The write superseded the token `a`: its lease had expired.
      rw [← hold] at hlast
      obtain ⟨cur, hcur', rfl⟩ := Option.map_eq_some_iff.1 hlast
      have hlt := (hj wr (.head _)).superseded hcur' (Ne.symm hcur)
      have he : e = cur.expires := by
        cases log with
        | nil => cases ha
        | cons wr' log' =>
          rw [hold, Kv.valueOf, if_pos (hkey wr' (.tail _ (.head _))), Option.some.injEq] at hcur'
          rw [leaseOf, if_pos (by rw [hcur']), Option.some.injEq, hcur'] at ha
          exact ha.symm
      rw [he]
      exact Int.lt_of_lt_of_le hlt (hpast wr (.head _))
    · exact ih (fun w h => hkey w (.tail _ h)) hco.2 (fun w h => hj w (.tail _ h))
        (fun w h => hpast w (.tail _ h)) ha hlast

end History

/-! ## The invariant -/

/-- Acquisitions that are handed a time are handed one the clock has reached:
    there is one clock. -/
def OneClock (calls : ℕ → LockCall) (w : LockWorld) (i : ℕ) (o : LockOp) (_ : o.Res) : Prop :=
  ∀ t, (calls i).time = some t → t ≤ w.clock

/-- The time `t` of the call `c`: the one it was handed, or a reading of the clock. -/
def LockCall.At (c : LockCall) (clock t : Int) : Prop :=
  (∀ t', c.time = some t' → t = t') ∧ (c.time = none → t ≤ clock)

/-- The time of an acquisition, once it has one. -/
def LockPhase.time : LockPhase → Option Int
  | timed t => some t
  | expired t _ => some t
  | _ => none

/-- The invariant between the journal and the phases of the calls. -/
structure LockInv (calls : ℕ → LockCall) (w : LockWorld) (ph : ℕ → LockPhase) : Prop where
  linked : w.kv.Linked
  key : ∀ wr ∈ w.kv.log, wr.key = lockKey runId
  justified : ∀ wr ∈ w.kv.log, Justified calls wr
  past : ∀ wr ∈ w.kv.log, wr.time ≤ w.clock
  wrote : ∀ i, ph i = .done true ↔ ∃ wr ∈ w.kv.log, wr.tid = i
  time : ∀ i t, (ph i).time = some t → (calls i).At w.clock t

namespace LockInv

variable {runId} {calls : ℕ → LockCall} {w : LockWorld} {ph : ℕ → LockPhase} {i : ℕ}

theorem init (t : Int) : LockInv runId calls ⟨t, Kv.empty⟩ fun i => (calls i).phase where
  linked := Kv.linked_empty
  key _ h := by cases h
  justified _ h := by cases h
  past _ h := by cases h
  wrote i := by
    refine ⟨fun h => ?_, fun ⟨_, h, _⟩ => by cases h⟩
    unfold LockCall.phase at h
    split at h <;> cases h
  time i t h := by
    unfold LockCall.phase at h
    split at h
    · next hc =>
      rw [hc]
      cases h
      exact ⟨fun t' h' => Option.some.inj h', fun h' => by cases h'⟩
    · cases h

/-- A step that writes nothing. -/
theorem skip (h : LockInv runId calls w ph) {s : LockPhase} (hold : ph i ≠ .done true)
    (hnew : s ≠ .done true) (hs : ∀ t, s.time = some t → (calls i).At w.clock t) :
    LockInv runId calls w (update ph i s) where
  linked := h.linked
  key := h.key
  justified := h.justified
  past := h.past
  wrote j := by
    by_cases hj : j = i
    · subst hj
      rw [update_self, ← h.wrote j]
      exact ⟨fun e => absurd e hnew, fun e => absurd e hold⟩
    · rw [update_of_ne hj, h.wrote j]
  time j := by
    by_cases hj : j = i
    · subst hj
      rwa [update_self]
    · rw [update_of_ne hj]
      exact h.time j

/-- A step that writes the record. -/
theorem write (h : LockInv runId calls w ph) {v : LockRecord}
    (hv : Justified calls ⟨i, lockKey runId, w.kv.val (lockKey runId), v, w.clock⟩) :
    LockInv runId calls { w with kv := w.kv.set i w.clock (lockKey runId) v }
      (update ph i (.done true)) where
  linked := h.linked.set ..
  key := by simpa using h.key
  justified := by simpa using ⟨hv, h.justified⟩
  past := by simpa using h.past
  wrote j := by
    by_cases hj : j = i
    · subst hj
      simp
    · have hji : i ≠ j := Ne.symm hj
      rw [update_of_ne hj, h.wrote j]
      simp [hji]
  time j := by
    by_cases hj : j = i
    · subst hj
      rw [update_self]
      intro t ht
      cases ht
    · rw [update_of_ne hj]
      exact h.time j

/-- The clock moves on. -/
theorem tick (h : LockInv runId calls w ph) (n : ℕ) :
    LockInv runId calls { w with clock := w.clock + n } ph where
  linked := h.linked
  key := h.key
  justified := h.justified
  past wr hwr := by
    have := h.past wr hwr
    show wr.time ≤ w.clock + n
    omega
  wrote := h.wrote
  time j t ht := by
    refine ⟨(h.time j t ht).1, fun hn => ?_⟩
    have := (h.time j t ht).2 hn
    show t ≤ w.clock + n
    omega

/-- With one clock, an acquisition's time is not ahead of it. -/
theorem time_le (h : LockInv runId calls w ph) {t : Int} (ht : (ph i).time = some t)
    (hok : ∀ t, (calls i).time = some t → t ≤ w.clock) : t ≤ w.clock := by
  obtain ⟨hsome, hnone⟩ := h.time i t ht
  cases hc : (calls i).time with
  | none => exact hnone hc
  | some t' =>
    rw [hsome t' hc]
    exact hok t' hc

/-- An acquisition's write over an absent or expired record is justified. -/
theorem justified_acquire (h : LockInv runId calls w ph) {owner token : JsString} {ttlMs t : Int}
    {now : Option Int} (hc : calls i = .acquire owner ttlMs now token)
    (ht : (ph i).time = some t) (hok : ∀ t, (calls i).time = some t → t ≤ w.clock)
    (hold : ∀ cur, w.kv.val (lockKey runId) = some cur → cur.expires < t) :
    Justified calls ⟨i, lockKey runId, w.kv.val (lockKey runId), ⟨owner, t + ttlMs, token⟩,
      w.clock⟩ where
  acquired owner' ttlMs' now' token' hc' := by
    have he : LockCall.acquire owner ttlMs now token = .acquire owner' ttlMs' now' token' :=
      hc.symm.trans hc'
    cases he
    have hat := (h.time i t ht).1
    rw [hc] at hat
    exact ⟨t, hat, h.time_le ht hok, rfl, hold⟩
  kept token' hh := by
    have hh : (calls i).handle = some token' := hh
    rw [hc] at hh
    cases hh

/-- A handle's write over a record with its token is justified. -/
theorem justified_handle {v cur : LockRecord} (hc : (calls i).handle = some cur.token)
    (hold : w.kv.val (lockKey runId) = some cur) (hv : v.token = cur.token) :
    Justified calls ⟨i, lockKey runId, w.kv.val (lockKey runId), v, w.clock⟩ where
  acquired owner ttlMs now token hc' := by
    have hc' : calls i = .acquire owner ttlMs now token := hc'
    rw [hc'] at hc
    cases hc
  kept token hh := by
    have hh : some cur.token = some token := hc.symm.trans hh
    cases hh
    exact ⟨hv, cur, hold, rfl⟩

/-- A compare-and-swap of the record. -/
theorem putIfMatch (h : LockInv runId calls w ph) {cur v : LockRecord} {won : Bool}
    {s : LockPhase} (hp : ph i ≠ .done true)
    (hr : (lockMachine.exec i () (.kv (.putIfMatch (lockKey runId) cur v)) w).1 = won)
    (hv : w.kv.val (lockKey runId) = some cur →
      Justified calls ⟨i, lockKey runId, w.kv.val (lockKey runId), v, w.clock⟩)
    (hs : if won then s = .done true else s ≠ .done true ∧ s.time = none) :
    LockInv runId calls (lockMachine.exec i () (.kv (.putIfMatch (lockKey runId) cur v)) w).2
      (update ph i s) := by
  by_cases hcur : w.kv.val (lockKey runId) = some cur
  · simp only [lockMachine, Kv.exec, hcur, if_true] at hr ⊢
    rw [← hr, if_pos rfl] at hs
    rw [hs]
    exact h.write (hv hcur)
  · simp only [lockMachine, Kv.exec, hcur, if_false] at hr ⊢
    rw [← hr, if_neg (by simp)] at hs
    exact h.skip hp hs.1 (by simp [hs.2])

/-- Every step of the protocol keeps the invariant. -/
theorem step (h : LockInv runId calls w ph) {o : LockOp} {s : LockPhase}
    (hs : (calls i).Step runId (ph i) o (lockMachine.exec i () o w).1 s)
    (hok : OneClock calls w i o (lockMachine.exec i () o w).1) :
    LockInv runId calls (lockMachine.exec i () o w).2 (update ph i s) := by
  generalize hr : (lockMachine.exec i () o w).1 = r at hs
  generalize hp : ph i = p at hs
  generalize hc : calls i = c at hs
  have hok : ∀ t, (calls i).time = some t → t ≤ w.clock := hok
  cases hs with
  | now =>
    refine h.skip (by simp [hp]) (by simp) fun t' ht' => ?_
    cases ht'
    cases hr
    rw [hc]
    exact ⟨fun t' h' => (by cases h'), fun _ => Int.le_refl _⟩
  | @claim owner ttlMs now token t =>
    have ht : (ph i).time = some t := by rw [hp]; rfl
    by_cases hv : w.kv.val (lockKey runId) = none
    · simp only [lockMachine, Kv.exec, hv, if_true] at hr ⊢
      subst hr
      exact h.write (h.justified_acquire hc ht hok (by simp [hv]))
    · simp only [lockMachine, Kv.exec, hv, if_false] at hr ⊢
      subst hr
      exact h.skip (by simp [hp]) (by simp) (by simpa [hp] using h.time i)
  | gone => exact h.skip (by simp [hp]) (by simp) (by simpa [hp] using h.time i)
  | live hcur => exact h.skip (by simp [hp]) (by simp) (by simp [LockPhase.time])
  | expired hcur =>
    exact h.skip (by simp [hp]) (by simp) (by simpa [hp, LockPhase.time] using h.time i)
  | @takeOver owner ttlMs now token t cur won hcur =>
    have ht : (ph i).time = some t := by rw [hp]; rfl
    exact h.putIfMatch (by simp [hp]) hr
      (fun hv => h.justified_acquire hc ht hok (by simp [hv, hcur]))
      (by cases won <;> simp [LockPhase.time])
  | stale => exact h.skip (by simp [hp]) (by simp) (by simp [LockPhase.time])
  | ours hcur => exact h.skip (by simp [hp]) (by simp) (by simp [LockPhase.time])
  | renewAt => exact h.skip (by simp [hp]) (by simp) (by simp [LockPhase.time])
  | @renew owner token ttlMs cur t won hcur =>
    exact h.putIfMatch (by simp [hp]) hr
      (fun hv => justified_handle (by rw [hc, ← hcur]; rfl) hv hcur.symm)
      (by cases won <;> simp [LockPhase.time])
  | @release owner token cur won hcur =>
    exact h.putIfMatch (by simp [hp]) hr
      (fun hv => justified_handle (by rw [hc, ← hcur]; rfl) hv hcur.symm)
      (by cases won <;> simp [LockPhase.time])

end LockInv

/-! ## Mutual exclusion -/

/-- The guarantees of the lock of the run `runId`, after a run of the calls. -/
structure LockSafe (calls : ℕ → LockCall) (c : Conf LockOp LockOp.Res LockReply LockWorld) :
    Prop where
  /-- The history has every write of the journal, and what it replaced. -/
  linked : c.world.kv.Linked
  /-- The record carries the token of the last successful acquisition. -/
  token : (c.world.kv.val (lockKey runId)).map (·.token) = lastAcquired calls c.world.kv.log
  /-- An acquisition succeeds only over no record or an expired one, and a
      handle writes only over a record with its token. -/
  justified : ∀ wr ∈ c.world.kv.log, Justified calls wr
  /-- The successful acquisitions are those that returned a handle. -/
  returned : ∀ i owner ttlMs now token, calls i = .acquire owner ttlMs now token →
    (c.procs i = .pure (.handle (some ⟨runId, owner, token⟩)) ↔ ∃ wr ∈ c.world.kv.log, wr.tid = i)
  /-- Of two handles, at most one has an unexpired lease. -/
  exclusive : ∀ a b ea eb, a ≠ b → leaseOf c.world.kv.log a = some ea →
    leaseOf c.world.kv.log b = some eb → ea < c.world.clock ∨ eb < c.world.clock

variable {runId} {calls : ℕ → LockCall}

/-- A call that has written has returned. -/
theorem pure_of_done {c : LockCall} {p : Prog LockOp LockOp.Res LockReply} {w : Bool}
    {Q : LockPhase → LockReply → Prop} (h : p.Follows (c.Step runId) (.done w) Q) :
    ∃ reply, p = .pure reply := by
  cases p with
  | pure reply => exact ⟨reply, rfl⟩
  | op o k =>
    -- No operation is allowed any more, whatever its answer would be.
    have r : o.Res := (lockMachine.exec 0 () o ⟨0, Kv.empty⟩).1
    obtain ⟨s', hs, -⟩ := h r
    cases hs

/-- **Mutual exclusion of the run lock.** After every run of any number of
    acquisitions, renewals and releases on one run, in any interleaving, the
    guarantees of the lock hold, if there is one clock. -/
theorem runLock_safe (calls : ℕ → LockCall) (t : Int) (ms : List (Move Unit ℕ))
    (hms : lockMachine.Meets (OneClock calls) (lockStart runId calls t) ms) :
    LockSafe runId calls (lockMachine.play (lockStart runId calls t) ms) := by
  obtain ⟨ph, hJ, hf⟩ := Machine.play_follows (M := lockMachine) (J := LockInv runId calls)
    (fun w ph i _ o s' hJ hs hok => hJ.step hs hok) (fun w ph n hJ => hJ.tick n)
    (LockInv.init t) (fun i => prog_follows (calls i)) hms
  generalize lockMachine.play (lockStart runId calls t) ms = c at hJ hf ⊢
  have hval : c.world.kv.val (lockKey runId) = Kv.valueOf c.world.kv.log (lockKey runId) :=
    congrFun hJ.linked.val _
  refine ⟨hJ.linked, ?_, hJ.justified, fun i owner ttlMs now token hi => ?_,
    fun a b ea eb hab ha hb => ?_⟩
  · rw [hval]
    exact valueOf_token hJ.key hJ.linked.coherent hJ.justified
  · rw [← hJ.wrote i]
    have hfi := hf i
    rw [hi] at hfi
    constructor
    · intro hlock
      rw [hlock] at hfi
      obtain ⟨_, hh, ⟨hdone, -⟩ | ⟨-, hnone⟩⟩ := hfi
      · exact hdone
      · rw [hnone] at hh
        cases hh
    · intro hdone
      rw [hdone] at hfi
      obtain ⟨reply, hreply⟩ := pure_of_done hfi
      rw [hreply] at hfi ⊢
      obtain ⟨_, rfl, ⟨-, rfl⟩ | ⟨hne, -⟩⟩ := hfi
      · rfl
      · exact absurd rfl hne
  · have hlt := fun {d e} =>
      leaseOf_lt hJ.key hJ.linked.coherent hJ.justified hJ.past (a := d) (e := e)
    by_cases hcur : (Kv.valueOf c.world.kv.log (lockKey runId)).map (·.token) = some a
    · right
      exact hlt hb (by rw [hcur]; simpa using hab)
    · left
      exact hlt ha hcur

/-- A takeover: the lock of the first caller expires, and the second one's
    acquisition, at a time the clock has reached, replaces it. -/
def takeover : ℕ → LockCall
  | 0 => .acquire (js "a") 10 none (js "1")
  | _ => .acquire (js "b") 10 (some 20) (js "2")

instance (calls : ℕ → LockCall) (w : LockWorld) (i : ℕ) (o : LockOp) (r : o.Res) :
    Decidable (OneClock calls w i o r) :=
  match h : (calls i).time with
  | none => isTrue fun t ht => by rw [h] at ht; cases ht
  | some t => decidable_of_iff (t ≤ w.clock) (by simp [OneClock, h])

theorem runLock_safe_takeover :
    let ms : List (Move Unit ℕ) :=
      [.run 0 (), .run 0 (), .env 20, .run 1 (), .run 1 (), .run 1 ()]
    lockMachine.Meets (OneClock takeover) (lockStart (js "r") takeover 0) ms ∧
      (lockMachine.play (lockStart (js "r") takeover 0) ms).world.kv.log.length = 2 ∧
      LockSafe (js "r") takeover (lockMachine.play (lockStart (js "r") takeover 0) ms) :=
  ⟨by decide, by decide, runLock_safe takeover 0 _ (by decide)⟩

end Gnldev.Durable
