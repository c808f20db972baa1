import Gnldev.Queue.Cursor
import Gnldev.Lib.Protocol

/-!
# The lease of a job

A worker looks for the markers of a job, then draws a token and takes the job's
lease, then writes the token under `qown`, starts the handler, swaps the token for
itself and writes the outcome. These are separate operations, so that anything can
happen in between; this module says in which order a call performs them (`Phase`,
`Step`), whatever the answers, and that every call of the queue does so
(`prog_follows`). What a call has seen of a job is so until a marker is written, and it
wins the lease of a job it has seen unmarked; so a lease of a finished job is won only if
the marker is written between the look and the win (`meets_winsUnmarked`).

The first consequence is about handlers. A worker that takes the lease does not
look for the markers again, so that it runs a job that has been finished since it
looked (`handler_after_done`). Handlers start on unfinished jobs only as long as no
lease of a finished job is won, and no worker whose lease has been taken over starts
the handler or writes a marker (`handler_before_marker`).
-/

namespace Gnldev.Queue

open Durable Function

variable {P : Type}

/-! ## Who holds a lease -/

/-- The key of the lease of a job. -/
def leaseKey (id : JsString) : JsString := lockKey (leaseOf id)

/-- The lock an event wins. -/
def QEvent.won : QEvent → Option JsString
  | acquired k _ _ => some k
  | _ => none

/-- The last win of a lock, by whom and with which token. -/
def lastWin (key : JsString) : List QEvent → Option (ℕ × JsString)
  | [] => none
  | .acquired k i token :: es => if k = key then some (i, token) else lastWin key es
  | .wrote .. :: es => lastWin key es
  | .swapped .. :: es => lastWin key es

/-- The call that won the lease of a job last. -/
def holder (id : JsString) (w : QWorld P) : Option ℕ := (lastWin (leaseKey id) w.trace).map (·.1)

/-- The id in the key of a lease. -/
def leaseKeyId (key : JsString) : JsString := (key.drop 4).take (key.length - 15)

@[simp] theorem leaseKeyId_leaseKey (id : JsString) : leaseKeyId (leaseKey id) = id := by
  have h : leaseKey id = js "job:" ++ (id ++ (js ":lease" ++ js ":lock")) := by
    simp [leaseKey, lockKey, leaseOf, runIdOf]
  have hlen : (js "job:").length = 4 ∧ (js ":lease" ++ js ":lock").length = 11 := by decide
  rw [leaseKeyId, h, List.drop_left' hlen.1]
  refine List.take_left' ?_
  simp only [List.length_append] at hlen ⊢
  omega

theorem leaseKey_inj {id id' : JsString} : leaseKey id = leaseKey id' ↔ id = id' := by
  refine ⟨fun h => ?_, congrArg _⟩
  rw [← leaseKeyId_leaseKey id, h, leaseKeyId_leaseKey]

variable {key : JsString} {es : List QEvent} {i : ℕ}

theorem lastWin_mem {token : JsString} (h : lastWin key es = some (i, token)) :
    .acquired key i token ∈ es := by
  induction es with
  | nil => cases h
  | cons e es ih =>
    cases e with
    | acquired k j t =>
      rw [lastWin] at h
      split at h
      · next hk =>
        cases h
        rw [hk]
        exact .head _
      · exact .tail _ (ih h)
    | wrote => exact .tail _ (ih h)
    | swapped => exact .tail _ (ih h)

theorem lastWin_isSome {token : JsString} (h : .acquired key i token ∈ es) :
    (lastWin key es).isSome := by
  induction es with
  | nil => cases h
  | cons e es ih =>
    cases e with
    | acquired k j t =>
      rw [lastWin]
      split
      · rfl
      · next hk =>
        rcases List.mem_cons.1 h with he | h
        · cases he
          exact absurd rfl hk
        · exact ih h
    | wrote => exact ih (by simpa using h)
    | swapped => exact ih (by simpa using h)

/-! ## The order of a call's operations -/

/-- How far a call is with a job. -/
inductive Phase where
  /-- It has no job, or enqueues one. -/
  | free
  /-- It has found no marker of the job under `qdone`, and then under both keys. -/
  | looked (id : JsString) (both : Bool)
  /-- It has drawn a token for the lease. -/
  | drew (id token : JsString)
  /-- It has won the lease. -/
  | leased (id token : JsString)
  /-- It has written its token under `qown`; it has started the handler, or will not. -/
  | owned (id token : JsString) (started : Bool)
  /-- The swap of its token has succeeded. -/
  | checked (id token : JsString)

/-- The keys written behind the check of the token. -/
def Guarded (id key : JsString) : Prop := key = qdone id ∨ key = qfail id ∨ key = qatt id

/-- Neither the stores nor the tokens know of the operation. -/
def QOp.Outside : QOp P → Prop
  | claimRunOwner _ => True
  | lockLost => True
  | dateNow => True
  | lock .now => True
  | lock (.kv (.get _)) => True
  | _ => False

/-- Looking for the markers of a job. -/
inductive Looks : Phase → JsString → Option JobValue → Phase → Prop
  | done {id v} : truthy v = false → Looks .free (qdone id) v (.looked id false)
  | fail {id v} : Looks (.looked id false) (qfail id) v (if truthy v then .free else .looked id true)

/-- The protocol of a call. -/
inductive Step : Phase → (o : QOp P) → o.Res → Phase → Prop
  | read {s o r} : o.writes (.attempts 1) = none → Step s (.work o) r s
  | look {s k v s'} : Looks s k v s' → Step s (.work (.get k)) v s'
  | outside {s o r} : o.Outside → Step s o r s
  | giveUp {id token k r} : Step (.drew id token) (.lock (.kv (.get k))) r .free
  | cursor {v} : Step .free (.work (.put QCURSOR v)) () .free
  | name {r} : Step .free .randomUUID r .free
  | draw {id r} : Step (.looked id true) .randomUUID r (.drew id r)
  | insert {id owner expires token won} :
    Step (.drew id token) (.lock (.kv (.putIfAbsent (leaseKey id) ⟨owner, expires, token⟩))) won
      (if won then .leased id token else .drew id token)
  | miss {id owner expires token} :
    Step (.drew id token) (.lock (.kv (.putIfAbsent (leaseKey id) ⟨owner, expires, token⟩))) false
      .free
  | takeOver {id cur owner expires token won} :
    Step (.drew id token) (.lock (.kv (.putIfMatch (leaseKey id) cur ⟨owner, expires, token⟩))) won
      (if won then .leased id token else .free)
  -- Renewing and releasing.
  | keep {s k cur v won} : cur.token = v.token →
    Step s (.lock (.kv (.putIfMatch k cur v))) won s
  | own {id token} :
    Step (.leased id token) (.work (.put (qown id) (.token token))) () (.owned id token false)
  | start {job token r} :
    Step (.owned job.id token false) (.handler job) r (.owned job.id token true)
  | check {id token started won} :
    Step (.owned id token started) (.work (.putIfMatch (qown id) (.token token) (.token token))) won
      (if won then .checked id token else .owned id token true)
  | write {id token k v} : Guarded id k →
    Step (.checked id token) (.work (.put k v)) () (.checked id token)

/-! ## The calls follow the protocol -/

section Follows

open Prog

variable {id token : JsString}

/-- A lease won gives its handle; without it the call is free again. -/
def Leased (id token : JsString) (s : Phase) (lock : Option RunLock) : Prop :=
  match lock with
  | none => s = .free
  | some lock => s = .leased id token ∧ lock.token = token

theorem acquireRunLock_follows (owner : JsString) (ttlMs : Int) :
    (acquireRunLock (qRuns (P := P)) (leaseOf id) owner ttlMs none token).Follows Step
      (.drew id token) (Leased id token) := by
  intro t
  refine ⟨_, .outside trivial, fun won => ?_⟩
  cases won with
  | true => exact ⟨_, .insert, rfl, rfl⟩
  | false =>
    refine ⟨_, .insert, ?_⟩
    rintro (_ | cur)
    · refine ⟨_, .outside trivial, fun won => ?_⟩
      cases won with
      | true => exact ⟨_, .insert, rfl, rfl⟩
      | false => exact ⟨_, .miss, rfl⟩
    · by_cases hcur : cur.expires ≥ t
      · refine ⟨_, .giveUp, ?_⟩
        simp only [Prog.bind, if_pos hcur]
        exact rfl
      · refine ⟨_, .outside trivial, ?_⟩
        simp only [Prog.bind, if_neg hcur]
        refine fun won => ⟨_, .takeOver, ?_⟩
        cases won with
        | true => exact ⟨rfl, rfl⟩
        | false => exact rfl

theorem renew_follows (lock : RunLock) (ttlMs : Int) (s : Phase) :
    (lock.renew (qRuns (P := P)) ttlMs).Follows Step s fun s' _ => s' = s := by
  rintro (_ | cur)
  · exact ⟨_, .outside trivial, rfl⟩
  · refine ⟨_, .outside trivial, ?_⟩
    by_cases hcur : cur.token = lock.token
    · simp only [Prog.bind, hcur, ne_eq, not_true_eq_false, if_false]
      exact fun t => ⟨_, .outside trivial, fun won => ⟨_, .keep hcur, rfl⟩⟩
    · simp only [Prog.bind, ne_eq, hcur, not_false_eq_true, if_true]
      exact rfl

theorem releaseLoop_follows (lock : RunLock) (attempts : ℕ) (s : Phase) :
    (lock.releaseLoop (qRuns (P := P)) attempts).Follows Step s fun s' _ => s' = s := by
  induction attempts with
  | zero => exact rfl
  | succ attempts ih =>
    rintro (_ | cur)
    · exact ⟨_, .outside trivial, rfl⟩
    · refine ⟨_, .outside trivial, ?_⟩
      by_cases hcur : cur.token = lock.token
      · simp only [Prog.bind, hcur, ne_eq, not_true_eq_false, if_false]
        refine fun won => ⟨_, .keep hcur, ?_⟩
        cases won with
        | true => exact rfl
        | false => exact ih
      · simp only [Prog.bind, ne_eq, hcur, not_false_eq_true, if_true]
        exact rfl

/-- The check answers yes in the phase that allows the guarded writes. -/
theorem stillOwns_follows (started : Bool) :
    (stillOwns (qStore (P := P)) id token).Follows Step (.owned id token started)
      fun s owns => owns = true → s = .checked id token := by
  intro lost
  refine ⟨_, .outside trivial, ?_⟩
  cases lost with
  | true => exact fun h => by cases h
  | false =>
    refine fun won => ⟨_, .check, fun h => ?_⟩
    rw [h]
    rfl

variable {opts : WorkerOptions} {job : LogRecord (JobRecord P)}

theorem failUnhandled_follows (started : Bool) :
    (failUnhandled qStore job token).Follows Step (.owned job.id token started)
      fun _ _ => True := by
  refine (stillOwns_follows started).bind fun s owns hs => ?_
  cases owns with
  | true =>
    rw [hs rfl]
    exact fun _ => ⟨_, .write (.inr (.inl rfl)), trivial⟩
  | false => trivial

theorem succeed_follows (started : Bool) :
    (succeed qStore job token).Follows Step (.owned job.id token started) fun _ _ => True := by
  refine (stillOwns_follows started).bind fun s owns hs => ?_
  cases owns with
  | true =>
    rw [hs rfl]
    exact fun _ => ⟨_, .outside trivial, fun _ => ⟨_, .write (.inl rfl), trivial⟩⟩
  | false => trivial

theorem failAttempt_follows (err : JsString) (started : Bool) :
    (failAttempt qStore opts job token err).Follows Step (.owned job.id token started)
      fun _ _ => True := by
  refine (stillOwns_follows started).bind fun s owns hs => ?_
  cases owns with
  | true =>
    rw [hs rfl]
    refine fun n => ⟨_, .read rfl, fun _ => ⟨_, .write (.inr (.inr rfl)), ?_⟩⟩
    simp only [Prog.bind]
    split
    · exact fun _ => ⟨_, .write (.inr (.inl rfl)), trivial⟩
    · trivial
  | false => trivial

theorem attempt_follows :
    (attempt qStore opts job token).Follows Step (.owned job.id token false) fun _ _ => True := by
  unfold attempt
  split
  · rintro (err | _)
    · exact ⟨_, .outside trivial, failAttempt_follows err false⟩
    · refine ⟨_, .outside trivial, ?_⟩
      rintro (err | _)
      · exact ⟨_, .start, failAttempt_follows err true⟩
      · exact ⟨_, .start, succeed_follows true⟩
  · exact failUnhandled_follows false

theorem runJob_follows {lock : RunLock} :
    (runJob qStore qRuns opts job lock).Follows Step (.leased job.id lock.token)
      fun _ _ => True := by
  refine fun _ => ⟨_, .own, ?_⟩
  refine attempt_follows.bind fun s _ _ => ?_
  exact (releaseLoop_follows lock 3 s).mono fun _ _ _ => trivial

/-- A scan that runs no job leaves the call free. -/
theorem scanItems_follows (items : List (LogRecord (JobRecord P))) (allTerminal : Bool) :
    (scanItems qStore qRuns opts items allTerminal).Follows Step .free
      fun s scan => ∀ all, scan = .passed all → s = .free := by
  induction items generalizing allTerminal with
  | nil => exact fun _ _ => rfl
  | cons job items ih =>
    intro done
    by_cases hdone : truthy done = true
    · refine ⟨_, .read rfl, ?_⟩
      simp only [Prog.bind, if_pos hdone]
      exact ih allTerminal
    · refine ⟨_, .look (.done (Bool.not_eq_true _ ▸ hdone)), ?_⟩
      simp only [Prog.bind, if_neg hdone]
      refine fun fail => ⟨_, .look .fail, ?_⟩
      simp only [Prog.bind]
      by_cases hfail : truthy fail = true
      · simp only [if_pos hfail]
        exact ih allTerminal
      · simp only [if_neg hfail]
        refine fun token => ⟨.drew job.id token, .draw, ?_⟩
        refine (acquireRunLock_follows opts.owner opts.ttlMs).bind fun s lock hs => ?_
        cases lock with
        | none =>
          rw [show s = .free from hs]
          exact ih false
        | some lock =>
          obtain ⟨rfl, rfl⟩ := hs
          exact runJob_follows.bind fun _ _ _ all h => by cases h

theorem scanPages_follows (fuel : ℕ) (cursor : Option ℕ) :
    (scanPages qStore qRuns opts fuel cursor).Follows (Step (P := P)) .free fun _ _ => True := by
  induction fuel generalizing cursor with
  | zero => trivial
  | succ fuel ih =>
    refine fun page => ⟨_, .read rfl, ?_⟩
    refine (scanItems_follows page.items true).bind fun s scan hs => ?_
    cases scan with
    | ran => trivial
    | passed allTerminal =>
      rw [hs _ rfl]
      simp only
      split
      · trivial
      · split
        · exact fun _ => ⟨_, .cursor, ih _⟩
        · exact ih _

theorem countFrom_follows (ns : JsString) (bound fuel count : ℕ) (cursor : Option ℕ) :
    (countFrom qStore ns bound fuel count cursor).Follows (Step (P := P)) .free
      fun s _ => s = .free := by
  induction fuel generalizing count cursor with
  | zero => exact rfl
  | succ fuel ih =>
    refine fun page => ⟨_, .read rfl, ?_⟩
    simp only [Prog.bind]
    split
    · exact rfl
    · split
      · exact rfl
      · exact ih _ _

theorem enqueueNamed_follows (rec_ : JobRecord P) (name : Option JsString) :
    (enqueueNamed qStore rec_ name).Follows Step .free fun _ _ => True := by
  have has : ∀ name, (enqueueAs qStore rec_ name).Follows Step .free fun _ _ => True := by
    intro name
    unfold enqueueAs
    split
    · trivial
    · exact fun _ => ⟨_, .read rfl, fun _ => ⟨_, .read rfl, trivial⟩⟩
  unfold enqueueNamed
  split
  · exact has _
  · split
    · exact fun _ => ⟨_, .name, has _⟩
    · exact has _

theorem enqueue_follows (type : JsString) (payload : P) (opts : EnqueueOptions) :
    (enqueue qStore none type payload opts).Follows Step .free fun _ _ => True := by
  unfold enqueue
  split
  · trivial
  · simp only
    split
    · exact enqueueNamed_follows _ _
    · refine (countFrom_follows _ _ _ _ _).bind fun s depth hs => ?_
      rw [hs]
      split
      · trivial
      · exact enqueueNamed_follows _ _

/-- Every call of the queue follows the protocol. -/
theorem prog_follows (c : QCall P) : c.prog.Follows Step .free fun _ _ => True := by
  cases c with
  | enqueue type payload opts => exact (enqueue_follows type payload opts).bind fun _ _ _ => trivial
  | runOnce opts fuel =>
    exact fun _ => ⟨_, .read rfl, (scanPages_follows fuel _).bind fun _ _ _ => trivial⟩
  | renew lock ttlMs => exact (renew_follows lock ttlMs .free).bind fun _ _ _ => trivial

/-- What the protocol keeps, and what it gives at every operation, holds in every run of
    calls on the queue. -/
theorem meets_step {limit : ℕ+} {calls : ℕ → QCall P} {t : Int}
    {ok ok' : QWorld P → ℕ → (o : QOp P) → o.Res → Prop} {J : QWorld P → (ℕ → Phase) → Prop}
    (hop : ∀ w ph i a o r s, J w ph → Step (ph i) o r s → ((qMachine limit).exec i a o w).1 = r →
      ok w i o r → J ((qMachine limit).exec i a o w).2 (update ph i s) ∧ ok' w i o r)
    (henv : ∀ w ph e, J w ph → J ((qMachine limit).env e w) ph)
    (hJ : J (qStart calls t).world fun _ => .free) {ms : List (Move QAnswer ℕ)}
    (hms : (qMachine limit).Meets ok (qStart calls t) ms) :
    (qMachine limit).Meets ok' (qStart calls t) ms :=
  Machine.meets_follows (fun w ph i a o s h hs hok => (hop w ph i a o _ s h hs rfl hok).1) henv
    (fun w ph i a o s h hs hok => (hop w ph i a o _ s h hs rfl hok).2) hJ
    (fun i => prog_follows (calls i)) hms

end Follows

/-! ## What operations change -/

theorem acquired_notMem_events_work {j : ℕ} {k t : JsString} (o : WorkOp (JobRecord P) JobValue)
    (r : o.Res) :
    .acquired k j t ∉ QOp.events i (.work o) r := by
  rcases o with _ | _ | _ | _ | _ | ⟨k', e, v⟩
  case putIfMatch =>
    simp only [QOp.events]
    split <;> simp
  all_goals simp [QOp.events]

/-- Events without a win leave the last win of every lock. -/
theorem lastWin_append (h : ∀ i t, .acquired key i t ∉ es) (tr : List QEvent) :
    lastWin key (es ++ tr) = lastWin key tr := by
  induction es with
  | nil => rfl
  | cons e es ih =>
    have ih := ih fun i t hm => h i t (.tail _ hm)
    cases e with
    | acquired k i t =>
      rw [List.cons_append, lastWin, if_neg, ih]
      rintro rfl
      exact h i t (.head _)
    | wrote => exact ih
    | swapped => exact ih

section Exec

variable {limit : ℕ+} {i : ℕ} {a : QAnswer} {w : QWorld P}

/-- A marker appears only where it is written. -/
theorem terminal_exec_work {id : JsString} {o : WorkOp (JobRecord P) JobValue}
    (h : Terminal id ((qMachine limit).exec i a (.work o) w).2) :
    Terminal id w ∨ ∃ k v, o.writes (.attempts 1) = some (k, v) ∧ (k = qdone id ∨ k = qfail id) := by
  have hkey : ∀ k, Has k ((qMachine limit).exec i a (.work o) w).2 →
      Has k w ∨ ∃ v, o.writes (.attempts 1) = some (k, v) := by
    intro k hk
    rcases o.exec_val w.work k with he | ⟨v, hv, -⟩
    · refine .inl ?_
      rw [Has, ← he]
      exact hk
    · exact .inr ⟨v, hv⟩
  rcases h with h | h
  · rcases hkey _ h with h | ⟨v, hv⟩
    · exact .inl (.inl h)
    · exact .inr ⟨_, v, hv, .inl rfl⟩
  · rcases hkey _ h with h | ⟨v, hv⟩
    · exact .inl (.inr h)
    · exact .inr ⟨_, v, hv, .inr rfl⟩

theorem exec_lock_trace (o : LockOp) : ((qMachine limit).exec i a (.lock o) w).2.trace =
    QOp.events (P := P) i (.lock o) ((qMachine limit).exec i a (.lock o) w).1 ++ w.trace := rfl

/-- An operation outside the model leaves the world as it is. -/
theorem exec_outside {o : QOp P} (ho : o.Outside) : ((qMachine limit).exec i a o w).2 = w := by
  rcases o with _ | (o | _) | _ | _ | _ | _ | _
  case lock.kv => cases o <;> first | rfl | exact False.elim ho
  all_goals first | rfl | exact False.elim ho

/-- A swap that keeps the token is no win. -/
theorem events_keep {k : JsString} {e v : LockRecord} (h : e.token = v.token) (won : Bool) :
    QOp.events (P := P) i (.lock (.kv (.putIfMatch k e v))) won = [] := by
  simp [QOp.events, h]

end Exec

/-! ## What a call has seen -/

/-- The job has no marker, as a worker reads them. -/
def Unmarked (id : JsString) (w : QWorld P) : Prop :=
  truthy (w.work.kv.val (qdone id)) = false ∧ truthy (w.work.kv.val (qfail id)) = false

/-- What a call has seen of the job it looks at is still so. -/
def Phase.Saw (w : QWorld P) : Phase → Prop
  | looked id both => truthy (w.work.kv.val (qdone id)) = false ∧
    (both = true → truthy (w.work.kv.val (qfail id)) = false)
  | drew id _ => Unmarked id w
  | _ => True

section Saw

variable {w : QWorld P} {s s' : Phase}

theorem Phase.Saw.congr {w' : QWorld P} (h : s.Saw w) (hkeep : ∀ id,
    w'.work.kv.val (qdone id) = w.work.kv.val (qdone id) ∧
      w'.work.kv.val (qfail id) = w.work.kv.val (qfail id)) : s.Saw w' := by
  cases s with
  | looked id both =>
    rw [Saw, (hkeep id).1, (hkeep id).2]
    exact h
  | drew id token =>
    rw [Saw, Unmarked, (hkeep id).1, (hkeep id).2]
    exact h
  | _ => trivial

/-- What a call sees is so, until a marker is written. -/
theorem Phase.Saw.step {limit : ℕ+} {i : ℕ} {a : QAnswer} {o : QOp P} {r : o.Res} (h : s.Saw w)
    (hs : Step s o r s') (hr : ((qMachine limit).exec i a o w).1 = r) : s'.Saw w := by
  cases hs with
  | look hl =>
    subst hr
    cases hl with
    | done hv => exact ⟨hv, nofun⟩
    | @fail id =>
      split
      · trivial
      · next hv => exact ⟨h.1, fun _ => Bool.eq_false_iff.2 hv⟩
  | draw => exact ⟨h.1, h.2 rfl⟩
  | @insert _ _ _ _ won => cases won <;> first | exact h | trivial
  | @takeOver _ _ _ _ _ won => cases won <;> trivial
  | @check _ _ _ won => cases won <;> trivial
  | read => exact h
  | outside => exact h
  | keep => exact h
  | _ => trivial

/-- A lease is won by a call that has seen the job unmarked. -/
theorem unmarked_of_win {o : LockOp} {r : o.Res} (h : s.Saw w)
    (hs : Step s (.lock o : QOp P) r s') {i j : ℕ} {id token : JsString}
    (hwin : .acquired (leaseKey id) j token ∈ QOp.events (P := P) i (.lock o) r) :
    Unmarked id w := by
  cases hs with
  | @insert id' _ _ _ won =>
    cases won with
    | true =>
      obtain ⟨hkey, -, -⟩ := QEvent.acquired.inj (List.mem_singleton.1 hwin)
      exact leaseKey_inj.1 hkey ▸ h
    | false => cases hwin
  | @takeOver id' cur _ _ _ won =>
    simp only [QOp.events] at hwin
    split at hwin
    · obtain ⟨hkey, -, -⟩ := QEvent.acquired.inj (List.mem_singleton.1 hwin)
      exact leaseKey_inj.1 hkey ▸ h
    · cases hwin
  | keep htok =>
    rw [events_keep htok] at hwin
    cases hwin
  | outside ho =>
    rcases o with (_ | _ | _ | _) | _
    case kv.get => cases hwin
    case now => cases hwin
    all_goals exact ho.elim
  | giveUp => cases hwin
  | miss => cases hwin

/-- The operation leaves the markers of all jobs. -/
def LeavesMarkers (_ : QWorld P) (_ : ℕ) : (o : QOp P) → o.Res → Prop
  | .work o, _ => ∀ k v, o.writes (.attempts 1) = some (k, v) → ∀ id, k ≠ qdone id ∧ k ≠ qfail id
  | _, _ => True

/-- A lease is won of a job without markers. -/
def WinsUnmarked (w : QWorld P) (i : ℕ) : (o : QOp P) → o.Res → Prop
  | .lock o, r => ∀ id j t, .acquired (leaseKey id) j t ∈ QOp.events (P := P) i (.lock o) r →
    Unmarked id w
  | _, _ => True

/-- From wherever calls have seen what is so, they win leases of unmarked jobs only, as long as no
    marker is written. -/
theorem meets_winsUnmarked {limit : ℕ+} {c : Conf (QOp P) QOp.Res Unit (QWorld P)} {ph : ℕ → Phase}
    (hsaw : ∀ i, (ph i).Saw c.world) (hf : ∀ i, (c.procs i).Follows Step (ph i) fun _ _ => True)
    {ms : List (Move QAnswer ℕ)} (hms : (qMachine limit).Meets LeavesMarkers c ms) :
    (qMachine limit).Meets WinsUnmarked c ms := by
  refine Machine.meets_follows (J := fun w ph => ∀ i, Phase.Saw w (ph i)) ?_ (fun w ph e h => h)
    ?_ hsaw hf hms
  · intro w ph i a o s' h hs hok
    have hkeep : ∀ id, ((qMachine limit).exec i a o w).2.work.kv.val (qdone id) =
          w.work.kv.val (qdone id) ∧
        ((qMachine limit).exec i a o w).2.work.kv.val (qfail id) = w.work.kv.val (qfail id) := by
      intro id
      rcases o with o | _ | _ | _ | _ | _ | _
      case work =>
        have hval : ∀ k, (∀ v, o.writes (.attempts 1) ≠ some (k, v)) →
            ((qMachine limit).exec i a (.work o) w).2.work.kv.val k = w.work.kv.val k := by
          intro k hk
          rcases o.exec_val w.work k with he | ⟨v, hv, -⟩
          · exact he
          · exact absurd hv (hk v)
        exact ⟨hval _ fun v hv => (hok _ v hv id).1 rfl, hval _ fun v hv => (hok _ v hv id).2 rfl⟩
      all_goals exact ⟨rfl, rfl⟩
    intro j
    refine Phase.Saw.congr ?_ hkeep
    by_cases hji : j = i
    · subst hji
      rw [update_self]
      exact (h j).step hs rfl
    · rw [update_of_ne hji]
      exact h j
  · intro w ph i a o s' h hs _
    rcases o with _ | o | _ | _ | _ | _ | _
    case lock => exact fun id j t hwin => unmarked_of_win (h i) hs hwin
    all_goals trivial

end Saw

/-- Keys of different families differ. -/
theorem qown_ne (id id' : JsString) :
    qown id ≠ qdone id' ∧ qown id ≠ qfail id' ∧ qown id ≠ qatt id' := by
  refine ⟨?_, ?_, ?_⟩ <;> exact JsString.append_ne_append (by decide) (by decide) _ _

theorem QCURSOR_ne (id : JsString) :
    QCURSOR ≠ qdone id ∧ QCURSOR ≠ qfail id ∧ QCURSOR ≠ qatt id ∧ QCURSOR ≠ qown id := by
  refine ⟨?_, ?_, ?_, ?_⟩ <;> exact (append_ne_QCURSOR id (by decide) (by decide)).symm

/-! ## Handlers and markers -/

/-- A handler starts on a job without a marker. -/
def StartsUnfinished (w : QWorld P) (_ : ℕ) : (o : QOp P) → o.Res → Prop
  | .handler job, _ => ¬Terminal job.id w
  | _, _ => True

/-- The lease of a job is won while it has no marker, and its handler is started and
    its markers are written by the call that won it last. -/
def LeasedUnfinished (w : QWorld P) (i : ℕ) : (o : QOp P) → o.Res → Prop
  | .lock o, r => ∀ id j t, .acquired (leaseKey id) j t ∈ QOp.events (P := P) i (.lock o) r →
    ¬Terminal id w
  | .handler job, _ => holder job.id w = some i
  | .work (.put k _), _ => ∀ id, k = qdone id ∨ k = qfail id → holder id w = some i
  | _, _ => True

/-- The call has won a lease. -/
def Phase.Won : Phase → Prop
  | free => False
  | looked .. => False
  | drew .. => False
  | _ => True

/-- The call has won the lease of a job, and can still start its handler. -/
def Phase.Starting (id : JsString) : Phase → Prop
  | leased id' _ => id' = id
  | owned id' _ started => id' = id ∧ started = false
  | _ => False

theorem Looks.lost {s s' : Phase} {k : JsString} {v : Option JobValue} (h : Looks s k v s') :
    ¬s.Won ∧ ∀ id, ¬s'.Starting id := by
  cases h with
  | done => exact ⟨id, fun _ => id⟩
  | fail => exact ⟨id, by split <;> exact fun _ => id⟩

/-- The invariant: while the last winner of a lease can still start the handler, the
    job has no marker. -/
structure StartInv (w : QWorld P) (ph : ℕ → Phase) : Prop where
  won : ∀ i, ¬(ph i).Won → ∀ k t, .acquired k i t ∉ w.trace
  unfinished : ∀ id i, holder id w = some i → (ph i).Starting id → ¬Terminal id w

namespace StartInv

variable {w w' : QWorld P} {ph : ℕ → Phase} {i : ℕ} {s : Phase}

/-- A step without a win, after which the call can start no handler it could not
    start before. -/
theorem quiet (h : StartInv w ph) {es : List QEvent} (htrace : w'.trace = es ++ w.trace)
    (hes : ∀ k j t, .acquired k j t ∉ es) (hwon : ¬s.Won → ¬(ph i).Won)
    (hnew : ∀ id, holder id w = some i → s.Starting id → (ph i).Starting id)
    (hterm : ∀ id j, holder id w = some j → (update ph i s j).Starting id →
      Terminal id w' → Terminal id w) :
    StartInv w' (update ph i s) where
  won j hj k t hm := by
    rw [htrace] at hm
    refine h.won j ?_ k t ((List.mem_append.1 hm).resolve_left (hes k j t))
    by_cases hji : j = i
    · subst hji
      rw [update_self] at hj
      exact hwon hj
    · rwa [update_of_ne hji] at hj
  unfinished id j hj hst ht := by
    rw [holder, htrace, lastWin_append (hes _)] at hj
    refine h.unfinished id j hj ?_ (hterm id j hj hst ht)
    by_cases hji : j = i
    · subst hji
      rw [update_self] at hst
      exact hnew id hj hst
    · rwa [update_of_ne hji] at hst

/-- A win, of the lease of an unfinished job. -/
theorem win (h : StartInv w ph) {id token : JsString}
    (htrace : w'.trace = .acquired (leaseKey id) i token :: w.trace)
    (hterm : ∀ id, Terminal id w' → Terminal id w) (hfresh : ¬Terminal id w) :
    StartInv w' (update ph i (.leased id token)) where
  won j hj k t hm := by
    by_cases hji : j = i
    · subst hji
      rw [update_self] at hj
      exact absurd trivial hj
    · rw [update_of_ne hji] at hj
      rw [htrace] at hm
      rcases List.mem_cons.1 hm with he | hm
      · cases he
        exact absurd rfl hji
      · exact h.won j hj k t hm
  unfinished id' j hj hst ht := by
    rw [holder, htrace, lastWin] at hj
    split at hj
    · next hk =>
      rw [leaseKey_inj] at hk
      subst hk
      exact hfresh (hterm _ ht)
    · by_cases hji : j = i
      · subst hji
        rw [update_self] at hst
        next hk => exact hk (congrArg leaseKey hst)
      · rw [update_of_ne hji] at hst
        exact h.unfinished id' j hj hst (hterm _ ht)

variable {limit : ℕ+} {a : QAnswer}

/-- An operation on the work store that writes no marker. -/
theorem work (h : StartInv w ph) {o : WorkOp (JobRecord P) JobValue}
    (hwon : ¬s.Won → ¬(ph i).Won) (hnew : ∀ id, s.Starting id → (ph i).Starting id)
    (hkey : ∀ k v id, o.writes (.attempts 1) = some (k, v) → k ≠ qdone id ∧ k ≠ qfail id) :
    StartInv ((qMachine limit).exec i a (.work o) w).2 (update ph i s) := by
  refine h.quiet rfl (fun _ _ _ => acquired_notMem_events_work o _) hwon (fun id _ => hnew id)
    fun id j _ _ ht => ?_
  rcases terminal_exec_work ht with ht | ⟨k, v, hw, hk⟩
  · exact ht
  · exact absurd hk (not_or.2 (hkey k v id hw))

/-- An operation that wins no lock, and writes nothing. -/
theorem idle (h : StartInv w ph) (htrace : w'.trace = w.trace) (hwork : w'.work = w.work)
    (hwon : ¬s.Won → ¬(ph i).Won)
    (hnew : ∀ id, holder id w = some i → s.Starting id → (ph i).Starting id) :
    StartInv w' (update ph i s) := by
  have hnil : w'.trace = [] ++ w.trace := htrace
  refine h.quiet hnil (fun _ _ _ => List.not_mem_nil) hwon hnew fun id j _ _ ht => ?_
  rw [Terminal, Has, Has, hwork] at ht
  exact ht

/-- A call that has not won anything holds no lease. -/
theorem holder_ne (h : StartInv w ph) (hi : ¬(ph i).Won) (id : JsString) : holder id w ≠ some i := by
  intro hh
  obtain ⟨⟨j, t⟩, ht, rfl⟩ := Option.map_eq_some_iff.1 hh
  exact h.won _ hi _ _ (lastWin_mem ht)

theorem step (h : StartInv w ph) {o : QOp P} {r : o.Res} (hs : Step (ph i) o r s)
    (hr : ((qMachine limit).exec i a o w).1 = r) (hok : LeasedUnfinished w i o r) :
    StartInv ((qMachine limit).exec i a o w).2 (update ph i s) := by
  generalize hph : ph i = s₀ at hs
  cases hs with
  | read hw =>
    refine h.work (by rw [hph]; exact id) (by rw [hph]; exact fun _ => id) fun k v id hkv => ?_
    rw [hw] at hkv
    cases hkv
  | look hl =>
    refine h.work (by rw [hph]; exact fun _ => hl.lost.1) (fun id hst => absurd hst (hl.lost.2 id))
      fun k v id hkv => ?_
    cases hkv
  | outside ho =>
    rw [exec_outside ho]
    exact h.idle rfl rfl (by rw [hph]; exact id) (by rw [hph]; exact fun _ _ => id)
  | giveUp => exact h.idle rfl rfl (by rw [hph]; exact id) fun _ _ => False.elim
  | cursor =>
    refine h.work (by rw [hph]; exact id) (by rw [hph]; exact fun _ => id) fun k v id hkv => ?_
    cases hkv
    exact ⟨(QCURSOR_ne id).1, (QCURSOR_ne id).2.1⟩
  | name => exact h.idle rfl rfl (by rw [hph]; exact id) (by rw [hph]; exact fun _ _ => id)
  | draw => exact h.idle rfl rfl (by rw [hph]; exact id) fun _ _ => False.elim
  | @insert id _ _ token won =>
    cases won with
    | true =>
      refine h.win ?_ (fun _ ht => ht) (hok id i token (.head _))
      rw [exec_lock_trace, hr]
      rfl
    | false =>
      refine h.idle ?_ rfl (by rw [hph]; exact fun hn => hn) fun _ _ => False.elim
      rw [exec_lock_trace, hr]
      rfl
  | miss =>
    refine h.idle ?_ rfl (by rw [hph]; exact id) fun _ _ => False.elim
    rw [exec_lock_trace, hr]
    rfl
  | @takeOver id cur owner expires token won =>
    cases won with
    | true =>
      by_cases htok : cur.token = token
      · -- Not a win, but the call holds no lease either.
        refine h.idle ?_ rfl (fun hn => absurd trivial hn) fun id' hh => ?_
        · rw [exec_lock_trace, events_keep htok]
          rfl
        · exact absurd hh (h.holder_ne (by rw [hph]; exact fun hn => hn) id')
      · have hev : QOp.events (P := P) i (.lock (.kv (.putIfMatch (leaseKey id) cur
            ⟨owner, expires, token⟩))) true = [.acquired (leaseKey id) i token] := by
          simp [QOp.events, htok]
        refine h.win ?_ (fun _ ht => ht) (hok id i token (by rw [hev]; exact .head _))
        rw [exec_lock_trace, hr, hev]
        rfl
    | false =>
      refine h.idle ?_ rfl (by rw [hph]; exact fun hn => hn) fun _ _ => False.elim
      rw [exec_lock_trace, hr]
      rfl
  | keep htok =>
    refine h.idle ?_ rfl (by rw [hph]; exact id) (by rw [hph]; exact fun _ _ => id)
    rw [exec_lock_trace, events_keep htok]
    rfl
  | own =>
    refine h.work (fun hn => absurd trivial hn) (by rw [hph]; exact fun _ hst => hst.1)
      fun k v id hkv => ?_
    cases hkv
    exact ⟨(qown_ne _ id).1, (qown_ne _ id).2.1⟩
  | start => exact h.idle rfl rfl (fun hn => absurd trivial hn) fun _ _ hst => by cases hst.2
  | @check id token started won =>
    refine h.work ?_ ?_ fun k v id hkv => ?_
    · cases won <;> exact fun hn => absurd trivial hn
    · cases won with
      | true => exact fun _ => False.elim
      | false => exact fun _ hst => by cases hst.2
    · cases hkv
      exact ⟨(qown_ne _ id).1, (qown_ne _ id).2.1⟩
  | @write id token k v hk =>
    refine h.quiet rfl (fun _ _ _ => acquired_notMem_events_work (.put k v) _)
      (fun hn => absurd trivial hn) (fun _ _ => False.elim) fun id' j hj hst ht => ?_
    rcases terminal_exec_work ht with ht | ⟨k', v', hw, hk'⟩
    · exact ht
    · -- The writer is the holder, and is past starting the handler.
      cases hw
      have hji : j = i := Option.some.inj (hj.symm.trans (hok id' hk'))
      subst hji
      rw [update_self] at hst
      exact hst.elim

theorem starts (h : StartInv w ph) {o : QOp P} {r : o.Res} (hs : Step (ph i) o r s)
    (hok : LeasedUnfinished w i o r) : StartsUnfinished w i o r := by
  generalize hph : ph i = s₀ at hs
  cases hs with
  | start =>
    refine h.unfinished _ i hok ?_
    rw [hph]
    exact ⟨rfl, rfl⟩
  | outside ho => cases o <;> trivial
  | _ => trivial

end StartInv

/-- **A finished job is not run again.** In a run of any calls on the queue, in any
    interleaving, in which no lease of a finished job is won, and in which only the call
    that won a lease last starts the handler and writes the markers, no handler starts
    on a job that has a marker. -/
theorem handler_before_marker (limit : ℕ+) (calls : ℕ → QCall P) (t : Int)
    (ms : List (Move QAnswer ℕ))
    (hms : (qMachine limit).Meets LeasedUnfinished (qStart calls t) ms) :
    (qMachine limit).Meets StartsUnfinished (qStart calls t) ms := by
  refine meets_step (J := StartInv)
    (fun w ph i a o r s h hs hr hok => ⟨h.step hs hr hok, h.starts hs hok⟩) ?_ ?_ hms
  · exact fun w ph e h => ⟨h.won, h.unfinished⟩
  · exact ⟨fun _ _ _ _ => List.not_mem_nil, fun _ _ h => by cases h⟩

section Decidable

variable (w : QWorld P) (i : ℕ)

instance : (o : QOp P) → (r : o.Res) → Decidable (StartsUnfinished w i o r)
  | .handler job, _ => inferInstanceAs (Decidable (¬Terminal job.id w))
  | .work _, _ => isTrue trivial
  | .lock _, _ => isTrue trivial
  | .claimRunOwner _, _ => isTrue trivial
  | .lockLost, _ => isTrue trivial
  | .dateNow, _ => isTrue trivial
  | .randomUUID, _ => isTrue trivial

variable {R : JsString → Prop}

/-- A condition on the job of a key is one on the id the key has. -/
theorem forall_key_iff {key : JsString → JsString} {idOf : JsString → JsString}
    (h : ∀ id, idOf (key id) = id) {k : JsString} :
    (k = key (idOf k) → R (idOf k)) ↔ ∀ id, k = key id → R id := by
  refine ⟨?_, fun hR => hR _⟩
  rintro hR id rfl
  rw [h] at hR
  exact hR rfl

theorem forall_marker_iff {k : JsString} :
    ((k = qdone (k.drop 6) → R (k.drop 6)) ∧ (k = qfail (k.drop 6) → R (k.drop 6))) ↔
      ∀ id, k = qdone id ∨ k = qfail id → R id := by
  rw [forall_key_iff (fun _ => rfl : ∀ id, (qdone id).drop 6 = id),
    forall_key_iff (fun _ => rfl : ∀ id, (qfail id).drop 6 = id)]
  exact ⟨fun h id hk => hk.elim (h.1 id) (h.2 id),
    fun h => ⟨fun id hk => h id (.inl hk), fun id hk => h id (.inr hk)⟩⟩

/-- The same, on the jobs whose leases are won. -/
theorem forall_acquired_iff {es : List QEvent} :
    (∀ k ∈ es.filterMap QEvent.won, k = leaseKey (leaseKeyId k) → R (leaseKeyId k)) ↔
      ∀ id j t, .acquired (leaseKey id) j t ∈ es → R id := by
  constructor
  · intro h id j t hm
    exact (forall_key_iff leaseKeyId_leaseKey).1 (h _ (List.mem_filterMap.2 ⟨_, hm, rfl⟩)) id rfl
  · intro h k hk
    obtain ⟨e, he, hek⟩ := List.mem_filterMap.1 hk
    refine (forall_key_iff leaseKeyId_leaseKey).2 ?_
    rintro id rfl
    cases e with
    | acquired k j t =>
      cases hek
      exact h id j t he
    | wrote => cases hek
    | swapped => cases hek

instance : (o : QOp P) → (r : o.Res) → Decidable (LeasedUnfinished w i o r)
  | .lock o, r => decidable_of_iff (∀ k ∈ (QOp.events (P := P) i (.lock o) r).filterMap QEvent.won,
      k = leaseKey (leaseKeyId k) → ¬Terminal (leaseKeyId k) w)
    (forall_acquired_iff (R := fun id => ¬Terminal id w))
  | .handler job, _ => inferInstanceAs (Decidable (holder job.id w = some i))
  | .work (.put k _), _ =>
    decidable_of_iff ((k = qdone (k.drop 6) → holder (k.drop 6) w = some i) ∧
        (k = qfail (k.drop 6) → holder (k.drop 6) w = some i))
      (forall_marker_iff (R := fun id => holder id w = some i))
  | .work (.append ..), _ => isTrue trivial
  | .work (.list ..), _ => isTrue trivial
  | .work (.get _), _ => isTrue trivial
  | .work (.ackOnce _), _ => isTrue trivial
  | .work (.putIfMatch ..), _ => isTrue trivial
  | .claimRunOwner _, _ => isTrue trivial
  | .lockLost, _ => isTrue trivial
  | .dateNow, _ => isTrue trivial
  | .randomUUID, _ => isTrue trivial

end Decidable

/-- A worker dies in the handler of a job, and another one takes the lease over when it
    has expired, and runs the job. -/
theorem handler_before_marker_takeOver :
    (qMachine ⟨50, by decide⟩).Meets LeasedUnfinished (qStart threeJobs 1)
        (steps 0 2 ++ steps 3 10 ++ [.env 30001] ++ steps 4 18) ∧
      (qMachine ⟨50, by decide⟩).Meets StartsUnfinished (qStart threeJobs 1)
        (steps 0 2 ++ steps 3 10 ++ [.env 30001] ++ steps 4 18) :=
  have hms : (qMachine ⟨50, by decide⟩).Meets LeasedUnfinished (qStart threeJobs 1)
      (steps 0 2 ++ steps 3 10 ++ [.env 30001] ++ steps 4 18) := by decide +kernel
  ⟨hms, handler_before_marker _ _ _ _ hms⟩

/-- A worker looks for the markers of the job; another one runs it to its end and
    releases the lease; the first one takes the lease, and starts the handler. -/
theorem handler_after_done :
    ¬(qMachine ⟨50, by decide⟩).Meets StartsUnfinished (qStart threeJobs 1)
      (steps 0 2 ++ steps 4 4 ++ steps 3 16 ++ steps 4 8) := by
  decide +kernel

end Gnldev.Queue
