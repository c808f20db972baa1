import Gnldev.Queue.Cursor

/-!
# Erasing a person's jobs

`jobEraser` deletes the job records of one owner, found by the prefix of their
ids, and their markers and leases. The persisted cursor is an offset into the log
the records are deleted from, and nothing moves it back: each record deleted
before a job moves the job one position towards the cursor, and past it.

A job is *found* if a worker alone, with no lock held and every other job
finished, takes its lease (`Found`). After an erasure another owner's pending job
is found exactly if at least as many records as the cursor says are left before
it: `erase_found_iff`.
-/

open List

namespace Gnldev.Queue

open Durable

variable {P : Type}

/-- Delete the records whose ids have a prefix, and their markers. -/
def eraseWork (p : JsString) (s : WorkState (JobRecord P) JobValue) :
    WorkState (JobRecord P) JobValue :=
  ((((s.deleteIdPrefix p).deletePrefix (qdone p)).deletePrefix (qfail p)).deletePrefix
    (qatt p)).deletePrefix (qown p)

/-- Erase an owner's jobs: their records, markers and leases. -/
def jobErase (owner : Owner) (w : QWorld P) : Except NameError (QWorld P) :=
  (ownedPrefix owner).map fun p =>
    { w with work := eraseWork p w.work, runs := w.runs.delete (·.startsWith (runIdOf p)) }

/-- No lock is held, and every job but one is finished. -/
def quiet (id : JsString) (w : QWorld P) : QWorld P where
  clock := w.clock
  runs := Kv.empty
  work := { w.work with
    kv.val := fun k =>
      if (w.work.logs QJOB).any fun job => job.id ≠ id ∧ k = qdone job.id then some (.done 0)
      else w.work.kv.val k }
  drawn := w.drawn
  trace := []

/-- The lease of the job is taken. -/
def takesLease (id : JsString) (trace : List QEvent) : Bool :=
  trace.any fun
    | .acquired k _ _ => k = lockKey (leaseOf id)
    | _ => false

/-- A worker that runs alone, with no lock held and every other job finished,
    takes the lease of the job. -/
def Found (limit : ℕ+) (id : JsString) (w : QWorld P) : Prop :=
  ∀ i a opts, takesLease id ((qMachine limit).solo i a (runOnce qStore qRuns opts
    ((w.work.logs QJOB).length + 1)) (quiet id w)).2.trace

/-- The job is another owner's, or the system's, and pending. -/
def PendingOther (owner : Owner) (w : QWorld P) (job : LogRecord (JobRecord P)) : Prop :=
  ¬Terminal job.id w ∧ ∃ name other, other ≠ owner ∧ ownedName name other = .ok job.id

/-! ## A worker alone -/

section Solo

variable {limit : ℕ+} {i : ℕ} {a : QAnswer} {opts : WorkerOptions} {id : JsString} {w : QWorld P}

/-- Nothing that happened is forgotten. -/
theorem exec_trace (o : QOp P) (w : QWorld P) :
    ∃ es, ((qMachine limit).exec i a o w).2.trace = es ++ w.trace := by
  cases o with
  | work o => exact ⟨_, rfl⟩
  | lock o => exact ⟨_, rfl⟩
  | claimRunOwner id => exact ⟨[], rfl⟩
  | handler job => exact ⟨[], rfl⟩
  | lockLost => exact ⟨[], rfl⟩
  | dateNow => exact ⟨[], rfl⟩
  | randomUUID => exact ⟨[], rfl⟩

theorem takesLease_solo {α : Type} (p : QM P α) (h : takesLease id w.trace) :
    takesLease id ((qMachine limit).solo i a p w).2.trace := by
  induction p generalizing w with
  | pure x => exact h
  | op o k ih =>
    refine ih _ ?_
    obtain ⟨es, hes⟩ : ∃ es, ((qMachine limit).exec i a o w).2.trace = es ++ w.trace :=
      exec_trace o w
    rw [hes, takesLease, any_append, Bool.or_eq_true]
    exact .inr h

/-- Terminal jobs are passed. -/
theorem solo_scanItems_append (pre rest : List (LogRecord (JobRecord P))) (b : Bool)
    (h : ∀ job ∈ pre, truthy (w.work.kv.val (qdone job.id))) :
    (qMachine limit).solo i a (scanItems qStore qRuns opts (pre ++ rest) b) w =
      (qMachine limit).solo i a (scanItems qStore qRuns opts rest b) w := by
  induction pre with
  | nil => rfl
  | cons job pre ih =>
    have hget : (qMachine limit).solo i a (qStore.get (qdone job.id)) w =
        (w.work.kv.val (qdone job.id), w) := rfl
    rw [cons_append, scanItems, Machine.solo_bind, hget]
    simp only [h job (.head _), if_true]
    exact ih fun job' h' => h job' (.tail _ h')

/-- A free lock is taken. -/
theorem solo_acquireRunLock (owner token : JsString) (ttlMs : Int)
    (hfree : w.runs.val (lockKey (leaseOf id)) = none) :
    ∃ lock w', (qMachine limit).solo i a
      (acquireRunLock qRuns (leaseOf id) owner ttlMs none token) w = (some lock, w') ∧
        takesLease id w'.trace := by
  have hnow : (qMachine limit).solo i a (qRuns.now : QM P Int) w = (w.clock, w) := rfl
  have hclaim : ∀ v, (qMachine limit).solo i a
      (claim qRuns (lockKey (leaseOf id)) v : QM P Bool) w =
        (true, { w with
          runs := w.runs.set i w.clock (lockKey (leaseOf id)) v
          trace := .acquired (lockKey (leaseOf id)) i v.token :: w.trace }) := by
    intro v
    show (qMachine limit).exec i a (.lock (.kv (.putIfAbsent (lockKey (leaseOf id)) v))) w = _
    simp only [qMachine, lockMachine, Kv.exec, hfree, if_true, QOp.events]
    rfl
  refine ⟨⟨leaseOf id, owner, token⟩, { w with
    runs := w.runs.set i w.clock (lockKey (leaseOf id)) ⟨owner, w.clock + ttlMs, token⟩
    trace := .acquired (lockKey (leaseOf id)) i token :: w.trace }, ?_, by simp [takesLease]⟩
  simp only [acquireRunLock, Machine.solo_bind, hnow, acquireRunLockAt, hclaim]
  rfl

/-- A pending job whose lease is free is taken. -/
theorem solo_scanItems_pending (job : LogRecord (JobRecord P))
    (rest : List (LogRecord (JobRecord P))) (b : Bool)
    (hdone : w.work.kv.val (qdone job.id) = none) (hfail : w.work.kv.val (qfail job.id) = none)
    (hfree : w.runs.val (lockKey (leaseOf job.id)) = none) :
    ∃ w', (qMachine limit).solo i a (scanItems qStore qRuns opts (job :: rest) b) w = (.ran, w') ∧
      takesLease job.id w'.trace := by
  have hget : ∀ k, (qMachine limit).solo i a (qStore.get k) w = (w.work.kv.val k, w) := fun _ => rfl
  rw [scanItems, Machine.solo_bind, hget, hdone]
  simp only [truthy, Bool.false_eq_true, if_false]
  rw [Machine.solo_bind, hget, hfail]
  simp only [Bool.false_eq_true, if_false]
  rw [Machine.solo_bind, Machine.solo_bind]
  generalize hdraw : (qMachine limit).solo i a (perform (.randomUUID : QOp P)) w = d
  have hfree' : d.2.runs.val (lockKey (leaseOf job.id)) = none := by
    rw [← hdraw]
    exact hfree
  obtain ⟨lock, w', hlock, htakes⟩ : ∃ lock w', (qMachine limit).solo i a
      (acquireRunLock qRuns (leaseOf job.id) opts.owner opts.ttlMs none d.1) d.2 =
        (some lock, w') ∧ takesLease job.id w'.trace :=
    solo_acquireRunLock opts.owner d.1 opts.ttlMs hfree'
  rw [hlock]
  simp only
  rw [Machine.solo_bind]
  exact ⟨_, rfl, takesLease_solo _ htakes⟩

/-- Every job of the log is terminal, but one, which is pending with a free lease. -/
structure OnlyPending (id : JsString) (log : List (LogRecord (JobRecord P))) (w : QWorld P) :
    Prop where
  logs : w.work.logs QJOB = log
  others : ∀ job ∈ log, job.id ≠ id → truthy (w.work.kv.val (qdone job.id))
  done : w.work.kv.val (qdone id) = none
  fail : w.work.kv.val (qfail id) = none
  free : w.runs.val (lockKey (leaseOf id)) = none

variable {log : List (LogRecord (JobRecord P))}

/-- On the page of the job the scan ends with its lease. -/
theorem solo_scanItems_found (hw : OnlyPending id log w) (items : List (LogRecord (JobRecord P)))
    (b : Bool) (hitems : ∀ job ∈ items, job ∈ log) (hmem : ∃ job ∈ items, job.id = id) :
    ∃ w', (qMachine limit).solo i a (scanItems qStore qRuns opts items b) w = (.ran, w') ∧
      takesLease id w'.trace := by
  induction items with
  | nil => obtain ⟨job, hjob, -⟩ := hmem; cases hjob
  | cons job items ih =>
    by_cases he : job.id = id
    · subst he
      exact solo_scanItems_pending job items b hw.done hw.fail hw.free
    · have hpass : (qMachine limit).solo i a (scanItems qStore qRuns opts ([job] ++ items) b) w =
          (qMachine limit).solo i a (scanItems qStore qRuns opts items b) w := by
        refine solo_scanItems_append [job] items b fun job' h' => ?_
        rw [mem_singleton] at h'
        subst h'
        exact hw.others _ (hitems _ (.head _)) he
      rw [← singleton_append, hpass]
      refine ih (fun job' h' => hitems job' (.tail _ h')) ?_
      obtain ⟨job', hjob', he'⟩ := hmem
      rcases mem_cons.1 hjob' with rfl | hjob'
      · exact absurd he' he
      · exact ⟨job', hjob', he'⟩

/-- Persisting the cursor leaves the job the only pending one. -/
theorem OnlyPending.putCursor (hw : OnlyPending id log w) (next : ℕ) : OnlyPending id log { w with
      work := { w.work with kv := w.work.kv.set i w.clock QCURSOR (.cursor next) }
      trace := .wrote QCURSOR i (.cursor next) :: w.trace } where
  logs := hw.logs
  others job hjob he := by
    have hne : qdone job.id ≠ QCURSOR := append_ne_QCURSOR _ (by decide) (by decide)
    show truthy ((w.work.kv.set i w.clock QCURSOR (.cursor next)).val _)
    rw [Kv.set_val_of_ne _ _ _ _ hne]
    exact hw.others job hjob he
  done := (Kv.set_val_of_ne _ _ _ _ (append_ne_QCURSOR _ (by decide) (by decide))).trans hw.done
  fail := (Kv.set_val_of_ne _ _ _ _ (append_ne_QCURSOR _ (by decide) (by decide))).trans hw.fail
  free := hw.free

/-- A scan finds the job exactly if it is at the cursor or after it. -/
theorem solo_scanPages (fuel : ℕ) (cursor : Option ℕ) (hw : OnlyPending id log w)
    (hfuel : log.length < cursor.getD 0 + fuel) (htrace : takesLease id w.trace = false) :
    takesLease id ((qMachine limit).solo i a (scanPages qStore qRuns opts fuel cursor) w).2.trace =
      true ↔ ∃ job ∈ log.drop (cursor.getD 0), job.id = id := by
  induction fuel generalizing cursor w with
  | zero =>
    rw [drop_eq_nil_of_le (by omega)]
    have hsolo : (qMachine limit).solo i a (scanPages qStore qRuns opts 0 cursor) w = (false, w) :=
      rfl
    rw [hsolo, htrace]
    simp
  | succ fuel ih =>
    have hlist : (qMachine limit).solo i a (qStore.list QJOB cursor) w =
        (paginate log cursor limit, w) := by
      rw [← hw.logs]
      rfl
    rw [scanPages, Machine.solo_bind, hlist, Machine.solo_bind]
    have hsub : ∀ job ∈ (log.drop (cursor.getD 0)).take limit, job ∈ log := fun job hjob =>
      mem_of_mem_drop (mem_of_mem_take hjob)
    by_cases hmem : ∃ job ∈ (log.drop (cursor.getD 0)).take limit, job.id = id
    · obtain ⟨w', hsolo, htakes⟩ : ∃ w', (qMachine limit).solo i a (scanItems qStore qRuns opts
          ((log.drop (cursor.getD 0)).take limit) true) w = (.ran, w') ∧ takesLease id w'.trace :=
        solo_scanItems_found hw _ true hsub hmem
      simp only [paginate]
      rw [hsolo]
      obtain ⟨job, hjob, he⟩ := hmem
      exact ⟨fun _ => ⟨job, mem_of_mem_take hjob, he⟩, fun _ => htakes⟩
    · have hpage : ∀ job ∈ (log.drop (cursor.getD 0)).take limit,
          truthy (w.work.kv.val (qdone job.id)) := fun job hjob =>
        hw.others job (hsub job hjob) fun he => hmem ⟨job, hjob, he⟩
      have hpassed : (qMachine limit).solo i a (scanItems qStore qRuns opts
          ((log.drop (cursor.getD 0)).take limit ++ []) true) w = (.passed true, w) :=
        solo_scanItems_append _ [] true hpage
      rw [append_nil] at hpassed
      simp only [paginate]
      rw [hpassed]
      have hpos : 0 < (limit : ℕ) := limit.2
      -- Of what the scan has before it, the page can be left out.
      have hdrop : (∃ job ∈ log.drop (cursor.getD 0), job.id = id) ↔
          ∃ job ∈ log.drop (cursor.getD 0 + limit), job.id = id := by
        rw [← drop_drop]
        constructor
        · rintro ⟨job, hjob, he⟩
          rw [← take_append_drop limit (log.drop (cursor.getD 0)), mem_append] at hjob
          exact hjob.elim (fun h => absurd ⟨job, h, he⟩ hmem) fun h => ⟨job, h, he⟩
        · rintro ⟨job, hjob, he⟩
          exact ⟨job, mem_of_mem_drop hjob, he⟩
      rw [hdrop]
      by_cases hnext : cursor.getD 0 + limit < log.length
      · simp only [if_pos hnext, if_true]
        rw [Machine.solo_bind]
        exact ih (some (cursor.getD 0 + limit)) (hw.putCursor _)
          (by rw [Option.getD_some]; omega) htrace
      · simp only [if_neg hnext]
        rw [drop_eq_nil_of_le (by omega)]
        show takesLease id w.trace = true ↔ _
        rw [htrace]
        simp

end Solo

/-! ## Ids are unique -/

theorem idsUnique_play (limit : ℕ+) (calls : ℕ → QCall P) (t : Int) (ms : List (Move QAnswer ℕ)) :
    IdsUnique ((qMachine limit).play (qStart calls t) ms).world.work := by
  refine Machine.play_induction (fun c : Conf (QOp P) QOp.Res Unit (QWorld P) =>
    IdsUnique c.world.work) ?_ (fun _ _ h => h) ?_ (Machine.meets_true _ ms)
  · intro c i a o k h _ _
    cases o with
    | work o => exact h.exec o
    | _ => exact h
  · intro ns
    exact nodup_nil

/-! ## After an erasure -/

section Erased

variable {owner : Owner} {w w' : QWorld P}

/-- Neither the log nor the cursor is a marker. -/
theorem not_startsWith_marker {fam s : JsString} (p : JsString) (h : ¬fam <+: s) :
    s.startsWith (fam ++ p) = false := by
  rw [← Bool.not_eq_true, JsString.startsWith_iff]
  exact fun hs => h ((prefix_append fam p).trans hs)

theorem eraseWork_logs (p : JsString) (s : WorkState (JobRecord P) JobValue) :
    (eraseWork p s).logs QJOB = (s.logs QJOB).filter fun r => !r.id.startsWith p := by
  have h₁ : QJOB.startsWith (qdone p) = false := not_startsWith_marker p (by decide)
  have h₂ : QJOB.startsWith (qfail p) = false := not_startsWith_marker p (by decide)
  have h₃ : QJOB.startsWith (qatt p) = false := not_startsWith_marker p (by decide)
  have h₄ : QJOB.startsWith (qown p) = false := not_startsWith_marker p (by decide)
  simp [eraseWork, WorkState.deletePrefix, WorkState.deleteIdPrefix, h₁, h₂, h₃, h₄]

theorem eraseWork_cursor (p : JsString) (s : WorkState (JobRecord P) JobValue) :
    (eraseWork p s).kv.val QCURSOR = s.kv.val QCURSOR := by
  have h₁ : QCURSOR.startsWith (qdone p) = false := not_startsWith_marker p (by decide)
  have h₂ : QCURSOR.startsWith (qfail p) = false := not_startsWith_marker p (by decide)
  have h₃ : QCURSOR.startsWith (qatt p) = false := not_startsWith_marker p (by decide)
  have h₄ : QCURSOR.startsWith (qown p) = false := not_startsWith_marker p (by decide)
  simp [eraseWork, WorkState.deletePrefix, WorkState.deleteIdPrefix, Kv.delete, h₁, h₂, h₃, h₄]

theorem isSome_of_eraseWork {p k : JsString} {s : WorkState (JobRecord P) JobValue}
    (h : ((eraseWork p s).kv.val k).isSome) : (s.kv.val k).isSome :=
  Kv.isSome_of_delete (Kv.isSome_of_delete (Kv.isSome_of_delete (Kv.isSome_of_delete h)))

theorem jobErase_ok (h : jobErase owner w = .ok w') :
    ∃ pre, ownedPrefix owner = .ok pre ∧ w'.work = eraseWork pre w.work := by
  unfold jobErase at h
  cases hp : ownedPrefix owner with
  | error e => rw [hp] at h; cases h
  | ok pre =>
    rw [hp] at h
    cases h
    exact ⟨pre, rfl, rfl⟩

/-- In a quiet world only the one job is pending. -/
theorem onlyPending_quiet {id : JsString} (h : ¬Terminal id w) :
    OnlyPending id (w.work.logs QJOB) (quiet id w) where
  logs := rfl
  others job hjob he := by
    have hany : (w.work.logs QJOB).any fun job' => job'.id ≠ id ∧ qdone job.id = qdone job'.id :=
      any_eq_true.2 ⟨job, hjob, by simp [he]⟩
    show truthy (if _ then _ else _)
    rw [if_pos hany]
    rfl
  done := by
    have hany : ¬(w.work.logs QJOB).any fun job' => job'.id ≠ id ∧ qdone id = qdone job'.id := by
      intro hc
      obtain ⟨job', -, hc⟩ := any_eq_true.1 hc
      simp only [decide_eq_true_eq] at hc
      exact hc.1 (append_cancel_left hc.2).symm
    show (if _ then _ else _) = _
    rw [if_neg hany]
    simpa [Has] using (not_or.1 h).1
  fail := by
    have hany : ¬(w.work.logs QJOB).any fun job' => job'.id ≠ id ∧ qfail id = qdone job'.id := by
      intro hc
      obtain ⟨job', -, hc⟩ := any_eq_true.1 hc
      simp only [decide_eq_true_eq] at hc
      exact JsString.append_ne_append (by decide) (by decide) _ _ hc.2
    show (if _ then _ else _) = _
    rw [if_neg hany]
    simpa [Has] using (not_or.1 h).2
  free := rfl

theorem found_iff {limit : ℕ+} {id : JsString} (h : ¬Terminal id w) :
    Found limit id w ↔ ∃ r ∈ (w.work.logs QJOB).drop (persistedCursor w), r.id = id := by
  have hcur : (quiet id w).work.kv.val QCURSOR = w.work.kv.val QCURSOR := by
    refine if_neg fun hc => ?_
    obtain ⟨job, -, hc⟩ := any_eq_true.1 hc
    simp only [decide_eq_true_eq] at hc
    exact append_ne_QCURSOR job.id (by decide) (by decide) hc.2.symm
  have hscan : ∀ i a opts, takesLease id ((qMachine limit).solo i a (runOnce qStore qRuns opts
      ((w.work.logs QJOB).length + 1)) (quiet id w)).2.trace = true ↔
        ∃ r ∈ (w.work.logs QJOB).drop (persistedCursor w), r.id = id := by
    intro i a opts
    have hget : (qMachine limit).solo i a (qStore.get QCURSOR) (quiet id w) =
        (w.work.kv.val QCURSOR, quiet id w) := by
      rw [← hcur]
      rfl
    rw [runOnce, Machine.solo_bind, hget]
    exact solo_scanPages _ _ (onlyPending_quiet h) (by omega) rfl
  constructor
  · intro hf
    exact (hscan 0 ⟨0, .ok (), false, []⟩ ⟨[], 0, none, fun _ => true⟩).1 (hf _ _ _)
  · exact fun hr i a opts => (hscan i a opts).2 hr

end Erased

/-- Another owner's pending job has at least as many records before it that are not
    the erased owner's as the persisted cursor says. -/
def FitsCursor (owner : Owner) (w : QWorld P) : Prop :=
  ∀ pre, ownedPrefix owner = .ok pre → ∀ p job, (w.work.logs QJOB)[p]? = some job →
    PendingOther owner w job →
      persistedCursor w + ((w.work.logs QJOB).take p).countP (·.id.startsWith pre) ≤ p

/-- **Erasing one person's jobs.** In every state a run can reach, after an erasure
    every other owner's pending job is found, exactly if the cursor and the number
    of the person's records before the job leave room for it. -/
theorem erase_found_iff (limit : ℕ+) (calls : ℕ → QCall P) (t : Int) (ms : List (Move QAnswer ℕ))
    (owner : Owner) (w' : QWorld P)
    (h : jobErase owner ((qMachine limit).play (qStart calls t) ms).world = .ok w') :
    (∀ job ∈ ((qMachine limit).play (qStart calls t) ms).world.work.logs QJOB,
      PendingOther owner ((qMachine limit).play (qStart calls t) ms).world job →
        Found limit job.id w') ↔
      FitsCursor owner ((qMachine limit).play (qStart calls t) ms).world := by
  have huniq := idsUnique_play limit calls t ms QJOB
  generalize ((qMachine limit).play (qStart calls t) ms).world = w at h huniq ⊢
  obtain ⟨pre, hpre, hwork⟩ := jobErase_ok h
  -- For each job: it is kept, and found where it has gone.
  have hjob : ∀ p job, (w.work.logs QJOB)[p]? = some job → PendingOther owner w job →
      (Found limit job.id w' ↔ persistedCursor w +
        ((w.work.logs QJOB).take p).countP (·.id.startsWith pre) ≤ p) := by
    rintro p job hp ⟨hpend, name, other, hother, hname⟩
    have hkeep : job.id.startsWith pre = false := by
      rw [← Bool.not_eq_true, JsString.startsWith_iff]
      exact fun hs => hother (ownedPrefix_isPrefix_ownedName hpre hname hs)
    have hpend' : ¬Terminal job.id w' := by
      rw [Terminal, Has, Has, hwork]
      exact fun ht => hpend (ht.imp isSome_of_eraseWork isSome_of_eraseWork)
    rw [found_iff hpend', persistedCursor, hwork, eraseWork_logs, eraseWork_cursor]
    exact exists_mem_drop_filter huniq hp hkeep
  constructor
  · intro hf pre' hpre' p job hp hpend
    rw [hpre] at hpre'
    cases hpre'
    exact (hjob p job hp hpend).1 (hf job (List.mem_of_getElem? hp) hpend)
  · intro hfit job hmem hpend
    obtain ⟨p, hp⟩ := List.mem_iff_getElem?.1 hmem
    exact (hjob p job hp hpend).2 (hfit pre hpre p job hp hpend)

/-- A job of `A`, a job of `B`, and then workers. -/
def twoOwners : ℕ → QCall Unit
  | 0 => .enqueue (js "t") () ⟨some (js "x"), none, some (js "A"), none, none⟩
  | 1 => .enqueue (js "t") () ⟨some (js "y"), none, some (js "B"), none, none⟩
  | _ => .runOnce ⟨js "w", 30000, some 5, fun _ => true⟩ 3

/-- With pages of one job, `A`'s job is run, the cursor passes it, and `B`'s job
    fails once and waits for its next attempt. -/
def awaitingRetry : QWorld Unit :=
  ((qMachine ⟨1, Nat.one_pos⟩).play (qStart twoOwners 0)
    (steps 0 2 ++ steps 1 2 ++ steps 2 16 ++ steps 3 12 ++
      [.run 3 ⟨0, .error (js "e"), false, js "x"⟩] ++ steps 3 6)).world

theorem erase_found_iff_awaitingRetry :
    ∃ w', jobErase ⟨none, some (js "A")⟩ awaitingRetry = .ok w' ∧
      ((∀ job ∈ awaitingRetry.work.logs QJOB, PendingOther ⟨none, some (js "A")⟩ awaitingRetry job →
        Found ⟨1, Nat.one_pos⟩ job.id w') ↔ FitsCursor ⟨none, some (js "A")⟩ awaitingRetry) :=
  ⟨_, rfl, erase_found_iff _ twoOwners 0 _ _ _ rfl⟩

/-- Erasing `A` moves `B`'s waiting job before the cursor: no worker finds it. -/
theorem erase_loses_job :
    ¬∀ w', jobErase ⟨none, some (js "A")⟩ awaitingRetry = .ok w' →
      ∀ job ∈ awaitingRetry.work.logs QJOB, PendingOther ⟨none, some (js "A")⟩ awaitingRetry job →
        Found ⟨1, Nat.one_pos⟩ job.id w' := by
  intro h
  have hf := h _ rfl ⟨js "~o~:B:y", ⟨js "t", some (), ⟨none, some (js "B")⟩, false⟩⟩
    (by decide +kernel) ⟨by decide +kernel, js "y", ⟨none, some (js "B")⟩, by decide, by rfl⟩
    0 ⟨0, .ok (), false, []⟩ ⟨[], 0, none, fun _ => true⟩
  revert hf
  decide +kernel

end Gnldev.Queue
