import Gnldev.Queue.Worker
import Gnldev.Lib.RelyGuarantee

/-!
# The cursor of the queue

The persisted cursor is meant to have only terminal jobs before it: a scan does
not look there again. A scan that meets a page with a job it cannot take goes on
to the next page without persisting anything, but when a later page is all
terminal it persists the end of that page, and with it the page it stepped over.

So the invariant holds exactly as long as the jobs a scan has stepped over are
terminal by the time it persists (`StepsOverTerminal`): `cursor_covered_iff`. The
argument is as for the event bus: markers stay, and the log only grows at its end.
-/

open List

namespace Gnldev.Queue

open Durable

variable {P : Type}

/-- A key is present in the work store. -/
def Has (key : JsString) (w : QWorld P) : Prop := (w.work.kv.val key).isSome

/-- A job has a `qdone` or `qfail` marker. -/
def Terminal (id : JsString) (w : QWorld P) : Prop := Has (qdone id) w ∨ Has (qfail id) w

/-- The first `n` jobs of the log are there, and terminal. -/
def Covered (n : ℕ) (w : QWorld P) : Prop :=
  n ≤ (w.work.logs QJOB).length ∧ ∀ job ∈ (w.work.logs QJOB).take n, Terminal job.id w

/-- The persisted cursor. -/
def persistedCursor (w : QWorld P) : ℕ := (readCursor (w.work.kv.val QCURSOR)).getD 0

/-- The persisted cursor has only terminal jobs before it. -/
def CursorInv (w : QWorld P) : Prop := Covered (persistedCursor w) w

instance (key : JsString) (w : QWorld P) : Decidable (Has key w) :=
  inferInstanceAs (Decidable (_ = true))

instance (id : JsString) (w : QWorld P) : Decidable (Terminal id w) :=
  inferInstanceAs (Decidable (_ ∨ _))

instance (n : ℕ) (w : QWorld P) : Decidable (Covered n w) := inferInstanceAs (Decidable (_ ∧ _))

instance (w : QWorld P) : Decidable (CursorInv w) := inferInstanceAs (Decidable (Covered _ w))

/-- When the end of a page is persisted, every job before the page is terminal,
    those aside that an earlier persisted cursor has passed already. -/
def StepsOverTerminal (limit : ℕ+) (w : QWorld P) (_ : ℕ) : (o : QOp P) → o.Res → Prop
  | .work (.put k (.cursor next)), _ => k = QCURSOR →
    ∀ p job, (w.work.logs QJOB)[p]? = some job → p < next - limit →
      (∀ i n, .wrote QCURSOR i (.cursor n) ∈ w.trace → n ≤ p) → Terminal job.id w
  | _, _ => True

/-! ## The setting -/

/-- The invariant: every cursor ever persisted has only terminal jobs before it. -/
structure ScanInv (w : QWorld P) : Prop where
  now : CursorInv w
  ever : ∀ i n, .wrote QCURSOR i (.cursor n) ∈ w.trace → Covered n w

/-- The setting of the argument. -/
def scanRG (limit : ℕ+) : RG (QOp P) QOp.Res (QWorld P) QAnswer ℕ where
  M := qMachine limit
  ok := StepsOverTerminal limit
  I := ScanInv
  G _ w w' := w.work.Extends w'.work

theorem Covered.extends {n : ℕ} {w w' : QWorld P} (hw : Covered n w)
    (h : w.work.Extends w'.work) : Covered n w' := by
  obtain ⟨rest, hrest⟩ := h.logs QJOB
  refine ⟨hw.1.trans (h.logs _).length_le, fun job hjob => ?_⟩
  rw [← hrest, take_append_of_le_length hw.1] at hjob
  exact (hw.2 job hjob).imp (h.keys _) (h.keys _)

section Kept

variable {limit : ℕ+}

theorem kept_of {R : QWorld P → Prop} (h : ∀ w w', w.work.Extends w'.work → R w → R w') :
    (scanRG limit).Kept R where
  step _ w w' _ _ hG hw := h w w' hG hw
  env _ w _ hw := h w _ (.refl w.work) hw

theorem kept_has (k : JsString) : (scanRG (P := P) limit).Kept (Has k) :=
  kept_of fun _ _ h hw => h.keys k hw

end Kept

/-! ## Operations -/

/-- What an operation on the work store teaches. -/
def Learns (limit : ℕ+) : (o : WorkOp (JobRecord P) JobValue) → o.Res → QWorld P → Prop
  | .get k, r, w => r.isSome → Has k w
  | .list ns cursor, page, w => ∀ next, page.nextCursor = some next →
    next = cursor.getD 0 + limit ∧ next ≤ (w.work.logs ns).length ∧
      (w.work.logs ns).take next = (w.work.logs ns).take (cursor.getD 0) ++ page.items
  | _, _, _ => True

/-- An operation on the locks puts nothing into the work store. -/
theorem wrote_notMem_events_lock {i j : ℕ} {k : JsString} {v : JobValue} (o : LockOp) (r : o.Res) :
    .wrote k j v ∉ QOp.events (P := P) i (.lock o) r := by
  rcases o with (k' | ⟨k', v'⟩ | ⟨k', v'⟩ | ⟨k', e, v'⟩) | _
  · exact not_mem_nil
  · exact not_mem_nil
  · simp only [QOp.events]
    split <;> simp
  · simp only [QOp.events]
    split <;> simp
  · exact not_mem_nil

/-- The operation does not move the cursor. -/
def Legal (o : WorkOp (JobRecord P) JobValue) : Prop :=
  ∀ k v, o.writes (.attempts 1) = some (k, v) → k ≠ QCURSOR

section Operations

variable {limit : ℕ+} {i : ℕ} {a : QAnswer} {w : QWorld P}

theorem kept_learns (o : WorkOp (JobRecord P) JobValue) (r : o.Res) :
    (scanRG limit).Kept (Learns limit o r) := by
  cases o with
  | get k => exact .imp _ (kept_has k)
  | list ns cursor =>
    refine kept_of fun w w' h hw next hnext => ?_
    obtain ⟨heq, hlen, htake⟩ := hw next hnext
    obtain ⟨rest, hrest⟩ := h.logs ns
    refine ⟨heq, hlen.trans (h.logs ns).length_le, ?_⟩
    rw [← hrest, take_append_of_le_length hlen, take_append_of_le_length (by omega), htake]
  | append ns payload id => exact RG.kept_const True
  | put k v => exact RG.kept_const True
  | ackOnce k => exact RG.kept_const True
  | putIfMatch k e v => exact RG.kept_const True

theorem learns_exec (o : WorkOp (JobRecord P) JobValue) :
    Learns limit o ((qMachine limit).exec i a (.work o) w).1
      ((qMachine limit).exec i a (.work o) w).2 := by
  cases o with
  | get k => exact fun h => h
  | list ns cursor => exact fun next h => take_nextCursor h
  | append ns payload id => trivial
  | put k v => trivial
  | ackOnce k => trivial
  | putIfMatch k e v => trivial

/-- An operation that moves no cursor keeps the invariant. -/
theorem scanInv_exec {o : WorkOp (JobRecord P) JobValue} (ho : Legal o) (hI : ScanInv w) :
    ScanInv ((qMachine limit).exec i a (.work o) w).2 := by
  have hext : w.work.Extends ((qMachine limit).exec i a (.work o) w).2.work := o.exec_extends w.work
  refine ⟨?_, fun i' n h => ?_⟩
  · have hcur : persistedCursor ((qMachine limit).exec i a (.work o) w).2 = persistedCursor w := by
      rcases o.exec_val w.work QCURSOR with h | ⟨v, hv, -⟩
      · exact congrArg (fun v => (readCursor v).getD 0) h
      · exact absurd rfl (ho _ v hv)
    rw [CursorInv, hcur]
    exact hI.now.extends hext
  · refine (hI.ever i' n ?_).extends hext
    rcases mem_append.1 h with h | h
    · cases o with
      | put k v =>
        simp only [QOp.events, mem_singleton, QEvent.wrote.injEq] at h
        exact absurd h.1.symm (ho k v rfl)
      | putIfMatch k e v =>
        simp only [QOp.events] at h
        split at h <;> simp at h
      | get k => cases h
      | list ns cursor => cases h
      | append ns payload id => cases h
      | ackOnce k => cases h
    · exact h

variable {R : QWorld P → Prop} (hR : (scanRG limit).Kept R)
include hR

/-- An operation on the work store. -/
theorem sat_work {o : WorkOp (JobRecord P) JobValue} (ho : Legal o) :
    (perform (.work o)).Sat (scanRG limit) i R fun r w => R w ∧ Learns limit o r w :=
  Prog.sat_perform hR (kept_learns o) fun w _ hI _ _ =>
    ⟨scanInv_exec ho hI, o.exec_extends w.work, learns_exec o⟩

/-- Any other operation. -/
theorem sat_other {o : QOp P} (ho : ∀ a w, ((qMachine limit).exec i a o w).2.work = w.work ∧
    ∀ i' v, .wrote QCURSOR i' v ∈ ((qMachine limit).exec i a o w).2.trace →
      .wrote QCURSOR i' v ∈ w.trace) :
    (perform o).Sat (scanRG limit) i R fun _ w => R w := by
  refine Prog.sat_kept hR ?_
  intro w a hI _ _
  obtain ⟨hw, htrace⟩ := ho a w
  have hext : w.work.Extends ((scanRG limit).M.exec i a o w).2.work := hw ▸ .refl w.work
  refine ⟨⟨?_, fun i' n h => (hI.ever i' n (htrace i' _ h)).extends hext⟩, hext, trivial⟩
  have hcur : persistedCursor ((scanRG limit).M.exec i a o w).2 = persistedCursor w :=
    congrArg (fun s : WorkState (JobRecord P) JobValue => (readCursor (s.kv.val QCURSOR)).getD 0) hw
  rw [CursorInv, hcur]
  exact hI.now.extends hext

theorem sat_lock (o : LockOp) :
    (perform (.lock o)).Sat (scanRG (P := P) limit) i R fun _ w => R w := by
  refine sat_other hR fun a w => ⟨rfl, fun i' v h => ?_⟩
  rcases mem_append.1 h with h | h
  · exact absurd h (wrote_notMem_events_lock o _)
  · exact h

theorem sat_outside {o : QOp P} (ho : ∀ a w, ((qMachine limit).exec i a o w).2.work = w.work ∧
    ((qMachine limit).exec i a o w).2.trace = w.trace) :
    (perform o).Sat (scanRG limit) i R fun _ w => R w :=
  sat_other hR fun a w => ⟨(ho a w).1, fun _ _ h => (ho a w).2 ▸ h⟩

end Operations

/-! ## The programs -/

section Programs

variable {limit : ℕ+} {i : ℕ} {R : QWorld P → Prop} (hR : (scanRG limit).Kept R)

theorem legal_read {o : WorkOp (JobRecord P) JobValue} (h : o.writes (.attempts 1) = none) :
    Legal o := by
  intro k v hv
  rw [h] at hv
  cases hv

theorem legal_write {o : WorkOp (JobRecord P) JobValue} {k : JsString} {v : JobValue}
    (h : o.writes (.attempts 1) = some (k, v)) (hk : k ≠ QCURSOR) : Legal o := by
  intro k' v' hv
  rw [h] at hv
  cases hv
  exact hk

/-- A key of a family other than `qcursor`'s is not the cursor's. -/
theorem append_ne_QCURSOR {fam : JsString} (id : JsString) (h : ¬fam <+: QCURSOR)
    (h' : ¬QCURSOR <+: fam) : fam ++ id ≠ QCURSOR := by
  have := JsString.append_ne_append h h' id []
  rwa [append_nil] at this

include hR

theorem acquireRunLock_sat (runId owner : JsString) (ttlMs : Int) (token : JsString) :
    (acquireRunLock qRuns runId owner ttlMs none token).Sat (scanRG limit) i R fun _ w => R w := by
  have hpure : ∀ l : Option RunLock,
      (pure l : QM P (Option RunLock)).Sat (scanRG limit) i R fun _ w => R w := fun _ _ _ h => h
  refine (sat_lock hR .now).bind fun t => ?_
  refine (sat_lock hR (.kv (.putIfAbsent _ _))).bind fun won => ?_
  split
  · exact hpure _
  · refine (sat_lock hR (.kv (.get _))).bind fun cur => ?_
    cases cur with
    | none => exact (sat_lock hR (.kv (.putIfAbsent _ _))).bind fun _ => hpure _
    | some cur =>
      simp only
      split
      · exact hpure _
      · exact (sat_lock hR (.kv (.putIfMatch _ _ _))).bind fun _ => hpure _

theorem renew_sat (lock : RunLock) (ttlMs : Int) :
    (lock.renew qRuns ttlMs).Sat (scanRG limit) i R fun _ w => R w := by
  refine (sat_lock hR (.kv (.get _))).bind fun cur => ?_
  cases cur with
  | none => exact fun _ _ h => h
  | some cur =>
    simp only
    split
    · exact fun _ _ h => h
    · exact (sat_lock hR .now).bind fun _ => sat_lock hR (.kv (.putIfMatch _ _ _))

theorem releaseLoop_sat (lock : RunLock) (attempts : ℕ) :
    (lock.releaseLoop qRuns attempts).Sat (scanRG limit) i R fun _ w => R w := by
  induction attempts with
  | zero => exact fun _ _ h => h
  | succ attempts ih =>
    refine (sat_lock hR (.kv (.get _))).bind fun cur => ?_
    cases cur with
    | none => exact fun _ _ h => h
    | some cur =>
      simp only
      split
      · exact fun _ _ h => h
      · refine (sat_lock hR (.kv (.putIfMatch _ _ _))).bind fun won => ?_
        split
        · exact fun _ _ h => h
        · exact ih

/-- A marker or counter is put. -/
theorem put_sat {k : JsString} {v : JobValue} (hk : k ≠ QCURSOR) :
    (qStore.put k v).Sat (scanRG limit) i R fun _ w => R w :=
  (sat_work hR (o := .put k v) (legal_write rfl hk)).post fun _ _ _ h => h.1

theorem get_sat (k : JsString) : (qStore.get k).Sat (scanRG limit) i R fun _ w => R w :=
  (sat_work hR (o := .get k) (legal_read rfl)).post fun _ _ _ h => h.1

theorem stillOwns_sat (id token : JsString) :
    (stillOwns qStore id token).Sat (scanRG limit) i R fun _ w => R w := by
  refine (sat_outside hR fun _ _ => ⟨rfl, rfl⟩).bind fun lost => ?_
  split
  · exact fun _ _ h => h
  · refine (sat_work hR (legal_write rfl ?_)).post fun _ _ _ h => h.1
    exact append_ne_QCURSOR id (by decide) (by decide)

variable {opts : WorkerOptions} (job : LogRecord (JobRecord P)) (token : JsString)

theorem failUnhandled_sat :
    (failUnhandled qStore job token).Sat (scanRG limit) i R fun _ w => R w := by
  refine (stillOwns_sat hR job.id token).bind fun owns => ?_
  split
  · exact put_sat hR (append_ne_QCURSOR _ (by decide) (by decide))
  · exact fun _ _ h => h

theorem succeed_sat : (succeed qStore job token).Sat (scanRG limit) i R fun _ w => R w := by
  refine (stillOwns_sat hR job.id token).bind fun owns => ?_
  split
  · refine (sat_outside hR fun _ _ => ⟨rfl, rfl⟩).bind fun now => ?_
    exact put_sat hR (append_ne_QCURSOR _ (by decide) (by decide))
  · exact fun _ _ h => h

theorem failAttempt_sat (err : JsString) :
    (failAttempt qStore opts job token err).Sat (scanRG limit) i R fun _ w => R w := by
  refine (stillOwns_sat hR job.id token).bind fun owns => ?_
  split
  · refine (get_sat hR _).bind fun raw => ?_
    refine (put_sat hR (append_ne_QCURSOR _ (by decide) (by decide))).bind fun _ => ?_
    split
    · exact put_sat hR (append_ne_QCURSOR _ (by decide) (by decide))
    · exact fun _ _ h => h
  · exact fun _ _ h => h

theorem attempt_sat : (attempt qStore opts job token).Sat (scanRG limit) i R fun _ w => R w := by
  unfold attempt
  split
  · refine (sat_outside hR fun _ _ => ⟨rfl, rfl⟩).bind fun claimed => ?_
    cases claimed with
    | error err => exact failAttempt_sat hR job token err
    | ok _ =>
      refine (sat_outside hR fun _ _ => ⟨rfl, rfl⟩).bind fun outcome => ?_
      cases outcome with
      | error err => exact failAttempt_sat hR job token err
      | ok _ => exact succeed_sat hR job token
  · exact failUnhandled_sat hR job token

theorem runJob_sat (lock : RunLock) :
    (runJob qStore qRuns opts job lock).Sat (scanRG limit) i R fun _ w => R w := by
  refine (put_sat hR (append_ne_QCURSOR _ (by decide) (by decide))).bind fun _ => ?_
  exact (attempt_sat hR job lock.token).bind fun _ => releaseLoop_sat hR lock 3

omit hR in
theorem isSome_of_truthy {raw : Option JobValue} (h : truthy raw) : raw.isSome := by
  cases raw with
  | none => cases h
  | some v => rfl

/-- What a page says when it is passed: if all its jobs are terminal, they are. -/
def Seen (items : List (LogRecord (JobRecord P))) (before : Bool) (w : QWorld P) : Scan → Prop
  | .ran => True
  | .passed allTerminal =>
    allTerminal = true → before = true ∧ ∀ job ∈ items, Terminal job.id w

theorem scanItems_sat (items : List (LogRecord (JobRecord P))) (before : Bool) :
    (scanItems qStore qRuns opts items before).Sat (scanRG limit) i R fun s w =>
      R w ∧ Seen items before w s := by
  induction items generalizing R before with
  | nil => exact fun w _ h => ⟨h, fun hb => ⟨hb, by simp⟩⟩
  | cons job items ih =>
    -- A marker that was seen is kept while the rest of the page is scanned.
    have hmarked : ∀ k, (∀ w : QWorld P, Has k w → Terminal job.id w) →
        (scanItems qStore qRuns opts items before).Sat (scanRG limit) i
          (fun w => R w ∧ Has k w) fun s w => R w ∧ Seen (job :: items) before w s := by
      intro k hk
      refine (ih (hR.and (kept_has k)) before).post fun s w _ h => ⟨h.1.1, ?_⟩
      cases s with
      | ran => trivial
      | passed b =>
        intro hb
        obtain ⟨hbefore, hitems⟩ := h.2 hb
        exact ⟨hbefore, forall_mem_cons.2 ⟨hk w h.1.2, hitems⟩⟩
    refine (sat_work hR (o := .get (qdone job.id)) (legal_read rfl)).bind fun done => ?_
    split
    · next hd =>
      exact (hmarked _ fun _ h => .inl h).pre fun w h => ⟨h.1, h.2 (isSome_of_truthy hd)⟩
    · refine ((sat_work hR (o := .get (qfail job.id)) (legal_read rfl)).pre fun _ h => h.1).bind
        fun failed => ?_
      split
      · next hf =>
        exact (hmarked _ fun _ h => .inr h).pre fun w h => ⟨h.1, h.2 (isSome_of_truthy hf)⟩
      · refine ((sat_outside hR fun _ _ => ⟨rfl, rfl⟩).pre fun _ h => h.1).bind fun token => ?_
        refine (acquireRunLock_sat hR _ _ _ _).bind fun lock => ?_
        cases lock with
        | none =>
          refine (ih hR false).post fun s w _ h => ⟨h.1, ?_⟩
          cases s with
          | ran => trivial
          | passed b => exact fun hb => absurd (h.2 hb).1 (by simp)
        | some lock => exact (runJob_sat hR job lock).bind fun _ _ _ h => ⟨h, trivial⟩

omit hR in
/-- A page of terminal jobs after jobs that are terminal, or that an earlier cursor
    has passed. -/
theorem covered_next {w : QWorld P} {cursor : Option ℕ} {page : Page (JobRecord P)} {next : ℕ}
    (hI : ScanInv w) (hnext : page.nextCursor = some next)
    (hpage : Learns limit (.list QJOB cursor) page w)
    (hitems : ∀ job ∈ page.items, Terminal job.id w)
    (hok : ∀ p job, (w.work.logs QJOB)[p]? = some job → p < next - limit →
      (∀ i n, .wrote QCURSOR i (.cursor n) ∈ w.trace → n ≤ p) → Terminal job.id w) :
    Covered next w := by
  obtain ⟨heq, hlen, htake⟩ := hpage next hnext
  refine ⟨hlen, fun job hjob => ?_⟩
  rw [htake, mem_append] at hjob
  rcases hjob with hjob | hjob
  · obtain ⟨p, hp⟩ := mem_iff_getElem?.1 hjob
    rw [getElem?_take] at hp
    split at hp
    · next hlt =>
      by_cases hpassed : ∃ i n, .wrote QCURSOR i (.cursor n) ∈ w.trace ∧ p < n
      · obtain ⟨i, n, hn, hpn⟩ := hpassed
        refine (hI.ever i n hn).2 job (mem_iff_getElem?.2 ⟨p, ?_⟩)
        rw [getElem?_take, if_pos hpn, hp]
      · refine hok p job hp (by omega) fun i n hn => Nat.le_of_not_lt fun hpn => ?_
        exact hpassed ⟨i, n, hn, hpn⟩
    · cases hp
  · exact hitems job hjob

omit hR in
/-- Persisting the end of a page whose jobs are all terminal. -/
theorem sat_putCursor {cursor : Option ℕ} {page : Page (JobRecord P)} {next : ℕ}
    (hnext : page.nextCursor = some next) :
    (qStore.put QCURSOR (.cursor next)).Sat (scanRG (P := P) limit) i
      (fun w => Learns limit (.list QJOB cursor) page w ∧ ∀ job ∈ page.items, Terminal job.id w)
      fun _ _ => True := by
  refine Prog.Sat.op (fun _ _ => True) (fun _ => (RG.kept_const True).stable i) ?_
    fun _ _ _ _ => trivial
  rintro w a hI ⟨hpage, hitems⟩ hok
  have hcov : Covered next w := covered_next hI hnext hpage hitems (hok rfl)
  have hext : w.work.Extends { w.work with kv := w.work.kv.set i w.clock QCURSOR (.cursor next) } :=
    w.work.extends_set ..
  refine ⟨⟨?_, fun i' n h => ?_⟩, hext, trivial⟩
  · have hcur : persistedCursor ((scanRG limit).M.exec i a
        (.work (.put QCURSOR (.cursor next))) w).2 = next :=
      congrArg (fun v => (readCursor v).getD 0) (Kv.set_val_self ..)
    rw [CursorInv, hcur]
    exact hcov.extends hext
  · rcases mem_cons.1 h with h | h
    · cases h
      exact hcov.extends hext
    · exact (hI.ever i' n h).extends hext

omit hR in
theorem scanPages_sat (fuel : ℕ) (cursor : Option ℕ) :
    (scanPages qStore qRuns opts fuel cursor).Sat (scanRG (P := P) limit) i
      (fun _ => True) fun _ _ => True := by
  induction fuel generalizing cursor with
  | zero => exact fun _ _ _ => trivial
  | succ fuel ih =>
    refine (sat_work (RG.kept_const True) (o := .list QJOB cursor) (legal_read rfl)).bind
      fun page => ?_
    refine ((scanItems_sat (kept_learns (.list QJOB cursor) page) page.items true).pre
      fun _ h => h.2).bind fun scan => ?_
    cases scan with
    | ran => exact fun _ _ _ => trivial
    | passed allTerminal =>
      cases hnext : page.nextCursor with
      | none => exact fun _ _ _ => trivial
      | some next =>
        simp only
        cases allTerminal with
        | false => exact (ih (some next)).pre fun _ _ => trivial
        | true =>
          refine Prog.Sat.bind (R := fun _ _ => True) ?_ fun _ => ih (some next)
          exact (sat_putCursor hnext).pre fun w h => ⟨h.1, (h.2 rfl).2⟩

omit hR in
theorem runOnce_sat (fuel : ℕ) :
    (runOnce qStore qRuns opts fuel).Sat (scanRG (P := P) limit) i
      (fun _ => True) fun _ _ => True :=
  (get_sat (RG.kept_const True) QCURSOR).bind fun _ => scanPages_sat fuel _

omit hR in
theorem countFrom_sat (ns : JsString) (maxDepth fuel count : ℕ) (cursor : Option ℕ) :
    (countFrom qStore ns maxDepth fuel count cursor).Sat (scanRG (P := P) limit) i
      (fun _ => True) fun _ _ => True := by
  induction fuel generalizing count cursor with
  | zero => exact fun _ _ _ => trivial
  | succ fuel ih =>
    refine (sat_work (RG.kept_const True) (legal_read rfl)).bind fun page => ?_
    refine Prog.Sat.pre (P := fun _ => True) ?_ fun _ _ => trivial
    extract_lets count'
    split
    · exact fun _ _ _ => trivial
    · split
      · exact fun _ _ _ => trivial
      · exact ih _ _

omit hR in
theorem enqueueAs_sat (rec_ : JobRecord P) (name : Option JsString) :
    (enqueueAs qStore rec_ name).Sat (scanRG (P := P) limit) i
      (fun _ => True) fun _ _ => True := by
  unfold enqueueAs
  split
  · exact fun _ _ _ => trivial
  · refine (sat_work (RG.kept_const True) (legal_read rfl)).bind fun id => ?_
    refine ((sat_work (RG.kept_const True) (legal_read rfl)).pre fun _ _ => trivial).bind fun _ => ?_
    exact fun _ _ _ => trivial

omit hR in
theorem enqueueNamed_sat (rec_ : JobRecord P) (id : Option JsString) :
    (enqueueNamed qStore rec_ id).Sat (scanRG (P := P) limit) i
      (fun _ => True) fun _ _ => True := by
  unfold enqueueNamed
  split
  · exact enqueueAs_sat _ _
  · split
    · exact (sat_outside (RG.kept_const True) fun _ _ => ⟨rfl, rfl⟩).bind fun _ => enqueueAs_sat _ _
    · exact enqueueAs_sat _ _

omit hR in
theorem enqueue_sat (scopedTo : Option JsString) (type : JsString) (payload : P)
    (enqOpts : EnqueueOptions) :
    (enqueue qStore scopedTo type payload enqOpts).Sat (scanRG (P := P) limit) i
      (fun _ => True) fun _ _ => True := by
  unfold enqueue
  split
  · exact fun _ _ _ => trivial
  · simp only
    split
    · exact enqueueNamed_sat _ _
    · refine (countFrom_sat _ _ _ _ _).bind fun depth => ?_
      split
      · exact fun _ _ _ => trivial
      · exact enqueueNamed_sat _ _

omit hR in
theorem prog_sat (call : QCall P) :
    call.prog.Sat (scanRG (P := P) limit) i (fun _ => True) fun _ _ => True := by
  cases call with
  | enqueue type payload opts => exact (enqueue_sat none type payload opts).bind fun _ _ _ _ => trivial
  | runOnce opts fuel => exact (runOnce_sat fuel).bind fun _ _ _ _ => trivial
  | renew lock ttlMs => exact (renew_sat (RG.kept_const True) lock ttlMs).bind fun _ _ _ _ => trivial

end Programs

/-! ## The invariant -/

/-- A cursor that has only terminal jobs before it was persisted over terminal jobs. -/
theorem permits_of_cursorInv {limit : ℕ+} (c : Conf (QOp P) QOp.Res Unit (QWorld P))
    (m : Move QAnswer ℕ) (h : CursorInv ((qMachine limit).move c m).world) :
    (qMachine limit).Permits (StepsOverTerminal limit) c m := by
  cases m with
  | env e => trivial
  | run i a =>
    simp only [Machine.move, Machine.Permits] at h ⊢
    cases hp : c.procs i with
    | pure x => trivial
    | op o k =>
      rw [hp] at h
      simp only
      unfold StepsOverTerminal
      split
      · next k' end_ =>
        rintro rfl p job hjob hlt -
        have h : CursorInv ((qMachine limit).exec i a (.work (.put QCURSOR (.cursor end_)))
            c.world).2 := h
        -- The world after the step has the new cursor, and the markers of the one before.
        have hcur : persistedCursor ((qMachine limit).exec i a
            (.work (.put QCURSOR (.cursor end_))) c.world).2 = end_ :=
          congrArg (fun v => (readCursor v).getD 0) (Kv.set_val_self ..)
        rw [CursorInv, hcur] at h
        have hmem : job ∈ (c.world.work.logs QJOB).take end_ := by
          refine mem_iff_getElem?.2 ⟨p, ?_⟩
          rw [getElem?_take, if_pos (by omega), hjob]
        have hold : ∀ fam : JsString, ¬fam <+: QCURSOR → ¬QCURSOR <+: fam →
            ((c.world.work.kv.set i c.world.clock QCURSOR (.cursor end_)).val (fam ++ job.id)).isSome →
              (c.world.work.kv.val (fam ++ job.id)).isSome := by
          intro fam h₁ h₂ hs
          rwa [Kv.set_val_of_ne _ _ _ _ (append_ne_QCURSOR job.id h₁ h₂)] at hs
        exact (h.2 job hmem).imp (hold _ (by decide) (by decide)) (hold _ (by decide) (by decide))
      · trivial

/-- **The cursor invariant.** In a run of any calls on the queue, in any
    interleaving, every job before the persisted cursor is terminal at all times,
    exactly if the jobs that the scans step over are terminal when they persist. -/
theorem cursor_covered_iff (limit : ℕ+) (calls : ℕ → QCall P) (t : Int)
    (ms : List (Move QAnswer ℕ)) :
    (∀ n, CursorInv ((qMachine limit).play (qStart calls t) (ms.take n)).world) ↔
      (qMachine limit).Meets (StepsOverTerminal limit) (qStart calls t) ms := by
  refine ⟨Machine.meets_of_always CursorInv permits_of_cursorInv, fun hms n => ?_⟩
  refine (Machine.play_sat (S := scanRG limit) (c := qStart calls t) (P := fun _ _ => True)
    (Q := fun _ _ _ => True) ?_ ?_ (fun i => (RG.kept_const True).stable i) (fun _ => trivial)
    (fun i => prog_sat (calls i)) (Machine.meets_take hms n)).now
  · exact fun w e hI => ⟨hI.now, hI.ever⟩
  · exact ⟨⟨Nat.zero_le _, fun _ h => absurd h List.not_mem_nil⟩, fun _ _ h => absurd h List.not_mem_nil⟩

/-- Three jobs, and then workers. -/
def threeJobs : ℕ → QCall Unit
  | 0 => .enqueue (js "t") () ⟨some (js "a"), none, none, none, none⟩
  | 1 => .enqueue (js "t") () ⟨some (js "b"), none, none, none, none⟩
  | 2 => .enqueue (js "t") () ⟨some (js "c"), none, none, none, none⟩
  | _ => .runOnce ⟨js "w", 30000, some 5, fun _ => true⟩ 3

/-- `n` steps of the call `i`, whose handler returns. -/
def steps (i n : ℕ) : List (Move QAnswer ℕ) :=
  List.replicate n (.run i ⟨0, .ok (), false, js "x"⟩)

/-- With pages of one job: a worker dies with the lease of the first job. A second
    one runs the second job; a third one steps over the first job, finds the second
    one's page all terminal, and persists its end. The first job is lost. -/
theorem cursor_passes_leased_job :
    ¬CursorInv ((qMachine ⟨1, Nat.one_pos⟩).play (qStart threeJobs 0)
      (steps 0 2 ++ steps 1 2 ++ steps 2 2 ++ steps 3 7 ++ steps 4 23 ++ steps 5 11)).world := by
  decide +kernel

end Gnldev.Queue
