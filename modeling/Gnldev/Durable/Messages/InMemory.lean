import Gnldev.Durable.Messages
import Gnldev.Lib.Prog
import Gnldev.Lib.Sorting

/-!
# Batches of messages in memory

The store in memory (`in-memory-storage.ts`, `InMemoryMemoryStore`) writes the rows of a batch in one
go, and the marker of its key after an `await`. What other calls do in between, the call does not see:
one with the same key finds no marker, and writes its rows, too. And the marker goes into the map of
markers that the call has found, or into one of its own if there was none, which then takes the place
of whatever is there.

* `BatchOp`, `BatchCall.run`: a call, split at its `await`;
* `ThreadExact`: what is promised of a thread;
* `batches_once`: it is so in every run in which no call misses a marker (`FindsMark`), and rows that
  bring their own positions bring free ones, one after the other (`InTurn`);
* `inTurn_of_oneAtAwait`: no call misses a marker if none looks while another is at its `await`.
-/

open List

namespace Gnldev.Durable

open Function

variable {M : Type}

/-! ## A thread -/

/-- A row of the thread, and which call has written it; that is not in the row. -/
structure MemoryRow (M : Type) where
  seq : ℤ
  message : M
  by_ : ℕ
  deriving DecidableEq

/-- The marker of a batch, with the half-open range of its positions. -/
structure BatchMark where
  key : JsString
  seqFrom : ℤ
  seqTo : ℤ
  deriving DecidableEq

/-- What is kept of a thread. A map of markers is an object: `batches` says which one is the thread's,
    by the call that has made it. -/
structure MemoryThread (M : Type) where
  log : List (MemoryRow M)
  maps : ℕ → List BatchMark
  batches : Option ℕ

/-- The position after the last one. -/
def nextSeq (log : List (MemoryRow M)) : ℤ := log.foldl (fun m r => max m (r.seq + 1)) 0

/-- The rows one by one, from the position `next` on; one whose position is taken is passed over. -/
def pushRows (i : ℕ) : List (MessageAppend M) → ℤ → List (MemoryRow M) → List (MemoryRow M)
  | [], _, log => log
  | ⟨seq, message⟩ :: rest, next, log =>
    let at_ := seq.getD next
    let next := if seq.isNone then next + 1 else next
    if log.any (·.seq = at_) then pushRows i rest next log
    else pushRows i rest next (log ++ [⟨at_, message, i⟩])

/-- The log with the rows of a call, in the order of the positions. -/
def appendBatch (i : ℕ) (rows : List (MessageAppend M)) (log : List (MemoryRow M)) :
    Except AppendError (List (MemoryRow M)) := do
  let _ ← assertUniformSeq rows
  return (pushRows i rows (nextSeq log) log).insertionSort fun a b => a.seq ≤ b.seq

/-- `seen.set(batchKey, …)`. -/
def setMark (mark : BatchMark) (marks : List BatchMark) : List BatchMark :=
  marks.filter (·.key ≠ mark.key) ++ [mark]

/-! ## Calls -/

/-- What a call does at once. -/
inductive BatchOp (M : Type) where
  | append (rows : List (MessageAppend M))
  /-- Look for the marker, and write the rows if there is none. -/
  | once (rows : List (MessageAppend M)) (key : JsString)
  /-- Write the marker into the map that was found. -/
  | mark (key : JsString) (seen : ℕ) (seqFrom : ℤ)

/-- What looking for a marker leads to: it is there, or the rows are. -/
inductive Looked where
  | known
  | wrote (seen : ℕ) (seqFrom : ℤ)
  deriving DecidableEq

abbrev BatchOp.Res : BatchOp M → Type
  | append _ => Except AppendError Unit
  | once _ _ => Except AppendError Looked
  | mark _ _ _ => Unit

inductive BatchCall (M : Type) where
  | appendMessages (rows : List (MessageAppend M))
  | appendMessagesOnce (rows : List (MessageAppend M)) (key : JsString)

/-- How a call ends: `appendMessages` returns nothing. -/
inductive BatchEnd where
  | done
  | returned (written : Bool)
  | threw (e : AppendError)
  deriving DecidableEq

abbrev BatchProg (M : Type) := Prog (BatchOp M) BatchOp.Res

/-- The rest of a call that has written its rows. -/
def markAndReturn (key : JsString) (seen : ℕ) (seqFrom : ℤ) : BatchProg M BatchEnd := do
  let _ ← Prog.perform (.mark key seen seqFrom)
  return .returned true

/-- The rest of a call, after it has looked for the marker. -/
def afterLook (key : JsString) : Except AppendError Looked → BatchProg M BatchEnd
  | .ok .known => return .returned false
  | .ok (.wrote seen seqFrom) => markAndReturn key seen seqFrom
  | .error e => return .threw e

def afterAppend : Except AppendError Unit → BatchProg M BatchEnd
  | .ok () => return .done
  | .error e => return .threw e

def BatchCall.run : BatchCall M → BatchProg M BatchEnd
  | appendMessages rows => do afterAppend (← Prog.perform (BatchOp.append rows))
  | appendMessagesOnce rows key => do afterLook key (← Prog.perform (BatchOp.once rows key))

def batchExec (i : ℕ) : (o : BatchOp M) → MemoryThread M → o.Res × MemoryThread M
  | .append rows, w =>
    match appendBatch i rows w.log with
    | .ok log => (.ok (), { w with log })
    | .error e => (.error e, w)
  | .once rows key, w =>
    let seen := w.batches.getD i
    if (w.maps seen).any (·.key = key) then (.ok .known, w)
    else
      match appendBatch i rows w.log with
      | .ok log => (.ok (.wrote seen (nextSeq w.log)), { w with log })
      | .error e => (.error e, w)
  | .mark key seen seqFrom, w =>
    ((), { w with
      maps := update w.maps seen (setMark ⟨key, seqFrom, nextSeq w.log⟩ (w.maps seen))
      batches := some seen })

def batchMachine : Machine (BatchOp M) BatchOp.Res (MemoryThread M) Unit Empty where
  exec i _ o w := batchExec i o w
  env e _ := e.elim

abbrev BatchConf (M : Type) := Conf (BatchOp M) BatchOp.Res BatchEnd (MemoryThread M)

/-- An empty thread, and all the calls. -/
def batchStart (calls : ℕ → BatchCall M) : BatchConf M :=
  ⟨⟨[], fun _ => [], none⟩, fun i => (calls i).run⟩

/-! ## What is promised -/

def BatchCall.rows : BatchCall M → List (MessageAppend M)
  | appendMessages rows | appendMessagesOnce rows _ => rows

def BatchCall.batchKey : BatchCall M → Option JsString
  | appendMessages _ => none
  | appendMessagesOnce _ key => some key

/-- The rows of a call, one after the other from the position `p` on. -/
def block (i : ℕ) : ℤ → List (MessageAppend M) → List (MemoryRow M)
  | _, [] => []
  | p, a :: rows => ⟨p, a.message, i⟩ :: block i (p + 1) rows

/-- The call has its rows in the log once, in their order, at positions one after the other. -/
def InPlace (log : List (MemoryRow M)) (i : ℕ) (rows : List (MessageAppend M)) : Prop :=
  ∃ p, log.filter (·.by_ = i) = block i p rows

/-- Of the calls with a key, one has written its rows; the others return that they have not. -/
structure ThreadExact (calls : ℕ → BatchCall M) (c : BatchConf M) : Prop where
  unique : ∀ i j key, (calls i).batchKey = some key → (calls j).batchKey = some key →
    c.procs i = .pure (.returned true) → c.procs j = .pure (.returned true) → i = j
  exists_ : ∀ i key written, (calls i).batchKey = some key → c.procs i = .pure (.returned written) →
    ∃ j, (calls j).batchKey = some key ∧ c.procs j = .pure (.returned true)
  inPlace : ∀ i, c.procs i = .pure (.returned true) ∨ c.procs i = .pure .done →
    InPlace c.world.log i (calls i).rows
  /-- No other call with the key of one that has written its rows has any. -/
  once : ∀ i key, (calls i).batchKey = some key → c.procs i = .pure (.returned true) →
    ∀ row ∈ c.world.log, (calls row.by_).batchKey = some key → row.by_ = i
  nothing : ∀ i, c.procs i = .pure (.returned false) → ∀ row ∈ c.world.log, row.by_ ≠ i
  distinct : c.world.log.Pairwise (·.seq < ·.seq)

/-! ## The condition -/

/-- The positions the rows bring begin at `p`, and are one after the other. -/
def FromSeq : ℤ → List (MessageAppend M) → Prop
  | _, [] => True
  | p, a :: rows => a.seq = some p ∧ FromSeq (p + 1) rows

/-- If the rows bring their positions, these are one after the other, and free. -/
def Placed (rows : List (MessageAppend M)) (log : List (MemoryRow M)) : Prop :=
  (∀ a ∈ rows, a.seq.isSome) → ∃ p, FromSeq p rows ∧ ∀ r ∈ log, r.seq < p ∨ p + rows.length ≤ r.seq

/-- A call with the key has written its rows. -/
def HasWritten (key : JsString) (p : BatchProg M BatchEnd) : Prop :=
  p = .pure (.returned true) ∨ ∃ seen seqFrom, p = markAndReturn key seen seqFrom

/-- The call finds the marker of its key in the map of the thread, or no call with the key has
    written its rows. -/
def FindsMark (calls : ℕ → BatchCall M) (c : BatchConf M) (key : JsString) : Prop :=
  (∃ m ∈ c.world.batches, ∃ mark ∈ c.world.maps m, mark.key = key) ∨
    ∀ j, (calls j).batchKey = some key → ¬HasWritten key (c.procs j)

/-- No call misses a marker, or brings positions that are taken or apart. -/
def InTurn (calls : ℕ → BatchCall M) (c : BatchConf M) (_ : ℕ) : (o : BatchOp M) → o.Res → Prop
  | .append rows, _ => Placed rows c.world.log
  | .once rows key, _ => Placed rows c.world.log ∧ FindsMark calls c key
  | .mark _ _ _, _ => True

/-! ## Writing rows -/

section Rows

variable {i j : ℕ} {rows : List (MessageAppend M)} {log log' : List (MemoryRow M)} {p : ℤ}

theorem mem_block {r : MemoryRow M} (h : r ∈ block i p rows) :
    r.by_ = i ∧ p ≤ r.seq ∧ r.seq < p + rows.length := by
  induction rows generalizing p with
  | nil => exact absurd h not_mem_nil
  | cons a rows ih =>
    rw [length_cons]
    rcases mem_cons.1 h with rfl | h
    · exact ⟨rfl, le_rfl, by push_cast; omega⟩
    · obtain ⟨hby, hle, hlt⟩ := ih h
      exact ⟨hby, by omega, by push_cast; omega⟩

theorem block_sorted (p : ℤ) (rows : List (MessageAppend M)) :
    (block i p rows).Pairwise (·.seq < ·.seq) := by
  induction rows generalizing p with
  | nil => exact .nil
  | cons a rows ih =>
    refine .cons (fun r hr => ?_) (ih (p + 1))
    have hle := (mem_block hr).2.1
    change p < r.seq
    omega

/-- Rows whose positions are free, given by the store or brought, come one after the other. -/
theorem pushRows_eq {next : ℤ} (hat : (∀ a ∈ rows, a.seq = none) ∧ next = p ∨ FromSeq p rows)
    (hfree : ∀ r ∈ log, r.seq < p ∨ p + rows.length ≤ r.seq) :
    pushRows i rows next log = log ++ block i p rows := by
  induction rows generalizing p next log with
  | nil => exact (append_nil log).symm
  | cons a rows ih =>
    obtain ⟨seq, message⟩ := a
    rw [length_cons] at hfree
    have hhere : log.any (·.seq = p) = false := by
      refine any_eq_false.2 fun r hr hp => ?_
      have := of_decide_eq_true hp
      rcases hfree r hr with h | h <;> push_cast at h <;> omega
    have hrest (next : ℤ) (h : (∀ a ∈ rows, a.seq = none) ∧ next = p + 1 ∨ FromSeq (p + 1) rows) :
        pushRows i rows next (log ++ [⟨p, message, i⟩]) =
          log ++ block i p (⟨seq, message⟩ :: rows) := by
      rw [ih h, append_assoc]
      · rfl
      · intro r hr
        rcases mem_append.1 hr with hr | hr
        · rcases hfree r hr with h | h <;> push_cast at h <;> omega
        · obtain rfl := mem_singleton.1 hr
          exact .inl (lt_add_one p)
    rcases hat with ⟨hnone, rfl⟩ | ⟨hseq, hfrom⟩
    · obtain ⟨hseq, hrows⟩ := forall_mem_cons.1 hnone
      obtain rfl : seq = none := hseq
      simp only [pushRows, Option.getD_none, hhere]
      exact hrest _ (.inl ⟨hrows, rfl⟩)
    · obtain rfl : seq = some p := hseq
      simp only [pushRows, Option.getD_some, hhere]
      exact hrest _ (.inr hfrom)

/-- The position after the last one is beyond all. -/
theorem lt_nextSeq {r : MemoryRow M} (h : r ∈ log) : r.seq < nextSeq log := by
  have hle (l : List (MemoryRow M)) (m : ℤ) : m ≤ l.foldl (fun m r => max m (r.seq + 1)) m ∧
      ∀ r ∈ l, r.seq < l.foldl (fun m r => max m (r.seq + 1)) m := by
    induction l generalizing m with
    | nil => exact ⟨le_rfl, fun r hr => absurd hr not_mem_nil⟩
    | cons a l ih =>
      obtain ⟨hm, hl⟩ := ih (max m (a.seq + 1))
      refine ⟨(le_max_left _ _).trans hm, fun r hr => ?_⟩
      rcases mem_cons.1 hr with rfl | hr
      · exact (lt_add_one _).trans_le ((le_max_right m _).trans hm)
      · exact hl r hr
  exact (hle log 0).2 r h

/-- The rows of a call, if it does not throw, are where nothing else is. -/
theorem appendBatch_eq (hplaced : Placed rows log) (h : appendBatch i rows log = .ok log') :
    ∃ p, (∀ r ∈ log, r.seq < p ∨ p + rows.length ≤ r.seq) ∧
      log' = (log ++ block i p rows).insertionSort fun a b => a.seq ≤ b.seq := by
  rw [appendBatch] at h
  rcases hassert : assertUniformSeq rows with e | assign
  · rw [hassert] at h
    contradiction
  · rw [hassert] at h
    obtain rfl := Except.ok.inj h
    simp only [assertUniformSeq] at hassert
    split at hassert
    · contradiction
    · next huniform =>
      rcases Classical.em (rows.countP (·.seq.isSome) = 0) with hzero | hzero
      · -- The store gives the positions.
        have hnone : ∀ a ∈ rows, a.seq = none := fun a ha => by
          simpa using countP_eq_zero.1 hzero a ha
        refine ⟨nextSeq log, fun r hr => .inl (lt_nextSeq hr), ?_⟩
        rw [pushRows_eq (.inl ⟨hnone, rfl⟩) fun r hr => .inl (lt_nextSeq hr)]
      · obtain ⟨p, hfrom, hfree⟩ := hplaced (countP_eq_length.1 (by tauto))
        exact ⟨p, hfree, by rw [pushRows_eq (.inr hfrom) hfree]⟩

/-- What the log is after a call has written its rows. -/
structure RowsWritten (i : ℕ) (rows : List (MessageAppend M)) (log log' : List (MemoryRow M)) :
    Prop where
  sorted : log'.Pairwise (·.seq < ·.seq)
  others : ∀ j ≠ i, log'.filter (·.by_ = j) = log.filter (·.by_ = j)
  own : InPlace log' i rows
  mem : ∀ r ∈ log', r ∈ log ∨ r.by_ = i

theorem appendBatch_written (hsorted : log.Pairwise (·.seq < ·.seq)) (hno : ∀ r ∈ log, r.by_ ≠ i)
    (hplaced : Placed rows log) (h : appendBatch i rows log = .ok log') :
    RowsWritten i rows log log' := by
  obtain ⟨p, hfree, rfl⟩ := appendBatch_eq hplaced h
  have hperm := perm_insertionSort (fun a b : MemoryRow M => a.seq ≤ b.seq)
    (log ++ block i p rows)
  have hfilter (j : ℕ) := filter_insertionSort (r := fun a b : MemoryRow M => a.seq ≤ b.seq)
    (fun r : MemoryRow M => r.by_ = j) (log ++ block i p rows)
  simp only [filter_append] at hfilter
  refine ⟨?_, fun j hj => ?_, ⟨p, ?_⟩, fun r hr => ?_⟩
  · -- The positions are in order, and none is twice.
    have hne : (log ++ block i p rows).Pairwise (·.seq ≠ ·.seq) := by
      refine pairwise_append.2 ⟨hsorted.imp ne_of_lt, (block_sorted p rows).imp ne_of_lt, ?_⟩
      intro r hr r' hr' heq
      obtain ⟨-, hle, hlt⟩ := mem_block hr'
      rcases hfree r hr with h | h <;> omega
    have hne' := (hperm.pairwise_iff fun {_ _} h => h.symm).2 hne
    have hle := pairwise_insertionSort (fun a b : MemoryRow M => a.seq ≤ b.seq)
      (log ++ block i p rows)
    exact (hle.and hne').imp fun h => lt_of_le_of_ne h.1 h.2
  · have hnone : (block i p rows).filter (·.by_ = j) = [] := by
      refine filter_eq_nil_iff.2 fun r hr => ?_
      rw [(mem_block hr).1, decide_eq_true_eq]
      exact hj.symm
    rw [hfilter, hnone, append_nil]
    exact (hsorted.filter _).imp le_of_lt |>.insertionSort_eq
  · have hnone : log.filter (·.by_ = i) = [] :=
      filter_eq_nil_iff.2 fun r hr => by simpa using hno r hr
    have hall : (block i p rows).filter (·.by_ = i) = block i p rows :=
      filter_eq_self.2 fun r hr => decide_eq_true (mem_block hr).1
    rw [hfilter, hnone, hall, nil_append]
    exact (block_sorted p rows).imp le_of_lt |>.insertionSort_eq
  · rcases mem_append.1 (hperm.mem_iff.1 hr) with hr | hr
    · exact .inl hr
    · exact .inr (mem_block hr).1

end Rows

/-! ## Runs -/

section Runs

variable {calls : ℕ → BatchCall M} {c : BatchConf M} {i : ℕ}

/-- The call has written its rows. -/
def Wrote (call : BatchCall M) (p : BatchProg M BatchEnd) : Prop :=
  call.batchKey = none ∧ p = .pure .done ∨ ∃ key, call.batchKey = some key ∧ HasWritten key p

/-- Where a call is: at its start, past its rows, or at an end without any. -/
def Stage (call : BatchCall M) (p : BatchProg M BatchEnd) : Prop :=
  p = call.run ∨ Wrote call p ∨ ∃ e, e ≠ .done ∧ e ≠ .returned true ∧ p = .pure e

/-- The invariant. -/
structure BatchInv (calls : ℕ → BatchCall M) (c : BatchConf M) : Prop where
  stage : ∀ i, Stage (calls i) (c.procs i)
  wrote : ∀ r ∈ c.world.log, Wrote (calls r.by_) (c.procs r.by_)
  inPlace : ∀ i, Wrote (calls i) (c.procs i) → InPlace c.world.log i (calls i).rows
  unique : ∀ i j key, (calls i).batchKey = some key → (calls j).batchKey = some key →
    HasWritten key (c.procs i) → HasWritten key (c.procs j) → i = j
  /-- A marker is that of a call that has returned. -/
  marked : ∀ m, ∀ mark ∈ c.world.maps m, ∃ j, (calls j).batchKey = some mark.key ∧
    c.procs j = .pure (.returned true)
  known : ∀ i key, (calls i).batchKey = some key → c.procs i = .pure (.returned false) →
    ∃ j, (calls j).batchKey = some key ∧ c.procs j = .pure (.returned true)
  sorted : c.world.log.Pairwise (·.seq < ·.seq)

theorem not_wrote_run (call : BatchCall M) : ¬Wrote call call.run := by
  rcases call with rows | ⟨rows, key⟩ <;> rintro (⟨_, h⟩ | ⟨_, _, h | ⟨_, _, h⟩⟩) <;> cases h

/-- A call that throws, or finds its marker, has not. -/
theorem not_wrote_pure {call : BatchCall M} {e : BatchEnd} (hdone : e ≠ .done)
    (htrue : e ≠ .returned true) : ¬Wrote call (.pure e) := by
  rintro (⟨_, h⟩ | ⟨_, _, h | ⟨_, _, h⟩⟩)
  · exact hdone (Prog.pure.inj h)
  · exact htrue (Prog.pure.inj h)
  · cases h

theorem run_ne_pure (call : BatchCall M) (e : BatchEnd) : call.run ≠ .pure e := by
  rcases call with rows | ⟨rows, key⟩ <;> exact fun h => by cases h

/-- A call that is at its start is none of those that have returned. -/
theorem pure_update {p : BatchProg M BatchEnd} {e : BatchEnd} (hi : ∀ e, c.procs i ≠ .pure e) {j : ℕ}
    (h : c.procs j = .pure e) : update c.procs i p j = .pure e := by
  rw [update_of_ne]
  · exact h
  · rintro rfl
    exact hi e h

section Step

variable (hI : BatchInv calls c) (hi : c.procs i = (calls i).run)
include hI hi

/-- A call writes its rows. -/
theorem BatchInv.write {log' : List (MemoryRow M)} {p : BatchProg M BatchEnd}
    (hlog : RowsWritten i (calls i).rows c.world.log log') (hp : Wrote (calls i) p)
    (hfalse : p ≠ .pure (.returned false))
    (hfirst : ∀ key, (calls i).batchKey = some key → ∀ j, (calls j).batchKey = some key →
      ¬HasWritten key (c.procs j)) :
    BatchInv calls ⟨{ c.world with log := log' }, update c.procs i p⟩ := by
  have hstart (e : BatchEnd) : c.procs i ≠ .pure e := hi ▸ run_ne_pure _ e
  refine ⟨fun j => ?_, fun r hr => ?_, fun j hj => ?_, fun j k key hj hk hwj hwk => ?_,
    fun m mark hmark => ?_, fun j key hj hret => ?_, hlog.sorted⟩
  · by_cases hji : j = i
    · subst hji
      simpa using .inr (.inl hp)
    · simpa [hji] using hI.stage j
  · by_cases hri : r.by_ = i
    · simpa [hri] using hp
    · simpa [hri] using hI.wrote r ((hlog.mem r hr).resolve_right hri)
  · by_cases hji : j = i
    · subst hji
      exact hlog.own
    · simp only [update_of_ne hji] at hj
      obtain ⟨p, hp⟩ := hI.inPlace j hj
      exact ⟨p, (hlog.others j hji).trans hp⟩
  · by_cases hji : j = i
    · by_cases hki : k = i
      · rw [hji, hki]
      · simp only [update_of_ne hki] at hwk
        exact absurd hwk (hfirst key (hji ▸ hj) k hk)
    · simp only [update_of_ne hji] at hwj
      by_cases hki : k = i
      · exact absurd hwj (hfirst key (hki ▸ hk) j hj)
      · simp only [update_of_ne hki] at hwk
        exact hI.unique j k key hj hk hwj hwk
  · obtain ⟨j, hj, hret⟩ := hI.marked m mark hmark
    exact ⟨j, hj, pure_update hstart hret⟩
  · by_cases hji : j = i
    · subst hji
      simp only [update_self] at hret
      exact absurd hret hfalse
    · simp only [update_of_ne hji] at hret
      obtain ⟨k, hk, hret⟩ := hI.known j key hj hret
      exact ⟨k, hk, pure_update hstart hret⟩

/-- A call ends without having written anything. -/
theorem BatchInv.return_ {e : BatchEnd} (hdone : e ≠ .done) (htrue : e ≠ .returned true)
    (hknown : e = .returned false → ∀ key, (calls i).batchKey = some key →
      ∃ j, (calls j).batchKey = some key ∧ c.procs j = .pure (.returned true)) :
    BatchInv calls ⟨c.world, update c.procs i (.pure e)⟩ := by
  have hstart (e : BatchEnd) : c.procs i ≠ .pure e := hi ▸ run_ne_pure _ e
  have hwrote {j : ℕ} (hj : Wrote (calls j) (update c.procs i (.pure e) j)) :
      j ≠ i ∧ Wrote (calls j) (c.procs j) := by
    by_cases hji : j = i
    · subst hji
      rw [update_self] at hj
      exact absurd hj (not_wrote_pure hdone htrue)
    · rw [update_of_ne hji] at hj
      exact ⟨hji, hj⟩
  refine ⟨fun j => ?_, fun r hr => ?_, fun j hj => hI.inPlace j (hwrote hj).2,
    fun j k key hj hk hwj hwk => ?_, fun m mark hmark => ?_, fun j key hj hret => ?_, hI.sorted⟩
  · by_cases hji : j = i
    · subst hji
      exact .inr (.inr ⟨e, hdone, htrue, update_self _ _ _⟩)
    · simpa [hji] using hI.stage j
  · have hr := hI.wrote r hr
    by_cases hri : r.by_ = i
    · rw [hri, hi] at hr
      exact absurd hr (not_wrote_run _)
    · simpa [hri] using hr
  · have hji := (hwrote (.inr ⟨key, hj, hwj⟩)).1
    have hki := (hwrote (.inr ⟨key, hk, hwk⟩)).1
    simp only [update_of_ne hji] at hwj
    simp only [update_of_ne hki] at hwk
    exact hI.unique j k key hj hk hwj hwk
  · obtain ⟨j, hj, hret⟩ := hI.marked m mark hmark
    exact ⟨j, hj, pure_update hstart hret⟩
  · have hold : ∃ k, (calls k).batchKey = some key ∧ c.procs k = .pure (.returned true) := by
      by_cases hji : j = i
      · subst hji
        simp only [update_self, Prog.pure.injEq] at hret
        exact hknown hret key hj
      · simp only [update_of_ne hji] at hret
        exact hI.known j key hj hret
    obtain ⟨k, hk, hret⟩ := hold
    exact ⟨k, hk, pure_update hstart hret⟩

end Step

/-- A call writes its marker, and returns. -/
theorem BatchInv.mark (hI : BatchInv calls c) {key : JsString} {seen : ℕ} {seqFrom : ℤ}
    (hkey : (calls i).batchKey = some key) (hi : c.procs i = markAndReturn key seen seqFrom)
    {seqTo : ℤ} {batches : Option ℕ} :
    BatchInv calls ⟨{ c.world with
      maps := update c.world.maps seen
        (setMark ⟨key, seqFrom, seqTo⟩ (c.world.maps seen))
      batches }, update c.procs i (.pure (.returned true))⟩ := by
  have hstart (e : BatchEnd) : c.procs i ≠ .pure e := by
    rw [hi]
    exact fun h => by cases h
  have hwritten {j : ℕ} {k : JsString}
      (hj : HasWritten k (update c.procs i (.pure (.returned true)) j))
      (hk : (calls j).batchKey = some k) :
      HasWritten k (c.procs j) := by
    by_cases hji : j = i
    · subst hji
      obtain rfl : key = k := Option.some.inj (hkey.symm.trans hk)
      exact .inr ⟨seen, seqFrom, hi⟩
    · rwa [update_of_ne hji] at hj
  have hwrote (j : ℕ) : Wrote (calls j) (update c.procs i (.pure (.returned true)) j) ↔
      Wrote (calls j) (c.procs j) := by
    by_cases hji : j = i
    · subst hji
      rw [update_self, hi]
      exact iff_of_true (.inr ⟨key, hkey, .inl rfl⟩) (.inr ⟨key, hkey, .inr ⟨seen, seqFrom, rfl⟩⟩)
    · rw [update_of_ne hji]
  refine ⟨fun j => ?_, fun r hr => (hwrote _).2 (hI.wrote r hr),
    fun j hj => hI.inPlace j ((hwrote j).1 hj), fun j k key' hj hk hwj hwk => ?_,
    fun m mark hmark => ?_, fun j key' hj hret => ?_, hI.sorted⟩
  · by_cases hji : j = i
    · subst hji
      exact .inr (.inl ((hwrote j).2 (.inr ⟨key, hkey, .inr ⟨seen, seqFrom, hi⟩⟩)))
    · simpa [hji] using hI.stage j
  · exact hI.unique j k key' hj hk (hwritten hwj hj) (hwritten hwk hk)
  · have hcases : mark.key = key ∨ mark ∈ c.world.maps m := by
      by_cases hm : m = seen
      · subst hm
        simp only [update_self, setMark, mem_append, mem_filter,
          mem_singleton] at hmark
        rcases hmark with ⟨hmark, -⟩ | rfl
        · exact .inr hmark
        · exact .inl rfl
      · simp only [update_of_ne hm] at hmark
        exact .inr hmark
    rcases hcases with hmark | hmark
    · exact ⟨i, hmark ▸ hkey, update_self _ _ _⟩
    · obtain ⟨j, hj, hret⟩ := hI.marked m mark hmark
      exact ⟨j, hj, pure_update hstart hret⟩
  · have hji : j ≠ i := by
      rintro rfl
      simp only [update_self] at hret
      cases hret
    simp only [update_of_ne hji] at hret
    obtain ⟨k, hk, hret⟩ := hI.known j key' hj hret
    exact ⟨k, hk, pure_update hstart hret⟩

/-- No call that is at its start has rows in the log. -/
theorem BatchInv.no_rows (hI : BatchInv calls c) (hi : c.procs i = (calls i).run) :
    ∀ r ∈ c.world.log, r.by_ ≠ i := by
  rintro r hr rfl
  have h := hI.wrote r hr
  rw [hi] at h
  exact not_wrote_run _ h

/-- Looking for a marker. -/
theorem BatchInv.look (hI : BatchInv calls c) (hi : c.procs i = (calls i).run)
    {rows : List (MessageAppend M)} {key : JsString}
    (hcall : calls i = .appendMessagesOnce rows key) (hplaced : Placed rows c.world.log)
    (hfinds : FindsMark calls c key) :
    BatchInv calls ⟨(batchExec i (.once rows key) c.world).2, update c.procs i
      (afterLook key (batchExec i (.once rows key) c.world).1)⟩ := by
  have hkey : (calls i).batchKey = some key := by rw [hcall]; rfl
  simp only [batchExec]
  split
  · -- The marker is there, so the call with the key has returned.
    next hfound =>
    refine hI.return_ hi nofun nofun fun _ key' hkey' => ?_
    obtain rfl := Option.some.inj (hkey.symm.trans hkey')
    obtain ⟨mark, hmark, heq⟩ := any_eq_true.1 hfound
    obtain rfl : mark.key = key := of_decide_eq_true heq
    exact hI.marked _ mark hmark
  · next hmissing =>
    have hnone : ∀ j, (calls j).batchKey = some key → ¬HasWritten key (c.procs j) := by
      refine hfinds.resolve_left ?_
      rintro ⟨m, hm, mark, hmark, heq⟩
      refine hmissing (any_eq_true.2 ⟨mark, ?_, decide_eq_true heq⟩)
      rwa [hm, Option.getD_some]
    rcases happ : appendBatch i rows c.world.log with e | log'
    · exact hI.return_ hi nofun nofun nofun
    · have hlog := appendBatch_written hI.sorted (hI.no_rows hi) hplaced happ
      refine hI.write hi (p := markAndReturn key _ _) (by rw [hcall]; exact hlog)
        (.inr ⟨key, hkey, .inr ⟨_, _, rfl⟩⟩) (fun h => by cases h) ?_
      intro key' hkey' j hj
      obtain rfl := Option.some.inj (hkey.symm.trans hkey')
      exact hnone j hj

/-- Writing rows without a key. -/
theorem BatchInv.append (hI : BatchInv calls c) (hi : c.procs i = (calls i).run)
    {rows : List (MessageAppend M)} (hcall : calls i = .appendMessages rows)
    (hplaced : Placed rows c.world.log) :
    BatchInv calls ⟨(batchExec i (.append rows) c.world).2, update c.procs i
      (afterAppend (batchExec i (.append rows) c.world).1)⟩ := by
  simp only [batchExec]
  rcases happ : appendBatch i rows c.world.log with e | log'
  · exact hI.return_ hi nofun nofun nofun
  · have hlog := appendBatch_written hI.sorted (hI.no_rows hi) hplaced happ
    have hkey : (calls i).batchKey = none := by rw [hcall]; rfl
    refine hI.write hi (p := .pure .done) (by rw [hcall]; exact hlog) (.inl ⟨hkey, rfl⟩)
      (fun h => by cases h) fun key hkey' => ?_
    rw [hkey] at hkey'
    contradiction

/-- Every step keeps the invariant. -/
theorem BatchInv.step (hI : BatchInv calls c) {o : BatchOp M}
    {k : BatchOp.Res o → BatchProg M BatchEnd} (hp : c.procs i = .op o k)
    (hok : InTurn calls c i o (batchExec i o c.world).1) :
    BatchInv calls ⟨(batchExec i o c.world).2,
      update c.procs i (k (batchExec i o c.world).1)⟩ := by
  rcases hI.stage i with hi | hi | ⟨e, -, -, hi⟩
  · have hrun := hi.symm.trans hp
    rcases hcall : calls i with rows | ⟨rows, key⟩
    · rw [hcall] at hrun
      cases hrun
      exact hI.append hi hcall hok
    · rw [hcall] at hrun
      cases hrun
      exact hI.look hi hcall hok.1 hok.2
  · rcases hi with ⟨-, hi⟩ | ⟨key, hkey, hi | ⟨seen, seqFrom, hi⟩⟩
    · rw [hi] at hp
      cases hp
    · rw [hi] at hp
      cases hp
    · have hrun := hi.symm.trans hp
      cases hrun
      exact hI.mark hkey hi
  · rw [hi] at hp
    cases hp

theorem batchInv_start (calls : ℕ → BatchCall M) : BatchInv calls (batchStart calls) where
  stage _ := .inl rfl
  wrote _ hr := absurd hr not_mem_nil
  inPlace _ h := absurd h (not_wrote_run _)
  unique _ _ key hi _ h _ := absurd (.inr ⟨key, hi, h⟩) (not_wrote_run _)
  marked _ _ h := absurd h not_mem_nil
  known _ _ _ h := absurd h (run_ne_pure _ _)
  sorted := .nil

/-- A call that has returned, and not false, has written its rows. -/
theorem Stage.wrote {call : BatchCall M} {p : BatchProg M BatchEnd} (h : Stage call p)
    (hp : p = .pure (.returned true) ∨ p = .pure .done) : Wrote call p := by
  rcases h with rfl | h | ⟨e, hdone, htrue, rfl⟩
  · rcases hp with hp | hp <;> exact absurd hp (run_ne_pure _ _)
  · exact h
  · rcases hp with hp | hp
    · exact absurd (Prog.pure.inj hp) htrue
    · exact absurd (Prog.pure.inj hp) hdone

theorem BatchInv.exact (hI : BatchInv calls c) : ThreadExact calls c where
  unique i j key hi hj hwi hwj := hI.unique i j key hi hj (.inl hwi) (.inl hwj)
  exists_ i key written hi hret := by
    rcases written with _ | _
    · exact hI.known i key hi hret
    · exact ⟨i, hi, hret⟩
  inPlace i h := hI.inPlace i ((hI.stage i).wrote h)
  once i key hi hret r hr hkey := by
    rcases hI.wrote r hr with ⟨hnone, -⟩ | ⟨key', hkey', hw⟩
    · rw [hnone] at hkey
      contradiction
    · obtain rfl := Option.some.inj (hkey.symm.trans hkey')
      exact hI.unique r.by_ i key hkey hi hw (.inl hret)
  nothing i hret r hr := by
    rintro rfl
    have h := hI.wrote r hr
    rw [hret] at h
    have hno : ¬Wrote (calls r.by_) (.pure (.returned false)) := not_wrote_pure nofun nofun
    exact hno h
  distinct := hI.sorted

end Runs

/-- In every run in which no call misses a marker, the thread is exact. -/
theorem batches_once (calls : ℕ → BatchCall M) {ms : List (Move Unit Empty)}
    (h : batchMachine.Obeys (InTurn calls) (batchStart calls) ms) :
    ThreadExact calls (batchMachine.play (batchStart calls) ms) :=
  (Machine.obeys_induction (BatchInv calls) (fun _ _ _ _ _ hI hp hok => hI.step hp hok)
    (fun _ e => e.elim) (batchInv_start calls) h).exact

/-! ### Calls that are not between their writes -/

section OneAtAwait

variable {calls : ℕ → BatchCall M} {c : BatchConf M}

/-- The call looks while no other one is at its `await`. -/
def OneAtAwait (_ : ℕ → BatchCall M) (c : BatchConf M) (_ : ℕ) : (o : BatchOp M) → o.Res → Prop
  | .append rows, _ => Placed rows c.world.log
  | .once rows _, _ => Placed rows c.world.log ∧
    ∀ j key seen seqFrom, c.procs j ≠ markAndReturn key seen seqFrom
  | .mark _ _ _, _ => True

/-- One call at most is at its `await`, with the map of the thread, which has the other markers. -/
structure MarkInv (calls : ℕ → BatchCall M) (c : BatchConf M) : Prop where
  inv : BatchInv calls c
  alone : ∀ j k key seen seqFrom key' seen' seqFrom', c.procs j = markAndReturn key seen seqFrom →
    c.procs k = markAndReturn key' seen' seqFrom' → j = k
  current : ∀ j key seen seqFrom, c.procs j = markAndReturn key seen seqFrom →
    ∀ m ∈ c.world.batches, m = seen
  kept : ∀ j key, (calls j).batchKey = some key → c.procs j = .pure (.returned true) →
    ∃ m ∈ c.world.batches, ∃ mark ∈ c.world.maps m, mark.key = key

/-- Then the marker check of a call is sound. -/
theorem MarkInv.finds (h : MarkInv calls c)
    (hnone : ∀ j key seen seqFrom, c.procs j ≠ markAndReturn key seen seqFrom) (key : JsString) :
    FindsMark calls c key := by
  by_contra hmiss
  obtain ⟨hmark, hwritten⟩ := not_or.1 hmiss
  refine hwritten fun j hj hw => ?_
  rcases hw with hret | ⟨seen, seqFrom, hwait⟩
  · exact hmark (h.kept j key hj hret)
  · exact hnone j key seen seqFrom hwait

theorem MarkInv.inTurn (h : MarkInv calls c) {i : ℕ} {o : BatchOp M} {r : o.Res}
    (hok : OneAtAwait calls c i o r) : InTurn calls c i o r := by
  rcases o with rows | ⟨rows, key⟩ | _
  · exact hok
  · exact ⟨hok.1, h.finds hok.2 key⟩
  · trivial

/-- A call writes no marker. -/
theorem MarkInv.keep (h : MarkInv calls c) {i : ℕ} {w : MemoryThread M} {p : BatchProg M BatchEnd}
    (hinv : BatchInv calls ⟨w, update c.procs i p⟩) (hmaps : w.maps = c.world.maps)
    (hbatches : w.batches = c.world.batches) (hret : p ≠ .pure (.returned true))
    (hwait : ∀ key seen seqFrom, p = markAndReturn key seen seqFrom →
      (∀ j key seen seqFrom, c.procs j ≠ markAndReturn key seen seqFrom) ∧
        ∀ m ∈ c.world.batches, m = seen) : MarkInv calls ⟨w, update c.procs i p⟩ := by
  have hold (j : ℕ) (q : BatchProg M BatchEnd) (hj : update c.procs i p j = q) :
      j = i ∧ p = q ∨ j ≠ i ∧ c.procs j = q := by
    by_cases hji : j = i
    · subst hji
      exact .inl ⟨rfl, by rwa [update_self] at hj⟩
    · exact .inr ⟨hji, by rwa [update_of_ne hji] at hj⟩
  refine ⟨hinv, fun j k key seen seqFrom key' seen' seqFrom' hj hk => ?_,
    fun j key seen seqFrom hj m hm => ?_, fun j key hkey hj => ?_⟩
  · rcases hold j _ hj with ⟨rfl, hp⟩ | ⟨hji, hj⟩
    · rcases hold k _ hk with ⟨rfl, -⟩ | ⟨-, hk⟩
      · rfl
      · exact absurd hk ((hwait _ _ _ hp).1 _ _ _ _)
    · rcases hold k _ hk with ⟨-, hp⟩ | ⟨-, hk⟩
      · exact absurd hj ((hwait _ _ _ hp).1 _ _ _ _)
      · exact h.alone j k _ _ _ _ _ _ hj hk
  · replace hm : m ∈ c.world.batches := hbatches ▸ hm
    rcases hold j _ hj with ⟨rfl, hp⟩ | ⟨-, hj⟩
    · exact (hwait _ _ _ hp).2 m hm
    · exact h.current j _ _ _ hj m hm
  · rcases hold j _ hj with ⟨rfl, hp⟩ | ⟨-, hj⟩
    · exact absurd hp hret
    · rw [hbatches, hmaps]
      exact h.kept j key hkey hj

theorem MarkInv.step (h : MarkInv calls c) {i : ℕ} {o : BatchOp M}
    {k : BatchOp.Res o → BatchProg M BatchEnd} (hp : c.procs i = .op o k)
    (hok : OneAtAwait calls c i o (batchExec i o c.world).1) :
    MarkInv calls ⟨(batchExec i o c.world).2,
      update c.procs i (k (batchExec i o c.world).1)⟩ := by
  have hinv := h.inv.step hp (h.inTurn hok)
  rcases h.inv.stage i with hi | hi | ⟨e, -, -, hi⟩
  · have hrun := hi.symm.trans hp
    rcases hcall : calls i with rows | ⟨rows, key⟩ <;> rw [hcall] at hrun
    · cases hrun
      simp only [batchExec] at hinv ⊢
      rcases happ : appendBatch i rows c.world.log with e | log' <;> simp only [happ] at hinv ⊢
      all_goals exact h.keep hinv rfl rfl nofun nofun
    · cases hrun
      simp only [batchExec] at hinv ⊢
      split at hinv
      · next hfound =>
        simp only [if_pos hfound]
        exact h.keep hinv rfl rfl nofun nofun
      · next hmissing =>
        simp only [if_neg hmissing]
        rcases happ : appendBatch i rows c.world.log with e | log' <;> simp only [happ] at hinv ⊢
        · exact h.keep hinv rfl rfl nofun nofun
        · refine h.keep hinv rfl rfl nofun fun key' seen seqFrom heq => ⟨hok.2, fun m hm => ?_⟩
          cases heq
          rw [hm, Option.getD_some]
  · rcases hi with ⟨-, hi⟩ | ⟨key, hkey, hi | ⟨seen, seqFrom, hi⟩⟩
    · exact nomatch hi.symm.trans hp
    · exact nomatch hi.symm.trans hp
    · cases hi.symm.trans hp
      -- The other markers are in the same map.
      have hothers (j : ℕ) (hji : j ≠ i) (key' : JsString) (seen' : ℕ) (seqFrom' : ℤ) :
          c.procs j ≠ markAndReturn key' seen' seqFrom' := fun hj =>
        hji (h.alone j i _ _ _ _ _ _ hj hi)
      have hnone (j : ℕ) (key' : JsString) (seen' : ℕ) (seqFrom' : ℤ) :
          update c.procs i (.pure (.returned true)) j ≠ markAndReturn key' seen' seqFrom' := by
        by_cases hji : j = i
        · rw [hji, update_self]
          exact nofun
        · rw [update_of_ne hji]
          exact hothers j hji _ _ _
      refine ⟨hinv, fun j _ _ _ _ _ _ _ hj => absurd hj (hnone j _ _ _),
        fun j _ _ _ hj => absurd hj (hnone j _ _ _), fun j key' hkey' hj => ⟨seen, rfl, ?_⟩⟩
      simp only [batchExec, update_self, setMark, mem_append, mem_singleton]
      by_cases heq : key' = key
      · exact ⟨_, .inr rfl, heq.symm⟩
      · have hji : j ≠ i := by
          rintro rfl
          exact heq (Option.some.inj (hkey'.symm.trans hkey))
        obtain ⟨m, hm, mark, hmark, rfl⟩ := h.kept j key' hkey' ((update_of_ne hji _ _).symm.trans hj)
        rw [h.current i _ _ _ hi m hm] at hmark
        exact ⟨mark, .inl (mem_filter.2 ⟨hmark, decide_eq_true heq⟩), rfl⟩
  · exact nomatch hi.symm.trans hp

/-- No call misses a marker if none looks while another is at its `await`. -/
theorem inTurn_of_oneAtAwait (calls : ℕ → BatchCall M) {ms : List (Move Unit Empty)}
    (h : batchMachine.Obeys (OneAtAwait calls) (batchStart calls) ms) :
    batchMachine.Obeys (InTurn calls) (batchStart calls) ms := by
  have hstart : MarkInv calls (batchStart calls) := by
    have hnone (j : ℕ) (key : JsString) (seen : ℕ) (seqFrom : ℤ) :
        (calls j).run ≠ markAndReturn key seen seqFrom := by
      rcases calls j <;> exact nofun
    exact ⟨batchInv_start calls, fun j _ _ _ _ _ _ _ hj => absurd hj (hnone j _ _ _),
      fun j _ _ _ hj => absurd hj (hnone j _ _ _), fun j _ _ hj => absurd hj (run_ne_pure _ _)⟩
  generalize batchStart calls = c at h hstart ⊢
  induction ms generalizing c with
  | nil => trivial
  | cons m ms ih =>
    obtain ⟨hm, hms⟩ := h
    rcases m with ⟨i, _⟩ | e
    · cases hp : c.procs i with
      | pure x =>
        simp only [Machine.Obeys, Machine.move, Machine.Permits, hp] at hms ⊢
        exact ⟨trivial, ih c hms hstart⟩
      | op o k =>
        simp only [Machine.Obeys, Machine.move, Machine.Permits, hp] at hm hms ⊢
        exact ⟨hstart.inTurn hm, ih _ hms (hstart.step hp hm)⟩
    · exact e.elim

end OneAtAwait

/-! ### Calls with one key -/

/-- Each brings a row of its own. -/
def sameKey (i : ℕ) : BatchCall ℕ := .appendMessagesOnce [⟨none, i⟩] (js "k")

/-- At the start no call has written its rows. -/
theorem findsMark_start (key : JsString) : FindsMark sameKey (batchStart sameKey) key :=
  .inr fun j hj h => not_wrote_run (sameKey j) (.inr ⟨key, hj, h⟩)

theorem placed_sameKey (i : ℕ) (log : List (MemoryRow ℕ)) : Placed (sameKey i).rows log :=
  fun h => absurd (h _ (.head _)) Bool.false_ne_true

/-- The first call has returned when the second one looks. -/
theorem batches_once_sameKey : ThreadExact sameKey
    (batchMachine.play (batchStart sameKey) [.run 0 (), .run 0 (), .run 1 ()]) := by
  refine batches_once sameKey ⟨⟨placed_sameKey 0 _, findsMark_start _⟩, trivial,
    ⟨placed_sameKey 1 _, .inl ⟨0, rfl, ⟨js "k", 0, 1⟩, ?_, rfl⟩⟩, trivial⟩
  decide

/-- The second call looks before the first one has written its marker. -/
theorem batches_twice : ¬∀ (calls : ℕ → BatchCall ℕ) (ms : List (Move Unit Empty)),
    ThreadExact calls (batchMachine.play (batchStart calls) ms) := by
  intro h
  have hexact := h sameKey [.run 0 (), .run 1 (), .run 0 (), .run 1 ()]
  exact absurd (hexact.unique 0 1 (js "k") rfl rfl rfl rfl) Nat.zero_ne_one

end Gnldev.Durable
