import Gnldev.Lib.OrderedMap
import Gnldev.Workflow.Cancel
import Mathlib.Data.Int.Notation
import Mathlib.Data.List.Sort

/-!
# The waker

A workflow that waits for a time is suspended, and says so in the registry of the runs. A waker
(`workflow-waker.ts`) goes through the registry at each of its ticks, and resumes what is due. So
that two wakers do not resume a run at once, a tick first claims the run's ticket; the ticket is
that of the run and of the time at which its record was written (`updatedAt`). Tickets stay.

What a resumed workflow does is outside the model, and so is all else that writes the registry: the
records change by themselves, and a process may die at any time. The log of the world says what the
ticks have read, and which calls of `resume` have begun and ended.

* `tick`: a tick, over the root and the organizations;
* `wakeMachine`: any number of ticks of any wakers, on one journal;
* `Woken`: a run that a tick has found is resumed, by it or by another, while the tick goes on;
* `Moves`: a call of `resume` ends, whatever way, after the record has been written anew;
* `no_lost_wake`: if this is so, no run that is due is passed over.
-/

open List

namespace Gnldev.Scheduler

open Prog Workflow

variable {ε : Type}

/-! ## The registry -/

/-- Why a run is suspended. -/
inductive WaitReason where
  | time (untilMs : Option ℤ)
  | event
  | resume
  | other
  deriving DecidableEq

/-- The record of a run, as far as the waker reads it. -/
structure RunRecord where
  status : RunState
  reason : WaitReason
  updatedAt : ℤ
  deriving DecidableEq

structure RegisteredRun where
  runId : JsString
  record : RunRecord
  deriving DecidableEq

/-- The root, or an organization. -/
abbrev Partition := Option JsString

/-- The run's record, at one suspension of it: `wfwake:<runId>:<updatedAt>`. -/
structure WakeTicket where
  part : Partition
  runId : JsString
  updatedAt : ℤ
  deriving DecidableEq

def RegisteredRun.ticket (run : RegisteredRun) (part : Partition) : WakeTicket :=
  ⟨part, run.runId, run.record.updatedAt⟩

/-! ## A tick -/

/-- What a tick does. -/
inductive WakeOp where
  | orgs
  | listKeys (part : Partition)
  | getStatus (part : Partition) (runId : JsString)
  | claim (part : Partition) (run : RegisteredRun)
  /-- The call of `resume` ends. It has begun when the ticket was won. -/
  | resume (part : Partition) (run : RegisteredRun)
  | onError (runId : JsString)
  deriving DecidableEq

/-- The answers. -/
abbrev WakeOp.Ans : WakeOp → Type
  | orgs => List JsString
  | listKeys _ => List JsString
  | getStatus .. => Option RunRecord
  | claim .. => Bool
  | _ => Unit

abbrev WakeOp.Res (ε : Type) (o : WakeOp) : Type := Except ε o.Ans

/-- The programs of a tick. -/
abbrev WakeM (ε : Type) := ExceptT ε (Prog WakeOp (WakeOp.Res ε))

def wake (o : WakeOp) : WakeM ε o.Ans := ExceptT.mk (Prog.perform o)

/-- What is thrown is returned. -/
def wakeAttempt {α : Type} (p : WakeM ε α) : WakeM ε (Except ε α) :=
  tryCatch (Except.ok <$> p) fun e => return .error e

/-- A tick, and the options of its waker. -/
structure TickCall where
  now : ℤ
  wakeEvented : Bool
  /-- A hook for errors is given. -/
  onError : Bool

structure TickResult where
  resumed : ℕ
  skipped : ℕ
  errored : ℕ
  deriving DecidableEq

/-- It waits for a time that has come. -/
def WaitReason.elapsed (now : ℤ) : WaitReason → Bool
  | .time (some untilMs) => untilMs ≤ now
  | _ => false

namespace TickCall

variable (call : TickCall) (part : Partition)

def due : WaitReason → Bool
  | .event | .resume => call.wakeEvented
  | reason => reason.elapsed call.now

/-- The records of the suspended runs, one by one. -/
def readRuns : List JsString → List RegisteredRun → WakeM ε (List RegisteredRun)
  | [], out => return out
  | runId :: keys, out => do
    match ← wake (.getStatus part runId) with
    | some record =>
      if record.status = .suspended then readRuns keys (out ++ [⟨runId, record⟩])
      else readRuns keys out
    | none => readRuns keys out

/-- The suspended runs, the latest first. -/
def listWorkflowRuns : WakeM ε (List RegisteredRun) := do
  let keys ← wake (.listKeys part)
  let out ← readRuns part keys []
  return out.insertionSort fun a b => b.record.updatedAt ≤ a.record.updatedAt

/-- The run is resumed, and its error reported. -/
def resumeRun (run : RegisteredRun) (out : TickResult) : WakeM ε TickResult := do
  match ← wakeAttempt (wake (.resume part run)) with
  | .ok _ => return { out with resumed := out.resumed + 1 }
  | .error _ =>
    if call.onError then wake (.onError run.runId)
    return { out with resumed := out.resumed + 1, errored := out.errored + 1 }

def wakeRun (run : RegisteredRun) (out : TickResult) : WakeM ε TickResult := do
  if call.due run.record.reason then
    if ← wake (.claim part run) then call.resumeRun part run out
    else return { out with skipped := out.skipped + 1 }
  else return { out with skipped := out.skipped + 1 }

def wakeRuns : List RegisteredRun → TickResult → WakeM ε TickResult
  | [], out => return out
  | run :: runs, out => do wakeRuns runs (← call.wakeRun part run out)

def wakePartitions : List Partition → TickResult → WakeM ε TickResult
  | [], out => return out
  | part :: parts, out => do
    let runs ← listWorkflowRuns part
    wakePartitions parts (← call.wakeRuns part runs out)

def tick : WakeM ε TickResult := do
  let orgs ← wake .orgs
  call.wakePartitions (none :: orgs.map some) ⟨0, 0, 0⟩

end TickCall

/-! ## Together -/

/-- What has happened. -/
inductive WakeEvent where
  /-- The tick `i` has found a run in the registry. -/
  | read (i : ℕ) (part : Partition) (run : RegisteredRun)
  /-- The tick `i` has won the ticket, and calls `resume`. -/
  | won (i : ℕ) (t : WakeTicket)
  | ended (i : ℕ) (t : WakeTicket)
  /-- The process of the tick `i` has died. -/
  | died (i : ℕ)
  deriving DecidableEq

/-- A call of `resume` for the record is in progress, made by the tick `i`. The latest event is the
    first. -/
def Underway (i : ℕ) (t : WakeTicket) : List WakeEvent → Prop
  | [] => False
  | .won j t' :: log => i = j ∧ t = t' ∨ Underway i t log
  | .ended j t' :: log => ¬(i = j ∧ t = t') ∧ Underway i t log
  | .died j :: log => i ≠ j ∧ Underway i t log
  | .read .. :: log => Underway i t log

/-- The journal, and what has happened, the latest first. -/
structure WakeWorld where
  registry : Partition → OrderedMap JsString RunRecord
  tickets : List WakeTicket
  log : List WakeEvent

/-- What is outside. A fault is one of the journal, with or without effect. -/
structure WakeAnswer (ε : Type) where
  orgs : List JsString
  outcome : Except ε Unit
  fault : Option ε
  applied : Bool

/-- What happens by itself. -/
inductive WakeEnv where
  /-- A record is written, or deleted. -/
  | write (part : Partition) (runId : JsString) (record : Option RunRecord)
  | die (i : ℕ)

/-- An operation of the tick `i`. -/
def wakeExec (i : ℕ) (a : WakeAnswer ε) : (o : WakeOp) → WakeWorld → o.Ans × WakeWorld
  | .orgs, w => (a.orgs, w)
  | .listKeys part, w => ((w.registry part).entries.map Prod.fst, w)
  | .getStatus part runId, w =>
    match (w.registry part).get runId with
    | some record => (some record, { w with log := .read i part ⟨runId, record⟩ :: w.log })
    | none => (none, w)
  | .claim part run, w =>
    if run.ticket part ∈ w.tickets then (false, w)
    else (true, { w with
      tickets := run.ticket part :: w.tickets
      log := .won i (run.ticket part) :: w.log })
  | .resume part run, w => ((), { w with log := .ended i (run.ticket part) :: w.log })
  | .onError _, w => ((), w)

def wakeEnv (w : WakeWorld) : WakeEnv → WakeWorld
  | .write part runId (some record) =>
    { w with registry := Function.update w.registry part ((w.registry part).put runId record) }
  | .write part runId none =>
    { w with
      registry := Function.update w.registry part ((w.registry part).filterKeys (· ≠ runId)) }
  | .die i => { w with log := .died i :: w.log }

def wakeMachine : Machine WakeOp (WakeOp.Res ε) WakeWorld (WakeAnswer ε) WakeEnv where
  exec i a o w :=
    match o, a.fault with
    | .resume part run, _ => (a.outcome, (wakeExec i a (.resume part run) w).2)
    | .onError _, _ => (a.outcome, w)
    | o, some e => (.error e, if a.applied then (wakeExec i a o w).2 else w)
    | o, none => (.ok (wakeExec i a o w).1, (wakeExec i a o w).2)
  env e w := wakeEnv w e

/-- A registry, before any tick. -/
def wakeStart (registry : Partition → OrderedMap JsString RunRecord) (calls : ℕ → TickCall) :
    Conf WakeOp (WakeOp.Res ε) (Except ε TickResult) WakeWorld :=
  ⟨⟨registry, [], []⟩, fun i => (calls i).tick.run⟩

def wakeAfter (registry : Partition → OrderedMap JsString RunRecord) (calls : ℕ → TickCall)
    (ms : List (Move (WakeAnswer ε) WakeEnv)) :
    Conf WakeOp (WakeOp.Res ε) (Except ε TickResult) WakeWorld :=
  wakeMachine.play (wakeStart registry calls) ms

/-! ## What is promised, and when -/

/-- A run that a tick finds, due at its time, is resumed: when it is found, or later, a call for this
    record is in progress, its own or another's. -/
def Woken (calls : ℕ → TickCall) (i : ℕ) (log : List WakeEvent) : Prop :=
  ∀ part run before, .read i part run :: before <:+ log →
    run.record.status = .suspended → run.record.reason.elapsed (calls i).now →
    ∃ recent, .read i part run :: before <:+ recent ∧ recent <:+ log ∧
      ∃ j, Underway j (run.ticket part) recent

/-- The registry does not show the run as suspended at the time of the ticket any more. -/
def Moved (w : WakeWorld) (t : WakeTicket) : Prop :=
  ∀ record, (w.registry t.part).get t.runId = some record → record.status = .suspended →
    record.updatedAt ≠ t.updatedAt

/-- An operation of a tick: a call of `resume` ends when the record has been written anew, even if
    it throws, and nothing else throws. -/
def Moves (w : WakeWorld) (_ : ℕ) : (o : WakeOp) → o.Res ε → Prop
  | .resume part run, _ => Moved w (run.ticket part)
  | _, .ok _ => True
  | _, .error _ => False

/-- What happens by itself: a run is suspended at a time of which it has no ticket, and a process
    dies only when the records that it was resuming have been written anew. -/
def Settled (w : WakeWorld) : WakeEnv → Prop
  | .write part runId (some record) =>
    record.status = .suspended → ⟨part, runId, record.updatedAt⟩ ∉ w.tickets
  | .write _ _ none => True
  | .die i => ∀ t, Underway i t w.log → Moved w t

/-! ## The text of a tick -/

/-- The runs that a tick has found due at their times, and has not tried to claim, and whether it
    has thrown. -/
structure TickPhase where
  todo : List (Partition × RegisteredRun)
  broken : Bool

/-- A run that is suspended until a time that has come. -/
def RunRecord.Ripe (record : RunRecord) (now : ℤ) : Prop :=
  record.status = .suspended ∧ record.reason.elapsed now

instance (record : RunRecord) (now : ℤ) : Decidable (record.Ripe now) :=
  inferInstanceAs (Decidable (_ ∧ _))

def TickPhase.learn (call : TickCall) (s : TickPhase) : (o : WakeOp) → o.Res ε → TickPhase
  | .getStatus part runId, .ok (some record) =>
    if record.Ripe call.now then { s with todo := (part, ⟨runId, record⟩) :: s.todo } else s
  | .claim part run, .ok _ => { s with todo := s.todo.filter (· ≠ (part, run)) }
  | .resume .., _ => s
  | _, .error _ => { s with broken := true }
  | _, .ok _ => s

/-- The protocol of a tick. -/
def WakeStep (call : TickCall) (s : TickPhase) (o : WakeOp) (r : o.Res ε) (s' : TickPhase) : Prop :=
  s' = s.learn call o r

/-- What is to do is in the list. -/
def Pending (call : TickCall) (part : Partition) (runs : List RegisteredRun) (s : TickPhase) : Prop :=
  ∀ x ∈ s.todo, x.1 = part ∧ x.2.record.Ripe call.now ∧ x.2 ∈ runs

section Text

variable {call : TickCall} {P : TickPhase → Prop} {part : Partition}

/-- It has thrown. -/
def Broken (s : TickPhase) (_ : ε) : Prop := s.broken = true

theorem wake_runs {o : WakeOp} {Q : TickPhase → o.Ans → Prop}
    (hQ : ∀ s (r : o.Ans), P s → Q (s.learn (ε := ε) call o (.ok r)) r)
    (ho : ∀ part run, o ≠ .resume part run) : Runs (WakeStep call) P (wake (ε := ε) o) Q Broken := by
  intro s hs r
  refine ⟨_, rfl, ?_⟩
  rcases r with e | r
  · cases o with
    | resume part run => exact absurd rfl (ho part run)
    | _ => rfl
  · exact hQ s r hs

theorem quietly_runs {o : WakeOp} (hl : ∀ s r, TickPhase.learn (ε := ε) call s o (.ok r) = s)
    (ho : ∀ part run, o ≠ .resume part run) :
    Runs (WakeStep call) P (wake (ε := ε) o) (fun s _ => P s) Broken :=
  wake_runs (fun s r hs => by rwa [hl]) ho

theorem readRuns_runs (keys : List JsString) (out : List RegisteredRun) :
    Runs (WakeStep call) (Pending call part out) (TickCall.readRuns (ε := ε) part keys out)
      (fun s runs => Pending call part runs s) Broken := by
  induction keys generalizing out with
  | nil => exact runs_pure fun _ hs => hs
  | cons runId keys ih =>
    -- What is read is in the list with which the loop goes on.
    let next : Option RunRecord → List RegisteredRun
      | some record => if record.status = .suspended then out ++ [⟨runId, record⟩] else out
      | none => out
    refine Runs.bind (Q := fun s r => Pending call part (next r) s) (wake_runs (fun s r hs => ?_)
      nofun) fun r => ?_
    · rcases r with _ | record
      · exact hs
      · have hold (x : RegisteredRun) (h : x ∈ out) : x ∈ next (some record) := by
          dsimp only [next]
          split
          · exact mem_append_left _ h
          · exact h
        dsimp only [TickPhase.learn]
        split
        · next hripe =>
          intro x hx
          rcases mem_cons.1 hx with rfl | hx
          · refine ⟨rfl, hripe, ?_⟩
            dsimp only [next]
            rw [if_pos hripe.1]
            exact mem_append_right _ (mem_singleton_self _)
          · exact ⟨(hs x hx).1, (hs x hx).2.1, hold _ (hs x hx).2.2⟩
        · exact fun x hx => ⟨(hs x hx).1, (hs x hx).2.1, hold _ (hs x hx).2.2⟩
    · rcases r with _ | record
      · exact ih out
      · dsimp only [next]
        split
        · exact ih _
        · exact ih out

theorem listWorkflowRuns_runs :
    Runs (WakeStep call) (fun s => s.todo = []) (TickCall.listWorkflowRuns (ε := ε) part)
      (fun s runs => Pending call part runs s) Broken := by
  refine Runs.bind (quietly_runs (fun _ _ => rfl) nofun) fun keys => ?_
  refine Runs.bind ((readRuns_runs keys []).pre fun s hs x hx => ?_) fun out =>
    runs_pure fun s hs => ?_
  · rw [hs] at hx
    exact absurd hx not_mem_nil
  · intro x hx
    exact ⟨(hs x hx).1, (hs x hx).2.1, (mem_insertionSort _).2 (hs x hx).2.2⟩

theorem resumeRun_runs (run : RegisteredRun) (out : TickResult) :
    Runs (WakeStep call) P (call.resumeRun (ε := ε) part run out) (fun s _ => P s) Broken := by
  have hattempt : Runs (WakeStep call) P (wakeAttempt (wake (ε := ε) (.resume part run)))
      (fun s _ => P s) Broken := by
    intro s hs r
    refine ⟨s, rfl, ?_⟩
    rcases r with e | r <;> exact hs
  refine Runs.bind hattempt fun r => ?_
  rcases r with e | _
  · dsimp only
    split
    · exact Runs.bind (quietly_runs (fun _ _ => rfl) nofun) fun _ => runs_pure fun _ hs => hs
    · exact runs_pure fun _ hs => hs
  · exact runs_pure fun _ hs => hs

theorem wakeRun_runs (run : RegisteredRun) (runs : List RegisteredRun) (out : TickResult) :
    Runs (WakeStep call) (Pending call part (run :: runs)) (call.wakeRun (ε := ε) part run out)
      (fun s _ => Pending call part runs s) Broken := by
  rw [TickCall.wakeRun]
  split
  · refine Runs.bind (Q := fun s _ => Pending call part runs s) (wake_runs (fun s r hs => ?_) nofun)
      fun r => ?_
    · intro x hx
      obtain ⟨hx, hne⟩ := mem_filter.1 hx
      obtain ⟨hpart, hripe, hmem⟩ := hs x hx
      refine ⟨hpart, hripe, (mem_cons.1 hmem).resolve_left fun hrun => ?_⟩
      exact of_decide_eq_true hne (Prod.ext hpart hrun)
    · rcases r with _ | _
      · exact runs_pure fun _ hs => hs
      · exact resumeRun_runs run out
  · next hdue =>
    refine runs_pure fun s hs x hx => ?_
    obtain ⟨hpart, hripe, hmem⟩ := hs x hx
    refine ⟨hpart, hripe, (mem_cons.1 hmem).resolve_left ?_⟩
    rintro rfl
    refine hdue ?_
    have helapsed := hripe.2
    rw [TickCall.due.eq_def]
    split
    · next h => rw [h] at helapsed; contradiction
    · next h => rw [h] at helapsed; contradiction
    · exact helapsed

theorem wakeRuns_runs (runs : List RegisteredRun) (out : TickResult) :
    Runs (WakeStep call) (Pending call part runs) (call.wakeRuns (ε := ε) part runs out)
      (fun s _ => s.todo = []) Broken := by
  induction runs generalizing out with
  | nil =>
    refine runs_pure fun s hs => eq_nil_iff_forall_not_mem.2 fun x hx => ?_
    exact absurd (hs x hx).2.2 not_mem_nil
  | cons run runs ih => exact Runs.bind (wakeRun_runs run runs out) fun out => ih out

theorem wakePartitions_runs (parts : List Partition) (out : TickResult) :
    Runs (WakeStep call) (fun s => s.todo = []) (call.wakePartitions (ε := ε) parts out)
      (fun s _ => s.todo = []) Broken := by
  induction parts generalizing out with
  | nil => exact runs_pure fun _ hs => hs
  | cons part parts ih =>
    refine Runs.bind listWorkflowRuns_runs fun runs => ?_
    exact Runs.bind (wakeRuns_runs runs out) fun out => ih out

/-- When a tick returns, it has tried to claim all that it has found due. -/
theorem tick_runs : Runs (WakeStep call) (fun s => s.todo = []) (call.tick (ε := ε))
    (fun s _ => s.todo = []) Broken :=
  Runs.bind (quietly_runs (fun _ _ => rfl) nofun) fun _ => wakePartitions_runs _ _

end Text

/-! ## The journal and the calls -/

/-- When it was found, or later, a call for the run was in progress. -/
def Resumed (part : Partition) (run : RegisteredRun) (found log : List WakeEvent) : Prop :=
  ∃ recent, found <:+ recent ∧ recent <:+ log ∧ ∃ j, Underway j (run.ticket part) recent

theorem Resumed.cons {part : Partition} {run : RegisteredRun} {found log : List WakeEvent}
    (h : Resumed part run found log) (e : WakeEvent) : Resumed part run found (e :: log) := by
  obtain ⟨recent, hfound, hlog, hj⟩ := h
  exact ⟨recent, hfound, hlog.trans (suffix_cons e log), hj⟩

structure WakeSafe (w : WakeWorld) : Prop where
  /-- Who has the ticket of a record that still stands is resuming it. -/
  held : ∀ part (run : RegisteredRun), (w.registry part).get run.runId = some run.record →
    run.record.status = .suspended → run.ticket part ∈ w.tickets →
    ∃ j, Underway j (run.ticket part) w.log
  /-- If the ticket of a run that was found is taken, the run has been resumed since. -/
  met : ∀ i part (run : RegisteredRun) before, .read i part run :: before <:+ w.log →
    run.record.status = .suspended → run.ticket part ∈ w.tickets →
    Resumed part run (.read i part run :: before) w.log

namespace WakeSafe

variable {w : WakeWorld} {i : ℕ} {part : Partition} {run : RegisteredRun} {t : WakeTicket}

theorem read (h : WakeSafe w) (hget : (w.registry part).get run.runId = some run.record) :
    WakeSafe { w with log := .read i part run :: w.log } where
  held := h.held
  met j part' run' before hread hsusp hticket := by
    rcases suffix_cons_iff.1 hread with heq | hread
    · -- The run that is found now.
      obtain ⟨he, rfl⟩ := List.cons.inj heq
      obtain ⟨rfl, rfl, rfl⟩ := WakeEvent.read.inj he
      exact ⟨_, suffix_rfl, suffix_rfl, h.held part' run' hget hsusp hticket⟩
    · exact (h.met j part' run' before hread hsusp hticket).cons _

theorem won (h : WakeSafe w) (i : ℕ) (t : WakeTicket) :
    WakeSafe { w with tickets := t :: w.tickets, log := .won i t :: w.log } where
  held part run hget hsusp hticket := by
    rcases mem_cons.1 hticket with heq | hticket
    · exact ⟨i, .inl ⟨rfl, heq⟩⟩
    · obtain ⟨j, hj⟩ := h.held part run hget hsusp hticket
      exact ⟨j, .inr hj⟩
  met j part run before hread hsusp hticket := by
    have hold : .read j part run :: before <:+ w.log := by
      rcases suffix_cons_iff.1 hread with heq | hread
      · exact WakeEvent.noConfusion (List.cons.inj heq).1
      · exact hread
    rcases mem_cons.1 hticket with heq | hticket
    · exact ⟨_, hread, suffix_rfl, i, .inl ⟨rfl, heq⟩⟩
    · exact (h.met j part run before hold hsusp hticket).cons _

/-- A call ends, or a process dies: who was resuming a record that still stands goes on. -/
theorem cease (h : WakeSafe w) {e : WakeEvent} (he : ∀ j part run, e ≠ .read j part run)
    (hkeep : ∀ part (run : RegisteredRun), (w.registry part).get run.runId = some run.record →
      run.record.status = .suspended → ∀ j, Underway j (run.ticket part) w.log →
      Underway j (run.ticket part) (e :: w.log)) :
    WakeSafe { w with log := e :: w.log } where
  held part run hget hsusp hticket := by
    obtain ⟨j, hj⟩ := h.held part run hget hsusp hticket
    exact ⟨j, hkeep part run hget hsusp j hj⟩
  met j part run before hread hsusp hticket := by
    rcases suffix_cons_iff.1 hread with heq | hread
    · exact absurd (List.cons.inj heq).1.symm (he j part run)
    · exact (h.met j part run before hread hsusp hticket).cons _

theorem ended (h : WakeSafe w) (hmoved : Moved w t) :
    WakeSafe { w with log := .ended i t :: w.log } := by
  refine h.cease nofun fun part run hget hsusp j hj => ⟨?_, hj⟩
  rintro ⟨-, rfl⟩
  exact hmoved run.record hget hsusp rfl

theorem died (h : WakeSafe w) (hmoved : ∀ t, Underway i t w.log → Moved w t) :
    WakeSafe { w with log := .died i :: w.log } := by
  refine h.cease nofun fun part run hget hsusp j hj => ⟨?_, hj⟩
  rintro rfl
  exact hmoved _ hj run.record hget hsusp rfl

/-- The registry changes: what is suspended in it was so before, or has no ticket. -/
theorem write (h : WakeSafe w) {registry : Partition → OrderedMap JsString RunRecord}
    (hreg : ∀ part (run : RegisteredRun), (registry part).get run.runId = some run.record →
      run.record.status = .suspended → run.ticket part ∈ w.tickets →
      (w.registry part).get run.runId = some run.record) :
    WakeSafe { w with registry } where
  held part run hget hsusp hticket :=
    h.held part run (hreg part run hget hsusp hticket) hsusp hticket
  met := h.met

theorem env (h : WakeSafe w) {e : WakeEnv} (he : Settled w e) : WakeSafe (wakeEnv w e) := by
  cases e with
  | die i => exact h.died he
  | write part runId record =>
    -- Other records are as they were.
    have hother {m : OrderedMap JsString RunRecord}
        (hm : ∀ k, k ≠ runId → m.get k = (w.registry part).get k) (part' : Partition)
        (run : RegisteredRun) (hne : ¬(part' = part ∧ run.runId = runId)) :
        (Function.update w.registry part m part').get run.runId =
          (w.registry part').get run.runId := by
      by_cases hpart : part' = part
      · subst hpart
        rw [Function.update_self]
        exact hm _ fun hk => hne ⟨rfl, hk⟩
      · rw [Function.update_of_ne hpart]
    cases record with
    | some record =>
      refine h.write fun part' run hget hsusp hticket => ?_
      by_cases hsame : part' = part ∧ run.runId = runId
      · obtain ⟨rfl, rfl⟩ := hsame
        rw [Function.update_self, OrderedMap.get_put_self, Option.some.injEq] at hget
        subst hget
        exact absurd hticket (he hsusp)
      · rwa [hother (fun k hk => OrderedMap.get_put_of_ne _ hk _) part' run hsame] at hget
    | none =>
      refine h.write fun part' run hget hsusp hticket => ?_
      by_cases hsame : part' = part ∧ run.runId = runId
      · obtain ⟨rfl, rfl⟩ := hsame
        rw [Function.update_self, OrderedMap.get_filterKeys_of_neg _ (by simp)] at hget
        contradiction
      · rwa [hother (fun k hk => OrderedMap.get_filterKeys _ (by simpa using hk)) part' run hsame]
          at hget

end WakeSafe

/-! ## All ticks -/

/-- What a tick has found due is to do, or its ticket is taken. -/
structure TodoInv (calls : ℕ → TickCall) (w : WakeWorld) (ph : ℕ → TickPhase) : Prop where
  todo : ∀ i part (run : RegisteredRun), .read i part run ∈ w.log →
    run.record.Ripe (calls i).now → run.ticket part ∈ w.tickets ∨ (part, run) ∈ (ph i).todo
  sound : ∀ i, (ph i).broken = false

namespace TodoInv

variable {calls : ℕ → TickCall} {w w' : WakeWorld} {ph : ℕ → TickPhase} {i : ℕ}

/-- An operation of the tick `i`: what it was to do is done or to do, as is what it has found. -/
theorem update (h : TodoInv calls w ph) {s : TickPhase} (hs : s.broken = false)
    (hold : ∀ t ∈ w.tickets, t ∈ w'.tickets)
    (hlog : ∀ j part run, .read j part run ∈ w'.log → .read j part run ∈ w.log ∨
      j = i ∧ (run.record.Ripe (calls i).now → (part, run) ∈ s.todo))
    (htodo : ∀ part (run : RegisteredRun), (part, run) ∈ (ph i).todo →
      run.ticket part ∈ w'.tickets ∨ (part, run) ∈ s.todo) :
    TodoInv calls w' (Function.update ph i s) where
  todo j part run hread hripe := by
    rcases hlog j part run hread with hread | ⟨rfl, hnew⟩
    · rcases h.todo j part run hread hripe with hticket | hmem
      · exact .inl (hold _ hticket)
      · by_cases hj : j = i
        · subst hj
          rw [Function.update_self]
          exact htodo part run hmem
        · rw [Function.update_of_ne hj]
          exact .inr hmem
    · rw [Function.update_self]
      exact .inr (hnew hripe)
  sound j := by
    by_cases hj : j = i
    · subst hj
      rwa [Function.update_self]
    · rw [Function.update_of_ne hj]
      exact h.sound j

/-- An operation that neither finds nor claims a run. -/
theorem quiet (h : TodoInv calls w ph) (htickets : w'.tickets = w.tickets)
    (hlog : ∀ j part run, .read j part run ∈ w'.log → .read j part run ∈ w.log) :
    TodoInv calls w' (Function.update ph i (ph i)) := by
  refine h.update (h.sound i) (fun t ht => htickets ▸ ht) (fun j part run hread => ?_)
    fun part run hmem => .inr hmem
  exact .inl (hlog j part run hread)

end TodoInv

section Runs

variable {calls : ℕ → TickCall} {w : WakeWorld} {ph : ℕ → TickPhase}

/-- The invariant of all runs. -/
def WakeInv (calls : ℕ → TickCall) (w : WakeWorld) (ph : ℕ → TickPhase) : Prop :=
  WakeSafe w ∧ TodoInv calls w ph

/-- An operation that does not throw. -/
theorem exec_of_moves {i : ℕ} {a : WakeAnswer ε} {o : WakeOp} (ho : ∀ part run, o ≠ .resume part run)
    (hok : Moves w i o (wakeMachine.exec i a o w).1) :
    wakeMachine.exec i a o w = (.ok (wakeExec i a o w).1, (wakeExec i a o w).2) := by
  rcases a with ⟨orgs, outcome, fault, applied⟩
  cases o with
  | resume part run => exact absurd rfl (ho part run)
  | onError runId =>
    rcases outcome with e | _
    · exact hok.elim
    · rfl
  | _ =>
    rcases fault with _ | e
    · rfl
    · exact hok.elim

theorem WakeInv.exec (h : WakeInv calls w ph) (i : ℕ) (a : WakeAnswer ε) (o : WakeOp)
    (hok : Moves w i o (wakeMachine.exec i a o w).1) :
    WakeInv calls (wakeMachine.exec i a o w).2
      (Function.update ph i ((ph i).learn (calls i) o (wakeMachine.exec i a o w).1)) := by
  obtain ⟨hsafe, htodo⟩ := h
  by_cases ho : ∀ part run, o ≠ .resume part run
  · rw [exec_of_moves ho hok]
    cases o with
    | resume part run => exact absurd rfl (ho part run)
    | orgs | listKeys | onError => exact ⟨hsafe, htodo.quiet rfl fun _ _ _ h => h⟩
    | getStatus part runId =>
      rw [wakeExec]
      rcases hget : (w.registry part).get runId with _ | record
      · exact ⟨hsafe, htodo.quiet rfl fun _ _ _ h => h⟩
      · have hfound : WakeSafe { w with log := .read i part ⟨runId, record⟩ :: w.log } :=
          hsafe.read hget
        refine ⟨hfound, htodo.update ?_ (fun _ h => h) ?_ ?_⟩
        · dsimp only [TickPhase.learn]
          split <;> exact htodo.sound i
        · intro j part' run' hread
          rcases mem_cons.1 hread with heq | hread
          · obtain ⟨rfl, rfl, rfl⟩ := WakeEvent.read.inj heq
            refine .inr ⟨rfl, fun hripe => ?_⟩
            dsimp only [TickPhase.learn]
            rw [if_pos hripe]
            exact mem_cons_self
          · exact .inl hread
        · intro part' run' hmem
          refine .inr ?_
          dsimp only [TickPhase.learn]
          split
          · exact mem_cons_of_mem _ hmem
          · exact hmem
    | claim part run =>
      rw [wakeExec]
      split
      · next hticket =>
        refine ⟨hsafe, htodo.update (htodo.sound i) (fun _ h => h) (fun _ _ _ h => .inl h) ?_⟩
        intro part' run' hmem
        by_cases heq : (part', run') = (part, run)
        · obtain ⟨rfl, rfl⟩ := Prod.mk.inj heq
          exact .inl hticket
        · exact .inr (mem_filter.2 ⟨hmem, decide_eq_true heq⟩)
      · refine ⟨hsafe.won i _, htodo.update (htodo.sound i) (fun _ h => .tail _ h) ?_ ?_⟩
        · intro j part' run' hread
          exact .inl ((mem_cons.1 hread).resolve_left nofun)
        · intro part' run' hmem
          by_cases heq : (part', run') = (part, run)
          · obtain ⟨rfl, rfl⟩ := Prod.mk.inj heq
            exact .inl mem_cons_self
          · exact .inr (mem_filter.2 ⟨hmem, decide_eq_true heq⟩)
  · push Not at ho
    obtain ⟨part, run, rfl⟩ := ho
    refine ⟨hsafe.ended hok, htodo.quiet rfl fun _ _ _ hread => ?_⟩
    exact (mem_cons.1 hread).resolve_left nofun

theorem WakeInv.env (h : WakeInv calls w ph) {e : WakeEnv} (he : Settled w e) :
    WakeInv calls (wakeEnv w e) ph := by
  refine ⟨h.1.env he, fun i part run hread hripe => ?_, h.2.sound⟩
  have hsame : .read i part run ∈ w.log ∧ (wakeEnv w e).tickets = w.tickets := by
    cases e with
    | die j => exact ⟨(mem_cons.1 hread).resolve_left nofun, rfl⟩
    | write part' runId record => cases record <;> exact ⟨hread, rfl⟩
  rw [hsame.2]
  exact h.2.todo i part run hsame.1 hripe

/-- No wake is lost, in any run of any number of ticks: what a tick that has ended has found due has
    been resumed while it went on, if every call of `resume` ends, and every process dies, after the
    records it was resuming have been written anew, if they are not written with a time that has
    been waited for before, and if nothing but `resume` throws. -/
theorem no_lost_wake (registry : Partition → OrderedMap JsString RunRecord) (calls : ℕ → TickCall)
    (ms : List (Move (WakeAnswer ε) WakeEnv))
    (hmoves : wakeMachine.Meets Moves (wakeStart registry calls) ms)
    (hsettled : wakeMachine.Heeds Settled (wakeStart registry calls) ms) (i : ℕ)
    (r : Except ε TickResult) (hended : (wakeAfter registry calls ms).procs i = .pure r) :
    Woken calls i (wakeAfter registry calls ms).world.log := by
  have hstart : WakeInv calls ⟨registry, [], []⟩ fun _ => ⟨[], false⟩ :=
    ⟨⟨nofun, nofun⟩, nofun, fun _ => rfl⟩
  have hexec (w : WakeWorld) (ph : ℕ → TickPhase) (i : ℕ) (a : WakeAnswer ε) (o : WakeOp)
      (s' : TickPhase) (h : WakeInv calls w ph)
      (hs : WakeStep (calls i) (ph i) o (wakeMachine.exec i a o w).1 s')
      (hok : Moves w i o (wakeMachine.exec i a o w).1) :
      WakeInv calls (wakeMachine.exec i a o w).2 (Function.update ph i s') := by
    rw [hs]
    exact h.exec i a o hok
  have htext (i : ℕ) : (calls i).tick.run.Follows (WakeStep (ε := ε) (calls i)) ⟨[], false⟩
      (Ends (fun s _ => s.todo = []) Broken) := tick_runs _ rfl
  obtain ⟨ph, ⟨hsafe, htodo⟩, hf⟩ := Machine.heeds_follows (J := WakeInv calls) hexec
    (fun _ _ _ h he => h.env he) hstart htext hmoves hsettled
  have hi := hf i
  rw [show (wakeMachine.play (wakeStart registry calls) ms).procs i = .pure r from hended] at hi
  intro part run before hread hsusp helapsed
  refine hsafe.met i part run before hread hsusp ?_
  have hmem := hread.subset List.mem_cons_self
  rcases r with e | out
  · exact absurd ((show (ph i).broken = true from hi).symm.trans (htodo.sound i)) nofun
  · have hnone : (ph i).todo = [] := hi
    refine (htodo.todo i part run hmem ⟨hsusp, helapsed⟩).resolve_right ?_
    rw [hnone]
    exact List.not_mem_nil

end Runs

/-! ## A run that is found twice -/

section Sleeper

/-- A run that sleeps until 0. -/
def sleeper : RunRecord := ⟨.suspended, .time (some 0), 0⟩

def oneSleeper (part : Partition) : OrderedMap JsString RunRecord :=
  if part = none then OrderedMap.empty.put (js "r") sleeper else .empty

/-- The tick `i` is at the time `i + 1`. -/
def tickAt (i : ℕ) : TickCall := ⟨i + 1, false, false⟩

/-- A move of the tick `i`; its call of `resume` ends so. -/
def tickMove (i : ℕ) (outcome : Except Unit Unit) : Move (WakeAnswer Unit) WakeEnv :=
  .run i ⟨[], outcome, none, false⟩

instance (w : WakeWorld) (t : WakeTicket) : Decidable (Moved w t) :=
  decidable_of_iff (∀ record ∈ (w.registry t.part).get t.runId, record.status = .suspended →
    record.updatedAt ≠ t.updatedAt) Iff.rfl

instance (w : WakeWorld) (i : ℕ) (o : WakeOp) (r : o.Res Unit) : Decidable (Moves w i o r) :=
  match o, r with
  | .resume part run, _ => inferInstanceAs (Decidable (Moved w (run.ticket part)))
  | .orgs, .ok _ | .listKeys _, .ok _ | .getStatus .., .ok _ | .claim .., .ok _ | .onError _, .ok _ =>
    isTrue trivial
  | .orgs, .error _ | .listKeys _, .error _ | .getStatus .., .error _ | .claim .., .error _
  | .onError _, .error _ => isFalse id

/-- The run is resumed, and its record says that it is completed. -/
def oneTick : List (Move (WakeAnswer Unit) WakeEnv) :=
  List.replicate 4 (tickMove 0 (.ok ())) ++
    [.env (.write none (js "r") (some ⟨.completed, .other, 1⟩)), tickMove 0 (.ok ())]

theorem no_lost_wake_oneTick :
    Woken tickAt 0 (wakeAfter oneSleeper tickAt oneTick).world.log := by
  refine no_lost_wake oneSleeper tickAt oneTick (by decide +kernel) ?_ 0 (.ok ⟨1, 0, 0⟩) rfl
  refine ⟨nofun, nofun, nofun, nofun, fun e he => ?_, nofun, trivial⟩
  obtain rfl := Move.env.inj he
  exact nofun

/-- The first call throws before the run has begun, and its record stays as it was. -/
def failedTick : List (Move (WakeAnswer Unit) WakeEnv) :=
  List.replicate 5 (tickMove 0 (.error ())) ++ List.replicate 4 (tickMove 1 (.ok ()))

/-- Nobody is resuming the run, and the second tick passes it over. -/
theorem wake_is_lost :
    (wakeAfter oneSleeper tickAt failedTick).procs 1 = .pure (.ok ⟨0, 1, 0⟩) ∧
      ¬Woken tickAt 1 (wakeAfter oneSleeper tickAt failedTick).world.log := by
  refine ⟨rfl, fun h => ?_⟩
  have hlog : (wakeAfter oneSleeper tickAt failedTick).world.log =
      [.read 1 none ⟨js "r", sleeper⟩, .ended 0 ⟨none, js "r", 0⟩, .won 0 ⟨none, js "r", 0⟩,
        .read 0 none ⟨js "r", sleeper⟩] := by decide +kernel
  rw [hlog] at h
  obtain ⟨recent, hfound, hlog, j, hj⟩ := h none ⟨js "r", sleeper⟩ _ List.suffix_rfl rfl rfl
  obtain rfl := hfound.eq_of_length (le_antisymm hfound.length_le hlog.length_le)
  obtain ⟨hended, hwon | hno⟩ := hj
  · exact hended hwon
  · exact hno

end Sleeper

end Gnldev.Scheduler
