import Gnldev.Scheduler.Commits
import Gnldev.Scheduler.Grammar

/-!
# One trigger and the others

A poll that runs alone, on a journal that does not fail. What comes of a due trigger depends on that
trigger only (`settled`): its lock, the budget, its workflow. But an error that is raised while a
trigger is rescheduled or noted ends the poll, and the triggers after it are not considered.

* `Fine`: what is raised for a trigger does not end the poll;
* `pollTrigger_alone`: what a poll does to one trigger;
* `poll_apart`: a poll returns, with every due trigger settled, if and only if each of them is fine.
-/

namespace Gnldev.Scheduler

open Prog Durable Function

variable {V : Type}

/-! ## A poll alone -/

/-- What is outside: the locks and the workflows, by run, and the budget, by trigger. -/
structure Surroundings where
  lock : JsString → Bool
  guard : JsString → Except SchedError Unit
  outcome : JsString → Except SchedError Bool

def Surroundings.answer (out : Surroundings) : SchedOp V → SchedAnswer V
  | .acquireLock runId => ⟨out.lock runId, .ok (), .ok false, none, false⟩
  | .budgetGuard id .. => ⟨false, out.guard id, .ok false, none, false⟩
  | .runWorkflow _ _ runId _ => ⟨false, .ok (), out.outcome runId, none, false⟩
  | _ => ⟨false, .ok (), .ok false, none, false⟩

def aloneMachine (out : Surroundings) :
    Machine (SchedOp V) SchedOp.Res (SchedWorld V) Unit Empty where
  exec i _ o w := schedMachine.exec i (out.answer o) o w
  env e _ := e.elim

/-- What the program throws or returns, and the journal it leaves. -/
def alone {α : Type} (out : Surroundings) (p : SM V α) (w : SchedWorld V) :
    Except SchedError α × SchedWorld V :=
  (aloneMachine out).solo 0 () p.run w

/-! ## What comes of a trigger -/

/-- There is a minute to fire at after the base, and before the end of the search. -/
def HasSlot (expr : JsString) (base : ℤ) : Prop :=
  ∃ c, parseCron expr = .ok c ∧ ∃ t, c.Slot t ∧ base < t ∧ t < searchEnd base

/-- There is a next time. -/
def HasNext (d : TriggerDef V) (prevSlot : WithBot ℤ) (now : ℤ) : Prop :=
  match d.timing, d.misfire, prevSlot with
  | .cron expr, .skip, _ => HasSlot expr now
  | .cron expr, .catchup, some prev => HasSlot expr prev
  | .cron _, .catchup, none => False
  | _, _, _ => True

section Fate

variable (call : PollCall) (out : Surroundings) (id : JsString) (d : TriggerDef V) (b : TriggerState)

def guardOf : Except SchedError Unit := if call.budgetGuard then out.guard id else .ok ()

/-- What comes of running the workflow. -/
def outcomeOf : Except SchedError Bool :=
  match d.orgId, call.runnerForOrg with
  | some orgId, false => .error (.unreachable id orgId)
  | _, _ => out.outcome (runIdOf id b)

/-- The state after a failure. -/
def failedState : TriggerState :=
  if d.maxAttempts ≤ (b.attempts + 1 : ℕ) then
    { b with attempts := b.attempts + 1, status := .failed }
  else { b with
    attempts := b.attempts + 1, nextRunAt := (call.now + backoff (b.attempts + 1) : ℤ) }

/-- The state after the workflow has completed, if there is one. -/
def completedState : Option TriggerState :=
  match d.timing with
  | .at_ _ => some { b with status := .done }
  | _ => (computeNext d b.nextRunAt call.now).toOption.map
      fun next => ⟨next, 0, b.fireCount + 1, .pending, none⟩

/-- The state of a due trigger after the poll, if there is one. -/
def settled : Option TriggerState :=
  if out.lock (runIdOf id b) then
    match guardOf call out id with
    | .error _ => some (call.deferred b)
    | .ok _ =>
      match outcomeOf call out id d b with
      | .error e => some (if e.isBusy then call.deferred b else failedState call d b)
      | .ok true => some (call.deferred b)
      | .ok false => completedState call d b
  else some b

/-- The errors that are noted have a text, and a completed trigger has a next time. -/
def Fine : Prop :=
  out.lock (runIdOf id b) →
    match guardOf call out id with
    | .error e => e.HasText
    | .ok _ =>
      match outcomeOf call out id d b with
      | .error e => e.isBusy ∨ d.maxAttempts ≤ (b.attempts + 1 : ℕ) → e.HasText
      | .ok suspended => suspended = false → HasNext d b.nextRunAt call.now

end Fate

/-! ## The next time -/

theorem nextCronTime_ok_iff {expr : JsString} {base : ℤ} :
    (∃ t, nextCronTime expr base = .ok t) ↔ HasSlot expr base := by
  constructor
  · rintro ⟨t, ht⟩
    obtain ⟨c, hc, hleast⟩ := nextCronTime_isLeast ht
    refine ⟨c, hc, t, hleast.1.1, hleast.1.2, ?_⟩
    rw [nextCronTime_eq hc] at ht
    split at ht
    · next hscan =>
      obtain rfl := Except.ok.inj ht
      exact Cron.scan_lt hscan
    · contradiction
  · rintro ⟨c, hc, t, ht, hlt, hend⟩
    rw [nextCronTime_eq hc]
    split
    · exact ⟨_, rfl⟩
    · next hscan =>
      obtain ⟨i, hi, rfl⟩ := ht.exists_minute hlt hend
      exact absurd ht.2 (Cron.scan_eq_none hscan i hi)

theorem map_ok_iff {ε α β : Type} {f : α → β} {r : Except ε α} :
    (∃ y, f <$> r = .ok y) ↔ ∃ x, r = .ok x := by
  cases r with
  | error e => exact ⟨nofun, nofun⟩
  | ok x => exact ⟨fun _ => ⟨x, rfl⟩, fun _ => ⟨f x, rfl⟩⟩

theorem computeNext_ok_iff {d : TriggerDef V} {prevSlot : WithBot ℤ} {now : ℤ} :
    (∃ next, computeNext d prevSlot now = .ok next) ↔ HasNext d prevSlot now := by
  unfold computeNext HasNext
  rcases d.timing with time | interval | expr
  · exact ⟨fun _ => trivial, fun _ => ⟨_, rfl⟩⟩
  · refine ⟨fun _ => trivial, fun _ => ?_⟩
    rcases d.misfire with _ | _
    · rcases prevSlot with _ | prev
      · exact ⟨_, rfl⟩
      · by_cases hzero : interval = 0
        · exact ⟨_, if_pos hzero⟩
        · exact ⟨_, if_neg hzero⟩
    · exact ⟨_, rfl⟩
  · rcases d.misfire with _ | _
    · exact map_ok_iff.trans nextCronTime_ok_iff
    · rcases prevSlot with _ | prev
      · exact ⟨nofun, nofun⟩
      · exact map_ok_iff.trans nextCronTime_ok_iff

/-! ## One trigger -/

section Trigger

variable {call : PollCall} {out : Surroundings} {id : JsString} {d : TriggerDef V} {b : TriggerState}
  {w : SchedWorld V}

theorem alone_bind {α β : Type} (p : SM V α) (f : α → SM V β) :
    alone out (p >>= f) w = match alone out p w with
      | (.ok x, w') => alone out (f x) w'
      | (.error e, w') => (.error e, w') := by
  rw [alone, Machine.solo_tryBind, alone]
  rcases (aloneMachine out).solo 0 () p.run w with ⟨e | x, w'⟩ <;> rfl

theorem alone_attempt {α : Type} (p : SM V α) :
    alone out (attempt p) w = (.ok (alone out p w).1, (alone out p w).2) := by
  have hmap : (Except.ok <$> p : SM V (Except SchedError α)) = p >>= fun x => return .ok x := rfl
  rw [alone, attempt, Machine.solo_tryCatch, hmap, Machine.solo_tryBind, alone]
  rcases (aloneMachine out).solo 0 () p.run w with ⟨e | x, w'⟩ <;> rfl

/-- Alone, what has been read is still there. -/
theorem alone_commit (hb : w.states id = some b) (next : TriggerState) (rest : SM V Tally) :
    alone out (do if ← PollCall.commit id b next then rest else return .nothing) w =
      alone out rest (w.commit ⟨0, id, b, next⟩) := by
  have hcommit : alone out (PollCall.commit id b next) w =
      (.ok true, w.commit ⟨0, id, b, next⟩) := by
    change (Except.ok (schedExec 0 _ (.putIfMatch id b next) w).1,
      (schedExec 0 _ (.putIfMatch id b next) w).2) = _
    rw [schedExec, if_pos hb]
    rfl
  rw [alone_bind, hcommit]
  rfl

/-- The program leaves the state `a` of the trigger, and returns exactly where the condition holds. -/
structure Leaves {α : Type} (w : SchedWorld V) (id : JsString) (a : TriggerState) (fine : Prop)
    (r : Except SchedError α × SchedWorld V) : Prop where
  defs : r.2.defs = w.defs
  states : r.2.states = update w.states id (some a)
  fine : (∃ x, r.1 = .ok x) ↔ fine

theorem budgetSkip_alone (hb : w.states id = some b) (e : SchedError) :
    Leaves w id (call.deferred b) e.HasText (alone out (call.budgetSkip id b e) w) := by
  rw [PollCall.budgetSkip, alone_commit hb]
  cases e with
  | untold _ => exact ⟨rfl, rfl, nofun, nofun⟩
  | _ => exact ⟨rfl, rfl, fun _ => trivial, fun _ => ⟨_, rfl⟩⟩

theorem busySkip_alone (hb : w.states id = some b) (e : SchedError) :
    Leaves w id (call.deferred b) e.HasText (alone out (call.busySkip id b e) w) := by
  rw [PollCall.busySkip, alone_commit hb]
  cases e with
  | untold _ => exact ⟨rfl, rfl, nofun, nofun⟩
  | _ => exact ⟨rfl, rfl, fun _ => trivial, fun _ => ⟨_, rfl⟩⟩

theorem failure_alone (hb : w.states id = some b) (e : SchedError) :
    Leaves w id (failedState call d b) (d.maxAttempts ≤ (b.attempts + 1 : ℕ) → e.HasText)
      (alone out (call.failure id d b e) w) := by
  rw [PollCall.failure, failedState]
  split
  · next hmax =>
    rw [alone_commit hb]
    cases e with
    | untold _ =>
      refine ⟨rfl, rfl, ?_, fun h => (h hmax).elim⟩
      rintro ⟨_, ⟨⟩⟩
    | _ => exact ⟨rfl, rfl, fun _ _ => trivial, fun _ => ⟨_, rfl⟩⟩
  · next hmax =>
    rw [alone_commit hb]
    exact ⟨rfl, rfl, fun _ h => absurd h hmax, fun _ => ⟨_, rfl⟩⟩

theorem suspended_alone (hb : w.states id = some b) :
    Leaves w id (call.deferred b) True (alone out (call.success id d b true) w) := by
  rw [PollCall.success, if_pos rfl, alone_commit hb]
  exact ⟨rfl, rfl, fun _ => trivial, fun _ => ⟨_, rfl⟩⟩

/-- Without another state, the old one is left. -/
theorem completed_alone (hb : w.states id = some b) :
    Leaves w id ((completedState call d b).getD b) (HasNext d b.nextRunAt call.now)
      (alone out (call.success id d b false) w) := by
  rw [PollCall.success, if_neg Bool.false_ne_true, completedState, ← computeNext_ok_iff]
  have hat (time : ℤ) (htiming : d.timing = .at_ time) :
      ∃ next, computeNext d b.nextRunAt call.now = .ok next := by
    unfold computeNext
    rw [htiming]
    exact ⟨_, rfl⟩
  rcases htiming : d.timing with time | interval | expr
  · dsimp only
    rw [alone_commit hb]
    exact ⟨rfl, rfl, fun _ => hat time htiming, fun _ => ⟨_, rfl⟩⟩
  all_goals
    dsimp only
    rcases hnext : computeNext d b.nextRunAt call.now with e | next
    · refine ⟨rfl, (update_eq_self_iff.2 hb.symm).symm, ?_⟩
      constructor <;> rintro ⟨_, ⟨⟩⟩
    · dsimp only
      rw [alone_commit hb]
      exact ⟨rfl, rfl, fun _ => ⟨_, rfl⟩, fun _ => ⟨_, rfl⟩⟩

/-- A due trigger, whose lock has been taken, is left in its settled state. -/
theorem fire_alone (hb : w.states id = some b) (hlock : out.lock (runIdOf id b) = true) :
    Leaves w id ((settled call out id d b).getD b) (Fine call out id d b)
      (alone out (call.fire id d b) w) := by
  have hguard : alone out
      (attempt (if call.budgetGuard then perform (.budgetGuard id d call.now) else return ())) w =
      (.ok (guardOf call out id), w) := by
    rw [alone_attempt, guardOf]
    split <;> rfl
  have hrun : alone out (attempt (call.runTrigger id d b)) w =
      (.ok (outcomeOf call out id d b), w) := by
    rw [alone_attempt, PollCall.runTrigger, outcomeOf]
    rcases d.orgId with _ | orgId <;> rcases call.runnerForOrg with _ | _ <;> rfl
  rw [settled, if_pos hlock, Fine, PollCall.fire, alone_bind, hguard]
  simp only [hlock, forall_const]
  rcases guardOf call out id with e | _
  · exact budgetSkip_alone hb e
  · dsimp only
    rw [alone_bind, hrun]
    rcases outcomeOf call out id d b with e | suspended | suspended
    · dsimp only
      split
      · next hbusy => simpa [hbusy] using busySkip_alone hb e
      · next hbusy => simpa [hbusy] using failure_alone hb e
    · simpa using completed_alone hb
    · simpa using suspended_alone hb

/-- A due trigger is settled. -/
theorem pollTrigger_alone (hd : w.defs.lookup id = some d) (hb : w.states id = some b)
    (hdue : Due call b) :
    Leaves w id ((settled call out id d b).getD b) (Fine call out id d b)
      (alone out (call.pollTrigger id) w) := by
  have hdef : alone out (perform (.getDef id) : SM V _) w = (.ok (some d), w) := by rw [← hd]; rfl
  have hstate : alone out (perform (.getState id) : SM V _) w = (.ok (some b), w) := by
    rw [← hb]
    rfl
  have hacquire : alone out (perform (.acquireLock (runIdOf id b)) : SM V _) w =
      (.ok (out.lock (runIdOf id b)), w) := rfl
  rw [PollCall.pollTrigger, alone_bind, hdef]
  dsimp only
  rw [alone_bind, hstate]
  dsimp only
  rw [if_neg (not_or.2 ⟨not_not.2 hdue.1, hdue.2⟩), alone_bind, hacquire]
  dsimp only
  rcases hlock : out.lock (runIdOf id b) with _ | _
  · rw [settled, Fine, hlock]
    refine ⟨rfl, ?_, fun _ => nofun, fun _ => ⟨_, rfl⟩⟩
    exact (update_eq_self_iff.2 hb.symm).symm
  · have hfire := @fire_alone V call out id d b w hb hlock
    rw [if_pos rfl, alone_bind, alone_attempt]
    dsimp only
    generalize alone out (call.fire id d b) w = result at hfire
    obtain ⟨e | tally, w'⟩ := result
    · exact ⟨hfire.defs, hfire.states, hfire.fine⟩
    · exact ⟨hfire.defs, hfire.states, hfire.fine⟩

/-- Another one is passed. -/
theorem pollTrigger_passes
    (h : ∀ d b, w.defs.lookup id = some d → w.states id = some b → ¬Due call b) :
    alone out (call.pollTrigger id) w = (.ok .nothing, w) := by
  have hdef : alone out (perform (.getDef id) : SM V _) w = (.ok (w.defs.lookup id), w) := rfl
  have hstate : alone out (perform (.getState id) : SM V _) w = (.ok (w.states id), w) := rfl
  rw [PollCall.pollTrigger, alone_bind, hdef]
  dsimp only
  rw [alone_bind, hstate]
  dsimp only
  split
  · next d b hd hb =>
    have hpast : b.status ≠ .pending ∨ (call.now : WithBot ℤ) < b.nextRunAt := by
      have hdue := h d b hd hb
      rw [Due] at hdue
      tauto
    rw [if_pos hpast]
    rfl
  · rfl

end Trigger

/-! ## All of them -/

section All

variable {call : PollCall} {out : Surroundings} {w w' : SchedWorld V}

/-- Every due trigger of the list is fine. -/
def AllFine (call : PollCall) (out : Surroundings) (w : SchedWorld V) (ids : List JsString) : Prop :=
  ∀ id ∈ ids, ∀ d b, w.defs.lookup id = some d → w.states id = some b → Due call b →
    Fine call out id d b

/-- Every due trigger of the list is settled. -/
def AllSettled (call : PollCall) (out : Surroundings) (w w' : SchedWorld V) (ids : List JsString) :
    Prop :=
  ∀ id ∈ ids, ∀ d b, w.defs.lookup id = some d → w.states id = some b → Due call b →
    w'.states id = settled call out id d b

variable {id : JsString}

/-- What is fine has a settled state. -/
theorem Fine.settled_eq {d : TriggerDef V} {b : TriggerState} (h : Fine call out id d b) :
    settled call out id d b = some ((settled call out id d b).getD b) := by
  have hcompleted (hnext : HasNext d b.nextRunAt call.now) :
      ∃ a, completedState call d b = some a := by
    obtain ⟨next, hnext⟩ := computeNext_ok_iff.2 hnext
    rw [completedState, hnext]
    rcases d.timing with _ | _ | _ <;> exact ⟨_, rfl⟩
  suffices ∃ a, settled call out id d b = some a by
    obtain ⟨a, ha⟩ := this
    rw [ha, Option.getD_some]
  rw [settled]
  split
  · next hlock =>
    have h := h hlock
    rcases hguard : guardOf call out id with e | _
    · exact ⟨_, rfl⟩
    · rw [hguard] at h
      rcases hrun : outcomeOf call out id d b with e | suspended | suspended
      · exact ⟨_, rfl⟩
      · rw [hrun] at h
        exact hcompleted (h rfl)
      · exact ⟨_, rfl⟩
  · exact ⟨_, rfl⟩

/-- A poll changes the states of its triggers only. -/
theorem pollTrigger_frame :
    (alone out (call.pollTrigger id) w).2.defs = w.defs ∧
      ∀ id' ≠ id, (alone out (call.pollTrigger id) w).2.states id' = w.states id' := by
  by_cases h : ∀ d b, w.defs.lookup id = some d → w.states id = some b → ¬Due call b
  · rw [pollTrigger_passes h]
    exact ⟨rfl, fun _ _ => rfl⟩
  · push Not at h
    obtain ⟨d, b, hd, hb, hdue⟩ := h
    have hleaves := @pollTrigger_alone V call out id d b w hd hb hdue
    exact ⟨hleaves.defs, fun id' hne => by rw [hleaves.states, update_of_ne hne]⟩

/-- One trigger of them. -/
theorem pollTrigger_apart :
    ((∃ tally, (alone out (call.pollTrigger id) w).1 = .ok tally) ↔ AllFine call out w [id]) ∧
    (AllFine call out w [id] → AllSettled call out w (alone out (call.pollTrigger id) w).2 [id]) := by
  simp only [AllFine, AllSettled, List.mem_singleton, forall_eq]
  by_cases h : ∀ d b, w.defs.lookup id = some d → w.states id = some b → ¬Due call b
  · rw [pollTrigger_passes h]
    exact ⟨⟨fun _ d b hd hb hdue => absurd hdue (h d b hd hb), fun _ => ⟨_, rfl⟩⟩,
      fun _ d b hd hb hdue => absurd hdue (h d b hd hb)⟩
  · push Not at h
    obtain ⟨d, b, hd, hb, hdue⟩ := h
    have hleaves := @pollTrigger_alone V call out id d b w hd hb hdue
    rw [hleaves.fine]
    refine ⟨⟨fun hfine d' b' hd' hb' _ => ?_, fun hfine => hfine d b hd hb hdue⟩,
      fun hfine d' b' hd' hb' hdue' => ?_⟩
    · obtain rfl := Option.some.inj (hd.symm.trans hd')
      obtain rfl := Option.some.inj (hb.symm.trans hb')
      exact hfine
    · obtain rfl := Option.some.inj (hd.symm.trans hd')
      obtain rfl := Option.some.inj (hb.symm.trans hb')
      rw [hleaves.states, update_self, ← (hfine d b hd hb hdue).settled_eq]

variable {ids : List JsString}

/-- What was true of the triggers is still true where their states have not changed. -/
theorem AllFine.congr {w₁ : SchedWorld V} (h : AllFine call out w ids) (hdefs : w₁.defs = w.defs)
    (hstates : ∀ id ∈ ids, w₁.states id = w.states id) :
    AllFine call out w₁ ids := by
  intro id hid d b hd hb
  rw [hdefs] at hd
  rw [hstates id hid] at hb
  exact h id hid d b hd hb

theorem pollAll_alone (hids : ids.Nodup) (res : PollResult) (w : SchedWorld V) :
    (∀ id ∉ ids, (alone out (call.pollAll ids res) w).2.states id = w.states id) ∧
    ((∃ res', (alone out (call.pollAll ids res) w).1 = .ok res') ↔ AllFine call out w ids) ∧
    (AllFine call out w ids → AllSettled call out w (alone out (call.pollAll ids res) w).2 ids) := by
  induction ids generalizing res w with
  | nil => exact ⟨fun _ _ => rfl, ⟨fun _ => nofun, fun _ => ⟨_, rfl⟩⟩, fun _ => nofun⟩
  | cons id ids ih =>
    obtain ⟨hid, hids⟩ := List.nodup_cons.1 hids
    obtain ⟨hdefs, hframe⟩ := @pollTrigger_frame V call out w id
    obtain ⟨hfine, hsettled⟩ := @pollTrigger_apart V call out w id
    have hcons : AllFine call out w (id :: ids) ↔
        AllFine call out w [id] ∧ AllFine call out w ids := by
      simp only [AllFine, List.forall_mem_cons, List.mem_singleton, forall_eq]
    rw [PollCall.pollAll, alone_bind]
    rcases hresult : alone out (call.pollTrigger id) w with ⟨e | tally, w₁⟩
    all_goals
      rw [hresult] at hdefs hframe hfine hsettled
      dsimp only at hdefs hframe hfine hsettled ⊢
    · -- The error of the first one ends the poll.
      have hnot : ¬AllFine call out w [id] := fun h => by
        obtain ⟨_, h⟩ := hfine.2 h
        contradiction
      refine ⟨fun id' hid' => hframe id' fun h => hid' (h ▸ .head _), ⟨nofun, fun h => ?_⟩,
        fun h => ?_⟩
      · exact absurd (hcons.1 h).1 hnot
      · exact absurd (hcons.1 h).1 hnot
    · obtain ⟨hrest, hrestFine, hrestSettled⟩ := ih hids (res.add tally) w₁
      have hsame : ∀ id' ∈ ids, w₁.states id' = w.states id' :=
        fun id' hid' => hframe id' fun h => hid (h ▸ hid')
      have hrests : AllFine call out w₁ ids ↔ AllFine call out w ids :=
        ⟨fun h => h.congr hdefs.symm fun id' hid' => (hsame id' hid').symm,
          fun h => h.congr hdefs hsame⟩
      have hfirst : AllFine call out w [id] := hfine.1 ⟨_, rfl⟩
      refine ⟨fun id' hid' => ?_, ?_, fun h => ?_⟩
      · obtain ⟨hne, hid'⟩ := not_or.1 (List.mem_cons.not.1 hid')
        rw [hrest id' hid', hframe id' hne]
      · rw [hrestFine, hrests, hcons]
        exact ⟨fun h => ⟨hfirst, h⟩, fun h => h.2⟩
      · rintro id' hid' d b hd hb hdue
        rcases List.mem_cons.1 hid' with rfl | hid'
        · rw [hrest id' hid]
          exact hsettled hfirst id' (.head _) d b hd hb hdue
        · rw [← hdefs] at hd
          rw [← hsame id' hid'] at hb
          exact hrestSettled (hrests.2 (hcons.1 h).2) id' hid' d b hd hb hdue

/-- Where the first trigger is not fine, the others are left as they are. -/
theorem poll_stops (hids : w.defs.map Prod.fst = id :: ids) (h : ¬AllFine call out w [id]) :
    (∃ e, (alone out call.pollScheduler w).1 = .error e) ∧
      ∀ id' ≠ id, (alone out call.pollScheduler w).2.states id' = w.states id' := by
  have hlist : alone out (perform .listDefs : SM V _) w = (.ok (id :: ids), w) := by
    rw [← hids]
    rfl
  obtain ⟨-, hframe⟩ := @pollTrigger_frame V call out w id
  obtain ⟨hfine, -⟩ := @pollTrigger_apart V call out w id
  rw [PollCall.pollScheduler, alone_bind, hlist]
  dsimp only
  rw [PollCall.pollAll, alone_bind]
  generalize alone out (call.pollTrigger id) w = result at hframe hfine
  obtain ⟨e | tally, w'⟩ := result
  · exact ⟨⟨e, rfl⟩, hframe⟩
  · exact absurd (hfine.1 ⟨tally, rfl⟩) h

end All

/-- A poll alone, on a journal that does not fail: it returns, and leaves every due trigger as what
    is outside determines it, if and only if every due trigger is fine. -/
theorem poll_apart (call : PollCall) (out : Surroundings) (w : SchedWorld V)
    (hkeys : (w.defs.map Prod.fst).Nodup) :
    ((∃ res, (alone out call.pollScheduler w).1 = .ok res) ∧
      ∀ id d b, w.defs.lookup id = some d → w.states id = some b → Due call b →
        (alone out call.pollScheduler w).2.states id = settled call out id d b) ↔
    ∀ id d b, w.defs.lookup id = some d → w.states id = some b → Due call b →
      Fine call out id d b := by
  have hlist : alone out (perform .listDefs : SM V _) w = (.ok (w.defs.map Prod.fst), w) := rfl
  have hmem {id : JsString} {d : TriggerDef V} (hd : w.defs.lookup id = some d) :
      id ∈ w.defs.map Prod.fst := by
    obtain ⟨l₁, l₂, hl, -⟩ := List.lookup_eq_some_iff.1 hd
    rw [hl]
    simp
  rw [PollCall.pollScheduler, alone_bind, hlist]
  dsimp only
  obtain ⟨-, hfine, hsettled⟩ := @pollAll_alone V call out _ hkeys ⟨0, 0, 0, 0⟩ w
  rw [hfine]
  exact ⟨fun h id d b hd => h.1 id (hmem hd) d b hd,
    fun h => ⟨fun id _ d b => h id d b, fun id d b hd hb hdue =>
      hsettled (fun id _ d b => h id d b) id (hmem hd) d b hd hb hdue⟩⟩

/-! ## The leap day -/

section LeapDay

/-- What `scheduleWorkflow` is given, for the system. -/
def systemSpec (name : JsString) (at_ : Option ℤ) (cron : Option JsString) : ScheduleSpec Unit :=
  ⟨none, name, (), at_, none, cron, none, none, none, none, none⟩

def systemDef (name : JsString) (timing : Timing) : TriggerDef Unit :=
  ⟨name, (), timing, 5, .skip, none, none, false⟩

def leapState : TriggerState := ⟨(1835395200000 : ℤ), 0, 0, .pending, none⟩

/-- A trigger for leap days, planned for 29 February 2028, and one for a time on that day. -/
def leapWorld : SchedWorld Unit where
  defs := [(js "leap", systemDef (js "leap") (.cron (js "0 0 29 2 *"))),
    (js "once", systemDef (js "once") (.at_ 1835395200000))]
  states := fun id => if id = js "leap" ∨ id = js "once" then some leapState else none
  deferrals := fun _ => none
  trace := []

/-- The poll of the next day. -/
def leapCall : PollCall := ⟨1835481600000, 30000, false, false⟩

/-- Every workflow completes. -/
def completes : Surroundings := ⟨fun _ => true, fun _ => .ok (), fun _ => .ok false⟩

/-- The workflow of the first one fails. -/
def leapFails : Surroundings where
  lock _ := true
  guard _ := .ok ()
  outcome runId := if runId = js "sched:leap:0" then .error (.thrown (js "failed")) else .ok false

/-- A failure does not keep the other trigger from its time. -/
theorem poll_apart_failure :
    (∃ res, (alone leapFails leapCall.pollScheduler leapWorld).1 = .ok res) ∧
    (alone leapFails leapCall.pollScheduler leapWorld).2.states (js "once") =
      some ⟨(1835395200000 : ℤ), 0, 0, .done, none⟩ := by
  have hfine : ∀ id d b, leapWorld.defs.lookup id = some d → leapWorld.states id = some b →
      Due leapCall b → Fine leapCall leapFails id d b := by
    rintro id d b hd hb -
    have hb : (if id = js "leap" ∨ id = js "once" then some leapState else none) = some b := hb
    rw [Option.ite_none_right_eq_some] at hb
    obtain ⟨hid, hb⟩ := hb
    obtain rfl := Option.some.inj hb
    rcases hid with rfl | rfl
    all_goals obtain rfl := Option.some.inj hd
    · exact fun _ _ => trivial
    · exact fun _ _ => trivial
  obtain ⟨hok, hsettled⟩ := (poll_apart leapCall leapFails leapWorld (by decide)).2 hfine
  exact ⟨hok, hsettled (js "once") _ _ rfl rfl ⟨rfl, by decide⟩⟩

theorem nextCronTime_leapDays :
    nextCronTime (js "0 0 29 2 *") 1832976000000 = .ok 1835395200000 := by
  rcases @nextCronTime_slots _ _ 1832976000000 leapDays_written leapDays_inRange with
    ⟨t, hok, hleast, -⟩ | ⟨-, hlate⟩
  · rw [hok]
    have hle : t ≤ 1835395200000 := hleast.2 ⟨leapDays_slot, by decide⟩
    have hafter : 1832976000000 < t := hleast.1.2
    have hdays : ∀ k : Fin 28, civil ((21215 + (k : ℕ)) * 86400000) ≠ (2, 29) := by decide +kernel
    by_contra hne
    have hlt : t ≠ 1835395200000 := fun h => hne (by rw [h])
    exact not_leapDays hdays (by omega) (by omega) hleast.1.1
  · exact absurd (hlate _ leapDays_slot (by decide)) (by decide)

theorem not_hasSlot_leapDays : ¬HasSlot (js "0 0 29 2 *") 1835481600000 := by
  rintro ⟨c, hc, t, ht, hlt, hend⟩
  obtain ⟨c', hc', hslot⟩ := CronExpr.parseCron_ok leapDays_written leapDays_inRange
  obtain rfl := Except.ok.inj (hc.symm.trans hc')
  have hsearch : searchEnd 1835481600000 = 1867104060000 := by decide
  have hdays : ∀ k : Fin 367, civil ((21244 + (k : ℕ)) * 86400000) ≠ (2, 29) := by decide +kernel
  exact not_leapDays hdays (by omega) (by omega) ((hslot t).1 ht)

theorem newTrigger_system {name : JsString} {at_ : Option ℤ} {cron : Option JsString}
    {timing : Timing} {now first : ℤ} (hname : ownedName name ⟨none, none⟩ = .ok name)
    (htiming : timingOf (systemSpec name at_ cron) = .ok timing)
    (hfirst : firstRunAt timing now = .ok first) :
    newTrigger (systemSpec name at_ cron) now =
      .ok (name, systemDef name timing, ⟨first, 0, 0, .pending, none⟩) := by
  change (do
    let id ← (ownedName name ⟨none, none⟩).mapError ScheduleError.name
    let timing ← timingOf (systemSpec name at_ cron)
    let first ← firstRunAt timing now
    return (id, systemDef name timing, (⟨(first : ℤ), 0, 0, .pending, none⟩ : TriggerState))) = _
  rw [hname, htiming]
  change (do
    let first ← firstRunAt timing now
    return (name, systemDef name timing, (⟨(first : ℤ), 0, 0, .pending, none⟩ : TriggerState))) = _
  rw [hfirst]
  rfl

theorem newTrigger_leap : newTrigger (systemSpec (js "leap") none (some (js "0 0 29 2 *")))
    1832976000000 = .ok (js "leap", systemDef (js "leap") (.cron (js "0 0 29 2 *")),
      leapState) := by
  refine newTrigger_system rfl rfl ?_
  rw [firstRunAt, nextCronTime_leapDays]
  rfl

theorem newTrigger_once : newTrigger (systemSpec (js "once") (some 1835395200000) none)
    1832976000000 = .ok (js "once", systemDef (js "once") (.at_ 1835395200000),
      leapState) := rfl

theorem not_fine_leap : ¬Fine leapCall completes (js "leap")
    (systemDef (js "leap") (.cron (js "0 0 29 2 *"))) leapState :=
  fun h => not_hasSlot_leapDays (h rfl rfl)

/-- Both triggers are accepted and due. The poll throws after the first, and leaves the second. -/
theorem leapDay_stops :
    newTrigger (systemSpec (js "leap") none (some (js "0 0 29 2 *"))) 1832976000000 =
      .ok (js "leap", systemDef (js "leap") (.cron (js "0 0 29 2 *")),
        leapState) ∧
    newTrigger (systemSpec (js "once") (some 1835395200000) none) 1832976000000 =
      .ok (js "once", systemDef (js "once") (.at_ 1835395200000),
        leapState) ∧
    Due leapCall leapState ∧
    (∃ e, (alone completes leapCall.pollScheduler leapWorld).1 = .error e) ∧
    (alone completes leapCall.pollScheduler leapWorld).2.states (js "once") =
      some leapState := by
  have hfine : ¬AllFine leapCall completes leapWorld [js "leap"] := fun h =>
    not_fine_leap (h _ (.head _) _ _ rfl rfl ⟨rfl, by decide⟩)
  obtain ⟨herror, hothers⟩ := @poll_stops Unit leapCall completes leapWorld (js "leap") _ rfl hfine
  exact ⟨newTrigger_leap, newTrigger_once, ⟨rfl, by decide⟩, herror, hothers (js "once") (by decide)⟩

end LeapDay

end Gnldev.Scheduler
