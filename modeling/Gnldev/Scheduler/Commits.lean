import Gnldev.Scheduler.Poll

/-!
# What a poll commits

A poll changes a state in five ways (`MayCommit`): the trigger is deferred, it is retried, it
has failed, it is done, or it has fired and has a next time. It does so to a state that is
pending and due, and reports what it has done.

* `PollStep`: this as a protocol, which every poll follows (`pollScheduler_follows`);
* `Lawful`: the history of such commits, each on the state the ones before it have left;
* `sched_lawful`: the history of any run is lawful, and a poll that returns has counted its
  own fires.
-/

namespace Gnldev.Scheduler

open Prog Function

variable {V : Type}

/-! ## The protocol -/

/-- The state is pending, and due. -/
def Due (call : PollCall) (b : TriggerState) : Prop :=
  b.status = .pending ∧ ¬(call.now : WithBot ℤ) < b.nextRunAt

/-- What can come of a state, in a poll. -/
inductive MayCommit (call : PollCall) (d : TriggerDef V) (b : TriggerState) : TriggerState → Prop
  | deferred : MayCommit call d b (call.deferred b)
  | retried : MayCommit call d b { b with
      attempts := b.attempts + 1, nextRunAt := (call.now + backoff (b.attempts + 1) : ℤ) }
  | failed : MayCommit call d b { b with attempts := b.attempts + 1, status := .failed }
  | done : MayCommit call d b { b with status := .done }
  | fired {next : WithBot ℤ} : computeNext d b.nextRunAt call.now = .ok next →
      MayCommit call d b ⟨next, 0, b.fireCount + 1, .pending, none⟩

namespace Commit

/-- The trigger has fired, and has a next time. -/
def increments (c : Commit) : Bool := c.after.fireCount = c.before.fireCount + 1

/-- The trigger is done. -/
def finishes (c : Commit) : Bool := c.after.status = .done

/-- How often a commit counts as a fire. -/
def fires (c : Commit) : ℕ := c.increments.toNat + c.finishes.toNat

end Commit

/-- What a poll knows, and has done. -/
structure PollPhase (V : Type) where
  /-- The trigger it is at. -/
  trigger : Option (JsString × TriggerDef V)
  fired : ℕ
  /-- A commit has thrown. -/
  broken : Bool

def PollPhase.init : PollPhase V := ⟨none, 0, false⟩

/-- What a poll knows after an operation. -/
def PollPhase.learn (i : ℕ) (s : PollPhase V) : (o : SchedOp V) → o.Res → PollPhase V
  | .getDef id, .ok (some d) => { s with trigger := some (id, d) }
  | .putIfMatch id b a, .ok true => { s with fired := s.fired + (Commit.mk i id b a).fires }
  | .putIfMatch .., .error _ => { s with broken := true }
  | _, _ => s

/-- What a poll may do. -/
def MayPoll (call : PollCall) (s : PollPhase V) : SchedOp V → Prop
  | .putIfMatch id b a => ∃ d, s.trigger = some (id, d) ∧ Due call b ∧ MayCommit call d b a
  | _ => True

/-- The protocol of a poll. -/
def PollStep (call : PollCall) (i : ℕ) (s : PollPhase V) (o : SchedOp V) (r : o.Res)
    (s' : PollPhase V) : Prop := MayPoll call s o ∧ s' = s.learn i o r

/-- What a poll has done when it returns. -/
def PollEnds (s : PollPhase V) : Except SchedError PollResult → Prop
  | .ok out => s.broken = false ∧ out.fired = s.fired
  | .error _ => True

section Call

variable {call : PollCall} {i : ℕ} {P : PollPhase V → Prop}

variable {o : SchedOp V}

theorem perform_runs {Q : PollPhase V → o.Ans → Prop} {X : PollPhase V → SchedError → Prop}
    (ho : ∀ s, P s → MayPoll call s o) (hQ : ∀ s r, P s → Q (s.learn i o (.ok r)) r)
    (hX : ∀ s e, P s → X (s.learn i o (.error e)) e) :
    Runs (PollStep call i) P (perform o) Q X := by
  intro s hs r
  refine ⟨_, ⟨ho s hs, rfl⟩, ?_⟩
  rcases r with e | r
  · exact hX s e hs
  · exact hQ s r hs

/-- An operation that teaches nothing. -/
theorem quiet_runs (ho : ∀ s, P s → MayPoll call s o) (hl : ∀ s r, PollPhase.learn i s o r = s) :
    Runs (PollStep call i) P (perform o) (fun s _ => P s) fun s _ => P s :=
  perform_runs ho (fun s r hs => by rw [hl]; exact hs) fun s e hs => by rw [hl]; exact hs

theorem attempt_runs {α : Type} {p : SM V α} {Q : PollPhase V → α → Prop}
    {X Y : PollPhase V → SchedError → Prop} (h : Runs (PollStep call i) P p Q Y) :
    Runs (PollStep call i) P (attempt p) (Ends Q Y) X := by
  refine Runs.tryCatch (Y := Y) ?_ fun e => runs_pure fun _ hs => hs
  exact Runs.bind h fun a => runs_pure fun _ hs => hs

/-- At the trigger `id`, having reported `n` fires. -/
structure At (id : JsString) (d : TriggerDef V) (n : ℕ) (s : PollPhase V) : Prop where
  trigger : s.trigger = some (id, d)
  fired : s.fired = n
  broken : s.broken = false

/-- Having reported `n` fires, and what the trigger adds. -/
def Told (n : ℕ) (s : PollPhase V) (tally : Tally) : Prop :=
  s.fired = n + (decide (tally = .fired)).toNat ∧ s.broken = false

variable {id : JsString} {d : TriggerDef V} {b : TriggerState} {n : ℕ}

/-- A commit that is reported as `tally`, if it is made. -/
theorem commit_runs (hb : Due call b) {a : TriggerState} (ha : MayCommit call d b a) (tally : Tally)
    (hfires : (Commit.mk i id b a).fires = (decide (tally = .fired)).toNat) {rest : SM V Tally}
    (hrest : Runs (PollStep call i) (Told n · tally) rest (Told n) fun _ _ => True) :
    Runs (PollStep call i) (At id d n)
      (do if ← PollCall.commit id b a then rest else return .nothing) (Told n)
      fun _ _ => True := by
  refine Runs.bind (Q := fun s r => Told n s (if r then tally else .nothing)) ?_ fun r => ?_
  · refine perform_runs (fun s hs => ⟨d, hs.trigger, hb, ha⟩) (fun s r hs => ?_)
      fun _ _ _ => trivial
    rcases r with _ | _
    · exact ⟨hs.fired, hs.broken⟩
    · exact ⟨by rw [PollPhase.learn, if_pos rfl, hs.fired, hfires], hs.broken⟩
  rcases r with _ | _
  · exact runs_pure fun _ hs => hs
  · exact hrest

/-- A note, after what is reported. -/
theorem note_runs {tally : Tally} (ho : ∀ s, MayPoll call s o)
    (hl : ∀ s r, PollPhase.learn i s o r = s) :
    Runs (PollStep call i) (Told n · tally) (perform o) (fun s _ => Told n s tally)
      fun _ _ => True :=
  (quiet_runs (fun s _ => ho s) hl).drop

/-- A note with the text of an error, after what is reported. -/
theorem noteTold_runs (o : SchedError → SchedOp V) {tally : Tally}
    {rest : (e : SchedError) → (o e).Ans → SM V Tally}
    (ho : ∀ e s, MayPoll call s (o e)) (hl : ∀ e s r, PollPhase.learn i s (o e) r = s)
    (hrest : ∀ e r, Runs (PollStep call i) (Told n · tally) (rest e r) (Told n) fun _ _ => True)
    (e : SchedError) :
    Runs (PollStep call i) (Told n · tally)
      (do let e ← PollCall.told e; let r ← perform (o e); rest e r) (Told n) fun _ _ => True := by
  refine Runs.bind (Q := fun s _ => Told n s tally) ?_ fun e => ?_
  · cases e with
    | untold _ => exact runs_throw fun _ _ => trivial
    | _ => exact runs_pure fun _ hs => hs
  · exact Runs.bind (note_runs (ho e) (hl e)) (hrest e)

/-- What does not count as a fire. -/
theorem fires_eq_zero {a : TriggerState} (hcount : a.fireCount = b.fireCount)
    (hdone : a.status ≠ .done) : (Commit.mk i id b a).fires = 0 := by
  simp [Commit.fires, Commit.increments, Commit.finishes, hcount, hdone]

theorem deferred_fires (hb : Due call b) : (Commit.mk i id b (call.deferred b)).fires = 0 := by
  refine fires_eq_zero rfl ?_
  rw [PollCall.deferred, hb.1]
  exact nofun

theorem budgetSkip_runs (hb : Due call b) (e : SchedError) :
    Runs (PollStep call i) (At id d n) (call.budgetSkip id b e : SM V Tally) (Told n)
      fun _ _ => True := by
  refine commit_runs hb .deferred .skipped (deferred_fires hb) ?_
  exact noteTold_runs (.putBudgetSkip id · call.now) (fun _ _ => trivial) (fun _ _ _ => rfl)
    (fun _ _ => runs_pure fun _ hs => hs) e

theorem busySkip_runs (hb : Due call b) (e : SchedError) :
    Runs (PollStep call i) (At id d n) (call.busySkip id b e : SM V Tally) (Told n)
      fun _ _ => True := by
  refine commit_runs hb .deferred .skipped (deferred_fires hb) ?_
  refine Runs.bind (note_runs (fun _ => trivial) fun _ _ => rfl) fun prev => ?_
  exact noteTold_runs (.putBusySkip id · call.now _ _) (fun _ _ => trivial) (fun _ _ _ => rfl)
    (fun _ _ => runs_pure fun _ hs => hs) e

theorem failure_runs (hb : Due call b) (e : SchedError) :
    Runs (PollStep call i) (At id d n) (call.failure id d b e) (Told n) fun _ _ => True := by
  rw [PollCall.failure]
  split
  · refine commit_runs hb .failed .failed (fires_eq_zero rfl nofun) ?_
    exact noteTold_runs (.putFail id · call.now) (fun _ _ => trivial) (fun _ _ _ => rfl)
      (fun _ _ => runs_pure fun _ hs => hs) e
  · refine commit_runs hb .retried .rescheduled (fires_eq_zero rfl ?_) (runs_pure fun _ hs => hs)
    rw [hb.1]
    exact nofun

theorem success_runs (hb : Due call b) (suspended : Bool) :
    Runs (PollStep call i) (At id d n) (call.success id d b suspended) (Told n)
      fun _ _ => True := by
  rcases suspended with _ | _
  · rw [PollCall.success, if_neg Bool.false_ne_true]
    split
    · refine commit_runs hb .done .fired ?_ (runs_pure fun _ hs => hs)
      simp [Commit.fires, Commit.increments, Commit.finishes]
    · split
      · exact runs_throw fun _ _ => trivial
      · next next hnext =>
        refine commit_runs hb (.fired hnext) .fired ?_ (runs_pure fun _ hs => hs)
        simp [Commit.fires, Commit.increments, Commit.finishes]
  · exact commit_runs hb .deferred .rescheduled (deferred_fires hb) (runs_pure fun _ hs => hs)

theorem runTrigger_runs (b : TriggerState) :
    Runs (PollStep call i) P (call.runTrigger id d b) (fun s _ => P s) fun s _ => P s := by
  rw [PollCall.runTrigger]
  split
  · exact runs_throw fun _ hs => hs
  · exact quiet_runs (fun _ _ => trivial) fun _ _ => rfl

theorem fire_runs (hb : Due call b) :
    Runs (PollStep call i) (At id d n) (call.fire id d b) (Told n) fun _ _ => True := by
  have hguard : Runs (PollStep call i) (At id d n)
      (if call.budgetGuard then perform (.budgetGuard id d call.now) else return () : SM V Unit)
      (fun s _ => At id d n s) fun s _ => At id d n s := by
    split
    · exact quiet_runs (fun _ _ => trivial) fun _ _ => rfl
    · exact runs_pure fun _ hs => hs
  refine Runs.bind (attempt_runs hguard) fun r => ?_
  rcases r with e | r
  · exact budgetSkip_runs hb e
  refine Runs.bind (attempt_runs (runTrigger_runs b)) fun r => ?_
  rcases r with e | suspended
  · dsimp only
    split
    · exact busySkip_runs hb e
    · exact failure_runs hb e
  · exact success_runs hb suspended

/-- Having reported `n` fires. -/
def Between (n : ℕ) (s : PollPhase V) : Prop := s.fired = n ∧ s.broken = false

theorem pollTrigger_runs :
    Runs (PollStep call i) (Between n) (call.pollTrigger id : SM V Tally) (Told n)
      fun _ _ => True := by
  refine Runs.bind (Q := fun s d? => Between n s ∧ ∀ d, d? = some d → s.trigger = some (id, d)) ?_
    fun d? => ?_
  · refine perform_runs (fun _ _ => trivial) (fun s d? hs => ?_) fun _ _ _ => trivial
    rcases d? with _ | d
    · exact ⟨hs, nofun⟩
    · refine ⟨hs, ?_⟩
      rintro _ ⟨⟩
      rfl
  refine Runs.bind (quiet_runs (o := .getState id) (fun _ _ => trivial) fun _ _ => rfl).drop fun state? => ?_
  split
  · next d b =>
    split
    · exact runs_pure fun _ hs => hs.1
    · next hdue =>
      rw [not_or, not_not] at hdue
      refine Runs.bind (Q := fun s _ => At id d n s) ?_ fun locked => ?_
      · exact (quiet_runs (o := .acquireLock _) (fun _ _ => trivial) fun _ _ => rfl).conseq
          (fun s hs => ⟨hs.2 d rfl, hs.1.1, hs.1.2⟩) (fun _ _ h => h) fun _ _ _ => trivial
      rcases locked with _ | _
      · exact runs_pure fun _ hs => ⟨hs.fired, hs.broken⟩
      refine Runs.bind (attempt_runs (fire_runs hdue)) fun result => ?_
      refine Runs.bind (quiet_runs (o := .release _) (fun _ _ => trivial) fun _ _ => rfl).drop fun _ => ?_
      rcases result with e | tally
      · exact runs_throw fun _ _ => trivial
      · exact runs_pure fun _ hs => hs
  · exact runs_pure fun _ hs => hs.1

theorem add_fired (out : PollResult) (tally : Tally) :
    (out.add tally).fired = out.fired + (decide (tally = .fired)).toNat := by
  rcases tally with _ | _ | _ | _ | _ <;> rfl

theorem pollAll_runs (ids : List JsString) (out : PollResult) :
    Runs (PollStep call i) (Between out.fired) (call.pollAll ids out : SM V PollResult)
      (fun s out => s.broken = false ∧ out.fired = s.fired) fun _ _ => True := by
  induction ids generalizing out with
  | nil => exact runs_pure fun _ hs => ⟨hs.2, hs.1.symm⟩
  | cons id ids ih =>
    refine Runs.bind pollTrigger_runs fun tally => (ih (out.add tally)).pre fun s hs => ?_
    rw [Between, add_fired]
    exact hs

theorem pollScheduler_follows (call : PollCall) (i : ℕ) :
    (call.pollScheduler (V := V)).run.Follows (PollStep call i) PollPhase.init PollEnds := by
  have hrun : Runs (PollStep (V := V) call i) (· = PollPhase.init) call.pollScheduler
      (fun s out => s.broken = false ∧ out.fired = s.fired) fun _ _ => True := by
    refine Runs.bind (quiet_runs (o := .listDefs) (fun _ _ => trivial) fun _ _ => rfl).drop fun ids => ?_
    exact (pollAll_runs ids ⟨0, 0, 0, 0⟩).pre fun s hs => by rw [hs]; exact ⟨rfl, rfl⟩
  refine (hrun _ rfl).mono fun s r hr => ?_
  rcases r with e | out
  · trivial
  · exact hr

end Call

/-! ## Histories -/

/-- The states that commits leave, the latest first. -/
def stateOf (states : JsString → Option TriggerState) : List Commit → JsString → Option TriggerState
  | [] => states
  | c :: past => update (stateOf states past) c.id (some c.after)

/-- Every commit is one its poll may make, on the state before it. -/
def Lawful (polls : ℕ → PollCall) (w : SchedWorld V) : List Commit → Prop
  | [] => True
  | c :: past => (stateOf w.states past c.id = some c.before ∧ Due (polls c.i) c.before ∧
      ∃ d, w.defs.lookup c.id = some d ∧ MayCommit (polls c.i) d c.before c.after) ∧
    Lawful polls w past

/-- The fires of the poll `i`. -/
def firedBy (i : ℕ) (trace : List Commit) : ℕ :=
  ((trace.filter (·.i = i)).map Commit.fires).sum

theorem firedBy_cons (i : ℕ) (c : Commit) (past : List Commit) :
    firedBy i (c :: past) = (if c.i = i then c.fires else 0) + firedBy i past := by
  rw [firedBy, List.filter_cons]
  split
  · next h =>
    rw [if_pos (by simpa using h), List.map_cons, List.sum_cons]
    rfl
  · next h =>
    rw [if_neg (by simpa using h), Nat.zero_add]
    rfl

section Run

variable {polls : ℕ → PollCall} {w₀ w : SchedWorld V} {ph : ℕ → PollPhase V}

/-- What a run keeps, from the world `w₀` on. -/
structure SchedInv (polls : ℕ → PollCall) (w₀ w : SchedWorld V) (ph : ℕ → PollPhase V) : Prop where
  defs : w.defs = w₀.defs
  states : w.states = stateOf w₀.states w.trace
  lawful : Lawful polls w₀ w.trace
  trigger : ∀ i id d, (ph i).trigger = some (id, d) → w₀.defs.lookup id = some d
  fired : ∀ i, (ph i).broken = false → (ph i).fired = firedBy i w.trace

/-- The world after a commit of the poll `i`. -/
def SchedWorld.commit (w : SchedWorld V) (c : Commit) : SchedWorld V :=
  { w with states := update w.states c.id (some c.after), trace := c :: w.trace }

/-- What is not a commit leaves the definitions, the states and the history. -/
theorem exec_quiet (i : ℕ) (a : SchedAnswer V) {o : SchedOp V}
    (ho : ∀ id b next, o ≠ .putIfMatch id b next) :
    ∃ deferrals, (schedMachine.exec i a o w).2 = { w with deferrals } := by
  rcases o with _ | _ | _ | _ | _ | _ | _ | ⟨id, b, next⟩ | _ | _ | _ | _
  case putIfMatch => exact absurd rfl (ho id b next)
  case budgetGuard => exact ⟨_, rfl⟩
  case runWorkflow => exact ⟨_, rfl⟩
  all_goals
    rcases hfault : a.fault with _ | e
    all_goals simp only [schedMachine, hfault, schedExec, ite_self]
  case putBusySkip.some =>
    split
    · exact ⟨_, rfl⟩
    · exact ⟨_, rfl⟩
  all_goals exact ⟨_, rfl⟩

/-- A commit is made, on the state that was read, or it is not; or it throws. -/
theorem exec_putIfMatch (i : ℕ) (a : SchedAnswer V) (id : JsString) (b next : TriggerState) :
    let o := SchedOp.putIfMatch (V := V) id b next
    (w.states id = some b ∧ (schedMachine.exec i a o w).2 = w.commit ⟨i, id, b, next⟩ ∧
      ((schedMachine.exec i a o w).1 = .ok true ∨ ∃ e, (schedMachine.exec i a o w).1 = .error e)) ∨
    ((schedMachine.exec i a o w).2 = w ∧
      ((schedMachine.exec i a o w).1 = .ok false ∨
        ∃ e, (schedMachine.exec i a o w).1 = .error e)) := by
  by_cases hb : w.states id = some b
  all_goals
    rcases hfault : a.fault with _ | e
    all_goals simp only [schedMachine, hfault, schedExec, hb]
  · exact .inl ⟨trivial, rfl, .inl rfl⟩
  · by_cases happ : a.applied
    · exact .inl ⟨trivial, if_pos happ, .inr ⟨e, rfl⟩⟩
    · exact .inr ⟨if_neg happ, .inr ⟨e, rfl⟩⟩
  · exact .inr ⟨rfl, .inl rfl⟩
  · exact .inr ⟨ite_self _, .inr ⟨e, rfl⟩⟩

/-- A history goes on by commits of the poll that moves. -/
theorem trace_move (conf : Conf (SchedOp V) SchedOp.Res (Except SchedError PollResult) (SchedWorld V))
    (i : ℕ) (a : SchedAnswer V) :
    (schedMachine.move conf (.run i a)).world.trace = conf.world.trace ∨
      ∃ c : Commit, c.i = i ∧
        (schedMachine.move conf (.run i a)).world.trace = c :: conf.world.trace := by
  simp only [Machine.move]
  split
  · exact .inl rfl
  · next o k _ =>
    by_cases ho : ∀ id b next, o ≠ .putIfMatch id b next
    · obtain ⟨deferrals, hw⟩ := exec_quiet (w := conf.world) i a ho
      rw [hw]
      exact .inl rfl
    · push Not at ho
      obtain ⟨id, b, next, rfl⟩ := ho
      rcases exec_putIfMatch (w := conf.world) i a id b next with ⟨-, hw, -⟩ | ⟨hw, -⟩
      all_goals rw [hw]
      · exact .inr ⟨_, rfl, rfl⟩
      · exact .inl rfl

/-- What is not a commit teaches at most a definition. -/
theorem learn_quiet (i : ℕ) {s : PollPhase V} {o : SchedOp V} (r : o.Res)
    (ho : ∀ id b next, o ≠ .putIfMatch id b next) :
    s.learn i o r = s ∨ ∃ id d, ∃ h : o = .getDef id, h ▸ r = .ok (some d) ∧
      s.learn i o r = { s with trigger := some (id, d) } := by
  rcases o with _ | id | _ | _ | _ | _ | _ | ⟨id, b, next⟩ | _ | _ | _ | _
  case putIfMatch => exact absurd rfl (ho id b next)
  case getDef =>
    rcases r with e | _ | d
    · exact .inl rfl
    · exact .inl rfl
    · exact .inr ⟨id, d, rfl, rfl, rfl⟩
  all_goals exact .inl rfl

theorem exec_getDef {i : ℕ} {a : SchedAnswer V} {id : JsString} {d : TriggerDef V}
    (h : (schedMachine.exec i a (.getDef id) w).1 = .ok (some d)) :
    w.defs.lookup id = some d := by
  rcases hfault : a.fault with _ | e
  all_goals simp only [schedMachine, hfault] at h
  · exact Except.ok.inj h
  · cases h

namespace SchedInv

variable {i : ℕ}

theorem init (h : w₀.trace = []) : SchedInv polls w₀ w₀ fun _ => PollPhase.init := by
  refine ⟨rfl, ?_, ?_, nofun, fun i _ => ?_⟩
  all_goals rw [h]
  · rfl
  · trivial
  · rfl

variable {s : PollPhase V}

/-- The poll `i` learns something that leaves its count. -/
theorem quiet (h : SchedInv polls w₀ w ph) (deferrals : JsString → Option ℕ)
    (ht : ∀ id d, s.trigger = some (id, d) → w₀.defs.lookup id = some d)
    (hf : s.broken = false → s.fired = firedBy i w.trace) :
    SchedInv polls w₀ { w with deferrals } (update ph i s) :=
  ⟨h.defs, h.states, h.lawful,
    (forall_update_iff ph fun _ (s : PollPhase V) =>
      ∀ id d, s.trigger = some (id, d) → w₀.defs.lookup id = some d).2
      ⟨ht, fun j _ => h.trigger j⟩,
    (forall_update_iff ph fun j (s : PollPhase V) =>
      s.broken = false → s.fired = firedBy j w.trace).2 ⟨hf, fun j _ => h.fired j⟩⟩

/-- The poll `i` commits. -/
theorem commit (h : SchedInv polls w₀ w ph) {id : JsString} {b next : TriggerState}
    {d : TriggerDef V} (hb : w.states id = some b) (hdue : Due (polls i) b)
    (hd : (ph i).trigger = some (id, d)) (hmay : MayCommit (polls i) d b next)
    (ht : s.trigger = (ph i).trigger) (hf : s.broken = false → (ph i).broken = false ∧
      s.fired = (ph i).fired + (Commit.mk i id b next).fires) :
    SchedInv polls w₀ (w.commit ⟨i, id, b, next⟩) (update ph i s) := by
  refine ⟨h.defs, ?_, ⟨⟨?_, hdue, d, h.trigger i id d hd, hmay⟩, h.lawful⟩, ?_, ?_⟩
  · exact congrArg (fun states => update states id (some next)) h.states
  · rw [← h.states]
    exact hb
  · refine (forall_update_iff ph fun _ (s : PollPhase V) =>
      ∀ id d, s.trigger = some (id, d) → w₀.defs.lookup id = some d).2 ⟨?_, fun j _ => h.trigger j⟩
    rw [ht]
    exact h.trigger i
  · refine (forall_update_iff ph fun j (s : PollPhase V) =>
      s.broken = false → s.fired = firedBy j (⟨i, id, b, next⟩ :: w.trace)).2
      ⟨fun hs => ?_, fun j hj hs => ?_⟩
    · obtain ⟨hbroken, hfired⟩ := hf hs
      rw [hfired, firedBy_cons, if_pos rfl, h.fired i hbroken, Nat.add_comm]
    · rw [firedBy_cons, if_neg (Ne.symm hj), Nat.zero_add]
      exact h.fired j hs

/-- An operation of a poll. -/
theorem step (h : SchedInv polls w₀ w ph) {a : SchedAnswer V} {o : SchedOp V}
    (hstep : PollStep (polls i) i (ph i) o (schedMachine.exec i a o w).1 s) :
    SchedInv polls w₀ (schedMachine.exec i a o w).2 (update ph i s) := by
  obtain ⟨hmay, rfl⟩ := hstep
  by_cases ho : ∀ id b next, o ≠ .putIfMatch id b next
  · obtain ⟨deferrals, hw⟩ := exec_quiet (w := w) i a ho
    rw [hw]
    rcases learn_quiet (s := ph i) i (schedMachine.exec i a o w).1 ho with hl | ⟨id, d, rfl, hr, hl⟩
    all_goals rw [hl]
    · exact h.quiet deferrals (h.trigger i) (h.fired i)
    · refine h.quiet deferrals ?_ (h.fired i)
      rintro _ _ ⟨⟩
      rw [← h.defs]
      exact exec_getDef hr
  · push Not at ho
    obtain ⟨id, b, next, rfl⟩ := ho
    obtain ⟨d, hd, hdue, hcommit⟩ := hmay
    rcases exec_putIfMatch (w := w) i a id b next with ⟨hb, hw, hr⟩ | ⟨hw, hr⟩
    · rw [hw]
      rcases hr with hr | ⟨e, hr⟩
      all_goals rw [hr]
      · exact h.commit hb hdue hd hcommit rfl fun hs => ⟨hs, rfl⟩
      · exact h.commit hb hdue hd hcommit rfl nofun
    · rw [hw]
      rcases hr with hr | ⟨e, hr⟩
      all_goals rw [hr]
      · exact h.quiet w.deferrals (h.trigger i) (h.fired i)
      · exact h.quiet w.deferrals (h.trigger i) nofun

end SchedInv

/-- The history of a run is lawful, the states are what it leaves, and a poll that returns
    has counted its own fires. -/
theorem sched_lawful (polls : ℕ → PollCall) (hw : w₀.trace = [])
    (ms : List (Move (SchedAnswer V) Empty)) :
    Lawful polls w₀ (schedAfter w₀ polls ms).world.trace ∧
      (schedAfter w₀ polls ms).world.states =
        stateOf w₀.states (schedAfter w₀ polls ms).world.trace ∧
      ∀ i out, (schedAfter w₀ polls ms).procs i = .pure (.ok out) →
        out.fired = firedBy i (schedAfter w₀ polls ms).world.trace := by
  obtain ⟨ph, hinv, hf⟩ : ∃ ph, SchedInv polls w₀ (schedAfter w₀ polls ms).world ph ∧
      ∀ i, ((schedAfter w₀ polls ms).procs i).Follows (PollStep (polls i) i) (ph i) PollEnds := by
    refine Machine.play_follows (J := SchedInv polls w₀) ?_ (fun _ _ e _ => e.elim) (.init hw)
      (fun i => pollScheduler_follows (polls i) i) (Machine.meets_true (schedStart w₀ polls) ms)
    exact fun _ _ _ _ _ _ h hstep _ => h.step hstep
  refine ⟨hinv.lawful, hinv.states, fun i out hout => ?_⟩
  have hends := hf i
  rw [hout] at hends
  exact hends.2.trans (hinv.fired i hends.1)

/-- A history goes on. -/
theorem trace_suffix (w₀ : SchedWorld V) (polls : ℕ → PollCall)
    (ms : List (Move (SchedAnswer V) Empty)) (n : ℕ) :
    (schedAfter w₀ polls (ms.take n)).world.trace <:+ (schedAfter w₀ polls ms).world.trace := by
  have hsplit : schedAfter w₀ polls ms =
      schedMachine.play (schedAfter w₀ polls (ms.take n)) (ms.drop n) := by
    rw [schedAfter, schedAfter, ← Machine.play_append, List.take_append_drop]
  rw [hsplit]
  generalize schedAfter w₀ polls (ms.take n) = conf
  induction ms.drop n generalizing conf with
  | nil => exact List.suffix_rfl
  | cons m ms ih =>
    refine List.IsSuffix.trans ?_ (ih _)
    obtain ⟨i, a⟩ | e := m
    · rcases trace_move conf i a with h | ⟨c, -, h⟩
      · exact ⟨[], h.symm⟩
      · exact h ▸ List.suffix_cons _ _
    · exact e.elim

end Run

end Gnldev.Scheduler
