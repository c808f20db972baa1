import Gnldev.Lib.OrderedMap
import Gnldev.Scheduler.Monotone

/-!
# Moving a trigger to an owner

`moveTrigger` (`scheduler/src/index.ts`) gives a trigger of the system to an owner: it writes the
definition and the state under the owned id, and retires the old trigger. If it stops between the two
writes, or finds that the old trigger has fired, it is to be run again; then it finds the definition,
and writes neither. Meanwhile polls may fire both triggers.

* `moveTrigger`: the three writes;
* `moveMachine`: calls of it for one trigger, and polls, on one journal;
* `Undisturbed`: no call finds half of the owned trigger, and the old trigger fires nothing that the
  owned one will;
* `meets_unstarted`: the latter is so of all polls that read the old trigger once it is retired;
* `moved_once`: then the owned trigger is there and the old one is retired, when a call has returned,
  and no occurrence is fired under both ids.
-/

open List

namespace Gnldev.Scheduler

open Durable Prog Function

variable {V : Type}

/-! ## The move -/

/-- Why a trigger is not moved. -/
inductive MoveError where
  /-- That trigger already has an owner; only a system trigger is moved. -/
  | owned (fromId : JsString)
  /-- `moveTrigger` needs an owner to move the trigger to. -/
  | noOwner
  | schedule (e : ScheduleError)
  | journal (e : SchedError)
  /-- The trigger fired while it was being moved; stop the pollers and run it again. -/
  | fired (fromId : JsString)

/-- An operation of a poll, or one of `moveTrigger`. -/
inductive MoveOp (V : Type) where
  | poll (o : SchedOp V)
  | getDef (id : JsString)
  | getState (id : JsString)
  | putDef (id : JsString) (d : TriggerDef V)
  | putState (id : JsString) (state : TriggerState)
  | putIfMatch (id : JsString) (expected next : TriggerState)

abbrev MoveOp.Ans : MoveOp V → Type
  | poll o => o.Ans
  | getDef _ => Option (TriggerDef V)
  | getState _ => Option TriggerState
  | putDef .. => Unit
  | putState .. => Unit
  | putIfMatch .. => Bool

abbrev MoveOp.Res (o : MoveOp V) : Type := Except SchedError o.Ans

abbrev MoveM (V : Type) := ExceptT MoveError (Prog (MoveOp V) MoveOp.Res)

def performMove (o : MoveOp V) : MoveM V o.Ans :=
  ExceptT.mk do return (← Prog.perform o).mapError .journal

/-- Whom the trigger is moved to, and whether that is the staff. -/
def moveOwner (fromId : JsString) (spec : ScheduleSpec V) : Except MoveError (Owner × Bool) := do
  let current := (ownerOfName fromId).1
  if current.resourceId.isSome ∨ current.orgId.isSome then throw (.owned fromId)
  let (owner, staff) ← (triggerOwnerOf spec).mapError .schedule
  if owner.resourceId = none ∧ owner.orgId = none then throw .noOwner
  if let some orgId := owner.orgId then
    if orgId = [] ∨ colon ∈ orgId then throw (.schedule (.invalidOrgId orgId))
  return (owner, staff)

/-- The owned trigger, unless its definition is there. -/
def copyTrigger (toId : JsString) (owner : Owner) (staff : Bool) (d : TriggerDef V)
    (state : TriggerState) : MoveM V Unit := do
  match ← performMove (.getDef toId) with
  | some _ => return ()
  | none =>
    performMove
      (.putDef toId { d with resourceId := owner.resourceId, orgId := owner.orgId, staff })
    performMove (.putState toId { state with movedTo := none })

/-- The old trigger, if it is pending. The journal can compare and swap. -/
def retireTrigger (fromId toId : JsString) (state : TriggerState) : MoveM V Unit :=
  if state.status = .pending then do
    if ← performMove (.putIfMatch fromId state { state with status := .done, movedTo := some toId })
    then return ()
    else throw (.fired fromId)
  else return ()

def moveTrigger (fromId : JsString) (spec : ScheduleSpec V) : MoveM V (Option JsString) := do
  let (owner, staff) ← ExceptT.mk (return moveOwner fromId spec)
  let d ← performMove (.getDef fromId)
  let state ← performMove (.getState fromId)
  match d, state with
  | some d, some state =>
    let toId ← ExceptT.mk (return (ownedName fromId owner).mapError (.schedule ∘ .name))
    copyTrigger toId owner staff d state
    retireTrigger fromId toId state
    return some toId
  | _, _ => return none

/-! ## Together -/

/-- The journal, the run ids whose workflows have been run, and the counts that have been copied. -/
structure MoveWorld (V : Type) where
  sched : SchedWorld V
  fired : List JsString
  copied : List ℕ

/-- The workflow of a run is run. -/
def SchedOp.firedRun : SchedOp V → Option JsString
  | .runWorkflow _ _ runId _ => some runId
  | _ => none

namespace SchedAnswer

variable (a : SchedAnswer V)

/-- What is answered, if the journal does not throw. -/
def orThrows {α : Type} (r : α) : Except SchedError α :=
  match a.fault with
  | some e => .error e
  | none => .ok r

/-- A write takes effect. -/
def takes : Bool := a.fault.isNone || a.applied

end SchedAnswer

namespace SchedWorld

variable (w : SchedWorld V)

def putDef (id : JsString) (d : TriggerDef V) : SchedWorld V :=
  { w with defs := OrderedMap.putEntry id d w.defs }

def putState (id : JsString) (state : TriggerState) : SchedWorld V :=
  { w with states := update w.states id (some state) }

end SchedWorld

def moveMachine : Machine (MoveOp V) MoveOp.Res (MoveWorld V) (SchedAnswer V) Empty where
  exec i a o w :=
    match o with
    | .poll o =>
      let (r, sched) := schedMachine.exec i a o w.sched
      (r, { w with sched, fired := o.firedRun.toList ++ w.fired })
    | .getDef id => (a.orThrows (w.sched.defs.lookup id), w)
    | .getState id => (a.orThrows (w.sched.states id), w)
    | .putDef id d => (a.orThrows (), if a.takes then { w with sched := w.sched.putDef id d } else w)
    | .putState id state =>
      (a.orThrows (),
        if a.takes then
          { w with sched := w.sched.putState id state, copied := state.fireCount :: w.copied }
        else w)
    | .putIfMatch id expected next =>
      if w.sched.states id = some expected then
        (a.orThrows true,
          if a.takes then { w with sched := w.sched.putState id next } else w)
      else (a.orThrows false, w)
  env e _ := e.elim

/-- A call of `pollScheduler`, or one of `moveTrigger`. -/
inductive TriggerJob where
  | poll (call : PollCall)
  | move

def TriggerJob.run (fromId : JsString) (spec : ScheduleSpec V) :
    TriggerJob → Prog (MoveOp V) MoveOp.Res (Except MoveError (Option JsString))
  | poll call => do
    let _ ← (call.pollScheduler (V := V)).run.lift fun o => Prog.perform (.poll o)
    return .ok none
  | move => (moveTrigger fromId spec).run

def moveStart (fromId : JsString) (spec : ScheduleSpec V) (w : SchedWorld V) (jobs : ℕ → TriggerJob) :
    Conf (MoveOp V) MoveOp.Res (Except MoveError (Option JsString)) (MoveWorld V) :=
  ⟨⟨w, [], []⟩, fun i => (jobs i).run fromId spec⟩

/-! ## Occurrences -/

/-- What the run ids of a trigger begin with. -/
def runPrefix (id : JsString) : JsString := js "sched:" ++ id ++ js ":"

/-- The number of the occurrence, if it is one of the trigger. -/
def occurrenceOf (id runId : JsString) : Option ℕ :=
  if runId = runPrefix id ++ decimal (numberOf (runId.drop (runPrefix id).length)) then
    some (numberOf (runId.drop (runPrefix id).length))
  else none

/-- The occurrences of a trigger that have been fired. -/
def MoveWorld.firedUnder (w : MoveWorld V) (id : JsString) : List ℕ :=
  w.fired.filterMap (occurrenceOf id)

theorem occurrenceOf_eq_some_iff {id runId : JsString} {n : ℕ} :
    occurrenceOf id runId = some n ↔ runId = runPrefix id ++ decimal n := by
  rw [occurrenceOf]
  constructor
  · intro h
    split at h
    · next heq =>
      obtain rfl := Option.some.inj h
      exact heq
    · contradiction
  · rintro rfl
    rw [drop_left, numberOf_decimal, if_pos rfl]

/-- The number of an occurrence has no colon, so that it ends the run id. -/
theorem runPrefix_inj {id id' : JsString} {m n : ℕ}
    (h : runPrefix id ++ decimal m = runPrefix id' ++ decimal n) : id = id' := by
  have hdigits (k : ℕ) : colon ∉ decimal k := fun hk => by
    have hdigit := isDigit_of_mem_decimal hk
    contradiction
  have hreverse := congrArg List.reverse h
  have hsplit (id : JsString) (k : ℕ) : (runPrefix id ++ decimal k).reverse =
      (decimal k).reverse ++ colon :: (js "sched:" ++ id).reverse := by
    rw [runPrefix, reverse_append, reverse_append]
    rfl
  rw [hsplit, hsplit] at hreverse
  have htail := congrArg (List.dropWhile (· ≠ colon)) hreverse
  have hdrop (id : JsString) (k : ℕ) :
      ((decimal k).reverse ++ colon :: (js "sched:" ++ id).reverse).dropWhile (· ≠ colon) =
        colon :: (js "sched:" ++ id).reverse := by
    rw [dropWhile_append_of_pos]
    · rfl
    · intro u hu
      rw [decide_eq_true_eq]
      rintro rfl
      exact hdigits k (mem_reverse.1 hu)
  rw [hdrop, hdrop] at htail
  exact append_cancel_left (reverse_injective (List.cons.inj htail).2)

/-! ## The text of a poll -/

/-- What a poll does with a trigger whose state it has read. -/
def Fires (id : JsString) (b : TriggerState) : SchedOp V → Prop
  | .getState _ => False
  | .runWorkflow _ _ runId _ => runId = runIdOf id b ∧ b.status = .pending
  | .putIfMatch id' b' a => id' = id ∧ b' = b ∧ b.status = .pending ∧ b.fireCount ≤ a.fireCount
  | _ => True

/-- The state a poll has read last, after an operation. -/
def readAfter (s : Option (JsString × TriggerState)) :
    (o : SchedOp V) → o.Res → Option (JsString × TriggerState)
  | .getState id, .ok (some b) => some (id, b)
  | _, _ => s

/-- What a poll may do that has read it. -/
def MayFire (s : Option (JsString × TriggerState)) : SchedOp V → Prop
  | .runWorkflow _ _ runId _ => ∃ id b, s = some (id, b) ∧ runId = runIdOf id b ∧ b.status = .pending
  | .putIfMatch id b a => s = some (id, b) ∧ b.status = .pending ∧ b.fireCount ≤ a.fireCount
  | _ => True

def ReadStep (s : Option (JsString × TriggerState)) (o : SchedOp V) (r : o.Res)
    (s' : Option (JsString × TriggerState)) : Prop := MayFire s o ∧ s' = readAfter s o r

section Polls

variable {call : PollCall} {id : JsString} {d : TriggerDef V} {b : TriggerState}

variable {q : SchedOp V → Prop}

theorem attempt_only {α : Type} {p : SM V α} (h : p.run.Only q) :
    (attempt p).run.Only q := by
  refine Only.bind (Only.bind h fun r => ?_) fun r => ?_
  · rcases r with e | a <;> trivial
  · rcases r with e | a <;> trivial

theorem perform_only {o : SchedOp V} (h : q o) : (perform o).run.Only q :=
  ⟨h, fun _ => trivial⟩

theorem told_only (e : SchedError) :
    (PollCall.told e : SM V SchedError).run.Only q := by
  cases e <;> trivial

theorem commit_only (hb : b.status = .pending) {a : TriggerState} (ha : b.fireCount ≤ a.fireCount)
    {rest : SM V Tally} (hrest : rest.run.Only (Fires id b)) :
    (do if ← PollCall.commit id b a then rest else return .nothing : SM V Tally).run.Only
      (Fires id b) := by
  refine Only.tryBind (perform_only ⟨rfl, rfl, hb, ha⟩) fun r => ?_
  cases r
  · trivial
  · exact hrest

theorem budgetSkip_only (hb : b.status = .pending) (e : SchedError) :
    (call.budgetSkip id b e : SM V Tally).run.Only (Fires id b) := by
  refine commit_only hb (Nat.le_refl _) (Only.tryBind (told_only e) fun e => ?_)
  exact Only.tryBind (perform_only trivial) fun _ => trivial

theorem busySkip_only (hb : b.status = .pending) (e : SchedError) :
    (call.busySkip id b e : SM V Tally).run.Only (Fires id b) := by
  refine commit_only hb (Nat.le_refl _) (Only.tryBind (perform_only trivial) fun prev => ?_)
  refine Only.tryBind (told_only e) fun e => ?_
  exact Only.tryBind (perform_only trivial) fun _ => trivial

theorem failure_only (hb : b.status = .pending) (e : SchedError) :
    (call.failure id d b e).run.Only (Fires id b) := by
  rw [PollCall.failure]
  split
  · refine commit_only hb (Nat.le_refl _) (Only.tryBind (told_only e) fun e => ?_)
    exact Only.tryBind (perform_only trivial) fun _ => trivial
  · exact commit_only hb (Nat.le_refl _) trivial

theorem success_only (hb : b.status = .pending) (suspended : Bool) :
    (call.success id d b suspended).run.Only (Fires id b) := by
  rw [PollCall.success]
  split
  · exact commit_only hb (Nat.le_refl _) trivial
  · split
    · exact commit_only hb (Nat.le_refl _) trivial
    · split
      · trivial
      · exact commit_only hb (Nat.le_succ _) trivial

theorem fire_only (hb : b.status = .pending) : (call.fire id d b).run.Only (Fires id b) := by
  refine Only.tryBind (attempt_only ?_) fun r => ?_
  · split
    · exact perform_only trivial
    · trivial
  · rcases r with e | _
    · exact budgetSkip_only hb e
    · refine Only.tryBind (attempt_only ?_) fun r => ?_
      · rw [PollCall.runTrigger]
        split
        · trivial
        · exact perform_only ⟨rfl, hb⟩
      · rcases r with e | suspended
        · dsimp only
          split
          · exact busySkip_only hb e
          · exact failure_only hb e
        · exact success_only hb suspended

/-- What is done with the state that was read leaves it. -/
theorem follows_of_fires {α : Type} {p : Prog (SchedOp V) SchedOp.Res α} (h : p.Only (Fires id b)) :
    p.Follows ReadStep (some (id, b)) fun _ _ => True := by
  induction p with
  | pure a => trivial
  | op o k ih =>
    intro r
    refine ⟨some (id, b), ?_, ih r (h.2 r)⟩
    have ho := h.1
    cases o with
    | getState _ => exact ho.elim
    | runWorkflow _ _ runId _ => exact ⟨⟨id, b, rfl, ho⟩, rfl⟩
    | putIfMatch id' b' a =>
      obtain ⟨rfl, rfl, hb, ha⟩ := ho
      exact ⟨⟨rfl, hb, ha⟩, rfl⟩
    | _ => exact ⟨trivial, rfl⟩

theorem due_only (call : PollCall) (id : JsString) (d : TriggerDef V) (b : TriggerState) :
    (if b.status ≠ .pending ∨ call.now < b.nextRunAt then return .nothing
      else do
        if ← perform (.acquireLock (runIdOf id b)) then
          let result ← attempt (call.fire id d b)
          perform (.release (runIdOf id b))
          match result with
          | .ok tally => return tally
          | .error e => throw e
        else return .skipped : SM V Tally).run.Only (Fires id b) := by
  split
  · trivial
  · next hdue =>
    rw [not_or, not_not] at hdue
    refine Only.tryBind (perform_only (o := .acquireLock _) trivial) fun locked => ?_
    split
    · refine Only.tryBind (attempt_only (fire_only hdue.1)) fun result => ?_
      refine Only.tryBind (perform_only trivial) fun _ => ?_
      rcases result with e | tally <;> trivial
    · trivial

theorem pollTrigger_reads (call : PollCall) (id : JsString) (s : Option (JsString × TriggerState)) :
    (call.pollTrigger id : SM V Tally).run.Follows ReadStep s fun _ _ => True := by
  rintro (e | d?)
  · exact ⟨s, ⟨trivial, rfl⟩, trivial⟩
  refine ⟨s, ⟨trivial, rfl⟩, ?_⟩
  rintro (e | _ | b)
  · exact ⟨s, ⟨trivial, rfl⟩, trivial⟩
  · refine ⟨s, ⟨trivial, rfl⟩, ?_⟩
    cases d? <;> trivial
  · refine ⟨some (id, b), ⟨trivial, rfl⟩, ?_⟩
    rcases d? with _ | d
    · trivial
    · exact follows_of_fires (due_only call id d b)

theorem pollScheduler_reads (call : PollCall) :
    (call.pollScheduler (V := V)).run.Follows ReadStep none fun _ _ => True := by
  have hall (ids : List JsString) (out : PollResult) (s : Option (JsString × TriggerState)) :
      (call.pollAll ids out : SM V PollResult).run.Follows ReadStep s fun _ _ => True := by
    induction ids generalizing out s with
    | nil => trivial
    | cons id ids ih =>
      refine Follows.bind (pollTrigger_reads call id s) fun s' r _ => ?_
      rcases r with e | tally
      · trivial
      · exact ih (out.add tally) s'
  rintro (e | ids)
  · exact ⟨none, ⟨trivial, rfl⟩, trivial⟩
  · exact ⟨none, ⟨trivial, rfl⟩, hall ids _ none⟩

end Polls

/-! ## The text of a move -/

/-- How far a job is. -/
inductive JobPhase where
  | poll (read : Option (JsString × TriggerState))
  | start
  /-- The old state is read. -/
  | read (state : TriggerState)
  /-- The owned definition is written, the owned state is not. -/
  | half (state : TriggerState)
  /-- The owned trigger is there. -/
  | placed (state : TriggerState)
  | moved
  | over

/-- The protocol of a job. -/
inductive JobStep (fromId toId : JsString) : JobPhase → (o : MoveOp V) → o.Res → JobPhase → Prop
  | poll {s s'} {o : SchedOp V} {r : o.Res} : ReadStep s o r s' →
      JobStep fromId toId (.poll s) (.poll o) r (.poll s')
  | getDef {r} : JobStep fromId toId .start (.getDef fromId) r .start
  | read {state} : JobStep fromId toId .start (.getState fromId) (.ok (some state)) (.read state)
  | unread {r} : JobStep fromId toId .start (.getState fromId) r .over
  | missing {state} : JobStep fromId toId (.read state) (.getDef toId) (.ok none) (.read state)
  | found {state d} :
      JobStep fromId toId (.read state) (.getDef toId) (.ok (some d)) (.placed state)
  | unfound {state e} : JobStep fromId toId (.read state) (.getDef toId) (.error e) .over
  | putDef {state d} : JobStep fromId toId (.read state) (.putDef toId d) (.ok ()) (.half state)
  | unputDef {state d e} : JobStep fromId toId (.read state) (.putDef toId d) (.error e) .over
  | putState {state carried} : carried = { state with movedTo := none } →
      JobStep fromId toId (.half state) (.putState toId carried) (.ok ()) (.placed state)
  | unputState {state carried e} : carried = { state with movedTo := none } →
      JobStep fromId toId (.half state) (.putState toId carried) (.error e) .over
  | retire {state retired} : state.status = .pending → retired.status ≠ .pending →
      JobStep fromId toId (.placed state) (.putIfMatch fromId state retired) (.ok true) .moved
  | unretire {state retired r} : state.status = .pending → retired.status ≠ .pending →
      JobStep fromId toId (.placed state) (.putIfMatch fromId state retired) r .over

/-- Where a call that returns an id has got. -/
def JobEnds (toId : JsString) (s : JobPhase) : Except MoveError (Option JsString) → Prop
  | .ok (some id) => id = toId ∧
      (s = .moved ∨ ∃ state, s = .placed state ∧ state.status ≠ .pending)
  | _ => True

/-- The owned id. -/
def moveTarget (fromId : JsString) (spec : ScheduleSpec V) : Except MoveError JsString := do
  let (owner, _) ← moveOwner fromId spec
  (ownedName fromId owner).mapError (.schedule ∘ .name)

section Moves

variable {fromId toId : JsString} {spec : ScheduleSpec V}

theorem copyTrigger_runs (owner : Owner) (staff : Bool) (d : TriggerDef V) (state : TriggerState) :
    Runs (JobStep fromId toId) (· = .read state) (copyTrigger toId owner staff d state)
      (fun s _ => s = .placed state) fun _ _ => True := by
  rintro _ rfl (e | _ | found)
  · exact ⟨.over, .unfound, trivial⟩
  · refine ⟨.read state, .missing, ?_⟩
    rintro (e | _)
    · exact ⟨.over, .unputDef, trivial⟩
    · refine ⟨.half state, .putDef, ?_⟩
      rintro (e | _)
      · exact ⟨.over, .unputState rfl, trivial⟩
      · exact ⟨.placed state, .putState rfl, rfl⟩
  · exact ⟨.placed state, .found, rfl⟩

theorem retireTrigger_runs (state : TriggerState) :
    Runs (JobStep (V := V) fromId toId) (· = .placed state) (retireTrigger fromId toId state)
      (fun s _ => s = .moved ∨ ∃ state, s = .placed state ∧ state.status ≠ .pending)
      fun _ _ => True := by
  rintro _ rfl
  rw [retireTrigger]
  split
  · next h =>
    rintro (e | _ | _)
    · exact ⟨.over, .unretire h nofun, trivial⟩
    · exact ⟨.over, .unretire h nofun, trivial⟩
    · exact ⟨.moved, .retire h nofun, .inl rfl⟩
  · next h => exact .inr ⟨state, rfl, h⟩

theorem moveTrigger_follows (hto : moveTarget fromId spec = .ok toId) :
    (moveTrigger fromId spec).run.Follows (JobStep fromId toId) .start (JobEnds toId) := by
  rw [moveTarget] at hto
  rw [moveTrigger]
  rcases howner : moveOwner fromId spec with e | ⟨owner, staff⟩
  · trivial
  rw [howner] at hto
  replace hto : (ownedName fromId owner).mapError (MoveError.schedule ∘ .name) = .ok toId := hto
  rintro (e | d?)
  · exact ⟨.start, .getDef, trivial⟩
  refine ⟨.start, .getDef, ?_⟩
  rintro (e | _ | state)
  · exact ⟨.over, .unread, trivial⟩
  · refine ⟨.over, .unread, ?_⟩
    cases d? <;> trivial
  · rcases d? with _ | d
    · exact ⟨.over, .unread, trivial⟩
    · refine ⟨.read state, .read, ?_⟩
      have hrest : Runs (JobStep fromId toId) (· = .read state)
          (do
            copyTrigger toId owner staff d state
            retireTrigger fromId toId state
            return some toId)
          (fun s r => JobEnds toId s (.ok r)) fun _ _ => True := by
        refine Runs.bind (copyTrigger_runs owner staff d state) fun _ => ?_
        exact Runs.bind (retireTrigger_runs state) fun _ => runs_pure fun _ hs => ⟨rfl, hs⟩
      rcases hname : ownedName fromId owner with e | id
      · rw [hname] at hto
        contradiction
      · obtain rfl : id = toId := by
          rw [hname] at hto
          exact Except.ok.inj hto
        refine Follows.mono (Q := Ends (fun s r => JobEnds id s (.ok r)) fun _ _ => True) ?_ ?_
        · exact hrest _ rfl
        · rintro s (e | r) hs
          · trivial
          · exact hs

end Moves

/-! ## Together, undisturbed -/

/-- The owned trigger is there. -/
def Placed (toId : JsString) (w : MoveWorld V) : Prop :=
  (w.sched.defs.lookup toId).isSome ∧ (w.sched.states toId).isSome

/-- The old trigger is not pending. -/
def Retired (fromId : JsString) (w : MoveWorld V) : Prop :=
  ∀ state ∈ w.sched.states fromId, state.status ≠ .pending

/-- A call that finds the owned definition finds the owned state, and the old trigger never fires an
    occurrence that is not before those that were copied. -/
def Undisturbed (fromId toId : JsString) (w : MoveWorld V) (_ : ℕ) : (o : MoveOp V) → o.Res → Prop
  | .getDef id, .ok (some _) => id = toId → (w.sched.states toId).isSome
  | .putState _ state, _ => ∀ m ∈ w.firedUnder fromId, m < state.fireCount
  | .poll (.runWorkflow _ _ runId _), _ => ∀ m ∈ occurrenceOf fromId runId, ∀ c ∈ w.copied, m < c
  | _, _ => True

/-- The occurrence is not before all that were copied. -/
def Reaches (w : MoveWorld V) (n : ℕ) : Prop := ∃ c ∈ w.copied, c ≤ n

/-- What a job knows of the world. -/
def JobKnows (fromId toId : JsString) (w : MoveWorld V) : JobPhase → Prop
  | .poll s => ∀ b, s = some (toId, b) → Reaches w b.fireCount
  | .start | .over => True
  | .read state => state.status ≠ .pending → Retired fromId w
  | .half state => (state.status ≠ .pending → Retired fromId w) ∧ (w.sched.defs.lookup toId).isSome
  | .placed state => (state.status ≠ .pending → Retired fromId w) ∧ Placed toId w
  | .moved => Retired fromId w ∧ Placed toId w

structure MoveInv (fromId toId : JsString) (w : MoveWorld V) (ph : ℕ → JobPhase) : Prop where
  /-- The old trigger has fired only what is before all that were copied, -/
  before : ∀ m ∈ w.firedUnder fromId, ∀ c ∈ w.copied, m < c
  /-- the owned one fires, and has fired, what is not. -/
  state : ∀ b ∈ w.sched.states toId, Reaches w b.fireCount
  fired : ∀ n ∈ w.firedUnder toId, Reaches w n
  knows : ∀ i, JobKnows fromId toId w (ph i)

section Invariant

variable {fromId toId : JsString} {w w' : MoveWorld V} {ph : ℕ → JobPhase} {i : ℕ}

/-- What no operation takes back. -/
structure Onward (fromId toId : JsString) (w w' : MoveWorld V) : Prop where
  copied : w.copied ⊆ w'.copied
  defs : (w.sched.defs.lookup toId).isSome → (w'.sched.defs.lookup toId).isSome
  states : (w.sched.states toId).isSome → (w'.sched.states toId).isSome
  retired : Retired fromId w → Retired fromId w'

theorem Onward.rfl : Onward fromId toId w w := ⟨List.Subset.refl _, id, id, id⟩

theorem Onward.reaches (h : Onward fromId toId w w') {n : ℕ} (hn : Reaches w n) : Reaches w' n := by
  obtain ⟨c, hc, hle⟩ := hn
  exact ⟨c, h.copied hc, hle⟩

theorem Onward.placed (h : Onward fromId toId w w') (hw : Placed toId w) : Placed toId w' :=
  ⟨h.defs hw.1, h.states hw.2⟩

variable {s : JobPhase}

theorem Onward.knows (h : Onward fromId toId w w') (hs : JobKnows fromId toId w s) :
    JobKnows fromId toId w' s := by
  cases s with
  | poll s => exact fun b hb => h.reaches (hs b hb)
  | start => trivial
  | «over» => trivial
  | read state => exact fun hb => h.retired (hs hb)
  | half state => exact ⟨fun hb => h.retired (hs.1 hb), h.defs hs.2⟩
  | placed state => exact ⟨fun hb => h.retired (hs.1 hb), h.placed hs.2⟩
  | moved => exact ⟨h.retired hs.1, h.placed hs.2⟩

/-- One job goes on, and the others know what they knew. -/
theorem MoveInv.next (h : MoveInv fromId toId w ph) (honward : Onward fromId toId w w')
    (hbefore : ∀ m ∈ w'.firedUnder fromId, ∀ c ∈ w'.copied, m < c)
    (hstate : ∀ b ∈ w'.sched.states toId, Reaches w' b.fireCount)
    (hfired : ∀ n ∈ w'.firedUnder toId, Reaches w' n) (hs : JobKnows fromId toId w' s) : MoveInv fromId toId w' (update ph i s) where
  before := hbefore
  state := hstate
  fired := hfired
  knows := (forall_update_iff ph fun _ s => JobKnows fromId toId w' s).2
    ⟨hs, fun j _ => honward.knows (h.knows j)⟩

/-- Only what the jobs know has changed. -/
theorem MoveInv.stay (h : MoveInv fromId toId w ph) (hs : JobKnows fromId toId w s) :
    MoveInv fromId toId w (update ph i s) :=
  h.next .rfl h.before h.state h.fired hs

/-- A state is written. That of the old trigger is not made pending again. -/
theorem onward_write (id : JsString) (next : TriggerState) (hcopied : w.copied ⊆ w'.copied)
    (hdefs : w'.sched.defs = w.sched.defs)
    (hstates : w'.sched.states = update w.sched.states id (some next))
    (hretired : Retired fromId w → id = fromId → next.status ≠ .pending) :
    Onward fromId toId w w' where
  copied := hcopied
  defs h := by rwa [hdefs]
  states h := by
    rw [hstates, update_apply]
    split
    · rfl
    · exact h
  retired h := by
    intro state hstate
    rw [hstates, update_apply] at hstate
    split at hstate
    · next heq =>
      obtain rfl := Option.some.inj hstate
      exact hretired h heq.symm
    · exact h state hstate

variable {id : JsString}

theorem isSome_lookup_putDef {sched : SchedWorld V} (d : TriggerDef V)
    (h : id = toId ∨ (sched.defs.lookup toId).isSome) :
    ((sched.putDef id d).defs.lookup toId).isSome := by
  rw [SchedWorld.putDef]
  dsimp only
  generalize sched.defs = defs at h
  induction defs with
  | nil =>
    rcases h with rfl | h
    · rw [OrderedMap.putEntry, List.lookup_cons_self]
      rfl
    · contradiction
  | cons e defs ih =>
    obtain ⟨id', d'⟩ := e
    rw [OrderedMap.putEntry]
    by_cases hid : id' = id
    · subst hid
      rw [if_pos rfl]
      by_cases hto : toId = id'
      · rw [hto, List.lookup_cons_self]
        rfl
      · rw [lookup_cons, beq_false_of_ne hto] at h ⊢
        exact h.resolve_left (Ne.symm hto)
    · rw [if_neg hid]
      by_cases hto : toId = id'
      · rw [hto, List.lookup_cons_self]
        rfl
      · rw [lookup_cons, beq_false_of_ne hto] at h ⊢
        exact ih h

theorem onward_putDef (d : TriggerDef V) :
    Onward fromId toId w { w with sched := w.sched.putDef id d } :=
  ⟨List.Subset.refl _, fun hdef => isSome_lookup_putDef d (.inr hdef), fun h => h, fun h => h⟩

/-- The state is copied. -/
theorem onward_copy (hne : toId ≠ fromId) (state : TriggerState) :
    Onward fromId toId w
      { w with sched := w.sched.putState toId state, copied := state.fireCount :: w.copied } := by
  refine onward_write toId state (subset_cons_self _ _) ?_ ?_ fun _ hid => absurd hid hne
  · exact rfl
  · exact rfl

theorem onward_retire {next : TriggerState} (hnext : next.status ≠ .pending) :
    Onward fromId toId w { w with sched := w.sched.putState id next } := by
  refine onward_write id next (List.Subset.refl w.copied) ?_ ?_ fun _ _ => hnext
  · exact rfl
  · exact rfl

theorem onward_commit {b next : TriggerState} (hb : b.status = .pending)
    (hcur : w.sched.states id = some b) :
    Onward fromId toId w { w with sched := w.sched.commit ⟨i, id, b, next⟩ } := by
  refine onward_write id next (List.Subset.refl w.copied) ?_ ?_ fun hretired hid => ?_
  · exact rfl
  · exact rfl
  · -- The old trigger is not pending, so that nothing is committed to it.
    subst hid
    exact absurd hb (hretired b hcur)

theorem mem_firedUnder_append {runs : List JsString} {n : ℕ} :
    n ∈ (runs ++ w.fired).filterMap (occurrenceOf id) ↔
      (∃ runId ∈ runs, occurrenceOf id runId = some n) ∨ n ∈ w.firedUnder id := by
  rw [filterMap_append, mem_append, mem_filterMap]
  rfl

variable {a : SchedAnswer V}

theorem exec_getState {b : TriggerState}
    (h : (schedMachine.exec i a (.getState id) w.sched).1 = .ok (some b)) :
    w.sched.states id = some b := by
  rcases hfault : a.fault with _ | e
  all_goals simp only [schedMachine, hfault] at h
  · exact Except.ok.inj h
  · cases h

/-- A poll does something with the journal that is no commit. -/
theorem MoveInv.poll_quiet (h : MoveInv fromId toId w ph) {o : SchedOp V}
    {s s' : Option (JsString × TriggerState)} (hphase : ph i = .poll s)
    (ho : ∀ id b next, o ≠ .putIfMatch id b next)
    (hs : ReadStep s o (schedMachine.exec i a o w.sched).1 s')
    (hok : Undisturbed fromId toId w i (.poll o) (schedMachine.exec i a o w.sched).1) :
    MoveInv fromId toId (moveMachine.exec i a (.poll o) w).2 (update ph i (.poll s')) := by
  obtain ⟨deferrals, hw⟩ := exec_quiet (w := w.sched) i a ho
  have hknows := h.knows i
  rw [hphase] at hknows
  have hexec : (moveMachine.exec i a (.poll o) w).2 =
      { w with sched := { w.sched with deferrals }, fired := o.firedRun.toList ++ w.fired } := by
    simp only [moveMachine, hw]
  rw [hexec]
  obtain ⟨hmay, rfl⟩ := hs
  have honward : Onward fromId toId w
      { w with sched := { w.sched with deferrals }, fired := o.firedRun.toList ++ w.fired } :=
    ⟨List.Subset.refl _, fun h => h, fun h => h, fun h => h⟩
  refine h.next honward ?_ h.state ?_ ?_
  · intro m hm c hc
    rcases mem_firedUnder_append.1 hm with ⟨runId, hrun, hoccurrence⟩ | hm
    · cases o with
      | runWorkflow name input runId' caller =>
        obtain rfl : runId = runId' := by simpa [SchedOp.firedRun] using hrun
        exact hok m hoccurrence c hc
      | _ => simp [SchedOp.firedRun] at hrun
    · exact h.before m hm c hc
  · intro n hn
    rcases mem_firedUnder_append.1 hn with ⟨runId, hrun, hoccurrence⟩ | hn
    · cases o with
      | runWorkflow name input runId' caller =>
        obtain rfl : runId = runId' := by simpa [SchedOp.firedRun] using hrun
        obtain ⟨id, b, rfl, rfl, -⟩ := hmay
        rw [occurrenceOf_eq_some_iff] at hoccurrence
        obtain rfl := runPrefix_inj hoccurrence
        rw [← decimal_inj (append_cancel_left hoccurrence)]
        exact hknows b rfl
      | _ => simp [SchedOp.firedRun] at hrun
    · exact h.fired n hn
  · intro b hb
    cases o with
    | getState id =>
      rcases hr : (schedMachine.exec i a (.getState id) w.sched).1 with e | _ | b'
      · rw [hr] at hb
        exact hknows b hb
      · rw [hr] at hb
        exact hknows b hb
      · rw [hr] at hb
        obtain ⟨rfl, rfl⟩ := Prod.mk.inj (Option.some.inj hb)
        exact h.state _ (exec_getState hr)
    | _ => exact hknows b hb

/-- A poll commits. -/
theorem MoveInv.poll_commit (h : MoveInv fromId toId w ph) {b next : TriggerState}
    {s' : Option (JsString × TriggerState)} (hphase : ph i = .poll (some (id, b)))
    (hb : b.status = .pending) (hcount : b.fireCount ≤ next.fireCount) (hs : s' = some (id, b)) :
    MoveInv fromId toId (moveMachine.exec i a (.poll (.putIfMatch id b next)) w).2
      (update ph i (.poll s')) := by
  subst hs
  have hknows := h.knows i
  rw [hphase] at hknows
  rcases exec_putIfMatch (w := w.sched) i a id b next with ⟨hcur, hw, -⟩ | ⟨hw, -⟩
  · have hexec : (moveMachine.exec i a (.poll (.putIfMatch id b next)) w).2 =
        { w with sched := w.sched.commit ⟨i, id, b, next⟩ } := by
      simp only [moveMachine, hw, SchedOp.firedRun]
      rfl
    rw [hexec]
    refine h.next (onward_commit hb hcur) h.before ?_ h.fired hknows
    · intro st hst
      simp only [SchedWorld.commit, update_apply] at hst
      split at hst
      · next hid =>
        subst hid
        obtain rfl := Option.some.inj hst
        obtain ⟨c, hc, hle⟩ := hknows b rfl
        exact ⟨c, hc, hle.trans hcount⟩
      · exact h.state st hst
  · have hexec : (moveMachine.exec i a (.poll (.putIfMatch id b next)) w).2 = w := by
      simp only [moveMachine, hw, SchedOp.firedRun]
      rfl
    rw [hexec]
    exact h.stay hknows

theorem takes_of_ok {α : Type} {r r' : α} (h : a.orThrows r = .ok r') :
    a.takes ∧ r' = r := by
  rw [SchedAnswer.orThrows] at h
  rw [SchedAnswer.takes]
  split at h
  · contradiction
  · next hfault =>
    rw [hfault]
    exact ⟨rfl, (Except.ok.inj h).symm⟩

/-- What is swapped in is not pending. -/
theorem retires_of_step {p : JobPhase} {expected next : TriggerState} {r : Except SchedError Bool}
    (h : JobStep fromId toId p (.putIfMatch (V := V) id expected next) r s) :
    id = fromId ∧ next.status ≠ .pending := by
  cases h with
  | retire _ hnext => exact ⟨rfl, hnext⟩
  | unretire _ hnext => exact ⟨rfl, hnext⟩

/-- The conditional write takes place or not, and does if it says so. -/
theorem exec_retire (id : JsString) (expected next : TriggerState) :
    let x := moveMachine.exec i a (.putIfMatch id expected next) w
    (x.2 = w ∨ x.2 = { w with sched := w.sched.putState id next }) ∧
      (x.1 = .ok true → x.2 = { w with sched := w.sched.putState id next }) := by
  simp only [moveMachine]
  split
  · split
    · exact ⟨.inr rfl, fun _ => rfl⟩
    · next htakes => exact ⟨.inl rfl, fun hx => absurd (takes_of_ok hx).1 htakes⟩
  · exact ⟨.inl rfl, fun hx => absurd (takes_of_ok hx).2 nofun⟩

/-- An operation of a job. -/
theorem MoveInv.exec (h : MoveInv fromId toId w ph) (hne : toId ≠ fromId) {o : MoveOp V}
    (hs : JobStep fromId toId (ph i) o (moveMachine.exec i a o w).1 s)
    (hok : Undisturbed fromId toId w i o (moveMachine.exec i a o w).1) :
    MoveInv fromId toId (moveMachine.exec i a o w).2 (update ph i s) := by
  have hknows := h.knows i
  cases o with
  | poll o =>
    generalize hphase : ph i = p at hs
    generalize hr : (moveMachine.exec i a (.poll o) w).1 = r at hs hok
    cases hs with
    | poll hread =>
      subst hr
      by_cases ho : ∀ id b next, o ≠ .putIfMatch id b next
      · exact h.poll_quiet hphase ho hread hok
      · push Not at ho
        obtain ⟨id, b, next, rfl⟩ := ho
        obtain ⟨⟨rfl, hb, hcount⟩, hafter⟩ := hread
        exact h.poll_commit hphase hb hcount hafter
  | getDef id =>
    generalize hphase : ph i = p at hs hknows
    generalize hr : (moveMachine.exec i a (.getDef id) w).1 = r at hs hok
    cases hs with
    | getDef => exact h.stay trivial
    | missing => exact h.stay hknows
    | unfound => exact h.stay trivial
    | found =>
      obtain ⟨-, hdef⟩ := takes_of_ok hr
      have hthere : (w.sched.defs.lookup toId).isSome := by
        rw [← hdef]
        rfl
      exact h.stay ⟨hknows, hthere, hok rfl⟩
  | getState id =>
    generalize hphase : ph i = p at hs hknows
    generalize hr : (moveMachine.exec i a (.getState id) w).1 = r at hs
    cases hs with
    | unread => exact h.stay trivial
    | read =>
      obtain ⟨-, hstate⟩ := takes_of_ok hr
      refine h.stay fun hpending state hcur => ?_
      rw [← hstate] at hcur
      obtain rfl := Option.some.inj hcur
      exact hpending
  | putDef id d =>
    have hexec : (moveMachine.exec i a (.putDef id d) w).2 =
        if a.takes then { w with sched := w.sched.putDef id d } else w := rfl
    generalize hphase : ph i = p at hs hknows
    generalize hr : (moveMachine.exec i a (.putDef id d) w).1 = r at hs
    rw [hexec]
    split
    · refine h.next (onward_putDef d) h.before h.state h.fired ?_
      cases hs with
      | putDef => exact ⟨hknows, isSome_lookup_putDef d (.inl rfl)⟩
      | unputDef => trivial
    · next htakes =>
      cases hs with
      | putDef => exact absurd (takes_of_ok hr).1 htakes
      | unputDef => exact h.stay trivial
  | putState id state =>
    have hexec : (moveMachine.exec i a (.putState id state) w).2 =
        if a.takes then
          { w with sched := w.sched.putState id state, copied := state.fireCount :: w.copied }
        else w := rfl
    generalize hphase : ph i = p at hs hknows
    generalize hr : (moveMachine.exec i a (.putState id state) w).1 = r at hs hok
    obtain rfl : id = toId := by cases hs <;> rfl
    rw [hexec]
    split
    · have honward := onward_copy (w := w) hne state
      refine h.next honward ?_ ?_ (fun n hn => honward.reaches (h.fired n hn)) ?_
      · intro m hm c hc
        rcases mem_cons.1 hc with rfl | hc
        · exact hok m hm
        · exact h.before m hm c hc
      · intro b hb
        simp only [SchedWorld.putState, update_self] at hb
        obtain rfl := Option.some.inj hb
        exact ⟨_, mem_cons_self, Nat.le_refl _⟩
      · cases hs with
        | putState =>
          refine ⟨fun hpending => honward.retired (hknows.1 hpending), honward.defs hknows.2, ?_⟩
          simp [SchedWorld.putState]
        | unputState => trivial
    · next htakes =>
      cases hs with
      | putState => exact absurd (takes_of_ok hr).1 htakes
      | unputState => exact h.stay trivial
  | putIfMatch id expected next =>
    generalize hphase : ph i = p at hs hknows
    generalize hr : moveMachine.exec i a (.putIfMatch id expected next) w = x at hs
    obtain ⟨rfl, hnext⟩ := retires_of_step hs
    have honward : Onward id toId w { w with sched := w.sched.putState id next } := onward_retire hnext
    have hstate : ∀ b ∈ (w.sched.putState id next).states toId, Reaches w b.fireCount := by
      intro b hb
      simp only [SchedWorld.putState, update_of_ne hne] at hb
      exact h.state b hb
    obtain ⟨hworld, hdone⟩ := exec_retire (w := w) (i := i) (a := a) id expected next
    rw [hr] at hworld hdone
    obtain ⟨r, w'⟩ := x
    cases hs with
    | retire =>
      obtain rfl := hdone rfl
      refine h.next honward h.before hstate h.fired ⟨fun state hcur => ?_, honward.placed hknows.2⟩
      simp only [SchedWorld.putState, update_self] at hcur
      obtain rfl := Option.some.inj hcur
      exact hnext
    | unretire =>
      rcases hworld with rfl | rfl
      · exact h.stay trivial
      · exact h.next honward h.before hstate h.fired trivial

/-- Whatever the job does, in any world. -/
theorem onward_exec (hne : toId ≠ fromId) {o : MoveOp V} {p : JobPhase}
    (hs : JobStep fromId toId p o (moveMachine.exec i a o w).1 s) :
    Onward fromId toId w (moveMachine.exec i a o w).2 := by
  generalize (moveMachine.exec i a o w).1 = r at hs
  cases o with
  | poll o =>
    simp only [moveMachine]
    by_cases ho : ∀ id b next, o ≠ .putIfMatch id b next
    · obtain ⟨deferrals, hw⟩ := exec_quiet (w := w.sched) i a ho
      rw [hw]
      exact ⟨List.Subset.refl _, fun h => h, fun h => h, fun h => h⟩
    · push Not at ho
      obtain ⟨id, b, next, rfl⟩ := ho
      have hb : b.status = .pending := by
        cases hs with
        | poll hread => exact hread.1.2.1
      rcases exec_putIfMatch (w := w.sched) i a id b next with ⟨hcur, hw, -⟩ | ⟨hw, -⟩
      all_goals rw [hw]
      · exact onward_commit hb hcur
      · exact .rfl
  | getDef id => exact .rfl
  | getState id => exact .rfl
  | putDef id d =>
    simp only [moveMachine]
    split
    · exact onward_putDef d
    · exact .rfl
  | putState id state =>
    obtain rfl : id = toId := by cases hs <;> rfl
    simp only [moveMachine]
    split
    · exact onward_copy hne state
    · exact .rfl
  | putIfMatch id expected next =>
    obtain ⟨rfl, hnext⟩ := retires_of_step hs
    rcases (exec_retire (w := w) (i := i) (a := a) id expected next).1 with hw | hw
    all_goals rw [hw]
    · exact .rfl
    · exact onward_retire hnext

/-- No poll that has read the old trigger has found it pending. -/
def Aware (fromId : JsString) (p : JobPhase) : Prop :=
  ∀ b, p = .poll (some (fromId, b)) → b.status ≠ .pending

/-- What is retired is read so. -/
theorem aware_exec (hretired : Retired fromId w) {o : MoveOp V} {p : JobPhase}
    (hp : Aware fromId p) (hs : JobStep fromId toId p o (moveMachine.exec i a o w).1 s) :
    Aware fromId s := by
  generalize hr : (moveMachine.exec i a o w).1 = r at hs
  cases hs with
  | @poll s _ o r hread =>
    obtain ⟨-, rfl⟩ := hread
    cases o with
    | getState id =>
      rcases r with e | _ | b
      · exact hp
      · exact hp
      · rintro b hb
        obtain ⟨rfl, rfl⟩ := Prod.mk.inj (Option.some.inj (JobPhase.poll.inj hb))
        exact hretired _ (exec_getState hr)
    | _ => exact hp
  | _ => exact nofun

end Invariant

section Runs

variable {fromId toId : JsString} {spec : ScheduleSpec V}

theorem moveOwner_ok {owner : Owner} {staff : Bool} (h : moveOwner fromId spec = .ok (owner, staff)) :
    ¬(owner.resourceId = none ∧ owner.orgId = none) := by
  rw [moveOwner] at h
  dsimp only at h
  split at h
  · contradiction
  · rcases howner : triggerOwnerOf spec with e | ⟨owner', staff'⟩
    · rw [howner] at h
      contradiction
    · rw [howner] at h
      change (if owner'.resourceId = none ∧ owner'.orgId = none then _ else _) = _ at h
      split at h
      · contradiction
      · next hsome =>
        have hsame : owner' = owner := by
          split at h
          · split at h
            · contradiction
            · exact (Prod.mk.inj (Except.ok.inj h)).1
          · exact (Prod.mk.inj (Except.ok.inj h)).1
        exact hsame ▸ hsome

/-- An owned id is longer. -/
theorem moveTarget_ne (hto : moveTarget fromId spec = .ok toId) : toId ≠ fromId := by
  rw [moveTarget] at hto
  rcases howner : moveOwner fromId spec with e | ⟨owner, staff⟩
  · rw [howner] at hto
    contradiction
  rw [howner] at hto
  replace hto : (ownedName fromId owner).mapError (MoveError.schedule ∘ .name) = .ok toId := hto
  rcases hname : ownedName fromId owner with e | id
  · rw [hname] at hto
    contradiction
  obtain rfl : id = toId := by
    rw [hname] at hto
    exact Except.ok.inj hto
  rcases ownedName_ok hname with ⟨rfl, -⟩ | ⟨p, hp, rfl⟩
  · -- A call that names no owner is refused.
    exact absurd ⟨rfl, rfl⟩ (moveOwner_ok howner)
  · intro h
    have hlength := congrArg List.length h
    rw [(ownerPart_ok hp).1] at hlength
    simp [OWNED, js, JsString.utf16] at hlength
    omega

theorem poll_follows {α : Type} {p : Prog (SchedOp V) SchedOp.Res α}
    {s : Option (JsString × TriggerState)} (h : p.Follows ReadStep s fun _ _ => True) :
    (p.lift fun o => (Prog.perform (.poll o) : Prog (MoveOp V) MoveOp.Res _)).Follows
      (JobStep fromId toId) (.poll s) fun _ _ => True := by
  induction p generalizing s with
  | pure a => trivial
  | op o k ih =>
    intro r
    obtain ⟨s', hs, hk⟩ := h r
    exact ⟨.poll s', .poll hs, ih r hk⟩

/-- Where a job begins. -/
def TriggerJob.init : TriggerJob → JobPhase
  | poll _ => .poll none
  | move => .start

theorem job_follows (hto : moveTarget fromId spec = .ok toId) (job : TriggerJob) :
    (job.run fromId spec).Follows (JobStep fromId toId) job.init (JobEnds toId) := by
  cases job with
  | poll call => exact (poll_follows (pollScheduler_reads call)).bind fun _ _ _ => trivial
  | move => exact moveTrigger_follows hto

/-- The operation starts no occurrence of the old trigger. -/
def Unstarted (fromId : JsString) (_ : MoveWorld V) (_ : ℕ) : (o : MoveOp V) → o.Res → Prop
  | .poll (.runWorkflow _ _ runId _), _ => occurrenceOf fromId runId = none
  | _, _ => True

/-- Once the old trigger is retired, no poll that reads it from then on starts an occurrence of it:
    only those can that have read it before. -/
theorem meets_unstarted (hto : moveTarget fromId spec = .ok toId)
    {c : Conf (MoveOp V) MoveOp.Res (Except MoveError (Option JsString)) (MoveWorld V)}
    {ph : ℕ → JobPhase} (hretired : Retired fromId c.world) (haware : ∀ i, Aware fromId (ph i))
    (hf : ∀ i, (c.procs i).Follows (JobStep fromId toId) (ph i) fun _ _ => True)
    (ms : List (Move (SchedAnswer V) Empty)) : moveMachine.Meets (Unstarted fromId) c ms := by
  refine Machine.meets_follows (J := fun w ph => Retired fromId w ∧ ∀ i, Aware fromId (ph i)) ?_
    (fun _ _ e _ => e.elim) ?_ ⟨hretired, haware⟩ hf (Machine.meets_true c ms)
  · rintro w ph i a o s' ⟨hretired, haware⟩ hs -
    exact ⟨(onward_exec (moveTarget_ne hto) hs).retired hretired,
      (forall_update_iff ph fun _ => Aware fromId).2
        ⟨aware_exec hretired (haware i) hs, fun j _ => haware j⟩⟩
  · rintro w ph i a o s' ⟨-, haware⟩ hs -
    generalize (moveMachine.exec i a o w).1 = r at hs ⊢
    generalize hp : ph i = p at hs
    cases hs with
    | @poll _ _ o _ hread =>
      cases o with
      | runWorkflow name input runId caller =>
        obtain ⟨⟨id, b, rfl, rfl, hb⟩, -⟩ := hread
        refine Option.eq_none_iff_forall_not_mem.2 fun n hn => ?_
        obtain rfl := runPrefix_inj (occurrenceOf_eq_some_iff.1 hn)
        exact haware i b hp hb
      | _ => trivial
    | _ => trivial

/-- When a call of `moveTrigger` has returned, the owned trigger is there and the old one is not
    pending, and no occurrence is ever fired under both ids: in any run that nothing disturbs. -/
theorem moved_once (hto : moveTarget fromId spec = .ok toId) (w : SchedWorld V)
    (hnew : w.states toId = none) (jobs : ℕ → TriggerJob) (ms : List (Move (SchedAnswer V) Empty))
    (hms : moveMachine.Meets (Undisturbed fromId toId) (moveStart fromId spec w jobs) ms) :
    let c := moveMachine.play (moveStart fromId spec w jobs) ms
    (∀ i id, c.procs i = .pure (.ok (some id)) →
      id = toId ∧ Placed toId c.world ∧ Retired fromId c.world) ∧
      ∀ n, ¬(n ∈ c.world.firedUnder fromId ∧ n ∈ c.world.firedUnder toId) := by
  have hstart : MoveInv fromId toId (moveStart fromId spec w jobs).world
      fun i => (jobs i).init := by
    refine ⟨nofun, ?_, nofun, fun i => ?_⟩
    · intro b hb
      rw [show (moveStart fromId spec w jobs).world.sched.states toId = none from hnew] at hb
      contradiction
    · cases jobs i
      · exact nofun
      · trivial
  obtain ⟨ph, hinv, hf⟩ := Machine.play_follows
    (fun _ _ _ _ _ _ h hs hok => h.exec (moveTarget_ne hto) hs hok) (fun _ _ e _ => e.elim) hstart
    (fun i => job_follows hto (jobs i)) hms
  refine ⟨fun i id hreturned => ?_, fun n hn => ?_⟩
  · have hends := hf i
    rw [hreturned] at hends
    obtain ⟨rfl, hphase⟩ := hends
    have hknows := hinv.knows i
    rcases hphase with hphase | ⟨state, hphase, hpending⟩
    · rw [hphase] at hknows
      exact ⟨rfl, hknows.2, hknows.1⟩
    · rw [hphase] at hknows
      exact ⟨rfl, hknows.2, hknows.1 hpending⟩
  · obtain ⟨c, hc, hle⟩ := hinv.fired n hn.2
    exact absurd (hinv.before n hn.1 c hc) (Nat.not_lt.2 hle)

end Runs

/-! ## Three runs -/

instance (fromId toId : JsString) (w : MoveWorld V) (i : ℕ) (o : MoveOp V) (r : o.Res) :
    Decidable (Undisturbed fromId toId w i o r) := by
  rcases o with o | _ | _ | _ | _ | _
  · cases o <;> dsimp only [Undisturbed] <;> infer_instance
  · rcases r with _ | _ | _ <;> dsimp only [Undisturbed] <;> infer_instance
  all_goals dsimp only [Undisturbed]; infer_instance

/-- To a user. -/
def adaSpec : ScheduleSpec Unit :=
  ⟨none, js "report", (), none, none, none, none, some (js "ada"), none, none, none⟩

/-- Two calls of `moveTrigger`, and polls when the trigger is due. -/
def moveJobs (i : ℕ) : TriggerJob := if i < 2 then .move else .poll ⟨60000, 30000, false, false⟩

/-- After the moves `ms`, with a trigger that fires every minute. -/
def moveAfter (ms : List (Move (SchedAnswer Unit) Empty)) :
    Conf (MoveOp Unit) MoveOp.Res (Except MoveError (Option JsString)) (MoveWorld Unit) :=
  moveMachine.play (moveStart (js "report") adaSpec (minutely .skip) moveJobs) ms

/-- A call that nothing disturbs, and a poll after it, which fires the owned trigger. -/
def movedThenPolled : List (Move (SchedAnswer Unit) Empty) :=
  pollsAs (.ok false) 0 6 ++ pollsAs (.ok false) 2 9

/-- The first call stops between the two writes; the second one finds the definition. -/
def movedInHalf : List (Move (SchedAnswer Unit) Empty) :=
  pollsAs (.ok false) 0 4 ++ pollsAs (.ok false) 1 4

/-- A poll fires both triggers, before the first call would retire the old one. -/
def movedLate : List (Move (SchedAnswer Unit) Empty) :=
  pollsAs (.ok false) 0 5 ++ pollsAs (.ok false) 2 13 ++ pollsAs (.ok false) 0 1 ++
    pollsAs (.ok false) 1 4

theorem moved_once_thenPolled :
    (moveAfter movedThenPolled).procs 0 = .pure (.ok (some (js "~o~:ada:report"))) ∧
      (∀ i id, (moveAfter movedThenPolled).procs i = .pure (.ok (some id)) →
        id = js "~o~:ada:report" ∧ Placed (js "~o~:ada:report") (moveAfter movedThenPolled).world ∧
          Retired (js "report") (moveAfter movedThenPolled).world) ∧
      ∀ n, ¬(n ∈ (moveAfter movedThenPolled).world.firedUnder (js "report") ∧
        n ∈ (moveAfter movedThenPolled).world.firedUnder (js "~o~:ada:report")) :=
  ⟨rfl, moved_once (by rfl) (minutely .skip) rfl moveJobs movedThenPolled (by decide +kernel)⟩

/-- The owned trigger has no state where a call has returned its id, and an occurrence is fired under
    both ids. -/
theorem moved_inHalf_and_twice :
    (moveAfter movedInHalf).procs 1 = .pure (.ok (some (js "~o~:ada:report"))) ∧
      (moveAfter movedInHalf).world.sched.states (js "~o~:ada:report") = none ∧
      (moveAfter movedLate).procs 1 = .pure (.ok (some (js "~o~:ada:report"))) ∧
      0 ∈ (moveAfter movedLate).world.firedUnder (js "report") ∧
      0 ∈ (moveAfter movedLate).world.firedUnder (js "~o~:ada:report") := by
  refine ⟨rfl, rfl, rfl, ?_, ?_⟩ <;> decide +kernel

end Gnldev.Scheduler
