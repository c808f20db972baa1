import Gnldev.Durable.Model.Step
import Mathlib.Data.List.Nodup
import Mathlib.Data.List.Perm.Subperm

/-!
# Exclusive model steps

Any number of attempts at one step, all with `exclusiveStep`, in any interleaving. An attempt calls
the provider when it has won the claim, or has replaced one that it had read and found stale, failed
or left over. So the provider can be called twice (`exclusion_fails`), but not more often than claims
have been replaced, and once (`Licensed.few`). A run has one writer at a time if a claim is replaced by
one of those that have read it, not over a complete record, and those that hold a claim are done before
it is stale (`Orderly`): the invariant `SoleInv` says who holds the claim, and that a reader of a stale
claim is not beside its holder.

* `ModelStep`: the protocol of an attempt;
* `exclusive_steps`: what its claim is worth.
-/

open List

namespace Gnldev.Durable

open Prog Function

variable {R P : Type}

/-! ## The protocol -/

/-- How far an attempt is. -/
inductive ModelPhase (R P : Type) where
  | start
  /-- The step has been read from the journal. -/
  | replaying (record : StepRecord R P)
  /-- There was no record to be read. -/
  | fresh
  | cleared
  | timed (now : Int)
  | lost (now : Int)
  /-- It has read a claim that it may replace. -/
  | looked (now : Int) (existing : Option ModelClaimRecord)
  | licensed
  | called
  | answered (record : StepRecord R P)
  | streaming
  /-- It has written the complete record. -/
  | recorded (record : StepRecord R P)
  | failing
  | done

namespace ModelPhase

/-- What has been done so far can be given up. -/
def Early : ModelPhase R P → Prop
  | start | fresh | cleared | timed _ | lost _ | looked _ _ => True
  | _ => False

/-- The attempt may write the record. -/
def MayWrite : ModelPhase R P → Prop
  | licensed | called | answered _ | streaming => True
  | _ => False

/-- The attempt may call the provider, write the record, or mark its claim as failed. -/
def Engaged : ModelPhase R P → Prop
  | licensed | called | answered _ | streaming | failing => True
  | _ => False

/-- The attempt has lost the claim. -/
def Beaten : ModelPhase R P → Prop
  | lost _ | looked _ _ => True
  | _ => False

/-- The time that an attempt has read for its claim. -/
def time : ModelPhase R P → Option Int
  | timed t | lost t | looked t _ => some t
  | _ => none

theorem MayWrite.engaged {s : ModelPhase R P} (h : s.MayWrite) : s.Engaged := by
  cases s <;> trivial

/-- Where an attempt is after reading the step. -/
def read (miss : ModelPhase R P) : Option (StepRecord R P) → ModelPhase R P
  | none => miss
  | some record => .replaying record

end ModelPhase

/-- The protocol of an attempt. -/
inductive ModelStep (c : ModelCall) (ttlMs : Int) :
    ModelPhase R P → (o : ModelOp R P) → o.Res R P → ModelPhase R P → Prop
  | readRun {r} : ModelStep c ttlMs .start .readRun (.ok r) (.read .start r)
  | get {r} : ModelStep c ttlMs .start .get (.ok r) (.read .fresh r)
  | compare {record r} : ModelStep c ttlMs (.replaying record) .getClaim r (.replaying record)
  | replayLimits {record r} : ModelStep c ttlMs (.replaying record) .limits r (.replaying record)
  | getFlag {seen} : ModelStep c ttlMs .fresh .getFlag (.ok seen) (if seen then .done else .cleared)
  | now {t} : ModelStep c ttlMs .cleared .now (.ok t) (.timed t)
  | claim {t won} : ModelStep c ttlMs (.timed t) (.claim (c.claimRecord .running t)) (.ok won)
      (if won then .licensed else .lost t)
  | look {t existing} : ModelStep c ttlMs (.lost t) .getClaim (.ok existing)
      (if existing.any (·.fresh t ttlMs) then .done else .looked t existing)
  | replace {t existing} : ModelStep c ttlMs (.looked t existing)
      (.putClaim (c.claimRecord .running t)) (.ok ()) .licensed
  | call {r} : ModelStep c ttlMs .licensed .call (.ok r) .called
  | callThrown {e} : ModelStep c ttlMs .licensed .call (.error e) .failing
  | generated {x} : ModelStep c ttlMs .called .generated (.ok x) (.answered (.generated x))
  | generatedThrown {e} : ModelStep c ttlMs .called .generated (.error e) .failing
  | opened {x} : ModelStep c ttlMs .called .opened (.ok x) .streaming
  | openedThrown {e} : ModelStep c ttlMs .called .opened (.error e) .failing
  | put {x} : ModelStep c ttlMs (.answered (.generated x)) (.put (.generated x)) (.ok ())
      (.recorded (.generated x))
  | putThrown {x e} : ModelStep c ttlMs (.answered (.generated x)) (.put (.generated x)) (.error e)
      .failing
  | arrive {r} : ModelStep c ttlMs .streaming .arrive r .streaming
  | ahead {parts rest r} : ModelStep c ttlMs .streaming (.put (.streamed parts rest true)) r .streaming
  | checkpoint {record r} : ModelStep c ttlMs .streaming (.putCheckpoint record) r .streaming
  | flush {parts rest} : ModelStep c ttlMs .streaming (.put (.streamed parts rest false)) (.ok ())
      (.recorded (.streamed parts rest false))
  | flushThrown {parts rest e} : ModelStep c ttlMs .streaming (.put (.streamed parts rest false))
      (.error e) .done
  | date {record r} : ModelStep c ttlMs (.recorded record) .dateNow r (.recorded record)
  | settle {record status t r} : status ≠ .running → ModelStep c ttlMs (.recorded record)
      (.putClaim (c.claimRecord status t)) r (.recorded record)
  | limits {record r} : ModelStep c ttlMs (.recorded record) .limits r (.recorded record)
  | failDate {r} : ModelStep c ttlMs .failing .dateNow r .failing
  | fail {t r} : ModelStep c ttlMs .failing (.putClaim (c.claimRecord .failed t)) r .done
  | thrown {s o r s' e} : s.Early → ModelStep c ttlMs s o (.ok r) s' →
      ModelStep c ttlMs s o (.error e) .done

section Protocol

variable {c : ModelCall} {ttlMs : Int}

theorem performModel_runs {σ : Type} {step : σ → (o : ModelOp R P) → o.Res R P → σ → Prop}
    {o : ModelOp R P} {A : σ → Prop} {Q : σ → o.Ans R P → Prop} {X : σ → ModelError → Prop}
    (hok : ∀ s r, A s → ∃ s', step s o (.ok r) s' ∧ Q s' r)
    (herr : ∀ s e, A s → ∃ s', step s o (.error e) s' ∧ X s' e) :
    Runs step A (performModel o) Q X := runs_perform hok herr

variable {o : ModelOp R P} {s : ModelPhase R P}

/-- An operation and the phases that it leads to. -/
theorem moves_runs {f : o.Ans R P → ModelPhase R P} {t : ModelPhase R P}
    {X : ModelPhase R P → ModelError → Prop} (hok : ∀ r, ModelStep c ttlMs s o (.ok r) (f r))
    (herr : ∀ e, ModelStep c ttlMs s o (.error e) t) (hX : ∀ e, X t e) :
    Runs (ModelStep c ttlMs) (· = s) (performModel o) (fun s' r => s' = f r) X := by
  refine performModel_runs ?_ ?_
  · rintro _ r rfl
    exact ⟨_, hok r, rfl⟩
  · rintro _ e rfl
    exact ⟨_, herr e, hX e⟩

/-- An operation in a phase that it leaves, whatever is answered. -/
theorem stays_runs (h : ∀ r, ModelStep c ttlMs s o r s) :
    Runs (ModelStep c ttlMs) (· = s) (performModel o) (fun s' _ => s' = s) fun s' _ => s' = s :=
  moves_runs (fun r => h (.ok r)) (fun e => h (.error e)) fun _ => rfl

/-- An operation before the provider is called, that ends the attempt when it throws. -/
theorem early_runs (hs : s.Early) (r₀ : o.Ans R P)
    {f : o.Ans R P → ModelPhase R P} (h : ∀ r, ModelStep c ttlMs s o (.ok r) (f r)) :
    Runs (ModelStep c ttlMs) (· = s) (performModel o) (fun s' r => s' = f r) fun _ _ => True :=
  moves_runs h (fun _ => .thrown hs (h r₀)) fun _ => trivial

theorem enforceStepLimits_runs {s : ModelPhase R P} (h : ∀ r, ModelStep c ttlMs s .limits r s) :
    Runs (ModelStep c ttlMs) (· = s) (c.enforceStepLimits : ModelM R P Unit)
      (fun s' _ => s' = s) fun s' _ => s' = s := by
  rw [ModelCall.enforceStepLimits]
  split
  · exact stays_runs h
  · exact runs_pure fun _ h => h

/-- The claim of a step that is recorded. -/
theorem settle_recorded (record : StepRecord R P) (status : ClaimStatus) (h : status ≠ .running) :
    Runs (ModelStep c ttlMs) (· = .recorded record) (c.settle status : ModelM R P Unit)
      (fun s _ => s = .recorded record) fun s _ => s = .recorded record :=
  Runs.bind (stays_runs fun _ => .date) fun _ => stays_runs fun _ => .settle h

/-- A hit is replayed. -/
theorem replay_runs (hit : StepRecord R P) : Runs (ModelStep c ttlMs) (· = .replaying hit)
    (c.replay hit) (fun s a => s = .replaying hit ∧ a = hit.replay) fun _ _ => True := by
  have hlimits := @enforceStepLimits_runs R P c ttlMs (.replaying hit)
    fun r => .replayLimits
  rw [ModelCall.replay]
  split
  · exact runs_throw fun _ _ => trivial
  · exact Runs.when (stays_runs fun r => .compare).drop
      (Runs.bind hlimits.drop fun _ => runs_pure fun _ h => ⟨h, rfl⟩)

/-- The record is in the cache, or is read. -/
theorem modelCtxGet_runs (replayCache : Option (StepRecord R P)) :
    Runs (ModelStep c ttlMs) (· = .read .start replayCache) (ModelCall.ctxGet replayCache)
      (fun s hit => s = .read .fresh hit) fun _ _ => True := by
  rcases replayCache with _ | v
  · exact early_runs (s := .start) trivial none fun _ => .get
  · exact runs_pure fun _ h => h

theorem assertNotCanceled_stays : Runs (ModelStep c ttlMs) (· = .fresh)
    (ModelCall.assertNotCanceled : ModelM R P Unit) (fun s _ => s = .cleared) fun _ _ => True := by
  refine Runs.bind (early_runs (o := .getFlag) (s := .fresh)
    (f := fun seen => if seen then .done else .cleared) trivial false fun _ => .getFlag) fun seen => ?_
  rcases seen with _ | _
  · exact runs_pure fun _ h => h
  · exact runs_throw fun _ _ => trivial

theorem acquireModelClaim_runs (hc : c.exclusive = some ttlMs) : Runs (ModelStep c ttlMs)
    (· = .cleared) (c.acquireModelClaim : ModelM R P Unit) (fun s _ => s = .licensed)
    fun _ _ => True := by
  rw [ModelCall.acquireModelClaim, hc]
  refine Runs.bind (early_runs (o := .now) (s := .cleared) trivial 0 fun t => .now) fun now =>
    Runs.bind (early_runs (o := .claim (c.claimRecord .running now)) (s := .timed now)
      (f := fun won => if won then .licensed else .lost now) trivial true fun _ => .claim)
      fun won => ?_
  rcases won with _ | _
  · refine Runs.bind (early_runs (o := .getClaim) (s := .lost now) (f := fun existing =>
      if existing.any (·.fresh now ttlMs) then .done else .looked now existing) trivial none
      fun _ => .look) fun existing => ?_
    have hreplace (existing : Option ModelClaimRecord) :
        Runs (ModelStep c ttlMs) (· = .looked now existing)
          (performModel (.putClaim (c.claimRecord .running now)) : ModelM R P Unit)
          (fun s _ => s = .licensed) fun _ _ => True :=
      early_runs (s := .looked now existing) (f := fun _ => .licensed) trivial () fun _ => .replace
    rcases existing with _ | existing
    · exact hreplace none
    · dsimp only
      by_cases hfresh : existing.fresh now ttlMs
      · rw [if_pos hfresh]
        exact fun _ _ => trivial
      · rw [if_neg hfresh]
        refine (hreplace (some existing)).pre fun s hs => ?_
        rwa [Option.any_some, if_neg hfresh] at hs
  · exact runs_pure fun _ h => h

/-- The claim is marked, and the error is thrown on. -/
theorem fail_runs (e : ModelError) {α : Type} :
    Runs (ModelStep c ttlMs) (fun s => s = .failing ∨ ∃ record, s = .recorded record)
      (do c.settle .failed; throw e : ModelM R P α) (fun _ _ => False) fun _ _ => True := by
  intro s hs
  obtain rfl | ⟨record, rfl⟩ := hs
  · have hfail : Runs (ModelStep c ttlMs) (· = .failing) (c.settle .failed : ModelM R P Unit)
        (fun _ _ => True) fun _ _ => True :=
      Runs.bind (stays_runs fun r => .failDate).drop fun t =>
        (moves_runs (fun _ => .fail) (fun _ => .fail) fun _ => trivial).post fun _ _ _ => trivial
    exact Runs.bind hfail (fun _ => runs_throw fun _ _ => trivial) _ rfl
  · exact Runs.bind (settle_recorded record .failed nofun).drop (fun _ => runs_throw fun _ _ => trivial) _ rfl

/-- What an attempt returns is what it has read or written. -/
def Returns (s : ModelPhase R P) (x : StepResult R P) : Prop :=
  ∃ record, (s = .replaying record ∨ s = .recorded record) ∧ x = record.replay

theorem calls_runs : Runs (ModelStep c ttlMs) (· = .licensed)
    (performModel .call : ModelM R P Unit) (fun s _ => s = .called)
    fun s _ => s = .failing ∨ ∃ record, s = .recorded record :=
  moves_runs (fun _ => .call) (fun _ => .callThrown) fun _ => .inl rfl

theorem wrapGenerate_runs (hc : c.exclusive = some ttlMs) (replayCache : Option (StepRecord R P)) :
    Runs (ModelStep c ttlMs) (· = .read .start replayCache) (c.wrapGenerate replayCache)
      Returns fun _ _ => True := by
  refine Runs.bind (modelCtxGet_runs replayCache) fun hit => ?_
  rcases hit with _ | hit
  · refine Runs.bind assertNotCanceled_stays fun _ => Runs.bind (acquireModelClaim_runs hc) fun _ =>
      Runs.bind (Q := fun s x => s = .recorded (.generated x)) ?_ fun x => ?_
    · refine Runs.tryCatch (Y := fun s _ => s = .failing ∨ ∃ record, s = .recorded record) ?_
        fun e => (fail_runs e).post fun _ _ h => h.elim
      refine Runs.bind calls_runs fun _ => Runs.bind
        (moves_runs (fun _ => .generated) (fun _ => .generatedThrown) fun _ => .inl rfl) fun x =>
        Runs.bind (moves_runs (fun _ => .put) (fun _ => .putThrown) fun _ => .inl rfl) fun _ =>
        Runs.bind (Q := fun s _ => s = .recorded (.generated x)) ?_ fun _ => runs_pure fun _ h => h
      exact (settle_recorded _ .succeeded nofun).conseq (fun _ h => h) (fun _ _ h => h)
        fun _ _ h => .inr ⟨_, h⟩
    · exact Runs.bind (enforceStepLimits_runs fun r => .limits).drop fun _ => runs_pure fun _ h => ⟨_, .inr h, rfl⟩
  · exact (replay_runs hit).post fun s x h => ⟨hit, .inl h.1, h.2⟩

/-- The parts of a stream are recorded; at the end the complete record is. -/
theorem recorder_runs (rest : R) (parts chunks : List (RecordedPart P)) :
    Runs (ModelStep c ttlMs) (· = .streaming) (c.recorder rest parts chunks)
      (fun s _ => s = .recorded (.streamed (parts ++ chunks) rest false)) fun _ _ => True := by
  induction chunks generalizing parts with
  | nil =>
    rw [append_nil]
    exact Runs.bind (moves_runs (fun _ => .flush) (fun _ => .flushThrown) fun _ => trivial) fun _ =>
      Runs.bind (settle_recorded _ .succeeded nofun).drop fun _ =>
        (enforceStepLimits_runs fun r => .limits).drop
  | cons chunk chunks ih =>
    rw [append_cons]
    have hnext := ih (parts ++ [chunk])
    refine Runs.bind (stays_runs fun r => .arrive).drop fun _ => ?_
    dsimp only
    split
    · refine Runs.bind (Runs.tryCatch (stays_runs fun r => .ahead) fun _ => runs_pure fun _ h => h)
        fun _ => hnext
    · split
      · refine Runs.bind (Runs.tryCatch (stays_runs fun r => .checkpoint) fun _ => runs_pure fun _ h => h)
          fun _ => hnext
      · exact hnext

theorem wrapStream_runs (hc : c.exclusive = some ttlMs) (replayCache : Option (StepRecord R P)) :
    Runs (ModelStep c ttlMs) (· = .read .start replayCache) (c.wrapStream replayCache)
      Returns fun _ _ => True := by
  refine Runs.bind (modelCtxGet_runs replayCache) fun hit => ?_
  rcases hit with _ | hit
  · refine Runs.bind assertNotCanceled_stays fun _ => Runs.bind (acquireModelClaim_runs hc) fun _ =>
      Runs.bind (Q := fun s _ => s = .streaming) ?_ fun x =>
      Runs.bind (recorder_runs x.2 [] x.1) fun _ => runs_pure fun _ h => ⟨_, .inr h, rfl⟩
    refine Runs.tryCatch (Y := fun s _ => s = .failing ∨ ∃ record, s = .recorded record) ?_
      fun e => (fail_runs e).post fun _ _ h => h.elim
    exact Runs.bind calls_runs fun _ =>
      moves_runs (fun _ => .opened) (fun _ => .openedThrown) fun _ => .inl rfl
  · exact (replay_runs hit).post fun s x h => ⟨hit, .inl h.1, h.2⟩

/-- An attempt follows the protocol. -/
theorem attempt_follows (hc : c.exclusive = some ttlMs) :
    (c.prog : Prog (ModelOp R P) _ _).Follows (ModelStep c ttlMs) .start
      fun s r => ∀ x, r = .ok x → Returns s x := by
  have hattempt : Runs (ModelStep c ttlMs) (· = .start) (c.attempt : ModelM R P (StepResult R P))
      Returns fun _ _ => True := by
    rw [ModelCall.attempt]
    refine Runs.orElse none (early_runs (o := .readRun) (s := .start) trivial none fun _ => .readRun)
      (fun _ hs => hs) fun replayCache => ?_
    split
    · exact wrapGenerate_runs hc replayCache
    · exact wrapStream_runs hc replayCache
  refine (hattempt _ rfl).mono fun s r hr x hx => ?_
  rw [hx] at hr
  exact hr

end Protocol

/-! ## What happens to the records -/

/-- The attempt of an event. -/
def ModelEvent.caller : ModelEvent R P → ℕ
  | claimed i _ | lost i _ | looked i _ | replaced i _ | called i | recorded i _ => i

/-- What has happened of an attempt. -/
def ModelWorld.eventsOf (w : ModelWorld R P) (i : ℕ) : List (ModelEvent R P) :=
  w.trace.filter (·.caller = i)

/-- The operation leaves the records, and answers nothing of them. -/
def ModelOp.passive : ModelOp R P → Bool
  | getFlag | dateNow | generated | opened | arrive | putCheckpoint _ | limits => true
  | _ => false

/-- What an operation of the attempt `i` does, by its answer. -/
inductive ModelEffect (w : ModelWorld R P) (i : ℕ) :
    (o : ModelOp R P) → o.Res R P → ModelWorld R P → Prop
  | readRun : ModelEffect w i .readRun (.ok w.record) w
  | get : ModelEffect w i .get (.ok w.record) w
  | now : ModelEffect w i .now (.ok w.clock) w
  | recorded {record r} : ModelEffect w i (.put record) r
    { w with record := some record, trace := .recorded i record :: w.trace }
  | claimed {mine r} : w.claim = none → (∀ won, r = .ok won → won = true) →
    ModelEffect w i (.claim mine) r { w with claim := some mine, trace := .claimed i mine :: w.trace }
  | lost {mine r} : w.claim ≠ none → (∀ won, r = .ok won → won = false) →
    ModelEffect w i (.claim mine) r { w with trace := .lost i mine :: w.trace }
  | looked : ModelEffect w i .getClaim (.ok w.claim) { w with trace := .looked i w.claim :: w.trace }
  | replaced {mine r} : mine.status = .running → ModelEffect w i (.putClaim mine) r
    { w with claim := some mine, trace := .replaced i mine :: w.trace }
  | settled {mine r} : mine.status ≠ .running → ModelEffect w i (.putClaim mine) r
    { w with claim := some mine }
  | called {r} : ModelEffect w i .call (.ok r) { w with trace := .called i :: w.trace }
  | passive {o r} : o.passive → ModelEffect w i o r w
  | thrown {o e} : o ≠ .call → ModelEffect w i o (.error e) w

section Effect

variable {w : ModelWorld R P} {i : ℕ} {a : ModelAnswer R P} {o : ModelOp R P}

/-- A write has its effect, whatever is answered. -/
theorem model_write_effect (ho : o.writes) {r : o.Res R P}
    (hr : ∀ x, r = .ok x → x = (w.perform i a o).1) : ModelEffect w i o r (w.perform i a o).2 := by
  cases o with
  | put record => exact .recorded
  | claim mine =>
    rw [ModelWorld.perform] at hr ⊢
    split
    · next hw =>
      rw [if_pos hw] at hr
      exact .claimed hw hr
    · next hw =>
      rw [if_neg hw] at hr
      exact .lost hw hr
  | putClaim mine =>
    rw [ModelWorld.perform]
    by_cases hmine : mine.status = .running
    · simp only [if_pos hmine]
      exact .replaced hmine
    · simp only [if_neg hmine]
      exact .settled hmine
  | _ => contradiction

theorem model_perform_effect : ModelEffect w i o (.ok (w.perform i a o).1) (w.perform i a o).2 := by
  by_cases ho : o.writes
  · exact model_write_effect ho fun x hx => (Except.ok.inj hx).symm
  cases o with
  | readRun => exact .readRun
  | get => exact .get
  | now => exact .now
  | getClaim => exact .looked
  | call => exact .called
  | put | claim | putClaim => exact absurd rfl ho
  | _ => exact .passive rfl

theorem model_exec_effect :
    ModelEffect w i o (modelMachine.exec i a o w).1 (modelMachine.exec i a o w).2 := by
  simp only [modelMachine]
  split
  · split
    · exact model_perform_effect
    · next hsafe =>
      split
      · next h => exact model_write_effect h.2 nofun
      · refine .thrown ?_
        rintro rfl
        exact hsafe rfl
  · exact model_perform_effect

/-- An operation is an event of its own attempt. -/
theorem eventsOf_other {r : o.Res R P} {w' : ModelWorld R P} (he : ModelEffect w i o r w') {j : ℕ}
    (hj : j ≠ i) : w'.eventsOf j = w.eventsOf j := by
  have hskip (e : ModelEvent R P) (hcaller : e.caller = i) (w' : ModelWorld R P)
      (htrace : w'.trace = e :: w.trace) : w'.eventsOf j = w.eventsOf j := by
    rw [ModelWorld.eventsOf, htrace, filter_cons_of_neg (by simp [hcaller, hj.symm])]
    rfl
  cases he with
  | readRun | get | now | settled | passive | thrown => rfl
  | recorded | claimed | lost | looked | replaced | called => exact hskip _ rfl _ rfl

theorem eventsOf_own {clock : Int} {record : Option (StepRecord R P)}
    {claim : Option ModelClaimRecord} {flag : Bool} {e : ModelEvent R P} (hcaller : e.caller = i) :
    ModelWorld.eventsOf ⟨clock, record, claim, flag, e :: w.trace⟩ i = e :: w.eventsOf i :=
  filter_cons_of_pos (by simp [hcaller])

end Effect

/-! ## The history of an attempt -/

/-- How an attempt comes to call the provider. -/
inductive Licence (ttlMs : Int) (i : ℕ) : List (ModelEvent R P) → Prop
  | won {mine} : Licence ttlMs i [.claimed i mine]
  | took {mine existing} : (∀ e ∈ existing, e.fresh mine.startedAt ttlMs = false) →
    Licence ttlMs i [.replaced i mine, .looked i existing, .lost i mine]

/-- What an attempt has done after its call. -/
def Recordings (i : ℕ) (recs : List (ModelEvent R P)) : Prop :=
  ∀ e ∈ recs, ∃ record, e = .recorded i record

/-- What an attempt can have done. -/
inductive StepPast (ttlMs : Int) (i : ℕ) : List (ModelEvent R P) → Prop
  | looks {l} : (∀ e ∈ l, ∃ existing, e = .looked i existing) → StepPast ttlMs i l
  | lost {mine} : StepPast ttlMs i [.lost i mine]
  | looked {mine existing} : StepPast ttlMs i [.looked i existing, .lost i mine]
  | licensed {l} : Licence ttlMs i l → StepPast ttlMs i l
  | called {l recs} : Licence ttlMs i l → Recordings i recs → StepPast ttlMs i (recs ++ .called i :: l)

/-- What an attempt has done, by how far it is. -/
def ModelPhase.History (c : ModelCall) (ttlMs : Int) (i : ℕ) (l : List (ModelEvent R P)) :
    ModelPhase R P → Prop
  | start | fresh | cleared | timed _ => l = []
  | replaying _ => ∀ e ∈ l, ∃ existing, e = .looked i existing
  | lost now => l = [.lost i (c.claimRecord .running now)]
  | looked now existing => l = [.looked i existing, .lost i (c.claimRecord .running now)] ∧
      ∀ e ∈ existing, e.fresh now ttlMs = false
  | licensed => Licence ttlMs i l
  | called | answered _ => ∃ l', l = .called i :: l' ∧ Licence ttlMs i l'
  | streaming | recorded _ | failing =>
    ∃ recs l', l = recs ++ .called i :: l' ∧ Licence ttlMs i l' ∧ Recordings i recs
  | done => StepPast ttlMs i l

section History

variable {c : ModelCall} {ttlMs : Int} {i : ℕ} {s s' : ModelPhase R P} {o : ModelOp R P}
  {r : o.Res R P} {w w' : ModelWorld R P} {l : List (ModelEvent R P)}

theorem past_nil : StepPast ttlMs i ([] : List (ModelEvent R P)) := .looks nofun

/-- After reading the step, nothing has been done yet. -/
theorem history_read {s : ModelPhase R P} (h : s.History c ttlMs i l) (hl : l = [])
    (hit : Option (StepRecord R P)) : (ModelPhase.read s hit).History c ttlMs i l := by
  rcases hit with _ | hit
  · exact h
  · rw [hl]
    exact fun _ => nofun

/-- After its call, an attempt has recorded nothing yet. -/
theorem history_open (c : ModelCall) (h : (ModelPhase.called : ModelPhase R P).History c ttlMs i l) :
    (ModelPhase.streaming : ModelPhase R P).History c ttlMs i l := by
  obtain ⟨l', hl, hlicence⟩ := h
  exact ⟨[], l', hl, hlicence, nofun⟩

/-- A streaming attempt writes the record. -/
theorem history_write (c : ModelCall)
    (h : (ModelPhase.streaming : ModelPhase R P).History c ttlMs i l) (record : StepRecord R P) :
    (ModelPhase.streaming : ModelPhase R P).History c ttlMs i (.recorded i record :: l) := by
  obtain ⟨recs, l', rfl, hlicence, hrecs⟩ := h
  exact ⟨_ :: recs, l', rfl, hlicence, forall_mem_cons.2 ⟨⟨_, rfl⟩, hrecs⟩⟩

/-- What an attempt has done, when an early operation throws. -/
theorem history_thrown {r : o.Ans R P} {e : ModelError} (hs : ModelStep c ttlMs s o (.ok r) s')
    (hearly : s.Early) (he : ModelEffect w i o (.error e) w')
    (h : s.History c ttlMs i (w.eventsOf i)) : StepPast ttlMs i (w'.eventsOf i) := by
  cases hs with
  | readRun | get | getFlag | now =>
    cases he with
    | passive | thrown =>
      rw [h]
      exact past_nil
  | claim =>
    cases he with
    | claimed =>
      rw [eventsOf_own (by rfl), h]
      exact .licensed .won
    | lost =>
      rw [eventsOf_own (by rfl), h]
      exact .lost
    | passive | thrown =>
      rw [h]
      exact past_nil
  | look =>
    cases he with
    | passive | thrown =>
      rw [h]
      exact .lost
  | replace =>
    obtain ⟨hl, hstale⟩ := h
    cases he with
    | replaced =>
      rw [eventsOf_own (by rfl), hl]
      exact .licensed (.took hstale)
    | settled hmine => exact absurd rfl hmine
    | passive | thrown =>
      rw [hl]
      exact .looked
  | _ => contradiction

theorem history_step (hs : ModelStep c ttlMs s o r s') (he : ModelEffect w i o r w')
    (h : s.History c ttlMs i (w.eventsOf i)) : s'.History c ttlMs i (w'.eventsOf i) := by
  cases hs with
  | readRun =>
    cases he with
    | readRun => exact history_read h h _
    | passive => contradiction
  | get =>
    cases he with
    | get => exact history_read (s := .fresh) h h _
    | passive => contradiction
  | compare =>
    cases he with
    | looked =>
      rw [eventsOf_own (by rfl)]
      exact forall_mem_cons.2 ⟨⟨_, rfl⟩, h⟩
    | passive | thrown => exact h
  | replayLimits =>
    cases he with
    | passive | thrown => exact h
  | @getFlag seen =>
    cases he with
    | passive =>
      rcases seen with _ | _
      · exact h
      · rw [h]
        exact past_nil
  | now =>
    cases he with
    | now => exact h
    | passive => contradiction
  | claim =>
    cases he with
    | claimed _ hwon =>
      obtain rfl := hwon _ rfl
      rw [eventsOf_own (by rfl), h]
      exact .won
    | lost _ hwon =>
      obtain rfl := hwon _ rfl
      rw [eventsOf_own (by rfl), h]
      exact rfl
    | passive => contradiction
  | look =>
    cases he with
    | looked =>
      rw [eventsOf_own (by rfl), h]
      split
      · exact .looked
      · next hfresh =>
        refine ⟨rfl, fun e hmem => ?_⟩
        simp only [Option.any_eq_true, not_exists, not_and, Bool.not_eq_true] at hfresh
        exact hfresh e hmem
    | passive => contradiction
  | replace =>
    obtain ⟨hl, hstale⟩ := h
    cases he with
    | replaced =>
      rw [eventsOf_own (by rfl), hl]
      exact .took hstale
    | settled hmine => exact absurd rfl hmine
    | passive => contradiction
  | call =>
    cases he with
    | called =>
      rw [eventsOf_own (by rfl)]
      exact ⟨_, rfl, h⟩
    | passive => contradiction
  | callThrown =>
    cases he with
    | passive => contradiction
    | thrown hne => exact absurd rfl hne
  | generated =>
    cases he with
    | passive => exact h
  | generatedThrown | openedThrown =>
    cases he with
    | passive | thrown => exact history_open c h
  | opened =>
    cases he with
    | passive => exact history_open c h
  | put =>
    cases he with
    | recorded =>
      rw [eventsOf_own (by rfl)]
      exact history_write c (history_open c h) _
    | passive => contradiction
  | putThrown =>
    cases he with
    | recorded =>
      rw [eventsOf_own (by rfl)]
      exact history_write c (history_open c h) _
    | passive | thrown => exact history_open c h
  | ahead =>
    cases he with
    | recorded =>
      rw [eventsOf_own (by rfl)]
      exact history_write c h _
    | passive | thrown => exact h
  | flush =>
    cases he with
    | recorded =>
      rw [eventsOf_own (by rfl)]
      exact history_write c h _
    | passive => contradiction
  | flushThrown =>
    cases he with
    | recorded =>
      rw [eventsOf_own (by rfl)]
      obtain ⟨recs, l, hl, hlicence, hrecs⟩ := history_write c h _
      exact hl ▸ .called hlicence hrecs
    | passive | thrown =>
      obtain ⟨recs, l, hl, hlicence, hrecs⟩ := h
      exact hl ▸ .called hlicence hrecs
  | settle hstatus =>
    cases he with
    | replaced hmine => exact absurd hmine hstatus
    | settled | passive | thrown => exact h
  | fail =>
    obtain ⟨recs, l, hl, hlicence, hrecs⟩ := h
    have hpast : StepPast ttlMs i (w.eventsOf i) := hl ▸ .called hlicence hrecs
    cases he with
    | replaced hmine => contradiction
    | settled | passive | thrown => exact hpast
  | arrive | checkpoint | date | limits | failDate =>
    cases he with
    | passive | thrown => exact h
  | thrown hearly hs => exact history_thrown hs hearly he h

/-- How far an attempt is says what it can have done. -/
theorem ModelPhase.History.past (h : s.History c ttlMs i l) : StepPast ttlMs i l := by
  cases s with
  | start | fresh | cleared | timed =>
    rw [show l = [] from h]
    exact past_nil
  | replaying => exact .looks h
  | lost =>
    rw [show l = _ from h]
    exact .lost
  | looked =>
    rw [h.1]
    exact .looked
  | licensed => exact .licensed h
  | called | answered =>
    obtain ⟨l, rfl, hlicence⟩ := h
    exact @StepPast.called _ _ _ _ _ [] hlicence nofun
  | streaming | recorded | failing =>
    obtain ⟨recs, l, rfl, hlicence, hrecs⟩ := h
    exact .called hlicence hrecs
  | done => exact h

end History

/-! ## What the claims are worth -/

namespace ModelEvent

def isClaimed : ModelEvent R P → Bool
  | claimed _ _ => true
  | _ => false

def isReplaced : ModelEvent R P → Bool
  | replaced _ _ => true
  | _ => false

def isCalled : ModelEvent R P → Bool
  | called _ => true
  | _ => false

end ModelEvent

/-- What every run keeps to. -/
structure Licensed (ttlMs : Int) (w : ModelWorld R P) : Prop where
  /-- Who has called the provider has won the claim, or has replaced it. -/
  licence : ∀ i, .called i ∈ w.trace →
    (∃ mine, .claimed i mine ∈ w.trace) ∨ ∃ mine, .replaced i mine ∈ w.trace
  /-- Who has replaced the claim has read one that was not running, or not fresh. -/
  stale : ∀ i mine, .replaced i mine ∈ w.trace → ∃ existing, .looked i existing ∈ w.trace ∧
    ∀ e ∈ existing, e.fresh mine.startedAt ttlMs = false
  /-- Who has lost to a claim that is running and fresh does nothing. -/
  busy : ∀ i mine existing, .lost i mine ∈ w.trace → .looked i (some existing) ∈ w.trace →
    existing.fresh mine.startedAt ttlMs → .called i ∉ w.trace ∧
      (∀ mine, .replaced i mine ∉ w.trace) ∧ ∀ record, .recorded i record ∉ w.trace
  /-- The provider is called at most once more than claims have been replaced. -/
  few : w.trace.countP (·.isCalled) ≤ 1 + w.trace.countP (·.isReplaced)

section Licensed

variable {ttlMs : Int} {i : ℕ} {w w' : ModelWorld R P} {l : List (ModelEvent R P)}

theorem mem_eventsOf {e : ModelEvent R P} : e ∈ w.eventsOf i ↔ e ∈ w.trace ∧ e.caller = i := by
  rw [ModelWorld.eventsOf, mem_filter, decide_eq_true_iff]

theorem Licence.mem (h : Licence ttlMs i l) :
    (∃ mine, .claimed i mine ∈ l) ∨ ∃ mine, .replaced i mine ∈ l := by
  cases h with
  | won => exact .inl ⟨_, mem_cons_self⟩
  | took => exact .inr ⟨_, mem_cons_self⟩

theorem StepPast.licence (h : StepPast ttlMs i l) (hcalled : .called i ∈ l) :
    (∃ mine, .claimed i mine ∈ l) ∨ ∃ mine, .replaced i mine ∈ l := by
  cases h with
  | looks h =>
    obtain ⟨_, h⟩ := h _ hcalled
    contradiction
  | lost | looked => simp at hcalled
  | licensed h => exact h.mem
  | @called l recs h =>
    have hsub : l ⊆ recs ++ .called i :: l := fun e he => by simp [he]
    exact h.mem.imp (fun ⟨mine, h⟩ => ⟨mine, hsub h⟩) fun ⟨mine, h⟩ => ⟨mine, hsub h⟩

theorem StepPast.stale (h : StepPast ttlMs i l) {mine : ModelClaimRecord}
    (hmine : .replaced i mine ∈ l) :
    ∃ existing, .looked i existing ∈ l ∧ ∀ e ∈ existing, e.fresh mine.startedAt ttlMs = false := by
  have hlicence {l : List (ModelEvent R P)} (h : Licence ttlMs i l) (hmine : .replaced i mine ∈ l) :
      ∃ existing, .looked i existing ∈ l ∧ ∀ e ∈ existing, e.fresh mine.startedAt ttlMs = false := by
    cases h with
    | won => simp at hmine
    | @took mine' existing hstale =>
      obtain rfl : mine = mine' := by simpa using hmine
      exact ⟨existing, by simp, hstale⟩
  cases h with
  | looks h =>
    obtain ⟨_, h⟩ := h _ hmine
    contradiction
  | lost | looked => simp at hmine
  | licensed h => exact hlicence h hmine
  | @called l recs h hrecs =>
    rcases mem_append.1 hmine with hmem | hmem
    · obtain ⟨_, h⟩ := hrecs _ hmem
      contradiction
    · obtain ⟨existing, hlooked, hstale⟩ := hlicence h ((mem_cons.1 hmem).resolve_left nofun)
      exact ⟨existing, by simp [hlooked], hstale⟩

theorem StepPast.busy (h : StepPast ttlMs i l) {mine existing : ModelClaimRecord}
    (hlost : .lost i mine ∈ l)
    (hlooked : .looked i (some existing) ∈ l) (hfresh : existing.fresh mine.startedAt ttlMs) :
    .called i ∉ l ∧ (∀ mine, .replaced i mine ∉ l) ∧ ∀ record, .recorded i record ∉ l := by
  have hlicence {l : List (ModelEvent R P)} (h : Licence ttlMs i l) (hlost : .lost i mine ∈ l)
      (hlooked : .looked i (some existing) ∈ l) : False := by
    cases h with
    | won => simp at hlost
    | @took mine' existing' hstale =>
      obtain rfl : mine = mine' := by simpa using hlost
      obtain rfl : some existing = existing' := by simpa using hlooked
      rw [hstale existing rfl] at hfresh
      contradiction
  cases h with
  | looks h =>
    obtain ⟨_, h⟩ := h _ hlost
    contradiction
  | lost => simp at hlooked
  | looked => simp
  | licensed h => exact (hlicence h hlost hlooked).elim
  | @called l recs h hrecs =>
    have hmem {e : ModelEvent R P} (he : e ∈ recs ++ .called i :: l) (hne : e ≠ .called i)
        (hrec : ∀ record, e ≠ .recorded i record) : e ∈ l := by
      rcases mem_append.1 he with he | he
      · obtain ⟨record, he⟩ := hrecs _ he
        exact absurd he (hrec record)
      · exact (mem_cons.1 he).resolve_left hne
    exact (hlicence h (hmem hlost nofun nofun) (hmem hlooked nofun nofun)).elim

/-- An attempt calls the provider once. -/
theorem StepPast.once (h : StepPast ttlMs i l) : l.countP (·.isCalled) ≤ 1 := by
  have hlicence {l : List (ModelEvent R P)} (h : Licence ttlMs i l) : l.countP (·.isCalled) = 0 := by
    cases h <;> rfl
  cases h with
  | looks h =>
    rw [countP_eq_zero.2]
    · exact Nat.zero_le 1
    · intro e he
      obtain ⟨_, rfl⟩ := h e he
      exact Bool.false_ne_true
  | lost | looked => exact Nat.zero_le 1
  | licensed h =>
    rw [hlicence h]
    exact Nat.zero_le 1
  | @called l recs h hrecs =>
    have hzero : recs.countP (·.isCalled) = 0 := by
      refine countP_eq_zero.2 fun e he => ?_
      obtain ⟨_, rfl⟩ := hrecs e he
      exact Bool.false_ne_true
    refine Nat.le_of_eq ?_
    rw [countP_append, hzero, countP_cons_of_pos rfl, hlicence h]

end Licensed

/-- What holds of any attempts at the step. -/
structure ModelInv (ttlMs : Int) (calls : ℕ → ModelCall) (w : ModelWorld R P)
    (ph : ℕ → ModelPhase R P) : Prop where
  history : ∀ i, (ph i).History (calls i) ttlMs i (w.eventsOf i)
  unclaimed : w.claim = none → ∀ e ∈ w.trace, e.isClaimed = false
  once : w.trace.countP (·.isClaimed) ≤ 1

section Invariant

variable {ttlMs : Int} {calls : ℕ → ModelCall} {i : ℕ} {w w' : ModelWorld R P} {o : ModelOp R P}
  {r : o.Res R P} {ph : ℕ → ModelPhase R P} {s' : ModelPhase R P}

theorem ModelInv.step (h : ModelInv ttlMs calls w ph) (hs : ModelStep (calls i) ttlMs (ph i) o r s')
    (he : ModelEffect w i o r w') : ModelInv ttlMs calls w' (update ph i s') := by
  refine ⟨fun j => ?_, ?_, ?_⟩
  · by_cases hj : j = i
    · subst hj
      rw [update_self]
      exact history_step hs he (h.history j)
    · rw [update_of_ne hj, eventsOf_other he hj]
      exact h.history j
  · cases he with
    | claimed | replaced | settled => exact nofun
    | recorded | lost | looked | called => exact fun hw => forall_mem_cons.2 ⟨rfl, h.unclaimed hw⟩
    | readRun | get | now | passive | thrown => exact h.unclaimed
  · cases he with
    | claimed hw =>
      have hzero : w.trace.countP (·.isClaimed) = 0 :=
        countP_eq_zero.2 fun e he => Bool.eq_false_iff.1 (h.unclaimed hw e he)
      refine Nat.le_of_eq ?_
      rw [countP_cons_of_pos rfl, hzero]
    | recorded | lost | looked | replaced | called =>
      rw [countP_cons_of_neg Bool.false_ne_true]
      exact h.once
    | readRun | get | now | settled | passive | thrown => exact h.once

/-- Who has called the provider. -/
def callers (l : List (ModelEvent R P)) : List ℕ :=
  l.filterMap fun e => if e.isCalled then some e.caller else none

/-- Who may have called it. -/
def licensees (l : List (ModelEvent R P)) : List ℕ :=
  l.filterMap fun e => if e.isClaimed || e.isReplaced then some e.caller else none

theorem length_callers (l : List (ModelEvent R P)) :
    (callers l).length = l.countP (·.isCalled) := by
  rw [callers, length_filterMap_eq_countP]
  congr 1
  funext e
  cases e <;> rfl

theorem length_licensees (l : List (ModelEvent R P)) :
    (licensees l).length = l.countP (·.isClaimed) + l.countP (·.isReplaced) := by
  induction l with
  | nil => rfl
  | cons e l ih =>
    have hcons : (licensees (e :: l)).length =
        (licensees l).length + if e.isClaimed || e.isReplaced then 1 else 0 := by
      cases e <;> rfl
    rw [hcons, ih, countP_cons, countP_cons]
    cases e <;> simp only [ModelEvent.isClaimed, ModelEvent.isReplaced] <;> simp <;> omega

theorem nodup_callers (h : ∀ i, StepPast ttlMs i (w.eventsOf i)) : (callers w.trace).Nodup := by
  refine nodup_iff_count_le_one.2 fun i => Nat.le_trans ?_ (h i).once
  rw [callers, count_filterMap, ModelWorld.eventsOf, countP_filter]
  refine countP_mono_left fun e _ he => ?_
  cases e <;> simp_all [ModelEvent.isCalled]

theorem callers_subset (h : ∀ i, StepPast ttlMs i (w.eventsOf i)) :
    callers w.trace ⊆ licensees w.trace := by
  intro i hi
  obtain ⟨e, hmem, he⟩ := mem_filterMap.1 hi
  obtain ⟨hcalled, hcaller⟩ := Option.ite_none_right_eq_some.1 he
  obtain rfl := Option.some.inj hcaller
  have hevent : e = .called e.caller := by
    cases e <;> first | rfl | contradiction
  have hmem' : .called e.caller ∈ w.eventsOf e.caller := mem_eventsOf.2 ⟨hevent ▸ hmem, rfl⟩
  rcases (h e.caller).licence hmem' with ⟨mine, hclaimed⟩ | ⟨mine, hreplaced⟩
  · exact mem_filterMap.2 ⟨_, (mem_eventsOf.1 hclaimed).1, rfl⟩
  · exact mem_filterMap.2 ⟨_, (mem_eventsOf.1 hreplaced).1, rfl⟩

theorem ModelInv.licensed (h : ModelInv ttlMs calls w ph) : Licensed ttlMs w := by
  have hpast (i : ℕ) : StepPast ttlMs i (w.eventsOf i) := (h.history i).past
  refine ⟨fun i hi => ?_, fun i mine hmine => ?_, fun i mine existing hlost hlooked hfresh => ?_, ?_⟩
  · rcases (hpast i).licence (mem_eventsOf.2 ⟨hi, rfl⟩) with ⟨mine, hclaimed⟩ | ⟨mine, hreplaced⟩
    · exact .inl ⟨mine, (mem_eventsOf.1 hclaimed).1⟩
    · exact .inr ⟨mine, (mem_eventsOf.1 hreplaced).1⟩
  · obtain ⟨existing, hlooked, hstale⟩ := (hpast i).stale (mem_eventsOf.2 ⟨hmine, rfl⟩)
    exact ⟨existing, (mem_eventsOf.1 hlooked).1, hstale⟩
  · obtain ⟨hcalled, hreplaced, hrecorded⟩ := (hpast i).busy (mem_eventsOf.2 ⟨hlost, rfl⟩)
      (mem_eventsOf.2 ⟨hlooked, rfl⟩) hfresh
    exact ⟨fun hi => hcalled (mem_eventsOf.2 ⟨hi, rfl⟩),
      fun mine hi => hreplaced mine (mem_eventsOf.2 ⟨hi, rfl⟩),
      fun record hi => hrecorded record (mem_eventsOf.2 ⟨hi, rfl⟩)⟩
  · have hlength := (subperm_of_subset (nodup_callers hpast) (callers_subset hpast)).length_le
    rw [length_callers, length_licensees] at hlength
    have honce := h.once
    omega

end Invariant

/-! ## Runs in time -/

/-- An attempt has come to hold the claim, with this record. -/
def ModelEvent.taking : ModelEvent R P → Option (ℕ × ModelClaimRecord)
  | claimed i mine => some (i, mine)
  | replaced i mine => some (i, mine)
  | _ => none

namespace ModelWorld

variable (w : ModelWorld R P) (i : ℕ)

/-- Whose claim it is that was won or replaced last. -/
def holder : Option ℕ := (w.trace.findSome? (·.taking)).map (·.1)

/-- The claim that the attempt has taken. -/
def taken : Option ModelClaimRecord :=
  w.trace.findSome? fun e => e.taking.bind fun x => if x.1 = i then some x.2 else none

/-- The attempt has taken a claim, and that is younger than `ttlMs`. -/
def inTime (ttlMs : Int) : Bool := (w.taken i).any (·.fresh w.clock ttlMs)

/-- No claim has been replaced since the attempt has read one. -/
def unmoved : Bool :=
  (w.trace.takeWhile fun | .looked j _ => j ≠ i | _ => true).all (!·.isReplaced)

end ModelWorld

/-- A claim is replaced by one attempt of those that have read it, and not over a complete record; and
    who has taken a claim calls the provider, writes the record, and marks the claim, before the claim
    is `ttlMs` old. -/
def Orderly (ttlMs : Int) (w : ModelWorld R P) (i : ℕ) : (o : ModelOp R P) → o.Res R P → Prop
  | .putClaim mine, _ =>
    if mine.status = .running then w.unmoved i ∧ ∀ record ∈ w.record, record.complete = false
    else w.inTime i ttlMs
  | .call, _ => w.inTime i ttlMs
  | .put _, _ => w.inTime i ttlMs
  | _, _ => True

/-- Of those that are in time one may write, and only until the complete record is there. -/
structure SoleInv (ttlMs : Int) (w : ModelWorld R P) (ph : ℕ → ModelPhase R P) : Prop where
  unclaimed : w.claim = none → w.record = none ∧ ∀ i, ¬(ph i).Engaged ∧ ¬(ph i).Beaten
  timed : ∀ i t, (ph i).time = some t → t ≤ w.clock
  holds : ∀ i, (ph i).Engaged → w.inTime i ttlMs → w.holder = some i ∧ w.claim = w.taken i
  /-- Who has read a claim that is not fresh is not beside its holder. -/
  looked : ∀ i t existing, ph i = .looked t existing → w.unmoved i →
    ∀ j, (ph j).Engaged → w.inTime j ttlMs = false
  complete : ∀ record, w.record = some record → record.complete →
    ∀ i, (ph i).MayWrite → w.inTime i ttlMs = false
  written : ∀ i record, ph i = .recorded record →
    w.record = some record ∧ record.complete ∧ w.holder = some i
  replaying : ∀ i record, ph i = .replaying record →
    w.record = some record ∨ record.complete = false ∧ ∃ j, .recorded j record ∈ w.trace
  history : ∀ record, w.record = some record → ∃ j, .recorded j record ∈ w.trace

section Sole

variable {c : ModelCall} {ttlMs : Int} {calls : ℕ → ModelCall} {i : ℕ} {w w' : ModelWorld R P}
  {o : ModelOp R P} {r : o.Res R P} {ph : ℕ → ModelPhase R P} {s s' : ModelPhase R P}

/-- Who puts the record may write it, and does not write again when it is complete. -/
theorem ModelStep.writes {record : StepRecord R P} {r : Except ModelError Unit}
    (hs : ModelStep c ttlMs s (.put record) r s') :
    s.MayWrite ∧ (s' = .recorded record ∧ record.complete ∨ s' = .failing ∨ s' = .done ∨
      s' = .streaming ∧ record.complete = false) := by
  cases hs with
  | put => exact ⟨trivial, .inl ⟨rfl, rfl⟩⟩
  | putThrown => exact ⟨trivial, .inr (.inl rfl)⟩
  | ahead => exact ⟨trivial, .inr (.inr (.inr ⟨rfl, rfl⟩))⟩
  | flush => exact ⟨trivial, .inl ⟨rfl, rfl⟩⟩
  | flushThrown => exact ⟨trivial, .inr (.inr (.inl rfl))⟩
  | thrown h hs => cases hs <;> contradiction

/-- The takings are as they were. -/
structure Untaken (i : ℕ) (w w' : ModelWorld R P) : Prop where
  clock : w'.clock = w.clock
  holder : w'.holder = w.holder
  taken : ∀ j, w'.taken j = w.taken j
  unmoved : ∀ j ≠ i, w'.unmoved j → w.unmoved j
  trace : w.trace ⊆ w'.trace

theorem Untaken.inTime (h : Untaken i w w') (j : ℕ) : w'.inTime j ttlMs = w.inTime j ttlMs := by
  rw [ModelWorld.inTime, ModelWorld.inTime, h.taken, h.clock]

theorem untaken_of_trace (hclock : w'.clock = w.clock) (htrace : w'.trace = w.trace) :
    Untaken i w w' := by
  refine ⟨hclock, ?_, fun j => ?_, fun j _ => ?_, ?_⟩
  · rw [ModelWorld.holder, ModelWorld.holder, htrace]
  · rw [ModelWorld.taken, ModelWorld.taken, htrace]
  · rw [ModelWorld.unmoved, ModelWorld.unmoved, htrace]
    exact id
  · rw [htrace]
    exact List.Subset.refl _

/-- An event of an attempt that takes no claim. -/
theorem untaken_cons {e : ModelEvent R P} (hclock : w'.clock = w.clock)
    (htrace : w'.trace = e :: w.trace) (he : e.taking = none)
    (hlook : ∀ j ≠ i, ∀ existing, e ≠ .looked j existing) : Untaken i w w' := by
  refine ⟨hclock, ?_, fun j => ?_, fun j hj => ?_, ?_⟩
  · rw [ModelWorld.holder, ModelWorld.holder, htrace, findSome?_cons, he]
  · rw [ModelWorld.taken, ModelWorld.taken, htrace, findSome?_cons, he]
    rfl
  · rw [ModelWorld.unmoved, ModelWorld.unmoved, htrace, takeWhile_cons_of_pos, all_cons,
      Bool.and_eq_true]
    · exact And.right
    · cases e with
      | looked k existing =>
        refine decide_eq_true fun hk => ?_
        exact hlook j hj existing (hk ▸ rfl)
      | _ => rfl
  · rw [htrace]
    exact subset_cons_self ..

/-- An attempt has not come to do more under a claim, nor has it written the record; and what it
    replays it has read. -/
structure Unmoved (w : ModelWorld R P) (s s' : ModelPhase R P) : Prop where
  engaged : s'.Engaged → s.Engaged
  writer : s'.MayWrite → s.MayWrite
  beaten : s'.Beaten → s.Beaten ∨ w.claim ≠ none
  timed : ∀ t, s'.time = some t → s.time = some t ∨ t = w.clock
  looked : ∀ t existing, s' ≠ .looked t existing
  written : ∀ record, s' = .recorded record → s = .recorded record
  replaying : ∀ record, s' = .replaying record → s = .replaying record ∨ w.record = some record

/-- Where an attempt is that can neither write nor replay. -/
theorem Unmoved.idle (hengaged : ¬s'.Engaged) (hbeaten : ¬s'.Beaten)
    (htime : ∀ t, s'.time = some t → t = w.clock) (hwritten : ∀ record, s' ≠ .recorded record)
    (hreplaying : ∀ record, s' ≠ .replaying record) : Unmoved w s s' where
  engaged h := absurd h hengaged
  writer h := absurd h.engaged hengaged
  beaten h := absurd h hbeaten
  timed t h := .inr (htime t h)
  looked _ _ h := hbeaten (h ▸ trivial)
  written record h := absurd h (hwritten record)
  replaying record h := absurd h (hreplaying record)

theorem quiet_done : Unmoved w s .done := .idle id id nofun nofun nofun

/-- An attempt goes on under its claim. -/
theorem quiet_engaged (hwriter : s'.MayWrite → s.MayWrite) (h : s.Engaged) (h' : s'.Engaged) :
    Unmoved w s s' where
  engaged _ := h
  writer := hwriter
  beaten h := by cases s' <;> contradiction
  timed t ht := by cases s' <;> contradiction
  looked _ _ hs := by
    rw [hs] at h'
    exact h'.elim
  written record hs := by
    rw [hs] at h'
    exact h'.elim
  replaying record hs := by
    rw [hs] at h'
    exact h'.elim

theorem quiet_read (hengaged : ¬s'.Engaged) (hbeaten : ¬s'.Beaten) (htime : ∀ t, s'.time ≠ some t)
    (hwritten : ∀ record, s' ≠ .recorded record) (hreplaying : ∀ record, s' ≠ .replaying record) :
    Unmoved w s (.read s' w.record) := by
  rcases hrecord : w.record with _ | record
  · exact .idle hengaged hbeaten (fun t ht => absurd ht (htime t)) hwritten hreplaying
  · refine ⟨False.elim, False.elim, False.elim, nofun, nofun, nofun, ?_⟩
    rintro _ ⟨⟩
    exact .inr hrecord

/-- Where an attempt is that stays where it is, and has read no claim. -/
theorem quiet_refl (h : ∀ t existing, s ≠ .looked t existing) : Unmoved w s s :=
  ⟨id, id, .inl, fun _ => .inl, h, fun _ => id, fun _ => .inl⟩

theorem quiet_step (hs : ModelStep c ttlMs s o r s') (he : ModelEffect w i o r w')
    (hclaim : ∀ mine, o ≠ .claim mine) (hput : ∀ record, o ≠ .put record) (hlook : o ≠ .getClaim)
    (hmark : ∀ mine, o ≠ .putClaim mine) : Unmoved w s s' := by
  cases hs with
  | readRun =>
    cases he with
    | readRun => exact quiet_read id id nofun nofun nofun
    | passive => contradiction
  | get =>
    cases he with
    | get => exact @quiet_read _ _ _ _ .fresh id id nofun nofun nofun
    | passive => contradiction
  | now =>
    cases he with
    | now => exact .idle id id (fun t ht => (Option.some.inj ht).symm) nofun nofun
    | passive => contradiction
  | @getFlag seen => rcases seen with _ | _ <;> exact .idle id id nofun nofun nofun
  | claim => exact absurd rfl (hclaim _)
  | look | compare => exact absurd rfl hlook
  | replace | settle | fail => exact absurd rfl (hmark _)
  | put | putThrown | ahead | flush | flushThrown => exact absurd rfl (hput _)
  | call | generated | opened => exact quiet_engaged (fun _ => trivial) trivial trivial
  | callThrown | generatedThrown | openedThrown => exact quiet_engaged False.elim trivial trivial
  | thrown => exact quiet_done
  | replayLimits | arrive | checkpoint | date | limits | failDate => exact quiet_refl nofun

theorem quiet_thrown {e : ModelError} (hs : ModelStep c ttlMs s o (.error e) s') : Unmoved w s s' := by
  cases hs with
  | callThrown | generatedThrown | openedThrown | putThrown =>
    exact quiet_engaged False.elim trivial trivial
  | flushThrown | fail | thrown => exact quiet_done
  | compare | replayLimits | arrive | ahead | checkpoint | date | settle | limits | failDate =>
    exact quiet_refl nofun

theorem quiet_lost {mine : ModelClaimRecord} {r : Except ModelError Bool}
    (hs : ModelStep c ttlMs s (.claim mine) r s') (hw : w.claim ≠ none)
    (hwon : ∀ won, r = .ok won → won = false) : Unmoved w s s' := by
  cases hs with
  | claim =>
    obtain rfl := hwon _ rfl
    exact ⟨False.elim, False.elim, fun _ => .inr hw, fun _ => .inl, nofun, nofun, nofun⟩
  | thrown => exact quiet_done

theorem ModelStep.claims {mine : ModelClaimRecord} {r : Except ModelError Bool}
    (hs : ModelStep c ttlMs s (.claim mine) r s') (hwon : ∀ won, r = .ok won → won = true) :
    s' = .licensed ∨ s' = .done := by
  cases hs with
  | claim =>
    obtain rfl := hwon _ rfl
    exact .inl rfl
  | thrown => exact .inr rfl

theorem ModelStep.looks {existing : Option ModelClaimRecord}
    (hs : ModelStep c ttlMs s .getClaim (.ok existing) s') :
    (∃ record, s = .replaying record ∧ s' = s) ∨ s' = .done ∨
      ∃ t, s = .lost t ∧ ¬existing.any (·.fresh t ttlMs) ∧ s' = .looked t existing := by
  cases hs with
  | compare => exact .inl ⟨_, rfl, rfl⟩
  | look =>
    split
    · exact .inr (.inl rfl)
    · next hstale => exact .inr (.inr ⟨_, rfl, hstale, rfl⟩)

/-- A running claim is put by an attempt that has read one that is not fresh; any other by one that has
    recorded the step, or has failed. -/
theorem ModelStep.marks {mine : ModelClaimRecord} {r : Except ModelError Unit}
    (hs : ModelStep c ttlMs s (.putClaim mine) r s') :
    if mine.status = .running then
      (∃ t existing, s = .looked t existing) ∧ (s' = .licensed ∨ s' = .done)
    else (∃ record, s = .recorded record ∧ s' = s) ∨ s = .failing ∧ s' = .done := by
  cases hs with
  | replace => exact ⟨⟨_, _, rfl⟩, .inl rfl⟩
  | settle hstatus =>
    rw [ModelCall.claimRecord, if_neg hstatus]
    exact .inl ⟨_, rfl, rfl⟩
  | fail => exact .inr ⟨rfl, rfl⟩
  | thrown h hs =>
    cases hs with
    | replace => exact ⟨⟨_, _, rfl⟩, .inr rfl⟩
    | _ => contradiction

/-- What has happened stays so when nobody takes a claim and nobody writes. -/
theorem SoleInv.quiet (h : SoleInv ttlMs w ph) (hquiet : Unmoved w (ph i) s')
    (hsame : Untaken i w w') (hrecord : w'.record = w.record) (hclaim : w'.claim = none → w.claim = none)
    (hheld : ∀ j, (update ph i s' j).Engaged → w.inTime j ttlMs → w'.claim = w.claim) :
    SoleInv ttlMs w' (update ph i s') := by
  have hold {A : ModelPhase R P → Prop} (hA : A s' → A (ph i)) (j : ℕ) (hj : A (update ph i s' j)) :
      A (ph j) := by
    by_cases hji : j = i
    · subst hji
      rw [update_self] at hj
      exact hA hj
    · rwa [update_of_ne hji] at hj
  refine ⟨fun hw => ?_, fun j t hj => ?_, fun j hj htime => ?_, fun j t existing hj hunmoved k hk => ?_,
    fun record hw hcomplete j hj => ?_, fun j record hj => ?_, fun j record hj => ?_,
    fun record hw => ?_⟩
  · obtain ⟨hnone, hidle⟩ := h.unclaimed (hclaim hw)
    exact ⟨hrecord.trans hnone, fun j => ⟨fun hj => (hidle j).1 (hold hquiet.engaged j hj),
      fun hj => (hidle j).2 (hold (fun hs => (hquiet.beaten hs).resolve_right (· (hclaim hw))) j hj)⟩⟩
  · rw [hsame.clock]
    by_cases hji : j = i
    · subst hji
      rw [update_self] at hj
      rcases hquiet.timed t hj with ht | rfl
      · exact h.timed j t ht
      · exact Int.le_refl _
    · rw [update_of_ne hji] at hj
      exact h.timed j t hj
  · rw [hsame.inTime] at htime
    rw [hsame.holder, hsame.taken, hheld j hj htime]
    exact h.holds j (hold hquiet.engaged j hj) htime
  · have hji : j ≠ i := by
      rintro rfl
      rw [update_self] at hj
      exact hquiet.looked t existing hj
    rw [update_of_ne hji] at hj
    rw [hsame.inTime]
    exact h.looked j t existing hj (hsame.unmoved j hji hunmoved) k (hold hquiet.engaged k hk)
  · rw [hsame.inTime]
    exact h.complete record (hrecord ▸ hw) hcomplete j (hold hquiet.writer j hj)
  · rw [hrecord, hsame.holder]
    exact h.written j record (hold (A := (· = .recorded record)) (hquiet.written record) j hj)
  · rw [hrecord]
    have hbefore (hj : ph j = .replaying record) : w.record = some record ∨
        record.complete = false ∧ ∃ j, .recorded j record ∈ w'.trace :=
      (h.replaying j record hj).imp_right fun h => ⟨h.1, h.2.imp fun _ hmem => hsame.trace hmem⟩
    by_cases hji : j = i
    · subst hji
      rw [update_self] at hj
      exact (hquiet.replaying record hj).elim hbefore .inl
    · rw [update_of_ne hji] at hj
      exact hbefore hj
  · obtain ⟨j, hmem⟩ := h.history record (hrecord ▸ hw)
    exact ⟨j, hsame.trace hmem⟩

/-- The record is written by the one writer in time. -/
theorem SoleInv.put (h : SoleInv ttlMs w ph) {record : StepRecord R P} {r : Except ModelError Unit}
    (hs : ModelStep c ttlMs (ph i) (.put record) r s') (htime : w.inTime i ttlMs) :
    SoleInv ttlMs { w with record := some record, trace := .recorded i record :: w.trace }
      (update ph i s') := by
  obtain ⟨hmay, hs'⟩ := hs.writes
  obtain ⟨hholder, -⟩ := h.holds i hmay.engaged htime
  have hsame : Untaken i w { w with record := some record, trace := .recorded i record :: w.trace } :=
    untaken_cons rfl rfl rfl fun _ _ _ => nofun
  have hsole {j : ℕ} (hji : j ≠ i) (hj : (ph j).Engaged) : w.inTime j ttlMs = false := by
    refine Bool.eq_false_iff.2 fun hin => hji ?_
    exact Option.some.inj ((h.holds j hj hin).1.symm.trans hholder)
  have hincomplete {old : StepRecord R P} (hold : w.record = some old) : old.complete = false := by
    refine Bool.eq_false_iff.2 fun hcomplete => ?_
    rw [h.complete old hold hcomplete i hmay] at htime
    cases htime
  have hengaged (k : ℕ) (hk : (update ph i s' k).Engaged) : (ph k).Engaged := by
    by_cases hki : k = i
    · exact hki ▸ hmay.engaged
    · rwa [update_of_ne hki] at hk
  refine ⟨fun hw => absurd hmay.engaged ((h.unclaimed hw).2 i).1, fun j t hj => ?_, fun j hj hin => ?_,
    fun j t existing hj hunmoved k hk => ?_, ?_, fun j old hj => ?_, fun j old hj => ?_, ?_⟩
  · by_cases hji : j = i
    · subst hji
      rw [update_self] at hj
      rcases hs' with ⟨rfl, -⟩ | rfl | rfl | ⟨rfl, -⟩ <;> contradiction
    · rw [update_of_ne hji] at hj
      exact h.timed j t hj
  · rw [hsame.inTime] at hin
    rw [hsame.holder, hsame.taken]
    exact h.holds j (hengaged j hj) hin
  · have hji : j ≠ i := by
      rintro rfl
      rw [update_self] at hj
      rcases hs' with ⟨rfl, -⟩ | rfl | rfl | ⟨rfl, -⟩ <;> contradiction
    rw [update_of_ne hji] at hj
    rw [hsame.inTime]
    exact h.looked j t existing hj (hsame.unmoved j hji hunmoved) k (hengaged k hk)
  · rintro _ ⟨⟩ hcomplete j hj
    rw [hsame.inTime]
    by_cases hji : j = i
    · subst hji
      rw [update_self] at hj
      rcases hs' with ⟨rfl, -⟩ | rfl | rfl | ⟨-, hpart⟩
      · exact hj.elim
      · exact hj.elim
      · exact hj.elim
      · rw [hcomplete] at hpart
        contradiction
    · rw [update_of_ne hji] at hj
      exact hsole hji hj.engaged
  · by_cases hji : j = i
    · subst hji
      rw [update_self] at hj
      rcases hs' with ⟨rfl, hcomplete⟩ | rfl | rfl | ⟨rfl, -⟩
      · obtain rfl := ModelPhase.recorded.inj hj
        exact ⟨rfl, hcomplete, hsame.holder.trans hholder⟩
      all_goals contradiction
    · rw [update_of_ne hji] at hj
      obtain ⟨hold, hcomplete, -⟩ := h.written j old hj
      rw [hincomplete hold] at hcomplete
      contradiction
  · by_cases hji : j = i
    · subst hji
      rw [update_self] at hj
      rcases hs' with ⟨rfl, -⟩ | rfl | rfl | ⟨rfl, -⟩ <;> contradiction
    · rw [update_of_ne hji] at hj
      refine .inr ?_
      rcases h.replaying j old hj with hold | ⟨hpart, k, hmem⟩
      · obtain ⟨k, hmem⟩ := h.history old hold
        exact ⟨hincomplete hold, k, mem_cons_of_mem _ hmem⟩
      · exact ⟨hpart, k, mem_cons_of_mem _ hmem⟩
  · rintro _ ⟨⟩
    exact ⟨i, mem_cons_self⟩

/-- A claim is taken, when no other attempt that is in time holds one, and the step is not made. -/
theorem SoleInv.take (h : SoleInv ttlMs w ph) {mine : ModelClaimRecord} {e : ModelEvent R P}
    (he : e.taking = some (i, mine)) (hs' : s' = .licensed ∨ s' = .done)
    (hopen : ∀ record ∈ w.record, record.complete = false)
    (hothers : ∀ j ≠ i, (ph j).Engaged → w.inTime j ttlMs = false)
    (hlooked : ∀ j ≠ i, ∀ t existing, ph j = .looked t existing → e.isReplaced) :
    SoleInv ttlMs { w with claim := some mine, trace := e :: w.trace } (update ph i s') := by
  have hat (A : ModelPhase R P → Prop) (hA : ¬A .licensed ∧ ¬A .done) {j : ℕ}
      (hj : A (update ph i s' j)) : j ≠ i ∧ A (ph j) := by
    by_cases hji : j = i
    · subst hji
      rw [update_self] at hj
      rcases hs' with rfl | rfl
      · exact absurd hj hA.1
      · exact absurd hj hA.2
    · rw [update_of_ne hji] at hj
      exact ⟨hji, hj⟩
  have hin {j : ℕ} (hji : j ≠ i) :
      ModelWorld.inTime { w with claim := some mine, trace := e :: w.trace } j ttlMs =
        w.inTime j ttlMs := by
    simp only [ModelWorld.inTime, ModelWorld.taken, findSome?_cons, he, Option.bind_some,
      if_neg hji.symm]
  refine ⟨nofun, fun j t hj => ?_, fun j hj htime => ?_, fun j t existing hj hunmoved => ?_,
    fun record hw hcomplete => ?_, fun j record hj => ?_, fun j record hj => ?_, fun record hw => ?_⟩
  · exact h.timed j t (hat (·.time = some t) ⟨nofun, nofun⟩ hj).2
  · by_cases hji : j = i
    · subst hji
      simp only [ModelWorld.holder, ModelWorld.taken, findSome?_cons, he, Option.bind_some, if_true,
        Option.map_some, and_self]
    · rw [update_of_ne hji] at hj
      rw [hin hji, hothers j hji hj] at htime
      cases htime
  · obtain ⟨hji, hj⟩ := hat (· = .looked t existing) ⟨nofun, nofun⟩ hj
    have hreplaced := hlooked j hji t existing hj
    cases e <;> contradiction
  · rw [hopen record hw] at hcomplete
    cases hcomplete
  · obtain ⟨-, hj⟩ := hat (· = .recorded record) ⟨nofun, nofun⟩ hj
    obtain ⟨hw, hcomplete, -⟩ := h.written j record hj
    rw [hopen record hw] at hcomplete
    cases hcomplete
  · obtain ⟨-, hj⟩ := hat (· = .replaying record) ⟨nofun, nofun⟩ hj
    exact (h.replaying j record hj).imp_right fun h => ⟨h.1, h.2.imp fun _ hmem => mem_cons_of_mem _ hmem⟩
  · obtain ⟨j, hmem⟩ := h.history record hw
    exact ⟨j, mem_cons_of_mem _ hmem⟩

theorem fresh_of_le {claim : ModelClaimRecord} {t now : Int} (h : claim.fresh now ttlMs)
    (ht : t ≤ now) : claim.fresh t ttlMs := by
  simp only [ModelClaimRecord.fresh, decide_eq_true_eq] at h ⊢
  exact ⟨h.1, by omega⟩

/-- An attempt reads the claim that it has lost to, and it is not fresh. -/
theorem SoleInv.look (h : SoleInv ttlMs w ph) {t : Int} (hi : ph i = .lost t)
    (hstale : ¬w.claim.any (·.fresh t ttlMs)) :
    SoleInv ttlMs { w with trace := .looked i w.claim :: w.trace }
      (update ph i (.looked t w.claim)) := by
  have hsame : Untaken i w { w with trace := .looked i w.claim :: w.trace } :=
    untaken_cons rfl rfl rfl fun j hj existing he => hj (ModelEvent.looked.inj he).1.symm
  have hat (A : ModelPhase R P → Prop) (hA : A (.looked t w.claim) → A (.lost t)) {j : ℕ}
      (hj : A (update ph i (.looked t w.claim) j)) : A (ph j) := by
    by_cases hji : j = i
    · subst hji
      rw [update_self] at hj
      exact hi ▸ hA hj
    · rwa [update_of_ne hji] at hj
  -- Whoever is in time holds the claim that has been read.
  have hlate (j : ℕ) (hj : (ph j).Engaged) : w.inTime j ttlMs = false := by
    refine Bool.eq_false_iff.2 fun hin => hstale ?_
    rw [(h.holds j hj hin).2]
    obtain ⟨mine, htaken, hfresh⟩ := (Option.any_eq_true ..).1 hin
    exact (Option.any_eq_true ..).2 ⟨mine, htaken, fresh_of_le hfresh (h.timed i t (hi ▸ rfl))⟩
  refine ⟨fun hw => ?_, fun j u hj => ?_, fun j hj htime => ?_, fun j u existing hj hunmoved k hk => ?_,
    fun record hw hcomplete j hj => ?_, fun j record hj => ?_, fun j record hj => ?_,
    fun record hw => ?_⟩
  · exact absurd (hi ▸ trivial) ((h.unclaimed hw).2 i).2
  · exact h.timed j u (hat (·.time = some u) id hj)
  · rw [hsame.inTime] at htime
    rw [hsame.holder, hsame.taken]
    exact h.holds j (hat (·.Engaged) id hj) htime
  · rw [hsame.inTime]
    exact hlate k (hat (·.Engaged) id hk)
  · rw [hsame.inTime]
    exact h.complete record hw hcomplete j (hat (·.MayWrite) id hj)
  · rw [hsame.holder]
    exact h.written j record (hat (· = .recorded record) nofun hj)
  · exact (h.replaying j record (hat (· = .replaying record) nofun hj)).imp_right fun h =>
      ⟨h.1, h.2.imp fun _ hmem => mem_cons_of_mem _ hmem⟩
  · obtain ⟨j, hmem⟩ := h.history record hw
    exact ⟨j, mem_cons_of_mem _ hmem⟩

theorem SoleInv.step (h : SoleInv ttlMs w ph) (hs : ModelStep c ttlMs (ph i) o r s')
    (he : ModelEffect w i o r w') (hok : Orderly ttlMs w i o r) :
    SoleInv ttlMs w' (update ph i s') := by
  have hsame {o : ModelOp R P} {r : o.Res R P} (hs : ModelStep c ttlMs (ph i) o r s')
      (he : ModelEffect w i o r w) (hclaim : ∀ mine, o ≠ .claim mine) (hput : ∀ record, o ≠ .put record)
      (hlook : o ≠ .getClaim) (hmark : ∀ mine, o ≠ .putClaim mine) : SoleInv ttlMs w (update ph i s') :=
    h.quiet (quiet_step hs he hclaim hput hlook hmark) (untaken_of_trace rfl rfl) rfl id
      fun _ _ _ => rfl
  cases he with
  | recorded => exact h.put hs hok
  | claimed hw hwon =>
    obtain ⟨hnone, hidle⟩ := h.unclaimed hw
    refine h.take rfl (hs.claims hwon) ?_ (fun j _ hj => absurd hj (hidle j).1)
      fun j _ t existing hj => absurd (hj ▸ trivial) (hidle j).2
    rw [hnone]
    exact nofun
  | lost hw hwon =>
    exact h.quiet (quiet_lost hs hw hwon) (untaken_cons rfl rfl rfl fun _ _ _ => nofun) rfl id
      fun _ _ _ => rfl
  | looked =>
    have hlooked : Untaken i w { w with trace := .looked i w.claim :: w.trace } :=
      untaken_cons rfl rfl rfl fun j hj existing he => hj (ModelEvent.looked.inj he).1.symm
    rcases hs.looks with ⟨record, hi, rfl⟩ | rfl | ⟨t, hi, hstale, rfl⟩
    · exact h.quiet (quiet_refl (by rw [hi]; exact nofun)) hlooked rfl id fun _ _ _ => rfl
    · exact h.quiet quiet_done hlooked rfl id fun _ _ _ => rfl
    · exact h.look hi hstale
  | replaced hmine =>
    have hmarks := hs.marks
    rw [if_pos hmine] at hmarks
    obtain ⟨⟨t, existing, hi⟩, hs'⟩ := hmarks
    rw [Orderly, if_pos hmine] at hok
    exact h.take rfl hs' hok.2 (fun j _ hj => h.looked i t existing hi hok.1 j hj)
      fun _ _ _ _ _ => rfl
  | settled hmine =>
    have hmarks := hs.marks
    rw [if_neg hmine] at hmarks
    rw [Orderly, if_neg hmine] at hok
    -- Who marks the claim holds it.
    have hmine : w.holder = some i ∧ ¬s'.Engaged ∧ Unmoved w (ph i) s' := by
      rcases hmarks with ⟨record, hi, rfl⟩ | ⟨hi, rfl⟩
      · exact ⟨(h.written i record hi).2.2, by rw [hi]; exact id, quiet_refl (by rw [hi]; exact nofun)⟩
      · exact ⟨(h.holds i (hi ▸ trivial) hok).1, id, quiet_done⟩
    refine h.quiet hmine.2.2 (untaken_of_trace rfl rfl) rfl nofun fun j hj htime => ?_
    by_cases hji : j = i
    · subst hji
      rw [update_self] at hj
      exact absurd hj hmine.2.1
    · rw [update_of_ne hji] at hj
      exact absurd (Option.some.inj ((h.holds j hj htime).1.symm.trans hmine.1)) hji
  | called =>
    exact h.quiet (quiet_step (i := i) hs .called nofun nofun nofun nofun)
      (untaken_cons rfl rfl rfl fun _ _ _ => nofun) rfl id fun _ _ _ => rfl
  | readRun => exact hsame hs .readRun nofun nofun nofun nofun
  | get => exact hsame hs .get nofun nofun nofun nofun
  | now => exact hsame hs .now nofun nofun nofun nofun
  | passive hpassive =>
    refine hsame hs (.passive hpassive) ?_ ?_ ?_ ?_
    · rintro mine rfl
      contradiction
    · rintro record rfl
      contradiction
    · rintro rfl
      contradiction
    · rintro mine rfl
      contradiction
  | thrown => exact h.quiet (quiet_thrown hs) (untaken_of_trace rfl rfl) rfl id fun _ _ _ => rfl

theorem ModelStep.calling {r : Except ModelError Unit} (hs : ModelStep c ttlMs s .call r s') :
    s.MayWrite := by
  cases hs with
  | call | callThrown => trivial
  | thrown h hs =>
    cases hs
    contradiction

/-- A complete record stays. -/
theorem record_stays (h : SoleInv ttlMs w ph) (hs : ModelStep c ttlMs (ph i) o r s')
    (he : ModelEffect w i o r w') (hok : Orderly ttlMs w i o r) {record : StepRecord R P}
    (hrecord : w.record = some record) (hcomplete : record.complete) : w'.record = some record := by
  cases he with
  | recorded =>
    have hlate := h.complete record hrecord hcomplete i hs.writes.1
    rw [show w.inTime i ttlMs from hok] at hlate
    cases hlate
  | _ => exact hrecord

end Sole

/-! ## Every run -/

/-- While the claim of another attempt is running and fresh, the provider is not called. -/
def Alone (ttlMs : Int) (w : ModelWorld R P) (i : ℕ) (o : ModelOp R P) (_ : o.Res R P) : Prop :=
  o = .call → ∀ j, w.holder = some j → j ≠ i → ∀ claim ∈ w.claim, claim.fresh w.clock ttlMs = false

section Runs

variable {ttlMs t : Int} {calls : ℕ → ModelCall} {ms : List (Move (ModelAnswer R P) ModelEnv)}

/-- The run so far. -/
def modelAfter (t : Int) (calls : ℕ → ModelCall) (ms : List (Move (ModelAnswer R P) ModelEnv)) :
    Conf (ModelOp R P) (ModelOp.Res R P) (Except ModelError (StepResult R P)) (ModelWorld R P) :=
  modelMachine.play (modelStart t calls) ms

/-- A complete record is not replaced. -/
def Kept (t : Int) (calls : ℕ → ModelCall) (ms : List (Move (ModelAnswer R P) ModelEnv)) : Prop :=
  ∀ n m record, n ≤ m → (modelAfter t calls (ms.take n)).world.record = some record →
    record.complete → (modelAfter t calls (ms.take m)).world.record = some record

/-- All attempts that return, return the same. -/
def SameResult (t : Int) (calls : ℕ → ModelCall) (ms : List (Move (ModelAnswer R P) ModelEnv)) :
    Prop :=
  ∀ i j x y, (modelAfter t calls ms).procs i = .pure (.ok x) →
    (modelAfter t calls ms).procs j = .pure (.ok y) → x = y

/-- All attempts that return, return what the complete record says, or replay a record that was cut
    off. -/
def SameRecord (t : Int) (calls : ℕ → ModelCall) (ms : List (Move (ModelAnswer R P) ModelEnv)) :
    Prop :=
  ∀ i x, (modelAfter t calls ms).procs i = .pure (.ok x) → ∃ record, x = record.replay ∧
    ((modelAfter t calls ms).world.record = some record ∧ record.complete ∨
      record.complete = false ∧ ∃ j, .recorded j record ∈ (modelAfter t calls ms).world.trace)

theorem model_start_follows (hcalls : ∀ i, (calls i).exclusive = some ttlMs) (i : ℕ) :
    ((modelStart (R := R) (P := P) t calls).procs i).Follows (ModelStep (calls i) ttlMs) .start
      fun s r => ∀ x, r = .ok x → Returns s x :=
  attempt_follows (hcalls i)

theorem model_start_inv : ModelInv (R := R) (P := P) ttlMs calls (modelStart t calls).world
    fun _ => .start :=
  ⟨fun _ => rfl, fun _ => nofun, Nat.zero_le 1⟩

theorem model_start_sole :
    SoleInv (R := R) (P := P) ttlMs (modelStart t calls).world fun _ => .start :=
  ⟨fun _ => ⟨rfl, fun _ => ⟨id, id⟩⟩, fun _ _ => nofun, fun _ => nofun, fun _ _ _ => nofun,
    fun _ => nofun, fun _ _ => nofun, fun _ _ => nofun, fun _ => nofun⟩

/-- Time passes, and who was late is so. -/
theorem SoleInv.env {w : ModelWorld R P} {ph : ℕ → ModelPhase R P} (h : SoleInv ttlMs w ph)
    (e : ModelEnv) : SoleInv ttlMs (modelMachine.env e w) ph := by
  cases e with
  | cancel =>
    exact ⟨h.unclaimed, h.timed, h.holds, h.looked, h.complete, h.written, h.replaying, h.history⟩
  | later ms =>
    have hin {i : ℕ} (hi : (modelMachine.env (.later ms) w).inTime i ttlMs) : w.inTime i ttlMs := by
      obtain ⟨mine, htaken, hfresh⟩ := (Option.any_eq_true ..).1 hi
      exact (Option.any_eq_true ..).2 ⟨mine, htaken, fresh_of_le hfresh (by simp only [modelMachine]; omega)⟩
    have hlate {i : ℕ} (hi : w.inTime i ttlMs = false) :
        (modelMachine.env (.later ms) w).inTime i ttlMs = false :=
      Bool.eq_false_iff.2 fun h => by rw [hin h] at hi; cases hi
    refine ⟨h.unclaimed, fun i t hi => ?_, fun i hi htime => h.holds i hi (hin htime),
      fun i t existing hi hunmoved j hj => hlate (h.looked i t existing hi hunmoved j hj),
      fun record hw hcomplete i hi => hlate (h.complete record hw hcomplete i hi), h.written,
      h.replaying, h.history⟩
    exact Int.le_trans (h.timed i t hi) (by simp only [modelMachine]; omega)

theorem sole_run (hcalls : ∀ i, (calls i).exclusive = some ttlMs)
    (hms : modelMachine.Meets (Orderly ttlMs) (modelStart t calls) ms) :
    ∃ ph, SoleInv ttlMs (modelAfter t calls ms).world ph ∧
      ∀ i, ((modelAfter t calls ms).procs i).Follows (ModelStep (calls i) ttlMs) (ph i)
        fun s r => ∀ x, r = .ok x → Returns s x :=
  Machine.play_follows (fun _ _ _ _ _ _ h hs hok => h.step hs model_exec_effect hok)
    (fun _ _ e h => h.env e) model_start_sole (model_start_follows hcalls) hms

theorem alone_run (hcalls : ∀ i, (calls i).exclusive = some ttlMs)
    (hms : modelMachine.Meets (Orderly ttlMs) (modelStart t calls) ms) :
    modelMachine.Meets (Alone ttlMs) (modelStart t calls) ms := by
  refine Machine.meets_follows (J := SoleInv ttlMs)
    (fun _ _ _ _ _ _ h hs hok => h.step hs model_exec_effect hok) (fun _ _ e h => h.env e) ?_
    model_start_sole (model_start_follows hcalls) hms
  rintro w ph i a _ s' h hs hok rfl j hj hne
  have hholder := hj.symm.trans (h.holds i hs.calling.engaged hok).1
  exact absurd (Option.some.inj hholder) hne

theorem kept_run (hcalls : ∀ i, (calls i).exclusive = some ttlMs)
    (hms : modelMachine.Meets (Orderly ttlMs) (modelStart t calls) ms) : Kept t calls ms := by
  intro n m record hnm hrecord hcomplete
  -- From the state in which the record is complete, no one may write it.
  exact Machine.keeps_follows (J := SoleInv ttlMs) (P := fun w => w.record = some record)
    (fun _ _ _ _ _ _ h hs hok => h.step hs model_exec_effect hok) (fun _ _ e h => h.env e)
    (fun _ _ _ _ _ _ h hw hs hok => record_stays h hs model_exec_effect hok hw hcomplete)
    (fun _ _ e _ hw => by cases e <;> exact hw) model_start_sole (model_start_follows hcalls) hms hnm
    hrecord

theorem same_record_run (hcalls : ∀ i, (calls i).exclusive = some ttlMs)
    (hms : modelMachine.Meets (Orderly ttlMs) (modelStart t calls) ms) : SameRecord t calls ms := by
  obtain ⟨ph, hsole, hf⟩ := sole_run hcalls hms
  intro i x hx
  have hreturns := hf i
  rw [hx] at hreturns
  obtain ⟨record, hphase | hphase, rfl⟩ := hreturns x rfl
  · refine ⟨record, rfl, ?_⟩
    rcases hsole.replaying i record hphase with hrecord | hcut
    · rcases hcomplete : record.complete with _ | _
      · exact .inr ⟨rfl, hsole.history record hrecord⟩
      · exact .inl ⟨hrecord, rfl⟩
    · exact .inr hcut
  · obtain ⟨hrecord, hcomplete, -⟩ := hsole.written i record hphase
    exact ⟨record, rfl, .inl ⟨hrecord, hcomplete⟩⟩

/-- With `exclusiveStep`, an attempt calls the provider when it has won the claim or has replaced
    one that was not running and fresh. If claims are replaced in order, and those who hold them are in
    time, one attempt calls it at a time, and what one has recorded stays. -/
theorem exclusive_steps (ttlMs t : Int) (calls : ℕ → ModelCall)
    (hcalls : ∀ i, (calls i).exclusive = some ttlMs) (ms : List (Move (ModelAnswer R P) ModelEnv)) :
    Licensed ttlMs (modelAfter t calls ms).world ∧
      (modelMachine.Meets (Orderly ttlMs) (modelStart t calls) ms →
        modelMachine.Meets (Alone ttlMs) (modelStart t calls) ms ∧ Kept t calls ms ∧
          SameRecord t calls ms) := by
  obtain ⟨ph, hinv, -⟩ := Machine.play_follows (J := ModelInv ttlMs calls)
    (fun _ _ _ _ _ _ h hs _ => h.step hs model_exec_effect)
    (fun _ _ e h => by cases e <;> exact ⟨h.history, h.unclaimed, h.once⟩) model_start_inv
    (model_start_follows hcalls) (Machine.meets_true (modelStart t calls) ms)
  exact ⟨hinv.licensed, fun hms => ⟨alone_run hcalls hms, kept_run hcalls hms,
    same_record_run hcalls hms⟩⟩

end Runs

/-! ## Claims that are replaced twice, or late -/

/-- Attempts at a step that is not streamed, for 30 time units. -/
def exclusiveCalls (_ : ℕ) : ModelCall := ⟨.generate, some 30, none, false, false, false⟩

/-- The attempt `i` makes `n` operations; the provider answers `i`. -/
def modelMoves (i n : ℕ) : List (Move (ModelAnswer ℕ Unit) ModelEnv) :=
  List.replicate n (.run i ⟨i, [], 0, none, false⟩)

/-- The attempt `1` finds no record; the attempt `0` is made, and has succeeded when the claim of the
    attempt `1` is lost to it. -/
def leftOver : List (Move (ModelAnswer ℕ Unit) ModelEnv) :=
  modelMoves 1 1 ++ modelMoves 0 9 ++ modelMoves 1 11

/-- The attempt `2` claims and crashes; both others find its claim stale, and replace it. -/
def bothReplace : List (Move (ModelAnswer ℕ Unit) ModelEnv) :=
  modelMoves 2 4 ++ [.env (.later 40)] ++ modelMoves 0 5 ++ modelMoves 1 5 ++ modelMoves 0 1 ++
    modelMoves 1 1 ++ modelMoves 0 1

/-- The attempt `2` claims, and calls when its claim has become stale, and has been replaced. -/
def lateCall : List (Move (ModelAnswer ℕ Unit) ModelEnv) :=
  modelMoves 2 4 ++ [.env (.later 40)] ++ modelMoves 0 6 ++ modelMoves 2 1

/-- The attempt `2` claims and crashes, the attempt `0` takes its place, the attempt `1` comes later. -/
def crashReplaced : List (Move (ModelAnswer ℕ Unit) ModelEnv) :=
  modelMoves 2 4 ++ [.env (.later 40)] ++ modelMoves 0 11 ++ modelMoves 1 1

instance (w : ModelWorld ℕ Unit) (i : ℕ) (o : ModelOp ℕ Unit) (r : o.Res ℕ Unit) :
    Decidable (Orderly 30 w i o r) := by
  cases o <;> dsimp only [Orderly] <;> infer_instance

instance (w : ModelWorld ℕ Unit) (i : ℕ) (o : ModelOp ℕ Unit) (r : o.Res ℕ Unit) :
    Decidable (Alone 30 w i o r) :=
  inferInstanceAs (Decidable (o = .call → ∀ j ∈ w.holder, j ≠ i → ∀ claim ∈ w.claim,
    claim.fresh w.clock 30 = false))

/-- After a crash a claim is replaced; its record stays, and is replayed. -/
theorem exclusive_steps_replayed :
    (modelAfter 0 exclusiveCalls crashReplaced).procs 1 = .pure (.ok (.generated 0)) ∧
      ∃ record, StepResult.generated 0 = record.replay ∧
        (modelAfter 0 exclusiveCalls crashReplaced).world.record = some record := by
  refine ⟨rfl, ?_⟩
  obtain ⟨-, h⟩ := exclusive_steps 30 0 exclusiveCalls (fun _ => rfl) crashReplaced
  obtain ⟨record, hreplay, ⟨hrecord, -⟩ | ⟨hcut, -⟩⟩ := (h (by decide +kernel)).2.2 1 (.generated 0) rfl
  · exact ⟨record, hreplay, hrecord⟩
  · rcases record with result | ⟨parts, rest, cut⟩
    · contradiction
    · rw [StepRecord.replay] at hreplay
      split at hreplay <;> contradiction

/-- The provider is called under a fresh claim of another attempt, by one that has replaced the same
    claim and by one whose claim has been replaced; a complete record is replaced, and two attempts
    return different results. -/
theorem exclusion_fails : ¬modelMachine.Meets (Alone 30) (modelStart 0 exclusiveCalls) bothReplace ∧
    ¬modelMachine.Meets (Alone 30) (modelStart 0 exclusiveCalls) lateCall ∧
    ¬Kept 0 exclusiveCalls leftOver ∧ ¬SameResult 0 exclusiveCalls leftOver := by
  refine ⟨by decide +kernel, by decide +kernel, fun h => ?_, fun h => ?_⟩
  · have hkept := h 12 21 (.generated 0) (by decide) rfl rfl
    contradiction
  · have hsame := h 0 1 (.generated 0) (.generated 1) rfl rfl
    contradiction

end Gnldev.Durable
