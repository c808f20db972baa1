import Gnldev.Workflow.SideEffect.Certified
import Mathlib.Order.Basic

/-!
# How long an adopted claim protects

The workers of a step read one clock, that of the journal. Who adopts a claim writes the time it has
read before it asked whether the effect is there, so that the claim is older than its adoption; from
then on the others judge the claim by what it carries.

As long as nobody adopts a claim by a time at which it only seems to be old, each adoption is the last
one for the time to live, unless the attempt has ended before (`adoption_protected`).
-/

namespace Gnldev.Workflow

open Prog Function

variable {V : Type}

/-! ## The clock -/

/-- A step, the clock, and what has happened, with its times, the latest first. -/
structure TimedWorld (V : Type) where
  step : StepWorld V
  clock : Int
  timed : List (Int × StepEvent V)

/-- The step has changed, and its new events have their time. -/
def TimedWorld.next (w : TimedWorld V) (s : StepWorld V) : TimedWorld V :=
  ⟨s, w.clock,
    (s.trace.take (s.trace.length - w.step.trace.length)).map (w.clock, ·) ++ w.timed⟩

/-- Workers that read the clock, which goes on between their operations. -/
def timedMachine : Machine (StepOp V) StepOp.Res (TimedWorld V) (StepAnswer V) ℕ where
  exec i a o w :=
    let (r, s) := stepMachine.exec i { a with now := w.clock } o w.step
    (r, w.next s)
  env n w := { w with clock := w.clock + n }

/-- Workers at the step, before any of them. -/
def timedStart (d : StepDurability) (t₀ : Int) :
    Conf (StepOp V) StepOp.Res (Except StepError (Option V)) (TimedWorld V) :=
  ⟨⟨⟨none, none, []⟩, t₀, []⟩, fun _ => d.runStep.run⟩

/-- The attempt of the worker has ended without an output: its claim is stamped. -/
def Stamped (timed : List (Int × StepEvent V)) (i : ℕ) : Prop := ∃ t r, (t, .stamped i r) ∈ timed

/-- After an adoption there is no other one for the time to live, unless the attempt has ended. -/
def Protects (ttl : Int) (timed : List (Int × StepEvent V)) : Prop :=
  ∀ post T' j cur' s' past, timed = post ++ (T', .adopted j cur' s') :: past →
    ∀ T i cur s, (T, .adopted i cur s) ∈ past → Stamped past i ∨ T + ttl ≤ T'

/-- The body of the worker has been called, and has not ended. -/
def Running (timed : List (Int × StepEvent V)) (i : ℕ) : Prop :=
  (∃ t, (t, .invoked i) ∈ timed) ∧ ∀ t outcome, (t, .ended i outcome) ∉ timed

/-- Of two workers that have adopted claims and whose bodies run, the first one is not protected any
    more. -/
def Apart (ttl : Int) (w : TimedWorld V) : Prop :=
  ∀ post T' j cur' s' past, w.timed = post ++ (T', .adopted j cur' s') :: past →
    ∀ T i cur s, (T, .adopted i cur s) ∈ past → Running w.timed i → Running w.timed j →
      T + ttl ≤ w.clock

/-- A claim is not adopted by a time at which it seems to be old, but has been adopted for less than
    the time to live. -/
def Unhurried (ttl : Int) (w : TimedWorld V) (_ : ℕ) : (o : StepOp V) → o.Res → Prop
  | .adopt cur next, _ => w.step.claim = some cur →
    ∀ T i cur' s, (T, .adopted i cur' s) ∈ w.timed → cur = ⟨s, false, false⟩ →
      ¬(s + ttl ≤ next.startedAt ∧ next.startedAt < T + ttl)
  | _, _ => True

/-! ## What a worker can do -/

/-- What a worker has learned, and done. -/
structure AdoptPhase where
  /-- The claim it has read. -/
  read : Option StepClaimRecord
  at_ : Option Int
  /-- The claim it has read before the clock, and the time. -/
  judged : Option (StepClaimRecord × Int)
  mine : Option StepClaimRecord
  /-- Its body has ended. -/
  finished : Bool
  /-- It has tried to stamp its claim. -/
  stamped : Bool

def AdoptPhase.init : AdoptPhase := ⟨none, none, none, none, false, false⟩

def AdoptPhase.learn (s : AdoptPhase) : (o : StepOp V) → o.Res → AdoptPhase
  | .getClaim, .ok cur => { s with read := cur }
  | .now, .ok t => { s with at_ := some t, judged := s.read.map (·, t) }
  | .claim r, .ok won => { s with mine := if won then some r else s.mine }
  | .adopt _ next, .ok won => { s with mine := if won then some next else s.mine }
  | .start, .error _ => { s with finished := true }
  | .finish, _ => { s with finished := true }
  | .stamp _ _, _ => { s with stamped := true }
  | _, _ => s

/-- A claim carries the time its worker has read, and one that is adopted has been judged by it. -/
def MayHold (ttl : Int) (s : AdoptPhase) : StepOp V → Prop
  | .claim r => ∃ t, s.at_ = some t ∧ r = ⟨t, false, false⟩
  | .adopt cur next => ∃ t, s.judged = some (cur, t) ∧ next = ⟨t, false, false⟩ ∧
    (cur.released ∨ cur.failed ∨ cur.startedAt + ttl ≤ t)
  | .stamp mine next => s.mine = some mine ∧ s.finished ∧ s.stamped = false ∧
    next.startedAt = mine.startedAt
  | _ => True

def HoldStep (ttl : Int) (s : AdoptPhase) (o : StepOp V) (r : o.Res) (s' : AdoptPhase) : Prop :=
  MayHold ttl s o ∧ s' = s.learn o r

section Worker

variable {d : StepDurability} {ttl : Int} {P : AdoptPhase → Prop}

theorem hold_runs {o : StepOp V} {Q : AdoptPhase → o.Ans → Prop}
    {X : AdoptPhase → StepError → Prop} (ho : ∀ s, P s → MayHold ttl s o)
    (hQ : ∀ s r, P s → Q (s.learn o (.ok r)) r) (hX : ∀ s e, P s → X (s.learn o (.error e)) e) :
    Runs (HoldStep ttl) P (await_ o) Q X := by
  intro s hs r
  refine ⟨_, ⟨ho s hs, rfl⟩, ?_⟩
  rcases r with e | r
  · exact hX s e hs
  · exact hQ s r hs

/-- An operation that teaches nothing. -/
theorem calm_runs {o : StepOp V} (ho : ∀ s, P s → MayHold ttl s o)
    (hl : ∀ (s : AdoptPhase) r, s.learn o r = s) :
    Runs (HoldStep ttl) P (await_ o) (fun s _ => P s) fun s _ => P s :=
  hold_runs ho (fun s r hs => by rwa [hl]) fun s e hs => by rwa [hl]

theorem getOutput_runs : Runs (HoldStep ttl) P (await_ .get : SM V (Option V))
    (fun s _ => P s) fun s _ => P s := by
  refine calm_runs (fun _ _ => trivial) fun s r => ?_
  rcases r with e | r <;> rfl

theorem settleOutput_runs (out : Option V) :
    Runs (HoldStep ttl) P (settle out) (fun s _ => P s) fun s _ => P s := by
  refine Runs.bind (calm_runs (fun _ _ => trivial) fun s r => ?_) fun won => ?_
  · rcases r with e | r <;> rfl
  · rcases won with _ | _
    · exact Runs.bind getOutput_runs fun winner => runs_pure fun _ hs => hs
    · exact runs_pure fun _ hs => hs

/-- Its claim is `mine`, and it has not been stamped. -/
def Holding (mine : StepClaimRecord) (s : AdoptPhase) : Prop := s.mine = some mine ∧ s.stamped = false

theorem holdBody_runs (mine : StepClaimRecord) :
    Runs (HoldStep ttl) (Holding mine) (runBody mine : SM V (Option V)) (fun _ _ => True)
      fun _ _ => True := by
  refine Runs.tryCatch (Y := fun s _ => Holding mine s ∧ s.finished = true) ?_ fun e => ?_
  · refine Runs.bind (Q := fun s _ => Holding mine s) ?_ fun _ => ?_
    · exact hold_runs (fun _ _ => trivial) (fun _ _ hs => hs) fun _ _ hs => ⟨hs, rfl⟩
    refine Runs.bind (Q := fun s _ => Holding mine s ∧ s.finished = true) ?_ fun out => ?_
    · exact hold_runs (fun _ _ => trivial) (fun _ _ hs => ⟨hs, rfl⟩) fun _ _ hs => ⟨hs, rfl⟩
    · exact (settleOutput_runs out).conseq (fun _ h => h) (fun _ _ _ => trivial) fun _ _ h => h
  · refine Runs.bind (Q := fun _ _ => True) ?_ fun _ => runs_throw fun _ _ => trivial
    refine Runs.tryCatch (Y := fun _ _ => True) ?_ fun _ => runs_pure fun _ _ => trivial
    refine Runs.bind (Q := fun _ _ => True) ?_ fun _ => runs_pure fun _ _ => trivial
    refine hold_runs (fun s hs => ⟨hs.1.1, hs.2, hs.1.2, ?_⟩) (fun _ _ _ => trivial)
      fun _ _ _ => trivial
    rcases e <;> rfl

theorem holdUnlessLanded_runs (mine : StepClaimRecord) :
    Runs (HoldStep ttl) (Holding mine) (runUnlessLanded mine : SM V (Option V)) (fun _ _ => True)
      fun _ _ => True := by
  refine Runs.bind getOutput_runs.drop
    fun out => ?_
  rcases out with _ | landed
  · exact holdBody_runs mine
  · exact runs_pure fun _ _ => trivial

/-- It has judged the claim `cur` at the time `t`. -/
def Judging (cur : Option StepClaimRecord) (t : Int) (s : AdoptPhase) : Prop :=
  s.at_ = some t ∧ s.judged = cur.map (·, t) ∧ s.stamped = false

theorem holdAdopted_runs {cur : StepClaimRecord} {t : Int}
    (hold : cur.released ∨ cur.failed ∨ cur.startedAt + ttl ≤ t) :
    Runs (HoldStep ttl) (Judging (some cur) t) (do
      adoptClaim cur ⟨t, false, false⟩
      runUnlessLanded ⟨t, false, false⟩ : SM V (Option V)) (fun _ _ => True) fun _ _ => True := by
  refine Runs.bind (Q := fun s _ => Holding ⟨t, false, false⟩ s) ?_ fun _ => holdUnlessLanded_runs _
  refine Runs.bind (Q := fun s (won : Bool) => won = true → Holding ⟨t, false, false⟩ s) ?_
    fun won => ?_
  · refine hold_runs (fun s hs => ⟨t, hs.2.1, rfl, hold⟩) (fun s won hs => ?_) fun _ _ _ => trivial
    rintro rfl
    exact ⟨rfl, hs.2.2⟩
  · rcases won with _ | _
    · exact runs_throw fun _ _ => trivial
    · exact runs_pure fun _ hs => hs rfl

theorem holdResolved_runs {cur : StepClaimRecord} {t : Int}
    (hold : cur.failed ∨ cur.startedAt + d.ttl ≤ t) :
    Runs (HoldStep d.ttl) (Judging (some cur) t) (d.resolve cur t : SM V (Option V))
      (fun _ _ => True) fun _ _ => True := by
  refine Runs.guard (fun _ _ => trivial)
    (Runs.bind (Q := fun s _ => Judging (some cur) t s) ?_ fun r => ?_)
  · refine hold_runs (fun _ _ => trivial) (fun s r hs => ?_) fun _ _ _ => trivial
    exact hs
  · rcases r with output | _ | _
    · exact (settleOutput_runs output).conseq (fun _ h => h) (fun _ _ _ => trivial)
        fun _ _ _ => trivial
    · exact holdAdopted_runs (.inr hold)
    · exact runs_throw fun _ _ => trivial

/-- A claim of the time the worker has read; if it is the first one, the body runs. -/
theorem holdFirst_runs {t : Int} {p : SM V (Option V)}
    (hp : Runs (HoldStep ttl) (fun s => s.stamped = false) p (fun _ _ => True) fun _ _ => True) :
    Runs (HoldStep ttl) (fun s => s.at_ = some t ∧ s.stamped = false) (do
      if ← await_ (.claim ⟨t, false, false⟩) then runBody ⟨t, false, false⟩ else p)
      (fun _ _ => True) fun _ _ => True := by
  refine Runs.bind (Q := fun s (won : Bool) => s.stamped = false ∧
    (won = true → s.mine = some ⟨t, false, false⟩)) ?_ fun won => ?_
  · refine hold_runs (fun s hs => ⟨t, hs.1, rfl⟩) (fun s won hs => ⟨hs.2, ?_⟩) fun _ _ _ => trivial
    rintro rfl
    rfl
  · rcases won with _ | _
    · exact hp.pre fun _ hs => hs.1
    · exact (holdBody_runs _).pre fun _ hs => ⟨hs.2 rfl, hs.1⟩

theorem holdTakenOver_runs : Runs (HoldStep d.ttl) (fun s => s.stamped = false)
    (d.takeOver : SM V (Option V)) (fun _ _ => True) fun _ _ => True := by
  refine Runs.bind getOutput_runs.drop
    fun out => ?_
  rcases out with _ | done
  case some => exact runs_pure fun _ _ => trivial
  refine Runs.bind (Q := fun s cur => s.read = cur ∧ s.stamped = false) ?_ fun cur => ?_
  · exact hold_runs (fun _ _ => trivial) (fun _ _ hs => ⟨rfl, hs⟩) fun _ _ _ => trivial
  refine Runs.bind (Q := fun s t => Judging cur t s) ?_ fun t => ?_
  · refine hold_runs (fun _ _ => trivial) (fun s t hs => ⟨rfl, ?_, hs.2⟩) fun _ _ _ => trivial
    rw [← hs.1]
    rfl
  rcases cur with _ | cur
  · exact (holdFirst_runs (runs_throw fun _ _ => trivial)).pre fun _ hs => ⟨hs.1, hs.2.2⟩
  · simp only
    split
    · next hrel => exact holdAdopted_runs (.inl hrel)
    · split
      · exact runs_throw fun _ _ => trivial
      · next hold =>
        refine holdResolved_runs ?_
        by_cases hfailed : cur.failed = true
        · exact .inl hfailed
        · right
          have hlate : ¬t - cur.startedAt < d.ttl := fun hlt => hold ⟨by simp [hfailed], hlt⟩
          omega

theorem holdClaimed_runs : Runs (HoldStep d.ttl) (fun s => s.stamped = false)
    (d.runSideEffectStep : SM V (Option V)) (fun _ _ => True) fun _ _ => True := by
  refine Runs.guard (fun _ _ => trivial) (Runs.bind
    (Q := fun s t => s.at_ = some t ∧ s.stamped = false) ?_ fun t => holdFirst_runs holdTakenOver_runs)
  exact hold_runs (fun _ _ => trivial) (fun _ _ hs => ⟨rfl, hs⟩) fun _ _ _ => trivial

theorem holdStep_runs : Runs (HoldStep d.ttl) (fun s => s.stamped = false)
    (d.runStep : SM V (Option V)) (fun _ _ => True) fun _ _ => True := by
  refine Runs.bind getOutput_runs.drop
    fun out => ?_
  rcases out with _ | cached
  · exact holdClaimed_runs
  · exact runs_pure fun _ _ => trivial

end Worker

/-! ## What an operation does -/

/-- An event that is no claim, and no stamp. -/
def Calm : StepEvent V → Prop
  | .claimed _ _ | .adopted _ _ _ | .stamped _ _ => False
  | _ => True

/-- What an operation of the worker `i` does to the claim, what happens, and what the worker then
    has. -/
inductive Happens (i : ℕ) (w : TimedWorld V) (o : StepOp V) (res : o.Res) (w' : TimedWorld V) :
    Prop where
  | nothing (hclaim : w'.step.claim = w.step.claim) (htimed : w'.timed = w.timed)
      (hmine : ∀ s : AdoptPhase, (s.learn o res).mine = s.mine)
  | event (e : StepEvent V) (he : Calm e) (hclaim : w'.step.claim = w.step.claim)
      (htimed : w'.timed = (w.clock, e) :: w.timed)
      (hmine : ∀ s : AdoptPhase, (s.learn o res).mine = s.mine)
  | claims (r : StepClaimRecord) (ho : o = .claim r) (hnone : w.step.claim = none)
      (hclaim : w'.step.claim = some r)
      (htimed : w'.timed = (w.clock, .claimed i r.startedAt) :: w.timed)
      (hmine : ∀ s : AdoptPhase, (s.learn o res).mine = s.mine ∨ (s.learn o res).mine = some r)
  | adopts (cur next : StepClaimRecord) (ho : o = .adopt cur next) (hcur : w.step.claim = some cur)
      (hclaim : w'.step.claim = some next)
      (htimed : w'.timed = (w.clock, .adopted i cur next.startedAt) :: w.timed)
      (hmine : ∀ s : AdoptPhase, (s.learn o res).mine = s.mine ∨ (s.learn o res).mine = some next)
  | stamps (mine next : StepClaimRecord) (ho : o = .stamp mine next)
      (hcur : w.step.claim = some mine) (hclaim : w'.step.claim = some next)
      (htimed : w'.timed = (w.clock, .stamped i next) :: w.timed)
      (hmine : ∀ s : AdoptPhase, (s.learn o res).mine = s.mine)

theorem AdoptPhase.learn_error_mine (s : AdoptPhase) (o : StepOp V) (e : StepError) :
    (s.learn o (.error e)).mine = s.mine := by
  rcases o <;> rfl

/-- The same, of an operation that throws. -/
theorem Happens.fails {i : ℕ} {w w' : TimedWorld V} {o : StepOp V} {res : o.Res}
    (h : Happens i w o res w') (e : StepError) : Happens i w o (.error e) w' := by
  have hmine (s : AdoptPhase) : (s.learn o (.error e)).mine = s.mine := s.learn_error_mine o e
  cases h with
  | nothing hclaim htimed => exact .nothing hclaim htimed hmine
  | event e he hclaim htimed => exact .event e he hclaim htimed hmine
  | claims r ho hnone hclaim htimed => exact .claims r ho hnone hclaim htimed fun s => .inl (hmine s)
  | adopts cur next ho hcur hclaim htimed =>
    exact .adopts cur next ho hcur hclaim htimed fun s => .inl (hmine s)
  | stamps mine next ho hcur hclaim htimed => exact .stamps mine next ho hcur hclaim htimed hmine

namespace TimedWorld

variable {w : TimedWorld V} {s : StepWorld V}

theorem next_same (h : s.trace = w.step.trace) : (w.next s).timed = w.timed := by
  simp [next, h]

theorem next_cons {e : StepEvent V} (h : s.trace = e :: w.step.trace) :
    (w.next s).timed = (w.clock, e) :: w.timed := by
  simp [next, h]

end TimedWorld

theorem stepExec_happens (i : ℕ) (a : StepAnswer V) (o : StepOp V) (w : TimedWorld V) :
    Happens i w o (.ok (stepExec i a o w.step).1) (w.next (stepExec i a o w.step).2) := by
  rcases o with _ | out | _ | r | ⟨cur, next⟩ | ⟨mine, next⟩ | _ | ⟨cur, at_⟩ | _ | _
  case claimOutput =>
    simp only [stepExec]
    split <;> exact .nothing rfl (TimedWorld.next_same rfl) fun _ => rfl
  case claim =>
    simp only [stepExec]
    split
    · next hnone => exact .claims r rfl hnone rfl (TimedWorld.next_cons rfl) fun _ => .inr rfl
    · exact .nothing rfl (TimedWorld.next_same rfl) fun _ => rfl
  case adopt =>
    simp only [stepExec]
    split
    · next hcur => exact .adopts cur next rfl hcur rfl (TimedWorld.next_cons rfl) fun _ => .inr rfl
    · exact .nothing rfl (TimedWorld.next_same rfl) fun _ => rfl
  case stamp =>
    simp only [stepExec]
    split
    · next hmine => exact .stamps mine next rfl hmine rfl (TimedWorld.next_cons rfl) fun _ => rfl
    · exact .nothing rfl (TimedWorld.next_same rfl) fun _ => rfl
  case recover =>
    rcases hrec : a.recovery with output | _ | _ <;> simp only [stepExec, hrec]
    · exact .nothing rfl (TimedWorld.next_same rfl) fun _ => rfl
    · exact .event (.notDone i cur at_) trivial rfl (TimedWorld.next_cons rfl) fun _ => rfl
    · exact .nothing rfl (TimedWorld.next_same rfl) fun _ => rfl
  case start => exact .event (.invoked i) trivial rfl (TimedWorld.next_cons rfl) fun _ => rfl
  all_goals exact .nothing rfl (TimedWorld.next_same rfl) fun _ => rfl

theorem timedMachine_exec (i : ℕ) (a : StepAnswer V) (o : StepOp V) (w : TimedWorld V) :
    timedMachine.exec i a o w = ((stepMachine.exec i { a with now := w.clock } o w.step).1,
      w.next (stepMachine.exec i { a with now := w.clock } o w.step).2) := rfl

theorem timedMachine_finish (i : ℕ) (a : StepAnswer V) (w : TimedWorld V) :
    (timedMachine.exec i a .finish w).2.timed = (w.clock, .ended i a.output) :: w.timed :=
  TimedWorld.next_cons rfl

theorem timedMachine_happens (i : ℕ) (a : StepAnswer V) (o : StepOp V) (w : TimedWorld V) :
    Happens i w o (timedMachine.exec i a o w).1 (timedMachine.exec i a o w).2 := by
  by_cases hstart : o = .start
  · subst hstart
    exact stepExec_happens i a .start w
  by_cases hfinish : o = .finish
  · subst hfinish
    refine .event (.ended i a.output) trivial rfl (timedMachine_finish i a w) fun s => ?_
    rcases a.output with e | output <;> rfl
  rw [timedMachine_exec]
  rcases stepMachine_exec_cases hstart hfinish { a with now := w.clock } w.step with
    hexec | ⟨e, w', hexec, rfl | rfl⟩
  all_goals rw [hexec]
  · exact stepExec_happens i _ o w
  · exact .nothing rfl (TimedWorld.next_same rfl) fun s => s.learn_error_mine o _
  · exact (stepExec_happens i _ o w).fails _

/-! ## What a worker knows -/

/-- What the worker `i` knows has happened, and is past. -/
structure HasSeen (w : TimedWorld V) (i : ℕ) (s : AdoptPhase) : Prop where
  read : ∀ c, s.read = some c → c.startedAt ≤ w.clock
  at_ : ∀ t, s.at_ = some t → t ≤ w.clock
  judged : ∀ c t, s.judged = some (c, t) → c.startedAt ≤ t ∧ t ≤ w.clock
  finished : s.finished = true → ∃ t outcome, (t, .ended i outcome) ∈ w.timed
  stamped : Stamped w.timed i → s.stamped = true ∧ ∃ t outcome, (t, .ended i outcome) ∈ w.timed

/-- The worker `h` has the claim `c`. All others have had older ones, and an adopted claim that is not
    the current one is stamped, or it is too old. -/
structure HeldBy (ttl : Int) (w : TimedWorld V) (ph : ℕ → AdoptPhase) (c : StepClaimRecord) (h : ℕ) :
    Prop where
  flagged : c.released ∨ c.failed → Stamped w.timed h
  active : ∀ k m, (ph k).mine = some m → (ph k).stamped = false →
    (k = h ∧ m.startedAt = c.startedAt) ∨ m.startedAt < c.startedAt
  adopted : ∀ T i cur s, (T, .adopted i cur s) ∈ w.timed →
    (i = h ∧ s = c.startedAt) ∨ Stamped w.timed i ∨ T + ttl ≤ w.clock

/-- What is so at any time. -/
structure ProtectInv (ttl : Int) (w : TimedWorld V) (ph : ℕ → AdoptPhase) : Prop where
  past : ∀ T e, (T, e) ∈ w.timed → T ≤ w.clock
  seen : ∀ i, HasSeen w i (ph i)
  early : ∀ c, w.step.claim = some c → c.startedAt ≤ w.clock
  free : w.step.claim = none →
    (∀ i, (ph i).mine = none) ∧ ∀ T i cur s, (T, .adopted i cur s) ∉ w.timed
  held : 0 < ttl → ∀ c, w.step.claim = some c → ∃ h, HeldBy ttl w ph c h
  protects : Protects ttl w.timed

namespace HasSeen

variable {ttl : Int} {w w' : TimedWorld V} {i : ℕ} {s : AdoptPhase}

theorem mono (h : HasSeen w i s) (hclock : w.clock ≤ w'.clock) (hsub : ∀ x ∈ w.timed, x ∈ w'.timed)
    (hst : Stamped w'.timed i → Stamped w.timed i) : HasSeen w' i s := by
  refine ⟨fun c hc => Int.le_trans (h.read c hc) hclock,
    fun t ht => Int.le_trans (h.at_ t ht) hclock, fun c t hc => ?_, fun hf => ?_, fun hs => ?_⟩
  · exact ⟨(h.judged c t hc).1, Int.le_trans (h.judged c t hc).2 hclock⟩
  · obtain ⟨t, outcome, ht⟩ := h.finished hf
    exact ⟨t, outcome, hsub _ ht⟩
  · obtain ⟨hs, t, outcome, ht⟩ := h.stamped (hst hs)
    exact ⟨hs, t, outcome, hsub _ ht⟩

end HasSeen

namespace Happens

variable {w w' : TimedWorld V} {i : ℕ} {o : StepOp V} {res : o.Res}

theorem sub (h : Happens i w o res w') : ∀ x ∈ w.timed, x ∈ w'.timed := by
  intro x hx
  rcases h with ⟨-, h⟩ | ⟨_, -, -, h⟩ | ⟨_, -, -, -, h⟩ | ⟨_, _, -, -, -, h⟩ | ⟨_, _, -, -, -, h⟩
  all_goals rw [h]
  · exact hx
  all_goals exact .tail _ hx

/-- Another worker has no stamp from it. -/
theorem stamped (h : Happens i w o res w') {k : ℕ} (hk : k ≠ i ∨ ∀ mine next, o ≠ .stamp mine next)
    (hs : Stamped w'.timed k) : Stamped w.timed k := by
  obtain ⟨t, r, hr⟩ := hs
  refine ⟨t, r, ?_⟩
  rcases h with ⟨-, h⟩ | ⟨e, he, -, h⟩ | ⟨_, -, -, -, h⟩ | ⟨_, _, -, -, -, h⟩ |
    ⟨mine, next, ho, -, -, h⟩
  all_goals rw [h] at hr
  · exact hr
  · rcases List.mem_cons.1 hr with heq | hr
    · rw [← (Prod.mk.inj heq).2] at he
      exact he.elim
    · exact hr
  · exact (List.mem_cons.1 hr).resolve_left nofun
  · exact (List.mem_cons.1 hr).resolve_left nofun
  · refine (List.mem_cons.1 hr).resolve_left fun heq => ?_
    rcases hk with hk | hk
    · exact hk (StepEvent.stamped.inj (Prod.mk.inj heq).2).1
    · exact hk mine next ho

end Happens

/-- What the worker reads is the claim, and the clock. -/
theorem timedMachine_reads (i : ℕ) (a : StepAnswer V) (w : TimedWorld V) :
    (∀ cur, (timedMachine.exec i a .getClaim w).1 = .ok cur → w.step.claim = cur) ∧
      ∀ t, (timedMachine.exec i a .now w).1 = .ok t → w.clock = t := by
  rcases hfault : a.fault with _ | e <;> simp [timedMachine, stepMachine, stepExec, hfault]

theorem AdoptPhase.learn_stamped {s : AdoptPhase} {o : StepOp V} {r : o.Res}
    (h : (s.learn o r).stamped = false) : s.stamped = false := by
  rcases o with _ | _ | _ | _ | ⟨_, _⟩ | ⟨_, _⟩ | _ | ⟨_, _⟩ | _ | _
  case stamp => exact absurd h (by simp [AdoptPhase.learn])
  all_goals rcases r with e | x <;> exact h

/-- An event that is no adoption, or one after claims that are stamped or too old. -/
theorem Protects.cons {ttl T' : Int} {timed : List (Int × StepEvent V)} {e : StepEvent V}
    (h : Protects ttl timed) (hnew : ∀ j cur' s', e = .adopted j cur' s' →
      ∀ T i cur s, (T, .adopted i cur s) ∈ timed → Stamped timed i ∨ T + ttl ≤ T') :
    Protects ttl ((T', e) :: timed) := by
  intro post T'' j cur' s' past hsplit
  rcases post with _ | ⟨x, post⟩
  · obtain ⟨he, rfl⟩ := List.cons.inj hsplit
    obtain ⟨rfl, rfl⟩ := Prod.mk.inj he
    exact hnew j cur' s' rfl
  · exact h post T'' j cur' s' past (List.cons.inj hsplit).2

/-- The claim is held on while there are no other claims. -/
theorem HeldBy.mono {ttl : Int} {w w' : TimedWorld V} {ph ph' : ℕ → AdoptPhase}
    {c : StepClaimRecord} {h : ℕ} (hc : HeldBy ttl w ph c h) (hclock : w.clock ≤ w'.clock)
    (hsub : ∀ x ∈ w.timed, x ∈ w'.timed)
    (hadopted : ∀ T i cur s, (T, .adopted i cur s) ∈ w'.timed → (T, .adopted i cur s) ∈ w.timed)
    (hph : ∀ k m, (ph' k).mine = some m → (ph' k).stamped = false →
      (ph k).mine = some m ∧ (ph k).stamped = false) : HeldBy ttl w' ph' c h := by
  have hst {i : ℕ} (hs : Stamped w.timed i) : Stamped w'.timed i := by
    obtain ⟨t, r, hr⟩ := hs
    exact ⟨t, r, hsub _ hr⟩
  refine ⟨fun hf => hst (hc.flagged hf), fun k m hm hs => ?_, fun T i cur s ha => ?_⟩
  · obtain ⟨hm, hs⟩ := hph k m hm hs
    exact hc.active k m hm hs
  · rcases hc.adopted T i cur s (hadopted T i cur s ha) with hcur | hs | hold
    · exact .inl hcur
    · exact .inr (.inl (hst hs))
    · exact .inr (.inr (Int.le_trans hold hclock))

namespace ProtectInv

variable {ttl : Int} {w : TimedWorld V} {ph : ℕ → AdoptPhase} {i : ℕ}

theorem init (t₀ : Int) : ProtectInv ttl (⟨⟨none, none, []⟩, t₀, []⟩ : TimedWorld V)
    fun _ => AdoptPhase.init := by
  refine ⟨nofun, fun i => ⟨nofun, nofun, nofun, nofun, ?_⟩, nofun, fun _ => ⟨fun _ => rfl, nofun⟩,
    nofun, ?_⟩
  · rintro ⟨t, r, hr⟩
    contradiction
  · intro post T' j cur' s' past h
    have hlen := congrArg List.length h
    simp at hlen

/-- What a worker learns. -/
theorem seen_learn (h : ProtectInv ttl w ph) {o : StepOp V} (ho : MayHold ttl (ph i) o)
    (a : StepAnswer V) : HasSeen (timedMachine.exec i a o w).2 i
      ((ph i).learn o (timedMachine.exec i a o w).1) := by
  have hsub := (timedMachine_happens i a o w).sub
  have hst := (timedMachine_happens i a o w).stamped (k := i)
  have hreads := timedMachine_reads i a w
  have hkeep (hno : ∀ mine next, o ≠ .stamp mine next) :
      HasSeen (timedMachine.exec i a o w).2 i (ph i) :=
    (h.seen i).mono (Int.le_refl _) hsub (hst (.inr hno))
  rcases o with _ | out | _ | r | ⟨cur, next⟩ | ⟨mine, next⟩ | _ | ⟨cur, at_⟩ | _ | _
  case getClaim =>
    have hk := hkeep nofun
    rcases hr : (timedMachine.exec i a .getClaim w).1 with e | cur
    · exact hk
    · refine ⟨fun c hc => ?_, hk.at_, hk.judged, hk.finished, hk.stamped⟩
      exact h.early c ((hreads.1 cur hr).trans hc)
  case now =>
    have hk := hkeep nofun
    rcases hr : (timedMachine.exec i a .now w).1 with e | t
    · exact hk
    · obtain rfl := hreads.2 t hr
      refine ⟨hk.read, ?_, ?_, hk.finished, hk.stamped⟩
      · rintro t ⟨⟩
        exact Int.le_refl _
      · intro c t hc
        obtain ⟨c', hc', heq⟩ := Option.map_eq_some_iff.1 hc
        obtain ⟨rfl, rfl⟩ := Prod.mk.inj heq
        exact ⟨(h.seen i).read c' hc', Int.le_refl _⟩
  case stamp =>
    obtain ⟨-, hfin, -, -⟩ := ho
    obtain ⟨t, outcome, ht⟩ := (h.seen i).finished hfin
    have hs := h.seen i
    exact ⟨hs.read, hs.at_, hs.judged, fun _ => ⟨t, outcome, hsub _ ht⟩,
      fun _ => ⟨rfl, t, outcome, hsub _ ht⟩⟩
  case start => exact hkeep nofun
  case finish =>
    have hk := hkeep nofun
    refine ⟨hk.read, hk.at_, hk.judged, fun _ => ⟨w.clock, a.output, ?_⟩, hk.stamped⟩
    rw [timedMachine_finish]
    exact .head _
  all_goals
    have hk := hkeep nofun
    rcases (timedMachine.exec i a _ w).1 with e | x
    · exact hk
    · exact ⟨hk.read, hk.at_, hk.judged, hk.finished, hk.stamped⟩

/-- The claims are the same, and the workers have what they had. -/
theorem keep (h : ProtectInv ttl w ph) {w' : TimedWorld V} {ph' : ℕ → AdoptPhase}
    (hclaim : w'.step.claim = w.step.claim) (hclock : w.clock ≤ w'.clock)
    (hsub : ∀ x ∈ w.timed, x ∈ w'.timed) (hpast : ∀ T e, (T, e) ∈ w'.timed → T ≤ w'.clock)
    (hback : ∀ T k cur s, (T, .adopted k cur s) ∈ w'.timed → (T, .adopted k cur s) ∈ w.timed)
    (hseen : ∀ k, HasSeen w' k (ph' k)) (hmine : ∀ k, (ph' k).mine = (ph k).mine)
    (hst : ∀ k, (ph' k).stamped = false → (ph k).stamped = false) (hprot : Protects ttl w'.timed) :
    ProtectInv ttl w' ph' := by
  refine ⟨hpast, hseen, fun c hc => ?_, fun hnone => ⟨fun k => ?_, fun T k cur s ha => ?_⟩,
    fun hpos c hc => ?_, hprot⟩
  · exact Int.le_trans (h.early c (hclaim ▸ hc)) hclock
  · rw [hmine]
    exact (h.free (hclaim ▸ hnone)).1 k
  · exact (h.free (hclaim ▸ hnone)).2 T k cur s (hback T k cur s ha)
  · obtain ⟨k, hk⟩ := h.held hpos c (hclaim ▸ hc)
    exact ⟨k, hk.mono hclock hsub hback fun j m hm hs => ⟨hmine j ▸ hm, hst j hs⟩⟩

/-- Who adopts the claim does so after the time to live of all that have been adopted. -/
theorem adoptable (h : ProtectInv ttl w ph) {cur next : StepClaimRecord}
    (ho : MayHold ttl (ph i) (.adopt cur next : StepOp V)) (hcur : w.step.claim = some cur)
    {r : (StepOp.adopt cur next : StepOp V).Res} (hok : Unhurried ttl w i (.adopt cur next) r)
    (T : Int) (j : ℕ) (cur' : StepClaimRecord) (s : Int) (ha : (T, .adopted j cur' s) ∈ w.timed) :
    Stamped w.timed j ∨ T + ttl ≤ w.clock := by
  obtain ⟨t, hjudged, rfl, hold⟩ := ho
  have hclock := ((h.seen i).judged cur t hjudged).2
  by_cases hpos : 0 < ttl
  · obtain ⟨k, hk⟩ := h.held hpos cur hcur
    rcases hk.adopted T j cur' s ha with ⟨rfl, rfl⟩ | hst | hlate
    · by_cases hflag : cur.released = true ∨ cur.failed = true
      · exact .inl (hk.flagged hflag)
      · -- The claim is still what its adoption has written.
        have hlive : cur = ⟨cur.startedAt, false, false⟩ := by
          rcases cur with ⟨_, _ | _, _ | _⟩ <;> simp at hflag ⊢
        have hgap := hok hcur T j cur' cur.startedAt ha hlive
        have hlate := (or_assoc.2 hold).resolve_left hflag
        right
        simp only at hgap
        omega
    · exact .inl hst
    · exact .inr hlate
  · have := h.past T _ ha
    right
    omega

/-- All other workers have had older claims than the one that is adopted. -/
theorem older (h : ProtectInv ttl w ph) {cur next : StepClaimRecord} (hpos : 0 < ttl)
    (ho : MayHold ttl (ph i) (.adopt cur next : StepOp V)) (hcur : w.step.claim = some cur)
    (k : ℕ) (m : StepClaimRecord) (hm : (ph k).mine = some m) (hs : (ph k).stamped = false) :
    m.startedAt < next.startedAt := by
  obtain ⟨t, hjudged, rfl, hold⟩ := ho
  have hle := ((h.seen i).judged cur t hjudged).1
  obtain ⟨j, hj⟩ := h.held hpos cur hcur
  rcases hj.active k m hm hs with ⟨rfl, heq⟩ | hlt
  · have hflag : ¬(cur.released = true ∨ cur.failed = true) := by
      intro hflag
      have hst := ((h.seen k).stamped (hj.flagged hflag)).1
      rw [hs] at hst
      contradiction
    have hlate := (or_assoc.2 hold).resolve_left hflag
    simp only
    omega
  · exact Int.lt_of_lt_of_le hlt hle

/-- A new claim of the worker `i`, where the others have had older ones. -/
theorem held_new {w' : TimedWorld V} {ph' : ℕ → AdoptPhase} {next : StepClaimRecord}
    (hlive : next.released = false ∧ next.failed = false)
    (hothers : ∀ k, k ≠ i → ph' k = ph k)
    (hmine : (ph' i).mine = (ph i).mine ∨ (ph' i).mine = some next)
    (hst : (ph' i).stamped = false → (ph i).stamped = false)
    (hold : ∀ k m, (ph k).mine = some m → (ph k).stamped = false → m.startedAt < next.startedAt)
    (hadopted : ∀ T k cur s, (T, .adopted k cur s) ∈ w'.timed →
      (k = i ∧ s = next.startedAt) ∨ Stamped w'.timed k ∨ T + ttl ≤ w'.clock) :
    HeldBy ttl w' ph' next i := by
  refine ⟨?_, fun k m hm hs => ?_, hadopted⟩
  · rw [hlive.1, hlive.2]
    exact nofun
  · rcases eq_or_ne k i with rfl | hk
    · rcases hmine with hsame | hnew
      · exact .inr (hold k m (hsame ▸ hm) (hst hs))
      · obtain rfl := Option.some.inj (hnew.symm.trans hm)
        exact .inl ⟨rfl, rfl⟩
    · rw [hothers k hk] at hm hs
      exact .inr (hold k m hm hs)

/-- The worker that has the claim stamps it. -/
theorem held_stamp {w' : TimedWorld V} {ph' : ℕ → AdoptPhase} {mine next : StepClaimRecord} {k : ℕ}
    (hk : HeldBy ttl w' ph' mine k) (hstart : next.startedAt = mine.startedAt)
    (hst : Stamped w'.timed k) : HeldBy ttl w' ph' next k := by
  refine ⟨fun _ => hst, ?_, ?_⟩
  · rw [hstart]
    exact hk.active
  · rw [hstart]
    exact hk.adopted

/-- An operation of a worker. -/
theorem step (h : ProtectInv ttl w ph) {o : StepOp V} {a : StepAnswer V} {s' : AdoptPhase}
    (hstep : HoldStep ttl (ph i) o (timedMachine.exec i a o w).1 s')
    (hok : Unhurried ttl w i o (timedMachine.exec i a o w).1) :
    ProtectInv ttl (timedMachine.exec i a o w).2 (update ph i s') := by
  obtain ⟨ho, rfl⟩ := hstep
  have hlearn := h.seen_learn ho a
  have hhap := timedMachine_happens i a o w
  have hclock : w.clock ≤ (timedMachine.exec i a o w).2.clock := Int.le_refl _
  have hst : ((ph i).learn o (timedMachine.exec i a o w).1).stamped = false →
      (ph i).stamped = false := AdoptPhase.learn_stamped
  generalize (timedMachine.exec i a o w).2 = w' at *
  generalize (timedMachine.exec i a o w).1 = r at *
  have hsub := hhap.sub
  have hseen (k : ℕ) : HasSeen w' k (update ph i ((ph i).learn o r) k) := by
    refine (forall_update_iff ph fun k s => HasSeen w' k s).2 ⟨hlearn, fun k hk => ?_⟩ k
    exact (h.seen k).mono hclock hsub (hhap.stamped (.inl hk))
  have hstamped (k : ℕ) (hs : (update ph i ((ph i).learn o r) k).stamped = false) :
      (ph k).stamped = false := by
    rcases eq_or_ne k i with rfl | hk
    · rw [update_self] at hs
      exact hst hs
    · rwa [update_of_ne hk] at hs
  have hmine (hsame : ((ph i).learn o r).mine = (ph i).mine) (k : ℕ) :
      (update ph i ((ph i).learn o r) k).mine = (ph k).mine :=
    (forall_update_iff ph fun k s => s.mine = (ph k).mine).2 ⟨hsame, fun _ _ => rfl⟩ k
  have hpast {e : StepEvent V} (ht : w'.timed = (w.clock, e) :: w.timed) (T : Int) (e' : StepEvent V)
      (he : (T, e') ∈ w'.timed) : T ≤ w'.clock := by
    rw [ht] at he
    rcases List.mem_cons.1 he with heq | he
    · exact (Prod.mk.inj heq).1 ▸ hclock
    · exact Int.le_trans (h.past T e' he) hclock
  have hback {e : StepEvent V} (ht : w'.timed = (w.clock, e) :: w.timed)
      (he : ∀ k cur s, e ≠ .adopted k cur s) (T : Int) (k : ℕ) (cur : StepClaimRecord) (s : Int)
      (hx : (T, .adopted k cur s) ∈ w'.timed) : (T, .adopted k cur s) ∈ w.timed := by
    rw [ht] at hx
    exact (List.mem_cons.1 hx).resolve_left fun heq => he k cur s (Prod.mk.inj heq).2.symm
  have hprot {e : StepEvent V} (ht : w'.timed = (w.clock, e) :: w.timed)
      (he : ∀ k cur s, e ≠ .adopted k cur s) : Protects ttl w'.timed := by
    rw [ht]
    exact h.protects.cons fun k cur s heq => absurd heq (he k cur s)
  cases hhap with
  | nothing hclaim htimed hsame =>
    refine h.keep hclaim hclock hsub (fun T e he => ?_) (fun T k cur s ha => ?_) hseen
      (hmine (hsame _)) hstamped ?_
    · exact Int.le_trans (h.past T e (htimed ▸ he)) hclock
    · exact htimed ▸ ha
    · exact htimed ▸ h.protects
  | event e he hclaim htimed hsame =>
    have hno (k : ℕ) (cur : StepClaimRecord) (s : Int) : e ≠ .adopted k cur s := by
      rintro rfl
      exact he
    exact h.keep hclaim hclock hsub (hpast htimed) (hback htimed hno) hseen (hmine (hsame _)) hstamped
      (hprot htimed hno)
  | claims c ho hnone hclaim htimed hnew =>
    subst ho
    obtain ⟨t, ht, rfl⟩ := ho
    obtain ⟨hnomine, hnoadopted⟩ := h.free hnone
    have hno (T : Int) (k : ℕ) (cur : StepClaimRecord) (s : Int) :
        (T, .adopted k cur s) ∉ w'.timed := fun ha =>
      hnoadopted T k cur s (hback htimed nofun T k cur s ha)
    refine ⟨hpast htimed, hseen, ?_, ?_, ?_, hprot htimed nofun⟩
    · rw [hclaim]
      rintro c ⟨⟩
      exact Int.le_trans ((h.seen i).at_ t ht) hclock
    · rw [hclaim]
      exact nofun
    · rw [hclaim]
      rintro - c ⟨⟩
      refine ⟨i, held_new ⟨rfl, rfl⟩ (fun k hk => update_of_ne hk _ ph) ?_ (hstamped i)
        ?_ ?_⟩
      · rw [update_self]
        exact hnew (ph i)
      · intro k m hm
        rw [hnomine k] at hm
        contradiction
      · exact fun T k cur s ha => absurd ha (hno T k cur s)
  | adopts cur next ho hcur hclaim htimed hnew =>
    subst ho
    have hadoptable := h.adoptable ho hcur hok
    have holder (hpos : 0 < ttl) := h.older hpos ho hcur
    obtain ⟨t, hjudged, rfl, -⟩ := ho
    refine ⟨hpast htimed, hseen, ?_, ?_, ?_, ?_⟩
    · rw [hclaim]
      rintro c ⟨⟩
      exact Int.le_trans ((h.seen i).judged cur t hjudged).2 hclock
    · rw [hclaim]
      exact nofun
    · rw [hclaim]
      rintro hpos c ⟨⟩
      refine ⟨i, held_new ⟨rfl, rfl⟩ (fun k hk => update_of_ne hk _ ph) ?_ (hstamped i)
        ?_ ?_⟩
      · rw [update_self]
        exact hnew (ph i)
      · exact holder hpos
      · intro T k cur' s ha
        rw [htimed] at ha
        rcases List.mem_cons.1 ha with heq | ha
        · obtain ⟨rfl, -, rfl⟩ := StepEvent.adopted.inj (Prod.mk.inj heq).2
          exact .inl ⟨rfl, rfl⟩
        · right
          rcases hadoptable T k cur' s ha with ⟨t', r', hr'⟩ | hlate
          · exact .inl ⟨t', r', hsub _ hr'⟩
          · exact .inr (Int.le_trans hlate hclock)
    · rw [htimed]
      exact h.protects.cons fun _ _ _ _ => hadoptable
  | stamps mine next ho hcur hclaim htimed hsame =>
    subst ho
    obtain ⟨hmine', -, hunstamped, hstart⟩ := ho
    refine ⟨hpast htimed, hseen, ?_, ?_, ?_, hprot htimed nofun⟩
    · rw [hclaim]
      rintro c ⟨⟩
      rw [hstart]
      exact Int.le_trans (h.early mine hcur) hclock
    · rw [hclaim]
      exact nofun
    · rw [hclaim]
      rintro hpos c ⟨⟩
      obtain ⟨k, hk⟩ := h.held hpos mine hcur
      refine ⟨k, held_stamp (hk.mono hclock hsub (hback htimed nofun) fun j m hm hs => ?_) hstart ?_⟩
      · exact ⟨hmine (hsame _) j ▸ hm, hstamped j hs⟩
      · -- The worker has the claim that is there, so it is the last one that has claimed.
        rcases hk.active i mine hmine' hunstamped with ⟨rfl, -⟩ | hlt
        · exact ⟨w.clock, next, by rw [htimed]; exact .head _⟩
        · exact absurd hlt (Int.lt_irrefl _)

end ProtectInv

/-! ## Workers -/

/-- The workers of a run whose adoptions are not of seemingly old claims. -/
theorem protectInv_play (d : StepDurability) (t₀ : Int) (ms : List (Move (StepAnswer V) ℕ))
    (hms : timedMachine.Meets (Unhurried d.ttl) (timedStart d t₀) ms) :
    ∃ ph, ProtectInv d.ttl (timedMachine.play (timedStart d t₀) ms).world ph := by
  have hstart (i : ℕ) : ((timedStart (V := V) d t₀).procs i).Follows (HoldStep d.ttl)
      AdoptPhase.init (Ends (fun _ _ => True) fun _ _ => True) := holdStep_runs _ rfl
  have hwait (w : TimedWorld V) (ph : ℕ → AdoptPhase) (n : ℕ) (h : ProtectInv d.ttl w ph) :
      ProtectInv d.ttl (timedMachine.env n w) ph := by
    have hclock : w.clock ≤ (timedMachine.env n w).clock := Int.le_add_of_nonneg_right (by simp)
    exact h.keep rfl hclock (fun _ hx => hx) (fun T e he => Int.le_trans (h.past T e he) hclock)
      (fun _ _ _ _ ha => ha) (fun k => (h.seen k).mono hclock (fun _ hx => hx) fun hs => hs)
      (fun _ => rfl) (fun _ hs => hs) h.protects
  obtain ⟨ph, hinv, -⟩ := Machine.play_follows (J := ProtectInv d.ttl)
    (fun w ph i a o s' h hs hok => h.step hs hok) hwait (ProtectInv.init t₀) hstart hms
  exact ⟨ph, hinv⟩

/-- Any number of workers at a step with side effects, in any order, with crashes and faults of the
    journal, where asking may take any time. As long as no claim is adopted by a time at which it only
    seems to be old, an adopted claim is not adopted by another worker for the time to live, unless it
    is stamped; so two bodies of workers that have adopted do not run within that time. -/
theorem adoption_protected (d : StepDurability) (t₀ : Int) (ms : List (Move (StepAnswer V) ℕ))
    (hms : timedMachine.Meets (Unhurried d.ttl) (timedStart d t₀) ms) :
    Protects d.ttl (timedMachine.play (timedStart d t₀) ms).world.timed ∧
      Apart d.ttl (timedMachine.play (timedStart d t₀) ms).world := by
  obtain ⟨ph, hinv⟩ := protectInv_play d t₀ ms hms
  refine ⟨hinv.protects, fun post T' j cur' s' past hsplit T i cur s ha hi _ => ?_⟩
  rcases hinv.protects post T' j cur' s' past hsplit T i cur s ha with ⟨t, r, hr⟩ | hlate
  · -- Who has stamped its claim has ended.
    have hmem : (t, .stamped i r) ∈ (timedMachine.play (timedStart d t₀) ms).world.timed := by
      rw [hsplit]
      exact List.mem_append_right _ (.tail _ hr)
    obtain ⟨-, t', outcome, hend⟩ := (hinv.seen i).stamped ⟨t, r, hmem⟩
    exact absurd hend (hi.2 t' outcome)
  · have hT' := hinv.past T' _ (hsplit ▸ List.mem_append_right _ (.head _))
    exact Int.le_trans hlate hT'

/-- The worker `i` makes `n` operations: the effect is not there, and the body returns `7`. -/
def worksOn (i n : ℕ) : List (Move (StepAnswer ℕ) ℕ) :=
  List.replicate n (.run i ⟨0, .notDone, .ok (some 7), none, false⟩)

/-- The event is an adoption by which `cur` only seems to be old. -/
def Seeming (ttl : Int) (cur next : StepClaimRecord) : Int × StepEvent V → Prop
  | (T, .adopted _ _ s) =>
    cur = ⟨s, false, false⟩ ∧ s + ttl ≤ next.startedAt ∧ next.startedAt < T + ttl
  | _ => False

instance (ttl : Int) (cur next : StepClaimRecord) (x : Int × StepEvent V) :
    Decidable (Seeming ttl cur next x) := by
  rcases x with ⟨T, _ | _ | _ | _ | _ | _⟩ <;> dsimp only [Seeming] <;> infer_instance

theorem unhurried_adopt_iff (ttl : Int) (w : TimedWorld V) (i : ℕ) (cur next : StepClaimRecord)
    (r : (StepOp.adopt cur next : StepOp V).Res) : Unhurried ttl w i (.adopt cur next) r ↔
      (w.step.claim = some cur → ∀ x ∈ w.timed, ¬Seeming ttl cur next x) := by
  refine forall_congr' fun _ => ⟨fun h x hx hseem => ?_, fun h T j cur' s ha hcur hgap => ?_⟩
  · rcases x with ⟨T, _ | ⟨j, cur', s⟩ | _ | _ | _ | _⟩
    case adopted => exact h T j cur' s hx hseem.1 hseem.2
    all_goals exact hseem
  · exact h _ ha ⟨hcur, hgap⟩

instance (ttl : Int) (w : TimedWorld V) (i : ℕ) (o : StepOp V) (r : o.Res) :
    Decidable (Unhurried ttl w i o r) := by
  rcases o with _ | _ | _ | _ | ⟨cur, next⟩ | _ | _ | _ | _ | _
  case adopt => exact decidable_of_iff _ (unhurried_adopt_iff ttl w i cur next r).symm
  all_goals exact isTrue trivial

/-- The first worker stops after its claim; two others adopt it, each after its time. -/
def inTurn : List (Move (StepAnswer ℕ) ℕ) :=
  worksOn 0 3 ++ .env 60000 :: worksOn 1 10 ++ .env 60000 :: worksOn 2 10

theorem adoption_protected_turns :
    Protects askable.ttl (timedMachine.play (timedStart askable 0) inTurn).world.timed ∧
      Apart askable.ttl (timedMachine.play (timedStart askable 0) inTurn).world :=
  adoption_protected askable 0 inTurn (by decide +kernel)

/-- The second worker asks for almost a minute. Its claim is as old as its question, so that a third
    one adopts it a millisecond later, and both bodies run. -/
def hurried : List (Move (StepAnswer ℕ) ℕ) :=
  worksOn 0 3 ++ .env 60000 :: worksOn 1 7 ++ .env 59999 :: worksOn 1 3 ++ .env 1 :: worksOn 2 10

theorem adoption_unprotected :
    ¬Protects askable.ttl (timedMachine.play (timedStart askable 0) hurried).world.timed ∧
      ¬Apart askable.ttl (timedMachine.play (timedStart askable 0) hurried).world := by
  have htimed : (timedMachine.play (timedStart askable 0) hurried).world.timed =
      [(120000, .invoked 2), (120000, .adopted 2 ⟨60000, false, false⟩ 120000),
        (120000, .notDone 2 ⟨60000, false, false⟩ 120000), (119999, .invoked 1),
        (119999, .adopted 1 ⟨0, false, false⟩ 60000), (60000, .notDone 1 ⟨0, false, false⟩ 60000),
        (0, .claimed 0 0)] := by decide +kernel
  have hclock : (timedMachine.play (timedStart askable 0) hurried).world.clock = 120000 := by
    decide +kernel
  have hearly : ¬(119999 : Int) + askable.ttl ≤ 120000 := by decide
  refine ⟨fun h => ?_, fun h => ?_⟩
  · rw [htimed] at h
    rcases h [_] _ 2 _ _ _ rfl 119999 1 ⟨0, false, false⟩ 60000 (by simp) with ⟨t, r, hr⟩ | hlate
    · simp at hr
    · exact hearly hlate
  · have hrun {i : ℕ} (hi : i = 1 ∨ i = 2) :
        Running (timedMachine.play (timedStart askable 0) hurried).world.timed i := by
      rw [htimed]
      rcases hi with rfl | rfl
      · exact ⟨⟨119999, by simp⟩, by simp⟩
      · exact ⟨⟨120000, by simp⟩, by simp⟩
    have hlate := h [(120000, .invoked 2)] 120000 2 ⟨60000, false, false⟩ 120000 _ htimed 119999 1
      ⟨0, false, false⟩ 60000 (by simp) (hrun (.inl rfl)) (hrun (.inr rfl))
    rw [hclock] at hlate
    exact hearly hlate

end Gnldev.Workflow
