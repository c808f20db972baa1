import Gnldev.Workflow.SideEffect

/-!
# Side effects fire once without a certificate

The body of a step is called a second time only with a *certificate*: an earlier call of
it was suspended, or `recover` has answered that the effect of a claim is not there,
after the claim was stamped as failed or had outlived its time.

Whose claim? The claims of a step follow one another, each adopted from the one before.
So of two calls of the body, the certificate is about the claim of the one that claimed
first; it can be the later call, of a worker that was slow to start
(`sideEffect_zombie`).

* `sideEffect_certified`: the calls of the body, and the outputs the workers return.
-/

namespace Gnldev.Workflow

open Prog Function

variable {V : Type}

/-! ## Certificates -/

/-- The worker `i` has made, or adopted, a claim of the time `t`. -/
def Claimed (trace : List (StepEvent V)) (i : ℕ) (t : Int) : Prop :=
  .claimed i t ∈ trace ∨ ∃ cur, .adopted i cur t ∈ trace

/-- A call of the body was suspended. -/
def WasSuspended (trace : List (StepEvent V)) : Prop :=
  ∃ i waitId, .ended i (.error (.suspended waitId)) ∈ trace

/-- `recover` has answered that the effect of the claim of the time `t` is not there; it was
    stamped as failed, or older than `ttl`. -/
def Certified (ttl : Int) (trace : List (StepEvent V)) (t : Int) : Prop :=
  ∃ i cur at_, .notDone i cur at_ ∈ trace ∧ cur.startedAt = t ∧ (cur.failed ∨ ttl ≤ at_ - t)

/-- Before every second call of the body there is a certificate, or a suspension; the
    certificate is about a claim `which` allows, of the earlier call and of this one. -/
def FiresOnce (ttl : Int) (which : (k i j : ℕ) → Prop) (trace : List (StepEvent V)) : Prop :=
  ∀ pre i past, trace = pre ++ .invoked i :: past → ∀ k, .invoked k ∈ past →
    WasSuspended past ∨ ∃ j t, which k i j ∧ Claimed past j t ∧ Certified ttl past t

/-! ## What a worker can do -/

/-- What a worker has learned, and done. -/
structure StepPhase (V : Type) where
  /-- It has a claim. -/
  owns : Bool
  /-- What `recover` has denied, of which claim and when. -/
  asked : Option (StepClaimRecord × Int)
  began : Bool
  suspended : Bool
  /-- Its body, or `recover`, has returned `undefined`. -/
  vague : Bool
  /-- There is an output already. -/
  present : Bool
  /-- The output it has read, or recorded. -/
  seen : Option V
  /-- An output that was there is not there. -/
  broken : Bool

def StepPhase.init : StepPhase V := ⟨false, none, false, false, false, false, none, false⟩

/-- What a worker knows after an operation. -/
def StepPhase.learn (s : StepPhase V) : (o : StepOp V) → o.Res → StepPhase V
  | .get, .ok (some v) => { s with seen := some v }
  | .get, .ok none => { s with broken := s.broken || s.present }
  | .claimOutput out, .ok won =>
    if won then { s with seen := out } else { s with present := true }
  | .claim _, .ok won => { s with owns := s.owns || won }
  | .adopt _ _, .ok won => { s with owns := s.owns || won }
  | .recover cur at_, .ok .notDone => { s with asked := some (cur, at_) }
  | .recover _ _, .ok (.done output) => { s with vague := s.vague || output.isNone }
  | .start, .ok _ => { s with began := true }
  | .finish, .ok output => { s with vague := s.vague || output.isNone }
  | _, .error (.suspended _) => { s with suspended := true }
  | _, _ => s

/-- The worker may adopt the claim: it is released, or denied and old or failed. -/
def MayAdopt (ttl : Int) (s : StepPhase V) (cur : StepClaimRecord) : Prop :=
  cur.released ∨ ∃ at_, s.asked = some (cur, at_) ∧ (cur.failed ∨ ttl ≤ at_ - cur.startedAt)

/-- What a worker may do, given what it knows. -/
def Allowed (ttl : Int) (s : StepPhase V) : StepOp V → Prop
  | .claimOutput out => s.vague = false → out.isSome
  | .claim r => r.released = false ∧ r.failed = false
  | .adopt cur next => MayAdopt ttl s cur ∧ next.released = false ∧ next.failed = false
  | .stamp mine next => mine.released = false ∧ next.startedAt = mine.startedAt ∧
    (next.released → s.suspended)
  | .start => s.owns ∧ s.began = false
  | _ => True

/-- The protocol of a worker. -/
def WorkerStep (ttl : Int) (s : StepPhase V) (o : StepOp V) (r : o.Res) (s' : StepPhase V) : Prop :=
  Allowed ttl s o ∧ s' = s.learn o r

/-- What is returned is known to be the output, unless there are vague ones. -/
def Returned (s : StepPhase V) (out : Option V) : Prop :=
  s.vague = false → s.broken = false → out.isSome ∧ out = s.seen

section Worker

variable {d : StepDurability} {ttl : Int} {P : StepPhase V → Prop}

theorem await_runs {o : StepOp V} {Q : StepPhase V → o.Ans → Prop}
    {X : StepPhase V → StepError → Prop} (ho : ∀ s, P s → Allowed ttl s o)
    (hQ : ∀ s r, P s → Q (s.learn o (.ok r)) r) (hX : ∀ s e, P s → X (s.learn o (.error e)) e) :
    Runs (WorkerStep ttl) P (await_ o) Q X := by
  intro s hs r
  refine ⟨_, ⟨ho s hs, rfl⟩, ?_⟩
  rcases r with e | r
  · exact hX s e hs
  · exact hQ s r hs

/-- A read: an output is known, and the rest is as it was. -/
theorem get_runs (hP : ∀ s out, P s → P (s.learn .get (.ok out))) :
    Runs (WorkerStep ttl) P (await_ .get : SM V (Option V))
      (fun s out => P s ∧ ∀ v, out = some v → s.seen = some v) fun _ _ => True := by
  refine await_runs (fun _ _ => trivial) (fun s out hs => ⟨hP s out hs, ?_⟩) fun _ _ _ => trivial
  rintro v rfl
  rfl

/-- What is read is returned, or the worker goes on. -/
theorem get_cases_runs (hP : ∀ s out, P s → P (s.learn .get (.ok out))) {p : SM V (Option V)}
    (h : Runs (WorkerStep ttl) P p Returned fun _ _ => True) :
    Runs (WorkerStep ttl) P (do
      match ← await_ .get with
      | some v => return some v
      | none => p) Returned fun _ _ => True := by
  refine Runs.bind (get_runs hP) fun out => ?_
  rcases out with _ | v
  · exact h.pre fun _ hs => hs.1
  · exact runs_pure fun _ hs _ _ => ⟨rfl, (hs.2 v rfl).symm⟩

theorem began_get (s : StepPhase V) (out : Option V) (hs : s.began = false) :
    (s.learn .get (.ok out)).began = false := by
  rcases out with _ | v <;> exact hs

theorem claim_runs (t : Int) : Runs (WorkerStep ttl) (fun s : StepPhase V => s.began = false)
    (await_ (.claim ⟨t, false, false⟩)) (fun s won => s.began = false ∧ (won → s.owns))
    fun _ _ => True := by
  refine await_runs (fun _ _ => ⟨rfl, rfl⟩) (fun s won hs => ⟨hs, ?_⟩) fun _ _ _ => trivial
  rintro rfl
  exact Bool.or_true _

/-- What a worker that throws knows: a suspension is its own body's. -/
def Thrown (s : StepPhase V) (e : StepError) : Prop := ∀ waitId, e = .suspended waitId → s.suspended

theorem thrown_learn (s : StepPhase V) (o : StepOp V) (e : StepError) :
    Thrown (s.learn o (.error e)) e := by
  rintro waitId rfl
  rcases o with _ | _ | _ | _ | _ | _ | _ | _ | _ | _ <;> rfl

theorem settle_runs (out : Option V) :
    Runs (WorkerStep ttl) (fun s => s.vague = false → out.isSome) (settle out) Returned Thrown := by
  refine Runs.bind (Q := fun s won => (s.vague = false → out.isSome) ∧
    if won then s.seen = out else s.present = true) ?_ fun won => ?_
  · refine await_runs (fun _ hs => hs) (fun s won hs => ?_) fun s e _ => thrown_learn s _ e
    rcases won with _ | _
    · exact ⟨hs, rfl⟩
    · exact ⟨hs, rfl⟩
  · rcases won with _ | _
    · refine Runs.bind (Q := fun s winner => Returned s (winner.or out)) ?_ fun winner =>
        runs_pure fun _ hs => hs
      refine await_runs (fun _ _ => trivial) (fun s winner hs => ?_) fun s e _ => thrown_learn s _ e
      rcases winner with _ | v
      · -- The output that was there is gone.
        rintro - hbroken
        have hgone : (s.broken || s.present) = false := hbroken
        rw [hs.2, Bool.or_true] at hgone
        contradiction
      · exact fun _ _ => ⟨rfl, rfl⟩
    · refine runs_pure fun s hs => ?_
      exact fun hv _ => ⟨hs.1 hv, hs.2.symm⟩

/-- The body runs once, under a claim of the worker's. -/
theorem runBody_runs {mine : StepClaimRecord} (hmine : mine.released = false) :
    Runs (WorkerStep ttl) (fun s : StepPhase V => s.owns ∧ s.began = false) (runBody mine) Returned
      fun _ _ => True := by
  refine Runs.tryCatch (Y := Thrown) ?_ fun e => ?_
  · refine Runs.bind (Q := fun _ _ => True) ?_ fun _ => ?_
    · exact await_runs (fun _ hs => hs) (fun _ _ _ => trivial) fun s e _ => thrown_learn s _ e
    refine Runs.bind (Q := fun s out => s.vague = false → out.isSome) ?_ settle_runs
    refine await_runs (fun _ _ => trivial) (fun s out _ hv => ?_) fun s e _ => thrown_learn s _ e
    have hsome : (s.vague || out.isNone) = false := hv
    rw [Bool.or_eq_false_iff, Option.isNone_eq_false_iff] at hsome
    exact hsome.2
  · refine Runs.bind (Q := fun _ _ => True) ?_ fun _ => runs_throw fun _ _ => trivial
    refine Runs.tryCatch (Y := fun _ _ => True) ?_ fun _ => runs_pure fun _ _ => trivial
    refine Runs.bind (Q := fun _ _ => True) ?_ fun _ => runs_pure fun _ _ => trivial
    refine await_runs (fun s hs => ⟨hmine, ?_, fun hrel => ?_⟩) (fun _ _ _ => trivial)
      fun _ _ _ => trivial
    · rcases e <;> rfl
    · rcases e with _ | _ | _ | _ | waitId | _
      case suspended => exact hs waitId rfl
      all_goals exact absurd (hmine.symm.trans hrel) Bool.false_ne_true

theorem runUnlessLanded_runs {mine : StepClaimRecord} (hmine : mine.released = false) :
    Runs (WorkerStep ttl) (fun s : StepPhase V => s.owns ∧ s.began = false) (runUnlessLanded mine)
      Returned fun _ _ => True := by
  refine get_cases_runs (fun s out hs => ⟨?_, began_get s out hs.2⟩) (runBody_runs hmine)
  rcases out with _ | v <;> exact hs.1

theorem adoptClaim_runs {cur next : StepClaimRecord} (hr : next.released = false)
    (hf : next.failed = false) :
    Runs (WorkerStep ttl) (fun s : StepPhase V => MayAdopt ttl s cur ∧ s.began = false)
      (adoptClaim cur next : SM V Unit) (fun s _ => s.owns ∧ s.began = false) fun _ _ => True := by
  refine Runs.bind (Q := fun (s : StepPhase V) (won : Bool) => s.began = false ∧ (won → s.owns)) ?_
    fun won => ?_
  · refine await_runs (fun _ hs => ⟨hs.1, hr, hf⟩) (fun s won hs => ⟨hs.2, ?_⟩) fun _ _ _ => trivial
    rintro rfl
    exact Bool.or_true _
  · rcases won with _ | _
    · exact runs_throw fun _ _ => trivial
    · exact runs_pure fun _ hs => ⟨hs.2 rfl, hs.1⟩

/-- A claim that is failed, or has outlived its time, is adopted only after asking. -/
theorem resolve_runs {cur : StepClaimRecord} {at_ : Int}
    (h : cur.failed ∨ d.ttl ≤ at_ - cur.startedAt) :
    Runs (WorkerStep d.ttl) (fun s : StepPhase V => s.began = false) (d.resolve cur at_) Returned
      fun _ _ => True := by
  refine Runs.guard (fun _ _ => trivial) (Runs.bind (Q := fun s r =>
    (∀ output, r = .done output → s.vague = false → output.isSome) ∧
      (r = .notDone → s.asked = some (cur, at_) ∧ s.began = false)) ?_ fun r => ?_)
  · refine await_runs (fun _ _ => trivial) (fun s r hs => ⟨?_, ?_⟩) fun _ _ _ => trivial
    · rintro output rfl hv
      have hsome : (s.vague || output.isNone) = false := hv
      rw [Bool.or_eq_false_iff, Option.isNone_eq_false_iff] at hsome
      exact hsome.2
    · rintro rfl
      exact ⟨rfl, hs⟩
  · rcases r with output | _ | _
    · exact ((settle_runs output).pre fun s hs => hs.1 output rfl).drop
    · refine Runs.bind (Runs.pre (adoptClaim_runs rfl rfl) fun s hs => ⟨.inr ?_, (hs.2 rfl).2⟩)
        fun _ => runUnlessLanded_runs rfl
      exact ⟨at_, (hs.2 rfl).1, h⟩
    · exact runs_throw fun _ _ => trivial

/-- The claim of another worker, or of an earlier attempt. -/
theorem takeOver_runs : Runs (WorkerStep d.ttl) (fun s : StepPhase V => s.began = false) d.takeOver
    Returned fun _ _ => True := by
  refine get_cases_runs began_get ?_
  refine Runs.bind (Q := fun s _ => s.began = false) ?_ fun cur => ?_
  · exact await_runs (fun _ _ => trivial) (fun _ _ hs => hs) fun _ _ _ => trivial
  refine Runs.bind (Q := fun s _ => s.began = false) ?_ fun at_ => ?_
  · exact await_runs (fun _ _ => trivial) (fun _ _ hs => hs) fun _ _ _ => trivial
  rcases cur with _ | cur
  · refine Runs.bind (claim_runs at_) fun won => ?_
    rcases won with _ | _
    · exact runs_throw fun _ _ => trivial
    · exact (runBody_runs rfl).pre fun _ hs => ⟨hs.2 rfl, hs.1⟩
  · simp only
    split
    · next hrel =>
      exact Runs.bind (Runs.pre (adoptClaim_runs rfl rfl) fun s hs => ⟨.inl hrel, hs⟩) fun _ =>
        runUnlessLanded_runs rfl
    · split
      · exact runs_throw fun _ _ => trivial
      · next hold =>
        refine resolve_runs ?_
        by_cases hfailed : cur.failed = true
        · exact .inl hfailed
        · refine .inr (Int.not_lt.1 fun hlt => hold ⟨?_, hlt⟩)
          rw [Bool.eq_false_iff.2 hfailed]
          rfl

theorem runSideEffectStep_runs : Runs (WorkerStep d.ttl) (fun s : StepPhase V => s.began = false)
    d.runSideEffectStep Returned fun _ _ => True := by
  refine Runs.guard (fun _ _ => trivial)
    (Runs.bind (Q := fun s _ => s.began = false) ?_ fun startedAt => ?_)
  · exact await_runs (fun _ _ => trivial) (fun _ _ hs => hs) fun _ _ _ => trivial
  refine Runs.bind (claim_runs startedAt) fun won => ?_
  rcases won with _ | _
  · exact takeOver_runs.pre fun _ hs => hs.1
  · exact (runBody_runs rfl).pre fun _ hs => ⟨hs.2 rfl, hs.1⟩

/-- A worker, whatever the others do. -/
theorem runStep_runs : Runs (WorkerStep d.ttl) (fun s : StepPhase V => s.began = false) d.runStep
    Returned fun _ _ => True :=
  get_cases_runs began_get runSideEffectStep_runs

end Worker

/-- An operation answers, or throws, with or without its effect. -/
theorem stepMachine_exec_cases {i : ℕ} {o : StepOp V} (hstart : o ≠ .start) (hfinish : o ≠ .finish)
    (a : StepAnswer V) (w : StepWorld V) :
    stepMachine.exec i a o w = (.ok (stepExec i a o w).1, (stepExec i a o w).2) ∨
      ∃ e w', stepMachine.exec i a o w = (.error (.thrown e), w') ∧
        (w' = w ∨ w' = (stepExec i a o w).2) := by
  rcases hfault : a.fault with _ | e
  · refine .inl ?_
    rcases o <;> first | exact absurd rfl hstart | exact absurd rfl hfinish | simp [stepMachine, hfault]
  · refine .inr ⟨e, if a.applied then (stepExec i a o w).2 else w, ?_, ?_⟩
    · rcases o <;>
        first | exact absurd rfl hstart | exact absurd rfl hfinish | simp [stepMachine, hfault]
    · split
      · exact .inr rfl
      · exact .inl rfl

theorem StepPhase.learn_thrown (s : StepPhase V) (o : StepOp V) (e : JsString) :
    s.learn o (.error (.thrown e)) = s := by
  rcases o <;> rfl

/-! ## Claims follow one another -/

section History

variable {ttl : Int} {trace trace' : List (StepEvent V)} (h : ∀ e ∈ trace, e ∈ trace')
include h

theorem Claimed.mono {i : ℕ} {t : Int} (hc : Claimed trace i t) : Claimed trace' i t :=
  hc.imp (h _) fun ⟨cur, hcur⟩ => ⟨cur, h _ hcur⟩

theorem WasSuspended.mono (hs : WasSuspended trace) : WasSuspended trace' := by
  obtain ⟨i, waitId, hi⟩ := hs
  exact ⟨i, waitId, h _ hi⟩

theorem Certified.mono {t : Int} (hc : Certified ttl trace t) : Certified ttl trace' t := by
  obtain ⟨i, cur, at_, hi, hrest⟩ := hc
  exact ⟨i, cur, at_, h _ hi, hrest⟩

end History

/-- What the worker `i` knows has happened. -/
structure Knows (trace : List (StepEvent V)) (i : ℕ) (s : StepPhase V) : Prop where
  owns : s.owns → ∃ t, Claimed trace i t
  invoked : .invoked i ∈ trace → s.began ∧ ∃ t, Claimed trace i t
  asked : ∀ cur at_, s.asked = some (cur, at_) → .notDone i cur at_ ∈ trace
  suspended : s.suspended → WasSuspended trace

/-- An event that is no call of the body by the worker. -/
theorem Knows.cons {trace : List (StepEvent V)} {i : ℕ} {s : StepPhase V} (h : Knows trace i s)
    {e : StepEvent V} (he : e ≠ .invoked i) : Knows (e :: trace) i s := by
  have hsub : ∀ x ∈ trace, x ∈ e :: trace := fun _ hx => .tail _ hx
  refine ⟨fun hs => ?_, fun hi => ?_, fun cur at_ hs => .tail _ (h.asked cur at_ hs),
    fun hs => (h.suspended hs).mono hsub⟩
  · obtain ⟨t, ht⟩ := h.owns hs
    exact ⟨t, ht.mono hsub⟩
  · obtain ⟨hb, t, ht⟩ := h.invoked ((List.mem_cons.1 hi).resolve_left (Ne.symm he))
    exact ⟨hb, t, ht.mono hsub⟩

/-- The claims of a step: all but the last one are certified, or the body was suspended. -/
structure ClaimInv (ttl : Int) (w : StepWorld V) (ph : ℕ → StepPhase V) : Prop where
  knows : ∀ i, Knows w.trace i (ph i)
  released : ∀ c, w.claim = some c → c.released → WasSuspended w.trace
  free : w.claim = none → ∀ i t, ¬Claimed w.trace i t
  last : ∀ c, w.claim = some c → ∃ holder, ∀ i t, Claimed w.trace i t →
    (i = holder ∧ t = c.startedAt) ∨ WasSuspended w.trace ∨ Certified ttl w.trace t
  fires : FiresOnce ttl (fun k i j => j = k ∨ j = i) w.trace

namespace ClaimInv

variable {ttl : Int} {w : StepWorld V} {ph : ℕ → StepPhase V} {i : ℕ} {s : StepPhase V}

theorem init : ClaimInv ttl (⟨none, none, []⟩ : StepWorld V) fun _ => StepPhase.init := by
  refine ⟨fun i => ⟨nofun, nofun, nofun, nofun⟩, nofun, fun _ i t => ?_, nofun, ?_⟩
  · rintro (hc | ⟨cur, hc⟩) <;> contradiction
  · intro pre i past h
    have hlen := congrArg List.length h
    simp at hlen

/-- Of two workers that have claims, one has a claim that is certified. -/
theorem certified_of_ne (h : ClaimInv ttl w ph) {k : ℕ} (hne : k ≠ i)
    (hk : ∃ t, Claimed w.trace k t) (hi : ∃ t, Claimed w.trace i t) :
    WasSuspended w.trace ∨ ∃ j t, (j = k ∨ j = i) ∧ Claimed w.trace j t ∧
      Certified ttl w.trace t := by
  obtain ⟨t, hk⟩ := hk
  obtain ⟨u, hi⟩ := hi
  rcases hclaim : w.claim with _ | c
  · exact absurd hk (h.free hclaim k t)
  obtain ⟨holder, hlast⟩ := h.last c hclaim
  rcases hlast k t hk with ⟨rfl, -⟩ | hs | hc
  · rcases hlast i u hi with ⟨rfl, -⟩ | hs | hc
    · exact absurd rfl hne
    · exact .inl hs
    · exact .inr ⟨i, u, .inr rfl, hi, hc⟩
  · exact .inl hs
  · exact .inr ⟨k, t, .inl rfl, hk, hc⟩

variable {e : StepEvent V}

/-- An event that is no call of the body. -/
theorem fires_cons (h : ClaimInv ttl w ph) (he : ∀ k, e ≠ .invoked k) :
    FiresOnce ttl (fun k i j => j = k ∨ j = i) (e :: w.trace) := by
  intro pre i past hsplit k hk
  rcases pre with _ | ⟨e', pre⟩
  · exact absurd (List.cons.inj hsplit).1 (he i)
  · exact h.fires pre i past (List.cons.inj hsplit).2 k hk

theorem knows_update {trace : List (StepEvent V)} (h : ∀ j, j ≠ i → Knows trace j (ph j))
    (hi : Knows trace i s) (j : ℕ) : Knows trace j (update ph i s j) :=
  (forall_update_iff ph fun j s => Knows trace j s).2 ⟨hi, h⟩ j

/-- An operation without an event. -/
theorem quiet (h : ClaimInv ttl w ph) (output : Option (Option V)) (hs : Knows w.trace i s) :
    ClaimInv ttl { w with output } (update ph i s) :=
  ⟨knows_update (fun j _ => h.knows j) hs, h.released, h.free, h.last, h.fires⟩

/-- An event that is neither a claim nor a call of the body. -/
theorem event (h : ClaimInv ttl w ph) (he : ∀ k, e ≠ .invoked k) (hc : ∀ k t, e ≠ .claimed k t)
    (ha : ∀ k cur t, e ≠ .adopted k cur t) {claim : Option StepClaimRecord}
    (hclaim : claim.map (·.startedAt) = w.claim.map (·.startedAt))
    (hreleased : ∀ c, claim = some c → c.released → WasSuspended (e :: w.trace))
    (hs : Knows (e :: w.trace) i s) :
    ClaimInv ttl { w with claim, trace := e :: w.trace } (update ph i s) := by
  have hsub : ∀ x ∈ w.trace, x ∈ e :: w.trace := fun _ hx => .tail _ hx
  have hback {k : ℕ} {t : Int} (hk : Claimed (e :: w.trace) k t) : Claimed w.trace k t := by
    rcases hk with hk | ⟨cur, hk⟩
    · exact .inl ((List.mem_cons.1 hk).resolve_left (Ne.symm (hc k t)))
    · exact .inr ⟨cur, (List.mem_cons.1 hk).resolve_left (Ne.symm (ha k cur t))⟩
  refine ⟨knows_update (fun j _ => (h.knows j).cons (he j)) hs, hreleased, fun hnone k t hk => ?_,
    fun c hsome => ?_, h.fires_cons he⟩
  · rw [show claim = none from hnone, Option.map_none, eq_comm, Option.map_eq_none_iff] at hclaim
    exact h.free hclaim k t (hback hk)
  · rw [show claim = some c from hsome, Option.map_some, eq_comm, Option.map_eq_some_iff] at hclaim
    obtain ⟨c', hc', hstart⟩ := hclaim
    obtain ⟨holder, hlast⟩ := h.last c' hc'
    refine ⟨holder, fun k t hk => ?_⟩
    rw [← hstart]
    exact (hlast k t (hback hk)).imp id (Or.imp (·.mono hsub) (·.mono hsub))

/-- A claim of the worker `i`: what was claimed before is certified. -/
theorem claim (h : ClaimInv ttl w ph) (he : ∀ k, e ≠ .invoked k) {r : StepClaimRecord}
    (hnew : ∀ k t, Claimed (e :: w.trace) k t →
      Claimed w.trace k t ∨ k = i ∧ t = r.startedAt) (hr : r.released = false)
    (hold : ∀ c, w.claim = some c → WasSuspended w.trace ∨ Certified ttl w.trace c.startedAt)
    (hs : Knows (e :: w.trace) i s) :
    ClaimInv ttl { w with claim := some r, trace := e :: w.trace } (update ph i s) := by
  have hsub : ∀ x ∈ w.trace, x ∈ e :: w.trace := fun _ hx => .tail _ hx
  refine ⟨knows_update (fun j _ => (h.knows j).cons (he j)) hs, ?_, nofun, ?_, h.fires_cons he⟩
  · rintro c ⟨⟩ hrel
    exact absurd (hr.symm.trans hrel) Bool.false_ne_true
  · rintro c ⟨⟩
    refine ⟨i, fun k t hk => ?_⟩
    rcases hnew k t hk with hk | hk
    · refine .inr ?_
      rcases hclaim : w.claim with _ | c
      · exact absurd hk (h.free hclaim k t)
      · obtain ⟨holder, hlast⟩ := h.last c hclaim
        rcases hlast k t hk with ⟨-, rfl⟩ | hcert
        · exact (hold c hclaim).imp (·.mono hsub) (·.mono hsub)
        · exact hcert.imp (·.mono hsub) (·.mono hsub)
    · exact .inl hk

/-- The worker `i` calls the body. -/
theorem invoke (h : ClaimInv ttl w ph) (howns : (ph i).owns) (hbegan : (ph i).began = false)
    (hs : Knows (.invoked i :: w.trace) i s) :
    ClaimInv ttl { w with trace := .invoked i :: w.trace } (update ph i s) := by
  have hsub : ∀ x ∈ w.trace, x ∈ .invoked i :: w.trace := fun _ hx => .tail _ hx
  have hback {k : ℕ} {t : Int} (hk : Claimed (.invoked i :: w.trace) k t) : Claimed w.trace k t := by
    rcases hk with hk | ⟨cur, hk⟩
    · exact .inl ((List.mem_cons.1 hk).resolve_left nofun)
    · exact .inr ⟨cur, (List.mem_cons.1 hk).resolve_left nofun⟩
  refine ⟨knows_update (fun j hj => (h.knows j).cons fun he => hj ?_) hs,
    fun c hc hrel => (h.released c hc hrel).mono hsub, fun hnone k t hk => h.free hnone k t (hback hk),
    fun c hc => ?_, ?_⟩
  · exact (StepEvent.invoked.inj he).symm
  · obtain ⟨holder, hlast⟩ := h.last c hc
    exact ⟨holder, fun k t hk =>
      (hlast k t (hback hk)).imp id (Or.imp (·.mono hsub) (·.mono hsub))⟩
  · intro pre j past hsplit k hk
    rcases pre with _ | ⟨e', pre⟩
    · obtain ⟨he, rfl⟩ := List.cons.inj hsplit
      obtain rfl := StepEvent.invoked.inj he
      obtain ⟨hkbegan, hkclaim⟩ := (h.knows k).invoked hk
      refine h.certified_of_ne ?_ hkclaim ((h.knows i).owns howns)
      -- A worker calls the body once.
      rintro rfl
      exact Bool.false_ne_true (hbegan.symm.trans hkbegan)
    · exact h.fires pre j past (List.cons.inj hsplit).2 k hk

variable {o : StepOp V}

/-- What an operation inside the journal, or `recover`, does. -/
theorem effect (h : ClaimInv ttl w ph) (ho : Allowed ttl (ph i) o) (hstart : o ≠ .start)
    (a : StepAnswer V) (hs : Knows (stepExec i a o w).2.trace i s) :
    ClaimInv ttl (stepExec i a o w).2 (update ph i s) := by
  rcases o with _ | out | _ | r | ⟨cur, next⟩ | ⟨mine, next⟩ | _ | ⟨cur, at_⟩ | _ | _
  · exact h.quiet w.output hs
  · rw [stepExec] at hs ⊢
    split at hs
    · next hnone =>
      rw [if_pos hnone]
      exact h.quiet (some out) hs
    · next hsome =>
      rw [if_neg hsome]
      exact h.quiet w.output hs
  · exact h.quiet w.output hs
  · rw [stepExec] at hs ⊢
    split at hs
    · next hnone =>
      rw [if_pos hnone]
      refine h.claim ?_ (fun k t hk => ?_) ho.1 (fun c hc => ?_) hs
      · exact nofun
      · rcases hk with hk | ⟨cur, hk⟩
        · rcases List.mem_cons.1 hk with he | hk
          · obtain ⟨rfl, rfl⟩ := StepEvent.claimed.inj he
            exact .inr ⟨rfl, rfl⟩
          · exact .inl (.inl hk)
        · exact .inl (.inr ⟨cur, (List.mem_cons.1 hk).resolve_left nofun⟩)
      · rw [hnone] at hc
        contradiction
    · next hsome =>
      rw [if_neg hsome]
      exact h.quiet w.output hs
  · rw [stepExec] at hs ⊢
    split at hs
    · next hcur =>
      rw [if_pos hcur]
      obtain ⟨hmay, hr, -⟩ := ho
      refine h.claim ?_ (fun k t hk => ?_) hr (fun c hc => ?_) hs
      · exact nofun
      · rcases hk with hk | ⟨cur, hk⟩
        · exact .inl (.inl ((List.mem_cons.1 hk).resolve_left nofun))
        · rcases List.mem_cons.1 hk with he | hk
          · obtain ⟨rfl, -, rfl⟩ := StepEvent.adopted.inj he
            exact .inr ⟨rfl, rfl⟩
          · exact .inl (.inr ⟨cur, hk⟩)
      · obtain rfl : cur = c := Option.some.inj (hcur.symm.trans hc)
        rcases hmay with hrel | ⟨at_, hasked, hold⟩
        · exact .inl (h.released cur hcur hrel)
        · exact .inr ⟨i, cur, at_, (h.knows i).asked cur at_ hasked, rfl, hold⟩
    · next hcur =>
      rw [if_neg hcur]
      exact h.quiet w.output hs
  · rw [stepExec] at hs ⊢
    split at hs
    · next hmine =>
      rw [if_pos hmine]
      obtain ⟨-, hstart, hrel⟩ := ho
      refine h.event ?_ ?_ ?_ ?_ ?_ hs
      · exact nofun
      · exact nofun
      · exact nofun
      · rw [hmine, Option.map_some, Option.map_some, hstart]
      · rintro c ⟨⟩ hc
        exact ((h.knows i).suspended (hrel hc)).mono fun _ hx => .tail _ hx
    · next hmine =>
      rw [if_neg hmine]
      exact h.quiet w.output hs
  · exact h.quiet w.output hs
  · rcases hrec : a.recovery with output | _ | _
    · rw [stepExec, hrec] at hs ⊢
      exact h.quiet w.output hs
    · rw [stepExec, hrec] at hs ⊢
      refine h.event ?_ ?_ ?_ rfl ?_ hs
      · exact nofun
      · exact nofun
      · exact nofun
      · exact fun c hc hr => (h.released c hc hr).mono fun _ hx => .tail _ hx
    · rw [stepExec, hrec] at hs ⊢
      exact h.quiet w.output hs
  · exact absurd rfl hstart
  · exact h.quiet w.output hs

/-- A worker whose operation throws knows what it knew. -/
theorem knows_effect (h : ClaimInv ttl w ph) (hstart : o ≠ .start) (a : StepAnswer V) :
    Knows (stepExec i a o w).2.trace i (ph i) := by
  rcases o with _ | out | _ | r | ⟨cur, next⟩ | ⟨mine, next⟩ | _ | ⟨cur, at_⟩ | _ | _
  case start => exact absurd rfl hstart
  case claimOutput | claim | adopt | stamp =>
    rw [stepExec]
    split
    all_goals first | exact h.knows i | exact (h.knows i).cons nofun
  case recover =>
    rcases hrec : a.recovery with output | _ | _ <;> rw [stepExec, hrec]
    · exact h.knows i
    · exact (h.knows i).cons nofun
    · exact h.knows i
  all_goals exact h.knows i

/-- What a worker learns has happened. -/
theorem knows_learn (h : ClaimInv ttl w ph) (hstart : o ≠ .start) (hfinish : o ≠ .finish)
    (a : StepAnswer V) :
    Knows (stepExec i a o w).2.trace i ((ph i).learn o (.ok (stepExec i a o w).1)) := by
  have hk := h.knows_effect (i := i) hstart a
  rcases o with _ | out | _ | r | ⟨cur, next⟩ | ⟨mine, next⟩ | _ | ⟨cur, at_⟩ | _ | _
  case get =>
    rw [stepExec] at hk ⊢
    rcases w.output.join with _ | v
    · exact ⟨hk.owns, hk.invoked, hk.asked, hk.suspended⟩
    · exact ⟨hk.owns, hk.invoked, hk.asked, hk.suspended⟩
  case claimOutput =>
    rw [stepExec] at hk ⊢
    split <;> exact ⟨(h.knows i).owns, (h.knows i).invoked, (h.knows i).asked, (h.knows i).suspended⟩
  case claim =>
    rw [stepExec] at hk ⊢
    split
    · next hnone =>
      rw [if_pos hnone] at hk
      exact ⟨fun _ => ⟨_, .inl (.head _)⟩, hk.invoked, hk.asked, hk.suspended⟩
    · next hsome =>
      rw [if_neg hsome] at hk
      refine ⟨fun ho => hk.owns ?_, hk.invoked, hk.asked, hk.suspended⟩
      rwa [StepPhase.learn, Bool.or_false] at ho
  case adopt =>
    rw [stepExec] at hk ⊢
    split
    · next hcur =>
      rw [if_pos hcur] at hk
      exact ⟨fun _ => ⟨_, .inr ⟨cur, .head _⟩⟩, hk.invoked, hk.asked, hk.suspended⟩
    · next hcur =>
      rw [if_neg hcur] at hk
      refine ⟨fun ho => hk.owns ?_, hk.invoked, hk.asked, hk.suspended⟩
      rwa [StepPhase.learn, Bool.or_false] at ho
  case recover =>
    rcases hrec : a.recovery with output | _ | _ <;> rw [stepExec, hrec] at hk ⊢
    · exact ⟨hk.owns, hk.invoked, hk.asked, hk.suspended⟩
    · refine ⟨hk.owns, hk.invoked, ?_, hk.suspended⟩
      rintro cur' at' ⟨⟩
      exact .head _
    · exact hk
  case start => exact absurd rfl hstart
  case finish => exact absurd rfl hfinish
  all_goals exact hk

/-- The body of the worker `i` ends. -/
theorem finish (h : ClaimInv ttl w ph) (outcome : Except StepError (Option V)) :
    ClaimInv ttl { w with trace := .ended i outcome :: w.trace }
      (update ph i ((ph i).learn .finish outcome)) := by
  refine h.event ?_ ?_ ?_ rfl ?_ ?_
  · exact nofun
  · exact nofun
  · exact nofun
  · exact fun c hc hr => (h.released c hc hr).mono fun _ hx => .tail _ hx
  · have hk : Knows (.ended i outcome :: w.trace) i (ph i) := (h.knows i).cons nofun
    rcases outcome with e | output
    · rcases e with _ | _ | _ | _ | waitId | _
      case suspended => exact ⟨hk.owns, hk.invoked, hk.asked, fun _ => ⟨i, waitId, .head _⟩⟩
      all_goals exact hk
    · exact ⟨hk.owns, hk.invoked, hk.asked, hk.suspended⟩

/-- An operation of a worker. -/
theorem step (h : ClaimInv ttl w ph) {a : StepAnswer V} {s' : StepPhase V}
    (hstep : WorkerStep ttl (ph i) o (stepMachine.exec i a o w).1 s') :
    ClaimInv ttl (stepMachine.exec i a o w).2 (update ph i s') := by
  obtain ⟨ho, rfl⟩ := hstep
  by_cases hstart : o = .start
  · subst hstart
    obtain ⟨howns, hbegan⟩ : (ph i).owns ∧ (ph i).began = false := ho
    refine h.invoke howns hbegan ⟨fun hs => ?_, fun _ => ⟨rfl, ?_⟩, fun cur at_ hs => ?_, fun hs => ?_⟩
    · obtain ⟨t, ht⟩ := (h.knows i).owns hs
      exact ⟨t, ht.mono fun _ hx => .tail _ hx⟩
    · obtain ⟨t, ht⟩ := (h.knows i).owns howns
      exact ⟨t, ht.mono fun _ hx => .tail _ hx⟩
    · exact .tail _ ((h.knows i).asked cur at_ hs)
    · exact ((h.knows i).suspended hs).mono fun _ hx => .tail _ hx
  by_cases hfinish : o = .finish
  · subst hfinish
    exact h.finish a.output
  rcases stepMachine_exec_cases hstart hfinish a w with hexec | ⟨e, w', hexec, hw'⟩
  · rw [hexec]
    exact h.effect ho hstart a (h.knows_learn hstart hfinish a)
  · rw [hexec, StepPhase.learn_thrown]
    rcases hw' with rfl | rfl
    · exact h.quiet w'.output (h.knows i)
    · exact h.effect ho hstart a (h.knows_effect hstart a)

end ClaimInv

/-! ## Outputs -/

/-- Neither a body nor `recover` returns `undefined`. -/
def Defined (_ : StepWorld V) (_ : ℕ) : (o : StepOp V) → o.Res → Prop
  | .finish, .ok output => output.isSome
  | .recover _ _, .ok (.done output) => output.isSome
  | _, _ => True

/-- What a worker knows of the recorded output. -/
structure Sees (output : Option (Option V)) (s : StepPhase V) : Prop where
  seen : ∀ v, s.seen = some v → output = some (some v)
  present : s.present → output.isSome
  vague : s.vague = false
  broken : s.broken = false

/-- An output that is recorded stays. -/
structure OutputInv (w : StepWorld V) (ph : ℕ → StepPhase V) : Prop where
  defined : ∀ x, w.output = some x → x.isSome
  sees : ∀ i, Sees w.output (ph i)

namespace OutputInv

variable {ttl : Int} {w w' : StepWorld V} {ph : ℕ → StepPhase V} {i : ℕ} {s : StepPhase V}

theorem init : OutputInv (⟨none, none, []⟩ : StepWorld V) fun _ => StepPhase.init :=
  ⟨nofun, fun _ => ⟨nofun, nofun, rfl, rfl⟩⟩

/-- An operation that records nothing. -/
theorem keep (h : OutputInv w ph) (hout : w'.output = w.output) (hs : Sees w.output s) :
    OutputInv w' (update ph i s) := by
  refine ⟨by rw [hout]; exact h.defined, ?_⟩
  rw [hout]
  exact (forall_update_iff ph fun _ s => Sees w.output s).2 ⟨hs, fun j _ => h.sees j⟩

/-- The first output is recorded. -/
theorem record (h : OutputInv w ph) (hnone : w.output = none) {v : V}
    (hout : w'.output = some (some v))
    (hs : Sees (some (some v)) s) : OutputInv w' (update ph i s) := by
  refine ⟨?_, ?_⟩
  · rw [hout]
    rintro x ⟨⟩
    rfl
  · rw [hout]
    refine (forall_update_iff ph fun _ s => Sees (some (some v)) s).2 ⟨hs, fun j _ => ?_⟩
    have hj := h.sees j
    rw [hnone] at hj
    exact ⟨fun u hu => absurd (hj.seen u hu) nofun, fun _ => rfl, hj.vague, hj.broken⟩

variable {o : StepOp V}

/-- An operation that throws, and may have had its effect. -/
theorem effect (h : OutputInv w ph) (ho : Allowed ttl (ph i) o) (a : StepAnswer V) :
    OutputInv (stepExec i a o w).2 (update ph i (ph i)) := by
  have hi := h.sees i
  rcases o with _ | out | _ | r | ⟨cur, next⟩ | ⟨mine, next⟩ | _ | ⟨cur, at_⟩ | _ | _
  case claimOutput =>
    rw [stepExec]
    split
    · next hnone =>
      obtain ⟨v, rfl⟩ := Option.isSome_iff_exists.1 (ho hi.vague)
      refine h.record hnone rfl ?_
      rw [hnone] at hi
      exact ⟨fun u hu => absurd (hi.seen u hu) nofun, fun _ => rfl, hi.vague, hi.broken⟩
    · exact h.keep rfl hi
  case claim | adopt | stamp =>
    rw [stepExec]
    split <;> exact h.keep rfl hi
  case recover =>
    refine h.keep ?_ hi
    rcases hrec : a.recovery with output | _ | _ <;> rw [stepExec, hrec]
  all_goals exact h.keep rfl hi

/-- An operation that answers. -/
theorem answer (h : OutputInv w ph) (ho : Allowed ttl (ph i) o) (a : StepAnswer V)
    (hfinish : o ≠ .finish) (hdef : Defined w i o (.ok (stepExec i a o w).1)) :
    OutputInv (stepExec i a o w).2
      (update ph i ((ph i).learn o (.ok (stepExec i a o w).1))) := by
  have hi := h.sees i
  rcases o with _ | out | _ | r | ⟨cur, next⟩ | ⟨mine, next⟩ | _ | ⟨cur, at_⟩ | _ | _
  case get =>
    rw [stepExec]
    rcases hout : w.output with _ | x
    · refine h.keep rfl ⟨hi.seen, hi.present, hi.vague, ?_⟩
      have hpresent : (ph i).present = false := by
        rw [← Bool.not_eq_true]
        intro hp
        have hsome := hi.present hp
        rw [hout] at hsome
        contradiction
      show ((ph i).broken || (ph i).present) = false
      rw [hpresent, hi.broken]
      rfl
    · obtain ⟨v, rfl⟩ := Option.isSome_iff_exists.1 (h.defined x hout)
      refine h.keep rfl ⟨?_, hi.present, hi.vague, hi.broken⟩
      rintro u ⟨⟩
      exact hout
  case claimOutput =>
    rw [stepExec]
    split
    · next hnone =>
      obtain ⟨v, rfl⟩ := Option.isSome_iff_exists.1 (ho hi.vague)
      refine h.record hnone rfl ⟨?_, fun _ => rfl, hi.vague, hi.broken⟩
      rintro u ⟨⟩
      rfl
    · next hsome =>
      refine h.keep rfl ⟨hi.seen, fun _ => ?_, hi.vague, hi.broken⟩
      exact Option.isSome_iff_ne_none.2 hsome
  case claim | adopt | stamp =>
    rw [stepExec]
    split <;> exact h.keep rfl ⟨hi.seen, hi.present, hi.vague, hi.broken⟩
  case recover =>
    rcases hrec : a.recovery with output | _ | _ <;> rw [stepExec, hrec] at hdef ⊢
    · refine h.keep rfl ⟨hi.seen, hi.present, ?_, hi.broken⟩
      show ((ph i).vague || output.isNone) = false
      rw [hi.vague, Bool.false_or, Option.isNone_eq_false_iff]
      exact hdef
    · exact h.keep rfl ⟨hi.seen, hi.present, hi.vague, hi.broken⟩
    · exact h.keep rfl hi
  case start => exact h.keep rfl ⟨hi.seen, hi.present, hi.vague, hi.broken⟩
  case finish => exact absurd rfl hfinish
  all_goals exact h.keep rfl hi

/-- An operation of a worker. -/
theorem step (h : OutputInv w ph) {a : StepAnswer V} {s' : StepPhase V}
    (hstep : WorkerStep ttl (ph i) o (stepMachine.exec i a o w).1 s')
    (hdef : Defined w i o (stepMachine.exec i a o w).1) :
    OutputInv (stepMachine.exec i a o w).2 (update ph i s') := by
  obtain ⟨ho, rfl⟩ := hstep
  have hi := h.sees i
  by_cases hfinish : o = .finish
  · subst hfinish
    refine h.keep rfl ?_
    rcases houtput : a.output with e | output
    · have hlearn : Sees w.output ((ph i).learn .finish (.error e)) := by
        rcases e with _ | _ | _ | _ | waitId | _
        case suspended => exact ⟨hi.seen, hi.present, hi.vague, hi.broken⟩
        all_goals exact hi
      simpa only [stepMachine, houtput] using hlearn
    · have hdefined : Defined w i .finish (.ok output) := by
        simpa only [stepMachine, houtput] using hdef
      have hsome : output.isSome := hdefined
      refine ⟨?_, ?_, ?_, ?_⟩
      all_goals simp only [stepMachine, houtput]
      · exact hi.seen
      · exact hi.present
      · show ((ph i).vague || output.isNone) = false
        rw [hi.vague, Bool.false_or, Option.isNone_eq_false_iff]
        exact hsome
      · exact hi.broken
  by_cases hstart : o = .start
  · subst hstart
    exact h.keep rfl ⟨hi.seen, hi.present, hi.vague, hi.broken⟩
  rcases stepMachine_exec_cases hstart hfinish a w with hexec | ⟨e, w', hexec, hw'⟩
  · rw [hexec] at hdef ⊢
    exact h.answer ho a hfinish hdef
  · rw [hexec, StepPhase.learn_thrown]
    rcases hw' with rfl | rfl
    · exact h.keep rfl hi
    · exact h.effect ho a

end OutputInv

/-! ## Workers -/

/-- Any number of workers at a step with side effects, in any order, with any clocks and
    crashes. The body is called a second time only after a call of it was suspended, or
    after `recover` has denied a claim, of the earlier call or of this one, that was
    stamped as failed or had outlived its time. When neither the body nor `recover` returns
    `undefined`, all workers that return an output return the same. -/
theorem sideEffect_certified (d : StepDurability) (ms : List (Move (StepAnswer V) Unit)) :
    FiresOnce d.ttl (fun k i j => j = k ∨ j = i) (stepMachine.play (stepStart d) ms).world.trace ∧
      (stepMachine.Meets Defined (stepStart d) ms → ∀ i j x y,
        (stepMachine.play (stepStart d) ms).procs i = .pure (.ok x) →
        (stepMachine.play (stepStart d) ms).procs j = .pure (.ok y) → x = y ∧ x.isSome) := by
  have hstart (i : ℕ) : ((stepStart d).procs i).Follows (WorkerStep d.ttl)
      (StepPhase.init : StepPhase V) (Ends Returned fun _ _ => True) := runStep_runs _ rfl
  refine ⟨?_, fun hms i j x y hi hj => ?_⟩
  · obtain ⟨ph, hinv, -⟩ := Machine.play_follows (J := ClaimInv d.ttl)
      (fun w ph i a o s' h hs _ => h.step hs) (fun w ph _ h => h) ClaimInv.init hstart
      (Machine.meets_true _ ms)
    exact hinv.fires
  · obtain ⟨ph, hinv, hfollows⟩ := Machine.play_follows (J := OutputInv)
      (fun w ph i a o s' h hs hok => h.step hs hok) (fun w ph _ h => h) OutputInv.init hstart hms
    have hret {k : ℕ} {z : Option V}
        (hk : (stepMachine.play (stepStart d) ms).procs k = .pure (.ok z)) :
        z.isSome ∧ (stepMachine.play (stepStart d) ms).world.output = some z := by
      have hends := hfollows k
      rw [hk] at hends
      obtain ⟨hsome, rfl⟩ := hends (hinv.sees k).vague (hinv.sees k).broken
      obtain ⟨v, hv⟩ := Option.isSome_iff_exists.1 hsome
      exact ⟨hsome, by rw [hv]; exact (hinv.sees k).seen v hv⟩
    exact ⟨Option.some.inj ((hret hi).2.symm.trans (hret hj).2), (hret hi).1⟩

/-! ## Two workers -/

/-- A step that can be asked about, with the default time to live. -/
def askable : StepDurability := ⟨true, none, false⟩

/-- The worker `i` makes `n` operations at the time `t`: the effect is not there, and the
    body returns `output`. -/
def returnsAt (t : Int) (i n : ℕ) (output : Option ℕ) : List (Move (StepAnswer ℕ) Unit) :=
  List.replicate n (.run i ⟨t, .notDone, .ok output, none, false⟩)

/-- The same, with a body that returns `7`. -/
def stepsAt (t : Int) (i n : ℕ) : List (Move (StepAnswer ℕ) Unit) := returnsAt t i n (some 7)

instance (w : StepWorld V) (i : ℕ) (o : StepOp V) (r : o.Res) : Decidable (Defined w i o r) := by
  rcases o with _ | _ | _ | _ | _ | _ | _ | _ | _ | _
  case finish => rcases r with _ | _ <;> dsimp only [Defined] <;> infer_instance
  case recover => rcases r with _ | _ | _ | _ <;> dsimp only [Defined] <;> infer_instance
  all_goals exact isTrue trivial

/-- The second worker finds the output of the first one. -/
theorem sideEffect_certified_replay :
    (stepMachine.play (stepStart askable) (stepsAt 0 0 6 ++ stepsAt 5 1 1)).procs 1 =
        .pure (.ok (some 7)) ∧
      ∀ x, (stepMachine.play (stepStart askable) (stepsAt 0 0 6 ++ stepsAt 5 1 1)).procs 0 =
        .pure (.ok x) → x = some 7 := by
  refine ⟨rfl, fun x hx => ?_⟩
  exact ((sideEffect_certified askable (stepsAt 0 0 6 ++ stepsAt 5 1 1)).2 (by decide +kernel)
    0 1 x (some 7) hx rfl).1

/-- The first worker claims and is slow; the second one waits, asks, adopts the claim and
    calls the body; then the first one calls it, too. Nobody has asked about the claim of
    the second worker. And where the first body returns `undefined`, the workers that take
    over return what they have. -/
theorem sideEffect_zombie :
    ¬FiresOnce askable.ttl (fun k _ j => j = k) (stepMachine.play (stepStart askable)
      (stepsAt 0 0 3 ++ stepsAt 60000 1 10 ++ stepsAt 60000 0 1)).world.trace ∧
    (let conf := stepMachine.play (stepStart askable)
      (returnsAt 0 0 6 none ++ returnsAt 60000 1 13 (some 7) ++ returnsAt 120000 2 13 (some 8))
    conf.procs 1 = .pure (.ok (some 7)) ∧ conf.procs 2 = .pure (.ok (some 8))) := by
  have htrace : (stepMachine.play (stepStart askable)
      (stepsAt 0 0 3 ++ stepsAt 60000 1 10 ++ stepsAt 60000 0 1)).world.trace =
      [.invoked 0, .invoked 1, .adopted 1 ⟨0, false, false⟩ 60000,
        .notDone 1 ⟨0, false, false⟩ 60000, .claimed 0 0] := by decide +kernel
  rw [htrace]
  refine ⟨fun h => ?_, rfl, rfl⟩
  rcases h [] 0 _ rfl 1 (.head _) with ⟨i, waitId, hi⟩ | ⟨j, t, rfl, hclaim, i, cur, at_, hdone, rfl, -⟩
  · simp at hi
  · have ht : cur.startedAt = 60000 := by
      rcases hclaim with hc | ⟨c, hc⟩
      · simp at hc
      · simp only [List.mem_cons, StepEvent.adopted.injEq, reduceCtorEq, List.not_mem_nil,
          or_false, false_or] at hc
        exact hc.2.2
    simp only [List.mem_cons, StepEvent.notDone.injEq, reduceCtorEq, List.not_mem_nil, or_false,
      false_or] at hdone
    rw [hdone.2.1] at ht
    contradiction

end Gnldev.Workflow
