import Gnldev.Durable.Tool.Aside

/-!
# The gate of a condemned run

Of all that a call does, what matters here is whether it has found its run not to be
condemned (`foundAlive`), whether it claims (`claims`), and that what it copies under
other keys says so. A call with side effects claims, or records a success that its
provider tells of, only after the gate has let it pass (`GateStep`).

Before the gate the text is *calm* in every phase, since it does not claim at all (`Aside`); after
the gate it is calm in the phases that are past it (`Past`).
-/

namespace Gnldev.Durable

open Prog ToolCall

variable {V : Type}

/-- The operation takes the key for an execution, or records that it has taken place. -/
def claims : ToolOp V → Bool
  | .rec_ _ (.putIfAbsent _ _) => true
  | .rec_ _ (.putIfMatch _ _ _) => true
  | .rec_ .recovered (.put _ _) => true
  | _ => false

/-- The run was not condemned when the call looked. -/
def foundAlive : (o : ToolOp V) → o.Res → Bool
  | .ask .compensated, .ok condemned => !condemned
  | _, _ => false

/-- What is put under a key that is not the call's is a copy. -/
def Marked : ToolOp V → Prop
  | .rec_ .mirror (.put _ v) => v.mirrorOf.isSome
  | _ => True

/-- The protocol of the gate: whether the call has passed it. -/
def GateStep (c : ToolCall) (passed : Bool) (o : ToolOp V) (r : o.Res) (passed' : Bool) : Prop :=
  (claims o → c.sideEffect → passed) ∧ Marked o ∧ passed' = (passed || foundAlive o r)

/-- The call has passed the gate, or it has none. -/
def Past (c : ToolCall) (passed : Bool) : Prop := c.sideEffect → passed

/-- An assertion that is kept when the gate is passed. -/
def Keeps (I : Bool → Prop) : Prop := ∀ s b, I s → I (s || b)

theorem keeps_true : Keeps fun _ => True := fun _ _ _ => trivial

theorem keeps_past (c : ToolCall) : Keeps (Past c) := fun s b h hside => by
  rw [h hside, Bool.true_or]

section Calm

variable {c : ToolCall} {I : Bool → Prop} {α β : Type}

/-- In the phases of `I` the program is allowed what it does, and it stays in them. -/
def Calm (c : ToolCall) (I : Bool → Prop) (p : TM V α) : Prop :=
  Runs (GateStep c) I p (fun s _ => I s) fun s _ => I s

theorem calm_pure (a : α) : Calm c I (pure a : TM V α) := runs_pure fun _ hs => hs

theorem calm_throw (e : ToolError) : Calm c I (throw e : TM V α) := runs_throw fun _ hs => hs

variable {p : TM V α}

theorem Calm.bind {f : α → TM V β} (h : Calm c I p) (hf : ∀ a, Calm c I (f a)) :
    Calm c I (p >>= f) := Runs.bind h hf

theorem Calm.tryCatch {f : ToolError → TM V α} (h : Calm c I p) (hf : ∀ e, Calm c I (f e)) :
    Calm c I (tryCatch p f) := Runs.tryCatch h hf

theorem calm_orThrow (x : Except ToolError α) : Calm c I (orThrow x : TM V α) := by
  rcases x with e | a
  · exact calm_throw e
  · exact calm_pure a

theorem Calm.when {b : Prop} [Decidable b] {q : TM V β} (hp : Calm c I p) (hq : Calm c I q) :
    Calm c I (if b then p >>= fun _ => q else q) := Runs.when hp hq

theorem Calm.orElse {b : Prop} [Decidable b] {f : α → TM V β} (a : α) (h : Calm c I p)
    (hf : ∀ a, Calm c I (f a)) : Calm c I (if b then p >>= f else f a) :=
  Runs.orElse a h (fun _ hs => hs) hf

/-- A gate, and what comes after it. -/
theorem Calm.gate {g : TM V (Option (Out V))} {next : TM V (Out V)} (h : Calm c I g)
    (hnext : Calm c I next) :
    Calm c I (g >>= fun stopped => match stopped with
      | some output => return output
      | none => next) := by
  refine h.bind fun stopped => ?_
  rcases stopped with _ | output
  · exact hnext
  · exact calm_pure output

variable {o : ToolOp V} {m : Part}

theorem aside_of_claims (ho : Aside m o) (h : claims o) : m = .claims := by
  rcases o with ⟨site, _ | _ | _ | _⟩ | _ | _ | _ | _ | _ | _ | _
  case rec_.put => cases site <;> first | exact ho | contradiction
  case rec_.putIfAbsent => cases site <;> exact ho
  case rec_.putIfMatch => cases site <;> exact ho
  all_goals contradiction

theorem marked_of_aside (ho : Aside m o) : Marked o := by
  rcases o with ⟨site, _ | _ | _ | _⟩ | _ | _ | _ | _ | _ | _ | _
  case rec_.put => cases site <;> first | exact ho | trivial
  case rec_.get | rec_.putIfAbsent | rec_.putIfMatch => cases site <;> trivial
  all_goals trivial

variable (hI : Keeps I)
include hI

/-- What neither claims nor runs the tool. -/
theorem calm_of_aside (hm : ∀ s, I s → m = .claims → c.sideEffect → s) (h : KeepsAside m p) : Calm c I p := by
  intro s hs
  refine (Follows.of_only (I := I) (fun s o r hs ho => ?_) h hs).mono fun s r hs => ?_
  · exact ⟨_, ⟨fun h => hm s hs (aside_of_claims ho h), marked_of_aside ho, rfl⟩, hI s _ hs⟩
  · rcases r with e | a <;> exact hs

theorem calm_aside (h : KeepsAside .reads p) : Calm c I p :=
  calm_of_aside hI (fun _ _ hm => by cases hm) h

/-- An operation that does not claim. -/
theorem calm_await (h : claims o = false) (hmark : Marked o) :
    Calm c I (await_ o) := by
  intro s hs r
  refine ⟨_, ⟨fun hclaims => absurd hclaims (by simp [h]), hmark, rfl⟩, ?_⟩
  rcases r with e | r <;> exact hI s _ hs

theorem calm_runTool (key : JsString) (dupKey : Option JsString) (record : Option (ToolRecord V))
    (claimedDup : Bool) : Calm c I (c.runTool key dupKey record claimedDup) := by
  refine Calm.tryCatch ((calm_await hI rfl (by trivial)).bind fun _ =>
    (calm_await hI rfl (by trivial)).bind fun output => ?_) fun error => ?_
  · refine .orElse output (calm_aside hI (aside_ask _)) fun output => ?_
    dsimp only
    split
    · exact (calm_aside hI (aside_writeToolTerminal _ _ _)).bind fun _ => calm_pure _
    · exact (calm_aside hI (aside_writeToolTerminal _ _ _)).bind fun _ => calm_pure _
  · refine (calm_aside hI (aside_writeToolTerminal _ _ _)).bind fun _ => ?_
    rcases dupKey with _ | dupKey
    · exact calm_throw error
    · refine calm_aside hI (.ite ?_ (aside_throw error))
      exact aside_now.bind fun _ => (aside_dup _).bind fun _ => aside_throw error

theorem calm_afterClaim (key : JsString) (dupKey : Option JsString) (approved : Option Bool)
    (record : Option (ToolRecord V)) : Calm c I (c.afterClaim key dupKey approved record) := by
  refine (calm_aside hI (aside_markerGate _ _)).bind fun gate => ?_
  rcases gate with output | claimedDup
  · exact calm_pure output
  · exact .when (calm_aside hI aside_note)
      ((calm_aside hI (aside_lookupGate _ _ _)).gate (calm_runTool hI _ _ _ _))

omit hI

theorem calm_claimAndRun (key : JsString) (dupKey : Option JsString)
    (record : Option (ToolRecord V)) : Calm c (Past c) (c.claimAndRun key dupKey record) := by
  refine (calm_of_aside (keeps_past c) (fun _ hs _ hside => hs hside)
    (aside_claimLoop _ _ _ _ _ _)).bind fun claimed => ?_
  rcases claimed with output | record
  · exact calm_pure output
  · exact calm_afterClaim (keeps_past c) _ _ _ _

/-! ## The gate -/

/-- The gate lets a call pass only if it has found its run alive. -/
theorem compensatedGate_passes :
    Runs (GateStep c) (fun _ => True) (c.compensatedGate : TM V (Option (Out V)))
      (fun s r => r = none → Past c s) fun _ _ => True := by
  have hask : Runs (GateStep c) (fun _ => True) (await_ (.ask .compensated) : TM V Bool)
      (fun s condemned => condemned = false → s = true) fun _ _ => True := by
    intro s _ r
    refine ⟨_, ⟨fun hc => by contradiction, trivial, rfl⟩, ?_⟩
    rcases r with e | condemned
    · trivial
    · rintro rfl
      exact Bool.or_true s
  unfold compensatedGate
  split
  · refine Runs.bind hask fun condemned => ?_
    split
    · have hblocked : Calm c (fun _ => True) (c.blockedOrThrow .compensatedRun : TM V (Out V)) :=
        calm_aside keeps_true (aside_blockedOrThrow _)
      refine Runs.pre (J := fun _ => True) (Runs.bind hblocked fun _ => runs_pure ?_)
        fun _ _ => trivial
      exact fun _ _ h => by contradiction
    · next hcondemned =>
      exact runs_pure fun s hs _ _ => hs (Bool.eq_false_iff.2 hcondemned)
  · next hside => exact runs_pure fun s _ _ h => absurd h hside

/-- The gates, of which the second is this one, and the claim. -/
theorem calm_executeFresh (key : JsString) (record : Option (ToolRecord V)) :
    Calm c (fun _ => True) (c.executeFresh key record) := by
  have hI := keeps_true
  have hgates (dupKey : Option JsString) : Calm c (fun _ => True) (gates
      [c.duplicateGate key dupKey (c.approved record), c.compensatedGate,
        c.semanticGate key record (c.approved record), c.taintGate key (c.approved record),
        c.limitsGate key] (c.claimAndRun key dupKey record)) := by
    have hpast := keeps_past c
    have hlater : Calm c (Past c) (gates [c.semanticGate key record (c.approved record),
        c.taintGate key (c.approved record), c.limitsGate key]
        (c.claimAndRun key dupKey record)) :=
      (calm_aside hpast (aside_semanticGate _ _ _)).gate <|
        (calm_aside hpast (aside_taintGate _ _)).gate <|
        (calm_aside hpast (aside_limitsGate _)).gate (calm_claimAndRun _ _ _)
    refine (calm_aside hI (aside_duplicateGate _ _ _)).gate ?_
    refine Runs.bind compensatedGate_passes fun stopped => ?_
    rcases stopped with _ | output
    · exact hlater.conseq (fun _ hs => hs rfl) (fun _ _ _ => trivial) fun _ _ _ => trivial
    · exact runs_pure fun _ _ => trivial
  exact .when (calm_aside hI aside_note) <| (calm_aside hI (aside_policyGate _ _)).gate <|
    .when (calm_aside hI (aside_bestEffort aside_note)) <| (calm_orThrow c.dupKey).bind hgates

/-- A call with side effects claims only after it has found its run alive. -/
theorem execute_gated (c : ToolCall) :
    c.execute.run.Follows (GateStep c) false fun _ (_ : Except ToolError (Out V)) => True := by
  have hI := keeps_true
  have hexecute : Calm c (fun _ => True) (c.execute : TM V (Out V)) := by
    refine (calm_orThrow c.key).bind fun key => ?_
    refine .orElse none (calm_aside hI (aside_await (o := .rec_ .first (.get key)) (by simp [Aside]))) fun cached => ?_
    refine (calm_aside hI (aside_ctxGet (by simp) key cached)).bind fun record => ?_
    refine .when (calm_aside hI aside_assertCrossRunOwner) ?_
    split
    · exact calm_aside hI (aside_replayRecord (by simp) _ _ _)
    · exact calm_executeFresh _ _
  exact (hexecute false trivial).mono fun _ _ _ => trivial

end Calm

end Gnldev.Durable
