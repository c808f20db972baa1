import Gnldev.Durable.Network.Records

/-!
# Network runs replay themselves

A call follows the records as far as there are any. So calls that return have followed the same
records, and a call that comes after one that has returned finds all of them. What a call returns is
in the records, unless the router could not be made to answer at the end (`Answered`).

* `tries_networkLoop`: what a call knows, turn by turn;
* `network_replays`: calls agree, later calls ask nobody, and no agent that has run is vetoed.
-/

namespace Gnldev.Durable

open Prog Function

/-! ## The loop -/

/-- A parsed decision is one that the router may give. -/
theorem parseDecision_ok {opts : RunNetworkOptions} {text : JsString} {force : Bool}
    {d : RouteDecision} (h : parseDecision opts text force = .ok d) :
    (force → ∃ answer, d = .final answer) ∧
      ∀ agent task, d = .route agent task → isRegistered opts agent := by
  unfold parseDecision at h
  split at h
  · contradiction
  split at h
  · contradiction
  dsimp only at h
  split at h
  · cases h
    exact ⟨fun _ => ⟨_, rfl⟩, nofun⟩
  by_cases hforce : force
  · rw [if_pos hforce] at h
    contradiction
  rw [if_neg hforce] at h
  split at h
  · next agent task _ _ _ =>
    split at h
    · next hreg =>
      cases h
      refine ⟨fun hf => absurd hf hforce, fun agent' task' heq => ?_⟩
      cases heq
      exact hreg
    · contradiction
  · contradiction

section Loop

variable {opts : RunNetworkOptions} {late : ℕ → Prop} {j : ℕ} {R : NetWorld → Prop}

variable {i : Option ℕ}

theorem decisionOk_of_parse {text : JsString} {d : RouteDecision}
    (h : parseDecision opts text i.isNone = .ok d) : DecisionOk opts i d := by
  refine ⟨?_, (parseDecision_ok h).2⟩
  rintro rfl
  exact (parseDecision_ok h).1 rfl

/-- The router decides. It fails only in a turn, not at the end. -/
theorem tries_decideOnce {history : List NetworkStep} (hR : (netRG opts late).Kept R) (hj : ¬late j) :
    Tries (netRG opts late) j R (decideOnce opts i history)
      (fun d w => R w ∧ DecisionOk opts i d) fun _ w => R w ∧ i ≠ none := by
  unfold decideOnce
  refine (tries_generateText hR hj).bind fun text => ?_
  split
  · next d hparse => exact tries_pure fun w _ hw => ⟨hw.1, decisionOk_of_parse hparse⟩
  · refine ((tries_generateText hR hj).pre fun _ hw => hw.1).bind fun text => ?_
    split
    · next d hparse => exact tries_pure fun w _ hw => ⟨hw.1, decisionOk_of_parse hparse⟩
    · next message hparse =>
      refine tries_throw fun w _ hw => ⟨hw.1, ?_⟩
      rintro rfl
      have hanswers := hw.2 rfl
      rw [answersAtLast, show parseDecision opts text true = .error message from hparse] at hanswers
      contradiction

/-- The decision of a turn is the record. A call that comes late reads it. -/
theorem tries_frozenDecision {history : List NetworkStep} (hR : (netRG opts late).Kept R)
    (hlate : ∀ w, R w → late j → (w.route i).isSome) :
    Tries (netRG opts late) j R (frozenDecision opts i history)
      (fun d w => R w ∧ w.route i = some d) fun _ _ => ¬late j ∧ i ≠ none := by
  unfold frozenDecision
  refine (tries_getRoute (late j) hR hlate).bind fun found => ?_
  cases found with
  | some d => exact tries_pure fun _ _ hw => hw
  | none =>
    by_cases hj : late j
    · exact tries_of_false fun _ hw => hw.2 hj
    have hdecide : Tries (netRG opts late) j (fun w => R w ∧ ¬late j) (decideOnce opts i history)
        (fun d w => R w ∧ DecisionOk opts i d) fun _ _ => ¬late j ∧ i ≠ none :=
      (tries_decideOnce hR hj).conseq (fun _ _ hw => hw.1) (fun _ _ _ hw => hw)
        fun _ _ _ hw => ⟨hj, hw.2⟩
    refine hdecide.bind fun d => ?_
    by_cases hd : DecisionOk opts i d
    swap
    · exact tries_of_false fun _ hw => hd hw.2
    refine ((tries_claimRoute hR hd).pre fun _ hw => hw.1).bind fun won => ?_
    cases won with
    | true => exact tries_pure fun _ _ hw => hw
    | false =>
      have hthere : (netRG opts late).Kept fun w => R w ∧ ∃ d, w.route i = some d :=
        hR.and (kept_of_grows fun _ _ _ h => fun ⟨d, hd⟩ => ⟨d, h.route i d hd⟩)
      refine (tries_getRoute True hthere fun w hw _ => ?_).bind fun winner => ?_
      · obtain ⟨d, hd⟩ := hw.2
        rw [hd]
        rfl
      · cases winner with
        | some d => exact tries_pure fun _ _ hw => ⟨hw.1.1, hw.2⟩
        | none => exact tries_of_false fun _ hw => hw.2 trivial

/-- The result of a step is the record. -/
theorem tries_freezeStep {X : NetError → NetWorld → Prop} {i : ℕ} {res : TaskResult}
    (hR : (netRG opts late).Kept R) :
    Tries (netRG opts late) j R (freezeStep i res) (fun res w => R w ∧ w.step i = some res) X := by
  unfold freezeStep
  refine (tries_claimStep hR).bind fun won => ?_
  cases won with
  | true => exact tries_pure fun _ _ hw => hw
  | false =>
    have hthere : (netRG opts late).Kept fun w => R w ∧ ∃ res, w.step i = some res :=
      hR.and (kept_of_grows fun _ _ _ h => fun ⟨res, hres⟩ => ⟨res, h.step i res hres⟩)
    refine (tries_getStep True hthere fun w hw _ => ?_).bind fun winner => ?_
    · obtain ⟨res, hres⟩ := hw.2
      rw [hres]
      rfl
    · cases winner with
      | some res => exact tries_pure fun _ _ hw => ⟨hw.1.1, hw.2⟩
      | none => exact tries_of_false fun _ hw => hw.2 trivial

/-- A step that is not vetoed has been cleared by the observer, if there is one. -/
theorem tries_vetoOf {X : NetError → NetWorld → Prop} {i : ℕ} {agent task : JsString}
    (hR : (netRG opts late).Kept R) :
    Tries (netRG opts late) j R (vetoOf opts i agent task)
      (fun veto w => R w ∧ (veto = none → opts.observer → w.asked i = some false)) X := by
  unfold vetoOf
  refine (tries_getVeto hR).bind fun veto => ?_
  cases veto with
  | some veto =>
    refine (tries_notify hR fun _ _ => rfl).bind fun _ => ?_
    exact tries_pure fun _ _ hw => ⟨hw, nofun⟩
  | none =>
    refine (tries_agentStart hR).bind fun verdict => ?_
    cases verdict with
    | none => exact tries_pure fun _ _ hw => ⟨hw.1, fun _ => hw.2.2⟩
    | some veto =>
      by_cases hobs : opts.observer
      swap
      · exact tries_of_false fun _ hw => hobs (hw.2.1 rfl)
      have hasked : (netRG opts late).Kept fun w => R w ∧ w.asked i = some true :=
        hR.and (kept_asked i true)
      refine ((tries_claimVeto hasked fun w hw => ⟨hobs, hw.2⟩).pre fun w hw => ?_).bind fun _ => ?_
      · exact ⟨hw.1, hw.2.2 hobs⟩
      · exact tries_pure fun _ _ hw => ⟨hw.1, nofun⟩

/-- The step of a turn is the record, or its agent is stopped. A call that comes late reads it. -/
theorem tries_networkStep {i : ℕ} {agent task : JsString} (hR : (netRG opts late).Kept R)
    (hlate : ∀ w, R w → late j → (w.step i).isSome) :
    Tries (netRG opts late) j R (networkStep opts i agent task)
      (fun res w => match res with
        | .inl res => R w ∧ w.step i = some res
        | .inr interrupts => interrupts ≠ [] ∧ ¬late j) fun _ _ => ¬late j := by
  have hfound (res : TaskResult) : (netRG opts late).Kept fun w => R w ∧ w.step i = some res :=
    hR.and (kept_step i res)
  unfold networkStep
  refine (tries_getStep (late j) hR hlate).bind fun found => ?_
  cases found with
  | some res =>
    refine (tries_notify (hfound res) fun _ _ => rfl).bind fun _ => ?_
    refine (tries_notify (hfound res) fun _ _ => rfl).bind fun _ => ?_
    exact tries_pure fun _ _ hw => hw
  | none =>
    by_cases hj : late j
    · exact tries_of_false fun _ hw => hw.2 hj
    refine ((tries_vetoOf hR).pre fun _ hw => hw.1).bind fun veto => ?_
    cases veto with
    | some replaceResult =>
      refine ((tries_freezeStep hR).pre fun _ hw => hw.1).bind fun res => ?_
      refine (tries_notify (hfound res) fun _ _ => rfl).bind fun _ => ?_
      exact tries_pure fun _ _ hw => hw
    | none =>
      have hcleared : (netRG opts late).Kept fun w =>
          R w ∧ (opts.observer → w.asked i = some false) :=
        hR.and ((kept_asked i false).imp _)
      dsimp only
      split
      · exact tries_throw fun _ _ _ => hj
      refine Tries.bind (T := fun _ w => R w) ?_ fun out => ?_
      · exact (tries_runAgent hcleared hj fun _ hw => hw.2).conseq
          (fun _ _ hw => ⟨hw.1, hw.2 rfl⟩) (fun _ _ _ hw => hw.1) fun _ _ _ _ => hj
      obtain ⟨text, interrupts⟩ := out
      dsimp only
      split
      · next hstop => exact tries_pure fun _ _ _ => ⟨hstop, hj⟩
      refine (tries_freezeStep hR).bind fun res => ?_
      refine (tries_notify (hfound res) fun _ _ => rfl).bind fun _ => ?_
      exact tries_pure fun _ _ hw => hw

section Following

variable {r₀ : NetworkResult} {steps : List NetworkStep} {i : ℕ}

/-- What a call knows after the steps before `i`: they are in the records, and the records go on to
    `r₀`, if it comes late. -/
def Following (opts : RunNetworkOptions) (late : ℕ → Prop) (r₀ : NetworkResult) (j i : ℕ)
    (steps : List NetworkStep) (w : NetWorld) : Prop :=
  w.path i = some steps ∧ (late j → Settled opts w r₀)

theorem kept_following : (netRG opts late).Kept (Following opts late r₀ j i steps) :=
  (kept_path i steps).and ((kept_settled r₀).imp _)

/-- The router is made to answer, and does. -/
theorem tries_forcedAnswer {X : NetError → NetWorld → Prop} {maxIterations : ℕ} :
    Tries (netRG opts late) j (Following opts late r₀ j opts.turns steps)
      (forcedAnswer opts maxIterations steps)
      (fun answer w => Following opts late r₀ j opts.turns steps w ∧
        w.route none = some (.final answer)) X := by
  have hR := @kept_following opts late j r₀ steps opts.turns
  have hlate (w : NetWorld) (hw : Following opts late r₀ j opts.turns steps w) (hj : late j) :
      (w.route none).isSome := (hw.2 hj).answer hw.1
  unfold forcedAnswer
  refine ((tries_getRoute (late j) hR hlate).post (fun _ _ _ hw => hw.1)).bind fun _ => ?_
  refine (tries_notify hR fun _ _ => rfl).bind fun _ => ?_
  have hfrozen : Tries (netRG opts late) j (Following opts late r₀ j opts.turns steps)
      (frozenDecision opts none steps)
      (fun d w => Following opts late r₀ j opts.turns steps w ∧ w.route none = some d) X :=
    (tries_frozenDecision hR hlate).conseq (fun _ _ hw => hw) (fun _ _ _ hw => hw)
      fun _ _ _ hw => absurd rfl hw.2
  refine hfrozen.bind fun forced => ?_
  refine (tries_notify (hR.and (kept_route none forced)) fun _ _ => rfl).bind fun _ => ?_
  cases forced with
  | final answer => exact tries_pure fun _ _ hw => hw
  | route agent task =>
    refine tries_pure fun w hI hw => ?_
    obtain ⟨answer, hanswer⟩ := hI.final _ hw.2
    contradiction

/-- What a call returns, if it does. -/
def NetworkReturns (opts : RunNetworkOptions) (late : ℕ → Prop) (j : ℕ) (r : NetworkResult)
    (w : NetWorld) : Prop :=
  (r.interrupts = [] → Settled opts w r) ∧ (late j → r.interrupts = [])

/-- The turns are over. -/
theorem tries_forceFinal {X : NetError → NetWorld → Prop} :
    Tries (netRG opts late) j (Following opts late r₀ j opts.turns steps)
      (forceFinal opts opts.turns steps) (NetworkReturns opts late j) X := by
  unfold forceFinal
  refine Tries.bind (T := fun answer w => Following opts late r₀ j opts.turns steps w ∧
    w.route none = some (.final answer)) ?_ fun answer => ?_
  · exact (tries_forcedAnswer (X := fun _ _ => False)).tryCatch fun _ => tries_of_false fun _ hw => hw
  · refine (tries_notify (kept_following.and (kept_route none _)) fun _ _ => rfl).bind fun _ => ?_
    exact tries_pure fun _ _ hw => ⟨fun _ => .forced hw.1.1 hw.2, fun _ => rfl⟩

/-- The turns from `i` on. -/
theorem tries_networkLoop {left : ℕ} (hi : left + i = opts.turns) :
    Tries (netRG opts late) j (Following opts late r₀ j i steps)
      (networkLoop opts left i steps) (NetworkReturns opts late j) fun _ _ => ¬late j := by
  induction left generalizing i steps with
  | zero =>
    obtain rfl : i = opts.turns := by omega
    exact tries_forceFinal
  | succ left ih =>
    have hlt : i < opts.turns := by omega
    have hR := @kept_following opts late j r₀ steps i
    have hlate (w : NetWorld) (hw : Following opts late r₀ j i steps w) (hj : late j) :
        (w.route (some i)).isSome := (hw.2 hj).route hw.1 hlt
    unfold networkLoop
    refine ((tries_getRoute (late j) hR hlate).post (fun _ _ _ hw => hw.1)).bind fun _ => ?_
    refine (tries_notify hR fun _ _ => rfl).bind fun _ => ?_
    have hfrozen : Tries (netRG opts late) j (Following opts late r₀ j i steps)
        (frozenDecision opts (some i) steps)
        (fun d w => Following opts late r₀ j i steps w ∧ w.route (some i) = some d)
        fun _ _ => ¬late j :=
      (tries_frozenDecision hR hlate).conseq (fun _ _ hw => hw) (fun _ _ _ hw => hw)
        fun _ _ _ hw => hw.1
    refine hfrozen.bind fun decision => ?_
    have hdecided := hR.and (kept_route (some i) decision)
    refine (tries_notify hdecided fun _ _ => rfl).bind fun _ => ?_
    cases decision with
    | final answer =>
      refine (tries_notify hdecided fun _ _ => rfl).bind fun _ => ?_
      exact tries_pure fun _ _ hw => ⟨fun _ => .final hw.1.1 hlt hw.2, fun _ => rfl⟩
    | route agent task =>
      dsimp only
      split
      · next hreg =>
        -- The agents are the same for every call.
        refine tries_throw fun w hI hw => ?_
        rw [hI.registered i agent task hw.2] at hreg
        contradiction
      have hstep := @tries_networkStep opts late j _ i agent task hdecided
        fun w hw hj => (hw.1.2 hj).step hw.1.1 hlt hw.2
      refine hstep.bind fun out => ?_
      cases out with
      | inl res =>
        refine (@ih (steps ++ [⟨res, i⟩]) (i + 1) (by omega)).pre fun w hw => ?_
        refine ⟨?_, hw.1.1.2⟩
        rw [NetWorld.path, hw.1.1.1, hw.1.2, hw.2]
      | inr interrupts =>
        exact tries_pure fun _ _ hw => ⟨fun h => absurd h hw.1, fun hj => absurd hj hw.2⟩

end Following

end Loop

/-! ## How long a call takes -/

section Moves

variable (opts : RunNetworkOptions)

theorem within_performNet (o : NetOp) : (performNet o).run.Within 1 := fun _ => trivial

theorem within_notify (n : Notice) : (notify opts n).run.Within 1 := by
  unfold notify
  split
  · exact within_performNet _
  · trivial

theorem within_decideOnce (i : Option ℕ) (history : List NetworkStep) :
    (decideOnce opts i history).run.Within 2 := by
  unfold decideOnce
  refine Within.tryBind (m := 1) (n := 1) (fun _ => trivial) fun text => ?_
  split
  · trivial
  · refine Within.tryBind (m := 1) (n := 0) (fun _ => trivial) fun text => ?_
    split <;> trivial

theorem within_frozenDecision (i : Option ℕ) (history : List NetworkStep) :
    (frozenDecision opts i history).run.Within 5 := by
  unfold frozenDecision
  refine Within.tryBind (m := 1) (n := 4) (within_performNet _) fun found => ?_
  split
  · trivial
  refine Within.tryBind (m := 2) (n := 2) (within_decideOnce opts i history) fun decision => ?_
  refine Within.tryBind (m := 1) (n := 1) (within_performNet _) fun won => ?_
  split
  · trivial
  refine Within.tryBind (m := 1) (n := 0) (within_performNet _) fun winner => ?_
  split <;> trivial

theorem within_freezeStep (i : ℕ) (res : TaskResult) : (freezeStep i res).run.Within 2 := by
  unfold freezeStep
  refine Within.tryBind (m := 1) (n := 1) (within_performNet _) fun won => ?_
  split
  · trivial
  refine Within.tryBind (m := 1) (n := 0) (within_performNet _) fun winner => ?_
  split <;> trivial

theorem within_vetoOf (i : ℕ) (agent task : JsString) :
    (vetoOf opts i agent task).run.Within 3 := by
  unfold vetoOf
  refine Within.tryBind (m := 1) (n := 2) (within_performNet _) fun veto => ?_
  split
  · exact Within.tryBind (m := 1) (n := 1) (within_notify opts _) fun _ => trivial
  refine Within.tryBind (m := 1) (n := 1) (within_notify opts _) fun verdict => ?_
  split
  · exact Within.tryBind (m := 1) (n := 0) (within_performNet _) fun _ => trivial
  · trivial

theorem within_networkStep (i : ℕ) (agent task : JsString) :
    (networkStep opts i agent task).run.Within 8 := by
  unfold networkStep
  refine Within.tryBind (m := 1) (n := 7) (within_performNet _) fun found => ?_
  split
  · refine Within.tryBind (m := 1) (n := 6) (within_notify opts _) fun _ => ?_
    exact Within.tryBind (m := 1) (n := 5) (within_notify opts _) fun _ => trivial
  refine Within.tryBind (m := 3) (n := 4) (within_vetoOf opts i agent task) fun veto => ?_
  split
  · refine Within.tryBind (m := 2) (n := 2) (within_freezeStep i _) fun res => ?_
    exact Within.tryBind (m := 1) (n := 1) (within_notify opts _) fun _ => trivial
  split
  · trivial
  refine Within.tryBind (m := 1) (n := 3) (fun _ => trivial) fun out => ?_
  obtain ⟨text, interrupts⟩ := out
  dsimp only
  split
  · trivial
  refine Within.tryBind (m := 2) (n := 1) (within_freezeStep i _) fun res => ?_
  exact Within.tryBind (m := 1) (n := 0) (within_notify opts _) fun _ => trivial

theorem within_forceFinal (maxIterations : ℕ) (steps : List NetworkStep) :
    (forceFinal opts maxIterations steps).run.Within 9 := by
  unfold forceFinal forcedAnswer
  refine Within.tryBind (m := 8) (n := 1) ?_ fun answer => ?_
  · refine Within.bind (m := 8) (n := 0) ?_ fun r => ?_
    · refine Within.tryBind (m := 1) (n := 7) (within_performNet _) fun _ => ?_
      refine Within.tryBind (m := 1) (n := 6) (within_notify opts _) fun _ => ?_
      refine Within.tryBind (m := 5) (n := 1) (within_frozenDecision opts none steps) fun forced => ?_
      refine Within.tryBind (m := 1) (n := 0) (within_notify opts _) fun _ => ?_
      split <;> trivial
    · cases r <;> trivial
  · exact Within.tryBind (m := 1) (n := 0) (within_notify opts _) fun _ => trivial

theorem within_networkLoop (left i : ℕ) (steps : List NetworkStep) :
    (networkLoop opts left i steps).run.Within (16 * left + 9) := by
  induction left generalizing i steps with
  | zero => exact within_forceFinal opts i steps
  | succ left ih =>
    have hmoves : 16 * (left + 1) + 9 = 1 + (1 + (5 + (1 + (8 + (16 * left + 9))))) := by omega
    rw [hmoves]
    unfold networkLoop
    refine Within.tryBind (within_performNet _) fun _ => ?_
    refine Within.tryBind (within_notify opts _) fun _ => ?_
    refine Within.tryBind (within_frozenDecision opts (some i) steps) fun decision => ?_
    refine Within.tryBind (within_notify opts _) fun _ => ?_
    split
    · exact Within.tryBind (m := 8 + (16 * left + 9)) (n := 0)
        ((within_notify opts _).mono (by omega)) fun _ => trivial
    split
    · trivial
    refine Within.tryBind (within_networkStep opts i _ _) fun out => ?_
    split
    · trivial
    · exact ih _ _

/-- The operations of a call, at most. -/
def RunNetworkOptions.moves : ℕ := 16 * opts.turns + 9

theorem within_runNetwork : (runNetwork opts).run.Within opts.moves := by
  unfold runNetwork
  split
  · trivial
  · exact within_networkLoop opts opts.turns 0 []

end Moves

/-! ## Runs -/

section Runs

variable {opts : RunNetworkOptions} {late : ℕ → Prop}

/-- What a call leaves, when it is done. -/
def NetworkEnds (opts : RunNetworkOptions) (late : ℕ → Prop) (j : ℕ) :
    Except NetError NetworkResult → NetWorld → Prop
  | .ok r, w => opts.agents ≠ [] ∧ NetworkReturns opts late j r w
  | .error _, _ => ¬late j

theorem sat_runNetwork (r₀ : NetworkResult) (j : ℕ) (hagents : late j → opts.agents ≠ []) :
    (runNetwork opts).run.Sat (netRG opts late) j (Following opts late r₀ j 0 [])
      (NetworkEnds opts late j) := by
  unfold runNetwork
  split
  · next hnone => exact fun _ _ _ hj => hagents hj hnone
  · next hsome =>
    refine Sat.conseq (tries_networkLoop (Nat.add_zero _)) (fun _ _ h => h) fun r w _ h => ?_
    cases r with
    | ok r => exact ⟨hsome, h⟩
    | error e => exact h

/-- Calls that nobody waits for. -/
def nobody (_ : ℕ) : Prop := False

theorem netInv_empty : NetInv opts nobody NetWorld.empty :=
  ⟨nofun, nofun, nofun, nofun, nofun⟩

variable {ms : List (Move NetAnswer Empty)}

/-- What is known of a run, and of what its calls still have to do. -/
theorem network_triples (r₀ : NetworkResult)
    (h : netMachine.Meets (fun w _ o r => Answered opts w o r) (netStart opts) ms) :
    NetInv opts nobody (netMachine.play (netStart opts) ms).world ∧
      ∀ j, ∃ P, (netRG opts nobody).Stable j P ∧ P (netMachine.play (netStart opts) ms).world ∧
        ((netMachine.play (netStart opts) ms).procs j).Sat (netRG opts nobody) j P
          (NetworkEnds opts nobody j) :=
  Machine.play_triples (S := netRG opts nobody) (c := netStart opts)
    (P := fun j => Following opts nobody r₀ j 0 [])
    (fun _ e => e.elim) netInv_empty (fun _ => kept_following.stable _)
    (fun _ => ⟨rfl, fun hj => hj.elim⟩) (fun j => sat_runNetwork r₀ j fun hj => hj.elim) h

variable {j : ℕ}

/-- What a call has returned is in the records. -/
theorem settled_of_returned
    (h : netMachine.Meets (fun w _ o r => Answered opts w o r) (netStart opts) ms)
    {r : NetworkResult} (hret : (netMachine.play (netStart opts) ms).procs j = .pure (.ok r))
    (hr : r.interrupts = []) :
    opts.agents ≠ [] ∧ Settled opts (netMachine.play (netStart opts) ms).world r := by
  obtain ⟨hI, hall⟩ := network_triples r h
  obtain ⟨P, -, hP, hsat⟩ := hall j
  rw [hret] at hsat
  exact (hsat _ hI hP).imp_right fun hends => hends.1 hr

/-- Only a call itself calls the router or an agent for it. -/
theorem exec_called {k : ℕ} {a : NetAnswer} {o : NetOp} {w : NetWorld} (hjk : j ≠ k) :
    (netMachine.exec j a o w).2.called k = w.called k := by
  have hcall : (w.call j).called k = w.called k := update_of_ne hjk.symm _ _
  cases o with
  | generateText => exact hcall
  | run i =>
    change ((w.call j).finish i a.agent).called k = w.called k
    unfold NetWorld.finish
    split <;> exact hcall
  | notify n =>
    cases n with
    | agentStart i agent task fromCache => cases fromCache <;> rfl
    | _ => rfl
  | _ => rfl

/-- The setting in which a call has called nobody. -/
theorem netRG_within (j : ℕ) :
    (netRG opts nobody).within (fun w => w.called j = false) = netRG opts (· = j) := by
  unfold RG.within netRG
  congr 1
  funext w
  refine propext ⟨fun h => ?_, fun h => ?_⟩
  · refine ⟨h.1.final, h.1.registered, h.1.vetoed, h.1.finished, ?_⟩
    rintro k rfl
    exact h.2
  · exact ⟨⟨h.final, h.registered, h.vetoed, h.finished, nofun⟩, h.quiet j rfl⟩

/-- A call that comes after a result is in the records calls nobody, and ends with that result. -/
theorem network_later {c : Conf NetOp NetOp.Res (Except NetError NetworkResult) NetWorld}
    {r : NetworkResult} (hagents : opts.agents ≠ []) (hI : NetInv opts nobody c.world)
    (hall : ∀ k, ∃ P, (netRG opts nobody).Stable k P ∧ P c.world ∧
      (c.procs k).Sat (netRG opts nobody) k P (NetworkEnds opts nobody k))
    (hset : Settled opts c.world r) (hproc : c.procs j = (runNetwork opts).run)
    (hcalled : c.world.called j = false)
    (h : netMachine.Meets (fun w _ o r => Answered opts w o r) c ms) :
    (netMachine.play c ms).world.called j = false ∧
      ∀ x, (netMachine.play c ms).procs j = .pure x → x = .ok r := by
  choose P hst hP hsat using hall
  let P' := update P j (Following opts (· = j) r j 0 [])
  let Q (k : ℕ) (x : Except NetError NetworkResult) (w : NetWorld) : Prop :=
    k = j → NetworkEnds opts (· = j) j x w ∧ Settled opts w r
  have hI' : NetInv opts (· = j) c.world := by
    refine ⟨hI.final, hI.registered, hI.vetoed, hI.finished, ?_⟩
    rintro k rfl
    exact hcalled
  have hP' (k : ℕ) : P' k c.world := by
    by_cases hk : k = j
    · subst hk
      rw [show P' k = _ from update_self ..]
      exact ⟨rfl, fun _ => hset⟩
    · rw [show P' k = _ from update_of_ne hk ..]
      exact hP k
  have hst' (k : ℕ) : (netRG opts (· = j)).Stable k (P' k) := by
    by_cases hk : k = j
    · subst hk
      rw [show P' k = _ from update_self ..]
      exact kept_following.stable k
    · rw [show P' k = _ from update_of_ne hk .., ← netRG_within]
      exact (hst k).within
  have hsat' (k : ℕ) : (c.procs k).Sat (netRG opts (· = j)) k (P' k) (Q k) := by
    by_cases hk : k = j
    · subst hk
      rw [show P' k = _ from update_self .., hproc]
      exact ((sat_runNetwork r k fun _ => hagents).frame (kept_settled r)).conseq
        (fun _ _ hw => ⟨hw, hw.2 rfl⟩) fun _ _ _ hw _ => hw
    · rw [show P' k = _ from update_of_ne hk .., ← netRG_within]
      have hquiet : ∀ w w', NetInv opts nobody w → NetInv opts nobody w' → w.Grows k w' →
          w.called j = false → w'.called j = false :=
        fun w w' _ _ hG hw => (hG.called j (Ne.symm hk)).trans hw
      exact ((hsat k).within hquiet).post fun _ _ _ _ hkj => absurd hkj hk
  obtain ⟨hIend, -⟩ := Machine.play_triples (fun _ e => e.elim) hI' hst' hP' hsat' h
  refine ⟨hIend.quiet j rfl, fun x hx => ?_⟩
  have hend := Machine.play_returned (fun _ e => e.elim) hI' hst' hP' hsat' h hx rfl
  cases x with
  | error e => exact absurd rfl hend.1
  | ok r' => exact congrArg Except.ok ((hend.1.2.1 (hend.1.2.2 rfl)).unique hend.2)

/-- In a run in which the router answers when it is made to, and the observer does not change its
    mind, calls that return without interrupts agree; a call that begins after that calls neither the
    router nor an agent, and comes to the same result; and no step whose agent has run is vetoed. -/
theorem network_replays {ms : List (Move NetAnswer Empty)}
    (h : netMachine.Meets (fun w _ o r => Answered opts w o r) (netStart opts) ms) :
    (∀ j j' r r', (netMachine.play (netStart opts) ms).procs j = .pure (.ok r) →
      (netMachine.play (netStart opts) ms).procs j' = .pure (.ok r') →
      r.interrupts = [] → r'.interrupts = [] → r = r') ∧
    (∀ n j r, (netMachine.play (netStart opts) (ms.take n)).procs j = .pure (.ok r) →
      r.interrupts = [] → ∀ j', (∀ m ∈ ms.take n, ¬m.isOf j') →
        (netMachine.play (netStart opts) ms).world.called j' = false ∧
        (∀ x, (netMachine.play (netStart opts) ms).procs j' = .pure x → x = .ok r) ∧
        (opts.moves ≤ ms.countP (Move.isOf j') →
          (netMachine.play (netStart opts) ms).procs j' = .pure (.ok r))) ∧
    ∀ i, (netMachine.play (netStart opts) ms).world.finished i →
      (netMachine.play (netStart opts) ms).world.veto i = none := by
  refine ⟨fun j j' r r' hj hj' hr hr' => ?_, fun n j r hj hr j' hnew => ?_, fun i hi => ?_⟩
  · exact (settled_of_returned h hj hr).2.unique (settled_of_returned h hj' hr').2
  · have hbefore := Machine.meets_take h n
    obtain ⟨hagents, hset⟩ := settled_of_returned hbefore hj hr
    obtain ⟨hI, hall⟩ := network_triples r hbefore
    obtain ⟨hproc, hcalled⟩ := Machine.play_untouched (M := netMachine) (c := netStart opts)
      (P := fun w => w.called j' = false) (fun _ _ _ _ hk hw => (exec_called hk).trans hw)
      (fun e => e.elim) rfl hnew
    have hafter : netMachine.Meets (fun w _ o r => Answered opts w o r)
        (netMachine.play (netStart opts) (ms.take n)) (ms.drop n) := by
      rw [← List.take_append_drop n ms, Machine.meets_append] at h
      exact h.2
    have hplay : netMachine.play (netStart opts) ms =
        netMachine.play (netMachine.play (netStart opts) (ms.take n)) (ms.drop n) := by
      rw [← Machine.play_append, List.take_append_drop]
    obtain ⟨hquiet, hsame⟩ := network_later hagents hI hall hset hproc hcalled hafter
    rw [hplay]
    refine ⟨hquiet, hsame, fun hmoves => ?_⟩
    rw [← hplay]
    obtain ⟨x, hx⟩ := Machine.play_within (c := netStart opts) (within_runNetwork opts) hmoves
    rw [hx, hsame x (hplay ▸ hx)]
  · obtain ⟨hI, -⟩ := network_triples (finalResult opts [] 0 []) h
    cases hv : (netMachine.play (netStart opts) ms).world.veto i with
    | none => rfl
    | some v =>
      obtain ⟨hobs, hasked⟩ := hI.vetoed i v hv
      rw [hI.finished i hi hobs] at hasked
      contradiction

/-- The router's texts. -/
def routeText : JsString :=
  js "\x7b\"action\":\"route\",\"agent\":\"search\",\"task\":\"look\"\x7d"

def finalText : JsString := js "\x7b\"action\":\"final\",\"answer\":\"done\"\x7d"

/-- A network of one agent and one turn. -/
def searchOptions : RunNetworkOptions where
  runId := js "r"
  agents := [(js "search", none)]
  task := js "find it"
  system := none
  maxIterations := some 1
  observer := false
  parseJson raw :=
    if raw = routeText then
      some (.object [("action", .str (js "route")), ("agent", .str (js "search")),
        ("task", .str (js "look"))])
    else if raw = finalText then
      some (.object [("action", .str (js "final")), ("answer", .str (js "done"))])
    else none

/-- The agent finds something. -/
def searchAnswer (text : Except NetError JsString) : NetAnswer := ⟨text, .ok (js "found", []), none⟩

/-- The first call asks the router, the agent and, for the end, the router; then comes a second. -/
def searchRun : List (Move NetAnswer Empty) :=
  List.replicate 10 (.run 0 (searchAnswer (.ok routeText))) ++
    List.replicate 2 (.run 0 (searchAnswer (.ok finalText))) ++
    List.replicate 5 (.run 1 (searchAnswer (.ok finalText)))

/-- The steps of both. -/
def searchSteps : List NetworkStep := [⟨⟨js "search", js "look", js "found"⟩, 0⟩]

theorem search_replays :
    (netMachine.play (netStart searchOptions) searchRun).world.called 1 = false ∧
      ∀ x, (netMachine.play (netStart searchOptions) searchRun).procs 1 = .pure x →
        x = .ok (forcedResult searchOptions searchSteps (js "done")) :=
  have hrun := (@network_replays searchOptions searchRun (by decide)).2.1 12 0
    (forcedResult searchOptions searchSteps (js "done")) rfl rfl 1 (by decide)
  ⟨hrun.1, hrun.2.1⟩

/-- The same, but the router cannot be reached when the first call asks it for the end. -/
def failingRun : List (Move NetAnswer Empty) :=
  List.replicate 10 (.run 0 (searchAnswer (.ok routeText))) ++
    .run 0 (searchAnswer (.error (.router (js "503")))) ::
    List.replicate 7 (.run 1 (searchAnswer (.ok finalText)))

/-- The second call asks the router again, and returns another text. -/
theorem ending_not_replayed :
    (netMachine.play (netStart searchOptions) (failingRun.take 11)).procs 0 =
      .pure (.ok (forcedResult searchOptions searchSteps (js "found"))) ∧
    (netMachine.play (netStart searchOptions) failingRun).procs 1 =
      .pure (.ok (forcedResult searchOptions searchSteps (js "done"))) ∧
    (∀ m ∈ failingRun.take 11, ¬m.isOf 1) ∧
    (netMachine.play (netStart searchOptions) failingRun).world.called 1 = true ∧
    js "found" ≠ js "done" :=
  ⟨rfl, rfl, by decide, rfl, by decide⟩

end Runs

end Gnldev.Durable
