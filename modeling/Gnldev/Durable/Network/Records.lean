import Gnldev.Durable.Network

/-!
# The records of a network run

Every record of a network run stays as it is. What the records tell of the run, and what each
operation of a call does to them.

* `NetWorld.path`: the steps that the records tell of;
* `Settled`: a result that is in the records;
* `Answered`: the condition on what the router and the observer answer;
* `NetInv`, `netRG`: what holds of the records in a run that meets it.
-/

namespace Gnldev.Durable

open Prog Function

/-! ## What the records tell -/

/-- The first `n` steps of the run. -/
def NetWorld.path (w : NetWorld) : ℕ → Option (List NetworkStep)
  | 0 => some []
  | n + 1 =>
    match w.path n, w.route (some n), w.step n with
    | some steps, some (.route _ _), some res => some (steps ++ [⟨res, n⟩])
    | _, _, _ => none

section Settled

variable (opts : RunNetworkOptions)

/-- The result of a call whose router was made to answer. -/
def forcedResult (steps : List NetworkStep) (answer : JsString) : NetworkResult :=
  ⟨opts.runId, answer, steps, opts.turns, true, [], none⟩

/-- The result is in the records: the router has answered, in its turn or at the end. -/
inductive Settled (w : NetWorld) : NetworkResult → Prop where
  | final {n steps answer} : w.path n = some steps → n < opts.turns →
      w.route (some n) = some (.final answer) → Settled w (finalResult opts steps n answer)
  | forced {steps answer} : w.path opts.turns = some steps →
      w.route none = some (.final answer) → Settled w (forcedResult opts steps answer)

end Settled

/-- Records stay, and so does the first answer of an observer. Nobody calls for another. -/
structure NetWorld.Grows (j : ℕ) (w w' : NetWorld) : Prop where
  route : ∀ i d, w.route i = some d → w'.route i = some d
  step : ∀ i res, w.step i = some res → w'.step i = some res
  veto : ∀ i v, w.veto i = some v → w'.veto i = some v
  asked : ∀ i b, w.asked i = some b → w'.asked i = some b
  called : ∀ k, k ≠ j → w'.called k = w.called k

/-- The router can be reached, and answers at the latest when it is asked again. -/
def answersAtLast (opts : RunNetworkOptions) (attempt : ℕ) : Except NetError JsString → Bool
  | .ok text => attempt ≠ 1 || (parseDecision opts text true).isOk
  | .error _ => false

/-- An operation is answered as it must be: the router, when it is made to answer, answers, and an
    observer does not change its mind about a step. -/
def Answered (opts : RunNetworkOptions) (w : NetWorld) : (o : NetOp) → o.Res → Prop
  | .generateText none attempt _, r => answersAtLast opts attempt r
  | .notify (.agentStart i _ _ false), verdict => ∀ b ∈ w.asked i, verdict.isSome = b
  | _, _ => True

instance (opts : RunNetworkOptions) (w : NetWorld) (o : NetOp) (r : o.Res) :
    Decidable (Answered opts w o r) := by
  unfold Answered
  split <;> infer_instance

/-- What holds of the records. The calls `late` have called nobody. -/
structure NetInv (opts : RunNetworkOptions) (late : ℕ → Prop) (w : NetWorld) : Prop where
  final : ∀ d, w.route none = some d → ∃ answer, d = .final answer
  registered : ∀ i agent task, w.route (some i) = some (.route agent task) → isRegistered opts agent
  vetoed : ∀ i v, w.veto i = some v → opts.observer ∧ w.asked i = some true
  finished : ∀ i, w.finished i → opts.observer → w.asked i = some false
  quiet : ∀ j, late j → w.called j = false

/-- The setting of the argument. -/
def netRG (opts : RunNetworkOptions) (late : ℕ → Prop) :
    RG NetOp NetOp.Res NetWorld NetAnswer Empty where
  M := netMachine
  ok w _ o r := Answered opts w o r
  I := NetInv opts late
  G j := NetWorld.Grows j

section Records

variable {opts : RunNetworkOptions} {late : ℕ → Prop} {w w' : NetWorld} {j : ℕ}

theorem NetWorld.Grows.refl (w : NetWorld) : w.Grows j w :=
  ⟨fun _ _ h => h, fun _ _ h => h, fun _ _ h => h, fun _ _ h => h, fun _ _ => rfl⟩

theorem NetWorld.Grows.trans {w'' : NetWorld} (h : w.Grows j w') (h' : w'.Grows j w'') :
    w.Grows j w'' where
  route i d hd := h'.route i d (h.route i d hd)
  step i res hres := h'.step i res (h.step i res hres)
  veto i v hv := h'.veto i v (h.veto i v hv)
  asked i b hb := h'.asked i b (h.asked i b hb)
  called k hk := (h'.called k hk).trans (h.called k hk)

variable {n : ℕ} {steps : List NetworkStep}

theorem NetWorld.Grows.path (h : w.Grows j w') (hp : w.path n = some steps) :
    w'.path n = some steps := by
  induction n generalizing steps with
  | zero => exact hp
  | succ n ih =>
    rw [NetWorld.path] at hp ⊢
    split at hp
    · next before agent task res hbefore hroute hstep =>
      rw [ih hbefore, h.route _ _ hroute, h.step _ _ hstep]
      exact hp
    · contradiction

theorem Settled.grows {r : NetworkResult} (hr : Settled opts w r) (h : w.Grows j w') :
    Settled opts w' r := by
  cases hr with
  | final hp hn hroute => exact .final (h.path hp) hn (h.route _ _ hroute)
  | forced hp hroute => exact .forced (h.path hp) (h.route _ _ hroute)

theorem path_succ (h : w.path (n + 1) = some steps) :
    ∃ before agent task res, w.path n = some before ∧ w.route (some n) = some (.route agent task) ∧
      w.step n = some res ∧ steps = before ++ [⟨res, n⟩] := by
  rw [NetWorld.path] at h
  split at h
  · next before agent task res hbefore hroute hstep =>
    exact ⟨before, agent, task, res, hbefore, hroute, hstep, (Option.some.inj h).symm⟩
  · contradiction

/-- The path is there up to each of its steps. -/
theorem path_le {m : ℕ} (h : w.path m = some steps) (hnm : n < m) :
    ∃ agent task res, w.route (some n) = some (.route agent task) ∧ w.step n = some res := by
  induction m generalizing steps with
  | zero => omega
  | succ m ih =>
    obtain ⟨before, agent, task, res, hbefore, hroute, hstep, -⟩ := path_succ h
    rcases Nat.lt_succ_iff_lt_or_eq.1 hnm with hlt | rfl
    · exact ih hbefore hlt
    · exact ⟨agent, task, res, hroute, hstep⟩

/-- A turn that is final is not on the path. -/
theorem path_final {m : ℕ} {answer : JsString} (h : w.path m = some steps)
    (hroute : w.route (some n) = some (.final answer)) : m ≤ n := by
  by_contra hnm
  obtain ⟨agent, task, res, hr, -⟩ := path_le h (Nat.lt_of_not_le hnm)
  rw [hroute] at hr
  exact nomatch Option.some.inj hr

/-- There is one result in the records. -/
theorem Settled.unique {r r' : NetworkResult} (h : Settled opts w r) (h' : Settled opts w r') :
    r = r' := by
  cases h with
  | @final n steps answer hp hn hroute =>
    cases h' with
    | @final n' steps' answer' hp' hn' hroute' =>
      obtain rfl : n = n' := Nat.le_antisymm (path_final hp hroute') (path_final hp' hroute)
      obtain rfl := Option.some.inj (hp.symm.trans hp')
      obtain rfl : answer = answer' := by simpa [hroute] using hroute'
      rfl
    | forced hp' _ => exact absurd (path_final hp' hroute) (Nat.not_le_of_lt hn)
  | @forced steps answer hp hroute =>
    cases h' with
    | final _ hn' hroute' => exact absurd (path_final hp hroute') (Nat.not_le_of_lt hn')
    | @forced steps' answer' hp' hroute' =>
      obtain rfl := Option.some.inj (hp.symm.trans hp')
      obtain rfl : answer = answer' := by simpa [hroute] using hroute'
      rfl

section Found

variable {r : NetworkResult} {i : ℕ} {steps : List NetworkStep}

/-- Whoever follows the records finds a decision, -/
theorem Settled.route (h : Settled opts w r) (hp : w.path i = some steps) (hi : i < opts.turns) :
    (w.route (some i)).isSome := by
  cases h with
  | @final n _ answer hpn hn hroute =>
    rcases Nat.lt_or_ge i n with hlt | hge
    · obtain ⟨agent, task, res, hr, -⟩ := path_le hpn hlt
      rw [hr]
      rfl
    · obtain rfl : n = i := Nat.le_antisymm hge (path_final hp hroute)
      rw [hroute]
      rfl
  | forced hpn _ =>
    obtain ⟨agent, task, res, hr, -⟩ := path_le hpn hi
    rw [hr]
    rfl

/-- a step, -/
theorem Settled.step {agent task : JsString} (h : Settled opts w r) (hp : w.path i = some steps)
    (hi : i < opts.turns) (hr : w.route (some i) = some (.route agent task)) :
    (w.step i).isSome := by
  cases h with
  | @final n _ answer hpn hn hroute =>
    rcases Nat.lt_or_ge i n with hlt | hge
    · obtain ⟨agent, task, res, -, hs⟩ := path_le hpn hlt
      rw [hs]
      rfl
    · obtain rfl : n = i := Nat.le_antisymm hge (path_final hp hroute)
      rw [hroute] at hr
      exact nomatch Option.some.inj hr
  | forced hpn _ =>
    obtain ⟨agent, task, res, -, hs⟩ := path_le hpn hi
    rw [hs]
    rfl

/-- and an answer. -/
theorem Settled.answer (h : Settled opts w r) (hp : w.path opts.turns = some steps) :
    (w.route none).isSome := by
  cases h with
  | final _ hn hroute => exact absurd (path_final hp hroute) (Nat.not_le_of_lt hn)
  | forced _ hroute =>
    rw [hroute]
    rfl

end Found

end Records

/-! ## The operations -/

section Operations

variable {opts : RunNetworkOptions} {late : ℕ → Prop} {j : ℕ} {R : NetWorld → Prop}
  {X : NetError → NetWorld → Prop}

theorem kept_of_grows {P : NetWorld → Prop} (h : ∀ j w w', NetWorld.Grows j w w' → P w → P w') :
    (netRG opts late).Kept P where
  step j w w' _ _ hG := h j w w' hG
  env e := e.elim

theorem kept_route (i : Option ℕ) (d : RouteDecision) :
    (netRG opts late).Kept fun w => w.route i = some d :=
  kept_of_grows fun _ _ _ h => h.route i d

theorem kept_step (i : ℕ) (res : TaskResult) :
    (netRG opts late).Kept fun w => w.step i = some res :=
  kept_of_grows fun _ _ _ h => h.step i res

theorem kept_asked (i : ℕ) (b : Bool) : (netRG opts late).Kept fun w => w.asked i = some b :=
  kept_of_grows fun _ _ _ h => h.asked i b

theorem kept_path (n : ℕ) (steps : List NetworkStep) :
    (netRG opts late).Kept fun w => w.path n = some steps :=
  kept_of_grows fun _ _ _ h => h.path

theorem kept_settled (r : NetworkResult) : (netRG opts late).Kept fun w => Settled opts w r :=
  kept_of_grows fun _ _ _ h hr => hr.grows h

/-- An operation that only asks. -/
theorem tries_ask {o : NetOp} {T : o.Res → NetWorld → Prop} (hR : (netRG opts late).Kept R)
    (hT : ∀ r, (netRG opts late).Kept (T r)) (hsame : ∀ a w, (netMachine.exec j a o w).2 = w)
    (hask : ∀ a w, NetInv opts late w → R w → T (netMachine.exec j a o w).1 w) :
    Tries (netRG opts late) j R (performNet o) (fun r w => R w ∧ T r w) X := by
  refine tries_perform hR hT fun w a hI hw _ => ?_
  change NetInv opts late (netMachine.exec j a o w).2 ∧
    NetWorld.Grows j w (netMachine.exec j a o w).2 ∧
    T (netMachine.exec j a o w).1 (netMachine.exec j a o w).2
  rw [hsame]
  exact ⟨hI, .refl w, hask a w hI hw⟩

/-- A decision that is read. Where there must be one, it is found. -/
theorem tries_getRoute {i : Option ℕ} (p : Prop) (hR : (netRG opts late).Kept R)
    (hp : ∀ w, R w → p → (w.route i).isSome) :
    Tries (netRG opts late) j R (performNet (.getRoute i))
      (fun (r : Option RouteDecision) w => R w ∧ match r with
        | some d => w.route i = some d
        | none => ¬p) X := by
  refine tries_ask (o := .getRoute i) hR (fun r => ?_) (fun _ _ => rfl) fun a w hI hw => ?_
  · cases r with
    | none => exact RG.kept_const _
    | some d => exact kept_route i d
  · change match w.route i with
      | some d => w.route i = some d
      | none => ¬p
    cases hr : w.route i with
    | some d => rfl
    | none =>
      intro h
      have hsome := hp w hw h
      rw [hr] at hsome
      contradiction

variable {i : ℕ}

/-- A step that is read. -/
theorem tries_getStep (p : Prop) (hR : (netRG opts late).Kept R)
    (hp : ∀ w, R w → p → (w.step i).isSome) :
    Tries (netRG opts late) j R (performNet (.getStep i))
      (fun (r : Option TaskResult) w => R w ∧ match r with
        | some res => w.step i = some res
        | none => ¬p) X := by
  refine tries_ask (o := .getStep i) hR (fun r => ?_) (fun _ _ => rfl) fun a w hI hw => ?_
  · cases r with
    | none => exact RG.kept_const _
    | some res => exact kept_step i res
  · change match w.step i with
      | some res => w.step i = some res
      | none => ¬p
    cases hr : w.step i with
    | some res => rfl
    | none =>
      intro h
      have hsome := hp w hw h
      rw [hr] at hsome
      contradiction

theorem tries_getVeto (hR : (netRG opts late).Kept R) :
    Tries (netRG opts late) j R (performNet (.getVeto i)) (fun _ w => R w) X :=
  (tries_ask (o := .getVeto i) (T := fun _ _ => True) hR (fun _ => RG.kept_const True)
    (fun _ _ => rfl) fun _ _ _ _ => trivial).post (fun _ _ _ h => h.1)

variable {K V : Type}

/-- A claim of a key: the record is there, and it is the call's own if the claim is won. -/
theorem claimAt_self [DecidableEq K] (m : K → Option V) (k : K) (v : V) :
    claimAt m k v k = some ((m k).getD v) := update_self ..

theorem claimAt_won [DecidableEq K] (m : K → Option V) (k : K) (v : V) :
    if (m k).isNone then claimAt m k v k = some v else ∃ u, claimAt m k v k = some u := by
  rw [claimAt_self]
  cases m k with
  | none => rfl
  | some u => exact ⟨u, rfl⟩

theorem claimAt_of_some [DecidableEq K] {m : K → Option V} {k k' : K} {v u : V}
    (h : m k' = some u) : claimAt m k v k' = some u := by
  unfold claimAt
  by_cases hk : k' = k
  · subst hk
    rw [update_self, h]
    rfl
  · rw [update_of_ne hk, h]

theorem claimAt_eq_some [DecidableEq K] {m : K → Option V} {k k' : K} {v u : V}
    (h : claimAt m k v k' = some u) : m k' = some u ∨ k' = k ∧ u = v := by
  unfold claimAt at h
  by_cases hk : k' = k
  · subst hk
    rw [update_self] at h
    cases hm : m k' with
    | some u' =>
      rw [hm] at h
      exact .inl h
    | none =>
      rw [hm] at h
      exact .inr ⟨rfl, (Option.some.inj h).symm⟩
  · rw [update_of_ne hk] at h
    exact .inl h

/-- A decision that the router may give. -/
def DecisionOk (opts : RunNetworkOptions) (i : Option ℕ) (d : RouteDecision) : Prop :=
  (i = none → ∃ answer, d = .final answer) ∧
    ∀ agent task, d = .route agent task → isRegistered opts agent

/-- A decision that is claimed. -/
theorem tries_claimRoute {i : Option ℕ} {d : RouteDecision} (hR : (netRG opts late).Kept R)
    (hd : DecisionOk opts i d) :
    Tries (netRG opts late) j R (performNet (.claimRoute i d))
      (fun (won : Bool) w => R w ∧ if won then w.route i = some d else ∃ d, w.route i = some d)
      X := by
  refine tries_perform hR (fun won => ?_) fun w a hI _ _ => ⟨?_, ?_, claimAt_won w.route i d⟩
  · cases won with
    | true => exact kept_route i d
    | false => exact kept_of_grows fun _ _ _ h => fun ⟨d, hd⟩ => ⟨d, h.route i d hd⟩
  · refine ⟨fun d' h => ?_, fun k agent task h => ?_, hI.vetoed, hI.finished, hI.quiet⟩
    · rcases claimAt_eq_some h with h | ⟨rfl, rfl⟩
      · exact hI.final d' h
      · exact hd.1 rfl
    · rcases claimAt_eq_some h with h | ⟨-, h⟩
      · exact hI.registered k agent task h
      · exact hd.2 agent task h.symm
  · exact { NetWorld.Grows.refl w with route := fun _ _ => claimAt_of_some }

/-- A step that is claimed. -/
theorem tries_claimStep {res : TaskResult} (hR : (netRG opts late).Kept R) :
    Tries (netRG opts late) j R (performNet (.claimStep i res))
      (fun (won : Bool) w => R w ∧ if won then w.step i = some res else ∃ res, w.step i = some res)
      X := by
  refine tries_perform hR (fun won => ?_) fun w a hI _ _ => ⟨?_, ?_, claimAt_won w.step i res⟩
  · cases won with
    | true => exact kept_step i res
    | false => exact kept_of_grows fun _ _ _ h => fun ⟨d, hd⟩ => ⟨d, h.step i d hd⟩
  · exact ⟨hI.final, hI.registered, hI.vetoed, hI.finished, hI.quiet⟩
  · exact { NetWorld.Grows.refl w with step := fun _ _ => claimAt_of_some }

/-- A veto that is claimed, after the observer has given it. -/
theorem tries_claimVeto {v : DelegationVeto} (hR : (netRG opts late).Kept R)
    (hasked : ∀ w, R w → opts.observer ∧ w.asked i = some true) :
    Tries (netRG opts late) j R (performNet (.claimVeto i v)) (fun _ w => R w) X := by
  have hclaim : Tries (netRG opts late) j R (performNet (.claimVeto i v))
      (fun _ w => R w ∧ True) X := by
    refine tries_perform hR (fun _ => RG.kept_const True) fun w a hI hw _ => ⟨?_, ?_, trivial⟩
    · refine ⟨hI.final, hI.registered, fun k u h => ?_, hI.finished, hI.quiet⟩
      rcases claimAt_eq_some h with h | ⟨rfl, -⟩
      · exact hI.vetoed k u h
      · exact hasked w hw
    · exact { NetWorld.Grows.refl w with veto := fun _ _ => claimAt_of_some }
  exact hclaim.post (fun _ _ _ h => h.1)

variable {w : NetWorld}

theorem ask_of_some {k : ℕ} {b vetoed : Bool} (h : w.asked k = some b) :
    (w.ask i vetoed).asked k = some b := by
  change update w.asked i _ k = some b
  by_cases hk : k = i
  · subst hk
    rw [update_self, h]
    rfl
  · rw [update_of_ne hk, h]

/-- What the observer says of a step that is not frozen. -/
theorem tries_agentStart {agent task : JsString} (hR : (netRG opts late).Kept R) :
    Tries (netRG opts late) j R (notify opts (.agentStart i agent task false))
      (fun verdict w => R w ∧ (verdict.isSome → opts.observer) ∧
        (opts.observer → w.asked i = some verdict.isSome)) X := by
  unfold notify
  by_cases hobs : opts.observer
  · rw [if_pos hobs]
    have hask : Tries (netRG opts late) j R (performNet (.notify (.agentStart i agent task false)))
        (fun (verdict : Option DelegationVeto) w => R w ∧ w.asked i = some verdict.isSome) X := by
      refine tries_perform hR (fun _ => kept_asked _ _) fun w a hI _ hok => ⟨?_, ?_, ?_⟩
      · refine ⟨hI.final, hI.registered, fun k v h => ?_, fun k h hobs => ?_, hI.quiet⟩
        · exact ⟨hobs, ask_of_some (hI.vetoed k v h).2⟩
        · exact ask_of_some (hI.finished k h hobs)
      · exact { NetWorld.Grows.refl w with asked := fun _ _ => ask_of_some }
      · change update w.asked i _ i = _
        rw [update_self]
        cases hb : w.asked i with
        | none => rfl
        | some b => exact congrArg some (hok b hb).symm
    exact hask.post (fun _ _ _ h => ⟨h.1, fun _ => hobs, fun _ => h.2⟩)
  · rw [if_neg hobs]
    exact tries_pure fun w _ hw => ⟨hw, nofun, fun h => absurd h hobs⟩

/-- Another notice. -/
theorem tries_notify {n : Notice} (hR : (netRG opts late).Kept R)
    (hn : ∀ a w, (netMachine.exec j a (.notify n) w).2 = w) :
    Tries (netRG opts late) j R (notify opts n) (fun _ w => R w) X := by
  unfold notify
  split
  · exact (tries_ask (o := .notify n) (T := fun _ _ => True) hR (fun _ => RG.kept_const True) hn
      fun _ _ _ _ => trivial).post (fun _ _ _ h => h.1)
  · exact tries_pure fun _ _ h => h

theorem netInv_call (hI : NetInv opts late w) (hj : ¬late j) :
    NetInv opts late (w.call j) := by
  refine ⟨hI.final, hI.registered, hI.vetoed, hI.finished, fun k hk => ?_⟩
  have hkj : k ≠ j := by
    rintro rfl
    exact hj hk
  exact (update_of_ne hkj _ _).trans (hI.quiet k hk)

theorem netInv_finish {r : Except NetError (JsString × NetInterrupts)} (hI : NetInv opts late w)
    (hcleared : opts.observer → w.asked i = some false) :
    NetInv opts late (w.finish i r) := by
  unfold NetWorld.finish
  split
  · refine ⟨hI.final, hI.registered, hI.vetoed, fun k hk hobs => ?_, hI.quiet⟩
    by_cases hki : k = i
    · subst hki
      exact hcleared hobs
    · exact hI.finished k ((update_of_ne hki _ _).symm.trans hk) hobs
  · exact hI

theorem grows_finish (w : NetWorld) (i : ℕ) (r : Except NetError (JsString × NetInterrupts)) :
    w.Grows j (w.finish i r) := by
  unfold NetWorld.finish
  split
  · exact { NetWorld.Grows.refl (j := j) w with }
  · exact .refl w

theorem grows_call (w : NetWorld) : w.Grows j (w.call j) :=
  { NetWorld.Grows.refl (j := j) w with called := fun _ hk => update_of_ne hk _ _ }

theorem tries_generateText {i : Option ℕ} {attempt : ℕ} {prompt : JsString}
    (hR : (netRG opts late).Kept R) (hj : ¬late j) :
    Tries (netRG opts late) j R (generateText i attempt prompt)
      (fun text w => R w ∧ (i = none → answersAtLast opts attempt (.ok text))) fun _ w =>
        R w ∧ i ≠ none := by
  have hop : (perform (NetOp.generateText i attempt prompt)).Sat (netRG opts late) j R
      fun r w => R w ∧ (i = none → answersAtLast opts attempt r) := by
    refine sat_perform hR (fun _ => RG.kept_const _) fun w a hI _ hok => ?_
    refine ⟨netInv_call hI hj, grows_call w, ?_⟩
    rintro rfl
    exact hok
  refine Sat.conseq hop (fun _ _ h => h) fun r w _ h => ?_
  cases r with
  | ok text => exact h
  | error e =>
    refine ⟨h.1, fun hi => ?_⟩
    have hanswers := h.2 hi
    contradiction

/-- What an agent returns. Its run for the step has completed if it is not stopped. -/
theorem tries_runAgent {agent task nested : JsString} (hR : (netRG opts late).Kept R) (hj : ¬late j)
    (hcleared : ∀ w, R w → opts.observer → w.asked i = some false) :
    Tries (netRG opts late) j R (runAgent i agent task nested) (fun _ w => R w) fun _ w => R w := by
  have hop : (perform (NetOp.run i agent task nested)).Sat (netRG opts late) j R
      fun _ w => R w ∧ True := by
    refine sat_perform hR (fun _ => RG.kept_const True) fun w a hI hw _ => ⟨?_, ?_, trivial⟩
    · exact netInv_finish (netInv_call hI hj) (hcleared w hw)
    · exact (grows_call w).trans (grows_finish _ i a.agent)
  refine Sat.conseq hop (fun _ _ h => h) fun r w _ h => ?_
  cases r with
  | ok _ => exact h.1
  | error _ => exact h.1

end Operations

end Gnldev.Durable
