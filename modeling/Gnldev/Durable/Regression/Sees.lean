import Gnldev.Durable.Regression

/-!
# When the comparison sees every difference

A streamed step has no `content`: it is read as a step that says nothing and makes no
calls. A record kept by arguments is not under the id of a call: it is read as no
record. So two runs can differ in what is not read. The comparison finds the first
difference exactly if every decision up to there is listed, and the shapes of the two
records, and what is under the two ids, tell whether the decisions are the same.

* `buildDecisionSequence_eq`: the code lists a part of the decisions;
* `divergentAt_eq`: the comparison is that of the listed decisions;
* `tells_iff`: the code compares two decisions as it should exactly if their shapes tell;
* `sees_iff`: the comparison sees every difference exactly if the shapes tell;
* `streamed_difference_unseen`: two streamed runs that say different things.
-/

open List

namespace Gnldev.Durable.Regression

open TimeTravel

variable {I O : Type}

/-! ## What is listed -/

/-- The code lists all model steps, and the calls that are in `content` and have an id. -/
def Decision.listed : Decision I O → Bool
  | model .. => true
  | call _ value c _ => value.content.isSome && c.toolCallId ≠ []

theorem filterMap_toolPoint (step : ℕ) (byId : JsString → Option (CallRecord O))
    (content : List (ContentPart I)) : content.filterMap (toolPoint byId step) =
      ((content.filterMap ContentPart.toolCall?).filter (·.toolCallId ≠ [])).map fun c =>
        (.tool step c.toolCallId c.toolName (byId c.toolCallId) : DecisionPoint I O) := by
  induction content with
  | nil => rfl
  | cons p content ih =>
    rcases p with t | t | ⟨toolCallId, toolName, input⟩ | _
    · exact ih
    · exact ih
    · by_cases hid : toolCallId = []
      · simpa [hid, toolPoint, ContentPart.toolCall?] using ih
      · simpa [hid, toolPoint, ContentPart.toolCall?] using ih
    · exact ih

theorem stepPoints_eq (run : Run I O) (p : ℕ × ModelRecord I) :
    stepPoints (toolById run.entries) p =
      ((run.stepDecisions p).filter Decision.listed).map run.pointOf := by
  obtain ⟨step, value⟩ := p
  rw [Run.stepDecisions, Run.callDecisions, filter_cons_of_pos (by rfl), map_cons,
    filter_map, map_map, stepPoints, filterMap_toolPoint]
  refine congrArg (_ :: ·) ?_
  rw [callsIn, settleModelContent]
  rcases value with ⟨_ | content, parts⟩
  · -- A streamed step has no content.
    exact (congrArg (List.map _) (filter_eq_nil_iff.2 fun c _ => Bool.false_ne_true)).symm
  · rfl

/-- The code lists a part of the decisions. -/
theorem buildDecisionSequence_eq (run : Run I O) :
    buildDecisionSequence run.entries =
      (run.decisions.filter Decision.listed).map run.pointOf := by
  rw [buildDecisionSequence, Run.decisions]
  induction modelSteps run.entries with
  | nil => rfl
  | cons p steps ih =>
    rw [flatMap_cons, flatMap_cons, filter_append, map_append, ih,
      stepPoints_eq]

/-! ## What is compared -/

section Compared

variable {texts : Texts I O} {as bs : List (DecisionPoint I O)}

theorem divergentAt_eq : (diffEntries texts as bs).findIdx? (·.status ≠ .same) =
    firstDiff (fun a b => (comparePoints texts a b).isNone) as bs := by
  induction as generalizing bs with
  | nil => rcases bs with _ | ⟨b, bs⟩ <;> rfl
  | cons a as ih =>
    rcases bs with _ | ⟨b, bs⟩
    · rfl
    · rw [diffEntries, findIdx?_cons, firstDiff, ih]
      rcases comparePoints texts a b with _ | detail <;> rfl

theorem length_diffEntries : (diffEntries texts as bs).length = max as.length bs.length := by
  induction as generalizing bs with
  | nil => rw [diffEntries, length_map, length_nil, Nat.zero_max]
  | cons a as ih =>
    rcases bs with _ | ⟨b, bs⟩
    · rw [diffEntries, length_cons, ih, length_nil, Nat.max_zero, Nat.max_zero,
        length_cons]
    · rw [diffEntries, length_cons, ih, length_cons, length_cons,
        Nat.add_max_add_right]

/-- Each entry is counted once. -/
theorem total_summaryOf (steps : List (DiffEntry O)) : (summaryOf steps).total = steps.length := by
  induction steps with
  | nil => rfl
  | cons e steps ih =>
    rw [length_cons, ← ih]
    simp only [summaryOf, DiffSummary.total, countP_cons]
    rcases e.status with _ | _ | _ | _ <;> simp <;> omega

end Compared

/-! ## The same runs -/

theorem forall₂_append_iff {A B : Type} {R : A → B → Prop} {l₁ l₂ : List A} {r₁ r₂ : List B}
    (h : l₁.length = r₁.length) : List.Forall₂ R (l₁ ++ l₂) (r₁ ++ r₂) ↔
      List.Forall₂ R l₁ r₁ ∧ List.Forall₂ R l₂ r₂ := by
  induction l₁ generalizing r₁ with
  | nil =>
    obtain rfl := length_eq_zero_iff.1 h.symm
    exact (and_iff_right .nil).symm
  | cons a l₁ ih =>
    rcases r₁ with _ | ⟨b, r₁⟩
    · contradiction
    · rw [cons_append, cons_append, List.forall₂_cons, List.forall₂_cons, and_assoc,
        ih (Nat.succ.inj h)]

section Same

variable [DecidableEq O] {texts : Texts I O} {a b : Run I O}

omit [DecidableEq O] in
/-- Steps that make the same calls call the same tools. -/
theorem sameNames {av bv : ModelRecord I} (h : sameStep texts av bv = true) :
    List.Forall₂ (fun c d : CallPart I => c.toolName = d.toolName) (callsIn av) (callsIn bv) := by
  have hcalls := of_decide_eq_true (Bool.and_eq_true_iff.1 h).2
  have hnames := congrArg (List.map CallSig.toolName) hcalls
  rw [callsOf, callsOf, map_map, map_map, ← List.forall₂_eq_eq_eq, List.forall₂_map_left_iff,
    List.forall₂_map_right_iff] at hnames
  exact hnames

/-- Two steps with their calls. -/
theorem forall₂_step_iff {p q : ℕ × ModelRecord I} {rest rest' : List (Decision I O)} :
    List.Forall₂ (fun x y => sameDecision texts x y = true) (a.stepDecisions p ++ rest)
        (b.stepDecisions q ++ rest') ↔
      (sameStep texts p.2 q.2 = true ∧
        List.Forall₂ (fun c d => sameResult (a.own c) (b.own d) = true)
          (callsIn p.2) (callsIn q.2)) ∧
        List.Forall₂ (fun x y => sameDecision texts x y = true) rest rest' := by
  obtain ⟨step, av⟩ := p
  obtain ⟨step', bv⟩ := q
  rw [Run.stepDecisions, Run.stepDecisions, cons_append, cons_append, List.forall₂_cons,
    and_assoc]
  refine and_congr_right fun hstep => ?_
  rw [Run.callDecisions, Run.callDecisions,
    forall₂_append_iff (by rw [length_map, length_map, (sameNames hstep).length_eq]),
    List.forall₂_map_left_iff, List.forall₂_map_right_iff]
  refine and_congr_left fun _ => ?_
  have hnames := sameNames hstep
  generalize callsIn av = calls at hnames
  generalize callsIn bv = calls' at hnames
  induction hnames with
  | nil => exact iff_of_true .nil .nil
  | cons hname _ ih =>
    rw [List.forall₂_cons, List.forall₂_cons]
    refine and_congr ?_ ih
    simp only [sameDecision, hname, decide_true, Bool.true_and]

/-- The runs are the same exactly if no decision differs. -/
theorem sameRuns_iff :
    SameRuns texts a b ↔ firstDiff (sameDecision texts) a.decisions b.decisions = none := by
  rw [firstDiff_eq_none_iff, SameRuns, Run.decisions, Run.decisions]
  generalize modelSteps a.entries = steps
  generalize modelSteps b.entries = steps'
  induction steps generalizing steps' with
  | nil =>
    rcases steps' with _ | ⟨q, steps'⟩
    · exact iff_of_true .nil .nil
    · exact iff_of_false nofun nofun
  | cons p steps ih =>
    rcases steps' with _ | ⟨q, steps'⟩
    · exact iff_of_false nofun nofun
    · rw [List.forall₂_cons, ih, flatMap_cons, flatMap_cons]
      exact forall₂_step_iff.symm

end Same

/-! ## Decisions that are not listed -/

variable {run : Run I O}

/-- After a call that is not listed, the next decision that is listed is another one: a call
    of the same step with another id, or a model step. -/
theorem head_listed_ne {step : ℕ} {value : ModelRecord I} {c : CallPart I}
    {own : Option (CallRecord O)} (hc : (Decision.call step value c own).listed = false)
    (calls : List (CallPart I)) (steps : List (ℕ × ModelRecord I)) (rest : List (DecisionPoint I O)) :
    ((run.callDecisions step value calls ++ steps.flatMap run.stepDecisions).filter
      Decision.listed).map run.pointOf ≠ run.pointOf (.call step value c own) :: rest := by
  intro h
  rw [filter_append, map_append] at h
  rcases hlisted : (run.callDecisions step value calls).filter Decision.listed with _ | ⟨y, ys⟩
  · rw [hlisted] at h
    rcases steps with _ | ⟨⟨step', value'⟩, steps⟩
    · contradiction
    · rw [flatMap_cons, Run.stepDecisions, cons_append,
        filter_cons_of_pos (by rfl)] at h
      exact absurd (cons_eq_cons.1 h).1 nofun
  · rw [hlisted] at h
    have hy : y ∈ (run.callDecisions step value calls).filter Decision.listed := by
      rw [hlisted]
      exact mem_cons_self
    obtain ⟨hmem, hy⟩ := mem_filter.1 hy
    obtain ⟨d, -, rfl⟩ := mem_map.1 hmem
    -- Both are calls of the step, and only one of them has an id.
    obtain ⟨hcontent, hd⟩ := Bool.and_eq_true_iff.1 hy
    rw [Decision.listed, hcontent, Bool.true_and, decide_eq_false_iff_not, not_not] at hc
    have hpoint := (cons_eq_cons.1 h).1
    rw [Run.pointOf, Run.pointOf, DecisionPoint.tool.injEq, hc] at hpoint
    exact of_decide_eq_true hd hpoint.2.1

variable {k : ℕ}

theorem listed_of_take_calls {step : ℕ} {value : ModelRecord I} {steps : List (ℕ × ModelRecord I)}
    (ih : ∀ {k}, (((steps.flatMap run.stepDecisions).filter Decision.listed).map run.pointOf).take k =
      ((steps.flatMap run.stepDecisions).take k).map run.pointOf →
        ∀ x ∈ (steps.flatMap run.stepDecisions).take k, x.listed = true) (calls : List (CallPart I))
    (h : (((run.callDecisions step value calls ++ steps.flatMap run.stepDecisions).filter
      Decision.listed).map run.pointOf).take k =
        ((run.callDecisions step value calls ++ steps.flatMap run.stepDecisions).take k).map
          run.pointOf) :
    ∀ x ∈ (run.callDecisions step value calls ++ steps.flatMap run.stepDecisions).take k,
      x.listed = true := by
  induction calls generalizing k with
  | nil => exact ih h
  | cons c calls ihc =>
    rcases k with _ | k
    · exact nofun
    rw [Run.callDecisions, map_cons, cons_append, ← Run.callDecisions] at h ⊢
    rw [take_succ_cons, map_cons] at h
    rw [take_succ_cons, forall_mem_cons]
    cases hlisted : (Decision.call step value c (run.own c)).listed with
    | false =>
      rw [filter_cons_of_neg (by rw [hlisted]; exact Bool.false_ne_true)] at h
      rcases hys : ((run.callDecisions step value calls ++ steps.flatMap run.stepDecisions).filter
        Decision.listed).map run.pointOf with _ | ⟨y, ys⟩
      · rw [hys] at h
        contradiction
      · rw [hys, take_succ_cons, cons_eq_cons] at h
        exact absurd (h.1 ▸ hys) (head_listed_ne hlisted calls steps ys)
    | true =>
      rw [filter_cons_of_pos hlisted, map_cons, take_succ_cons,
        cons_eq_cons] at h
      exact ⟨rfl, ihc h.2⟩

/-- If the code has the first decisions of a run in their places, it lists them. -/
theorem listed_of_take
    (h : (buildDecisionSequence run.entries).take k = (run.decisions.take k).map run.pointOf) :
    ∀ x ∈ run.decisions.take k, x.listed = true := by
  rw [buildDecisionSequence_eq] at h
  rw [Run.decisions] at h ⊢
  generalize modelSteps run.entries = steps at h ⊢
  induction steps generalizing k with
  | nil =>
    rw [flatMap_nil, take_nil]
    exact nofun
  | cons p steps ih =>
    obtain ⟨step, value⟩ := p
    rcases k with _ | k
    · exact nofun
    rw [flatMap_cons, Run.stepDecisions, cons_append] at h ⊢
    rw [filter_cons_of_pos (by rfl), map_cons, take_succ_cons, take_succ_cons,
      map_cons, cons_eq_cons] at h
    rw [take_succ_cons, forall_mem_cons]
    exact ⟨rfl, listed_of_take_calls ih (callsIn value) h.2⟩

/-- The decisions up to the first that is not listed are in their places. -/
theorem take_of_listed (h : ∀ x ∈ run.decisions.take k, x.listed = true) :
    (buildDecisionSequence run.entries).take k = (run.decisions.take k).map run.pointOf := by
  rw [buildDecisionSequence_eq, ← map_take, take_filter_of_forall h]

/-! ## What the shapes tell -/

/-- The last record whose key ends in the id. -/
def underId (entries : List (RunRecord I O)) (id : JsString) : Option (CallRecord O) :=
  (entries.filterMap fun e =>
    match e with
    | .model .. => none
    | .tool key value => if TimeTravel.toolIdFromKey key = id then some value else none).getLast?

theorem toolById_eq (entries : List (RunRecord I O)) (id : JsString) :
    toolById entries id = underId entries id := by
  induction entries using List.reverseRecOn with
  | nil => rfl
  | append_singleton entries e ih =>
    have hcut : underId (entries ++ [e]) id = (underId [e] id).or (underId entries id) := by
      rw [underId, filterMap_append, getLast?_append]
      rfl
    rw [hcut, ← ih, toolById, foldl_append]
    rcases e with ⟨step, value⟩ | ⟨key, value⟩
    · rfl
    · by_cases hid : TimeTravel.toolIdFromKey key = id
      · subst hid
        simp [underId]
      · simp [underId, hid, Function.update_of_ne (Ne.symm hid), toolById]

section Tells

variable (texts : Texts I O)

/-- Some content that says nothing and makes no calls. -/
def Silent (content : List (ContentPart I)) : Prop :=
  textOf content = [] ∧ content.filterMap ContentPart.toolCall? = []

/-- The shapes of two steps tell whether they are the same: two generated steps that say the
    same and differ in their calls still do after the normalization; a streamed step is like
    one that is silent. -/
def StepsTell (av bv : ModelRecord I) : Prop :=
  match av.content, bv.content with
  | some ca, some cb => textOf ca = textOf cb →
      stableCalls texts (callsOf texts ca) = stableCalls texts (callsOf texts cb) →
        callsOf texts ca = callsOf texts cb
  | some ca, none => Silent ca ↔ sameStep texts av bv = true
  | none, some cb => Silent cb ↔ sameStep texts av bv = true
  | none, none => sameStep texts av bv = true

/-- What is under the ids of two calls tells whether they have come to the same. Under an id can be
    nothing, as for a call that is kept by its arguments, or the record of another call. -/
def CallsTell [DecidableEq O] (under under' own own' : Option (CallRecord O)) : Prop :=
  match under, under' with
  | some r, some r' =>
      (r.status = r'.status ∧ r.argsHash = r'.argsHash ∧
        r.output.map texts.stableStringify = r'.output.map texts.stableStringify) ↔
          sameResult own own' = true
  | none, none => sameResult own own' = true
  | _, _ => sameResult own own' = false

/-- The shapes of two decisions tell whether they are the same. -/
def Tells [DecidableEq O] (a b : Run I O) : Decision I O → Decision I O → Prop
  | .model _ av, .model _ bv => StepsTell texts av bv
  | .call _ _ c own, .call _ _ d own' => c.toolName = d.toolName →
      CallsTell texts (underId a.entries c.toolCallId) (underId b.entries d.toolCallId) own own'
  | _, _ => True

end Tells

section Tell

variable {texts : Texts I O} {a b : Run I O}

theorem isNone_compareModelPoints {av bv : ModelRecord I} :
    (compareModelPoints (O := O) texts av bv).isNone = true ↔
      modelText av = modelText bv ∧ stableCalls texts (modelToolCalls texts av) =
        stableCalls texts (modelToolCalls texts bv) := by
  rw [compareModelPoints]
  split
  · next h => exact iff_of_true rfl h
  · next h => exact iff_of_false Bool.false_ne_true h

theorem isNone_compareToolPoints {nameA nameB : JsString} {va vb : Option (CallRecord O)} :
    (compareToolPoints texts nameA nameB va vb).isNone = true ↔
      nameA = nameB ∧ va.map (·.status) = vb.map (·.status) ∧
        va.bind (·.argsHash) = vb.bind (·.argsHash) ∧
        (va.bind (·.output)).map texts.stableStringify =
          (vb.bind (·.output)).map texts.stableStringify := by
  rw [compareToolPoints]
  split
  · next h => exact iff_of_true rfl h
  · next h => exact iff_of_false Bool.false_ne_true h

theorem stableCalls_eq_nil_iff {calls : List CallSig} : stableCalls texts calls = [] ↔ calls = [] :=
  map_eq_nil_iff

theorem callsOf_eq_nil_iff {content : List (ContentPart I)} :
    callsOf texts content = [] ↔ content.filterMap ContentPart.toolCall? = [] :=
  map_eq_nil_iff

theorem sameStep_iff {av bv : ModelRecord I} : sameStep texts av bv = true ↔
    textOf (settleModelContent av) = textOf (settleModelContent bv) ∧
      callsOf texts (settleModelContent av) = callsOf texts (settleModelContent bv) := by
  rw [sameStep, Bool.and_eq_true, decide_eq_true_iff, decide_eq_true_iff]

theorem stepsTell_iff {av bv : ModelRecord I} : StepsTell texts av bv ↔
    ((compareModelPoints (O := O) texts av bv).isNone = true ↔ sameStep texts av bv = true) := by
  rw [isNone_compareModelPoints, StepsTell, modelText, modelText, modelToolCalls, modelToolCalls]
  rcases av with ⟨_ | ca, parts⟩ <;> rcases bv with ⟨_ | cb, parts'⟩
  · -- Two streamed steps are read as two silent ones.
    exact (iff_true_left ⟨rfl, rfl⟩).symm
  · refine iff_congr ⟨fun h => ⟨h.1.symm, ?_⟩, fun h => ⟨h.1.symm, ?_⟩⟩ Iff.rfl
    · exact (stableCalls_eq_nil_iff.2 (callsOf_eq_nil_iff.2 h.2)).symm
    · exact callsOf_eq_nil_iff.1 (stableCalls_eq_nil_iff.1 h.2.symm)
  · refine iff_congr (and_congr_right fun _ => ?_) Iff.rfl
    exact (stableCalls_eq_nil_iff.trans callsOf_eq_nil_iff).symm
  · rw [sameStep_iff]
    constructor
    · exact fun h => ⟨fun hread => ⟨hread.1, h hread.1 hread.2⟩,
        fun hreal => ⟨hreal.1, congrArg (stableCalls texts) hreal.2⟩⟩
    · exact fun h htext hcalls => (h.1 ⟨htext, hcalls⟩).2

variable [DecidableEq O]

theorem callsTell_iff {name : JsString} {va vb own own' : Option (CallRecord O)} :
    CallsTell texts va vb own own' ↔
      ((compareToolPoints texts name name va vb).isNone = true ↔ sameResult own own' = true) := by
  rw [isNone_compareToolPoints, eq_self, true_and]
  rcases va with _ | r <;> rcases vb with _ | r'
  · exact (iff_true_left ⟨rfl, rfl, rfl⟩).symm
  · exact (Bool.not_eq_true _).symm.to_iff.trans (iff_false_left nofun).symm
  · exact (Bool.not_eq_true _).symm.to_iff.trans (iff_false_left nofun).symm
  · exact iff_congr (and_congr_left' Option.some_inj.symm) Iff.rfl

/-- What the code reads of two decisions. -/
def readAlike (texts : Texts I O) (a b : Run I O) (x y : Decision I O) : Bool :=
  (comparePoints texts (a.pointOf x) (b.pointOf y)).isNone

/-- The code compares two decisions as it should exactly if their shapes tell. -/
theorem tells_iff (x y : Decision I O) :
    Tells texts a b x y ↔ readAlike texts a b x y = sameDecision texts x y := by
  rw [Bool.eq_iff_iff]
  rcases x with ⟨step, av⟩ | ⟨step, av, c, own⟩ <;> rcases y with ⟨step', bv⟩ | ⟨step', bv, d, own'⟩
  · exact stepsTell_iff
  · exact iff_of_true trivial Iff.rfl
  · exact iff_of_true trivial Iff.rfl
  · rw [Tells, readAlike, sameDecision, Run.pointOf, Run.pointOf, comparePoints, toolById_eq,
      toolById_eq, Bool.and_eq_true, decide_eq_true_iff]
    by_cases hname : c.toolName = d.toolName
    · rw [forall_prop_of_true hname, and_iff_right hname, hname]
      exact callsTell_iff
    · refine iff_of_true (fun h => absurd h hname) (iff_of_false (fun h => ?_) fun h => hname h.1)
      exact hname (isNone_compareToolPoints.1 h).1

end Tell

/-! ## Exactly when the comparison sees every difference -/

/-- Up to the first difference all decisions are listed, and their shapes tell; and the longer
    sequence is as long as it is listed. -/
structure ReadsAll [DecidableEq O] (texts : Texts I O) (a b : Run I O) : Prop where
  upTo : ReadRight Decision.listed Decision.listed (Tells texts a b) (sameDecision texts)
    a.decisions b.decisions
  longest : max (a.decisions.countP Decision.listed) (b.decisions.countP Decision.listed) =
    max a.decisions.length b.decisions.length

/-- The comparison sees every difference of two runs exactly if the shapes of
    their records tell. -/
theorem sees_iff [DecidableEq O] (texts : Texts I O) (a b : Run I O) :
    SeesEveryDifference texts a b (diffRuns texts a.entries b.entries) ↔ ReadsAll texts a b := by
  have hdiverge : (diffRuns texts a.entries b.entries).divergentAt =
      firstDiff (readAlike texts a b) (a.decisions.filter Decision.listed)
        (b.decisions.filter Decision.listed) := by
    rw [diffRuns, divergentAt_eq, buildDecisionSequence_eq, buildDecisionSequence_eq, firstDiff_map]
    rfl
  have htotal : (diffRuns texts a.entries b.entries).summary.total =
      max (a.decisions.countP Decision.listed) (b.decisions.countP Decision.listed) := by
    rw [diffRuns, total_summaryOf, length_diffEntries, buildDecisionSequence_eq,
      buildDecisionSequence_eq, length_map, length_map, countP_eq_length_filter,
      countP_eq_length_filter]
  constructor
  · rintro ⟨hnone, hfirst, hcounts⟩
    rw [htotal] at hcounts
    rw [hdiverge, sameRuns_iff] at hnone
    rw [hdiverge] at hfirst
    have hsame : firstDiff (readAlike texts a b) (a.decisions.filter Decision.listed)
        (b.decisions.filter Decision.listed) =
          firstDiff (sameDecision texts) a.decisions b.decisions := by
      cases hread : firstDiff (readAlike texts a b) (a.decisions.filter Decision.listed)
        (b.decisions.filter Decision.listed) with
      | none => exact (hnone.1 hread).symm
      | some i => exact (hfirst i hread).1.symm
    refine ⟨readRight_of_firstDiff_eq (fun x y _ _ => (tells_iff x y).2) hsame (fun i hi => ?_)
      fun hreal => ?_, hcounts⟩
    · obtain ⟨-, ha, hb⟩ := hfirst i (hsame.trans hi)
      exact ⟨listed_of_take ha, listed_of_take hb⟩
    · -- The sequences are as long as each other, so none is shorter than its decisions.
      have hlisted := (firstDiff_eq_none_iff.1 (hsame.trans hreal)).length_eq
      have hlength := (firstDiff_eq_none_iff.1 hreal).length_eq
      rw [← countP_eq_length_filter, ← countP_eq_length_filter] at hlisted
      rw [hlisted, hlength, max_self, max_self] at hcounts
      exact ⟨countP_eq_length.1 (by rw [hlisted, hcounts, hlength]),
        countP_eq_length.1 hcounts⟩
  · rintro ⟨hread, hlongest⟩
    have hsame := firstDiff_eq_of_readRight (fun x y _ _ => (tells_iff x y).1) hread
    refine ⟨?_, fun i hi => ?_, htotal.trans hlongest⟩
    · rw [hdiverge, hsame, sameRuns_iff]
    · rw [hdiverge, hsame] at hi
      obtain ⟨ha, hb⟩ := listed_of_readRight hread hi
      exact ⟨hi, take_of_listed ha, take_of_listed hb⟩

/-- A run of one streamed step that says a text. -/
def streamedRun (t : JsString) : Run Unit Unit where
  entries := [.model 0 ⟨none, some [.textStart (js "0"), .textDelta (js "0") t]⟩]
  keyOf := recordKey (fun _ => js "h") (js "r") fun _ => .call

def plainTexts : Texts Unit Unit := ⟨fun _ => js "h", id, fun _ => js "{}"⟩

/-- Two runs that say different things are the same to the comparison. -/
theorem streamed_difference_unseen :
    ¬SeesEveryDifference plainTexts (streamedRun (js "approve")) (streamedRun (js "refuse"))
      (diffRuns plainTexts (streamedRun (js "approve")).entries
        (streamedRun (js "refuse")).entries) := by
  intro h
  have hnone : (diffRuns plainTexts (streamedRun (js "approve")).entries
      (streamedRun (js "refuse")).entries).divergentAt = none := by decide
  obtain ⟨⟨hsay, -⟩, -⟩ := List.forall₂_cons.1 (h.undefined_iff.1 hnone)
  exact absurd hsay (by decide)

end Gnldev.Durable.Regression
