import Gnldev.Durable.Limits.Seeding
import Gnldev.Lib.Reach
import Mathlib.Algebra.BigOperators.Pi
import Mathlib.Algebra.Ring.Rat

/-!
# The spend of sub-agents

A run inherits the spend of its sub-agents: `sumSubRuns` follows the ids of its tool
calls to the counters of the runs they may have started, and theirs in turn
(`limits.ts`). Most tool calls start none, and a run whose counters are missing once
is remembered to be absent, for every later evaluation in the process.

* `subRunGraph`: the runs and what may be nested in them, a graph to be searched;
* `SpendState`: the journal of all runs, and the memory of the process;
* `subRuns_counted`: as long as no run that was found absent comes to exist, every
  evaluation counts every nested run there is, once.
-/

namespace Gnldev.Durable

open Function

/-- Tokens, cost and tool calls. -/
abbrev Spend := ℕ × ℚ × ℕ

def LimitCounters.spend (c : LimitCounters) : Spend :=
  (c.totalTokens, c.costUsd, c.succeededToolCalls)

/-- The id of a sub-agent's run. -/
def nestedAgentRunId (parentRunId toolCallId : JsString) : JsString :=
  if parentRunId = [] then js "agent:" ++ toolCallId
  else js "agent:" ++ parentRunId ++ js ":" ++ toolCallId

/-- The runs a tool call may have started: the one named after its parent, and the one
    older journals have. -/
def nestedCandidates (parentRunId toolCallId : JsString) : List JsString :=
  [nestedAgentRunId parentRunId toolCallId, js "agent:" ++ toolCallId].dedup

/-- The runs that have counters, and the candidates of their tool calls. -/
def subRunGraph (runs : JsString → LimRun) : WeightedGraph JsString Spend where
  weight id := (runs id).counters.map (·.spend)
  next id := (((runs id).chain.getD emptyChain).subRunIds).flatMap (nestedCandidates id)

/-- The spend of the runs nested in those of a list of tool calls. -/
def sumSubRuns (runs : JsString → LimRun) (depth : ℕ) (parentRunId : JsString)
    (subRunIds : List JsString) (p : Gnldev.Probe JsString) : Option (Spend × Gnldev.Probe JsString) :=
  (subRunGraph runs).search depth (subRunIds.flatMap (nestedCandidates parentRunId)) p

/-! ## The process -/

/-- The journal, the runs that have been written, and the ids the process remembers
    to be absent. -/
structure SpendState where
  runs : JsString → LimRun
  touched : Finset JsString
  absent : Finset JsString

namespace SpendState

/-- The spend inherited by a run, and what is remembered of the search for it. -/
def inherited (s : SpendState) (runId : JsString) : Option (Spend × Gnldev.Probe JsString) :=
  sumSubRuns s.runs (s.touched.card + 1) runId ((s.runs runId).chain.getD emptyChain).subRunIds
    ⟨{runId}, s.absent⟩

/-- What an evaluation leaves. -/
def remember (s : SpendState) (runId : JsString) : SpendState :=
  match s.inherited runId with
  | some (_, p) => { s with absent := p.absent }
  | none => s

/-- A step of the history of a run. -/
def write (s : SpendState) (runId : JsString) (step : HistoryStep) : SpendState where
  runs := update s.runs runId (liveStep runId (s.runs runId) step)
  touched := insert runId s.touched
  absent := s.absent

end SpendState

/-- A step of the process. -/
inductive SpendStep where
  /-- A step of the history of a run, nested or not. -/
  | write (runId : JsString) (step : HistoryStep)
  /-- A run is checked against its limits, after a model step or before a tool call. -/
  | evaluate (runId : JsString)

def SpendState.step (s : SpendState) : SpendStep → SpendState
  | .write runId step => s.write runId step
  | .evaluate runId => s.remember runId

/-- Nothing has been written, and nothing is remembered. -/
def SpendState.start : SpendState := ⟨fun _ => .fresh [] none none, ∅, ∅⟩

/-- A step writes no counters of a run that is remembered to be absent. -/
def SpendState.Timely (s : SpendState) : SpendStep → Prop
  | .write runId step =>
    runId ∈ s.absent → (liveStep runId (s.runs runId) step).counters = none
  | .evaluate _ => True

/-- No step of the history writes counters of a run that is remembered to be absent. -/
def AllTimely : SpendState → List SpendStep → Prop
  | _, [] => True
  | s, step :: history => s.Timely step ∧ AllTimely (s.step step) history

instance (s : SpendState) (step : SpendStep) : Decidable (s.Timely step) :=
  match step with
  | .write runId _ => inferInstanceAs (Decidable (runId ∈ s.absent → _ = none))
  | .evaluate _ => isTrue trivial

instance decidableAllTimely : (s : SpendState) → (history : List SpendStep) →
    Decidable (AllTimely s history)
  | _, [] => isTrue trivial
  | s, step :: history =>
    have := decidableAllTimely (s.step step) history
    inferInstanceAs (Decidable (_ ∧ _))

/-! ## The evaluations -/

/-- What is remembered to be absent is, and the runs that have counters have been written. -/
structure SpendInv (s : SpendState) : Prop where
  sound : ∀ id ∈ s.absent, (s.runs id).counters = none
  support : ∀ id, (s.runs id).counters.isSome → id ∈ s.touched

section Spend

variable {s : SpendState}

theorem weight_isSome {runs : JsString → LimRun} {id : JsString} :
    ((subRunGraph runs).weight id).isSome = (runs id).counters.isSome :=
  Option.isSome_map

open scoped Classical in
/-- The runs nested in a run, to any depth, along the tool calls of runs that exist. -/
noncomputable def SpendState.nested (s : SpendState) (runId : JsString) : Finset JsString :=
  s.touched.filter fun id =>
    id ≠ runId ∧ Relation.TransGen (subRunGraph s.runs).Edge runId id

theorem SpendState.mem_nested {runId id : JsString} : id ∈ s.nested runId ↔
    id ∈ s.touched ∧ id ≠ runId ∧ Relation.TransGen (subRunGraph s.runs).Edge runId id := by
  classical
  exact Finset.mem_filter

/-- The evaluation ends, counts every nested run once, and remembers only what is absent. -/
theorem SpendInv.inherited (h : SpendInv s) (runId : JsString) :
    ∃ p, s.inherited runId =
        some (∑ id ∈ s.nested runId, (subRunGraph s.runs).weightD id, p) ∧
      ∀ id ∈ p.absent, (s.runs id).counters = none := by
  have hfin : ∀ id, ((subRunGraph s.runs).weight id).isSome → id ∈ s.touched :=
    fun id hid => h.support id (weight_isSome ▸ hid)
  have habs : ∀ id ∈ s.absent, (subRunGraph s.runs).weight id = none :=
    fun id hid => Option.map_eq_none_iff.2 (h.sound id hid)
  obtain ⟨p, hsearch, hp⟩ :=
    WeightedGraph.search_eq hfin (Nat.lt_succ_self s.touched.card) runId habs
  exact ⟨p, hsearch, fun id hid => Option.map_eq_none_iff.1 (hp id hid)⟩

theorem SpendInv.step (h : SpendInv s) {step : SpendStep} (ht : s.Timely step) :
    SpendInv (s.step step) := by
  cases step with
  | write runId step =>
    refine ⟨fun id hid => ?_, fun id hid => ?_⟩
    · by_cases he : id = runId
      · subst he
        simp only [SpendState.step, SpendState.write, update_self]
        exact ht hid
      · simp only [SpendState.step, SpendState.write, update_of_ne he]
        exact h.sound id hid
    · by_cases he : id = runId
      · exact he ▸ Finset.mem_insert_self _ _
      · simp only [SpendState.step, SpendState.write, update_of_ne he] at hid
        exact Finset.mem_insert_of_mem (h.support id hid)
  | evaluate runId =>
    obtain ⟨p, hsum, hp⟩ := h.inherited runId
    simp only [SpendState.step, SpendState.remember, hsum]
    exact ⟨hp, h.support⟩

theorem SpendInv.history {history : List SpendStep} (h : SpendInv s) (ht : AllTimely s history) :
    SpendInv (history.foldl SpendState.step s) := by
  induction history generalizing s with
  | nil => exact h
  | cons step history ih => exact ih (h.step ht.1) ht.2

theorem spendInv_start : SpendInv .start :=
  ⟨fun _ h => absurd h (Finset.notMem_empty _), fun _ h => by cases h⟩

end Spend

/-- **Sub-agents' spend is attributed.** After every history in which no run comes to
    exist that an evaluation has found absent, the next evaluation ends, and adds up
    the counters of all runs nested in the run, each once. -/
theorem subRuns_counted (history : List SpendStep) (ht : AllTimely .start history)
    (runId : JsString) :
    let s := history.foldl SpendState.step .start
    (s.inherited runId).map Prod.fst =
      some (∑ id ∈ s.nested runId, (subRunGraph s.runs).weightD id) := by
  intro s
  obtain ⟨p, hsum, -⟩ := (spendInv_start.history ht).inherited runId
  rw [show s.inherited runId = _ from hsum]
  rfl

/-- The outcome of the call `t`, with a status. -/
def callOutcome (status : ToolStatus) : HistoryStep :=
  .tool ⟨js "t", js "agent", js "1", status, false, .call⟩

/-- A model step with a hundred tokens. -/
def hundredTokens : HistoryStep := .model 0 (some ⟨100, 0⟩) true

/-- The sub-agent of `t` runs, and then the outcome of `t` is recorded. -/
def subAgentFirst : List SpendStep :=
  [.write (js "agent:r:t") hundredTokens, .write (js "r") (callOutcome .succeeded),
    .evaluate (js "r"), .write (js "agent:r:t") (.gate)]

theorem subRuns_counted_subAgentFirst :
    let s := subAgentFirst.foldl SpendState.step .start
    (s.inherited (js "r")).map Prod.fst =
      some (∑ id ∈ s.nested (js "r"), (subRunGraph s.runs).weightD id) :=
  subRuns_counted subAgentFirst (by decide +kernel) (js "r")

/-- The call `t` is suspended and the run is checked; the call is approved, and its
    sub-agent runs. -/
def approvedSubAgent : List SpendStep :=
  [.write (js "r") (callOutcome .suspended), .evaluate (js "r"),
    .write (js "agent:r:t") hundredTokens, .write (js "r") (callOutcome .succeeded)]

/-- The hundred tokens of the sub-agent are never inherited. -/
theorem subRuns_lost :
    ¬∀ (history : List SpendStep) (runId : JsString),
      let s := history.foldl SpendState.step .start
      (s.inherited runId).map Prod.fst =
        some (∑ id ∈ s.nested runId, (subRunGraph s.runs).weightD id) := by
  intro h
  have h := h approvedSubAgent (js "r")
  simp only at h
  generalize hs : approvedSubAgent.foldl SpendState.step .start = s at h
  have hzero : (s.inherited (js "r")).map Prod.fst = some 0 := by rw [← hs]; decide +kernel
  have hweight : ((subRunGraph s.runs).weightD (js "agent:r:t")).1 = 100 := by
    rw [← hs]
    decide +kernel
  have hnested : js "agent:r:t" ∈ s.nested (js "r") := by
    -- the outcome of `t` was recorded twice, and its sub-agent has counters
    refine SpendState.mem_nested.2 ⟨by rw [← hs]; decide +kernel, by decide, .single ⟨?_, ?_⟩⟩
    · rw [← hs]
      decide +kernel
    · rw [← hs]
      decide +kernel
  rw [hzero, Option.some.injEq] at h
  have hfst : 0 = (∑ id ∈ s.nested (js "r"), (subRunGraph s.runs).weightD id).1 :=
    congrArg Prod.fst h
  rw [Prod.fst_sum] at hfst
  have hterm := (Finset.sum_eq_zero_iff.1 hfst.symm) _ hnested
  rw [hweight] at hterm
  cases hterm

end Gnldev.Durable
