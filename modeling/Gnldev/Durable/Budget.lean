import Gnldev.Durable.Outcome
import Mathlib.Algebra.Order.BigOperators.Group.Finset
import Mathlib.Algebra.Order.Ring.Rat
import Mathlib.Logic.Function.Basic

/-!
# What an organization has used

The usage of a scope (an organization, or the root) is the cost of its runs
(`budget.ts`). Three sources are added: a document with the total of earlier times,
counters that are increased when a run completes, and a scan of the runs that have
not. A marker keeps a run from being counted twice; the first reading with neither
document nor counters writes the document from the runs that are complete.

* `Scope`: the journal of a scope, with its runs, and a ledger of what has been counted;
* `recordRunUsage`, `getOrgUsage`: count a completed run, and read the total;
* `getOrgUsage_tokens`: the total is what each run has been counted for, after any history;
* `usage_counted`: every run is counted exactly once, and the total is the sum of the
  costs, exactly when the runs that have been counted are those that are complete, and
  have used nothing since.
-/

open List

namespace Gnldev.Durable

open Function

/-- The cost of a run. -/
structure RunCost where
  totalTokens : ℕ
  modelCalls : ℕ
  toolCalls : ℕ
  costUsd : ℚ
  deriving DecidableEq

/-- The cost of a run with one more entry of its journal: a model step without usage
    is passed over. -/
def RunCost.entry (out : RunCost) : JournalEntry → RunCost
  | .tool .. => { out with toolCalls := out.toolCalls + 1 }
  | .model _ none => out
  | .model _ (some u) => { out with
      modelCalls := out.modelCalls + 1
      totalTokens := out.totalTokens + u.totalTokens
      costUsd := out.costUsd + u.costUsd }

def getRunCost (entries : List JournalEntry) : RunCost :=
  entries.foldl RunCost.entry ⟨0, 0, 0, 0⟩

structure OrganizationUsage where
  runs : ℤ
  tokens : ℤ
  costUsd : ℚ
  deriving DecidableEq

namespace OrganizationUsage

def zero : OrganizationUsage := ⟨0, 0, 0⟩

/-- The increase of counters by a delta. -/
def add (u d : OrganizationUsage) : OrganizationUsage :=
  ⟨u.runs + d.runs, u.tokens + d.tokens, u.costUsd + d.costUsd⟩

/-- A drift below zero is cut off. -/
def clamp (u : OrganizationUsage) : OrganizationUsage :=
  ⟨max 0 u.runs, max 0 u.tokens, max 0 u.costUsd⟩

end OrganizationUsage

/-- What the completion of a run adds. -/
def RunCost.delta (cost : RunCost) : OrganizationUsage := ⟨1, cost.totalTokens, cost.costUsd⟩

/-! ## The journal of a scope -/

/-- What is recorded of a run. -/
structure RunRecords where
  entries : List JournalEntry
  outcome : Option RunOutcomeRecord
  /-- When the run was canceled. -/
  canceled : Option ℕ

/-- The journal of a scope, and the costs the process remembers of completed runs. -/
structure Scope where
  /-- The journal has `incrBy` and `getCounters`. -/
  incrBy : Bool
  /-- The runs of the journal, in the order of their first records. -/
  runIds : List JsString
  run : JsString → RunRecords
  /-- The runs with the marker `usage-counted`. -/
  usageCounted : Finset JsString
  /-- The document under `__usage__`. -/
  usage : Option OrganizationUsage
  /-- The counters under `__usage__`. -/
  counters : Option OrganizationUsage
  costCache : JsString → Option RunCost
  /-- The runs that have been added to the document or the counters, and with how many
      tokens. No operation reads this. -/
  ledger : List (JsString × ℤ)

namespace Scope

def listRuns (s : Scope) : List RunSummary :=
  s.runIds.map fun id => summarizeRun id (s.run id).entries ((s.run id).outcome.map (·.status))

def cost (s : Scope) (runId : JsString) : RunCost := getRunCost (s.run runId).entries

/-- The document and the counters together, if there is either. -/
def readUsageCounter (s : Scope) : Option OrganizationUsage :=
  if s.usage = none ∧ s.counters = none then none
  else some ((s.usage.getD .zero).add (s.counters.getD .zero)).clamp

def addUsage (s : Scope) (delta : OrganizationUsage) : Scope :=
  if s.incrBy then { s with counters := some ((s.counters.getD .zero).add delta) }
  else { s with usage := some ((s.usage.getD .zero).add delta).clamp }

/-- Count a run that completes, unless its marker is there. -/
def recordRunUsage (s : Scope) (runId : JsString) : Scope :=
  if runId ∈ s.usageCounted then s
  else { s with
    usageCounted := insert runId s.usageCounted
    ledger := (runId, (s.cost runId).delta.tokens) :: s.ledger }.addUsage (s.cost runId).delta

/-- What the scan of all runs has added up. -/
structure Scan where
  usage : OrganizationUsage
  /-- The part of the completed runs. -/
  backfill : OrganizationUsage
  costCache : JsString → Option RunCost
  ledger : List (JsString × ℤ)

/-- The scan of one run. -/
def scanRun (s : Scope) (cached : Bool) (t : Scan) (r : RunSummary) : Scan :=
  let completed := r.status = .completed
  let known := if completed ∧ cached then t.costCache r.runId else none
  let rc := known.getD (s.cost r.runId)
  { usage := t.usage.add rc.delta
    backfill := if completed then t.backfill.add rc.delta else t.backfill
    costCache := if completed ∧ cached ∧ known = none then
      update t.costCache r.runId (some rc) else t.costCache
    ledger := if completed then t.ledger ++ [(r.runId, rc.delta.tokens)] else t.ledger }

def scan (s : Scope) (cached : Bool) : Scan :=
  s.listRuns.foldl (s.scanRun cached) ⟨.zero, .zero, s.costCache, s.ledger⟩

/-- The cost of the runs that are not complete. -/
def live (s : Scope) : OrganizationUsage :=
  s.listRuns.foldl (fun u r => if r.status = .completed then u else u.add (s.cost r.runId).delta)
    .zero

/-- The usage of the scope: the counters and the live costs or, when nothing has been
    counted, a scan that leaves the total of the completed runs. -/
def getOrgUsage (s : Scope) (cached strictSuspendedCost : Bool) : OrganizationUsage × Scope :=
  match s.readUsageCounter with
  | some counted =>
    if strictSuspendedCost then
      (⟨s.listRuns.length, counted.tokens + s.live.tokens, counted.costUsd + s.live.costUsd⟩, s)
    else (counted, s)
  | none =>
    let t := s.scan cached
    (⟨s.listRuns.length, t.usage.tokens, t.usage.costUsd⟩, { s with
      costCache := t.costCache
      usageCounted := s.usageCounted ∪
        ((s.listRuns.filter (·.status = .completed)).map (·.runId)).toFinset
      usage := some t.backfill
      ledger := t.ledger })

/-! ## Histories -/

/-- Change what is recorded of a run, which is listed from then on. -/
def record (s : Scope) (runId : JsString) (r : RunRecords) : Scope :=
  { s with
    runIds := if runId ∈ s.runIds then s.runIds else s.runIds ++ [runId]
    run := update s.run runId r }

/-- Write an entry of a run's journal. -/
def put (s : Scope) (runId : JsString) (entry : JournalEntry) : Scope :=
  s.record runId { s.run runId with
    entries := match entry with
      | .model step usage => putModel step usage (s.run runId).entries
      | .tool id record => putTool id record (s.run runId).entries }

/-- Report the outcome of a run. -/
def setOutcome (s : Scope) (runId : JsString)
    (f : Option RunOutcomeRecord → RunOutcomeRecord) : Scope :=
  s.record runId { s.run runId with outcome := some (f (s.run runId).outcome) }

/-- An attempt starts, unless the run has been canceled. -/
def start (s : Scope) (runId : JsString) (now : ℕ) : Scope :=
  if (s.run runId).canceled = none then s.setOutcome runId (runStarted · now) else s

/-- The first cancellation decides when the run was canceled. -/
def cancelAgentRun (s : Scope) (runId : JsString) (now : ℕ) : Scope :=
  let decided := (s.run runId).canceled.getD now
  s.record runId { s.run runId with
    canceled := some decided
    outcome := some (runCanceled (s.run runId).outcome decided) }

end Scope

/-- What can happen in a scope. -/
inductive ScopeStep where
  /-- A run is started, resumed or replayed. -/
  | start (runId : JsString) (now : ℕ)
  /-- A model step or a tool record is written: a suspended call suspends its run. -/
  | put (runId : JsString) (entry : JournalEntry)
  | recordRunUsage (runId : JsString)
  | succeed (runId : JsString) (now : ℕ)
  | fail (runId : JsString) (error : JsString) (now : ℕ)
  | failIfUnrecorded (runId : JsString) (error : JsString) (now : ℕ)
  | cancel (runId : JsString) (now : ℕ)
  | getOrgUsage (cached strictSuspendedCost : Bool)

def Scope.step (s : Scope) : ScopeStep → Scope
  | .start runId now => s.start runId now
  | .put runId entry => s.put runId entry
  | .recordRunUsage runId => s.recordRunUsage runId
  | .succeed runId now => s.setOutcome runId (runSucceeded · now)
  | .fail runId error now => s.setOutcome runId (runFailed · error now)
  | .failIfUnrecorded runId error now => s.setOutcome runId (runFailedIfUnrecorded · error now)
  | .cancel runId now => s.cancelAgentRun runId now
  | .getOrgUsage cached strict => (s.getOrgUsage cached strict).2

/-! ## What the counters hold -/

namespace Scope

/-- Nothing has been counted. The runs may have come to any state. -/
structure Uncounted (s : Scope) : Prop where
  nodup : s.runIds.Nodup
  listed : ∀ id ∉ s.runIds, (s.run id).entries = []
  usageCounted : s.usageCounted = ∅
  usage : s.usage = none
  counters : s.counters = none
  costCache : ∀ id, s.costCache id = none
  ledger : s.ledger = []

/-- The tokens of a run. -/
def tokens (s : Scope) (runId : JsString) : ℤ := (s.cost runId).totalTokens

/-- What the ledger has of a run. -/
def ledgerOf (s : Scope) (runId : JsString) : List ℤ :=
  (s.ledger.filter (·.1 = runId)).map Prod.snd

/-- What a strict reading counts a run for, each time it does: with a document or
    counters, what they have of it, and the live run; otherwise the run. -/
def shares (s : Scope) (r : RunSummary) : List ℤ :=
  if s.readUsageCounter = none then [s.tokens r.runId]
  else s.ledgerOf r.runId ++ if r.status = .completed then [] else [s.tokens r.runId]

/-- Every listed run is counted exactly once, for its cost. -/
def CountedOnce (s : Scope) : Prop := ∀ r ∈ s.listRuns, s.shares r = [s.tokens r.runId]

/-- The listed runs that have been counted are those that are complete, and they have used
    nothing since. -/
def Settled (s : Scope) : Prop :=
  ∀ r ∈ s.listRuns, (r.runId ∈ s.usageCounted ↔ r.status = .completed) ∧
    ∀ n ∈ s.ledgerOf r.runId, n = s.tokens r.runId

instance (s : Scope) : Decidable s.Settled :=
  inferInstanceAs (Decidable (∀ r ∈ s.listRuns, (_ ↔ _) ∧ ∀ n ∈ s.ledgerOf r.runId, n = _))

/-- The memory of completed runs holds their costs. -/
def CacheSound (s : Scope) (cache : JsString → Option RunCost) : Prop :=
  ∀ id, ∀ rc ∈ cache id, rc = s.cost id

/-- The document and the counters together hold what is in the ledger, which has every
    run with a marker once. -/
structure UsageInv (s : Scope) : Prop where
  nodup : s.runIds.Nodup
  listed : ∀ id ∉ s.runIds, (s.run id).entries = []
  /-- Without document and counters, nothing has been counted. -/
  fresh : s.readUsageCounter = none → s.usageCounted = ∅ ∧ s.ledger = [] ∧ ∀ id, s.costCache id = none
  marked : s.usageCounted = (s.ledger.map Prod.fst).toFinset
  once : (s.ledger.map Prod.fst).Nodup
  /-- A run without records has nothing to be counted. -/
  unlisted : ∀ p ∈ s.ledger, p.1 ∉ s.runIds → p.2 = 0
  usage_nonneg : 0 ≤ (s.usage.getD .zero).tokens
  counters_nonneg : 0 ≤ (s.counters.getD .zero).tokens
  total : (s.usage.getD .zero).tokens + (s.counters.getD .zero).tokens =
    (s.ledger.map Prod.snd).sum

variable {s : Scope}

theorem Uncounted.usageInv (h : s.Uncounted) : s.UsageInv where
  nodup := h.nodup
  listed := h.listed
  fresh _ := ⟨h.usageCounted, h.ledger, h.costCache⟩
  marked := by rw [h.usageCounted, h.ledger]; rfl
  once := by rw [h.ledger]; exact nodup_nil
  unlisted p hp := by rw [h.ledger] at hp; cases hp
  usage_nonneg := by rw [h.usage]; rfl
  counters_nonneg := by rw [h.counters]; rfl
  total := by rw [h.usage, h.counters, h.ledger]; rfl

/-! ### Sums over the runs -/

theorem listRuns_runId (s : Scope) : s.listRuns.map (·.runId) = s.runIds := by
  simp [listRuns, Function.comp_def, summarizeRun]

theorem UsageInv.nodup_listRuns (h : s.UsageInv) : (s.listRuns.map (·.runId)).Nodup := by
  rw [listRuns_runId]
  exact h.nodup

/-- An entry of the ledger is that of one listed run, or of none. -/
theorem sum_entry {runs : List RunSummary} (hnodup : (runs.map (·.runId)).Nodup)
    {p : JsString × ℤ} (hout : (∀ r ∈ runs, p.1 ≠ r.runId) → p.2 = 0) :
    (runs.map fun r => if p.1 = r.runId then p.2 else 0).sum = p.2 := by
  induction runs with
  | nil => exact (hout fun r hr => by cases hr).symm
  | cons r runs ih =>
    obtain ⟨hnew, hnodup⟩ := nodup_cons.1 hnodup
    rw [map_cons, sum_cons]
    by_cases he : p.1 = r.runId
    · have hrest : (runs.map fun r => if p.1 = r.runId then p.2 else 0).sum = 0 := by
        refine sum_eq_zero fun n hn => ?_
        obtain ⟨r', hr', rfl⟩ := mem_map.1 hn
        exact if_neg fun he' => hnew (mem_map.2 ⟨r', hr', he'.symm.trans he⟩)
      rw [if_pos he, hrest, add_zero]
    · rw [if_neg he, zero_add]
      refine ih hnodup fun hnot => hout fun r' hr' => ?_
      rcases mem_cons.1 hr' with rfl | hr'
      · exact he
      · exact hnot r' hr'

/-- The ledger, run by run. -/
theorem sum_ledger {runs : List RunSummary} (hnodup : (runs.map (·.runId)).Nodup)
    {ledger : List (JsString × ℤ)} (hout : ∀ p ∈ ledger, p.1 ∉ runs.map (·.runId) → p.2 = 0) :
    (runs.map fun r => ((ledger.filter (·.1 = r.runId)).map Prod.snd).sum).sum =
      (ledger.map Prod.snd).sum := by
  induction ledger with
  | nil => simp
  | cons p ledger ih =>
    have hentry := sum_entry hnodup (p := p) fun hnot =>
      hout p (.head _) fun hmem => by
        obtain ⟨r, hr, he⟩ := mem_map.1 hmem
        exact hnot r hr he.symm
    rw [map_cons, sum_cons, ← ih fun q hq => hout q (.tail _ hq)]
    conv_rhs => rw [← hentry]
    rw [← sum_map_add]
    congr 1
    refine map_congr_left fun r _ => ?_
    by_cases he : p.1 = r.runId
    · simp [he]
    · simp [he]

/-- What a ledger without repetitions has of a run that is in it. -/
theorem filter_ledger {ledger : List (JsString × ℤ)} (hnodup : (ledger.map Prod.fst).Nodup)
    {p : JsString × ℤ} (hp : p ∈ ledger) : ledger.filter (·.1 = p.1) = [p] := by
  induction ledger with
  | nil => cases hp
  | cons q ledger ih =>
    obtain ⟨hnew, hnodup⟩ := nodup_cons.1 hnodup
    rcases mem_cons.1 hp with rfl | hp
    · have hrest : ledger.filter (·.1 = p.1) = [] := by
        refine filter_eq_nil_iff.2 fun q hq => ?_
        rw [decide_eq_true_eq]
        exact fun he => hnew (mem_map.2 ⟨q, hq, he⟩)
      rw [filter_cons_of_pos (by simp), hrest]
    · have hne : q.1 ≠ p.1 := fun he => hnew (mem_map.2 ⟨p, hp, he.symm⟩)
      rw [filter_cons_of_neg (by simp [hne]), ih hnodup hp]

/-- The live costs are those of the runs that are not complete. -/
theorem live_tokens (s : Scope) : s.live.tokens =
    (s.listRuns.map fun r => if r.status = .completed then 0 else s.tokens r.runId).sum := by
  have hfold : ∀ (l : List RunSummary) (u : OrganizationUsage),
      (l.foldl (fun u r => if r.status = .completed then u else u.add (s.cost r.runId).delta)
        u).tokens =
        u.tokens + (l.map fun r => if r.status = .completed then 0 else s.tokens r.runId).sum := by
    intro l
    induction l with
    | nil => intro u; simp
    | cons r l ih =>
      intro u
      rw [foldl_cons, ih]
      by_cases hr : r.status = .completed
      · simp [hr]
      · simp [hr, OrganizationUsage.add, RunCost.delta, tokens, add_assoc]
  rw [live, hfold]
  exact zero_add _

/-! ### The steps -/

theorem readUsageCounter_eq_none :
    s.readUsageCounter = none ↔ s.usage = none ∧ s.counters = none := by
  simp [readUsageCounter]

/-- The scan of one run uses its cost, whether it is remembered or not. -/
theorem scanRun_eq (cached : Bool) {t : Scan} (h : s.CacheSound t.costCache) (r : RunSummary) :
    (s.scanRun cached t r).usage = t.usage.add (s.cost r.runId).delta ∧
      (s.scanRun cached t r).backfill =
        (if r.status = .completed then t.backfill.add (s.cost r.runId).delta else t.backfill) ∧
      (s.scanRun cached t r).ledger = (if r.status = .completed then
        t.ledger ++ [(r.runId, (s.cost r.runId).delta.tokens)] else t.ledger) ∧
      s.CacheSound (s.scanRun cached t r).costCache := by
  have hrc : (if r.status = .completed ∧ cached = true then t.costCache r.runId else none).getD
      (s.cost r.runId) = s.cost r.runId := by
    split
    · cases hk : t.costCache r.runId with
      | none => rfl
      | some rc => exact h _ rc hk
    · rfl
  simp only [scanRun, hrc, true_and]
  intro id rc hid
  by_cases hset : r.status = .completed ∧ cached = true ∧
      (if r.status = .completed ∧ cached = true then t.costCache r.runId else none) = none
  · rw [if_pos hset] at hid
    by_cases he : id = r.runId
    · subst he
      simpa using hid.symm
    · exact h id rc (by simpa [update_of_ne he] using hid)
  · rw [if_neg hset] at hid
    exact h id rc hid

theorem scan_fold (cached : Bool) (l : List RunSummary) {t : Scan} (h : s.CacheSound t.costCache) :
    (l.foldl (s.scanRun cached) t).usage.tokens =
        t.usage.tokens + (l.map fun r => s.tokens r.runId).sum ∧
      (l.foldl (s.scanRun cached) t).backfill.tokens = t.backfill.tokens +
        ((l.filter fun r => r.status = .completed).map fun r => s.tokens r.runId).sum ∧
      (l.foldl (s.scanRun cached) t).ledger = t.ledger ++
        (l.filter fun r => r.status = .completed).map fun r => (r.runId, s.tokens r.runId) := by
  induction l generalizing t with
  | nil => simp
  | cons r l ih =>
    obtain ⟨husage, hbackfill, hledger, hsound⟩ := scanRun_eq cached h r
    obtain ⟨h1, h2, h3⟩ := ih hsound
    rw [foldl_cons, h1, h2, h3, husage, hbackfill, hledger]
    refine ⟨?_, ?_, ?_⟩
    · simp [OrganizationUsage.add, RunCost.delta, tokens, add_assoc]
    · by_cases hr : r.status = .completed
      · simp [hr, OrganizationUsage.add, RunCost.delta, tokens, add_assoc]
      · simp [hr]
    · by_cases hr : r.status = .completed
      · simp [hr, RunCost.delta, tokens]
      · simp [hr]

/-- A reading with nothing counted leaves the total of the runs it marks. -/
theorem UsageInv.getOrgUsage (h : s.UsageInv) (cached strict : Bool) :
    (s.getOrgUsage cached strict).2.UsageInv := by
  cases hread : s.readUsageCounter with
  | some counted =>
    simp only [Scope.getOrgUsage, hread]
    split
    · exact h
    · exact h
  | none =>
    obtain ⟨hmarks, hledger, hcache⟩ := h.fresh hread
    obtain ⟨-, hcounters⟩ := readUsageCounter_eq_none.1 hread
    have hsound : s.CacheSound s.costCache := fun id rc hid => by rw [hcache] at hid; cases hid
    obtain ⟨-, hbackfill, hscan⟩ := scan_fold cached s.listRuns
      (t := ⟨.zero, .zero, s.costCache, s.ledger⟩) hsound
    rw [hledger, nil_append] at hscan
    set complete := s.listRuns.filter fun r => r.status = .completed with hcomplete
    have hfst : (s.scan cached).ledger.map Prod.fst = complete.map (·.runId) := by
      rw [scan, hledger, hscan, map_map]
      rfl
    have hsnd : (s.scan cached).ledger.map Prod.snd = complete.map fun r => s.tokens r.runId := by
      rw [scan, hledger, hscan, map_map]
      rfl
    have htotal : (s.scan cached).backfill.tokens = (complete.map fun r => s.tokens r.runId).sum :=
      hbackfill.trans (zero_add _)
    simp only [Scope.getOrgUsage, hread]
    constructor
    case nodup => exact h.nodup
    case listed => exact h.listed
    case fresh =>
      intro hnone
      cases (readUsageCounter_eq_none.1 hnone).1
    case marked => simp only [hmarks, Finset.empty_union, hfst]; rfl
    case once =>
      rw [hfst]
      exact (filter_sublist.map _).nodup h.nodup_listRuns
    case unlisted =>
      intro p hp hout
      have hmem : p.1 ∈ complete.map (·.runId) := hfst ▸ mem_map_of_mem hp
      refine absurd ?_ hout
      rw [← listRuns_runId]
      exact (filter_sublist.map _).subset hmem
    case usage_nonneg =>
      change 0 ≤ (s.scan cached).backfill.tokens
      rw [htotal]
      refine sum_nonneg fun n hn => ?_
      obtain ⟨r, -, rfl⟩ := mem_map.1 hn
      exact Int.natCast_nonneg _
    case counters_nonneg => exact h.counters_nonneg
    case total =>
      change (s.scan cached).backfill.tokens + (s.counters.getD .zero).tokens =
        ((s.scan cached).ledger.map Prod.snd).sum
      rw [hcounters, hsnd, htotal]
      exact add_zero _

variable {runId : JsString}

/-- What is recorded of a run is not what the counters are about. -/
theorem UsageInv.record (h : s.UsageInv) (r : RunRecords) : (s.record runId r).UsageInv where
  nodup := by
    simp only [Scope.record]
    split
    · exact h.nodup
    · rename_i hnew
      exact nodup_append.2 ⟨h.nodup, nodup_singleton _, by grind⟩
  listed id hid := by
    have hid' : id ∉ s.runIds ∧ id ≠ runId := by
      simp only [Scope.record] at hid
      split at hid <;> grind
    simpa [Scope.record, update_of_ne hid'.2] using h.listed id hid'.1
  fresh := h.fresh
  marked := h.marked
  once := h.once
  unlisted p hp hid := by
    refine h.unlisted p hp fun hmem => hid ?_
    simp only [Scope.record]
    split
    · exact hmem
    · exact mem_append_left _ hmem
  usage_nonneg := h.usage_nonneg
  counters_nonneg := h.counters_nonneg
  total := h.total

/-- The marker keeps a run from being counted twice. -/
theorem UsageInv.recordRunUsage (h : s.UsageInv) (runId : JsString) :
    (s.recordRunUsage runId).UsageInv := by
  unfold Scope.recordRunUsage
  split
  · exact h
  · next hnew =>
    have hdelta : 0 ≤ ((s.cost runId).delta).tokens := Int.natCast_nonneg _
    have hu := h.usage_nonneg
    have hc := h.counters_nonneg
    have ht := h.total
    have honce : runId ∉ s.ledger.map Prod.fst := by
      rw [h.marked, mem_toFinset] at hnew
      exact hnew
    have hmarked : insert runId s.usageCounted =
        (((runId, (s.cost runId).delta.tokens) :: s.ledger).map Prod.fst).toFinset := by
      rw [map_cons, toFinset_cons, h.marked]
    have hunlisted : ∀ p ∈ (runId, (s.cost runId).delta.tokens) :: s.ledger, p.1 ∉ s.runIds →
        p.2 = 0 := by
      intro p hp hout
      rcases mem_cons.1 hp with rfl | hp
      · simp [RunCost.delta, cost, h.listed _ hout, getRunCost]
      · exact h.unlisted p hp hout
    unfold addUsage
    split
    · refine ⟨h.nodup, h.listed, fun hnone => ?_, hmarked, nodup_cons.2 ⟨honce, h.once⟩, hunlisted,
        hu, add_nonneg hc hdelta, ?_⟩
      · cases (readUsageCounter_eq_none.1 hnone).2
      · simp only [Option.getD_some, OrganizationUsage.add, map_cons, sum_cons]
        omega
    · refine ⟨h.nodup, h.listed, fun hnone => ?_, hmarked, nodup_cons.2 ⟨honce, h.once⟩, hunlisted,
        le_max_left _ _, hc, ?_⟩
      · cases (readUsageCounter_eq_none.1 hnone).1
      · simp only [Option.getD_some, OrganizationUsage.add, OrganizationUsage.clamp, map_cons,
          sum_cons]
        omega

theorem UsageInv.step (h : s.UsageInv) (step : ScopeStep) : (s.step step).UsageInv := by
  cases step with
  | start runId now =>
    simp only [Scope.step, Scope.start]
    split
    · exact h.record _
    · exact h
  | put runId entry => exact h.record _
  | recordRunUsage runId => exact h.recordRunUsage runId
  | succeed runId now => exact h.record _
  | fail runId error now => exact h.record _
  | failIfUnrecorded runId error now => exact h.record _
  | cancel runId now => exact h.record _
  | getOrgUsage cached strict => exact h.getOrgUsage cached strict

theorem UsageInv.history (h : s.UsageInv) (history : List ScopeStep) :
    (history.foldl Scope.step s).UsageInv := by
  induction history generalizing s with
  | nil => exact h
  | cons step history ih => exact ih (h.step step)

/-! ## The total -/

/-- A reading adds up what each listed run is counted for. -/
theorem UsageInv.getOrgUsage_tokens (h : s.UsageInv) (cached : Bool) :
    (s.getOrgUsage cached true).1.tokens = (s.listRuns.map fun r => (s.shares r).sum).sum := by
  cases hread : s.readUsageCounter with
  | none =>
    have hsound : s.CacheSound s.costCache := fun id rc hid => by
      rw [(h.fresh hread).2.2] at hid
      cases hid
    simp only [Scope.getOrgUsage, shares, hread, if_true, sum_singleton]
    rw [scan, (scan_fold _ _ hsound).1]
    exact zero_add _
  | some counted =>
    have htokens : counted.tokens = (s.ledger.map Prod.snd).sum := by
      unfold readUsageCounter at hread
      split at hread
      · cases hread
      · cases hread
        rw [← h.total]
        exact max_eq_right (add_nonneg h.usage_nonneg h.counters_nonneg)
    have hledger := sum_ledger h.nodup_listRuns fun p hp hout =>
      h.unlisted p hp (listRuns_runId s ▸ hout)
    simp only [Scope.getOrgUsage, hread, if_true]
    rw [htokens, ← hledger, live_tokens, ← sum_map_add]
    congr 1
    refine map_congr_left fun r _ => ?_
    simp only [shares, hread, ledgerOf]
    by_cases hr : r.status = .completed
    · simp [hr]
    · simp [hr]

theorem UsageInv.mem_usageCounted (h : s.UsageInv) {id : JsString} :
    id ∈ s.usageCounted ↔ s.ledgerOf id ≠ [] := by
  rw [h.marked, mem_toFinset, ledgerOf, Ne, map_eq_nil_iff, filter_eq_nil_iff, mem_map]
  push Not
  simp only [decide_eq_true_eq]

/-- With a document or counters, the runs are counted once if the marks are right. -/
theorem UsageInv.countedOnce_iff (h : s.UsageInv) (hread : s.readUsageCounter ≠ none) :
    s.CountedOnce ↔ s.Settled := by
  refine forall₂_congr fun r _ => ?_
  rw [shares, if_neg hread, h.mem_usageCounted]
  have hat_most : ∀ n ∈ s.ledgerOf r.runId, s.ledgerOf r.runId = [n] := by
    intro n hn
    obtain ⟨p, hp, rfl⟩ := mem_map.1 hn
    obtain ⟨hmem, he⟩ := mem_filter.1 hp
    rw [decide_eq_true_eq] at he
    rw [ledgerOf, ← he, filter_ledger h.once hmem]
    rfl
  by_cases hr : r.status = .completed
  · simp only [hr, if_true, append_nil, iff_true]
    constructor
    · intro hone
      rw [hone]
      exact ⟨cons_ne_nil _ _, fun n hn => mem_singleton.1 hn⟩
    · rintro ⟨hne, hsame⟩
      obtain ⟨n, hn⟩ := exists_mem_of_ne_nil _ hne
      rw [hat_most n hn, hsame n hn]
  · simp only [hr, if_false, iff_false, not_not]
    constructor
    · intro hone
      have hnil : s.ledgerOf r.runId = [] := by
        refine length_eq_zero_iff.1 ?_
        have := congrArg length hone
        simpa using this
      exact ⟨hnil, fun n hn => by rw [hnil] at hn; cases hn⟩
    · rintro ⟨hnil, -⟩
      rw [hnil, nil_append]

end Scope

/-- **Usage equals the sum of run costs**, each run counted exactly once, after every
    history, exactly when nothing has been counted yet, or the runs that have been counted
    are those that are complete, and have used nothing since. A reading always adds up what
    each run is counted for. -/
theorem usage_counted (start : Scope) (hstart : start.Uncounted) (history : List ScopeStep)
    (cached : Bool) :
    let s := history.foldl Scope.step start
    (s.getOrgUsage cached true).1.tokens = (s.listRuns.map fun r => (s.shares r).sum).sum ∧
      ((s.getOrgUsage cached true).1.tokens = (s.listRuns.map fun r => s.tokens r.runId).sum ∧
          s.CountedOnce ↔
        s.readUsageCounter = none ∨ s.Settled) := by
  intro s
  have h : s.UsageInv := hstart.usageInv.history history
  have htotal := h.getOrgUsage_tokens cached
  have hsum : s.CountedOnce → (s.getOrgUsage cached true).1.tokens =
      (s.listRuns.map fun r => s.tokens r.runId).sum := by
    intro honce
    rw [htotal]
    congr 1
    refine map_congr_left fun r hr => ?_
    rw [honce r hr, sum_singleton]
  refine ⟨htotal, ?_⟩
  by_cases hread : s.readUsageCounter = none
  · have honce : s.CountedOnce := fun r _ => if_pos hread
    exact ⟨fun _ => .inl hread, fun _ => ⟨hsum honce, honce⟩⟩
  · rw [← h.countedOnce_iff hread]
    exact ⟨fun hboth => .inr hboth.2, fun hor => ⟨hsum (hor.resolve_left hread),
      hor.resolve_left hread⟩⟩

/-- A run that completed before runs were counted, and cost a hundred tokens. -/
def earlierRun : Scope where
  incrBy := true
  runIds := [js "r0"]
  run := update (fun _ => ⟨[], none, none⟩) (js "r0")
    ⟨[.model 0 (some ⟨100, 0⟩)], none, none⟩
  usageCounted := ∅
  usage := none
  counters := none
  costCache _ := none
  ledger := []

/-- A run of fifty tokens. -/
def fiftyTokens (runId : JsString) (now : ℕ) : List ScopeStep :=
  [.start runId now, .put runId (.model 0 (some ⟨50, 0⟩)), .recordRunUsage runId,
    .succeed runId (now + 1)]

theorem earlierRun_uncounted : earlierRun.Uncounted where
  nodup := by decide
  listed id hid := by
    have hne : id ≠ js "r0" := fun he => hid (he ▸ mem_cons_self)
    simp [earlierRun, update_of_ne hne]
  usageCounted := rfl
  usage := rfl
  counters := rfl
  costCache _ := rfl
  ledger := rfl

/-- The usage is read before the next run completes, which is then replayed. -/
def readFirst : List ScopeStep :=
  .getOrgUsage false true :: fiftyTokens (js "r1") 1 ++
    [.start (js "r1") 3, .recordRunUsage (js "r1"), .succeed (js "r1") 4]

theorem usage_counted_readFirst :
    let s := readFirst.foldl Scope.step earlierRun
    (s.getOrgUsage false true).1.tokens = (s.listRuns.map fun r => s.tokens r.runId).sum ∧
      s.CountedOnce :=
  (usage_counted earlierRun earlierRun_uncounted readFirst false).2.2 (.inr (by decide +kernel))

/-- The next run completes before the usage is read: the earlier run is never counted. -/
theorem usage_misses_earlierRun :
    ¬∀ (start : Scope) (_ : start.Uncounted) (history : List ScopeStep) (cached : Bool),
      let s := history.foldl Scope.step start
      (s.getOrgUsage cached true).1.tokens =
        (s.listRuns.map fun r => s.tokens r.runId).sum := by
  intro h
  have h := h earlierRun earlierRun_uncounted (fiftyTokens (js "r1") 1) false
  revert h
  decide +kernel

end Gnldev.Durable
