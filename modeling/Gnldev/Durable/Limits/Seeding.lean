import Gnldev.Durable.Limits.Counting

/-!
# Seeding and living

The limit state of a run is kept up outcome by outcome; if its keys are lost, it is
rebuilt by a scan of the journal. A history of the run is played here one step after
the other, by the programs that record it (`liveStep`), and the state they keep is
compared with the one a scan at the end would build (`Agrees`).

A tool call writes its record twice, the claim and the outcome, and a process may
end in between: the claim then stands until it is taken over. The scan reads the
records in the order of their first writes, and a claim as a call that has failed. So
the two agree if the outcomes come in that order, over claims only, and no claim is
left (`seeding_agrees`). They do not if an outcome is overwritten: the scan sees only
the last outcome of a call, where the first one stood.
-/

open List

namespace Gnldev.Durable

open Function

/-! ## Histories -/

/-- A step of the history of a run. -/
inductive HistoryStep where
  /-- A model step is journaled, and counted if the run has step limits. -/
  | model (step : ℕ) (usage : Option Usage) (limited : Bool)
  /-- The gate before a tool call. -/
  | gate
  /-- A tool call claims its record, also from another that has claimed it, or failed. -/
  | claim (recordId : JsString)
  /-- The outcome of a tool call. -/
  | tool (o : ToolOutcome)

/-- The record of a claim. -/
def claimRecord : OutcomeRecord := ⟨.running, none, none, false, none⟩

variable (r : JsString)

/-- What a program that runs alone leaves of the run. -/
def soloRun (p : LimM Unit) (s : LimRun) : LimRun := (limMachine.solo 0 () p fun _ => s).2 r

/-- A step of the history, with the limit state kept up. -/
def liveStep (s : LimRun) : HistoryStep → LimRun
  | .model step usage limited =>
    let s := { s with entries := putModel step usage s.entries }
    if limited then soloRun r (countModelSteps limStore r (s.entries.length + 1)) s else s
  | .gate => soloRun r (LimCall.gate.prog r) s
  | .claim recordId => { s with entries := putTool recordId claimRecord s.entries }
  | .tool o => soloRun r (writeToolTerminal limStore r o) s

/-- The run after a history. -/
def liveHistory (history : List HistoryStep) : LimRun :=
  history.foldl (liveStep r) (.fresh [] none none)

/-- The state a scan would rebuild is the one that has been kept up. -/
def Agrees (s : LimRun) : Prop :=
  (seedFromHistory s.entries).1.succeededToolCalls = s.toolCalls ∧
    (seedFromHistory s.entries).2 = s.chain.getD emptyChain

/-- The outcomes among the records of a run: all but the claims. -/
def outcomes (entries : List JournalEntry) : List (JsString × OutcomeRecord) :=
  entries.filterMap fun
    | .tool id v => if v.status = .running then none else some (id, v)
    | .model .. => none

/-- The ids of the records of a run, in the order of their first writes. -/
def toolIds (entries : List JournalEntry) : List JsString :=
  entries.filterMap fun
    | .tool id _ => some id
    | .model .. => none

/-- The journal from a record on. -/
def fromRecord (id : JsString) (entries : List JournalEntry) : List JournalEntry :=
  entries.dropWhile fun
    | .tool id' _ => id' ≠ id
    | .model .. => true

/-- No outcome is overwritten, and none stands behind the one that is recorded; nor
    does a claim, if the record is the first the limits see. -/
def StepInTurn (s : LimRun) : HistoryStep → Prop
  | .claim recordId => ∀ v ∈ toolAt recordId s.entries, v.status = .running
  | .tool o => o.place = .call ∧ o.status ≠ .running ∧
      outcomes (fromRecord o.toolCallId s.entries) = [] ∧
      (s.chain = none → ∀ id ∈ toolIds (fromRecord o.toolCallId s.entries), id = o.toolCallId)
  | _ => True

/-- The steps of a history are in turn, and no claim is left at the end. -/
def RunsInTurn (s : LimRun) : List HistoryStep → Prop
  | [] => (outcomes s.entries).map Prod.fst = toolIds s.entries
  | step :: history => StepInTurn s step ∧ RunsInTurn (liveStep r s step) history

/-! ## Programs that run alone -/

section Solo

variable {r}

/-- A program that runs alone returns `x`, and of the run it changes only the limit
    state: it leaves the chain `chain`, and adds `n` tool calls. -/
def Leaves {α : Type} (r : JsString) (p : LimM α) (w : JsString → LimRun) (x : α)
    (chain : Option LimitChain) (n : ℕ) : Prop :=
  ∃ s, limMachine.solo 0 () p w = (x, update w r s) ∧ s.entries = (w r).entries ∧
    s.chain = chain ∧ s.toolCalls = (w r).toolCalls + n

variable {α β : Type} {w : JsString → LimRun}

theorem leaves_pure (x : α) : Leaves r (pure x) w x (w r).chain 0 :=
  ⟨w r, Prod.ext rfl (update_eq_self r w).symm, rfl, rfl, rfl⟩

theorem Leaves.bind {p : LimM α} {f : α → LimM β} {x : α} {y : β} {chain chain' : Option LimitChain}
    {n m : ℕ} (hp : Leaves r p w x chain n)
    (hf : ∀ w' : JsString → LimRun, (w' r).entries = (w r).entries → (w' r).chain = chain →
      Leaves r (f x) w' y chain' m) : Leaves r (p >>= f) w y chain' (n + m) := by
  obtain ⟨s, hsolo, hent, hchain, hcalls⟩ := hp
  obtain ⟨s', hsolo', hent', hchain', hcalls'⟩ := hf (update w r s)
    (by rw [update_self, hent]) (by rw [update_self, hchain])
  rw [update_self] at hent' hcalls'
  refine ⟨s', ?_, hent'.trans hent, hchain', by rw [hcalls', hcalls, Nat.add_assoc]⟩
  rw [Machine.solo_bind, hsolo, hsolo', update_idem]

theorem leaves_getChain : Leaves r (limStore.getChain r) w (w r).chain (w r).chain 0 :=
  ⟨w r, rfl, rfl, rfl, rfl⟩

theorem leaves_getCounters : Leaves r (limStore.getCounters r) w (w r).counters (w r).chain 0 :=
  ⟨w r, rfl, rfl, rfl, rfl⟩

theorem leaves_getModel (n : ℕ) :
    Leaves r (limStore.getModel r n) w (modelAt n (w r).entries) (w r).chain 0 :=
  ⟨w r, rfl, rfl, rfl, rfl⟩

theorem leaves_incrCounters (d : LimitCounters) :
    Leaves r (incrCounters limStore r d) w () (w r).chain d.succeededToolCalls := by
  unfold incrCounters
  split
  · next hd =>
    rw [hd]
    exact leaves_pure ()
  · exact ⟨(w r).incr 0 d, rfl, rfl, rfl, rfl⟩

/-- Alone, a program wins every compare-and-swap. -/
theorem leaves_writeChainCas {c : LimitChain} (hc : (w r).chain = some c)
    (mutate : LimitChain → LimitChain) :
    Leaves r (writeChainCas limStore r mutate) w () (some (mutate c)) 0 := by
  refine (leaves_getChain.bind (m := 0) fun w' _ hc' => ?_)
  rw [hc] at hc' ⊢
  refine ⟨(w' r).setChain (mutate c), ?_, rfl, rfl, rfl⟩
  have hwon : limMachine.solo 0 () (performLim (.chainIfMatch r c (mutate c))) w' =
      (true, update w' r ((w' r).setChain (mutate c))) := by
    show limMachine.exec 0 () (.chainIfMatch r c (mutate c)) w' = _
    simp only [limMachine, LimOp.runId, LimOp.execRun, hc', if_true]
  simp only [limStore]
  rw [Machine.solo_bind, hwon]
  rfl

/-- A state that is there is left alone. -/
theorem leaves_ensureSeeded_some (hc : (w r).chain.isSome) :
    Leaves r (ensureSeeded limStore r) w false (w r).chain 0 := by
  refine leaves_getChain.bind (m := 0) fun w' _ hc' => ?_
  rw [if_pos hc, ← hc']
  exact leaves_pure false

/-- A state that is missing is seeded from the journal. -/
theorem leaves_ensureSeeded_none (hc : (w r).chain = none) :
    Leaves r (ensureSeeded limStore r) w true (some (seedFromHistory (w r).entries).2)
      (counted (w r).entries) := by
  rw [← Nat.zero_add (counted (w r).entries)]
  refine leaves_getChain.bind fun w' hent hc' => ?_
  rw [hc] at hc' ⊢
  rw [if_neg (by simp)]
  have hread : Leaves r (performLim (.readRun r)) w' (w' r).entries none 0 :=
    ⟨(w' r).scan 0, rfl, rfl, hc', rfl⟩
  rw [← Nat.zero_add (counted (w r).entries)]
  refine hread.bind fun w'' _ hc'' => ?_
  rw [hent]
  have hclaim : Leaves r (claimChain limStore r (seedFromHistory (w r).entries).2) w'' true
      (some (seedFromHistory (w r).entries).2) 0 := by
    refine ⟨(w'' r).seed 0 (seedFromHistory (w r).entries).2, ?_, rfl, rfl, rfl⟩
    show limMachine.exec 0 () (.chainIfAbsent r _) w'' = _
    simp only [limMachine, LimOp.runId, LimOp.execRun, hc'', if_true]
  rw [← Nat.zero_add (counted (w r).entries)]
  refine hclaim.bind fun w₃ _ hc₃ => ?_
  rw [if_pos rfl, ← seedFromHistory_succeededToolCalls, ← hc₃]
  refine (leaves_incrCounters _).bind (m := 0) fun w₄ _ hc₄ => ?_
  rw [← hc₄]
  exact leaves_pure true

/-- Alone, an outcome is added to a state that is there. -/
theorem leaves_addOutcome {c : LimitChain} (hc : (w r).chain = some c)
    (toolCallId toolName hash : JsString) (status : ToolStatus) (sideEffect : Bool) :
    Leaves r (addOutcome limStore r toolCallId toolName hash status sideEffect) w ()
      (some (applyToolOutcomeToChain c toolCallId (some toolName) (some hash) status))
      (if countsOutcome status sideEffect then 1 else 0) := by
  unfold addOutcome
  split
  · rw [show (1 : ℕ) = 1 + 0 from rfl]
    refine (leaves_incrCounters { emptyCounters with succeededToolCalls := 1 }).bind
      fun w' _ hc' => ?_
    exact leaves_writeChainCas (hc'.trans hc) _
  · exact leaves_writeChainCas hc _

end Solo

/-! ## What a scan makes of a step -/

section Scan

variable {entries : List JournalEntry}

/-- The scan's part of the chain. -/
def seedChain (chain : LimitChain) : JournalEntry → LimitChain
  | .model .. => chain
  | .tool id v =>
    if v.mirrorOf.isSome then chain
    else applyToolOutcomeToChain chain id v.toolName v.argsHash v.status

theorem foldl_seedEntry_snd (s : LimitCounters × LimitChain) :
    (entries.foldl seedEntry s).2 = entries.foldl seedChain s.2 := by
  induction entries generalizing s with
  | nil => rfl
  | cons e entries ih =>
    rw [foldl_cons, foldl_cons, ih]
    congr 1
    cases e with
    | model step usage => rfl
    | tool id v =>
      simp only [seedEntry, seedChain]
      split <;> rfl

/-- A model step has no part in the records. -/
theorem outcomes_putModel (step : ℕ) (usage : Option Usage) :
    outcomes (putModel step usage entries) = outcomes entries := by
  induction entries with
  | nil => rfl
  | cons e entries ih =>
    cases e with
    | model step' usage' =>
      unfold putModel
      split
      · rfl
      · exact ih
    | tool id v => simp only [putModel, outcomes, filterMap_cons] at ih ⊢; rw [ih]

theorem toolIds_putModel (step : ℕ) (usage : Option Usage) :
    toolIds (putModel step usage entries) = toolIds entries := by
  induction entries with
  | nil => rfl
  | cons e entries ih =>
    cases e with
    | model step' usage' =>
      unfold putModel
      split
      · rfl
      · exact ih
    | tool id v => exact congrArg (id :: ·) ih

/-- A new record goes to the end, an old one keeps its place. -/
theorem toolIds_putTool (id : JsString) (v : OutcomeRecord) :
    toolIds (putTool id v entries) =
      if id ∈ toolIds entries then toolIds entries else toolIds entries ++ [id] := by
  induction entries with
  | nil => rfl
  | cons e entries ih =>
    cases e with
    | model step usage => exact ih
    | tool id' v' =>
      by_cases he : id' = id
      · simp [putTool, toolIds, he]
      · have hids : toolIds (.tool id' v' :: entries) = id' :: toolIds entries := rfl
        have hput : toolIds (putTool id v (.tool id' v' :: entries)) =
            id' :: toolIds (putTool id v entries) := by
          rw [putTool, if_neg he]
          rfl
        rw [hput, hids, ih]
        by_cases hmem : id ∈ toolIds entries
        · rw [if_pos hmem, if_pos (.tail _ hmem)]
        · rw [if_neg hmem, if_neg fun h => hmem (mem_of_ne_of_mem (Ne.symm he) h), cons_append]

theorem mem_putModel {step : ℕ} {usage : Option Usage} {id : JsString} {v : OutcomeRecord}
    (h : .tool id v ∈ putModel step usage entries) : .tool id v ∈ entries := by
  induction entries with
  | nil => simp [putModel] at h
  | cons e entries ih =>
    cases e with
    | model step' usage' =>
      unfold putModel at h
      split at h
      · simpa using h
      · exact .tail _ (ih (by simpa using h))
    | tool id' v' =>
      rcases mem_cons.1 h with he | h
      · exact he ▸ .head _
      · exact .tail _ (ih h)

theorem mem_putTool {id id' : JsString} {v v' : OutcomeRecord}
    (h : .tool id' v' ∈ putTool id v entries) : v' = v ∨ .tool id' v' ∈ entries := by
  induction entries with
  | nil =>
    obtain ⟨-, rfl⟩ : id' = id ∧ v' = v := by simpa [putTool] using h
    exact .inl rfl
  | cons e entries ih =>
    cases e with
    | model step usage => exact (ih (by simpa [putTool] using h)).imp_right (.tail _)
    | tool id'' v'' =>
      unfold putTool at h
      split at h
      · rcases mem_cons.1 h with he | h
        · cases he
          exact .inl rfl
        · exact .inr (.tail _ h)
      · rcases mem_cons.1 h with he | h
        · exact .inr (he ▸ .head _)
        · exact (ih h).imp_right (.tail _)

/-- A claim that overwrites no outcome is no outcome. -/
theorem outcomes_putTool_claim {id : JsString}
    (h : ∀ v ∈ toolAt id entries, v.status = .running) :
    outcomes (putTool id claimRecord entries) = outcomes entries := by
  induction entries with
  | nil => rfl
  | cons e entries ih =>
    cases e with
    | model step usage => exact ih h
    | tool id' v' =>
      by_cases he : id' = id
      · have hv : v'.status = .running := h v' (by simp [toolAt, he])
        simp [putTool, outcomes, he, hv, claimRecord]
      · have hput := ih fun v hv => h v (by simpa [toolAt, he] using hv)
        simp only [outcomes] at hput
        simp only [putTool, if_neg he, outcomes, filterMap_cons, hput]

/-- An outcome that stands before no other is the last. -/
theorem outcomes_putTool {id : JsString} {v : OutcomeRecord} (hv : v.status ≠ .running)
    (h : outcomes (fromRecord id entries) = []) :
    outcomes (putTool id v entries) = outcomes entries ++ [(id, v)] := by
  induction entries with
  | nil => simp [putTool, outcomes, hv]
  | cons e entries ih =>
    cases e with
    | model step usage => exact ih h
    | tool id' v' =>
      by_cases he : id' = id
      · have hall : outcomes (.tool id' v' :: entries) = [] := by simpa [fromRecord, he] using h
        have htail : outcomes entries = [] := by
          refine eq_nil_of_sublist_nil (hall ▸ ?_)
          exact (sublist_cons_self _ entries).filterMap _
        rw [hall, nil_append, putTool, if_pos he]
        simp only [outcomes, filterMap_cons, if_neg hv] at htail ⊢
        rw [htail]
      · have hput := ih (by simpa [fromRecord, he] using h)
        simp only [outcomes] at hput
        simp only [putTool, if_neg he, outcomes, filterMap_cons, hput]
        split <;> rfl

theorem mem_of_outcomes {id : JsString} {v : OutcomeRecord} (h : (id, v) ∈ outcomes entries) :
    .tool id v ∈ entries := by
  obtain ⟨e, hmem, he⟩ := mem_filterMap.1 h
  cases e with
  | model step usage => cases he
  | tool id' v' =>
    simp only at he
    split at he
    · cases he
    · cases he
      exact hmem

theorem length_outcomes_le : (outcomes entries).length ≤ (toolIds entries).length := by
  induction entries with
  | nil => exact Nat.le_refl 0
  | cons e entries ih =>
    cases e with
    | model step usage => exact ih
    | tool id v =>
      by_cases hv : v.status = .running
      · simpa [outcomes, toolIds, hv] using Nat.le_succ_of_le ih
      · simpa [outcomes, toolIds, hv] using ih

/-- A claim does not count. -/
theorem counted_eq : counted entries = (outcomes entries).countP (·.2.counts) := by
  induction entries with
  | nil => rfl
  | cons e entries ih =>
    cases e with
    | model step usage => exact ih
    | tool id v =>
      by_cases hv : v.status = .running
      · have hcounts : v.counts = false := by simp [OutcomeRecord.counts, countsOutcome, hv]
        simpa [counted, outcomes, hv, hcounts] using ih
      · have houtcomes : outcomes (.tool id v :: entries) = (id, v) :: outcomes entries := by
          simp [outcomes, hv]
        rw [houtcomes, countP_cons, counted, ih, Nat.add_comm]

/-! ### The chain of a list of outcomes -/

/-- The chain of calls that have not succeeded. -/
def bareChain (ids : List JsString) : LimitChain := { emptyChain with subRunIds := ids }

/-- An outcome, added to a chain. -/
def addRecord (chain : LimitChain) (p : JsString × OutcomeRecord) : LimitChain :=
  seedChain chain (.tool p.1 p.2)

/-- The ids have no part in the rest of the chain. -/
theorem applyToolOutcomeToChain_subRunIds (c : LimitChain) (ids : List JsString) (id : JsString)
    (toolName hash : Option JsString) (status : ToolStatus) :
    applyToolOutcomeToChain { c with subRunIds := ids } id toolName hash status =
      { applyToolOutcomeToChain c id toolName hash status with
        subRunIds := if id ∈ ids then ids else ids ++ [id] } := by
  cases status <;> simp only [applyToolOutcomeToChain]
  all_goals split <;> rfl

/-- The scan of records that are all outcomes. -/
theorem foldl_seedChain_outcomes (h : (outcomes entries).map Prod.fst = toolIds entries)
    (c : LimitChain) : entries.foldl seedChain c = (outcomes entries).foldl addRecord c := by
  induction entries generalizing c with
  | nil => rfl
  | cons e entries ih =>
    cases e with
    | model step usage => exact ih h c
    | tool id v =>
      by_cases hv : v.status = .running
      · -- a claim is missing among the outcomes
        have hlen : ((outcomes entries).map Prod.fst).length = (toolIds entries).length + 1 := by
          have := congrArg List.length h
          simpa [outcomes, toolIds, hv] using this
        have hle : (outcomes entries).length ≤ (toolIds entries).length := length_outcomes_le
        rw [length_map] at hlen
        omega
      · have houtcomes : outcomes (.tool id v :: entries) = (id, v) :: outcomes entries := by
          simp [outcomes, hv]
        rw [houtcomes] at h ⊢
        exact ih (tail_eq_of_cons_eq h) _

theorem foldl_seedChain_models (h : toolIds entries = []) (c : LimitChain) :
    entries.foldl seedChain c = c := by
  induction entries with
  | nil => rfl
  | cons e entries ih =>
    cases e with
    | model step usage => exact ih h
    | tool id v => cases h

/-- A claim looks like a call that has not succeeded. -/
theorem seedChain_claim {id : JsString} {v : OutcomeRecord} (hplain : v.mirrorOf = none)
    (hv : v.status = .running) {ids : List JsString} (hnew : id ∉ ids) :
    seedChain (bareChain ids) (.tool id v) = bareChain (ids ++ [id]) := by
  simp [seedChain, hplain, hv, applyToolOutcomeToChain, bareChain, emptyChain, hnew]

/-- The scan of claims. -/
theorem foldl_seedChain_claims (hplain : ∀ id v, .tool id v ∈ entries → v.mirrorOf = none)
    (hnone : outcomes entries = []) (ids : List JsString) (hnodup : (ids ++ toolIds entries).Nodup) :
    entries.foldl seedChain (bareChain ids) = bareChain (ids ++ toolIds entries) := by
  induction entries generalizing ids with
  | nil => rw [foldl_nil, toolIds, filterMap_nil, append_nil]
  | cons e entries ih =>
    have hplain' : ∀ id v, .tool id v ∈ entries → v.mirrorOf = none :=
      fun id v hmem => hplain id v (.tail _ hmem)
    cases e with
    | model step usage => exact ih hplain' hnone ids hnodup
    | tool id v =>
      have hids : toolIds (.tool id v :: entries) = id :: toolIds entries := rfl
      rw [hids] at hnodup ⊢
      have hv : v.status = .running := by
        by_contra hv
        simp [outcomes, hv] at hnone
      have hhead : seedChain (bareChain ids) (.tool id v) = bareChain (ids ++ [id]) :=
        seedChain_claim (hplain id v (.head _)) hv fun hmem =>
          (nodup_append.1 hnodup).2.2 id hmem id (.head _) rfl
      rw [foldl_cons, hhead, ih hplain' (by simpa [outcomes, hv] using hnone) (ids ++ [id])
        (by rwa [append_assoc]), append_assoc]
      rfl

/-- Ids that are there from the start come to be there anyway. -/
theorem foldl_addRecord_early {ps : List (JsString × OutcomeRecord)}
    (hplain : ∀ p ∈ ps, p.2.mirrorOf = none) (c : LimitChain)
    (hnodup : (c.subRunIds ++ ps.map Prod.fst).Nodup) {early : List JsString}
    (hearly : early <+: ps.map Prod.fst) :
    ps.foldl addRecord { c with subRunIds := c.subRunIds ++ early } = ps.foldl addRecord c := by
  induction ps generalizing c early with
  | nil => rw [prefix_nil.1 hearly, append_nil]
  | cons p ps ih =>
    cases early with
    | nil => rw [append_nil]
    | cons id early =>
      obtain ⟨rfl, hrest⟩ := cons_prefix_cons.1 hearly
      have hnew : p.1 ∉ c.subRunIds := fun hmem =>
        (nodup_append.1 hnodup).2.2 p.1 hmem p.1 (.head _) rfl
      have hadd : ∀ ids, addRecord { c with subRunIds := ids } p =
          { addRecord c p with subRunIds := if p.1 ∈ ids then ids else ids ++ [p.1] } := fun ids => by
        simp only [addRecord, seedChain, hplain p (.head _)]
        exact applyToolOutcomeToChain_subRunIds ..
      have hown : (addRecord c p).subRunIds = c.subRunIds ++ [p.1] := by
        have := congrArg LimitChain.subRunIds (hadd c.subRunIds)
        rwa [if_neg hnew] at this
      have hnext := ih (fun q hq => hplain q (.tail _ hq)) (addRecord c p)
        (by rw [hown, append_assoc]; exact hnodup) hrest
      rw [foldl_cons, foldl_cons, hadd, if_pos (by simp), ← hnext, hown, append_assoc]
      rfl

end Scan

/-! ## A whole history -/

/-- The chain is the one of the outcomes, added to the claims that stood when it was
    seeded. -/
def KeptUp (entries : List JournalEntry) (c : LimitChain) : Prop :=
  ∃ early, early <+: toolIds entries ∧ c = (outcomes entries).foldl addRecord (bareChain early)

/-- The scan of the first outcome, with claims before it, but none behind. -/
theorem foldl_seedChain_first {entries : List JournalEntry} {id : JsString} {v : OutcomeRecord}
    (hplain : ∀ id v, .tool id v ∈ entries → v.mirrorOf = none) (hnone : outcomes entries = [])
    (hlast : ∀ id' ∈ toolIds (fromRecord id entries), id' = id) (ids : List JsString)
    (hnodup : (ids ++ toolIds entries).Nodup) :
    ∃ early, early <+: toolIds (putTool id v entries) ∧
      (putTool id v entries).foldl seedChain (bareChain ids) =
        addRecord (bareChain (ids ++ early)) (id, v) := by
  induction entries generalizing ids with
  | nil => exact ⟨[], nil_prefix, by rw [append_nil]; rfl⟩
  | cons e entries ih =>
    have hplain' : ∀ id v, .tool id v ∈ entries → v.mirrorOf = none :=
      fun id v hmem => hplain id v (.tail _ hmem)
    cases e with
    | model step usage => exact ih hplain' hnone hlast ids hnodup
    | tool id' v' =>
      have hids : toolIds (.tool id' v' :: entries) = id' :: toolIds entries := rfl
      rw [hids] at hnodup
      have hv' : v'.status = .running := by
        by_contra hv'
        simp [outcomes, hv'] at hnone
      by_cases he : id' = id
      · subst he
        -- nothing else is left behind it
        have hrest : toolIds entries = [] := by
          have hnot : id' ∉ toolIds entries := (nodup_cons.1 (nodup_append.1 hnodup).2.1).1
          refine eq_nil_iff_forall_not_mem.2 fun a ha => hnot ?_
          have hfrom : fromRecord id' (.tool id' v' :: entries) = .tool id' v' :: entries := by
            simp [fromRecord]
          exact hlast a (by rw [hfrom, hids]; exact .tail _ ha) ▸ ha
        refine ⟨[], nil_prefix, ?_⟩
        rw [putTool, if_pos rfl, foldl_cons, append_nil, foldl_seedChain_models hrest]
        rfl
      · have hhead : seedChain (bareChain ids) (.tool id' v') = bareChain (ids ++ [id']) :=
          seedChain_claim (hplain id' v' (.head _)) hv' fun hmem =>
            (nodup_append.1 hnodup).2.2 id' hmem id' (.head _) rfl
        obtain ⟨early, hearly, hfold⟩ := ih hplain' (by simpa [outcomes, hv'] using hnone)
          (by simpa [fromRecord, he] using hlast) (ids ++ [id']) (by rwa [append_assoc])
        rw [append_assoc] at hfold
        refine ⟨id' :: early, ?_, ?_⟩
        · rw [putTool, if_neg he]
          exact (prefix_cons_inj id').2 hearly
        · rw [putTool, if_neg he, foldl_cons, hhead, hfold]
          rfl

/-- The limit state is missing, and no outcome has been recorded, or it has been kept up. -/
structure InStep (s : LimRun) : Prop where
  plain : ∀ id v, .tool id v ∈ s.entries → v.mirrorOf = none
  nodup : (toolIds s.entries).Nodup
  missing : s.chain = none → s.toolCalls = 0 ∧ outcomes s.entries = []
  kept : ∀ c ∈ s.chain, KeptUp s.entries c ∧ s.toolCalls = counted s.entries

section History

variable {r} {s : LimRun}

/-- If no claim is left, a scan builds the chain that has been kept up. -/
theorem InStep.agrees (h : InStep s)
    (hend : (outcomes s.entries).map Prod.fst = toolIds s.entries) : Agrees s := by
  rw [Agrees, seedFromHistory_succeededToolCalls, seedFromHistory, foldl_seedEntry_snd,
    foldl_seedChain_outcomes hend]
  cases hc : s.chain with
  | none =>
    obtain ⟨hcalls, hnone⟩ := h.missing hc
    rw [counted_eq, hnone, hcalls]
    exact ⟨rfl, rfl⟩
  | some c =>
    obtain ⟨⟨early, hearly, rfl⟩, hcalls⟩ := h.kept c hc
    refine ⟨hcalls.symm, (foldl_addRecord_early (fun p hp => ?_) emptyChain ?_ ?_).symm⟩
    · obtain ⟨id, v⟩ := p
      exact h.plain id v (mem_of_outcomes hp)
    · rw [hend]
      exact h.nodup
    · rwa [hend]

/-- A program that keeps the chain up. -/
theorem inStep_of_leaves {p : LimM Unit} {w : JsString → LimRun} {c : LimitChain} {n : ℕ}
    (hw : w r = s) (hp : Leaves r p w () (some c) n)
    (hplain : ∀ id v, .tool id v ∈ s.entries → v.mirrorOf = none)
    (hnodup : (toolIds s.entries).Nodup)
    (hc : KeptUp s.entries c) (hn : s.toolCalls + n = counted s.entries) :
    InStep ((limMachine.solo 0 () p w).2 r) := by
  subst hw
  obtain ⟨s', hsolo, hent, hchain, hcalls⟩ := hp
  rw [hsolo]
  simp only [update_self]
  constructor
  case plain => rwa [hent]
  case nodup => rwa [hent]
  case missing =>
    intro h
    rw [hchain] at h
    cases h
  case kept =>
    intro c' hc'
    rw [hchain] at hc'
    cases hc'
    rw [hent]
    exact ⟨hc, hcalls.trans hn⟩

/-- Seeding, if the state is missing: there are claims only. -/
theorem InStep.leaves_ensureSeeded (h : InStep s) {w : JsString → LimRun} (hw : w r = s) :
    ∃ won n c, Leaves r (ensureSeeded limStore r) w won (some c) n ∧ KeptUp s.entries c ∧
      s.toolCalls + n = counted s.entries := by
  subst hw
  cases hc : (w r).chain with
  | none =>
    obtain ⟨hcalls, hnone⟩ := h.missing hc
    have hseed := leaves_ensureSeeded_none hc
    have hclaims := foldl_seedChain_claims h.plain hnone [] h.nodup
    refine ⟨true, _, _, hseed, ⟨toolIds (w r).entries, prefix_rfl, ?_⟩, by rw [hcalls, Nat.zero_add]⟩
    rw [seedFromHistory, foldl_seedEntry_snd, hnone]
    exact hclaims
  | some c =>
    obtain ⟨hkept, hcalls⟩ := h.kept c hc
    have hsome := leaves_ensureSeeded_some (w := w) (r := r) (by rw [hc]; rfl)
    rw [hc] at hsome
    exact ⟨false, 0, c, hsome, hkept, hcalls⟩

/-- The usage that is found depends on the journal, and is no tool call. -/
theorem leaves_computeModelStepsDelta (entries : List JournalEntry) (fuel seen : ℕ)
    (delta : LimitCounters) (hdelta : delta.succeededToolCalls = 0) :
    ∃ d, d.succeededToolCalls = 0 ∧ ∀ w : JsString → LimRun, (w r).entries = entries →
      Leaves r (computeModelStepsDelta limStore r fuel seen delta) w d (w r).chain 0 := by
  induction fuel generalizing seen delta with
  | zero => exact ⟨delta, hdelta, fun w _ => leaves_pure delta⟩
  | succ fuel ih =>
    cases hm : modelAt seen entries with
    | none =>
      refine ⟨delta, hdelta, fun w hw => (leaves_getModel seen).bind (m := 0) fun w' _ hc' => ?_⟩
      rw [hw, hm, ← hc']
      exact leaves_pure delta
    | some usage =>
      have hnext : (applyModelStepDelta delta usage).succeededToolCalls = 0 := by
        cases usage with
        | none => exact hdelta
        | some u => exact hdelta
      obtain ⟨d, hd, hleaves⟩ := ih (seen + 1) _ hnext
      refine ⟨d, hd, fun w hw => (leaves_getModel seen).bind (m := 0) fun w' hent hc' => ?_⟩
      rw [hw, hm, ← hc']
      exact hleaves w' (hent.trans hw)

/-- A model step keeps the state in step. -/
theorem InStep.model (h : InStep s) (step : ℕ) (usage : Option Usage) (limited : Bool) :
    InStep (liveStep r s (.model step usage limited)) := by
  set s₁ : LimRun := { s with entries := putModel step usage s.entries } with hs₁
  have h₁ : InStep s₁ := by
    constructor
    case plain => exact fun id v hmem => h.plain id v (mem_putModel hmem)
    case nodup => exact (toolIds_putModel step usage).symm ▸ h.nodup
    case missing =>
      simp only [hs₁, outcomes_putModel]
      exact h.missing
    case kept =>
      have hkept := h.kept
      simp only [KeptUp, counted_eq] at hkept
      simp only [hs₁, KeptUp, counted_eq, outcomes_putModel, toolIds_putModel]
      exact hkept
  cases limited with
  | false => exact h₁
  | true =>
    show InStep (soloRun r (countModelSteps limStore r (s₁.entries.length + 1)) s₁)
    obtain ⟨won, n, c, hseed, hkept, hn⟩ :=
      h₁.leaves_ensureSeeded (r := r) (w := fun _ => s₁) rfl
    refine inStep_of_leaves rfl (hseed.bind (m := 0) fun w₁ hent₁ hc₁ => ?_) h₁.plain h₁.nodup
      hkept hn
    refine leaves_getCounters.bind (m := 0) fun w₂ hent₂ hc₂ => ?_
    obtain ⟨d, hd, hleaves⟩ := leaves_computeModelStepsDelta (r := r) (w₂ r).entries
      (s₁.entries.length + 1) (((w₁ r).counters.getD emptyCounters).modelStepsSeen) emptyCounters rfl
    refine (hleaves w₂ rfl).bind (m := 0) fun w₃ hent₃ hc₃ => ?_
    have hincr := leaves_incrCounters (r := r) (w := w₃) d
    rwa [hd, hc₃, hc₂, hc₁] at hincr

theorem InStep.gate (h : InStep s) : InStep (liveStep r s .gate) := by
  obtain ⟨won, n, c, hseed, hkept, hn⟩ := h.leaves_ensureSeeded (r := r) (w := fun _ => s) rfl
  refine inStep_of_leaves rfl (hseed.bind (m := 0) fun w₁ hent₁ hc₁ => ?_) h.plain h.nodup hkept hn
  rw [← hc₁]
  exact leaves_pure ()

/-- A record that is written leaves the others plain, and the ids apart. -/
theorem InStep.plain_putTool (h : InStep s) (id : JsString) {v : OutcomeRecord}
    (hv : v.mirrorOf = none) :
    (∀ id' v', .tool id' v' ∈ putTool id v s.entries → v'.mirrorOf = none) ∧
      (toolIds (putTool id v s.entries)).Nodup ∧
      toolIds s.entries <+: toolIds (putTool id v s.entries) := by
  refine ⟨fun id' v' hmem => ?_, ?_, ?_⟩
  · rcases mem_putTool hmem with rfl | hmem
    · exact hv
    · exact h.plain id' v' hmem
  · rw [toolIds_putTool]
    split
    · exact h.nodup
    · next hnew => exact h.nodup.append (nodup_singleton id) (by simpa using hnew)
  · rw [toolIds_putTool]
    split
    · exact prefix_rfl
    · exact prefix_append _ _

/-- A claim keeps the state in step. -/
theorem InStep.claim (h : InStep s) {recordId : JsString} (ht : StepInTurn s (.claim recordId)) :
    InStep (liveStep r s (.claim recordId)) := by
  obtain ⟨hplain, hnodup, hprefix⟩ := h.plain_putTool recordId (v := claimRecord) rfl
  have hsame := outcomes_putTool_claim ht
  constructor
  case plain => exact hplain
  case nodup => exact hnodup
  case missing => exact fun hc => ⟨(h.missing hc).1, hsame.trans (h.missing hc).2⟩
  case kept =>
    intro c hc
    obtain ⟨⟨early, hearly, hfold⟩, hcalls⟩ := h.kept c hc
    refine ⟨⟨early, hearly.trans hprefix, hfold.trans ?_⟩, hcalls.trans ?_⟩
    · simp only [liveStep, hsame]
    · simp only [liveStep, counted_eq, hsame]

/-- The record of an outcome, which counts as the outcome does. -/
theorem addRecord_record {o : ToolOutcome} (ho : o.place = .call) (chain : LimitChain) :
    addRecord chain (o.toolCallId, o.record) =
      applyToolOutcomeToChain chain o.toolCallId (some o.toolName) (some o.hash) o.status := by
  simp only [addRecord, seedChain, ToolOutcome.record, ho]
  -- Only the outcomes that look at the hash have it in their record.
  cases hs : o.status <;> simp [applyToolOutcomeToChain]

theorem counts_record {o : ToolOutcome} (ho : o.place = .call) :
    o.record.counts = countsOutcome o.status o.sideEffect := by
  simp only [OutcomeRecord.counts, ToolOutcome.record, ho, countsOutcome]
  cases o.status <;> simp

/-- An outcome in its turn keeps the state in step. -/
theorem InStep.tool (h : InStep s) {o : ToolOutcome} (ht : StepInTurn s (.tool o)) :
    InStep (liveStep r s (.tool o)) := by
  obtain ⟨ho, hstatus, hlast, hfirst⟩ := ht
  have hid : o.recordId = o.toolCallId := by rw [ToolOutcome.recordId, ho]
  set s₁ : LimRun := s.record 0 o.recordId o.record with hs₁
  have hent : s₁.entries = putTool o.toolCallId o.record s.entries := by rw [← hid]; rfl
  obtain ⟨hplain, hnodup, hprefix⟩ := h.plain_putTool o.toolCallId (v := o.record)
    (by simp only [ToolOutcome.record, ho])
  rw [← hent] at hplain hnodup hprefix
  have houtcomes : outcomes s₁.entries = outcomes s.entries ++ [(o.toolCallId, o.record)] := by
    rw [hent]
    exact outcomes_putTool hstatus hlast
  have hcounted : counted s₁.entries =
      counted s.entries + if countsOutcome o.status o.sideEffect then 1 else 0 := by
    rw [counted_eq, houtcomes, countP_append, ← counted_eq, ← counts_record ho]
    simp
  set w₁ : JsString → LimRun := update (fun _ => s) r s₁ with hw₁
  have hw₁r : w₁ r = s₁ := update_self ..
  have hrun : liveStep r s (.tool o) = (limMachine.solo 0 () (recordToolOutcome limStore r
      o.toolCallId o.toolName o.hash o.status o.sideEffect) w₁).2 r := rfl
  rw [hrun]
  cases hc : s.chain with
  | none =>
    -- The scan sees the record that has just been written, and claims before it.
    have hc₁ : (w₁ r).chain = none := by rw [hw₁r]; exact hc
    obtain ⟨hcalls, hnone⟩ := h.missing hc
    refine inStep_of_leaves (c := s₁.entries.foldl seedChain emptyChain) (n := counted s₁.entries)
      hw₁r ?_ hplain hnodup ?_ ?_
    · rw [← Nat.zero_add (counted s₁.entries)]
      refine leaves_getChain.bind fun w₂ hent₂ hc₂ => ?_
      rw [hc₁] at hc₂ ⊢
      have hseed := leaves_ensureSeeded_none hc₂
      rw [hent₂, hw₁r, seedFromHistory, foldl_seedEntry_snd] at hseed
      rw [if_neg (by simp), if_neg (by simp [limStore])]
      refine hseed.bind (m := 0) fun w₃ _ hc₃ => ?_
      rw [if_pos rfl, ← hc₃]
      exact leaves_pure ()
    · rw [hent]
      obtain ⟨early, hearly, hfold⟩ := foldl_seedChain_first (v := o.record) h.plain hnone
        (hfirst hc) [] h.nodup
      refine ⟨early, hearly, hfold.trans ?_⟩
      rw [← hent, houtcomes, hnone]
      rfl
    · show s.toolCalls + _ = _
      rw [hcalls, Nat.zero_add]
  | some c =>
    have hc₁ : (w₁ r).chain = some c := by rw [hw₁r]; exact hc
    obtain ⟨⟨early, hearly, rfl⟩, hcalls⟩ := h.kept c hc
    refine inStep_of_leaves (n := if countsOutcome o.status o.sideEffect then 1 else 0)
      (c := applyToolOutcomeToChain ((outcomes s.entries).foldl addRecord (bareChain early))
        o.toolCallId (some o.toolName) (some o.hash) o.status)
      hw₁r ?_ hplain hnodup ⟨early, hearly.trans hprefix, ?_⟩ ?_
    · rw [← Nat.zero_add (if countsOutcome o.status o.sideEffect = true then 1 else 0)]
      refine leaves_getChain.bind fun w₂ _ hc₂ => ?_
      rw [hc₁] at hc₂ ⊢
      rw [if_pos Option.isSome_some]
      exact leaves_addOutcome hc₂ ..
    · rw [houtcomes, foldl_append, ← addRecord_record ho]
      rfl
    · show s.toolCalls + _ = _
      rw [hcalls, hcounted]

/-- A step in its turn keeps the state in step. -/
theorem InStep.step (h : InStep s) {step : HistoryStep} (ht : StepInTurn s step) :
    InStep (liveStep r s step) := by
  cases step with
  | model n usage limited => exact h.model n usage limited
  | gate => exact h.gate
  | claim recordId => exact h.claim ht
  | tool o => exact h.tool ht

/-- A whole history in turn. -/
theorem InStep.history {history : List HistoryStep} (h : InStep s) (ht : RunsInTurn r s history) :
    Agrees (history.foldl (liveStep r) s) := by
  induction history generalizing s with
  | nil => exact h.agrees ht
  | cons step history ih => exact ih (h.step ht.1) ht.2

end History

instance (s : LimRun) (step : HistoryStep) : Decidable (StepInTurn s step) :=
  match step with
  | .claim recordId =>
    inferInstanceAs (Decidable (∀ v ∈ toolAt recordId s.entries, v.status = .running))
  | .tool _ => inferInstanceAs (Decidable (_ ∧ _ ∧ _ ∧ _))
  | .model .. | .gate => isTrue trivial

instance decidableRunsInTurn (r : JsString) : (s : LimRun) → (history : List HistoryStep) →
    Decidable (RunsInTurn r s history)
  | _, [] => inferInstanceAs (Decidable (_ = _))
  | s, step :: history =>
    have := decidableRunsInTurn r (liveStep r s step) history
    inferInstanceAs (Decidable (_ ∧ _))

/-- The calls `a` and `b` have been claimed when the process ends; the next one takes
    `a` over, and then `b`, which is denied. -/
def takenOver : List HistoryStep :=
  [.model 0 none false, .claim (js "a"), .claim (js "b"), .gate, .claim (js "a"),
    .tool ⟨js "a", js "pay", js "1", .succeeded, true, .call⟩, .model 1 none true,
    .claim (js "b"), .tool ⟨js "b", js "mail", js "2", .denied, true, .call⟩]

/-- The call `a` waits for an approval, `b` is called meanwhile, and then `a`. -/
def approvedLater : List HistoryStep :=
  [.gate, .tool ⟨js "a", js "pay", js "1", .suspended, true, .call⟩,
    .gate, .claim (js "b"), .tool ⟨js "b", js "mail", js "2", .succeeded, true, .call⟩,
    .gate, .claim (js "a"), .tool ⟨js "a", js "pay", js "1", .succeeded, true, .call⟩]

end Gnldev.Durable
