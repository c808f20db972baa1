import Gnldev.Durable.RunId
import Gnldev.Lib.OrderedMap
import Mathlib.Data.List.Infix

/-!
# Forking a run

A run of a workflow records the output of every step, under the run, the workflows the step is nested
in, and the step. A fork (`workflow.ts`, `forkWorkflowRun`) copies the records of the steps before a
given one to another run, so that these steps replay in it and the others are executed. What it copies
is found by the texts of the keys: a step that is nested in another has its key under the key of the
other, and what belongs to a step besides has `:_` in its key, or `:attempts` at its end.

* `WfStep`: the steps of a workflow, with those nested in them;
* `invoked_once`: a run that is executed again and again invokes no body twice;
* `forkWorkflowRun`: a fork;
* `fork_exact`: when a fork starts from exactly the prefix.
-/

open List

namespace Gnldev.Workflow

open Durable

variable {V : Type}

/-! ## Steps -/

/-- A step, the other keys it writes, and the steps its body runs, each under its part of the key. The
    claim of a step (`:_claim`) is not among the other keys. -/
inductive WfStep where
  | mk (id : JsString) (control : List JsString) (inner : List (JsString × WfStep))

namespace WfStep

def id : WfStep → JsString
  | mk id _ _ => id

def control : WfStep → List JsString
  | mk _ control _ => control

def inner : WfStep → List (JsString × WfStep)
  | mk _ _ inner => inner

def step (id : JsString) : WfStep := mk id [] []

/-- A nested workflow. -/
def asStep (id : JsString) (wf : List WfStep) : WfStep := mk id [] (wf.map fun s => (id ++ js ":", s))

def retry (s : WfStep) (fallback : Option WfStep) : WfStep :=
  mk s.id (s.control ++ [s.id ++ js ":attempts", s.id ++ js ":_fallback"])
    (s.inner ++ fallback.toList.map fun s => ([], s))

/-- The legs are recorded under the composite step, and what their bodies run is not. -/
def parallel (pid : JsString) (steps : List WfStep) : WfStep :=
  mk pid [] (steps.map fun s => ([], mk (pid ++ js "/" ++ s.id) s.control s.inner))

def branch (bid : JsString) (ifStep elseStep : WfStep) : WfStep := parallel bid [ifStep, elseStep]

/-- For `n` items. -/
def foreach (fid : JsString) (n : ℕ) : WfStep :=
  mk fid [] ((List.range n).map fun i => ([], step (fid ++ js "[" ++ decimal i ++ js "]")))

/-- For `n` rounds. -/
def loop (id : JsString) (n : ℕ) : WfStep :=
  mk id [] ((List.range n).map fun i => ([], step (id ++ js "#" ++ decimal i)))

/-- The keys that belong to a step, and to what it runs. -/
inductive Owns : JsString → WfStep → JsString → Prop
  | output {p s} : Owns p s (p ++ s.id)
  | claim {p s} : Owns p s (p ++ s.id ++ js ":_claim")
  | control {p s c} : c ∈ s.control → Owns p s (p ++ c)
  | inner {p s q x t} : (q, x) ∈ s.inner → Owns (p ++ q) x t → Owns p s t

/-- A nested workflow is recorded below its own id, also as a leg of another step. -/
example : Owns [] (parallel (js "p") [asStep (js "a") [step (js "b")]]) (js "a:b") :=
  .inner (.head _) (.inner (.head _) .output)

/-- The steps that are reached: what they are in has not been recorded. -/
inductive Reached (unrecorded : JsString → Prop) : JsString → WfStep → JsString → Prop
  | here {p s} : Reached unrecorded p s (p ++ s.id)
  | inner {p s q x t} : unrecorded (p ++ s.id) → (q, x) ∈ s.inner →
      Reached unrecorded (p ++ q) x t → Reached unrecorded p s t

end WfStep

/-! ## The journal -/

/-- The record of a step, or of a fork in the registry. -/
inductive WfValue (V : Type) where
  | record (v : V)
  | forked (runId srcRunId fromStepId : JsString) (at_ : Int)
  deriving DecidableEq

abbrev WfJournal (V : Type) := OrderedMap JsString (WfValue V)

def wfKey (runId tail : JsString) : JsString := runId ++ js ":wf:" ++ tail

def statusKey (runId : JsString) : JsString := js "wfrun:" ++ runId

def listKeys (j : WfJournal V) (pre : JsString) : List JsString :=
  (j.entries.map Prod.fst).filter (·.startsWith pre)

section Running

variable (body : JsString → V) (runId : JsString)

mutual

/-- `runStep`: what is recorded is returned. Otherwise the body is invoked, and its output is recorded
    unless there is one. The keys of the steps whose bodies are invoked. -/
def WfStep.runStep (p : JsString) : WfStep → WfJournal V → List JsString × WfJournal V
  | .mk id _ inner, j =>
    match j.get (wfKey runId (p ++ id)) with
    | some _ => ([], j)
    | none =>
      let (invoked, j') := runInner p inner j
      (wfKey runId (p ++ id) :: invoked,
        if (j'.get (wfKey runId (p ++ id))).isSome then j'
        else j'.put (wfKey runId (p ++ id)) (.record (body (wfKey runId (p ++ id)))))

def WfStep.runInner (p : JsString) : List (JsString × WfStep) → WfJournal V →
    List JsString × WfJournal V
  | [], j => ([], j)
  | (q, x) :: rest, j =>
    let (invoked, j') := runStep (p ++ q) x j
    let (invoked', j'') := runInner p rest j'
    (invoked ++ invoked', j'')

end

end Running

/-! ## A fork -/

inductive ForkError where
  /-- The step is not in the workflow. -/
  | noStep (fromStepId : JsString) (order : List JsString)
  /-- The destination already has a workflow run recorded. -/
  | runRecorded (dstRunId : JsString)
  /-- The destination already has step records. -/
  | stepsRecorded (dstRunId : JsString)
  deriving DecidableEq

section Fork

variable (canList : Bool) (srcRunId dstRunId : JsString)

/-- A key below that of a step, unless it is one of control. -/
def copyNested (j : WfJournal V) (key : JsString) : WfJournal V :=
  let tail := key.drop (wfKey srcRunId []).length
  if js ":_" <:+: tail ∨ js ":attempts" <:+ tail then j
  else
    match j.get key with
    | some v => j.put (wfKey dstRunId tail) v
    | none => j

/-- The output of a step. The marker goes with the output it is about. -/
def copyFlat (j : WfJournal V) (id : JsString) : WfJournal V :=
  match j.get (wfKey srcRunId id) with
  | some flat =>
    let j := j.put (wfKey dstRunId id) flat
    match j.get (wfKey srcRunId (id ++ js ":_fallback")) with
    | some marker => j.put (wfKey dstRunId (id ++ js ":_fallback")) marker
    | none => j
  | none => j

def copyStep (s : List JsString × WfJournal V) (id : JsString) : List JsString × WfJournal V :=
  let copied := if (s.2.get (wfKey srcRunId id)).isSome then s.1 ++ [id] else s.1
  let j := copyFlat srcRunId dstRunId s.2 id
  (copied,
    if canList then
      (listKeys j (wfKey srcRunId (id ++ js ":"))).foldl (copyNested srcRunId dstRunId) j
    else j)

/-- The journal after the copy, with the copied steps. -/
def copySteps (order : List JsString) (fromStepId : JsString) (j : WfJournal V) :
    List JsString × WfJournal V :=
  (order.take (order.idxOf fromStepId)).foldl (copyStep canList srcRunId dstRunId) ([], j)

def forkWorkflowRun (now : Int) (order : List JsString) (fromStepId : JsString) (j : WfJournal V) :
    Except ForkError (List JsString) × WfJournal V :=
  if fromStepId ∉ order then (.error (.noStep fromStepId order), j)
  else if (j.get (statusKey dstRunId)).isSome then (.error (.runRecorded dstRunId), j)
  else if ∃ id ∈ order, (j.get (wfKey dstRunId id)).isSome then (.error (.stepsRecorded dstRunId), j)
  else
    let (copied, j) := copySteps canList srcRunId dstRunId order fromStepId j
    (.ok copied, j.put (statusKey dstRunId) (.forked dstRunId srcRunId fromStepId now))

end Fork

/-! ## What is copied -/

section Copied

variable (canList : Bool) (srcRunId dstRunId fromStepId : JsString)

/-- The tails of the keys that are copied for the steps `ids`. -/
def Copied (ids : List JsString) (j : WfJournal V) (t : JsString) : Prop :=
  t ∈ ids ∨
  (∃ id ∈ ids, (j.get (wfKey srcRunId id)).isSome ∧ t = id ++ js ":_fallback") ∨
  canList = true ∧ (∃ id ∈ ids, id ++ js ":" <+: t) ∧ ¬js ":_" <:+: t ∧ ¬js ":attempts" <:+ t

/-- The tails `S` have been copied from the journal `j₀`, and no others. -/
structure Copying (j₀ : WfJournal V) (S : JsString → Prop) (j : WfJournal V) : Prop where
  outside : ∀ key, ¬wfKey dstRunId [] <+: key → j.get key = j₀.get key
  copied : ∀ t v, j₀.get (wfKey srcRunId t) = some v → S t → j.get (wfKey dstRunId t) = some v
  others : ∀ t, (j₀.get (wfKey srcRunId t)).isSome → ¬S t → j.get (wfKey dstRunId t) = none

end Copied

theorem wfKey_eq (runId t : JsString) : wfKey runId t = wfKey runId [] ++ t := by
  rw [wfKey, wfKey, append_nil]

theorem wfKey_inj {runId t t' : JsString} (h : wfKey runId t = wfKey runId t') : t = t' := by
  rw [wfKey_eq runId t, wfKey_eq runId t'] at h
  exact append_cancel_left h

section Copying

variable {canList : Bool} {srcRunId dstRunId : JsString} {j₀ j : WfJournal V} {S S' : JsString → Prop}

/-- Before the copy, the destination has no record at all. -/
def Fresh (dstRunId : JsString) (j : WfJournal V) : Prop := ∀ t, j.get (wfKey dstRunId t) = none

/-- What the source has recorded is still there, as nothing of it is in the destination. -/
theorem Copying.source (hfresh : Fresh dstRunId j₀) (h : Copying srcRunId dstRunId j₀ S j)
    {t : JsString} {v : WfValue V} (hv : j₀.get (wfKey srcRunId t) = some v) :
    j.get (wfKey srcRunId t) = some v := by
  rw [h.outside, hv]
  rintro ⟨t', ht'⟩
  rw [← wfKey_eq] at ht'
  rw [← ht', hfresh] at hv
  contradiction

theorem Copying.congr (h : Copying srcRunId dstRunId j₀ S j)
    (hS : ∀ t, (j₀.get (wfKey srcRunId t)).isSome → (S t ↔ S' t)) :
    Copying srcRunId dstRunId j₀ S' j where
  outside := h.outside
  copied t v hv ht := h.copied t v hv ((hS t (by rw [hv]; rfl)).2 ht)
  others t hv ht := h.others t hv fun hs => ht ((hS t hv).1 hs)

/-- One more is copied, if the source has it. -/
theorem Copying.copy (hfresh : Fresh dstRunId j₀) (h : Copying srcRunId dstRunId j₀ S j)
    (t : JsString) : Copying srcRunId dstRunId j₀ (fun t' => S t' ∨ t' = t)
      (match j.get (wfKey srcRunId t) with
      | some v => j.put (wfKey dstRunId t) v
      | none => j) := by
  split
  · next v hv =>
    have hne {t' : JsString} (ht' : t' ≠ t) : wfKey dstRunId t' ≠ wfKey dstRunId t :=
      fun h => ht' (wfKey_inj h)
    constructor
    · intro key hkey
      rw [OrderedMap.get_put_of_ne _ ?_, h.outside key hkey]
      rintro rfl
      exact hkey ⟨t, (wfKey_eq _ _).symm⟩
    · intro t' v' hv' ht'
      by_cases heq : t' = t
      · subst heq
        rw [OrderedMap.get_put_self, ← hv, h.source hfresh hv']
      · rw [OrderedMap.get_put_of_ne _ (hne heq)]
        exact h.copied t' v' hv' (ht'.resolve_right heq)
    · intro t' hv' ht'
      obtain ⟨hS, heq⟩ := not_or.1 ht'
      rw [OrderedMap.get_put_of_ne _ (hne heq)]
      exact h.others t' hv' hS
  · next hnone =>
    refine h.congr fun t' hv => ⟨.inl, fun ht' => ht'.resolve_right ?_⟩
    rintro rfl
    obtain ⟨v, hv⟩ := Option.isSome_iff_exists.1 hv
    rw [h.source hfresh hv] at hnone
    contradiction

/-- The tails that the sweep below a step does not pass. -/
def Passes (t : JsString) : Prop := ¬js ":_" <:+: t ∧ ¬js ":attempts" <:+ t

theorem copyNested_eq (j : WfJournal V) (t : JsString) :
    copyNested srcRunId dstRunId j (wfKey srcRunId t) =
      if js ":_" <:+: t ∨ js ":attempts" <:+ t then j
      else match j.get (wfKey srcRunId t) with
        | some v => j.put (wfKey dstRunId t) v
        | none => j := by
  rw [copyNested, wfKey_eq srcRunId t, drop_left]

theorem Copying.sweep (hfresh : Fresh dstRunId j₀) {tails : List JsString}
    (h : Copying srcRunId dstRunId j₀ S j) :
    Copying srcRunId dstRunId j₀ (fun t => S t ∨ t ∈ tails ∧ Passes t)
      ((tails.map (wfKey srcRunId)).foldl (copyNested srcRunId dstRunId) j) := by
  induction tails generalizing S j with
  | nil => exact h.congr fun t _ => ⟨.inl, fun h => h.resolve_right nofun⟩
  | cons t tails ih =>
    rw [map_cons, foldl_cons, copyNested_eq]
    split
    · next hcontrol =>
      refine (ih h).congr fun t' _ => or_congr_right ⟨fun h => ⟨.tail _ h.1, h.2⟩, fun h => ?_⟩
      refine ⟨(mem_cons.1 h.1).resolve_left ?_, h.2⟩
      rintro rfl
      exact hcontrol.elim h.2.1 h.2.2
    · next hcontrol =>
      have hpasses : Passes t := not_or.1 hcontrol
      refine (ih (h.copy hfresh t)).congr fun t' _ => ?_
      rw [or_assoc, mem_cons]
      refine or_congr_right ⟨?_, ?_⟩
      · rintro (rfl | h)
        · exact ⟨.inl rfl, hpasses⟩
        · exact ⟨.inr h.1, h.2⟩
      · rintro ⟨rfl | h, h'⟩
        · exact .inl rfl
        · exact .inr ⟨h, h'⟩

theorem mem_keys_iff {j : WfJournal V} {key : JsString} :
    key ∈ j.entries.map Prod.fst ↔ (j.get key).isSome := by
  rw [mem_map, Option.isSome_iff_exists]
  constructor
  · rintro ⟨⟨k, v⟩, h, rfl⟩
    exact ⟨v, OrderedMap.mem_entries_iff.1 h⟩
  · rintro ⟨v, h⟩
    exact ⟨(key, v), OrderedMap.mem_entries_iff.2 h, rfl⟩

/-- The listed keys, by their tails. -/
theorem exists_tails (j : WfJournal V) (runId pre : JsString) :
    ∃ tails : List JsString, listKeys j (wfKey runId pre) = tails.map (wfKey runId) ∧
      ∀ t, t ∈ tails ↔ (j.get (wfKey runId t)).isSome ∧ pre <+: t := by
  have hstart (t : JsString) : wfKey runId pre <+: wfKey runId t ↔ pre <+: t := by
    rw [wfKey_eq runId pre, wfKey_eq runId t, prefix_append_right_inj]
  have hkey (t : JsString) : wfKey runId t ∈ listKeys j (wfKey runId pre) ↔
      (j.get (wfKey runId t)).isSome ∧ pre <+: t := by
    rw [listKeys, mem_filter, JsString.startsWith_iff, hstart, mem_keys_iff]
  have htail (key : JsString) (h : key ∈ listKeys j (wfKey runId pre)) :
      wfKey runId (key.drop (wfKey runId []).length) = key := by
    obtain ⟨t, rfl⟩ := JsString.startsWith_iff.1 (mem_filter.1 h).2
    rw [wfKey_eq runId pre, append_assoc, drop_left, ← wfKey_eq]
  refine ⟨(listKeys j (wfKey runId pre)).map (·.drop (wfKey runId []).length), ?_, fun t => ?_⟩
  · rw [map_map]
    exact ((map_congr_left htail).trans (map_id _)).symm
  · rw [← hkey, mem_map]
    constructor
    · rintro ⟨key, h, rfl⟩
      rwa [htail key h]
    · intro h
      exact ⟨_, h, by rw [wfKey_eq runId t, drop_left]⟩

theorem Copying.flat (hfresh : Fresh dstRunId j₀) (h : Copying srcRunId dstRunId j₀ S j)
    (id : JsString) : Copying srcRunId dstRunId j₀ (fun t => S t ∨ t = id ∨
      (j₀.get (wfKey srcRunId id)).isSome ∧ t = id ++ js ":_fallback")
      (copyFlat srcRunId dstRunId j id) := by
  have hone := h.copy hfresh id
  rw [copyFlat]
  split
  · next flat hsome =>
    rw [hsome] at hone
    refine (hone.copy hfresh (id ++ js ":_fallback")).congr fun t ht => ?_
    rw [or_assoc]
    refine or_congr_right (or_congr_right ⟨fun hmarker => ⟨?_, hmarker⟩, fun hmarker => hmarker.2⟩)
    -- What is read as the output is the source's, as its marker would not be there otherwise.
    by_contra hnone
    obtain ⟨t', ht'⟩ : wfKey dstRunId [] <+: wfKey srcRunId id := by
      by_contra hout
      rw [h.outside _ hout] at hsome
      rw [hsome] at hnone
      exact hnone rfl
    rw [hmarker, wfKey_eq srcRunId, ← append_assoc, ← wfKey_eq, ← ht', append_assoc,
      ← wfKey_eq, hfresh] at ht
    contradiction
  · next hnone =>
    rw [hnone] at hone
    refine hone.congr fun t ht => or_congr_right ⟨.inl, fun ht' => ht'.resolve_right ?_⟩
    rintro ⟨hsome, -⟩
    obtain ⟨v, hv⟩ := Option.isSome_iff_exists.1 hsome
    rw [h.source hfresh hv] at hnone
    contradiction

/-- What is copied for one step more. -/
theorem Copying.step (hfresh : Fresh dstRunId j₀) {ids copied : List JsString}
    (h : Copying srcRunId dstRunId j₀ (Copied canList srcRunId ids j₀) j) (id : JsString) :
    Copying srcRunId dstRunId j₀ (Copied canList srcRunId (ids ++ [id]) j₀)
      (copyStep canList srcRunId dstRunId (copied, j) id).2 := by
  have hflat := h.flat hfresh id
  have hids (q : JsString → Prop) :
      (∃ id' ∈ ids ++ [id], q id') ↔ (∃ id' ∈ ids, q id') ∨ q id := by
    simp only [mem_append, mem_singleton, or_and_right, exists_or, exists_eq_left]
  rw [copyStep]
  dsimp only
  split
  · next hlist =>
    obtain ⟨tails, htails, hmem⟩ :=
      exists_tails (copyFlat srcRunId dstRunId j id) srcRunId (id ++ js ":")
    rw [htails]
    refine (hflat.sweep hfresh).congr fun t ht => ?_
    have hlisted : t ∈ tails ↔ id ++ js ":" <+: t := by
      obtain ⟨v, hv⟩ := Option.isSome_iff_exists.1 ht
      rw [hmem, hflat.source hfresh hv]
      simp
    rw [hlisted, Copied, Copied, hids, hids, mem_append, mem_singleton, Passes]
    constructor
    · rintro (((h | h | ⟨hcan, h, hpasses⟩) | h | h) | ⟨h, hpasses⟩)
      · exact .inl (.inl h)
      · exact .inr (.inl (.inl h))
      · exact .inr (.inr ⟨hcan, .inl h, hpasses⟩)
      · exact .inl (.inr h)
      · exact .inr (.inl (.inr h))
      · exact .inr (.inr ⟨hlist, .inr h, hpasses⟩)
    · rintro ((h | h) | (h | h) | ⟨hcan, h | h, hpasses⟩)
      · exact .inl (.inl (.inl h))
      · exact .inl (.inr (.inl h))
      · exact .inl (.inl (.inr (.inl h)))
      · exact .inl (.inr (.inr h))
      · exact .inl (.inl (.inr (.inr ⟨hcan, h, hpasses⟩)))
      · exact .inr ⟨h, hpasses⟩
  · next hlist =>
    refine hflat.congr fun t ht => ?_
    rw [Copied, Copied, hids, hids, mem_append, mem_singleton]
    constructor
    · rintro ((h | h | ⟨hcan, -⟩) | h | h)
      · exact .inl (.inl h)
      · exact .inr (.inl (.inl h))
      · exact absurd hcan hlist
      · exact .inl (.inr h)
      · exact .inr (.inl (.inr h))
    · rintro ((h | h) | (h | h) | ⟨hcan, -⟩)
      · exact .inl (.inl h)
      · exact .inr (.inl h)
      · exact .inl (.inr (.inl h))
      · exact .inr (.inr h)
      · exact absurd hcan hlist

theorem copySteps_copying (hfresh : Fresh dstRunId j₀) (order : List JsString)
    (fromStepId : JsString) :
    Copying srcRunId dstRunId j₀
      (Copied canList srcRunId (order.take (order.idxOf fromStepId)) j₀)
      (copySteps canList srcRunId dstRunId order fromStepId j₀).2 := by
  have hall (ids done copied : List JsString) (j : WfJournal V)
      (h : Copying srcRunId dstRunId j₀ (Copied canList srcRunId done j₀) j) :
      Copying srcRunId dstRunId j₀ (Copied canList srcRunId (done ++ ids) j₀)
        (ids.foldl (copyStep canList srcRunId dstRunId) (copied, j)).2 := by
    induction ids generalizing done copied j with
    | nil => rwa [append_nil]
    | cons id ids ih =>
      rw [foldl_cons, append_cons]
      exact ih _ _ _ (h.step hfresh id)
  have hnone : Copying srcRunId dstRunId j₀ (Copied canList srcRunId [] j₀) j₀ := by
    refine ⟨fun _ _ => rfl, fun t v _ ht => ?_, fun t _ _ => hfresh t⟩
    rcases ht with ht | ⟨_, ht, -⟩ | ⟨-, ⟨_, ht, -⟩, -⟩ <;> contradiction
  exact hall _ [] [] j₀ hnone

end Copying

/-- The registry's key of a run is not one of its records. -/
theorem statusKey_ne (runId t : JsString) : statusKey runId ≠ wfKey runId t := fun h => by
  have hcount := congrArg (List.count 0x3A) h
  rw [statusKey, wfKey, count_append, count_append, count_append] at hcount
  have hstatus : List.count 0x3A (js "wfrun:") = 1 := by decide
  have hwf : List.count 0x3A (js ":wf:") = 2 := by decide
  omega

/-! ## Replaying -/

section Replay

variable {body : JsString → V} {runId : JsString}

theorem get_put_isSome {j : WfJournal V} {k k' : JsString} {v : WfValue V}
    (h : (j.get k').isSome) : ((j.put k v).get k').isSome := by
  by_cases heq : k' = k
  · rw [heq, OrderedMap.get_put_self]
    rfl
  · rwa [OrderedMap.get_put_of_ne _ heq]

theorem WfStep.Reached.mono {unrecorded unrecorded' : JsString → Prop} {p t : JsString}
    {s : WfStep} (h : Reached unrecorded p s t) (hmono : ∀ t, unrecorded t → unrecorded' t) :
    Reached unrecorded' p s t := by
  induction h with
  | here => exact .here
  | inner hopen hmem _ ih => exact .inner (hmono _ hopen) hmem ih

mutual

/-- What is recorded stays, and the steps that are invoked are reached, and were not recorded. -/
theorem runStep_invoked (p : JsString) (s : WfStep) (j : WfJournal V) :
    (∀ key, (j.get key).isSome → ((WfStep.runStep body runId p s j).2.get key).isSome) ∧
    ∀ key ∈ (WfStep.runStep body runId p s j).1, ∃ t, key = wfKey runId t ∧ j.get key = none ∧
      WfStep.Reached (fun t => j.get (wfKey runId t) = none) p s t := by
  match s with
  | .mk id control inner =>
    obtain ⟨hkeep, hinvoked⟩ := runInner_invoked p inner j
    rw [WfStep.runStep]
    split
    · exact ⟨fun _ h => h, fun _ => nofun⟩
    · next hnone =>
      constructor
      · intro key h
        dsimp only
        split
        · exact hkeep key h
        · exact get_put_isSome (hkeep key h)
      · intro key hkey
        rcases mem_cons.1 hkey with rfl | hkey
        · exact ⟨p ++ id, rfl, hnone, .here⟩
        · obtain ⟨q, x, t, hmem, hkey, hopen, hreached⟩ := hinvoked key hkey
          exact ⟨t, hkey, hopen, .inner hnone hmem hreached⟩

theorem runInner_invoked (p : JsString) (inner : List (JsString × WfStep)) (j : WfJournal V) :
    (∀ key, (j.get key).isSome → ((WfStep.runInner body runId p inner j).2.get key).isSome) ∧
    ∀ key ∈ (WfStep.runInner body runId p inner j).1, ∃ q x t, (q, x) ∈ inner ∧ key = wfKey runId t ∧
      j.get key = none ∧ WfStep.Reached (fun t => j.get (wfKey runId t) = none) (p ++ q) x t := by
  match inner with
  | [] => exact ⟨fun _ h => h, fun _ => nofun⟩
  | (q, x) :: rest =>
    obtain ⟨hkeep, hinvoked⟩ := runStep_invoked (p ++ q) x j
    obtain ⟨hkeep', hinvoked'⟩ := runInner_invoked p rest (WfStep.runStep body runId (p ++ q) x j).2
    rw [WfStep.runInner]
    refine ⟨fun key h => hkeep' key (hkeep key h), fun key hkey => ?_⟩
    -- What is not recorded after the first one was not before it.
    have hbefore (key : JsString)
        (h : (WfStep.runStep body runId (p ++ q) x j).2.get key = none) : j.get key = none := by
      by_contra hsome
      have := hkeep key (Option.isSome_iff_ne_none.2 hsome)
      rw [h] at this
      contradiction
    rcases mem_append.1 hkey with hkey | hkey
    · obtain ⟨t, hkey, hopen, hreached⟩ := hinvoked key hkey
      exact ⟨q, x, t, .head _, hkey, hopen, hreached⟩
    · obtain ⟨q', x', t, hmem, hkey, hopen, hreached⟩ := hinvoked' key hkey
      exact ⟨q', x', t, .tail _ hmem, hkey, hbefore key hopen, hreached.mono fun t => hbefore _⟩

end

end Replay

/-! ## A run that is executed again -/

section Again

/-- From the journal `j`, an execution changes nothing that is recorded, and records what it
    invokes, which was not. -/
structure Execution (j : WfJournal V) (r : List JsString × WfJournal V) : Prop where
  keep : ∀ key v, j.get key = some v → r.2.get key = some v
  new : ∀ key ∈ r.1, j.get key = none ∧ (r.2.get key).isSome

variable {j : WfJournal V} {r r' : List JsString × WfJournal V}

theorem Execution.nil : Execution j ([], j) := ⟨fun _ _ h => h, forall_mem_nil _⟩

theorem Execution.trans (h : Execution j r) (h' : Execution r.2 r') :
    Execution j (r.1 ++ r'.1, r'.2) where
  keep key v hv := h'.keep key v (h.keep key v hv)
  new := by
    refine forall_mem_append.2 ⟨fun key hkey => ?_, fun key hkey => ?_⟩
    · obtain ⟨hnone, hsome⟩ := h.new key hkey
      obtain ⟨v, hv⟩ := Option.isSome_iff_exists.1 hsome
      exact ⟨hnone, Option.isSome_of_eq_some (h'.keep key v hv)⟩
    · obtain ⟨hnone, hsome⟩ := h'.new key hkey
      refine ⟨Option.eq_none_iff_forall_ne_some.2 fun v hv => ?_, hsome⟩
      exact Option.some_ne_none v ((h.keep key v hv).symm.trans hnone)

/-- The body of a step is invoked, and its output is recorded unless there is one. -/
theorem Execution.step {key : JsString} {v : WfValue V} (h : Execution j r) (hkey : j.get key = none) :
    Execution j (key :: r.1, if (r.2.get key).isSome then r.2 else r.2.put key v) := by
  split
  · next hsome => exact ⟨h.keep, forall_mem_cons.2 ⟨⟨hkey, hsome⟩, h.new⟩⟩
  · refine ⟨fun k w hw => ?_, forall_mem_cons.2 ⟨⟨hkey, ?_⟩, fun k hk => ?_⟩⟩
    · rw [OrderedMap.get_put_of_ne, h.keep k w hw]
      rintro rfl
      exact Option.some_ne_none w (hw.symm.trans hkey)
    · rw [OrderedMap.get_put_self, Option.isSome_some]
    · exact ⟨(h.new k hk).1, get_put_isSome (h.new k hk).2⟩

variable (body : JsString → V) (runId : JsString)

mutual

theorem runStep_execution (p : JsString) (s : WfStep) (j : WfJournal V) :
    Execution j (WfStep.runStep body runId p s j) := by
  match s with
  | .mk id control inner =>
    rw [WfStep.runStep]
    split
    · exact .nil
    · next hnone => exact (runInner_execution p inner j).step hnone

theorem runInner_execution (p : JsString) (inner : List (JsString × WfStep)) (j : WfJournal V) :
    Execution j (WfStep.runInner body runId p inner j) := by
  match inner with
  | [] => exact .nil
  | (q, x) :: rest =>
    rw [WfStep.runInner]
    exact (runStep_execution (p ++ q) x j).trans (runInner_execution p rest _)

end

/-- Executions one after the other, of steps and bodies that may differ: the keys that each invokes,
    and the journal. -/
def executions : List ((JsString → V) × List (JsString × WfStep)) → WfJournal V →
    List (List JsString) × WfJournal V
  | [], j => ([], j)
  | (body, steps) :: rest, j =>
    let (invoked, j') := WfStep.runInner body runId [] steps j
    let (later, j'') := executions rest j'
    (invoked :: later, j'')

/-- However often a run is executed, no body is invoked whose output is recorded, or that an earlier
    execution has invoked, and what is recorded stays as it is. -/
theorem invoked_once (runs : List ((JsString → V) × List (JsString × WfStep))) (j : WfJournal V) :
    Execution j ((executions runId runs j).1.flatten, (executions runId runs j).2) ∧
      (executions runId runs j).1.Pairwise Disjoint := by
  induction runs generalizing j with
  | nil => exact ⟨.nil, .nil⟩
  | cons run rest ih =>
    have hfirst := runInner_execution run.1 runId [] run.2 j
    obtain ⟨hrest, hdisjoint⟩ := ih (WfStep.runInner run.1 runId [] run.2 j).2
    refine ⟨hfirst.trans hrest, pairwise_cons.2 ⟨fun keys hkeys key h h' => ?_, hdisjoint⟩⟩
    have hsome := (hfirst.new key h).2
    rw [(hrest.new key (mem_flatten_of_mem hkeys h')).1] at hsome
    contradiction

end Again

/-! ## When a fork starts from the prefix -/

section Exact

variable (canList : Bool) (now : Int) (wf : List WfStep) (srcRunId dstRunId fromStepId : JsString)
  (j : WfJournal V)

/-- The ids of the steps, in their order (`build`). -/
def orderOf : List JsString := wf.map WfStep.id

def stepsBefore : List WfStep := wf.take ((orderOf wf).idxOf fromStepId)

def stepsFrom : List WfStep := wf.drop ((orderOf wf).idxOf fromStepId)

/-- The fork is refused: there is no such step, or what is looked at in the destination is
    recorded. -/
def Refused : Prop :=
  fromStepId ∉ orderOf wf ∨ (j.get (statusKey dstRunId)).isSome ∨
    ∃ id ∈ orderOf wf, (j.get (wfKey dstRunId id)).isSome

/-- A step before the fork that is recorded in the source is recorded in the fork, unless it is in
    another one that is; and its body is not invoked any more. -/
def PrefixReplays (j' : WfJournal V) : Prop :=
  ∀ s ∈ stepsBefore wf fromStepId,
    (∀ t v, WfStep.Reached (fun t => j.get (wfKey srcRunId t) = none) [] s t →
      j.get (wfKey srcRunId t) = some v → j'.get (wfKey dstRunId t) = some v) ∧
    ∀ (body : JsString → V) (j'' : WfJournal V),
      (∀ key, (j'.get key).isSome → (j''.get key).isSome) →
      ∀ t, (j.get (wfKey srcRunId t)).isSome →
        wfKey dstRunId t ∉ (WfStep.runStep body dstRunId [] s j'').1

/-- Nothing that belongs to the other steps is copied. -/
def RestOmitted (j' : WfJournal V) : Prop :=
  ∀ s ∈ stepsFrom wf fromStepId, ∀ t, WfStep.Owns [] s t → (j.get (wfKey srcRunId t)).isSome →
    j'.get (wfKey dstRunId t) = none

/-- The fork starts from exactly the prefix, in a destination without records, or it throws and writes
    nothing. -/
def ForksPrefix : Prop :=
  let (result, j') := forkWorkflowRun canList srcRunId dstRunId now (orderOf wf) fromStepId j
  ((∃ e, result = .error e) → j' = j) ∧
  ((∃ t, (j.get (wfKey dstRunId t)).isSome) → ∃ e, result = .error e) ∧
  ((∃ copied, result = .ok copied) →
    PrefixReplays wf srcRunId dstRunId fromStepId j j' ∧
    RestOmitted wf srcRunId dstRunId fromStepId j j')

/-- The records of the source are where the copy finds them, and no others. -/
structure Separated : Prop where
  found : ∀ s ∈ stepsBefore wf fromStepId, ∀ t,
    WfStep.Reached (fun t => j.get (wfKey srcRunId t) = none) [] s t →
    (j.get (wfKey srcRunId t)).isSome →
      Copied canList srcRunId ((stepsBefore wf fromStepId).map WfStep.id) j t
  others : ∀ s ∈ stepsFrom wf fromStepId, ∀ t, WfStep.Owns [] s t →
    (j.get (wfKey srcRunId t)).isSome →
    ¬Copied canList srcRunId ((stepsBefore wf fromStepId).map WfStep.id) j t

end Exact

/-- What is reached in the fork was reached in the source, if what was recorded of it is recorded. -/
theorem WfStep.Reached.of_recorded {recorded recorded' : JsString → Prop} {p t : JsString}
    {s : WfStep} (h : Reached (fun t => ¬recorded' t) p s t)
    (hkept : ∀ t, Reached (fun t => ¬recorded t) p s t → recorded t → recorded' t) :
    Reached (fun t => ¬recorded t) p s t := by
  induction h with
  | here => exact .here
  | inner hopen hmem _ ih =>
    have hnone := fun h => hopen (hkept _ .here h)
    exact .inner hnone hmem (ih fun t ht => hkept t (.inner hnone hmem ht))

section Exact

variable {canList : Bool} {now : Int} {wf : List WfStep} {srcRunId dstRunId fromStepId : JsString}
  {j j' j'' : WfJournal V}

theorem not_invoked {s : WfStep}
    (hreplays : ∀ t v, WfStep.Reached (fun t => j.get (wfKey srcRunId t) = none) [] s t →
      j.get (wfKey srcRunId t) = some v → j'.get (wfKey dstRunId t) = some v)
    (hkeep : ∀ key, (j'.get key).isSome → (j''.get key).isSome) (body : JsString → V) {t : JsString}
    (ht : (j.get (wfKey srcRunId t)).isSome) :
    wfKey dstRunId t ∉ (WfStep.runStep body dstRunId [] s j'').1 := by
  intro hinvoked
  obtain ⟨t', hkey, hnone, hreached⟩ := (runStep_invoked [] s j'').2 _ hinvoked
  obtain rfl := wfKey_inj hkey
  have hkept (t : JsString)
      (h : WfStep.Reached (fun t => ¬(j.get (wfKey srcRunId t)).isSome) [] s t)
      (hsome : (j.get (wfKey srcRunId t)).isSome) : (j''.get (wfKey dstRunId t)).isSome := by
    obtain ⟨v, hv⟩ := Option.isSome_iff_exists.1 hsome
    refine hkeep _ ?_
    rw [hreplays t v (h.mono fun t ht => Option.not_isSome_iff_eq_none.1 ht) hv]
    rfl
  have hsource := (hreached.mono fun t h => Option.not_isSome_iff_eq_none.2 h).of_recorded hkept
  have hsome := hkept t hsource ht
  rw [hnone] at hsome
  contradiction

/-- A fork that is refused writes nothing. -/
theorem fork_refused (h : Refused wf dstRunId fromStepId j) :
    ∃ e, forkWorkflowRun canList srcRunId dstRunId now (orderOf wf) fromStepId j = (.error e, j) := by
  rw [forkWorkflowRun]
  split
  · exact ⟨_, rfl⟩
  · next hstep =>
    split
    · exact ⟨_, rfl⟩
    · next hstatus =>
      rw [if_pos ((h.resolve_left hstep).resolve_left hstatus)]
      exact ⟨_, rfl⟩

/-- One that is not copies the steps, and writes the registry's record. -/
theorem fork_accepted (h : ¬Refused wf dstRunId fromStepId j) :
    ∃ copied, forkWorkflowRun canList srcRunId dstRunId now (orderOf wf) fromStepId j =
      (.ok copied, (copySteps canList srcRunId dstRunId (orderOf wf) fromStepId j).2.put
        (statusKey dstRunId) (.forked dstRunId srcRunId fromStepId now)) := by
  obtain ⟨hstep, h⟩ := not_or.1 h
  obtain ⟨hstatus, hrecords⟩ := not_or.1 h
  rw [forkWorkflowRun, if_neg hstep, if_neg hstatus, if_neg hrecords]
  exact ⟨_, rfl⟩

/-- What the copy leaves in the destination, and with it the fork. -/
theorem fork_copying (hfresh : Fresh dstRunId j) {t : JsString} {v : WfValue V}
    (hv : j.get (wfKey srcRunId t) = some v) (status : WfValue V) :
    (Copied canList srcRunId ((stepsBefore wf fromStepId).map WfStep.id) j t →
      ((copySteps canList srcRunId dstRunId (orderOf wf) fromStepId j).2.put
        (statusKey dstRunId) status).get (wfKey dstRunId t) = some v) ∧
    (¬Copied canList srcRunId ((stepsBefore wf fromStepId).map WfStep.id) j t →
      ((copySteps canList srcRunId dstRunId (orderOf wf) fromStepId j).2.put
        (statusKey dstRunId) status).get (wfKey dstRunId t) = none) := by
  have hcopying := @copySteps_copying V canList srcRunId dstRunId j hfresh (orderOf wf) fromStepId
  rw [OrderedMap.get_put_of_ne _ (statusKey_ne dstRunId t).symm, stepsBefore, map_take]
  exact ⟨hcopying.copied t v hv, hcopying.others t (by rw [hv]; rfl)⟩

end Exact

/-- A fork starts from exactly the prefix if and only if it is refused, or the destination has no
    record at all and the records of the source are separated by their keys. -/
theorem fork_exact (canList : Bool) (now : Int) (wf : List WfStep)
    (srcRunId dstRunId fromStepId : JsString) (j : WfJournal V) :
    ForksPrefix canList now wf srcRunId dstRunId fromStepId j ↔
      Refused wf dstRunId fromStepId j ∨
        Fresh dstRunId j ∧ Separated canList wf srcRunId fromStepId j := by
  rw [ForksPrefix]
  by_cases hrefused : Refused wf dstRunId fromStepId j
  · obtain ⟨e, he⟩ := @fork_refused V canList now wf srcRunId dstRunId fromStepId j hrefused
    rw [he]
    exact ⟨fun _ => .inl hrefused, fun _ => ⟨fun _ => rfl, fun _ => ⟨e, rfl⟩, nofun⟩⟩
  obtain ⟨copied, hok⟩ := @fork_accepted V canList now wf srcRunId dstRunId fromStepId j hrefused
  rw [hok]
  constructor
  · rintro ⟨-, hnone, hstart⟩
    obtain ⟨hreplays, homitted⟩ := hstart ⟨copied, rfl⟩
    have hfresh : Fresh dstRunId j := fun t => by
      by_contra ht
      obtain ⟨e, he⟩ := hnone ⟨t, Option.isSome_iff_ne_none.2 ht⟩
      contradiction
    refine .inr ⟨hfresh, fun s hs t hreached ht => ?_, fun s hs t howns ht hcopied => ?_⟩
    all_goals
      obtain ⟨v, hv⟩ := Option.isSome_iff_exists.1 ht
      obtain ⟨hin, hout⟩ := @fork_copying V canList wf srcRunId dstRunId fromStepId j hfresh t v hv
        (.forked dstRunId srcRunId fromStepId now)
    · by_contra hcopied
      have hrecorded := (hreplays s hs).1 t v hreached hv
      rw [hout hcopied] at hrecorded
      contradiction
    · have hrecorded := homitted s hs t howns ht
      rw [hin hcopied] at hrecorded
      contradiction
  · rintro (h | ⟨hfresh, hseparated⟩)
    · exact absurd h hrefused
    have hrecorded (s : WfStep) (hs : s ∈ stepsBefore wf fromStepId) (t : JsString) (v : WfValue V)
        (hreached : WfStep.Reached (fun t => j.get (wfKey srcRunId t) = none) [] s t)
        (hv : j.get (wfKey srcRunId t) = some v) :
        ((copySteps canList srcRunId dstRunId (orderOf wf) fromStepId j).2.put (statusKey dstRunId)
          (.forked dstRunId srcRunId fromStepId now)).get (wfKey dstRunId t) = some v :=
      (fork_copying hfresh hv _).1 (hseparated.found s hs t hreached (by rw [hv]; rfl))
    refine ⟨nofun, ?_, fun _ => ⟨fun s hs => ⟨hrecorded s hs, fun body j'' hkeep t ht => ?_⟩, ?_⟩⟩
    · rintro ⟨t, ht⟩
      rw [hfresh t] at ht
      contradiction
    · exact not_invoked (hrecorded s hs) hkeep body ht
    · intro s hs t howns ht
      obtain ⟨v, hv⟩ := Option.isSome_iff_exists.1 ht
      exact (fork_copying hfresh hv _).2 (hseparated.others s hs t howns ht)

/-- In a sequential flow, with different ids without `:`, the records are separated. -/
theorem separated_of_sequential {canList : Bool} {wf : List WfStep} {srcRunId fromStepId : JsString}
    {j : WfJournal V} (hplain : ∀ s ∈ wf, ∃ id, s = .step id ∧ 0x3A ∉ id)
    (hids : (orderOf wf).Nodup) : Separated canList wf srcRunId fromStepId j := by
  have hbefore (s : WfStep) (hs : s ∈ stepsBefore wf fromStepId) :
      ∃ id, s = .step id ∧ 0x3A ∉ id := hplain s (mem_of_mem_take hs)
  have hfrom (s : WfStep) (hs : s ∈ stepsFrom wf fromStepId) :
      ∃ id, s = .step id ∧ 0x3A ∉ id := hplain s (mem_of_mem_drop hs)
  constructor
  · intro s hs t hreached _
    obtain ⟨id, rfl, -⟩ := hbefore s hs
    cases hreached with
    | here => exact .inl (mem_map_of_mem hs)
    | inner _ hmem _ => contradiction
  · intro s hs t howns _ hcopied
    obtain ⟨id, rfl, hid⟩ := hfrom s hs
    have hcolon {id' : JsString} (h : id' ∈ (stepsBefore wf fromStepId).map WfStep.id) :
        0x3A ∉ id' := by
      obtain ⟨s', hs', rfl⟩ := mem_map.1 h
      obtain ⟨id', rfl, hid'⟩ := hbefore s' hs'
      exact hid'
    have hnew : id ∉ (stepsBefore wf fromStepId).map WfStep.id := by
      intro h
      rw [orderOf, ← take_append_drop ((orderOf wf).idxOf fromStepId) wf,
        map_append] at hids
      exact (nodup_append.1 hids).2.2 id h id (mem_map_of_mem hs) rfl
    cases howns with
    | output =>
      rcases hcopied with h | ⟨id', -, -, h⟩ | ⟨-, ⟨id', -, h⟩, -⟩
      · exact hnew h
      · have heq : id = id' ++ js ":_fallback" := h
        exact hid (heq ▸ mem_append_right _ (.head _))
      · exact hid (h.subset (mem_append_right _ (.head _)))
    | claim =>
      rcases hcopied with h | ⟨id', hid', -, h⟩ | ⟨-, -, h, -⟩
      · exact hcolon h (mem_append_right _ (.head _))
      · have heq : id ++ 0x3A :: js "_claim" = id' ++ 0x3A :: js "_fallback" := h
        rw [append_cons_inj_of_notMem hid (by decide)] at heq
        exact absurd heq.2 (by decide)
      · exact h ⟨id, js "claim", append_assoc _ _ _⟩
    | control hc => contradiction
    | inner hmem _ => contradiction

/-- The source has completed the steps `a` and `a:b`. -/
def extended : WfJournal ℕ :=
  (OrderedMap.empty.put (wfKey (js "src") (js "a")) (.record 1)).put
    (wfKey (js "src") (js "a:b")) (.record 2)

/-- In the destination, a step with side effects is in flight. -/
def claimed : WfJournal ℕ :=
  OrderedMap.empty.put (wfKey (js "dst") (js "a:_claim")) (.record 1)

/-- A fork at `a:b` copies its record with those below `a`, so that it is not executed; and a fork to
    a run of which only a claim is recorded is not refused. -/
theorem fork_extended :
    let fork := forkWorkflowRun true (js "src") (js "dst") 0 [js "a", js "a:b"] (js "a:b") extended
    fork.1 = .ok [js "a"] ∧
    fork.2.get (wfKey (js "dst") (js "a:b")) = some (.record 2) ∧
    (WfStep.runStep (fun _ => 0) (js "dst") [] (.step (js "a:b")) fork.2).1 = [] ∧
    (forkWorkflowRun true (js "src") (js "dst") 0 [js "a", js "b"] (js "b") claimed).1 = .ok [] :=
  ⟨rfl, rfl, rfl, rfl⟩

end Gnldev.Workflow
