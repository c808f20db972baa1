import Gnldev.Durable.Rollover
import Gnldev.Durable.RunKeys
import Gnldev.Durable.Tool.Execute
import Gnldev.Lib.OrderedMap

/-!
# Forking a run

A run is continued from an earlier step as another run (`time-travel.ts`): the first
model steps are copied, with the records of the tool calls in them, so that the new
run replays them. The records are looked up again, by the two keys a call can have
in its run.

* `settleModelContent`: what a model step says, in the two shapes it is stored in;
* `forkRun`: the copy;
* `ForkKeeps`: the new run has the records of the calls of its steps, and the old run
  is untouched;
* `fork_keeps`: exactly when it is so. `forkRun` reads the calls of one shape only.
-/

open List

namespace Gnldev.Durable

/-! ## Model steps -/

/-- A part of what a model says, with raw inputs in `I`. -/
inductive ContentPart (I : Type) where
  | text (text : JsString)
  | reasoning (text : JsString)
  | toolCall (toolCallId toolName : JsString) (input : I)
  | other
  deriving DecidableEq

/-- A chunk of a stream. -/
inductive StreamPart (I : Type) where
  | textStart (id : JsString)
  | reasoningStart (id : JsString)
  | textDelta (id delta : JsString)
  | reasoningDelta (id delta : JsString)
  | toolCall (toolCallId toolName : JsString) (input : I)
  | other
  deriving DecidableEq

/-- The record of a model step: `content`, as it is generated, or `parts`, as it is
    streamed. -/
structure ModelRecord (I : Type) where
  content : Option (List (ContentPart I))
  parts : Option (List (StreamPart I))
  deriving DecidableEq

/-- A call in a model step. -/
structure CallPart (I : Type) where
  toolCallId : JsString
  toolName : JsString
  input : I
  deriving DecidableEq

namespace ContentPart

variable {I : Type}

def toolCall? : ContentPart I → Option (CallPart I)
  | toolCall toolCallId toolName input => some ⟨toolCallId, toolName, input⟩
  | _ => none

/-- The part with a text at its end. -/
def appendText (delta : JsString) : ContentPart I → ContentPart I
  | text t => text (t ++ delta)
  | reasoning t => reasoning (t ++ delta)
  | p => p

end ContentPart

/-- The parts so far, and where the text of each id goes. -/
structure SettleState (I : Type) where
  out : List (ContentPart I)
  buffers : JsString → Option ℕ

namespace SettleState

variable {I : Type}

def push (s : SettleState I) (p : ContentPart I) : SettleState I := { s with out := s.out ++ [p] }

def start (s : SettleState I) (id : JsString) (p : ContentPart I) : SettleState I where
  out := s.out ++ [p]
  buffers := Function.update s.buffers id (some s.out.length)

def delta (s : SettleState I) (id delta : JsString) : SettleState I :=
  match s.buffers id with
  | some i => { s with out := s.out.modify i (·.appendText delta) }
  | none => s

def step (s : SettleState I) : StreamPart I → SettleState I
  | .textStart id => s.start id (.text [])
  | .reasoningStart id => s.start id (.reasoning [])
  | .textDelta id d => s.delta id d
  | .reasoningDelta id d => s.delta id d
  | .toolCall toolCallId toolName input => s.push (.toolCall toolCallId toolName input)
  | .other => s

end SettleState

/-- What a model step says, in either shape. -/
def settleModelContent {I : Type} (v : ModelRecord I) : List (ContentPart I) :=
  match v.content, v.parts with
  | some content, _ => content
  | none, none => []
  | none, some parts => (parts.foldl SettleState.step ⟨[], fun _ => none⟩).out

/-! ## The journal -/

/-- A value of the journal. -/
inductive RunValue (I V : Type) where
  | model (r : ModelRecord I)
  | tool (r : Stored V)
  | input (r : InputRecord I)
  | other
  deriving DecidableEq

abbrev RunStore (I V : Type) := OrderedMap JsString (RunValue I V)

/-- A record, as it is read. -/
structure RunEntry (I V : Type) where
  key : JsString
  kind : EntryKind
  value : RunValue I V
  deriving DecidableEq

section Fork

variable {I V : Type}

/-- The records of a run, in the order they came. -/
def readRun (s : RunStore I V) (runId : JsString) : List (RunEntry I V) :=
  s.entries.filterMap fun (key, value) =>
    match parseJournalKey key with
    | some (owner, kind) => if owner = runId then some ⟨key, kind, value⟩ else none
    | none => none

/-- What the code outside the model gives a fork. -/
structure ForkCall (I V : Type) where
  srcRunId : JsString
  step : ℕ
  newRunId : Option JsString
  now : ℕ
  /-- The journal can list its keys, and has these for counters. -/
  listKeys : Option (List JsString)
  /-- The owner of the source: unreadable (`none`), missing (`some none`), or known. -/
  owner : Option (Option Caller)
  /-- The digest of the arguments, which are parsed if they are a text. -/
  hashOf : I → JsString

inductive ForkError where
  | runId (e : RunIdRefusal)
  | compensated
  | forkNumber (e : RunIdError)
  | noFreeNumber
  | ownerUnreadable
  | missing
  | tool (e : ToolError)
  deriving DecidableEq

structure ForkResult where
  newRunId : JsString
  copiedModel : ℕ
  copiedTool : ℕ
  deriving DecidableEq

/-! ## The target -/

/-- There is a run under this id. -/
def namespaceTaken (call : ForkCall I V) (s : RunStore I V) (runId : JsString) : Bool :=
  (s.get (runKeysInput runId)).isSome ||
    match call.listKeys with
    | none => false
    | some counters => (s.entries.map Prod.fst ++ counters).any (·.startsWith (runId ++ js ":"))

/-- The first free fork from `n` on. -/
def pickForkFrom (call : ForkCall I V) (s : RunStore I V) (base : JsString) :
    (tries n : ℕ) → Except ForkError JsString
  | 0, _ => .error .noFreeNumber
  | tries + 1, n =>
    match forkRunId base n with
    | .error e => .error (.forkNumber e)
    | .ok cand =>
      if namespaceTaken call s cand then pickForkFrom call s base tries (n + 1) else .ok cand

/-- The target of a fork that is given none. -/
def pickForkRunId (call : ForkCall I V) (s : RunStore I V) : Except ForkError JsString :=
  match derivedRunIdBase call.srcRunId with
  | none => .ok (call.srcRunId ++ js ":fork:" ++ decimal call.now)
  | some base => pickForkFrom call s base 9999 1

/-- The mark of a run that has been undone. -/
def tombstoneKey (runId : JsString) : JsString := runKeys.proc runId (js "__gnl_compensated")

def runCompensated (s : RunStore I V) (runId : JsString) : Bool :=
  (s.get (tombstoneKey runId)).isSome

/-- The target, of a source that may be forked. -/
def forkTarget (call : ForkCall I V) (s : RunStore I V) : Except ForkError JsString :=
  match call.newRunId.map assertRunIdSafe with
  | some (.error e) => .error (.runId e)
  | _ =>
    if runCompensated s call.srcRunId then .error .compensated
    else match call.newRunId with
      | some newRunId => .ok newRunId
      | none => pickForkRunId call s

/-- The record of a run that has only an owner. -/
def ownerRecord (owner : Caller) : InputRecord I where
  messages := none
  system := none
  threadId := none
  actor := none
  agent := none
  workKey := none
  workScope := none
  hash := none
  owner

/-- The target gets the owner of the source, unless it has one. -/
def inheritRunOwner (call : ForkCall I V) (dst : JsString) (s : RunStore I V) :
    Except ForkError (RunStore I V) :=
  match call.owner with
  | none => .error .ownerUnreadable
  | some none => .error .missing
  | some (some owner) =>
    match s.get (runKeysInput dst) with
    | some _ => .ok s
    | none => .ok (s.put (runKeysInput dst) (.input (ownerRecord owner)))

/-! ## The copy -/

/-- The step in the key of a model record. `lastIndexOf` is minus one if there is none. -/
def modelStep (key : JsString) : JsString := (afterLastModel key).getD (key.drop 6)

/-- The first model steps of a run. -/
def keptModels (entries : List (RunEntry I V)) (step : ℕ) : List (RunEntry I V) :=
  (entries.filter (·.kind = .model)).take step

/-- The calls of a model step, as they are read for a fork: those of `content`. -/
def forkedCalls (m : RunEntry I V) : List (CallPart I) :=
  match m.value with
  | .model r => (r.content.getD []).filterMap fun p =>
      p.toolCall?.bind fun c => if c.toolCallId = [] then none else some c
  | _ => []

def copyModels (dst : JsString) (s : RunStore I V) (keep : List (RunEntry I V)) :
    RunStore I V :=
  keep.foldl (fun s m => s.put (runKeys.model dst (modelStep m.key)) m.value) s

/-- The value of a tool record, by its key. The keys of entries are different. -/
def entryByKey (entries : List (RunEntry I V)) (key : JsString) : Option (RunValue I V) :=
  (entries.find? fun e => e.kind = .tool && e.key = key).map (·.value)

structure CopyState (I V : Type) where
  journal : RunStore I V
  copiedDstKeys : List JsString
  copiedTool : ℕ

/-- Copy a record, if there is one and it has not been. -/
def copyCandidate (entries : List (RunEntry I V)) (cs : CopyState I V) :
    JsString × JsString → CopyState I V
  | (srcKey, dstKey) =>
    if dstKey ∈ cs.copiedDstKeys then cs
    else match entryByKey entries srcKey with
      | none => cs
      | some v => ⟨cs.journal.put dstKey v, dstKey :: cs.copiedDstKeys, cs.copiedTool + 1⟩

/-- The keys a call can have in the two runs. -/
def candidates (src dst : JsString) (hashOf : I → JsString) (tc : CallPart I) :
    Except ToolError (List (JsString × JsString)) := do
  let hash := hashOf tc.input
  return [(runKeys.tool src tc.toolCallId, runKeys.tool dst tc.toolCallId),
    (← runKeys.toolByArgs src tc.toolName hash, ← runKeys.toolByArgs dst tc.toolName hash)]

/-- Copy the records of calls, up to the first one that has no keys. -/
def copyCalls (src dst : JsString) (hashOf : I → JsString) (entries : List (RunEntry I V)) :
    List (CallPart I) → CopyState I V → Option ToolError × CopyState I V
  | [], cs => (none, cs)
  | tc :: calls, cs =>
    match candidates src dst hashOf tc with
    | .error e => (some e, cs)
    | .ok l => copyCalls src dst hashOf entries calls (l.foldl (copyCandidate entries) cs)

/-- Copy the input of the source. -/
def copyInput (src dst : JsString) (s : RunStore I V) : RunStore I V :=
  match s.get (runKeysInput src) with
  | some input => s.put (runKeysInput dst) input
  | none => s

/-- Fork into a target that has an owner. -/
def copyRun (call : ForkCall I V) (dst : JsString) (s : RunStore I V) :
    Except ForkError ForkResult × RunStore I V :=
  let entries := readRun s call.srcRunId
  let keep := keptModels entries call.step
  match copyCalls call.srcRunId dst call.hashOf entries (keep.flatMap forkedCalls)
      ⟨copyModels dst s keep, [], 0⟩ with
  | (some e, cs) => (.error (.tool e), cs.journal)
  | (none, cs) => (.ok ⟨dst, keep.length, cs.copiedTool⟩, copyInput call.srcRunId dst cs.journal)

/-- Fork a run. -/
def forkRun (call : ForkCall I V) (s : RunStore I V) :
    Except ForkError ForkResult × RunStore I V :=
  match forkTarget call s with
  | .error e => (.error e, s)
  | .ok dst =>
    match inheritRunOwner call dst s with
    | .error e => (.error e, s)
    | .ok s => copyRun call dst s

/-! ## What a fork writes -/

theorem separator_ne (kind : EntryKind) {t : JsString} (ht : t ≠ []) :
    kind.separator ++ t ≠ EntryKind.model.separator := by
  rcases kind with _ | _
  · exact fun h => ht (append_right_eq_self.1 h)
  · intro h
    refine JsString.append_ne_append (p := EntryKind.tool.separator)
      (q := EntryKind.model.separator) (by decide) (by decide) t [] ?_
    rw [append_nil, h]

variable {s : RunStore I V} {runId : JsString}

theorem mem_readRun {e : RunEntry I V} :
    e ∈ readRun s runId ↔
      parseJournalKey e.key = some (runId, e.kind) ∧ s.get e.key = some e.value := by
  obtain ⟨key, kind, value⟩ := e
  rw [readRun, mem_filterMap, ← OrderedMap.mem_entries_iff]
  constructor
  · rintro ⟨⟨k, v⟩, hmem, hread⟩
    cases hparse : parseJournalKey k with
    | none => simp [hparse] at hread
    | some p =>
      obtain ⟨owner, kd⟩ := p
      by_cases howner : owner = runId
      · obtain ⟨rfl, rfl, rfl⟩ : k = key ∧ kd = kind ∧ v = value := by
          simpa [hparse, howner] using hread
        exact ⟨by rw [hparse, howner], hmem⟩
      · simp [hparse, howner] at hread
  · rintro ⟨hparse, hmem⟩
    exact ⟨(key, value), hmem, by simp [hparse]⟩

variable {key : JsString}

/-- A record is found under its key if the journal reads it as a tool record of the run. -/
theorem entryByKey_eq_some_iff {v : RunValue I V} :
    entryByKey (readRun s runId) key = some v ↔
      parseJournalKey key = some (runId, .tool) ∧ s.get key = some v := by
  rw [entryByKey, Option.map_eq_some_iff]
  constructor
  · rintro ⟨e, hfind, rfl⟩
    obtain ⟨hkind, rfl⟩ := by simpa using find?_some hfind
    obtain ⟨hparse, hget⟩ := mem_readRun.1 (mem_of_find?_eq_some hfind)
    exact ⟨hkind ▸ hparse, hget⟩
  · rintro ⟨hparse, hget⟩
    have hmem : (⟨key, .tool, v⟩ : RunEntry I V) ∈ readRun s runId := mem_readRun.2 ⟨hparse, hget⟩
    obtain ⟨e, hfind⟩ := Option.isSome_iff_exists.1
      (find?_isSome.2 ⟨_, hmem, by simp⟩ :
        ((readRun s runId).find? fun e => e.kind = .tool && e.key = key).isSome = true)
    obtain ⟨-, hkey⟩ := by simpa using find?_some hfind
    obtain ⟨-, hget'⟩ := mem_readRun.1 (mem_of_find?_eq_some hfind)
    rw [hkey, hget] at hget'
    exact ⟨e, hfind, (Option.some.inj hget').symm⟩

variable {dst : JsString}

/-- Copying models keeps what is under a key that it gives no other value. -/
theorem copyModels_get {k : JsString} {keep : List (RunEntry I V)}
    (h : ∀ m ∈ keep, k = runKeys.model dst (modelStep m.key) → s.get k = some m.value) :
    (copyModels dst s keep).get k = s.get k := by
  unfold copyModels
  induction keep using List.reverseRecOn with
  | nil => rfl
  | append_singleton keep m ih =>
    rw [foldl_append, foldl_cons, foldl_nil]
    by_cases hk : k = runKeys.model dst (modelStep m.key)
    · rw [hk, OrderedMap.get_put_self, ← hk, h m (by simp) hk]
    · rw [OrderedMap.get_put_of_ne _ hk]
      exact ih fun m hm => h m (mem_append_left _ hm)

/-- The ends of the keys of a call. -/
def suffixes (hashOf : I → JsString) (tc : CallPart I) : List JsString :=
  [tc.toolCallId, js "args-" ++ tc.toolName ++ js "-" ++ hashOf tc.input]

variable {toolName : JsString}

theorem toolByArgs_eq (runId : JsString) (h : sep ∉ toolName) (hash : JsString) :
    runKeys.toolByArgs runId toolName hash =
      .ok (runKeys.tool runId (js "args-" ++ toolName ++ js "-" ++ hash)) := by
  simp only [runKeys.toolByArgs, runKeys.assertNoColonInToolName, if_neg h, runKeys.tool,
    show js ":tool:args-" = js ":tool:" ++ js "args-" by decide, append_assoc]
  rfl

theorem toolByArgs_of_mem (runId : JsString) (h : sep ∈ toolName) (hash : JsString) :
    runKeys.toolByArgs runId toolName hash = .error .badName := by
  simp only [runKeys.toolByArgs, runKeys.assertNoColonInToolName, if_pos h]
  rfl

variable {src : JsString} {hashOf : I → JsString} {tc : CallPart I}

theorem candidates_eq (h : sep ∉ tc.toolName) : candidates src dst hashOf tc =
      .ok ((suffixes hashOf tc).map fun x => (runKeys.tool src x, runKeys.tool dst x)) := by
  rw [candidates, toolByArgs_eq src h, toolByArgs_eq dst h]
  rfl

theorem candidates_of_mem (h : sep ∈ tc.toolName) :
    candidates src dst hashOf tc = .error .badName := by
  rw [candidates, toolByArgs_of_mem src h]
  rfl

variable {entries : List (RunEntry I V)}

/-- All calls are copied if no tool has a colon in its name. -/
theorem copyCalls_eq {calls : List (CallPart I)} (h : ∀ tc ∈ calls, sep ∉ tc.toolName)
    (cs : CopyState I V) :
    copyCalls src dst hashOf entries calls cs =
      (none, ((calls.flatMap (suffixes hashOf)).map fun x =>
        (runKeys.tool src x, runKeys.tool dst x)).foldl (copyCandidate entries) cs) := by
  induction calls generalizing cs with
  | nil => rfl
  | cons tc calls ih =>
    rw [copyCalls, candidates_eq (h tc mem_cons_self)]
    rw [flatMap_cons, map_append, foldl_append]
    exact ih (fun tc htc => h tc (mem_cons_of_mem _ htc)) _

theorem copyCalls_fst_of_mem {calls : List (CallPart I)} (htc : tc ∈ calls) (h : sep ∈ tc.toolName)
    (cs : CopyState I V) :
    (copyCalls src dst hashOf entries calls cs).1 ≠ none := by
  induction calls generalizing cs with
  | nil => exact absurd htc not_mem_nil
  | cons tc' calls ih =>
    rw [copyCalls]
    split
    · simp
    · next hcand =>
      rcases mem_cons.1 htc with rfl | htc
      · rw [candidates_of_mem h] at hcand
        contradiction
      · exact ih htc _

/-- What has been copied when the keys in `P` have been tried. -/
structure Copied (entries : List (RunEntry I V)) (src dst : JsString) (j : RunStore I V)
    (P : JsString → Prop) (cs : CopyState I V) : Prop where
  mem : ∀ x, runKeys.tool dst x ∈ cs.copiedDstKeys ↔
    P x ∧ (entryByKey entries (runKeys.tool src x)).isSome
  value : ∀ x, runKeys.tool dst x ∈ cs.copiedDstKeys →
    cs.journal.get (runKeys.tool dst x) = entryByKey entries (runKeys.tool src x)
  rest : ∀ k, k ∉ cs.copiedDstKeys → cs.journal.get k = j.get k
  keys : ∀ k ∈ cs.copiedDstKeys, ∃ x, k = runKeys.tool dst x

theorem Copied.step {j : RunStore I V} {P : JsString → Prop} {cs : CopyState I V}
    (h : Copied entries src dst j P cs) (z : JsString) :
    Copied entries src dst j (fun x => P x ∨ x = z)
      (copyCandidate entries cs (runKeys.tool src z, runKeys.tool dst z)) := by
  rw [copyCandidate]
  split
  · next hz =>
    -- It has been copied: `z` is in `P`, or has the same keys as one that is.
    refine ⟨fun x => ?_, h.value, h.rest, h.keys⟩
    rw [h.mem]
    refine ⟨fun hx => ⟨.inl hx.1, hx.2⟩, ?_⟩
    rintro ⟨hx | rfl, hsome⟩
    · exact ⟨hx, hsome⟩
    · exact (h.mem x).1 hz
  · next hz =>
    split
    · next hnone =>
      refine ⟨fun x => ?_, h.value, h.rest, h.keys⟩
      rw [h.mem]
      refine ⟨fun hx => ⟨.inl hx.1, hx.2⟩, ?_⟩
      rintro ⟨hx | rfl, hsome⟩
      · exact ⟨hx, hsome⟩
      · rw [hnone] at hsome
        contradiction
    · next v hv =>
      refine ⟨fun x => ?_, fun x hx => ?_, fun k hk => ?_, fun k hk => ?_⟩
      · rw [mem_cons, tool_inj, h.mem]
        constructor
        · rintro (rfl | ⟨hx, hsome⟩)
          · exact ⟨.inr rfl, by rw [hv, Option.isSome_some]⟩
          · exact ⟨.inl hx, hsome⟩
        · rintro ⟨hx | rfl, hsome⟩
          · exact .inr ⟨hx, hsome⟩
          · exact .inl rfl
      · by_cases hxz : x = z
        · rw [hxz, OrderedMap.get_put_self, hv]
        · have hne : runKeys.tool dst x ≠ runKeys.tool dst z := fun he => hxz (tool_inj.1 he)
          rw [OrderedMap.get_put_of_ne _ hne]
          exact h.value x ((mem_cons.1 hx).resolve_left hne)
      · obtain ⟨hne, hk⟩ := not_or.1 (mt mem_cons.2 hk)
        rw [OrderedMap.get_put_of_ne _ hne]
        exact h.rest k hk
      · rcases mem_cons.1 hk with rfl | hk
        · exact ⟨z, rfl⟩
        · exact h.keys k hk

theorem Copied.run {j : RunStore I V} {P : JsString → Prop} {cs : CopyState I V}
    (h : Copied entries src dst j P cs) (xs : List JsString) :
    Copied entries src dst j (fun x => P x ∨ x ∈ xs)
      ((xs.map fun x => (runKeys.tool src x, runKeys.tool dst x)).foldl
        (copyCandidate entries) cs) := by
  induction xs generalizing P cs with
  | nil => simpa using h
  | cons z xs ih =>
    rw [map_cons, foldl_cons]
    simpa only [mem_cons, or_assoc] using ih (h.step z)

/-! ## The key of a call in another run -/

/-- The call in another run. -/
def ToolCall.inRun (c : ToolCall) (runId : JsString) : ToolCall :=
  { c with ctx := { c.ctx with runId } }

theorem toolCrossRun_ok {hash : JsString} (h : runKeys.toolCrossRun toolName hash = .ok key) :
    sep ∉ toolName ∧ key = js "xrun" ++ sep :: (js "args-" ++ toolName ++ js "-" ++ hash) := by
  by_cases hmem : sep ∈ toolName
  · simp only [runKeys.toolCrossRun, runKeys.assertNoColonInToolName, if_pos hmem] at h
    contradiction
  · simp only [runKeys.toolCrossRun, runKeys.assertNoColonInToolName, if_neg hmem,
      show js "xrun:args-" = js "xrun" ++ sep :: js "args-" by decide] at h
    refine ⟨hmem, (Except.ok.inj h).symm.trans ?_⟩
    simp only [append_assoc, cons_append]

theorem toolThread_ok {threadId hash : JsString}
    (h : runKeys.toolThread threadId toolName hash = .ok key) :
    ∃ z, key = js "xthr" ++ sep :: z := by
  simp only [runKeys.toolThread, runKeys.assertThreadId, runKeys.assertNoColonInToolName] at h
  split at h
  · contradiction
  · by_cases hmem : sep ∈ toolName
    · rw [if_pos hmem] at h
      contradiction
    · rw [if_neg hmem] at h
      refine ⟨threadId ++ js ":args-" ++ toolName ++ js "-" ++ hash,
        (Except.ok.inj h).symm.trans ?_⟩
      rw [show js "xthr:" = js "xthr" ++ [sep] by decide]
      simp only [append_assoc, cons_append, nil_append]

/-- A call has its key in its run, with an end that does not depend on the run, or the
    same key in every run. -/
theorem ToolCall.key_cases {c : ToolCall} (h : c.key = .ok key) :
    (∃ x, key = runKeys.tool c.ctx.runId x ∧
      ∀ runId, (c.inRun runId).key = .ok (runKeys.tool runId x)) ∨
    (keyRoot key ∈ RESERVED_KEY_ROOTS ∧ ∀ runId, (c.inRun runId).key = .ok key) := by
  have hargs runId : (c.inRun runId).argsMode = c.argsMode := rfl
  have hwindow runId : (c.inRun runId).effWindow = c.effWindow := rfl
  have hthread runId : (c.inRun runId).ctx.threadId = c.ctx.threadId := rfl
  have htool runId : (c.inRun runId).tool = c.tool := rfl
  have hhash runId : (c.inRun runId).hash = c.hash := rfl
  have hid runId : (c.inRun runId).toolCallId = c.toolCallId := rfl
  have hrun runId : (c.inRun runId).ctx.runId = runId := rfl
  unfold ToolCall.key at h ⊢
  simp only [hargs, hwindow, hthread, htool, hhash, hid, hrun]
  by_cases hargs : c.argsMode = true
  · simp only [hargs, if_true] at h ⊢
    generalize c.effWindow = window at h ⊢
    generalize c.ctx.threadId = threadId at h ⊢
    -- Only a window of one run depends on the run.
    have hself (h : runKeys.toolByArgs c.ctx.runId c.tool.name c.hash = .ok key) :
        ∃ x, key = runKeys.tool c.ctx.runId x ∧
          ∀ runId, runKeys.toolByArgs runId c.tool.name c.hash = .ok (runKeys.tool runId x) := by
      have hname : sep ∉ c.tool.name := by
        intro hmem
        rw [toolByArgs_of_mem _ hmem] at h
        contradiction
      rw [toolByArgs_eq _ hname] at h
      exact ⟨_, (Except.ok.inj h).symm, fun runId => toolByArgs_eq runId hname _⟩
    rcases window with _ | _ | _
    · exact .inl (hself h)
    · refine .inr ⟨?_, fun _ => h⟩
      rw [(toolCrossRun_ok h).2, keyRoot_append]
      decide
    · rcases threadId with _ | threadId
      · exact .inl (hself h)
      · refine .inr ⟨?_, fun _ => h⟩
        obtain ⟨z, rfl⟩ := toolThread_ok h
        rw [keyRoot_append]
        decide
  · simp only [hargs] at h ⊢
    exact .inl ⟨c.toolCallId, (Except.ok.inj h).symm, fun _ => rfl⟩

/-! ## The target is a run of its own -/

theorem ownKeys_fork (h : OwnKeys src) (now : ℕ) :
    OwnKeys (src ++ js ":fork:" ++ decimal now) := by
  have hdigits : sep ∉ decimal now := fun hmem =>
    absurd (isDigit_of_mem_decimal hmem) (by decide)
  have hlast : hasRecordSegment (sep :: decimal now) = false := by
    by_contra hs
    obtain ⟨c, kind, hc, hkind⟩ := hasRecordSegment_iff.1 (Bool.of_not_eq_false hs)
    rcases suffix_cons_iff.1 hc with rfl | hc
    · -- The digits are no word, and have no colon.
      rcases hkind with hword | hkind
      · have hword := (List.cons.inj hword).2
        obtain ⟨u, hu, hdigit⟩ : ∃ u ∈ kind.word, isDigit u = false := by
          rcases kind with _ | _ <;> decide
        rw [isDigit_of_mem_decimal (hword ▸ hu)] at hdigit
        contradiction
      · refine hdigits (((prefix_cons_inj _).1 hkind).subset ?_)
        rcases kind with _ | _ <;> decide
    · refine hdigits (hc.subset ?_)
      rcases hkind with rfl | hkind
      · exact mem_cons_self
      · exact hkind.subset mem_cons_self
  have heq : src ++ js ":fork:" ++ decimal now =
      (src ++ sep :: js "fork") ++ sep :: decimal now := by
    rw [show js ":fork:" = sep :: js "fork" ++ [sep] by decide]
    simp only [append_assoc, cons_append, nil_append]
  rw [heq]
  refine ⟨hasRecordSegment_append (hasRecordSegment_append h.recordSegment (by decide)) hlast, ?_⟩
  rw [keyRoot_append, keyRoot_append]
  exact h.root

theorem ownKeys_derived {base : JsString} {n : ℕ} (hbase : ∃ digest : JsString,
    base = DERIVED_RUN_ID_PREFIX ++ digest ∧ digest.all isHexLower) (h : forkRunId base n = .ok dst) : OwnKeys dst := by
  obtain ⟨digest, rfl, hdigest⟩ := hbase
  unfold forkRunId at h
  split_ifs at h
  obtain rfl := Except.ok.inj h
  have hsep : sep ∉ DERIVED_RUN_ID_PREFIX ++ digest ++ js "#fork-" ++ decimal n := by
    simp only [mem_append, not_or]
    refine ⟨⟨⟨by decide, fun hmem => ?_⟩, by decide⟩, fun hmem => ?_⟩
    · exact absurd (all_eq_true.1 hdigest sep hmem) (by decide)
    · exact absurd (isDigit_of_mem_decimal hmem) (by decide)
  refine ⟨hasRecordSegment_of_notMem hsep, ?_⟩
  rw [keyRoot_of_notMem hsep]
  intro hmem
  have hstart :
      DERIVED_RUN_ID_PREFIX <+: DERIVED_RUN_ID_PREFIX ++ digest ++ js "#fork-" ++ decimal n := by
    simp only [append_assoc]
    exact prefix_append _ _
  have hnone : ∀ root ∈ RESERVED_KEY_ROOTS, ¬DERIVED_RUN_ID_PREFIX <+: root := by decide
  exact hnone _ hmem hstart

variable {call : ForkCall I V}

theorem forkRunId_of_pickForkFrom {base : JsString} {tries n : ℕ}
    (h : pickForkFrom call s base tries n = .ok dst) :
    ∃ n, forkRunId base n = .ok dst := by
  induction tries generalizing n with
  | zero => contradiction
  | succ tries ih =>
    rw [pickForkFrom] at h
    split at h
    · contradiction
    · next cand hcand =>
      by_cases htaken : namespaceTaken call s cand = true
      · rw [if_pos htaken] at h
        exact ih h
      · rw [if_neg htaken] at h
        exact ⟨n, (Except.ok.inj h) ▸ hcand⟩

/-- The keys of the target are its own, when those of the source are. -/
theorem ownKeys_of_forkTarget (hsrc : OwnKeys call.srcRunId) (h : forkTarget call s = .ok dst) :
    OwnKeys dst := by
  unfold forkTarget at h
  split at h
  · contradiction
  · next hsafe =>
    by_cases hcomp : runCompensated s call.srcRunId = true
    · rw [if_pos hcomp] at h
      contradiction
    · rw [if_neg hcomp] at h
      split at h
      · next newRunId hnew =>
        obtain rfl := Except.ok.inj h
        rw [hnew, Option.map_some] at hsafe
        rcases hid : assertRunIdSafe newRunId with e | _
        · exact absurd (congrArg some hid) (hsafe e)
        · exact ownKeys_of_safe hid
      · unfold pickForkRunId at h
        split at h
        · obtain rfl := Except.ok.inj h
          exact ownKeys_fork hsrc call.now
        · next base hbase =>
          obtain ⟨n, hn⟩ := forkRunId_of_pickForkFrom h
          exact ownKeys_derived (derivedRunIdBase_eq hbase) hn

/-! ## What a fork keeps -/

/-- The call that a run makes of a call in a model step: of the tool it names, with its
    id, and the digest of the arguments that the tool is executed with. The tool has no
    idempotency key of its own. -/
structure Executes (execHash : JsString → I → JsString) (runId : JsString) (tc : CallPart I)
    (c : ToolCall) : Prop where
  name : c.tool.name = tc.toolName
  toolCallId : c.toolCallId = tc.toolCallId
  hash : c.hash = execHash tc.toolName tc.input
  runId : c.ctx.runId = runId

/-- The calls a model step emits. -/
def emittedCalls (m : RunEntry I V) : List (CallPart I) :=
  match m.value with
  | .model r => (settleModelContent r).filterMap ContentPart.toolCall?
  | _ => []

/-- A value that says a call has succeeded. -/
def RunValue.Succeeded (v : RunValue I V) : Prop :=
  ∃ n output hash ids mirrorOf, v = .tool ⟨n, .succeeded output hash ids, mirrorOf⟩

/-- The keys of a run: its records, and its input. -/
def IsRunKey (runId key : JsString) : Prop :=
  (∃ kind, parseJournalKey key = some (runId, kind)) ∨ key = runKeysInput runId

/-- The calls of the steps that are kept, as the run makes them, with their records. -/
def CallRecorded (execHash : JsString → I → JsString) (call : ForkCall I V) (s : RunStore I V)
    (c : ToolCall) (key : JsString) (v : RunValue I V) : Prop :=
  c.key = .ok key ∧ s.get key = some v ∧ v.Succeeded ∧
    ∃ m ∈ keptModels (readRun s call.srcRunId) call.step, ∃ tc ∈ emittedCalls m,
      Executes execHash call.srcRunId tc c

/-- A fork keeps what the calls of its steps have done, and leaves the source alone. -/
structure ForkKeeps (execHash : JsString → I → JsString) (call : ForkCall I V) (dst : JsString)
    (s s' : RunStore I V) : Prop where
  source : ∀ key, IsRunKey call.srcRunId key → s'.get key = s.get key
  frame : ∀ key, ¬(dst ++ js ":") <+: key → s'.get key = s.get key
  held : ∀ c key v, CallRecorded execHash call s c key v →
    ∃ key', (c.inRun dst).key = .ok key' ∧ s'.get key' = some v

/-- The two keys that are looked up for the calls of a generated step. -/
def LookedUp (call : ForkCall I V) (s : RunStore I V) (key : JsString) : Prop :=
  ∃ m ∈ keptModels (readRun s call.srcRunId) call.step, ∃ tc ∈ forkedCalls m,
    key = runKeys.tool call.srcRunId tc.toolCallId ∨
      runKeys.toolByArgs call.srcRunId tc.toolName (call.hashOf tc.input) = .ok key

/-- What a fork can see: the generated calls have names without a colon, and every record
    of a call is looked up for one of them, or the target has it already. -/
structure ForkSees (execHash : JsString → I → JsString) (call : ForkCall I V) (dst : JsString)
    (s : RunStore I V) : Prop where
  names : ∀ m ∈ keptModels (readRun s call.srcRunId) call.step, ∀ tc ∈ forkedCalls m,
    sep ∉ tc.toolName
  /-- A run that is copied onto itself has an input. -/
  input : dst = call.srcRunId → (s.get (runKeysInput dst)).isSome
  records : ∀ c key v, CallRecorded execHash call s c key v →
    (LookedUp call s key ∧ parseJournalKey key = some (call.srcRunId, .tool)) ∨
      ∃ key', (c.inRun dst).key = .ok key' ∧ s.get key' = some v

/-! ## The store after a fork -/

theorem parse_input_ne (h : OwnKeys runId) (hdst : OwnKeys dst) (kind : EntryKind) :
    parseJournalKey (runKeysInput dst) ≠ some (runId, kind) := by
  intro hparse
  obtain ⟨t, -, ht⟩ := eq_of_parseJournalKey hparse
  obtain rfl := eq_of_record_keys hdst.recordSegment h.recordSegment .input (.record kind t) ht
  exact input_ne_separator kind t (append_cancel_left ht)

theorem readRun_put_input (h : OwnKeys runId) (hdst : OwnKeys dst) (s : RunStore I V)
    (v : RunValue I V) :
    readRun (s.put (runKeysInput dst) v) runId = readRun s runId := by
  refine OrderedMap.filterMap_entries_put s (fun w => ?_) v
  show (match parseJournalKey (runKeysInput dst) with
    | some (owner, kind) => if owner = runId then some _ else none
    | none => none) = none
  rcases hparse : parseJournalKey (runKeysInput dst) with _ | ⟨owner, kind⟩
  · rfl
  · have hne : owner ≠ runId := fun he => parse_input_ne h hdst kind (he ▸ hparse)
    exact if_neg hne

/-- The target has an input, and nothing else is written. -/
structure Inherited (dst : JsString) (s s₁ : RunStore I V) : Prop where
  get : ∀ k, k ≠ runKeysInput dst → s₁.get k = s.get k
  input : ∀ v, s.get (runKeysInput dst) = some v → s₁.get (runKeysInput dst) = some v
  isSome : (s₁.get (runKeysInput dst)).isSome
  readRun : ∀ runId, OwnKeys runId → OwnKeys dst → readRun s₁ runId = readRun s runId

theorem inherited {s₁ : RunStore I V} (h : inheritRunOwner call dst s = .ok s₁) :
    Inherited dst s s₁ := by
  unfold inheritRunOwner at h
  split at h
  · contradiction
  · contradiction
  · split at h
    · next v hv =>
      obtain rfl := Except.ok.inj h
      exact ⟨fun _ _ => rfl, fun _ hv => hv, by rw [hv, Option.isSome_some], fun _ _ _ => rfl⟩
    · next hnone =>
      obtain rfl := Except.ok.inj h
      refine ⟨fun k hk => OrderedMap.get_put_of_ne _ hk _, fun v hv => ?_, ?_, ?_⟩
      · rw [hnone] at hv
        contradiction
      · rw [OrderedMap.get_put_self, Option.isSome_some]
      · exact fun runId hrun hdst => readRun_put_input hrun hdst s _

theorem copyInput_get {k : JsString} (h : k ≠ runKeysInput dst) (s : RunStore I V) :
    (copyInput src dst s).get k = s.get k := by
  unfold copyInput
  split
  · exact OrderedMap.get_put_of_ne _ h _
  · rfl

theorem copyInput_self (runId : JsString) (s : RunStore I V) (k : JsString) :
    (copyInput runId runId s).get k = s.get k := by
  unfold copyInput
  split
  · next v hv =>
    by_cases hk : k = runKeysInput runId
    · rw [hk, OrderedMap.get_put_self, hv]
    · exact OrderedMap.get_put_of_ne _ hk _
  · rfl

/-- The ends of the keys that are looked up. -/
def lookedUp (call : ForkCall I V) (s : RunStore I V) : List JsString :=
  ((keptModels (readRun s call.srcRunId) call.step).flatMap forkedCalls).flatMap
    (suffixes call.hashOf)

/-- The copy of a run whose calls all have keys. -/
theorem copyRun_ok (dst : JsString)
    (h : ∀ m ∈ keptModels (readRun s call.srcRunId) call.step, ∀ tc ∈ forkedCalls m,
      sep ∉ tc.toolName) :
    ∃ cs, Copied (readRun s call.srcRunId) call.srcRunId dst
        (copyModels dst s (keptModels (readRun s call.srcRunId) call.step))
        (· ∈ lookedUp call s) cs ∧
      copyRun call dst s =
        (.ok ⟨dst, (keptModels (readRun s call.srcRunId) call.step).length, cs.copiedTool⟩,
          copyInput call.srcRunId dst cs.journal) := by
  have hcalls : ∀ tc ∈ (keptModels (readRun s call.srcRunId) call.step).flatMap forkedCalls,
      sep ∉ tc.toolName := by
    intro tc htc
    obtain ⟨m, hm, htc⟩ := mem_flatMap.1 htc
    exact h m hm tc htc
  have hstart : Copied (readRun s call.srcRunId) call.srcRunId dst
      (copyModels dst s (keptModels (readRun s call.srcRunId) call.step)) (fun _ => False)
      ⟨copyModels dst s (keptModels (readRun s call.srcRunId) call.step), [], 0⟩ :=
    ⟨fun x => by simp, fun x hx => absurd hx not_mem_nil, fun _ _ => rfl,
      fun k hk => absurd hk not_mem_nil⟩
  refine ⟨_, ?_, by rw [copyRun, copyCalls_eq hcalls]⟩
  have hrun := hstart.run (lookedUp call s)
  simp only [false_or] at hrun
  exact hrun

/-- Without a colon-free name for every call, there is no fork. -/
theorem names_of_copyRun {r : ForkResult} (h : (copyRun call dst s).1 = .ok r) :
    ∀ m ∈ keptModels (readRun s call.srcRunId) call.step, ∀ tc ∈ forkedCalls m,
      sep ∉ tc.toolName := by
  intro m hm tc htc hsep
  simp only [copyRun] at h
  split at h
  · contradiction
  · next cs hcs =>
    exact copyCalls_fst_of_mem (mem_flatMap.2 ⟨m, hm, htc⟩) hsep _ (congrArg Prod.fst hcs)

section Store

variable {call : ForkCall I V} {dst : JsString} {s : RunStore I V} {cs : CopyState I V}
  (hcs : Copied (readRun s call.srcRunId) call.srcRunId dst
    (copyModels dst s (keptModels (readRun s call.srcRunId) call.step)) (· ∈ lookedUp call s) cs)

include hcs

/-- What is under the key of a call in the target. -/
theorem Copied.get_tool (x : JsString) :
    cs.journal.get (runKeys.tool dst x) =
      if x ∈ lookedUp call s ∧ parseJournalKey (runKeys.tool call.srcRunId x) =
          some (call.srcRunId, .tool) ∧ (s.get (runKeys.tool call.srcRunId x)).isSome then
        s.get (runKeys.tool call.srcRunId x)
      else s.get (runKeys.tool dst x) := by
  have hentry : (entryByKey (readRun s call.srcRunId) (runKeys.tool call.srcRunId x)).isSome ↔
      parseJournalKey (runKeys.tool call.srcRunId x) = some (call.srcRunId, .tool) ∧
        (s.get (runKeys.tool call.srcRunId x)).isSome := by
    rw [Option.isSome_iff_exists, Option.isSome_iff_exists]
    simp only [entryByKey_eq_some_iff, exists_and_left]
  by_cases hx : runKeys.tool dst x ∈ cs.copiedDstKeys
  · obtain ⟨hlook, hsome⟩ := (hcs.mem x).1 hx
    rw [hcs.value x hx, if_pos ⟨hlook, hentry.1 hsome⟩]
    obtain ⟨v, hv⟩ := Option.isSome_iff_exists.1 hsome
    rw [hv, (entryByKey_eq_some_iff.1 hv).2]
  · rw [hcs.rest _ hx, if_neg fun h => hx ((hcs.mem x).2 ⟨h.1, hentry.2 h.2⟩)]
    exact copyModels_get fun m _ hk => absurd hk (tool_ne_model dst x _)

variable {k : JsString}

theorem Copied.get_rest (hk : ∀ x, k ≠ runKeys.tool dst x) :
    cs.journal.get k =
      (copyModels dst s (keptModels (readRun s call.srcRunId) call.step)).get k := by
  refine hcs.rest k fun hmem => ?_
  obtain ⟨x, hx⟩ := hcs.keys k hmem
  exact hk x hx

/-- Only keys of the target are written. -/
theorem Copied.get_frame (hk : ¬(dst ++ js ":") <+: k) :
    cs.journal.get k = s.get k := by
  have htool : ∀ x, k ≠ runKeys.tool dst x := by
    rintro x rfl
    refine hk ?_
    rw [tool_eq, prefix_append_right_inj]
    exact ⟨js "tool:" ++ x, by rw [← append_assoc]; rfl⟩
  rw [hcs.get_rest htool]
  refine copyModels_get fun m _ hm => absurd ?_ hk
  rw [hm, model_eq, prefix_append_right_inj]
  exact ⟨js "model:" ++ modelStep m.key, by rw [← append_assoc]; rfl⟩

/-- The copy does not touch the records of the source. -/
theorem Copied.get_source (hsrc : OwnKeys call.srcRunId) (hdst : OwnKeys dst)
    (hk : IsRunKey call.srcRunId k) : cs.journal.get k = s.get k := by
  obtain ⟨T, hT, hkT⟩ : ∃ T, OwnTail T ∧ k = call.srcRunId ++ T := by
    rcases hk with ⟨kind, hk⟩ | rfl
    · obtain ⟨t, -, ht⟩ := eq_of_parseJournalKey hk
      exact ⟨_, .record kind t, ht⟩
    · exact ⟨_, .input, rfl⟩
  by_cases htool : ∃ x, k = runKeys.tool dst x
  · obtain ⟨x, rfl⟩ := htool
    have heq : call.srcRunId = dst := by
      refine eq_of_record_keys hsrc.recordSegment hdst.recordSegment hT (.record .tool x) ?_
      rw [← hkT, tool_eq]
    rw [hcs.get_tool, heq]
    split <;> rfl
  · rw [hcs.get_rest fun x hx => htool ⟨x, hx⟩]
    refine copyModels_get fun m hm hmodel => ?_
    -- The key of a model step of the target is one of the source: they are the same run,
    -- and the step is copied onto itself.
    have heq : call.srcRunId = dst := by
      refine eq_of_record_keys hsrc.recordSegment hdst.recordSegment hT
        (.record .model (modelStep m.key)) ?_
      rw [← hkT, hmodel, model_eq]
    have hmem := mem_filter.1 (mem_of_mem_take hm)
    obtain ⟨hparse, hget⟩ := mem_readRun.1 hmem.1
    rw [of_decide_eq_true hmem.2] at hparse
    obtain ⟨t, hsplit⟩ := splitRecord_of_parseJournalKey hparse
    rcases afterLastModel_of_splitRecord hsplit with hlast | hlast
    · rw [hmodel, modelStep, hlast, Option.getD_some, ← heq, model_eq,
        ← append_assoc, ← (eq_of_splitRecord hsplit).1]
      exact hget
    · -- A key that ends in `:model:` is no record.
      rw [modelStep, hlast, Option.getD_some, ← heq, model_eq, append_nil] at hmodel
      rcases hk with ⟨kind, hk⟩ | hk
      · obtain ⟨t', ht', hkey⟩ := eq_of_parseJournalKey hk
        rw [hkey] at hmodel
        exact absurd (append_cancel_left hmodel) (separator_ne kind ht')
      · rw [hk] at hmodel
        have := append_cancel_left hmodel
        exact absurd (this.trans (append_nil _).symm) (input_ne_separator .model [])

end Store

/-! ## Exactly when a fork keeps the calls -/

theorem tool_ne_input (h : OwnKeys runId) (hdst : OwnKeys dst) (x : JsString) :
    runKeys.tool runId x ≠ runKeysInput dst := by
  intro he
  rw [tool_eq] at he
  obtain rfl := eq_of_record_keys h.recordSegment hdst.recordSegment (.record .tool x) .input he
  exact input_ne_separator .tool x (append_cancel_left he).symm

/-- What is looked up is what the ends of the keys say. -/
theorem lookedUp_iff {x : JsString}
    (h : ∀ m ∈ keptModels (readRun s call.srcRunId) call.step, ∀ tc ∈ forkedCalls m,
      sep ∉ tc.toolName) :
    LookedUp call s (runKeys.tool call.srcRunId x) ↔ x ∈ lookedUp call s := by
  rw [lookedUp, flatMap_assoc, mem_flatMap]
  refine exists_congr fun m => and_congr_right fun hm => ?_
  rw [mem_flatMap]
  refine exists_congr fun tc => and_congr_right fun htc => ?_
  rw [toolByArgs_eq _ (h m hm tc htc), Except.ok.injEq, tool_inj, tool_inj, suffixes,
    mem_cons, mem_singleton, eq_comm (b := x)]

/-- A fork keeps what the calls of its steps have done exactly when it can see them. -/
theorem fork_keeps (execHash : JsString → I → JsString) {call : ForkCall I V} {dst : JsString}
    {s s₁ : RunStore I V} (hsrc : assertRunIdSafe call.srcRunId = .ok ())
    (hdst : forkTarget call s = .ok dst) (howner : inheritRunOwner call dst s = .ok s₁) :
    ((∃ r, (forkRun call s).1 = .ok r ∧ r.newRunId = dst) ∧
      ForkKeeps execHash call dst s (forkRun call s).2) ↔ ForkSees execHash call dst s := by
  have hown := ownKeys_of_safe hsrc
  have hownDst := ownKeys_of_forkTarget hown hdst
  have hin := inherited howner
  have hread := hin.readRun _ hown hownDst
  have hrun : forkRun call s = copyRun call dst s₁ := by
    rw [forkRun, hdst]
    simp only [howner]
  have hlook : lookedUp call s₁ = lookedUp call s := by rw [lookedUp, hread, lookedUp]
  have hsrcTool : ∀ x,
      s₁.get (runKeys.tool call.srcRunId x) = s.get (runKeys.tool call.srcRunId x) :=
    fun x => hin.get _ (tool_ne_input hown hownDst x)
  have hdstTool : ∀ x, s₁.get (runKeys.tool dst x) = s.get (runKeys.tool dst x) :=
    fun x => hin.get _ (tool_ne_input hownDst hownDst x)
  rw [hrun]
  constructor
  · rintro ⟨⟨r, hr, -⟩, hkeeps⟩
    have hnames₁ := names_of_copyRun hr
    have hnames := hnames₁
    rw [hread] at hnames
    obtain ⟨cs, hcs, hcopy⟩ := copyRun_ok dst hnames₁
    rw [hcopy] at hkeeps
    refine ⟨hnames, fun hself => ?_, ?_⟩
    · -- What the run has in the end under its own input key, it has had before.
      have hsource := hkeeps.source (runKeysInput call.srcRunId) (.inr rfl)
      simp only [hself, copyInput_self] at hsource
      rw [hself, ← hsource, hcs.get_source hown hownDst (.inr rfl), ← hself]
      exact hin.isSome
    · intro c key v hrec
      obtain ⟨key', hkey', hget'⟩ := hkeeps.held c key v hrec
      obtain ⟨hkey, hget, -, m, hm, tc, htc, hexec⟩ := hrec
      rcases c.key_cases hkey with ⟨x, rfl, hx⟩ | ⟨-, hx⟩
      · rw [hexec.runId] at hget ⊢
        obtain rfl : runKeys.tool dst x = key' := Except.ok.inj ((hx dst).symm.trans hkey')
        rw [copyInput_get (tool_ne_input hownDst hownDst x), hcs.get_tool, hlook, hsrcTool,
          hdstTool] at hget'
        split at hget'
        · next hcopied => exact .inl ⟨(lookedUp_iff hnames).2 hcopied.1, hcopied.2.1⟩
        · exact .inr ⟨_, hx dst, hget'⟩
      · exact .inr ⟨key, hx dst, hget⟩
  · intro hsees
    have hnames₁ := hsees.names
    rw [← hread] at hnames₁
    obtain ⟨cs, hcs, hcopy⟩ := copyRun_ok dst hnames₁
    rw [hcopy]
    have hframe : ∀ k, ¬(dst ++ js ":") <+: k →
        (copyInput call.srcRunId dst cs.journal).get k = s.get k := by
      intro k hk
      have hne : k ≠ runKeysInput dst := by
        rintro rfl
        refine hk ?_
        rw [runKeysInput, prefix_append_right_inj]
        decide
      rw [copyInput_get hne, hcs.get_frame hk, hin.get k hne]
    refine ⟨⟨_, rfl, rfl⟩, ⟨fun k hk => ?_, hframe, ?_⟩⟩
    · by_cases hinput : k = runKeysInput dst
      · -- The input of the target is a key of the source only if they are the same run.
        have heq : dst = call.srcRunId := by
          rcases hk with ⟨kind, hk⟩ | hk
          · exact absurd (hinput ▸ hk) (parse_input_ne hown hownDst kind)
          · exact append_cancel_right (hinput.symm.trans hk)
        obtain ⟨v, hv⟩ := Option.isSome_iff_exists.1 (hsees.input heq)
        subst heq
        rw [copyInput_self, hcs.get_source hown hownDst hk, hinput, hin.input v hv, hv]
      · rw [copyInput_get hinput, hcs.get_source hown hownDst hk, hin.get k hinput]
    · intro c key v hrec
      have hrec' := hrec
      obtain ⟨hkey, hget, -, m, hm, tc, htc, hexec⟩ := hrec'
      rcases c.key_cases hkey with ⟨x, rfl, hx⟩ | ⟨hroot, hx⟩
      · refine ⟨_, hx dst, ?_⟩
        rw [copyInput_get (tool_ne_input hownDst hownDst x), hcs.get_tool, hlook, hsrcTool,
          hdstTool]
        have hrecords := hsees.records c _ v hrec
        rw [hexec.runId] at hget hrecords
        split
        · exact hget
        · next hnot =>
          rcases hrecords with ⟨hlooked, hparse⟩ | ⟨key', hkey', hget'⟩
          · refine absurd ⟨(lookedUp_iff hsees.names).1 hlooked, hparse, ?_⟩ hnot
            rw [hget, Option.isSome_some]
          · rwa [← Except.ok.inj ((hx dst).symm.trans hkey')] at hget'
      · refine ⟨key, hx dst, ?_⟩
        rw [hframe key fun hstart => ?_, hget]
        obtain ⟨z, rfl⟩ := hstart
        rw [show js ":" = [sep] by decide, append_assoc, singleton_append,
          keyRoot_append] at hroot
        exact hownDst.root hroot

end Fork

/-- A run with one step, which calls a tool that succeeds. -/
def oneCallStore (r : ModelRecord Unit) : RunStore Unit Unit :=
  ((OrderedMap.empty.put (runKeysInput (js "a")) (.input (ownerRecord (.staff none)))).put
    (runKeys.model (js "a") (js "0")) (.model r)).put (runKeys.tool (js "a") (js "t"))
    (.tool (stampFormat (.succeeded (.value ()) none none)))

def generatedStep : ModelRecord Unit := ⟨some [.toolCall (js "t") (js "pay") ()], none⟩

def streamedStep : ModelRecord Unit := ⟨none, some [.toolCall (js "t") (js "pay") ()]⟩

/-- Fork it after its step. -/
def oneCallFork : ForkCall Unit Unit where
  srcRunId := js "a"
  step := 1
  newRunId := some (js "b")
  now := 0
  listKeys := none
  owner := some (some (.staff none))
  hashOf _ := js "h"

/-- A generated step is kept. -/
theorem fork_keeps_generated :
    (∃ r, (forkRun oneCallFork (oneCallStore generatedStep)).1 = .ok r ∧ r.newRunId = js "b") ∧
      ForkKeeps (fun _ _ => js "h") oneCallFork (js "b") (oneCallStore generatedStep)
        (forkRun oneCallFork (oneCallStore generatedStep)).2 := by
  refine (fork_keeps (fun _ _ => js "h") (by decide) (by decide) rfl).2
    ⟨by decide, by decide, ?_⟩
  rintro c key v ⟨-, hget, hsucceeded, -⟩
  -- The only record of the run is that of the call.
  have hmem : (key, v) ∈ [(js "a:input", RunValue.input (ownerRecord (.staff none))),
      (js "a:model:0", .model generatedStep),
      (js "a:tool:t", .tool (stampFormat (.succeeded (.value ()) none none)))] :=
    OrderedMap.mem_entries_iff.2 hget
  obtain ⟨n, output, hash, ids, mirrorOf, rfl⟩ := hsucceeded
  obtain ⟨rfl, -⟩ := by simpa using hmem
  exact .inl ⟨⟨⟨js "a:model:0", .model, .model generatedStep⟩, by decide, ⟨js "t", js "pay", ()⟩,
    by decide, .inl (by decide)⟩, by decide⟩

/-- A streamed step is copied, and the record of its call is not. -/
theorem fork_loses_streamed :
    (forkRun oneCallFork (oneCallStore streamedStep)).1 = .ok ⟨js "b", 1, 0⟩ ∧
      ¬ForkKeeps (fun _ _ => js "h") oneCallFork (js "b") (oneCallStore streamedStep)
        (forkRun oneCallFork (oneCallStore streamedStep)).2 := by
  refine ⟨by decide, fun hkeeps => ?_⟩
  obtain ⟨key', hkey', hget⟩ := hkeeps.held (plainCall (js "a") (js "t")) (js "a:tool:t")
    (.tool (stampFormat (.succeeded (.value ()) none none)))
    ⟨by decide, by decide, ⟨_, _, _, _, _, rfl⟩, ⟨js "a:model:0", .model, .model streamedStep⟩,
      by decide, ⟨js "t", js "pay", ()⟩, by decide, ⟨rfl, rfl, rfl, rfl⟩⟩
  obtain rfl : js "b:tool:t" = key' := Except.ok.inj hkey'
  have hnone : (forkRun oneCallFork (oneCallStore streamedStep)).2.get (js "b:tool:t") = none := by
    decide
  rw [hnone] at hget
  contradiction

end Gnldev.Durable
