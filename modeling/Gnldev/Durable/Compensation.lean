import Gnldev.Durable.RunKeys
import Gnldev.Durable.Tool.Gate
import Gnldev.Durable.Tool.Protocol

/-!
# Undoing a run

A run that is given up is *unwound* (`compensation.ts`): the records of its tool calls
are listed, the run is condemned, and every call that has taken effect is undone by its
tool's `compensate`, the latest first, each of them once. A condemned run has no more
side effects: its calls look for the tombstone before they claim (`compensatedGate`).

* `compensateRun`: the unwinding;
* `unwindMachine`: the calls of runs and their unwindings, together on one journal.
-/

namespace Gnldev.Durable

open Function

/-! ## Reports -/

/-- What became of a record. -/
inductive CompStatus where
  /-- The hook ran, and its result was recorded. -/
  | compensated
  | alreadyCompensated
  | wouldCompensate
  | skippedNoHook
  /-- `recover` says that there was no effect. -/
  | skippedNotExecuted
  | uncertain
  /-- Another unwinding is at it. -/
  | busy
  | failed
  | notAttempted
  deriving DecidableEq

/-- The unwinding is done with the record. -/
def CompStatus.settled : CompStatus → Bool
  | compensated | alreadyCompensated | skippedNoHook | skippedNotExecuted => true
  | _ => false

structure CompensationEntry where
  /-- The end of the record's key. -/
  suffix : JsString
  toolCallId : JsString
  toolName : Option JsString
  status : CompStatus
  deriving DecidableEq

structure CompensationReport where
  runId : JsString
  dryRun : Bool
  condemned : Bool
  entries : List CompensationEntry
  deriving DecidableEq

/-- The record of a compensation. -/
inductive CompRecord (V : Type) where
  | compensated (output : V) (at_ : Int)
  | compFailed (error : JsString) (attempts : ℕ)
  | running (startedAt : Int)
  deriving DecidableEq

def COMP_CLAIM_TTL_MS : Int := 30000

/-- The hooks of a tool. -/
structure UnwindHooks where
  recover : Bool
  compensate : Bool

/-- An unwinding, with the tools it is given. -/
structure UnwindCall where
  runId : JsString
  tools : JsString → Option UnwindHooks
  dryRun : Bool

/-- What is read of a run: its tool records in the order they came, and the tool names
    that a record, and the model step of a call, have. -/
structure RunReading (V : Type) where
  tools : List (JsString × Stored V)
  recordTool : JsString → Option JsString
  callTool : JsString → Option JsString

/-! ## Operations -/

variable {V : Type}

/-- The operations of calls and unwindings. -/
inductive UnwindOp (V : Type) where
  | tool (o : ToolOp V)
  | readRun (runId : JsString)
  /-- Claim the tombstone of a run. -/
  | condemn (runId : JsString)
  | comp (o : KvOp JsString (CompRecord V))
  | now
  /-- Ask the provider about the record with this end. -/
  | recover (suffix : JsString)
  | compensate (suffix : JsString)

/-- The answers. -/
abbrev UnwindOp.Res : UnwindOp V → Type
  | tool o => o.Res
  | readRun _ => Except JsString (RunReading V)
  | condemn _ => Except JsString Bool
  | comp o => Except JsString o.Res
  | now => Int
  | recover _ => Probe V
  | compensate _ => Except JsString V

/-- The programs of an unwinding. -/
abbrev UM (V : Type) := ExceptT ToolError (Prog (UnwindOp V) UnwindOp.Res)

/-- An operation that does not throw. -/
def UM.perform (o : UnwindOp V) : UM V o.Res := ExceptT.mk (Except.ok <$> Prog.perform o)

/-- An answer, or what it throws. -/
def UM.orThrow {α : Type} (r : Except JsString α) : UM V α :=
  ExceptT.mk (Prog.pure (r.mapError .rejected))

/-! ## The worklist -/

/-- The record of a call that was executed, or may have been. -/
def ToolRecord.executed : ToolRecord V → Bool
  | .succeeded .. => true
  | r => r.uncertain

/-- A record to undo. -/
structure Work (V : Type) where
  suffix : JsString
  record : ToolRecord V

/-- The records to undo, in the order they came: those that were executed, without the
    copies of records that are shared with other runs. -/
def worklist (runId : JsString) : List (JsString × Stored V) → Except ToolError (List (Work V))
  | [] => .ok []
  | (key, raw) :: tools =>
    match afterPrefix (runId ++ js ":tool:") key with
    | none => worklist runId tools
    | some suffix =>
      match upgradeFormat raw with
      | .error e => .error e
      | .ok record =>
        if raw.mirrorOf.isNone && record.executed then
          (⟨suffix, record⟩ :: ·) <$> worklist runId tools
        else worklist runId tools

/-- The call of a record: the first that it has answered, or what its key says. -/
def Work.toolCallId (w : Work V) : JsString :=
  match w.record with
  | .succeeded _ _ (some (id :: _)) => id
  | _ => w.suffix

/-- The tool in the key of an args-mode record: `^args-(.+)-[0-9a-f]{16}$`. -/
def argsToolName (suffix : JsString) : Option JsString :=
  match afterPrefix (js "args-") suffix with
  | none => none
  | some rest =>
    let name := rest.take (rest.length - 17)
    let hash := rest.drop (rest.length - 16)
    if 18 ≤ rest.length ∧ hash.all isHexLower ∧ rest[rest.length - 17]? = some 0x2D ∧
        !name.any isLineTerminator then some name
    else none

/-- The tool of a record: the record, the model step or the key name it. -/
def Work.toolName (runId : JsString) (reading : RunReading V) (w : Work V) : Option JsString :=
  (reading.recordTool (runKeys.tool runId w.suffix)).or
    ((reading.callTool w.toolCallId).or (argsToolName w.suffix))

/-! ## The unwinding -/

namespace UnwindCall

variable (u : UnwindCall)

def compKey (suffix : JsString) : JsString := u.runId ++ js ":comp:" ++ suffix

/-- What happened: there is an output, or the record is left with a status. -/
def resolve (hooks : Option UnwindHooks) (w : Work V) : UM V (Out V ⊕ CompStatus) :=
  match w.record with
  | .succeeded output _ _ => return .inl output
  | _ => do
    if hooks.any (·.recover) then
      match ← UM.perform (.recover w.suffix) with
      | .done output => return .inl output
      | .notDone => return .inr .skippedNotExecuted
      | .unreadable => return .inr .uncertain
    else return .inr .uncertain

/-- Operate on the record of a compensation. -/
def onComp (o : KvOp JsString (CompRecord V)) : UM V o.Res := do
  UM.orThrow (← UM.perform (.comp o))

/-- Claim the compensation; one that is being done is left alone. -/
def claimComp (ck : JsString) (existing : Option (CompRecord V)) : UM V Bool := do
  match existing with
  | none =>
    let now ← UM.perform .now
    onComp (.putIfAbsent ck (.running now))
  | some (.running startedAt) =>
    let now ← UM.perform .now
    if now - startedAt ≤ COMP_CLAIM_TTL_MS then return false
    else
      let now ← UM.perform .now
      onComp (.put ck (.running now))
      return true
  | some _ =>
    let now ← UM.perform .now
    onComp (.put ck (.running now))
    return true

/-- Run the hook, and record how it went. -/
def runHook (suffix : JsString) (existing : Option (CompRecord V)) : UM V CompStatus :=
  tryCatch
    (do
      let result ← UM.orThrow (← UM.perform (.compensate suffix))
      let now ← UM.perform .now
      onComp (.put (u.compKey suffix) (.compensated result now))
      return .compensated)
    fun error => do
      let attempts := match existing with
        | some (.compFailed _ attempts) => attempts + 1
        | _ => 1
      onComp (.put (u.compKey suffix) (.compFailed error.text attempts))
      return .failed

/-- Undo a call that has taken effect, once. -/
def compensateOnce (suffix : JsString) : UM V CompStatus := do
  let existing ← onComp (.get (u.compKey suffix))
  match existing with
  | some (.compensated ..) => return .alreadyCompensated
  | existing =>
    if u.dryRun then return .wouldCompensate
    else if ← claimComp (u.compKey suffix) existing then u.runHook suffix existing
    else return .busy

/-- What becomes of a record. -/
def unwindOne (hooks : Option UnwindHooks) (w : Work V) : UM V CompStatus := do
  match ← resolve hooks w with
  | .inr status => return status
  | .inl _ =>
    if hooks.any (·.compensate) then u.compensateOnce w.suffix else return .skippedNoHook

/-- The records one by one, up to the first one that fails or is busy. -/
def unwind (reading : RunReading V) : List (Work V) → Bool → UM V (List CompensationEntry)
  | [], _ => return []
  | w :: work, stopped => do
    let toolName := w.toolName u.runId reading
    let hooks := (toolName.filter (· ≠ [])).bind u.tools
    let status ← if stopped then pure .notAttempted else u.unwindOne hooks w
    let rest ← unwind reading work (stopped || status = .busy || status = .failed)
    return ⟨w.suffix, w.toolCallId, toolName, status⟩ :: rest

/-- Unwind a run. -/
def compensateRun : UM V CompensationReport := do
  let reading ← UM.orThrow (← UM.perform (.readRun u.runId))
  let work ← ExceptT.mk (Prog.pure (worklist u.runId reading.tools))
  if !u.dryRun then
    let _ ← UM.perform .now
    let _ ← UM.orThrow (← UM.perform (.condemn u.runId))
  let entries ← u.unwind reading work.reverse false
  return ⟨u.runId, u.dryRun, !u.dryRun, entries⟩

end UnwindCall

/-! ## Together -/

/-- A call of a tool, or an unwinding. -/
inductive UnwindJob where
  | call (c : ToolCall)
  | unwind (u : UnwindCall)

/-- What they return. -/
abbrev JobResult (V : Type) := Except ToolError (Out V) ⊕ Except ToolError CompensationReport

/-- The operations of a call. -/
def ofTool {α : Type} (p : Prog (ToolOp V) ToolOp.Res α) : Prog (UnwindOp V) UnwindOp.Res α :=
  p.lift fun o => Prog.perform (.tool o)

def UnwindJob.prog : UnwindJob → Prog (UnwindOp V) UnwindOp.Res (JobResult V)
  | call c => .inl <$> ofTool c.execute.run
  | unwind u => .inr <$> u.compensateRun.run

/-- The records of the tools, the tombstones and the compensations; and, as a history no
    operation reads, which calls are past their gate, which have read a success of their
    own record, which unwindings have listed their run, and which have condemned it since. -/
structure UnwindWorld (V : Type) where
  tools : ToolWorld V
  condemned : JsString → Bool
  comps : Kv JsString (CompRecord V)
  past : ℕ → Bool
  sawSuccess : ℕ → Bool
  listed : ℕ → Bool
  sealed : ℕ → Bool

/-- What the code outside the model answers. -/
structure UnwindAnswer (V : Type) where
  tool : ToolAnswer V
  /-- The journal throws. -/
  fault : Option JsString
  recordTool : JsString → Option JsString
  callTool : JsString → Option JsString
  now : Int
  probe : Probe V
  result : Except JsString V

/-- A call goes past its gate: it has found its run alive, or claims without a gate. -/
def goesPast (c : ToolCall) (o : ToolOp V) (r : o.Res) : Bool :=
  foundAlive o r || (claims o && !c.sideEffect)

/-- The call reads a success. -/
def seesSuccess : (o : ToolOp V) → o.Res → Bool
  | .rec_ _ (.get _), .ok (some raw) => raw.record.isSucceeded
  | _, _ => false

/-- The keys in the order they came. -/
def firstKeys {A : Type} (log : List (Write JsString A)) : List JsString :=
  log.foldr (fun wr keys => if wr.key ∈ keys then keys else keys ++ [wr.key]) []

theorem mem_firstKeys {A : Type} {log : List (Write JsString A)} {key : JsString} :
    key ∈ firstKeys log ↔ ∃ wr ∈ log, wr.key = key := by
  induction log with
  | nil => simp [firstKeys]
  | cons wr log ih =>
    have hcons : firstKeys (wr :: log) =
      if wr.key ∈ firstKeys log then firstKeys log else firstKeys log ++ [wr.key] := rfl
    rw [hcons, List.exists_mem_cons_iff, ← ih]
    split
    · next hmem =>
      refine ⟨.inr, ?_⟩
      rintro (rfl | h)
      · exact hmem
      · exact h
    · rw [List.mem_append, List.mem_singleton, or_comm, eq_comm]

/-- The tool records of a run. -/
def toolEntries (kv : Kv JsString (Stored V)) (runId : JsString) : List (JsString × Stored V) :=
  (firstKeys kv.log).filterMap fun key =>
    if parseJournalKey key = some (runId, .tool) then (kv.val key).map (key, ·) else none

variable [DecidableEq V]

/-- An operation of a call. The gate asks the journal. -/
def callExec (c : ToolCall) (condemned : JsString → Bool) (i : ℕ) (a : ToolAnswer V) :
    (o : ToolOp V) → ToolWorld V → o.Res × ToolWorld V
  | .ask .compensated, w =>
    match a.fault with
    | some e => (.error e, w)
    | none => (.ok (condemned c.ctx.runId), w)
  | o, w => toolMachine.exec i a o w

/-- An operation of a call, with its history. -/
def callStep (c : ToolCall) (i : ℕ) (a : ToolAnswer V) (o : ToolOp V) (w : UnwindWorld V) :
    o.Res × UnwindWorld V :=
  let (r, tools) := callExec c w.condemned i a o w.tools
  (r, { w with
    tools := tools
    past := update w.past i (w.past i || goesPast c o r)
    sawSuccess := update w.sawSuccess i (w.sawSuccess i || seesSuccess o r) })

/-- An operation, unless the journal throws. -/
def orFault {α W : Type} (a : Option JsString) (w : W) (x : α × W) : Except JsString α × W :=
  match a with
  | some e => (.error e, w)
  | none => (.ok x.1, x.2)

/-- The journal with atomic operations. -/
def unwindMachine (jobs : ℕ → UnwindJob) :
    Machine (UnwindOp V) UnwindOp.Res (UnwindWorld V) (UnwindAnswer V) ℕ where
  exec i a
    | .tool o, w =>
      match jobs i with
      | .call c => callStep c i a.tool o w
      | .unwind _ =>
        let (r, tools) := toolMachine.exec i a.tool o w.tools
        (r, { w with tools := tools })
    | .readRun runId, w =>
      orFault a.fault w (⟨toolEntries w.tools.recs runId, a.recordTool, a.callTool⟩,
        { w with listed := update w.listed i true })
    | .condemn runId, w =>
      orFault a.fault w (!w.condemned runId,
        { w with
          condemned := update w.condemned runId true
          sealed := update w.sealed i true })
    | .comp o, w =>
      let (r, comps) := w.comps.exec i w.tools.clock o
      orFault a.fault w (r, { w with comps := comps })
    | .now, w => (a.now, w)
    | .recover _, w => (a.probe, w)
    | .compensate _, w => (a.result, w)
  env n w := { w with tools := toolMachine.env n w.tools }

/-- Calls and unwindings, before any of them has run: the history is empty. -/
def unwindStart (w : UnwindWorld V) (jobs : ℕ → UnwindJob) :
    Conf (UnwindOp V) UnwindOp.Res (JobResult V) (UnwindWorld V) :=
  let none : ℕ → Bool := fun _ => false
  ⟨{ w with past := none, sawSuccess := none, listed := none, sealed := none },
    fun i => (jobs i).prog⟩

end Gnldev.Durable
