import Gnldev.Durable.Tool.Record

/-!
# Durable tools

The `execute` of a durable tool (`durable-tool.ts`): a call looks for a record of its
work, passes the gates that can stop it (confirmation, guard, duplicates, a condemned
run, similar work, tainted context, limits), claims its key, claims the marker of its
arguments, runs the tool and records the outcome.

Every `await` is an operation of its own, and every operation can throw. The records,
the markers and the journal's clock are the model's; the tool itself, its hooks, the
guard, and the parts of the journal that only inform people or other gates are outside:
they answer anything (`Ask`), and a write to them is a `note`.
-/

namespace Gnldev.Durable

variable {V : Type}

/-! ## Operations -/

/-- Which line of the source reads or writes a record. -/
inductive Site (V : Type) where
  /-- The snapshot of a replayed run, or the first read of the call. -/
  | first
  | claim
  /-- The read after a lost claim, or while polling. -/
  | again
  /-- The read before a takeover, and the takeover. -/
  | takeover
  /-- A terminal record (`writeToolTerminal`). -/
  | terminal
  /-- A success that the provider has told of. -/
  | recovered
  /-- A call adds itself to a record it consumes, which it has read as `base`. -/
  | track (base : ToolRecord V)
  /-- A copy under the run's own keys. -/
  | mirror

/-- What `recover` answers; anything but an answer is as if it had thrown. -/
inductive Probe (V : Type) where
  | done (output : Out V)
  | notDone
  | unreadable

/-- What the guard decides. -/
inductive Decision where
  | allow | deny | requireApproval
  deriving DecidableEq

/-- What the look for similar work says. -/
inductive Similar where
  | ask | judgedSame | judgedOther | none
  deriving DecidableEq

/-- What the limits say to a call. -/
inductive Gate where
  | reflect | loop | maxToolCalls
  deriving DecidableEq

/-- The questions to code outside. -/
inductive Ask where
  | guard
  /-- Whether untrusted content has entered the run. -/
  | tainted
  /-- Whether the run has been condemned. -/
  | compensated
  /-- Whether the caller may use the record of a cross-run call. -/
  | ownerAllows
  /-- Whether the confirmation is asked for repeated work. -/
  | repeatSignal
  /-- The first call of the same work in another channel. -/
  | xid
  | similar
  /-- Whether there is something to report about a scan, or an embedding. -/
  | report
  | toolGate
  | recover
  | lookup
  /-- What the processors make of the output. -/
  | processed
  /-- The limits are told how the call has ended (`recordToolOutcome`). -/
  | outcome

/-- Their answers. -/
abbrev Ask.Res (V : Type) : Ask → Type
  | guard => Decision
  | tainted => Bool
  | compensated => Bool
  | ownerAllows => Bool
  | repeatSignal => Bool
  | xid => Option (JsString × Int)
  | similar => Similar
  | report => Bool
  | toolGate => Option Gate
  | recover => Probe V
  | lookup => Option (Out V)
  | processed => Out V
  | outcome => Unit

/-- The operations of a call. -/
inductive ToolOp (V : Type) where
  | rec_ (site : Site V) (o : KvOp JsString (Stored V))
  | dup (o : KvOp JsString DupMarker)
  /-- Claim the right to deliver a nudge. -/
  | nudge (key : JsString)
  | now
  | ask (q : Ask)
  | note
  /-- The tool starts. -/
  | start
  /-- The tool returns. -/
  | finish

/-- The answers of operations that do not throw. -/
abbrev ToolOp.Ans : ToolOp V → Type
  | rec_ _ o => o.Res
  | dup o => o.Res
  | nudge _ => Bool
  | now => Int
  | ask q => q.Res V
  | note => Unit
  | start => Unit
  | finish => Out V

/-- The answers. -/
abbrev ToolOp.Res (o : ToolOp V) : Type := Except JsString o.Ans

/-- The programs of a call. -/
abbrev TM (V : Type) := ExceptT ToolError (Prog (ToolOp V) ToolOp.Res)

/-- An operation, whose rejection is thrown. -/
def await_ (o : ToolOp V) : TM V o.Ans :=
  ExceptT.mk (Prog.op o fun r => Prog.pure (r.mapError .rejected))

/-- What is thrown without an operation. -/
def orThrow {α : Type} (x : Except ToolError α) : TM V α := ExceptT.mk (Prog.pure x)

/-- A write outside whose failure is passed over. -/
def bestEffort (p : TM V Unit) : TM V Unit := tryCatch p fun _ => pure ()

/-- Read a record. -/
def readRecord (site : Site V) (key : JsString) : TM V (Option (ToolRecord V)) := do
  match ← await_ (.rec_ site (.get key)) with
  | none => return none
  | some raw => return some (← orThrow (upgradeFormat raw))

namespace ToolCall

variable (c : ToolCall)

/-- Return the sentinel of an error to the loop, and throw it to anybody else. -/
def blockedOrThrow (err : ToolError) : TM V (Out V) :=
  if c.ctx.blockedAsSentinel then return .blocked err else throw err

/-! ## Writing records -/

/-- Copy a record under the run's keys, if it is not there itself. -/
def mirrorUnderRun (key : JsString) (record : ToolRecord V) : TM V Unit :=
  if key.startsWith (c.ctx.runId ++ js ":") then return ()
  else if c.ctx.noApprovals then return ()
  else bestEffort (await_ (.rec_ .mirror (.put (runKeys.tool c.ctx.runId c.toolCallId)
    { stampFormat record with mirrorOf := some key })))

/-- Complete the marker after a success. -/
def finalizeMarker (dupKey : JsString) : TM V Unit := do
  let success : DupMarker := ⟨c.toolCallId, ← await_ .now, false, false, false⟩
  if ← await_ (.dup (.putIfAbsent dupKey success)) then return ()
  else
    match ← await_ (.dup (.get dupKey)) with
    | none => return ()
    | some cur =>
      -- Our own claim, or a slot given back; another call's completed marker stays.
      if cur.released || (cur.inFlight && cur.firstToolCallId = c.toolCallId) then
        let _ ← await_ (.dup (.putIfMatch dupKey cur success))

/-- The records that name the call they answer. -/
def stamped (record : ToolRecord V) : ToolRecord V := record.withResolved [c.toolCallId]

/-- The marker of a success. -/
def markSuccess (record : ToolRecord V) (dupKey : Option JsString) : TM V Unit :=
  match record, dupKey with
  | .succeeded .., some dupKey => c.finalizeMarker dupKey
  | _, _ => return ()

/-- What other channels, and later similar calls, are told of a success; a failure is passed over. -/
def informSuccess (record : ToolRecord V) : TM V Unit :=
  match record with
  | .succeeded .. => do
    if c.xidPlan then bestEffort (await_ .note) else pure ()
    if c.semPlan then
      bestEffort do
        if ← await_ (.ask .report) then await_ .note else pure ()
    else pure ()
  | _ => return ()

/-- What goes with a terminal record: its copy, of a success its marker, the limits. -/
def afterTerminal (key : JsString) (record : ToolRecord V) (dupKey : Option JsString) :
    TM V Unit := do
  c.mirrorUnderRun key (c.stamped record)
  c.markSuccess record dupKey
  c.informSuccess record
  if c.ctx.limits.isSome then await_ (.ask .outcome) else pure ()

/-- Write a terminal record, and what goes with it. -/
def writeToolTerminal (site : Site V) (key : JsString) (record : ToolRecord V)
    (dupKey : Option JsString) : TM V Unit := do
  await_ (.rec_ site (.put key (stampFormat (c.stamped record))))
  c.afterTerminal key record dupKey

/-- Add this call to the calls a final record has answered. -/
def trackResolvedToolCallId (key : JsString) (record : ToolRecord V) : TM V (ToolRecord V) :=
  if record.final.isNone then return record
  else if c.toolCallId ∈ record.resolved then return record
  else do
    let updated := record.withResolved (record.resolved ++ [c.toolCallId])
    await_ (.rec_ (.track record) (.put key (stampFormat updated)))
    return updated

/-- A suspension, as the question of this call. -/
def ownSuspension : Out V → Out V
  | .suspend s => .suspend { s with toolCallId := c.toolCallId }
  | out => out

/-- Answer a call with a record it did not write. -/
def consumeExistingRecord (key : JsString) (record : ToolRecord V) (output : Out V) :
    TM V (Out V) := do
  let latest ← c.trackResolvedToolCallId key record
  match latest with
  | .suspended _ =>
    c.mirrorUnderRun key (.suspended (c.ownSuspension output))
    return c.ownSuspension output
  | _ =>
    c.mirrorUnderRun key latest
    return output

/-! ## The gates -/

/-- Whose a cross-run record is. -/
def assertCrossRunOwner : TM V Unit := do
  if c.owned then
    if ← await_ (.ask .ownerAllows) then return () else throw .ownerMismatch

/-- The first read: from the snapshot of a replayed run if it has the key. -/
def ctxGet (key : JsString) (cached : Option (Stored V)) : TM V (Option (ToolRecord V)) := do
  let raw ← match cached with
    | some raw => pure (some raw)
    | none => await_ (.rec_ .first (.get key))
  match raw with
  | none => return none
  | some raw =>
    if isVersionedKey key then return some (← orThrow (upgradeFormat raw))
    else return some raw.record

/-- Write a terminal record that is no success, and return its output. -/
def stopWith (key : JsString) (record : ToolRecord V) (output : Out V) : TM V (Option (Out V)) := do
  c.writeToolTerminal .terminal key record none
  return some output

/-- Suspend the call with a question. -/
def suspendWith (key : JsString) (kind : SuspendKind) : TM V (Option (Out V)) :=
  c.stopWith key (.suspended (.suspend ⟨c.toolCallId, kind, []⟩))
    (.suspend ⟨c.toolCallId, kind, []⟩)

def denyWith (key : JsString) (by_ : Denial) : TM V (Option (Out V)) :=
  c.stopWith key (.denied (.denied by_) none) (.denied by_)

def reflectWith (key : JsString) (why : Nudge) : TM V (Option (Out V)) :=
  c.stopWith key (.reflected (.reflected why) (some c.hash) none) (.reflected why)

/-- The answer to a suspended call. -/
def suspendedGate (key : JsString) (record : ToolRecord V) (output : Out V) :
    TM V (Option (Out V)) := do
  let approved := c.approved (some record)
  if approved = some false then c.denyWith key .human
  else if approved ≠ some true ∧ ¬c.nestedAnswered record then
    return some (← c.consumeExistingRecord key record output)
  else
    if !record.isProxySuspend then
      -- The trace of the human's decision, and the end of the question about similar work.
      bestEffort (do let _ ← await_ .now; await_ .note)
      if c.ctx.threadId.isSome then bestEffort (do let _ ← await_ .now; await_ .note)
    return none

/-- The tool's own question, before its first execution. -/
def confirmGate (key : JsString) (approved : Option Bool) : TM V (Option (Out V)) := do
  if approved = some false then c.denyWith key .confirm
  else
    if c.ctx.threadId.isSome then bestEffort (await_ .note)
    if ← await_ (.ask .repeatSignal) then await_ .note
    c.suspendWith key .confirm

/-- The general policy. -/
def guardGate (key : JsString) (approved : Option Bool) : TM V (Option (Out V)) := do
  let _ ← await_ (.ask .tainted)
  match ← await_ (.ask .guard) with
  | .deny => c.denyWith key .policy
  | .requireApproval =>
    if approved = some false then c.denyWith key .policy
    else if approved ≠ some true then c.suspendWith key .guard
    else return none
  | .allow => return none

/-- The gates on a record, a first call, or any other call. -/
def policyGate (key : JsString) (record : Option (ToolRecord V)) : TM V (Option (Out V)) :=
  let approved := c.approved record
  match record with
  | some (.suspended output) => c.suspendedGate key (.suspended output) output
  | record =>
    if record.isNone ∧ c.tool.confirm ∧ approved ≠ some true then c.confirmGate key approved
    else if c.ctx.guard then c.guardGate key approved
    else return none

/-- The marker that speaks for completed work: the call's own, or one of another channel. -/
def dupMarker (dupKey : JsString) : TM V (Option (DupMarker × Bool)) := do
  let marker ← await_ (.dup (.get dupKey))
  let found ← match marker with
    | some m => pure (some (m, false))
    | none =>
      if c.xidPlan then
        match ← await_ (.ask .xid) with
        | some (first, at_) =>
          let _ ← bestEffort (do let _ ← await_ .now)
          pure (some (⟨first, at_, false, false, false⟩, true))
        | none => pure none
      else pure none
  match found, c.dupCfg.ttlMs with
  | some (m, cross), some ttlMs =>
    let now ← await_ .now
    if now - m.at_ > ttlMs then return none else return some (m, cross)
  | found, _ => return found

/-- Whether the call is the one to nudge: it claims the nudge, and marks the marker. -/
def claimNudge (dupKey : JsString) (marker : DupMarker) (cross : Bool) : TM V Bool := do
  if c.dupCfg.action = .reflect ∧ !marker.nudged ∧ !cross then
    let won ← await_ (.nudge (runKeys.proc c.ctx.runId
      (js "dupnudge-" ++ c.tool.name ++ js "-" ++ c.hash)))
    await_ (.dup (.put dupKey { marker with nudged := true }))
    return won
  else return false

/-- The arguments have been executed before, by the marker's call. -/
def duplicateOf (key dupKey : JsString) (marker : DupMarker) (cross : Bool) :
    TM V (Option (Out V)) := do
  let nudgeWon ← c.claimNudge dupKey marker cross
  match c.dupCfg.action with
  | .block => do
    await_ .note
    return some (.limitExceeded .duplicateSideEffect)
  | .reflect =>
    if marker.nudged || !nudgeWon then do
      await_ .note
      return some (.limitExceeded .duplicateSideEffect)
    else do
      await_ .note
      c.reflectWith key .duplicate
  | .skip => do
    await_ .note
    c.stopWith key (.denied (.skipped marker.firstToolCallId) none)
      (.skipped marker.firstToolCallId)
  | .suspend => do
    let _ ← await_ .now
    await_ .note
    c.suspendWith key .duplicate
  | .warn => do
    await_ .note
    return none
  | .off => return none

/-- The gate against repeated side effects. -/
def duplicateGate (key : JsString) (dupKey : Option JsString) (approved : Option Bool) :
    TM V (Option (Out V)) := do
  match dupKey with
  | none => return none
  | some dupKey =>
    if approved = some true then return none
    else
      match ← c.dupMarker dupKey with
      | none => return none
      | some (marker, cross) =>
        if marker.completed then c.duplicateOf key dupKey marker cross else return none

/-- A condemned run has no more side effects. -/
def compensatedGate : TM V (Option (Out V)) := do
  if c.sideEffect then
    if ← await_ (.ask .compensated) then return some (← c.blockedOrThrow .compensatedRun)
    else return none
  else return none

/-- The gate against similar work, for a call without a record. -/
def semanticGate (key : JsString) (record : Option (ToolRecord V)) (approved : Option Bool) :
    TM V (Option (Out V)) := do
  if c.dupCfg.semantic ∧ c.tool.semanticIdentity ∧ c.sideEffect ∧ c.ctx.threadId.isSome ∧
      !c.identityUnusable ∧ c.describeThrows then
    bestEffort (await_ .note)
  if record.isNone ∧ c.semPlan ∧ approved ≠ some true then
    match ← await_ (.ask .similar) with
    | .ask => do
      await_ .note
      c.suspendWith key .semantic
    | .judgedSame => do
      await_ .note
      c.suspendWith key .semantic
    | .judgedOther => do
      await_ .note
      if ← await_ (.ask .report) then await_ .note
      return none
    | .none => do
      if ← await_ (.ask .report) then await_ .note
      return none
  else return none

/-- The gate against side effects after untrusted content. -/
def taintGate (key : JsString) (approved : Option Bool) : TM V (Option (Out V)) := do
  let action := (c.ctx.limits.bind (·.taintedSideEffects)).getD .warn
  if c.sideEffect ∧ approved ≠ some true ∧ action ≠ .off then
    if ← await_ (.ask .tainted) then
      match action with
      | .block => do
        await_ .note
        return some (.limitExceeded .taintedSideEffect)
      | .suspend => do
        await_ .note
        c.suspendWith key .taint
      | .reflect =>
        if ← await_ (.nudge (runKeys.proc c.ctx.runId
            (js "taintnudge-" ++ c.tool.name ++ js "-" ++ c.hash))) then do
          await_ .note
          c.reflectWith key .taint
        else do
          await_ .note
          return none
      | _ => do
        await_ .note
        return none
    else return none
  else return none

/-- Loop detection and the maximum of calls. -/
def limitsGate (key : JsString) : TM V (Option (Out V)) := do
  if c.ctx.limits.isSome then
    match ← await_ (.ask .toolGate) with
    | none => return none
    | some .reflect => do
      await_ .note
      c.reflectWith key .loop
    | some .loop => do
      await_ .note
      return some (.limitExceeded .loop)
    | some .maxToolCalls => do
      await_ .note
      return some (.limitExceeded .maxToolCalls)
  else return none

/-! ## The claim -/

/-- How the claim ends: the call returns, or it has won, after it has seen a record. -/
inductive Claimed (V : Type) where
  | out (output : Out V)
  | won (record : Option (ToolRecord V))

/-- A claim has been lost to someone: consume the record there is, give up, or go on. -/
def lostTo (key : JsString) (record : Option (ToolRecord V)) (again : TM V (Claimed V)) :
    TM V (Claimed V) :=
  match record.bind fun r => r.settled.map (r, ·) with
  | some (r, output) => do return .out (← c.consumeExistingRecord key r output)
  | none =>
    if c.argsMode then again else do return .out (← c.blockedOrThrow .runBusy)

/-- Ask the provider whether the call in doubt has taken effect. The second answer says
    whether it could not tell. -/
def tryRecover (key : JsString) (dupKey : Option JsString) : TM V (Option (Out V) × Bool) :=
  tryCatch
    (do
      match ← await_ (.ask .recover) with
      | .done output => do
        c.writeToolTerminal .recovered key (.succeeded output (some c.hash) none) dupKey
        if c.tool.untrusted then await_ .note
        return (some output, false)
      | .notDone => return (none, false)
      | .unreadable => throw (.rejected []))
    fun _ => return (none, true)

/-- Why a record in doubt is not executed again. -/
def ladder (approved : Option Bool) (recovered : Bool) (record : ToolRecord V) :
    Option ToolError :=
  if record.uncertain then
    if c.sideEffect ∧ approved ≠ some true ∧ !recovered then some .sideEffectRetryBlocked
    else if c.maxRetries ≤ record.attempts then some .retryLimitExceeded
    else none
  else none

/-- The record the attempts are counted from after the read before a takeover. -/
def laterOf (record : ToolRecord V) (before : Option (ToolRecord V)) : ToolRecord V :=
  match before with
  | some r => if r.uncertain then r else record
  | none => record

/-- Take over a record by swapping it, as it is read again, for a claim. -/
def takeOver (key : JsString) (record : ToolRecord V)
    (again : Option (ToolRecord V) → TM V (Claimed V)) : TM V (Claimed V) := do
  let rawBefore ← await_ (.rec_ .takeover (.get key))
  let before ← match rawBefore with
    | none => pure none
    | some raw => some <$> orThrow (upgradeFormat raw)
  match before.bind fun r => r.final.map (r, ·) with
  | some (r, output) => return .out (← c.consumeExistingRecord key r output)
  | none =>
    let now ← await_ .now
    let prior := (before.map (·.attempts)).getD 0
    let took ← match rawBefore with
      | none => pure false
      | some raw => await_ (.rec_ .takeover (.putIfMatch key raw
          (stampFormat (.running now (some (prior + 1))))))
    if took then return .won (some (laterOf record before))
    else
      let record ← readRecord .again key
      c.lostTo key record (again record)

/-- The record is a claim that is not stale yet. -/
def live (now : Int) : ToolRecord V → Bool
  | .running startedAt _ => now - startedAt ≤ c.claimTtl
  | _ => false

/-- The rounds of claiming: the first claim, polling while another call's claim is live,
    and the ladder to a takeover. -/
def claimLoop (key : JsString) (dupKey : Option JsString) (approved : Option Bool) :
    ℕ → Option (ToolRecord V) → Bool → TM V (Claimed V)
  | 0, _, _ => throw .stopped
  | n + 1, none, recoverUnavailable => do
    let now ← await_ .now
    let won ← await_ (.rec_ .claim (.putIfAbsent key (stampFormat (.running now (some 1)))))
    if won then
      if c.owned then await_ .note
      return .won none
    else
      let record ← readRecord .again key
      if record.isSome then c.assertCrossRunOwner
      c.lostTo key record (claimLoop key dupKey approved n record recoverUnavailable)
  | n + 1, some record, recoverUnavailable => do
    let now ← await_ .now
    if c.live now record then
      if c.argsMode then
        let record ← readRecord .again key
        c.lostTo key record (claimLoop key dupKey approved n record recoverUnavailable)
      else return .out (← c.blockedOrThrow .runBusy)
    else
      let (recovered, unavailable) ←
        if c.sideEffect ∧ record.uncertain ∧ approved ≠ some true ∧ !recoverUnavailable ∧
            c.tool.recover then c.tryRecover key dupKey
        else pure (none, recoverUnavailable)
      match recovered with
      | some output => return .out output
      | none =>
        match c.ladder approved (!unavailable && c.tool.recover) record with
        | some err => return .out (← c.blockedOrThrow err)
        | none => c.takeOver key record fun record =>
            claimLoop key dupKey approved n record unavailable

/-! ## The execution -/

/-- Claim the marker: it is free, given back, or its call has died. -/
def claimDupMarker (dupKey : JsString) : TM V Bool := do
  let next : DupMarker := ⟨c.toolCallId, ← await_ .now, false, true, false⟩
  match ← await_ (.dup (.get dupKey)) with
  | none => await_ (.dup (.putIfAbsent dupKey next))
  | some cur =>
    let now ← await_ .now
    let windowExpired := c.dupCfg.ttlMs.any fun ttlMs => !cur.inFlight && now - cur.at_ > ttlMs
    if cur.released || windowExpired || (cur.inFlight && now - cur.at_ > c.claimTtl) then
      await_ (.dup (.putIfMatch dupKey cur next))
    else return false

/-- Claim the marker before the execution: whether it is ours, or the sentinel of a call
    that must not run beside another one. -/
def markerGate (dupKey : Option JsString) (approved : Option Bool) : TM V (Out V ⊕ Bool) := do
  match dupKey with
  | none => return .inr false
  | some dupKey =>
    if approved = some true then return .inr false
    else if ← c.claimDupMarker dupKey then return .inr true
    else if c.dupCfg.action ≠ .warn then
      await_ .note
      return .inl (.limitExceeded .duplicateSideEffect)
    else return .inr false

/-- Look whether the effect exists already. -/
def lookupGate (key : JsString) (dupKey : Option JsString) (record : Option (ToolRecord V)) :
    TM V (Option (Out V)) := do
  if c.tool.lookup ∧ c.sideEffect ∧ record.all (·.isSuspended) then
    tryCatch
      (do
        match ← await_ (.ask .lookup) with
        | some output => do
          c.writeToolTerminal .terminal key (.succeeded output (some c.hash) none) dupKey
          return some output
        | none => return none)
      fun _ => return none
  else return none

/-- Run the tool, and record its outcome. -/
def runTool (key : JsString) (dupKey : Option JsString) (record : Option (ToolRecord V))
    (claimedDup : Bool) : TM V (Out V) :=
  tryCatch
    (do
      await_ .start
      let output ← await_ .finish
      let output ← if c.ctx.processors then await_ (.ask .processed) else pure output
      match output with
      | .suspend s => do
        -- A question from inside the tool is no success.
        c.writeToolTerminal .terminal key (.suspended (.suspend s)) none
        return .suspend s
      | output => do
        c.writeToolTerminal .terminal key (.succeeded output (some c.hash) none) dupKey
        return output)
    fun error => do
      let prior := (record.map (·.attempts)).getD 0
      c.writeToolTerminal .terminal key (.failed error.text (some (prior + 1)) c.sideEffect) none
      match dupKey with
      | some dupKey =>
        if claimedDup then
          let now ← await_ .now
          await_ (.dup (.put dupKey ⟨c.toolCallId, now, false, false, true⟩))
      | none => pure ()
      throw error

/-- After the claim: the marker, the approval, the lookup, the tool. -/
def afterClaim (key : JsString) (dupKey : Option JsString) (approved : Option Bool)
    (record : Option (ToolRecord V)) : TM V (Out V) := do
  match ← c.markerGate dupKey approved with
  | .inl output => return output
  | .inr claimedDup =>
    if c.ctx.limits.any (·.approvalPerAttempt) ∧ approved = some true ∧ c.sideEffect then
      await_ .note
    match ← c.lookupGate key dupKey record with
    | some output => return output
    | none => c.runTool key dupKey record claimedDup

/-- The first of the gates that stops the call answers it. -/
def gates : List (TM V (Option (Out V))) → TM V (Out V) → TM V (Out V)
  | [], next => next
  | g :: gs, next => do
    match ← g with
    | some output => return output
    | none => gates gs next

/-- The claim, and what comes after it. -/
def claimAndRun (key : JsString) (dupKey : Option JsString) (record : Option (ToolRecord V)) :
    TM V (Out V) := do
  let approved := c.approved record
  match ← c.claimLoop key dupKey approved c.rounds record false with
  | .out output => return output
  | .won record => c.afterClaim key dupKey approved record

/-- A call whose record is final is answered by it; in strict replay the arguments must be
    those of the record. -/
def replayRecord (key : JsString) (record : ToolRecord V) (output : Out V) : TM V (Out V) :=
  match record with
  | .succeeded _ (some hash) _ =>
    if c.hash ≠ hash ∧ c.ctx.strict then throw .divergence
    else c.consumeExistingRecord key record output
  | _ => c.consumeExistingRecord key record output

/-- A call that is not answered by its record. -/
def executeFresh (key : JsString) (record : Option (ToolRecord V)) : TM V (Out V) := do
  let approved := c.approved record
  if c.tool.untrusted then await_ .note
  match ← c.policyGate key record with
  | some output => return output
  | none =>
    if c.tool.semanticIdentity ∧ c.sideEffect ∧ c.identityUnusable then bestEffort (await_ .note)
    let dupKey ← orThrow c.dupKey
    gates [c.duplicateGate key dupKey approved, c.compensatedGate,
        c.semanticGate key record approved, c.taintGate key approved, c.limitsGate key]
      (c.claimAndRun key dupKey record)

/-- The `execute` of a durable tool. -/
def execute : TM V (Out V) := do
  let key ← orThrow c.key
  let cached ← if c.ctx.replayCache then await_ (.rec_ .first (.get key)) else pure none
  let record ← ctxGet key cached
  if record.isSome then c.assertCrossRunOwner
  match record.bind fun r => r.final.map (r, ·) with
  | some (r, output) => c.replayRecord key r output
  | none => c.executeFresh key record

end ToolCall

/-! ## The machine -/

/-- What happened to the records. No operation reads these events. -/
inductive ToolEvent (V : Type) where
  /-- The call `i` won a key, with a claim of the time `startedAt`. -/
  | won (key : JsString) (i : ℕ) (startedAt : Int)
  /-- The call `i` put a record. -/
  | wrote (key : JsString) (i : ℕ) (record : ToolRecord V)
  /-- The call `i` won a marker, with a claim of the time `at_`. -/
  | marked (key : JsString) (i : ℕ) (at_ : Int)
  /-- The tool of the call `i` started, and returned, threw, or was given up waiting for. -/
  | began (i : ℕ)
  | ended (i : ℕ)
  deriving DecidableEq

/-- The records, the markers and the nudges, the journal's clock, and what happened, the
    latest first. -/
structure ToolWorld (V : Type) where
  clock : Int
  recs : Kv JsString (Stored V)
  dups : Kv JsString DupMarker
  nudges : Kv JsString Unit
  trace : List (ToolEvent V)

/-- What an operation of the call `i` makes happen. -/
def ToolOp.events (i : ℕ) : (o : ToolOp V) → o.Ans → List (ToolEvent V)
  | .rec_ _ (.putIfAbsent k ⟨_, .running startedAt _, _⟩), won =>
    if won then [.won k i startedAt] else []
  | .rec_ _ (.putIfMatch k _ ⟨_, .running startedAt _, _⟩), won =>
    if won then [.won k i startedAt] else []
  | .rec_ _ (.put k v), _ => [.wrote k i v.record]
  | .dup (.putIfAbsent k m), won => if won && m.inFlight then [.marked k i m.at_] else []
  | .dup (.putIfMatch k _ m), won => if won && m.inFlight then [.marked k i m.at_] else []
  | .finish, _ => [.ended i]
  | _, _ => []

/-- What the code outside the model answers: to its questions, for the tool, and whether
    the operation throws, without effect. -/
structure ToolAnswer (V : Type) where
  ask : (q : Ask) → q.Res V
  output : Out V
  fault : Option JsString

variable [DecidableEq V]

/-- An operation that does not throw. -/
def toolExec (i : ℕ) (a : ToolAnswer V) : (o : ToolOp V) → ToolWorld V → o.Ans × ToolWorld V
  | .rec_ _ o, w => let (r, s) := w.recs.exec i w.clock o; (r, { w with recs := s })
  | .dup o, w => let (r, s) := w.dups.exec i w.clock o; (r, { w with dups := s })
  | .nudge k, w =>
    let (r, s) := w.nudges.exec i w.clock (.putIfAbsent k ()); (r, { w with nudges := s })
  | .now, w => (w.clock, w)
  | .ask q, w => (a.ask q, w)
  | .note, w => ((), w)
  | .start, w => ((), w)
  | .finish, w => (a.output, w)

/-- A journal with atomic operations and one clock, which does not go back. A tool has
    started also when it throws at once. -/
def toolMachine : Machine (ToolOp V) ToolOp.Res (ToolWorld V) (ToolAnswer V) ℕ where
  exec i a o w :=
    match o, a.fault with
    | .start, _ => (.ok (), { w with trace := .began i :: w.trace })
    | .finish, some e => (.error e, { w with trace := .ended i :: w.trace })
    | _, some e => (.error e, w)
    | o, none =>
      let (r, w') := toolExec i a o w
      (.ok r, { w' with trace := o.events i r ++ w.trace })
  env n w := { w with clock := w.clock + n }

/-- The calls before any of them has run, on any records. -/
def toolStart (calls : ℕ → ToolCall) (w : ToolWorld V) :
    Conf (ToolOp V) ToolOp.Res (Except ToolError (Out V)) (ToolWorld V) :=
  ⟨w, fun i => (calls i).execute.run⟩

/-! ## Plain calls

The simplest tool, run and answers; a scenario changes in them what it is about. -/

/-- A tool with side effects and without any hook. -/
def plainTool : Tool :=
  ⟨js "pay", none, false, none, none, false, false, false, false, none, none, none, none, false⟩

/-- A run in a thread, without a guard, limits or approvals. -/
def plainCtx (runId : JsString) : Ctx :=
  ⟨runId, some (js "t"), false, fun _ => none, false, false, false, false, true, none, none, none,
    false⟩

def plainCall (runId toolCallId : JsString) : ToolCall :=
  ⟨plainTool, plainCtx runId, toolCallId, js "h", false, false, 2⟩

/-- The call `0` is `a`, the call `1` is `b`; the others are as the first. -/
def twoCalls (a b : ToolCall) (i : ℕ) : ToolCall := if i = 1 then b else a

theorem twoCalls_all {a b : ToolCall} {R : ToolCall → Prop} (ha : R a) (hb : R b) (i : ℕ) :
    R (twoCalls a b i) := by
  rw [twoCalls]
  split
  · exact hb
  · exact ha

/-- The tool returns `output`, and nothing outside stops a call. -/
def plainAnswer (output : Out V) : ToolAnswer V where
  ask
    | .guard => .allow
    | .tainted => false
    | .compensated => false
    | .ownerAllows => true
    | .repeatSignal => false
    | .xid => none
    | .similar => .none
    | .report => false
    | .toolGate => none
    | .recover => .unreadable
    | .lookup => none
    | .processed => output
    | .outcome => ()
  output := output
  fault := none

/-- The call `i` makes `n` operations, and its tool returns `output`. -/
def plainSteps (output : Out V) (i n : ℕ) : List (Move (ToolAnswer V) ℕ) :=
  List.replicate n (.run i (plainAnswer output))

/-- An empty journal. -/
def emptyWorld : ToolWorld V := ⟨0, .empty, .empty, .empty, []⟩

end Gnldev.Durable
