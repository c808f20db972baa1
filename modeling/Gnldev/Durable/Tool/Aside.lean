import Gnldev.Durable.Tool.Execute
import Gnldev.Lib.Exceptions

/-!
# What a call does beside its tool

A call performs many operations that neither start its tool nor claim its key: the gates ask, put
marks and records, and do not look at the key again (`Aside .gates`); a record is read and consumed
(`Aside .reads`). Only the rounds of claiming take the key (`Aside .claims`), and only the last part of
the call, `runTool`, starts the tool.

The statements follow the text. A protocol about looks, about claims or about the tool takes what it
needs of these parts from here.
-/

namespace Gnldev.Durable

open Prog ToolCall

variable {V : Type}

/-- The parts of a call: those that do not look at the key, those that read it, and those that
    take it. -/
inductive Part where
  | gates | reads | claims

/-- The operation does not start the tool or end it, reads and takes no key unless that is the part for
    it, and what it puts under a key that is not the call's is marked as a copy. -/
def Aside (m : Part) : ToolOp V → Prop
  | .rec_ .mirror (.put _ v) => v.mirrorOf.isSome
  | .rec_ .recovered (.put _ _) => m = .claims
  | .rec_ (.track _) (.put _ _) => m ≠ .gates
  | .rec_ _ (.get _) => m ≠ .gates
  | .rec_ _ (.putIfAbsent _ _) => m = .claims
  | .rec_ _ (.putIfMatch _ _ _) => m = .claims
  | .start => False
  | .finish => False
  | _ => True

/-- The program performs only such operations. -/
def KeepsAside {α : Type} (m : Part) (p : TM V α) : Prop := p.run.Only (Aside m)

section Rules

variable {c : ToolCall} {m : Part} {α β : Type}

theorem aside_pure (a : α) : KeepsAside m (pure a : TM V α) := trivial

theorem aside_throw (e : ToolError) : KeepsAside m (throw e : TM V α) := trivial

theorem KeepsAside.bind {p : TM V α} {f : α → TM V β} (h : KeepsAside m p)
    (hf : ∀ a, KeepsAside m (f a)) : KeepsAside m (p >>= f) := Only.tryBind h hf

theorem KeepsAside.tryCatch {p : TM V α} {f : ToolError → TM V α} (h : KeepsAside m p)
    (hf : ∀ e, KeepsAside m (f e)) : KeepsAside m (tryCatch p f) := by
  refine Only.bind h fun r => ?_
  rcases r with e | a
  · exact hf e
  · exact aside_pure a

theorem KeepsAside.ite {p : Prop} [Decidable p] {a b : TM V α} (ha : KeepsAside m a)
    (hb : KeepsAside m b) : KeepsAside m (if p then a else b) := by
  split
  · exact ha
  · exact hb

theorem KeepsAside.when {b : Prop} [Decidable b] {p : TM V α} {q : TM V β} (hp : KeepsAside m p)
    (hq : KeepsAside m q) : KeepsAside m (if b then p >>= fun _ => q else q) :=
  .ite (hp.bind fun _ => hq) hq

theorem KeepsAside.orElse {b : Prop} [Decidable b] {p : TM V α} {f : α → TM V β} (a : α)
    (hp : KeepsAside m p) (hf : ∀ a, KeepsAside m (f a)) :
    KeepsAside m (if b then p >>= f else f a) := .ite (hp.bind hf) (hf a)

theorem aside_orThrow (x : Except ToolError α) : KeepsAside m (orThrow x : TM V α) := by
  rcases x with e | a
  · exact aside_throw e
  · exact aside_pure a

theorem aside_bestEffort {p : TM V Unit} (h : KeepsAside m p) : KeepsAside m (bestEffort p) :=
  h.tryCatch fun _ => aside_pure ()

theorem aside_await {o : ToolOp V} (h : Aside m o) : KeepsAside m (await_ o) := ⟨h, fun _ => trivial⟩

theorem aside_ask (q : Ask) : KeepsAside m (await_ (.ask q) : TM V _) := aside_await trivial

theorem aside_note : KeepsAside m (await_ .note : TM V Unit) := aside_await trivial

theorem aside_now : KeepsAside m (await_ .now : TM V Int) := aside_await trivial

theorem aside_dup (o : KvOp JsString DupMarker) : KeepsAside m (await_ (.dup o) : TM V _) :=
  aside_await trivial

/-! ## Writing and consuming records -/

theorem aside_mirrorUnderRun (key : JsString) (record : ToolRecord V) :
    KeepsAside m (c.mirrorUnderRun key record) :=
  .ite (aside_pure ()) (.ite (aside_pure ()) (aside_bestEffort (aside_await rfl)))

theorem aside_finalizeMarker (dupKey : JsString) :
    KeepsAside m (c.finalizeMarker dupKey : TM V Unit) := by
  refine aside_now.bind fun t => (aside_dup _).bind fun won => .ite (aside_pure ()) ?_
  refine (aside_dup _).bind fun cur => ?_
  rcases cur with _ | cur
  · exact aside_pure ()
  · exact .ite ((aside_dup _).bind fun _ => aside_pure ()) (aside_pure ())

theorem aside_afterTerminal (key : JsString) (record : ToolRecord V) (dupKey : Option JsString) :
    KeepsAside m (c.afterTerminal key record dupKey) := by
  have hmark : KeepsAside m (c.markSuccess record dupKey) := by
    unfold markSuccess
    split
    · exact aside_finalizeMarker _
    · exact aside_pure ()
  have hinform : KeepsAside m (c.informSuccess record) := by
    unfold informSuccess
    split
    · exact .when (aside_bestEffort aside_note) (.ite
        (aside_bestEffort ((aside_ask _).bind fun _ => .ite aside_note (aside_pure ())))
        (aside_pure ()))
    · exact aside_pure ()
  exact (aside_mirrorUnderRun _ _).bind fun _ => hmark.bind fun _ => hinform.bind fun _ =>
    .ite (aside_ask _) (aside_pure ())

/-- A terminal record claims only if the provider has told of a success. -/
theorem aside_writeToolTerminal (key : JsString) (record : ToolRecord V)
    (dupKey : Option JsString) : KeepsAside m (c.writeToolTerminal .terminal key record dupKey) :=
  (aside_await (by trivial)).bind fun _ => aside_afterTerminal _ _ _

/-- Only a final record is put again. -/
theorem aside_consumeExistingRecord (key : JsString) (record : ToolRecord V) (output : Out V)
    (hm : m ≠ .gates ∨ record.final = none) :
    KeepsAside m (c.consumeExistingRecord key record output) := by
  have htrack : KeepsAside m (c.trackResolvedToolCallId key record) := by
    unfold trackResolvedToolCallId
    split
    · exact aside_pure _
    · next hfinal =>
      have hreads : m ≠ .gates :=
        hm.resolve_right fun hnone => hfinal (Option.isNone_iff_eq_none.2 hnone)
      exact .ite (aside_pure _) ((aside_await (by exact hreads)).bind fun _ => aside_pure _)
  refine htrack.bind fun latest => ?_
  rcases latest with _ | _ | _ | _ | _ | _
  all_goals exact (aside_mirrorUnderRun _ _).bind fun _ => aside_pure _

theorem aside_stopWith (key : JsString) (record : ToolRecord V) (output : Out V) :
    KeepsAside m (c.stopWith key record output) :=
  (aside_writeToolTerminal _ _ _).bind fun _ => aside_pure _

/-! ## The gates before it -/

theorem aside_policyGate (key : JsString) (record : Option (ToolRecord V)) :
    KeepsAside m (c.policyGate key record) := by
  have htrace : KeepsAside m (bestEffort (do let _ ← await_ .now; await_ .note) : TM V Unit) :=
    aside_bestEffort (aside_now.bind fun _ => aside_note)
  have hsuspended (output : Out V) :
      KeepsAside m (c.suspendedGate key (.suspended output) output) := by
    unfold suspendedGate
    refine .ite (aside_stopWith _ _ _) (.ite ?_ ?_)
    · exact (aside_consumeExistingRecord _ _ _ (.inr rfl)).bind fun _ => aside_pure _
    · exact .ite (htrace.bind fun _ => .when htrace (aside_pure none)) (aside_pure none)
  have hconfirm (approved : Option Bool) : KeepsAside m (c.confirmGate key approved : TM V _) := by
    unfold confirmGate
    exact .ite (aside_stopWith _ _ _) (.when (aside_bestEffort aside_note)
      ((aside_ask _).bind fun _ => .when aside_note (aside_stopWith _ _ _)))
  have hguard (approved : Option Bool) : KeepsAside m (c.guardGate key approved : TM V _) := by
    refine (aside_ask _).bind fun _ => (aside_ask _).bind fun d => ?_
    rcases d with _ | _ | _
    · exact aside_pure none
    · exact aside_stopWith _ _ _
    · exact .ite (aside_stopWith _ _ _) (.ite (aside_stopWith _ _ _) (aside_pure none))
  unfold policyGate
  split
  · exact hsuspended _
  · exact .ite (hconfirm _) (.ite (hguard _) (aside_pure none))

theorem aside_duplicateGate (key : JsString) (dupKey : Option JsString) (approved : Option Bool) :
    KeepsAside m (c.duplicateGate key dupKey approved : TM V (Option (Out V))) := by
  have hmarker (dupKey : JsString) : KeepsAside m (c.dupMarker dupKey : TM V _) := by
    refine (aside_dup _).bind fun marker => ?_
    extract_lets expire
    have hfound (found : Option (DupMarker × Bool)) : KeepsAside m (expire found) := by
      dsimp only [expire]
      split
      · exact aside_now.bind fun _ => .ite (aside_pure none) (aside_pure _)
      · exact aside_pure _
    rcases marker with _ | m
    · refine .ite ((aside_ask _).bind fun first => ?_) (hfound none)
      rcases first with _ | ⟨first, at_⟩
      · exact hfound none
      · exact (aside_bestEffort (aside_now.bind fun _ => aside_pure ())).bind fun _ => hfound _
    · exact hfound _
  have hof (dupKey : JsString) (marker : DupMarker) (cross : Bool) :
      KeepsAside m (c.duplicateOf key dupKey marker cross : TM V _) := by
    have hnudge : KeepsAside m (c.claimNudge dupKey marker cross : TM V Bool) :=
      .ite ((aside_await (by trivial)).bind fun _ =>
        (aside_dup _).bind fun _ => aside_pure _) (aside_pure false)
    refine hnudge.bind fun won => ?_
    rcases c.dupCfg.action with _ | _ | _ | _ | _ | _
    · exact aside_pure none
    · exact aside_note.bind fun _ => aside_pure none
    · exact .ite (aside_note.bind fun _ => aside_pure _)
        (aside_note.bind fun _ => aside_stopWith _ _ _)
    · exact aside_note.bind fun _ => aside_pure _
    · exact aside_now.bind fun _ => aside_note.bind fun _ => aside_stopWith _ _ _
    · exact aside_note.bind fun _ => aside_stopWith _ _ _
  unfold duplicateGate
  split
  · exact aside_pure none
  · refine .ite (aside_pure none) ((hmarker _).bind fun found => ?_)
    rcases found with _ | ⟨marker, cross⟩
    · exact aside_pure none
    · exact .ite (hof _ _ _) (aside_pure none)

theorem aside_replayRecord (hm : m ≠ .gates) (key : JsString) (record : ToolRecord V)
    (output : Out V) : KeepsAside m (c.replayRecord key record output) := by
  unfold replayRecord
  split
  · exact .ite (aside_throw _) (aside_consumeExistingRecord _ _ _ (.inl hm))
  · exact aside_consumeExistingRecord _ _ _ (.inl hm)

/-! ## The gates after it -/

theorem aside_semanticGate (key : JsString) (record : Option (ToolRecord V))
    (approved : Option Bool) :
    KeepsAside m (c.semanticGate key record approved : TM V (Option (Out V))) := by
  have hreport : KeepsAside m (do
      if ← await_ (.ask .report) then await_ .note
      return none : TM V (Option (Out V))) :=
    (aside_ask _).bind fun _ => .when aside_note (aside_pure none)
  refine .when (aside_bestEffort aside_note)
    (.ite ((aside_ask _).bind fun similar => ?_) (aside_pure none))
  rcases similar with _ | _ | _ | _
  · exact aside_note.bind fun _ => aside_stopWith _ _ _
  · exact aside_note.bind fun _ => aside_stopWith _ _ _
  · exact aside_note.bind fun _ => hreport
  · exact hreport

theorem aside_nudge (k : JsString) : KeepsAside m (await_ (.nudge k) : TM V Bool) :=
  aside_await trivial

theorem aside_taintGate (key : JsString) (approved : Option Bool) :
    KeepsAside m (c.taintGate key approved : TM V (Option (Out V))) := by
  refine .ite ((aside_ask _).bind fun _ => .ite ?_ (aside_pure none)) (aside_pure none)
  split
  · exact aside_note.bind fun _ => aside_pure _
  · exact aside_note.bind fun _ => aside_stopWith _ _ _
  · exact (aside_nudge _).bind fun _ => .ite (aside_note.bind fun _ => aside_stopWith _ _ _)
      (aside_note.bind fun _ => aside_pure none)
  · exact aside_note.bind fun _ => aside_pure none

theorem aside_limitsGate (key : JsString) :
    KeepsAside m (c.limitsGate key : TM V (Option (Out V))) := by
  refine .ite ((aside_ask _).bind fun gate => ?_) (aside_pure none)
  rcases gate with _ | _ | _ | _
  · exact aside_pure none
  · exact aside_note.bind fun _ => aside_stopWith _ _ _
  · exact aside_note.bind fun _ => aside_pure _
  · exact aside_note.bind fun _ => aside_pure _

theorem aside_blockedOrThrow (err : ToolError) : KeepsAside m (c.blockedOrThrow err : TM V (Out V)) :=
  .ite (aside_pure _) (aside_throw _)

theorem aside_compensatedGate : KeepsAside m (c.compensatedGate : TM V (Option (Out V))) := by
  refine .ite ((aside_ask _).bind fun condemned => .ite ?_ (aside_pure none)) (aside_pure none)
  exact (aside_blockedOrThrow _).bind fun _ => aside_pure _

theorem aside_assertCrossRunOwner : KeepsAside m (c.assertCrossRunOwner : TM V Unit) :=
  .ite ((aside_ask _).bind fun _ => .ite (aside_pure ()) (aside_throw _)) (aside_pure ())

theorem aside_readRecord (hm : m ≠ .gates) (site : Site V) (key : JsString) :
    KeepsAside m (readRecord site key : TM V (Option (ToolRecord V))) := by
  refine (aside_await (by rcases site <;> exact hm)).bind fun raw => ?_
  rcases raw with _ | raw
  · exact aside_pure none
  · exact (aside_orThrow _).bind fun _ => aside_pure _

theorem aside_ctxGet (hm : m ≠ .gates) (key : JsString) (cached : Option (Stored V)) :
    KeepsAside m (ctxGet key cached : TM V (Option (ToolRecord V))) := by
  have hraw (raw : Stored V) : KeepsAside m (if isVersionedKey key then do
      return some (← orThrow (upgradeFormat raw)) else return some raw.record : TM V (Option _)) :=
    .ite ((aside_orThrow _).bind fun _ => aside_pure _) (aside_pure _)
  rcases cached with _ | raw
  · refine (aside_await (o := .rec_ .first (.get key)) hm).bind fun raw => ?_
    rcases raw with _ | raw
    · exact aside_pure none
    · exact hraw raw
  · exact hraw raw

theorem aside_claimDupMarker (dupKey : JsString) :
    KeepsAside m (c.claimDupMarker dupKey : TM V Bool) := by
  refine aside_now.bind fun _ => (aside_dup _).bind fun cur => ?_
  rcases cur with _ | cur
  · exact aside_dup _
  · exact aside_now.bind fun _ => .ite (aside_dup _) (aside_pure false)

theorem aside_markerGate (dupKey : Option JsString) (approved : Option Bool) :
    KeepsAside m (c.markerGate dupKey approved : TM V (Out V ⊕ Bool)) := by
  rcases dupKey with _ | dupKey
  · exact aside_pure _
  · refine .ite (aside_pure _) ((aside_claimDupMarker _).bind fun _ => .ite (aside_pure _) ?_)
    exact .ite (aside_note.bind fun _ => aside_pure _) (aside_pure _)

theorem aside_lookupGate (key : JsString) (dupKey : Option JsString)
    (record : Option (ToolRecord V)) : KeepsAside m (c.lookupGate key dupKey record) := by
  refine .ite (KeepsAside.tryCatch ((aside_ask _).bind fun found => ?_) fun _ => aside_pure none)
    (aside_pure none)
  rcases found with _ | output
  · exact aside_pure none
  · exact (aside_writeToolTerminal _ _ _).bind fun _ => aside_pure _
/-! ## The claim -/

theorem aside_lostTo (key : JsString)
    (record : Option (ToolRecord V)) {again : TM V (Claimed V)} (h : KeepsAside .claims again) :
    KeepsAside .claims (c.lostTo key record again) := by
  unfold lostTo
  split
  · exact (aside_consumeExistingRecord _ _ _ (.inl (by simp))).bind fun _ => aside_pure _
  · exact .ite h ((aside_blockedOrThrow _).bind fun _ => aside_pure _)

theorem aside_tryRecover (key : JsString) (dupKey : Option JsString) :
    KeepsAside .claims (c.tryRecover key dupKey : TM V _) := by
  refine KeepsAside.tryCatch ((aside_ask _).bind fun probe => ?_) fun _ => aside_pure _
  rcases probe with output | _ | _
  · refine KeepsAside.bind ((aside_await (by rfl)).bind fun _ => aside_afterTerminal _ _ _)
      fun _ => ?_
    exact .when aside_note (aside_pure _)
  · exact aside_pure _
  · exact aside_throw _

theorem aside_takeOver (key : JsString) (record : ToolRecord V)
    {again : Option (ToolRecord V) → TM V (Claimed V)} (h : ∀ r, KeepsAside .claims (again r)) :
    KeepsAside .claims (c.takeOver key record again) := by
  refine (aside_await (o := .rec_ .takeover (.get key)) (by simp [Aside])).bind fun rawBefore => ?_
  -- The swap is a claim; a lost one goes on with the record there is.
  have htook (before : Option (ToolRecord V)) (took : Bool) : KeepsAside .claims (if took then
        return .won (some (laterOf record before))
      else do
        let record ← readRecord .again key
        c.lostTo key record (again record) : TM V (Claimed V)) :=
    .ite (aside_pure _) ((aside_readRecord (by simp) _ _).bind fun r => aside_lostTo key r (h r))
  rcases rawBefore with _ | raw
  · exact aside_now.bind fun _ => htook none false
  · have hupgrade : KeepsAside .claims (some <$> orThrow (upgradeFormat raw) : TM V _) := by
      rcases upgradeFormat raw with e | r
      · exact aside_throw e
      · exact aside_pure (some r)
    refine hupgrade.bind fun before => ?_
    dsimp only
    split
    · exact (aside_consumeExistingRecord _ _ _ (.inl (by simp))).bind fun _ => aside_pure _
    · exact aside_now.bind fun _ => (aside_await (by rfl)).bind (htook before)

theorem aside_claimLoop (key : JsString) (dupKey : Option JsString) (approved : Option Bool) (n : ℕ)
    (record : Option (ToolRecord V)) (recoverUnavailable : Bool) :
    KeepsAside .claims (c.claimLoop key dupKey approved n record recoverUnavailable) := by
  induction n generalizing record recoverUnavailable with
  | zero => exact aside_throw _
  | succ n ih =>
    rcases record with _ | record
    · refine aside_now.bind fun _ => (aside_await (by rfl)).bind fun won => ?_
      refine .ite (.when aside_note (aside_pure _)) ?_
      exact (aside_readRecord (by simp) _ _).bind fun record => .when aside_assertCrossRunOwner
        (aside_lostTo key record (ih record recoverUnavailable))
    · refine aside_now.bind fun _ => ?_
      extract_lets goOn
      refine .ite (.ite ?_ ?_) (.orElse (none, recoverUnavailable) (aside_tryRecover key dupKey) ?_)
      · exact (aside_readRecord (by simp) _ _).bind fun record => aside_lostTo key record (ih record _)
      · exact (aside_blockedOrThrow _).bind fun _ => aside_pure _
      · rintro ⟨_ | output, unavailable⟩
        · dsimp only [goOn]
          split
          · exact (aside_blockedOrThrow _).bind fun _ => aside_pure _
          · exact aside_takeOver key record fun r => ih r unavailable
        · exact aside_pure _

end Rules

end Gnldev.Durable
