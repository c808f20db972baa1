import Gnldev.Durable.Tool.Effects
import Gnldev.Durable.Tool.Aside
import Gnldev.Lib.Trail

/-!
# A completed effect

When the tool has returned, its success is put, and then what goes with it: the copy under the run,
the marker, what other channels and later similar calls are told, the limits. All of this is inside
the `try` whose handler records a failure and gives the marker back (`durable-tool.ts`).

The copy and what others are told are passed over when they fail. The rest is not: if the clock, the
marker or the limits are rejected, the handler records a completed effect as failed, unless that put
is rejected, too (`success_kept_iff`).
-/

open List

namespace Gnldev.Durable

open ToolCall

variable {V : Type}

/-! ## Operations that count -/

/-- A rejection of the operation is not passed over, when it goes with a success. -/
def Unguarded : ToolOp V → Prop
  | .now => True
  | .dup _ => True
  | .ask .outcome => True
  | _ => False

/-- The operation neither puts a terminal record nor gives a marker back, and leaves the key alone. -/
def Follows (key : JsString) : ToolOp V → Prop
  | .rec_ .mirror (.put k _) => k ≠ key
  | .rec_ _ _ => False
  | .dup (.put _ _) => False
  | .start => False
  | .finish => False
  | _ => True

/-- A trail of a call's operations. -/
abbrev Performed (V : Type) := List ((o : ToolOp V) × o.Res)

/-- None of the operations that count has been rejected. -/
def NoneRejected (t : Performed V) : Prop :=
  ∀ e ∈ t, Unguarded e.1 → ∃ x, e.2 = .ok x

variable {t : Performed V}

theorem noneRejected_append {t' : Performed V} :
    NoneRejected (t ++ t') ↔ NoneRejected t ∧ NoneRejected t' := by
  simp only [NoneRejected, mem_append]
  exact ⟨fun h => ⟨fun e he => h e (.inl he), fun e he => h e (.inr he)⟩,
    fun h e he => he.elim (h.1 e) (h.2 e)⟩

theorem noneRejected_of_guarded (h : ∀ e ∈ t, ¬Unguarded e.1) : NoneRejected t :=
  fun e he hu => absurd hu (h e he)

theorem noneRejected_of_isOk (h : t.all fun e => e.2.isOk) : NoneRejected t := by
  intro e he _
  have hok := all_eq_true.1 h e he
  rcases hr : e.2 with _ | x
  · rw [hr] at hok
    contradiction
  · exact ⟨x, rfl⟩

section Trails

variable [DecidableEq V] {c : ToolCall} {i : ℕ} {w w' : ToolWorld V} {t : Performed V} {α β : Type}

/-- The program throws just when one of the operations that count is rejected. -/
def Minds (i : ℕ) (p : TM V α) : Prop :=
  ∀ w t r w', toolMachine.Trail i p.run w t r w' → ((∃ x, r = .ok x) ↔ NoneRejected t)

theorem minds_pure (x : α) : Minds i (pure x : TM V α) := by
  rintro w t r w' h
  cases h with
  | pure => exact ⟨fun _ e he => absurd he not_mem_nil, fun _ => ⟨x, rfl⟩⟩

variable {o : ToolOp V}

theorem trail_await {r : Except ToolError o.Ans}
    (h : toolMachine.Trail i (await_ o).run w t r w') : ∃ a, t = [⟨o, (toolMachine.exec i a o w).1⟩] ∧
      r = (toolMachine.exec i a o w).1.mapError .rejected ∧ w' = (toolMachine.exec i a o w).2 := by
  cases h with
  | op a h =>
    cases h with
    | pure => exact ⟨a, rfl, rfl, rfl⟩

theorem minds_await (ho : Unguarded o) : Minds i (await_ o : TM V o.Ans) := by
  intro w t r w' h
  obtain ⟨a, rfl, rfl, -⟩ := trail_await h
  rcases hr : (toolMachine.exec i a o w).1 with e | x
  · refine ⟨fun ⟨x, hx⟩ => by contradiction, fun h => ?_⟩
    obtain ⟨x, hx⟩ := h _ (.head _) ho
    contradiction
  · refine ⟨fun _ e he _ => ?_, fun _ => ⟨x, rfl⟩⟩
    obtain rfl := mem_singleton.1 he
    exact ⟨x, rfl⟩

theorem Minds.bind {p : TM V α} {f : α → TM V β} (h : Minds i p) (hf : ∀ a, Minds i (f a)) :
    Minds i (p >>= f) := by
  intro w t r w' ht
  rcases ht.tryBind with ⟨e, rfl, h₁⟩ | ⟨t₁, a, w₁, t₂, rfl, h₁, h₂⟩
  · refine ⟨fun ⟨x, hx⟩ => by contradiction, fun hno => ?_⟩
    obtain ⟨x, hx⟩ := (h _ _ _ _ h₁).2 hno
    contradiction
  · rw [noneRejected_append, hf a _ _ _ _ h₂]
    exact (and_iff_right ((h _ _ _ _ h₁).1 ⟨a, rfl⟩)).symm

theorem Minds.ite {b : Prop} [Decidable b] {p q : TM V α} (hp : Minds i p) (hq : Minds i q) :
    Minds i (if b then p else q) := by
  split
  · exact hp
  · exact hq

/-- What is passed over performs no operation that counts. -/
theorem minds_bestEffort {p : TM V Unit} (hp : p.run.Only fun o => ¬Unguarded o) :
    Minds i (bestEffort p) := by
  intro w t r w' h
  have hguarded {t : Performed V} {r : Except ToolError Unit} {w₁ : ToolWorld V}
      (h : toolMachine.Trail i p.run w t r w₁) : NoneRejected t := noneRejected_of_guarded (h.all hp)
  rcases h.tryCatch with ⟨x, rfl, h₁⟩ | ⟨t₁, e, w₁, t₂, rfl, h₁, h₂⟩
  · exact ⟨fun _ => hguarded h₁, fun _ => ⟨x, rfl⟩⟩
  · cases h₂ with
    | pure =>
      rw [append_nil]
      exact ⟨fun _ => hguarded h₁, fun _ => ⟨(), rfl⟩⟩

/-! ## What goes with a record -/

variable {key : JsString} {dupKey : Option JsString} {record : ToolRecord V}

theorem minds_finalizeMarker (k : JsString) : Minds i (c.finalizeMarker k : TM V Unit) := by
  have hdup (o : KvOp JsString DupMarker) : Minds i (await_ (.dup o) : TM V o.Res) :=
    minds_await (o := .dup o) trivial
  refine (minds_await (o := .now) trivial).bind fun at_ => (hdup _).bind fun won => ?_
  refine .ite (minds_pure ()) ((hdup _).bind fun cur => ?_)
  rcases cur with _ | cur
  · exact minds_pure ()
  · exact .ite ((hdup _).bind fun _ => minds_pure ()) (minds_pure ())

variable {output : Out V}

omit [DecidableEq V] in
theorem informSuccess_succeeded {hash : Option JsString} {rs : Option (List JsString)} :
    (c.informSuccess (.succeeded output hash rs) : TM V Unit) =
      (if c.xidPlan then bestEffort (await_ .note) else pure ()) >>= fun _ =>
        if c.semPlan then
          bestEffort (await_ (.ask .report) >>= fun b => if b then await_ .note else pure ())
        else pure () := by
  unfold informSuccess
  by_cases hx : c.xidPlan <;> by_cases hs : c.semPlan <;> simp only [hx, hs] <;> rfl

/-- What goes with a record fails just when an operation that counts does. -/
theorem minds_afterTerminal : Minds i (c.afterTerminal key record dupKey : TM V Unit) := by
  have hmirror : Minds i (c.mirrorUnderRun key (c.stamped record)) :=
    .ite (minds_pure ()) (.ite (minds_pure ()) (minds_bestEffort ⟨id, fun _ => trivial⟩))
  have hmark : Minds i (c.markSuccess record dupKey) := by
    unfold markSuccess
    split
    · exact minds_finalizeMarker _
    · exact minds_pure ()
  have hinform : Minds i (c.informSuccess record) := by
    rcases record with ⟨output, hash, rs⟩ | _ | _ | _ | _ | _
    case succeeded =>
      rw [informSuccess_succeeded]
      have hnote : Minds i (bestEffort (await_ .note) : TM V Unit) :=
        minds_bestEffort ⟨id, fun _ => trivial⟩
      have hreport : (await_ (.ask .report) >>= fun b : Bool =>
          if b then await_ .note else pure () : TM V Unit).run.Only fun o => ¬Unguarded o := by
        refine Prog.Only.tryBind ⟨id, fun _ => trivial⟩ fun b => ?_
        split
        · exact ⟨id, fun _ => trivial⟩
        · trivial
      refine (Minds.ite hnote (minds_pure ())).bind fun _ => ?_
      exact .ite (minds_bestEffort hreport) (minds_pure ())
    all_goals exact minds_pure ()
  refine hmirror.bind fun _ => hmark.bind fun _ => hinform.bind fun _ => ?_
  exact .ite (minds_await (o := .ask .outcome) trivial) (minds_pure ())

omit [DecidableEq V] in
/-- What goes with a record leaves it alone. -/
theorem afterTerminal_follows : (c.afterTerminal key record dupKey : TM V Unit).run.Only
    (Follows key) := by
  have hnote : (bestEffort (await_ .note) : TM V Unit).run.Only (Follows key) :=
    Prog.Only.bind ⟨trivial, fun _ => trivial⟩ fun r => by rcases r <;> trivial
  have hmirror : (c.mirrorUnderRun key (c.stamped record)).run.Only (Follows key) := by
    rw [mirrorUnderRun]
    split
    · trivial
    · next hrun =>
      split
      · trivial
      · exact Prog.Only.bind ⟨mirror_ne hrun, fun _ => trivial⟩ fun r => by rcases r <;> trivial
  have hmark : (c.markSuccess record dupKey : TM V Unit).run.Only (Follows key) := by
    unfold markSuccess
    split
    · refine Prog.Only.tryBind ⟨trivial, fun _ => trivial⟩ fun at_ => ?_
      refine Prog.Only.tryBind ⟨trivial, fun _ => trivial⟩ fun won => ?_
      split
      · trivial
      · refine Prog.Only.tryBind ⟨trivial, fun _ => trivial⟩ fun cur => ?_
        rcases cur with _ | cur
        · trivial
        · simp only
          split
          · exact Prog.Only.tryBind ⟨trivial, fun _ => trivial⟩ fun _ => trivial
          · trivial
    · trivial
  have hinform : (c.informSuccess record).run.Only (Follows key) := by
    rcases record with ⟨output, hash, rs⟩ | _ | _ | _ | _ | _
    case succeeded =>
      rw [informSuccess_succeeded]
      refine Prog.Only.tryBind ?_ fun _ => ?_
      · split
        · exact hnote
        · trivial
      · split
        · refine Prog.Only.bind (Prog.Only.tryBind ⟨trivial, fun _ => trivial⟩ fun b => ?_)
            fun r => by rcases r <;> trivial
          split
          · exact ⟨trivial, fun _ => trivial⟩
          · trivial
        · trivial
    all_goals trivial
  refine Prog.Only.tryBind hmirror fun _ => Prog.Only.tryBind hmark fun _ =>
    Prog.Only.tryBind hinform fun _ => ?_
  split
  · exact ⟨trivial, fun _ => trivial⟩
  · trivial

/-- The record of the key is left as it was. -/
theorem recordAt_exec (a : ToolAnswer V)
    (ho : Follows key o ∨ o = .now ∨ ∃ k m, o = .dup (.put k m)) {r : Option (ToolRecord V)}
    (hw : w.recordAt key = r) : (toolMachine.exec i a o w).2.recordAt key = r := by
  rw [← hw]
  rcases hfault : a.fault with _ | e
  · rcases o with ⟨site, o⟩ | o | _ | _ | _ | _ | _ | _
    · obtain ⟨k, v, rfl, rfl, hk⟩ : ∃ k v, site = .mirror ∧ o = .put k v ∧ k ≠ key := by
        rcases ho with ho | ho | ⟨_, _, ho⟩
        · cases site
          case mirror =>
            rcases o with _ | ⟨k, v⟩ | _ | _
            case put => exact ⟨k, v, rfl, rfl, ho⟩
            all_goals exact ho.elim
          all_goals exact ho.elim
        · contradiction
        · contradiction
      simp only [toolMachine, hfault]
      exact recordAt_putRec_of_ne w i v hk.symm
    all_goals
      simp only [toolMachine, hfault]
      exact recordAt_of_recs rfl key
  · rcases o with _ | _ | _ | _ | _ | _ | _ | _ <;> simp only [toolMachine, hfault] <;> rfl

/-! ## The end of the call -/

/-- The success of the tool, as it is put. -/
def successPut (c : ToolCall) (key : JsString) (output : Out V) : (o : ToolOp V) × o.Res :=
  ⟨.rec_ .terminal (.put key (stampFormat (c.stamped (.succeeded output (some c.hash) none)))),
    .ok ()⟩

/-- An operation from before a record is put. -/
def Before : ToolOp V → Prop
  | .start | .finish | .ask .processed => True
  | _ => False

/-- An operation that puts no terminal record under the key, and gives no marker back. -/
def Harmless (key : JsString) (e : (o : ToolOp V) × o.Res) : Prop :=
  (∀ v r, e ≠ ⟨.rec_ .terminal (.put key v), r⟩) ∧ ∀ k m r, e ≠ ⟨.dup (.put k m), r⟩

omit [DecidableEq V] in
theorem harmless_of_before {e : (o : ToolOp V) × o.Res} (h : Before e.1) : Harmless key e := by
  refine ⟨?_, ?_⟩
  · rintro v r rfl
    exact h
  · rintro k m r rfl
    exact h

omit [DecidableEq V] in
theorem harmless_of_follows {e : (o : ToolOp V) × o.Res} (h : Follows key e.1) : Harmless key e := by
  refine ⟨?_, ?_⟩
  · rintro v r rfl
    exact h
  · rintro k m r rfl
    exact h

/-- The record of what the tool has returned. -/
def recordOutput (c : ToolCall) (key : JsString) (dupKey : Option JsString) (output : Out V) :
    TM V (Out V) :=
  match output with
  | .suspend s => do
    c.writeToolTerminal .terminal key (.suspended (.suspend s)) none
    return .suspend s
  | output => do
    c.writeToolTerminal .terminal key (.succeeded output (some c.hash) none) dupKey
    return output

/-- The tool, and the record of what it returns. -/
def toolBody (c : ToolCall) (key : JsString) (dupKey : Option JsString) : TM V (Out V) :=
  await_ .start >>= fun _ => await_ .finish >>= fun output =>
    (if c.ctx.processors then await_ (.ask .processed) else pure output) >>=
      recordOutput c key dupKey

/-- The marker is given back, if this call has claimed it. -/
def giveBack (c : ToolCall) (dupKey : Option JsString) (claimedDup : Bool) : TM V Unit :=
  match dupKey with
  | some dupKey =>
    if claimedDup then do
      let now ← await_ .now
      await_ (.dup (.put dupKey ⟨c.toolCallId, now, false, false, true⟩))
    else pure ()
  | none => pure ()

/-- The handler: a failure is recorded, and the marker given back. -/
def toolHandler (c : ToolCall) (key : JsString) (dupKey : Option JsString)
    (record : Option (ToolRecord V)) (claimedDup : Bool) (error : ToolError) : TM V (Out V) :=
  c.writeToolTerminal .terminal key
      (.failed error.text (some ((record.map (·.attempts)).getD 0 + 1)) c.sideEffect) none >>=
    fun _ => giveBack c dupKey claimedDup >>= fun _ => throw error

omit [DecidableEq V] in
theorem runTool_eq (c : ToolCall) (key : JsString) (dupKey : Option JsString)
    (record : Option (ToolRecord V)) (claimedDup : Bool) :
    c.runTool key dupKey record claimedDup =
      tryCatch (toolBody c key dupKey) (toolHandler c key dupKey record claimedDup) := by
  have hbody : toolBody (V := V) c key dupKey = (do
      await_ .start
      let output ← await_ .finish
      let output ← if c.ctx.processors then await_ (.ask .processed) else pure output
      recordOutput c key dupKey output) := by
    rw [toolBody]
    by_cases h : c.ctx.processors <;> simp only [h] <;> rfl
  rw [runTool, hbody]
  refine congrArg (tryCatch _) (funext fun error => ?_)
  rw [toolHandler]
  rcases dupKey with _ | dupKey
  · rfl
  · cases claimedDup
    · rfl
    · refine bind_congr fun _ => ?_
      exact congrArg (Prog.op ToolOp.now) (funext fun r => by cases r <;> rfl)

theorem recordAt_put (a : ToolAnswer V) (v : Stored V) {site : Site V}
    (hok : (toolMachine.exec i a (.rec_ site (.put key v)) w).1 = .ok ()) :
    (toolMachine.exec i a (.rec_ site (.put key v)) w).2.recordAt key = some v.record := by
  rcases hfault : a.fault with _ | e
  · simp only [toolMachine, hfault]
    exact recordAt_putRec w i key v
  · simp only [toolMachine, hfault] at hok
    contradiction

theorem exec_rejected {a : ToolAnswer V} {site : Site V} {o : KvOp JsString (Stored V)} {e : JsString}
    (h : (toolMachine.exec i a (.rec_ site o) w).1 = .error e) :
    (toolMachine.exec i a (.rec_ site o) w).2 = w := by
  rcases hfault : a.fault with _ | e
  · simp only [toolMachine, hfault] at h
    contradiction
  · simp only [toolMachine, hfault]

/-- The trail of a put of a terminal record: it is put, and what goes with it follows; or the put is
    rejected, and leaves the world as it was. -/
theorem trail_writeToolTerminal {r : Except ToolError Unit}
    (h : toolMachine.Trail i (c.writeToolTerminal .terminal key record dupKey).run w t r w') :
    (∃ t₁ w₁, t = ⟨.rec_ .terminal (.put key (stampFormat (c.stamped record))), .ok ()⟩ :: t₁ ∧
        w₁.recordAt key = some (c.stamped record) ∧
        toolMachine.Trail i (c.afterTerminal key record dupKey).run w₁ t₁ r w') ∨
      ∃ e, t = [⟨.rec_ .terminal (.put key (stampFormat (c.stamped record))), .error e⟩] ∧
        (∃ e', r = .error e') ∧ w' = w := by
  rcases h.tryBind with ⟨e, rfl, h₁⟩ | ⟨t₁, x, w₁, t₂, rfl, h₁, h₂⟩
  · obtain ⟨a, rfl, hr, rfl⟩ := trail_await h₁
    rcases hexec : (toolMachine.exec i a
      (.rec_ .terminal (.put key (stampFormat (c.stamped record)))) w).1 with e' | x
    · exact .inr ⟨e', rfl, ⟨e, rfl⟩, exec_rejected hexec⟩
    · rw [hexec] at hr
      contradiction
  · obtain ⟨a, rfl, hr, rfl⟩ := trail_await h₁
    rcases hexec : (toolMachine.exec i a
      (.rec_ .terminal (.put key (stampFormat (c.stamped record)))) w).1 with e' | x
    · rw [hexec] at hr
      contradiction
    · exact .inl ⟨t₂, _, rfl, recordAt_put a _ hexec, h₂⟩

/-- After the put, the record stays as it is put, and nothing else is put or given back. -/
theorem trail_afterTerminal {r : Except ToolError Unit} {x : ToolRecord V}
    (h : toolMachine.Trail i (c.afterTerminal key record dupKey).run w t r w')
    (hw : w.recordAt key = some x) :
    ((∃ u, r = .ok u) ↔ NoneRejected t) ∧ w'.recordAt key = some x ∧ ∀ e ∈ t, Harmless key e := by
  refine ⟨minds_afterTerminal _ _ _ _ h, ?_, fun e he => ?_⟩
  · exact h.keeps (P := fun w => w.recordAt key = some x)
      (fun a _ _ ho hw => recordAt_exec a (.inl ho) hw) afterTerminal_follows hw
  · exact harmless_of_follows (h.all afterTerminal_follows e he)

omit [DecidableEq V] in
theorem successPut_notMem (h : ∀ e ∈ t, Harmless key e) :
    successPut c key output ∉ t := fun hmem => (h _ hmem).1 _ _ rfl

omit [DecidableEq V] in
theorem successPut_inj {output' : Out V} (h : successPut c key output = successPut c key output') :
    output = output' := by
  simp only [successPut, Sigma.mk.injEq, ToolOp.rec_.injEq, KvOp.put.injEq, stampFormat,
    Stored.mk.injEq, ToolCall.stamped, ToolRecord.withResolved, ToolRecord.succeeded.injEq] at h
  exact h.1.2.2.2.1.1

variable {r : Except ToolError (Out V)}

/-- The record of what the tool has returned. -/
theorem trail_succeed {output' : Out V} (h : toolMachine.Trail i (do
      c.writeToolTerminal .terminal key (.succeeded output' (some c.hash) none) dupKey
      return output' : TM V (Out V)).run w t r w') (hput : successPut c key output ∈ t) :
    ∃ t₁, t = successPut c key output :: t₁ ∧ ((∃ x, r = .ok x) ↔ NoneRejected t₁) ∧
      w'.recordAt key = some (c.stamped (.succeeded output (some c.hash) none)) ∧
      ∀ e ∈ t₁, Harmless key e := by
  have hsame {t₁ : Performed V} (hput : successPut c key output ∈ successPut c key output' :: t₁)
      (h : ∀ e ∈ t₁, Harmless key e) : output = output' := by
    rcases mem_cons.1 hput with heq | hmem
    · exact successPut_inj heq
    · exact absurd hmem (successPut_notMem h)
  rcases h.tryBind with ⟨e, rfl, h₁⟩ | ⟨t₁, _, w₁, t₂, rfl, h₁, h₂⟩
  · rcases trail_writeToolTerminal h₁ with ⟨t₁, w₁, rfl, hw, hafter⟩ | ⟨e', rfl, -, -⟩
    · obtain ⟨hiff, hrecord, hharmless⟩ := trail_afterTerminal hafter hw
      obtain rfl := hsame hput hharmless
      refine ⟨t₁, rfl, ?_, hrecord, hharmless⟩
      rw [← hiff]
      exact iff_of_false nofun nofun
    · obtain hput := mem_singleton.1 hput
      simp [successPut] at hput
  · cases h₂ with
    | pure =>
      rcases trail_writeToolTerminal h₁ with ⟨t₁, w₁, rfl, hw, hafter⟩ | ⟨e', rfl, ⟨e, he⟩, -⟩
      · obtain ⟨hiff, hrecord, hharmless⟩ := trail_afterTerminal hafter hw
        rw [append_nil] at hput ⊢
        obtain rfl := hsame hput hharmless
        refine ⟨t₁, rfl, ?_, hrecord, hharmless⟩
        rw [← hiff]
        exact iff_of_true ⟨_, rfl⟩ ⟨_, rfl⟩
      · contradiction

/-- A question of the tool is no success. -/
theorem trail_suspended {s : Suspend} (h : toolMachine.Trail i (do
      c.writeToolTerminal .terminal key (.suspended (.suspend s)) none
      return .suspend s : TM V (Out V)).run w t r w') : successPut c key output ∉ t := by
  have hno {t : Performed V} {r : Except ToolError Unit} {w' : ToolWorld V}
      (h : toolMachine.Trail i
        (c.writeToolTerminal .terminal key (.suspended (.suspend s)) none : TM V Unit).run w t r w') :
      successPut c key output ∉ t := by
    rcases trail_writeToolTerminal h with ⟨t₁, w₁, rfl, hw, hafter⟩ | ⟨e, rfl, -, -⟩
    · rw [mem_cons, not_or]
      refine ⟨?_, successPut_notMem (trail_afterTerminal hafter hw).2.2⟩
      simp [successPut, stampFormat, ToolCall.stamped, ToolRecord.withResolved]
    · simp [successPut]
  rcases h.tryBind with ⟨e, rfl, h₁⟩ | ⟨t₁, _, w₁, t₂, rfl, h₁, h₂⟩
  · exact hno h₁
  · cases h₂ with
    | pure =>
      rw [append_nil]
      exact hno h₁

/-- What the tool's part of the call performs, if its success is put: nothing that counts before that,
    and what goes with it after. -/
theorem trail_toolBody (h : toolMachine.Trail i (toolBody c key dupKey).run w t r w')
    (hput : successPut c key output ∈ t) :
    ∃ t₀ t₁, t = t₀ ++ successPut c key output :: t₁ ∧ (∀ e ∈ t₀, Before e.1) ∧
      ((∃ x, r = .ok x) ↔ NoneRejected t₁) ∧
      w'.recordAt key = some (c.stamped (.succeeded output (some c.hash) none)) ∧
      ∀ e ∈ t₁, Harmless key e := by
  have hbefore {o : ToolOp V} (ho : Before o) : (await_ o : TM V o.Ans).run.Only Before :=
    ⟨ho, fun _ => trivial⟩
  have hlater {t : Performed V} (ht : ∀ e ∈ t, Before e.1) : successPut c key output ∉ t :=
    successPut_notMem fun e he => harmless_of_before (ht e he)
  rcases h.tryBind with ⟨e, rfl, h₁⟩ | ⟨t₁, _, w₁, t', rfl, h₁, h⟩
  · exact absurd hput (hlater (h₁.all (hbefore trivial)))
  have ht₁ := h₁.all (hbefore trivial)
  rcases h.tryBind with ⟨e, rfl, h₂⟩ | ⟨t₂, out, w₂, t', rfl, h₂, h⟩
  · rcases mem_append.1 hput with hput | hput
    · exact absurd hput (hlater ht₁)
    · exact absurd hput (hlater (h₂.all (hbefore trivial)))
  have ht₂ := h₂.all (hbefore trivial)
  have hprocessed : (if c.ctx.processors then await_ (.ask .processed) else pure out :
      TM V (Out V)).run.Only Before := by
    split
    · exact hbefore trivial
    · trivial
  rcases h.tryBind with ⟨e, rfl, h₃⟩ | ⟨t₃, out', w₃, t', rfl, h₃, h⟩
  · simp only [mem_append] at hput
    rcases hput with hput | hput | hput
    · exact absurd hput (hlater ht₁)
    · exact absurd hput (hlater ht₂)
    · exact absurd hput (hlater (h₃.all hprocessed))
  have ht : ∀ e ∈ t₁ ++ (t₂ ++ t₃), Before e.1 := by
    simp only [mem_append]
    rintro e (he | he | he)
    · exact ht₁ e he
    · exact ht₂ e he
    · exact h₃.all hprocessed e he
  have hput' : successPut c key output ∈ t' := by
    rw [← append_assoc, ← append_assoc, mem_append, append_assoc] at hput
    exact hput.resolve_left (hlater ht)
  have hsucceed (h : toolMachine.Trail i (do
      c.writeToolTerminal .terminal key (.succeeded out' (some c.hash) none) dupKey
      return out' : TM V (Out V)).run w₃ t' r w') :
      ∃ t₀ t₁', t₁ ++ (t₂ ++ (t₃ ++ t')) = t₀ ++ successPut c key output :: t₁' ∧
        (∀ e ∈ t₀, Before e.1) ∧ ((∃ x, r = .ok x) ↔ NoneRejected t₁') ∧
        w'.recordAt key = some (c.stamped (.succeeded output (some c.hash) none)) ∧
        ∀ e ∈ t₁', Harmless key e := by
    obtain ⟨t₁', rfl, hrest⟩ := trail_succeed h hput'
    exact ⟨t₁ ++ (t₂ ++ t₃), t₁', by simp only [append_assoc], ht, hrest⟩
  cases out' with
  | suspend s => exact absurd hput' (trail_suspended h)
  | _ => exact hsucceed h

/-- What the handler performs: the failure is put, and the marker may be given back; or the put is
    rejected, and that is all. -/
theorem trail_toolHandler {record : Option (ToolRecord V)} {claimedDup : Bool} {error : ToolError}
    (h : toolMachine.Trail i (toolHandler c key dupKey record claimedDup error).run w t r w') :
    successPut c key output ∉ t ∧
      ((∃ v e, t = [⟨.rec_ .terminal (.put key v), .error e⟩] ∧ w' = w) ∨
        (∀ v e, (⟨.rec_ .terminal (.put key v), .error e⟩ : (o : ToolOp V) × o.Res) ∉ t) ∧
          ∃ n, w'.recordAt key = some (c.stamped (.failed error.text (some n) c.sideEffect))) := by
  rw [toolHandler] at h
  generalize hfailed : ToolRecord.failed error.text (some ((record.map (·.attempts)).getD 0 + 1))
    c.sideEffect = failed at h
  have hne : ⟨.rec_ .terminal (.put key (stampFormat (c.stamped failed))), .ok ()⟩ ≠
      successPut c key output := by
    rw [← hfailed]
    simp [successPut, stampFormat, ToolCall.stamped, ToolRecord.withResolved]
  -- Once the failure is put, what goes with it leaves it there.
  have hput {t₁ : Performed V} (ht₁ : ∀ e ∈ t₁, ¬∃ v r, e = ⟨.rec_ .terminal (.put key v), r⟩) :
      successPut c key output ∉
          ⟨.rec_ .terminal (.put key (stampFormat (c.stamped failed))), .ok ()⟩ :: t₁ ∧
        ∀ v e, (⟨.rec_ .terminal (.put key v), .error e⟩ : (o : ToolOp V) × o.Res) ∉
          (⟨.rec_ .terminal (.put key (stampFormat (c.stamped failed))), .ok ()⟩ :: t₁ :
            Performed V) := by
    refine ⟨?_, fun v e => ?_⟩
    · rw [mem_cons, not_or]
      exact ⟨hne.symm, fun hmem => ht₁ _ hmem ⟨_, _, rfl⟩⟩
    · rw [mem_cons, not_or]
      refine ⟨by simp, fun hmem => ht₁ _ hmem ⟨_, _, rfl⟩⟩
  have hharmless {t₁ : Performed V} (h : ∀ e ∈ t₁, Harmless key e) :
      ∀ e ∈ t₁, ¬∃ v r, e = ⟨.rec_ .terminal (.put key v), r⟩ := by
    rintro e he ⟨v, r, heq⟩
    exact (h e he).1 v r heq
  rcases h.tryBind with ⟨e, rfl, h₁⟩ | ⟨t₁, _, w₁, t₂, rfl, h₁, h₂⟩
  · rcases trail_writeToolTerminal h₁ with ⟨t₁, w₁, rfl, hw, hafter⟩ | ⟨e', rfl, -, rfl⟩
    · obtain ⟨-, hrecord, hquiet⟩ := trail_afterTerminal hafter hw
      obtain ⟨hno, hok⟩ := hput (hharmless hquiet)
      exact ⟨hno, .inr ⟨hok, _, hfailed ▸ hrecord⟩⟩
    · exact ⟨by simp [successPut], .inl ⟨_, e', rfl, rfl⟩⟩
  · rcases trail_writeToolTerminal h₁ with ⟨t₁, w₃, rfl, hw, hafter⟩ | ⟨e', rfl, ⟨e, he⟩, -⟩
    · obtain ⟨-, hrecord, hquiet⟩ := trail_afterTerminal hafter hw
      have hgive : (giveBack c dupKey claimedDup >>= fun _ => throw error : TM V (Out V)).run.Only
          fun o => o = .now ∨ ∃ k m, o = .dup (.put k m) := by
        refine Prog.Only.tryBind ?_ fun _ => trivial
        rcases dupKey with _ | dupKey
        · trivial
        · rw [giveBack]
          split
          · exact Prog.Only.tryBind ⟨.inl rfl, fun _ => trivial⟩ fun now =>
              ⟨.inr ⟨_, _, rfl⟩, fun _ => trivial⟩
          · trivial
      have hrest : ∀ e ∈ t₁ ++ t₂, ¬∃ v r, e = ⟨.rec_ .terminal (.put key v), r⟩ := by
        intro e he
        rcases mem_append.1 he with he | he
        · exact hharmless hquiet e he
        · rintro ⟨v, r, rfl⟩
          rcases h₂.all hgive _ he with ho | ⟨_, _, ho⟩ <;> contradiction
      obtain ⟨hno, hok⟩ := hput hrest
      have hkept : w'.recordAt key = some (c.stamped failed) :=
        h₂.keeps (P := fun w => w.recordAt key = some (c.stamped failed))
          (fun a _ _ ho hw => recordAt_exec a (.inr ho) hw) hgive hrecord
      exact ⟨hno, .inr ⟨hok, _, hfailed ▸ hkept⟩⟩
    · contradiction

/-- From the success on, the record stays and no marker is given back, just if nothing that counts is
    rejected, or the put of the failure is rejected, too. -/
theorem runTool_kept {record : Option (ToolRecord V)} {claimedDup : Bool} {t₀ t₁ : Performed V}
    (h : toolMachine.Trail i (c.runTool key dupKey record claimedDup).run w
      (t₀ ++ successPut c key output :: t₁) r w') :
    (w'.recordAt key = some (c.stamped (.succeeded output (some c.hash) none)) ∧
        ∀ k m, ⟨.dup (.put k m), .ok ()⟩ ∈ t₁ → m.released = false) ↔
      NoneRejected t₁ ∨ ∃ v e, ⟨.rec_ .terminal (.put key v), .error e⟩ ∈ t₁ := by
  rw [runTool_eq] at h
  -- The success is put once, so that there is one way to take the trail apart there.
  have hsame {t₀' t₁' : Performed V} (ht₀ : ∀ e ∈ t₀', Before e.1)
      (ht₁ : successPut c key output ∉ t₁')
      (heq : t₀ ++ successPut c key output :: t₁ = t₀' ++ successPut c key output :: t₁') :
      t₁ = t₁' := by
    have hno : successPut c key output ∉ t₀' :=
      successPut_notMem fun e he => harmless_of_before (ht₀ e he)
    obtain ⟨-, -, htail⟩ := (append_cons_inj_of_notMem hno ht₁).1 heq.symm
    exact htail.symm
  rcases h.tryCatch with ⟨x, rfl, hbody⟩ | ⟨t', error, w₁, t'', heq, hbody, hhandler⟩
  · -- The tool's part of the call returns, so that nothing that counts is rejected.
    have hput : successPut c key output ∈ t₀ ++ successPut c key output :: t₁ := by simp
    obtain ⟨t₀', t₁', heq, ht₀, hiff, hrecord, ht₁⟩ := trail_toolBody hbody hput
    obtain rfl := hsame ht₀ (successPut_notMem ht₁) heq
    exact iff_of_true ⟨hrecord, fun k m hmem => absurd rfl ((ht₁ _ hmem).2 k m _)⟩
      (.inl (hiff.1 ⟨x, rfl⟩))
  · obtain ⟨hno, hhandler⟩ := @trail_toolHandler _ _ _ _ _ _ _ _ _ output _ _ _ _ hhandler
    have hput : successPut c key output ∈ t' := by
      have hmem : successPut c key output ∈ t' ++ t'' := heq ▸ by simp
      exact (mem_append.1 hmem).resolve_right hno
    obtain ⟨t₀', t₁', rfl, ht₀, hiff, hrecord, ht₁⟩ := trail_toolBody hbody hput
    rw [append_assoc, cons_append] at heq
    obtain rfl := hsame ht₀ (by simpa [hno] using successPut_notMem ht₁) heq
    rcases hhandler with ⟨v, e, rfl, rfl⟩ | ⟨hok, n, hfailed⟩
    · refine iff_of_true ⟨hrecord, fun k m hmem => ?_⟩ (.inr ⟨v, e, by simp⟩)
      rcases mem_append.1 hmem with hmem | hmem
      · exact absurd rfl ((ht₁ _ hmem).2 k m _)
      · simp at hmem
    · refine iff_of_false (fun hsame => ?_) ?_
      · rw [hfailed] at hsame
        simp [ToolCall.stamped, ToolRecord.withResolved] at hsame
      · rintro (hnone | ⟨v, e, hmem⟩)
        · -- The handler was reached, since something that counts was rejected.
          obtain ⟨x, hx⟩ := hiff.2 (noneRejected_append.1 hnone).1
          contradiction
        · rcases mem_append.1 hmem with hmem | hmem
          · exact (ht₁ _ hmem).1 v _ rfl
          · exact hok v e hmem

end Trails

/-! ## The whole call -/

/-- The call runs its tool in its last part. -/
def RunsLast (c : ToolCall) (key : JsString) (p : TM V (Out V)) : Prop :=
  p.run.Until (Aside .claims) fun p =>
    ∃ dupKey record claimedDup, p = (c.runTool key dupKey record claimedDup).run

section Whole

variable {c : ToolCall} {key : JsString} {α : Type}

theorem runsLast_of_aside {p : TM V (Out V)} (h : KeepsAside .claims p) : RunsLast c key p := h.toUntil

theorem KeepsAside.last {p : TM V α} {f : α → TM V (Out V)} (h : KeepsAside .claims p)
    (hf : ∀ a, RunsLast c key (f a)) : RunsLast c key (p >>= f) := Prog.Only.tryThen h hf

theorem RunsLast.ite {b : Prop} [Decidable b] {p q : TM V (Out V)} (hp : RunsLast c key p)
    (hq : RunsLast c key q) : RunsLast c key (if b then p else q) := by
  split
  · exact hp
  · exact hq

theorem RunsLast.when {b : Prop} [Decidable b] {p : TM V α} {q : TM V (Out V)}
    (hp : KeepsAside .claims p) (hq : RunsLast c key q) :
    RunsLast c key (if b then p >>= fun _ => q else q) := .ite (hp.last fun _ => hq) hq

theorem RunsLast.orElse {b : Prop} [Decidable b] {p : TM V α} {f : α → TM V (Out V)} (a : α)
    (hp : KeepsAside .claims p) (hf : ∀ a, RunsLast c key (f a)) :
    RunsLast c key (if b then p >>= f else f a) := .ite (hp.last hf) (hf a)

/-- A gate, and what comes after it. -/
theorem KeepsAside.gate {g : TM V (Option (Out V))} {next : TM V (Out V)} (h : KeepsAside .claims g)
    (hnext : RunsLast c key next) :
    RunsLast c key (g >>= fun stopped => match stopped with
      | some output => return output
      | none => next) := by
  refine h.last fun stopped => ?_
  rcases stopped with _ | output
  · exact hnext
  · exact runsLast_of_aside (aside_pure output)

theorem runsLast_claimAndRun (dupKey : Option JsString) (record : Option (ToolRecord V)) :
    RunsLast c key (c.claimAndRun key dupKey record) := by
  refine (aside_claimLoop _ _ _ _ _ _).last fun claimed => ?_
  rcases claimed with output | record
  · exact runsLast_of_aside (aside_pure output)
  · refine (aside_markerGate _ _).last fun gate => ?_
    rcases gate with output | claimedDup
    · exact runsLast_of_aside (aside_pure output)
    · exact .when aside_note ((aside_lookupGate _ _ _).gate (.last ⟨_, _, _, rfl⟩))

theorem runsLast_executeFresh (record : Option (ToolRecord V)) :
    RunsLast c key (c.executeFresh key record) := by
  have hgates (dupKey : Option JsString) : RunsLast c key (gates
      [c.duplicateGate key dupKey (c.approved record), c.compensatedGate,
        c.semanticGate key record (c.approved record), c.taintGate key (c.approved record),
        c.limitsGate key] (c.claimAndRun key dupKey record)) := by
    refine (aside_duplicateGate _ _ _).gate (aside_compensatedGate.gate ?_)
    refine (aside_semanticGate _ _ _).gate ((aside_taintGate _ _).gate ?_)
    exact (aside_limitsGate _).gate (runsLast_claimAndRun _ _)
  exact .when aside_note <| (aside_policyGate key record).gate <|
    .when (aside_bestEffort aside_note) <| (aside_orThrow c.dupKey).last hgates

/-- All that a call performs before its last part neither starts the tool nor ends it. -/
theorem runsLast_execute (hkey : c.key = .ok key) : RunsLast c key (c.execute : TM V (Out V)) := by
  rw [execute, hkey]
  change RunsLast c key (if c.ctx.replayCache then _ else _)
  refine .orElse none (aside_await (o := .rec_ .first (.get key)) (by simp [Aside])) fun cached => ?_
  refine (aside_ctxGet (by simp) key cached).last fun record => .when aside_assertCrossRunOwner ?_
  split
  · exact runsLast_of_aside (aside_replayRecord (by simp) _ _ _)
  · exact runsLast_executeFresh _

variable [DecidableEq V] {i : ℕ} {w w' : ToolWorld V}

/-- The success is the record at the end of the call, and no marker is given back after it is put. -/
def SuccessKept (c : ToolCall) (key : JsString) (output : Out V) (w' : ToolWorld V)
    (t₁ : Performed V) : Prop :=
  w'.recordAt key = some (c.stamped (.succeeded output (some c.hash) none)) ∧
    ∀ k m, ⟨.dup (.put k m), .ok ()⟩ ∈ t₁ → m.released = false

end Whole

/-! ## A call alone -/

/-- A call of a plain tool, and its key. -/
def aloneCall : ToolCall := plainCall (js "r1") (js "a")
def aloneKey : JsString := js "r1:tool:a"

/-- The answers to the call, of which the one with the number `lost` is a rejection. -/
def aloneAnswers (lost : ℕ) : List (ToolAnswer ℕ) :=
  (List.range 20).map fun n =>
    { plainAnswer (.value 7) with fault := if n = lost then some (js "lost") else none }

end Gnldev.Durable

