import Gnldev.Durable.Model.Step
import Gnldev.Lib.Protocol
import Mathlib.Data.List.DropRight

/-!
# What a streamed step can be resumed from

The recorder of a streamed step (`durable-model.ts`, `wrapStream`) passes each chunk on to who reads
the stream, downstream. It does so after it has written the record, if the chunk is a tool call: then
the tool can run, and a resume must find the call. The process can crash at any time, and the stream
of the provider can fail.

* `wrapStreamTo`: the step, with what is passed on. Without that it is `wrapStream` (`lift_erase`);
* `cutRecord`: the record after some chunks, up to the last tool call;
* `Recoverable`: what a resume finds, at any time;
* `stream_recoverable`: a step that streams is recoverable, wherever it is cut.
-/

open List

namespace Gnldev.Durable

open Prog Function

variable {R P : Type}

/-! ## The step, with what is passed on -/

/-- An operation of a streamed step. -/
inductive StreamOp (R P : Type) where
  | model (o : ModelOp R P)
  /-- `controller.enqueue(chunk)`. -/
  | enqueue (chunk : RecordedPart P)

abbrev StreamOp.Res : StreamOp R P → Type
  | model o => o.Res R P
  | enqueue _ => Except ModelError Unit

abbrev StreamM (R P : Type) := ExceptT ModelError (Prog (StreamOp R P) StreamOp.Res)

def onModel {α : Type} (p : ModelM R P α) : StreamM R P α :=
  ExceptT.mk (p.run.lift fun o => Prog.perform (.model o))

def enqueue (chunk : RecordedPart P) : StreamM R P Unit :=
  ExceptT.mk (Prog.perform (StreamOp.enqueue chunk))

namespace ModelCall

variable (c : ModelCall)

/-- What is written before the last of the parts is passed on. A failure is not thrown. -/
def writeAhead (rest : R) (parts : List (RecordedPart P)) (chunk : RecordedPart P) :
    ModelM R P Unit := do
  if chunk.isToolCall then
    tryCatch (performModel (.put (.streamed parts rest true))) fun _ => return ()
  else if parts.length % 10 = 0 then
    tryCatch (performModel (.putCheckpoint (.streamed parts rest true))) fun _ => return ()

/-- The end of the stream. -/
def flush (rest : R) (parts : List (RecordedPart P)) : ModelM R P Unit := do
  performModel (.put (.streamed parts rest false))
  c.settle .succeeded
  c.enforceStepLimits

/-- The recorder, through which the stream is piped. -/
def pipe (rest : R) (parts : List (RecordedPart P)) : List (RecordedPart P) → StreamM R P Unit
  | [] => onModel (c.flush rest parts)
  | chunk :: chunks => do
    onModel (performModel .arrive)
    onModel (writeAhead rest (parts ++ [chunk]) chunk)
    enqueue chunk
    pipe rest (parts ++ [chunk]) chunks

/-- The provider is called. -/
def openStream : ModelM R P (List (RecordedPart P) × R) :=
  tryCatch
    (do
      performModel .call
      performModel .opened)
    fun e => do
      c.settle .failed
      throw e

def wrapStreamTo (replayCache : Option (StepRecord R P)) : StreamM R P (StepResult R P) := do
  match ← onModel (ctxGet replayCache) with
  | some hit => onModel (c.replay hit)
  | none =>
    onModel assertNotCanceled
    onModel c.acquireModelClaim
    let (parts, rest) ← onModel c.openStream
    c.pipe rest [] parts
    return .streamed parts rest

end ModelCall

/-- Nothing is passed on. -/
def erase : (o : StreamOp R P) → Prog (ModelOp R P) (ModelOp.Res R P) o.Res
  | .model o => Prog.perform o
  | .enqueue _ => return .ok ()

section Erase

variable {α : Type}

theorem lift_erase_lift (p : Prog (ModelOp R P) (ModelOp.Res R P) α) :
    (p.lift fun o => (Prog.perform (.model o) : Prog (StreamOp R P) StreamOp.Res _)).lift erase =
      p := by
  induction p with
  | pure a => rfl
  | op o k ih => exact congrArg (Prog.op o) (funext ih)

/-- The program, with nothing passed on. -/
def erased {α : Type} (p : StreamM R P α) : ModelM R P α := ExceptT.mk (p.run.lift erase)

theorem erased_onModel (p : ModelM R P α) : erased (onModel p) = p := lift_erase_lift p.run

theorem erased_bind {β : Type} (p : StreamM R P α) (f : α → StreamM R P β) :
    erased (p >>= f) = erased p >>= fun a => erased (f a) := by
  suffices ∀ q : Prog (StreamOp R P) StreamOp.Res (Except ModelError α),
      (q >>= ExceptT.bindCont f).lift erase =
        q.lift erase >>= ExceptT.bindCont fun a => erased (f a) from this p.run
  intro q
  induction q with
  | pure r => rcases r with e | a <;> rfl
  | op o k ih =>
    rcases o with o | chunk
    · exact congrArg (Prog.op o) (funext ih)
    · exact ih (.ok ())

theorem recorder_cons (c : ModelCall) (rest : R) (parts : List (RecordedPart P))
    (chunk : RecordedPart P) (chunks : List (RecordedPart P)) :
    c.recorder rest parts (chunk :: chunks) = (do
      performModel .arrive
      ModelCall.writeAhead rest (parts ++ [chunk]) chunk
      c.recorder rest (parts ++ [chunk]) chunks) := by
  rw [ModelCall.recorder, ModelCall.writeAhead]
  dsimp only
  split
  · rfl
  · split <;> rfl

theorem erased_pipe (c : ModelCall) (rest : R) (parts chunks : List (RecordedPart P)) :
    erased (c.pipe rest parts chunks) = c.recorder rest parts chunks := by
  induction chunks generalizing parts with
  | nil => exact erased_onModel _
  | cons chunk chunks ih =>
    rw [recorder_cons, ModelCall.pipe, erased_bind, erased_onModel]
    refine bind_congr fun _ => ?_
    rw [erased_bind, erased_onModel]
    refine bind_congr fun _ => ?_
    rw [erased_bind, ih]
    rfl

/-- With nothing passed on, it is the step. -/
theorem erased_wrapStreamTo (c : ModelCall) (replayCache : Option (StepRecord R P)) :
    erased (c.wrapStreamTo replayCache) = c.wrapStream replayCache := by
  rw [ModelCall.wrapStreamTo, erased_bind, erased_onModel, ModelCall.wrapStream]
  refine bind_congr fun hit => ?_
  rcases hit with _ | hit
  · dsimp only
    rw [erased_bind, erased_onModel]
    refine bind_congr fun _ => ?_
    rw [erased_bind, erased_onModel]
    refine bind_congr fun _ => ?_
    rw [erased_bind, erased_onModel]
    refine bind_congr fun opened => ?_
    rw [erased_bind, erased_pipe]
    rfl
  · exact erased_onModel _

end Erase

/-! ## The stream, and a crash at any time -/

/-- The journal, and what has been passed on. -/
structure StreamWorld (R P : Type) where
  model : ModelWorld R P
  downstream : List (RecordedPart P)

/-- The provider streams the chunks, with the rest of its answer. Its stream can fail where the next
    chunk is to arrive. -/
def streamMachine (chunks : List (RecordedPart P)) (rest : R) :
    Machine (StreamOp R P) StreamOp.Res (StreamWorld R P) (ModelAnswer R P) ModelEnv where
  exec i a o w :=
    match o with
    | .model o =>
      let (r, model) := modelMachine.exec i { a with parts := chunks, result := rest } o w.model
      (r, { w with model })
    | .enqueue chunk => (.ok (), { w with downstream := w.downstream ++ [chunk] })
  env e w := { w with model := modelMachine.env e w.model }

/-- An attempt at a step that has no record. -/
def streamStart (c : ModelCall) (w : ModelWorld R P) :
    Conf (StreamOp R P) StreamOp.Res (Except ModelError (StepResult R P)) (StreamWorld R P) :=
  ⟨⟨w, []⟩, update (fun _ => .pure (.error .canceled)) 0 (c.wrapStreamTo none).run⟩

/-- The journal does not throw where it writes. -/
def WritesSucceed (_ : StreamWorld R P) (_ : ℕ) : (o : StreamOp R P) → o.Res → Prop
  | .model (.put _), .error _ | .model (.putCheckpoint _), .error _ | .model (.claim _), .error _
  | .model (.putClaim _), .error _ => False
  | _, _ => True

/-! ## What a resume finds -/

/-- What a resume of the step replays: any attempt at it that nothing disturbs. -/
def Resumes (w : ModelWorld R P) (result : StepResult R P) : Prop :=
  ∀ (c : ModelCall) (j : ℕ) (a : ModelAnswer R P), c.entry = .stream → a.fault = none →
    (modelMachine.solo j a (c.wrapStream none).run w).1 = .ok result

theorem resumes_replay {w : ModelWorld R P} {parts : List (RecordedPart P)} {rest : R} {cut : Bool}
    (hrecord : w.record = some (.streamed parts rest cut)) :
    Resumes w (StepRecord.streamed parts rest cut).replay := by
  rintro ⟨entry, exclusive, reqHash, resumed, strict, limits⟩ j
    ⟨result, answered, date, fault, applied⟩ hentry hfault
  obtain ⟨clock, record, claim, flag, trace⟩ := w
  subst hentry hfault hrecord
  -- It reads the record, compares the request, checks the limits, and returns.
  cases strict <;> cases limits <;> rfl

/-- The record after some chunks: up to the last tool call, if there is one. -/
def cutRecord (sent : List (RecordedPart P)) (rest : R) : Option (StepRecord R P) :=
  match sent.rdropWhile (!·.isToolCall) with
  | [] => none
  | parts => some (.streamed parts rest true)

/-- What is found of a step, at any time. -/
structure Recoverable (chunks : List (RecordedPart P)) (rest : R) (w : StreamWorld R P)
    (ended : Prop) : Prop where
  /-- What has been passed on is what the provider has sent. -/
  downstream : w.downstream <+: chunks
  /-- The tool calls that have been passed on are in the record, in their order. -/
  calls : (w.downstream.filter (·.isToolCall)) = [] ∨ ∃ parts cut,
    w.model.record = some (.streamed parts rest cut) ∧
      w.downstream.filter (·.isToolCall) <+: parts.filter (·.isToolCall)
  /-- What is replayed is what the provider has sent up to some chunk, and at most a finish after it;
      it is all of it, or has as many finishes as that part, and one if that has none. -/
  replayed : ∀ record, w.model.record = some record → ∃ parts finish, parts <+: chunks ∧
    (finish = [] ∨ ∃ calls, finish = [.cutOff calls]) ∧
    Resumes w.model (.streamed (parts ++ finish) rest) ∧
    ((parts = chunks ∧ finish = []) ∨
      (parts ++ finish).countP (·.isFinish) = max 1 (parts.countP (·.isFinish)))
  /-- If the stream has ended, all of it is replayed. -/
  complete : ended → Resumes w.model (.streamed chunks rest)

section CutRecord

variable {sent : List (RecordedPart P)} {rest : R} {chunk : RecordedPart P}

theorem cutRecord_call (h : chunk.isToolCall) :
    cutRecord (sent ++ [chunk]) rest = some (.streamed (sent ++ [chunk]) rest true) := by
  rw [cutRecord, rdropWhile_concat_neg _ _ _ (by simp [h])]
  rcases hparts : sent ++ [chunk] with _ | ⟨first, parts⟩
  · exact absurd hparts (append_ne_nil_of_right_ne_nil _ (cons_ne_nil _ _))
  · rfl

theorem cutRecord_other (h : ¬chunk.isToolCall) :
    cutRecord (sent ++ [chunk]) rest = cutRecord sent rest := by
  rw [cutRecord, rdropWhile_concat_pos _ _ _ (by simp [h]), cutRecord]

/-- All tool calls are in the record. -/
theorem filter_rdropWhile (sent : List (RecordedPart P)) :
    (sent.rdropWhile (!·.isToolCall)).filter (·.isToolCall) = sent.filter (·.isToolCall) := by
  induction sent using List.reverseRecOn with
  | nil => rfl
  | append_singleton sent chunk ih =>
    by_cases h : chunk.isToolCall
    · rw [rdropWhile_concat_neg _ _ _ (by simp [h])]
    · rw [rdropWhile_concat_pos _ _ _ (by simp [h]), ih, filter_append,
        filter_singleton]
      simp [h]

theorem cutRecord_eq_some {record : StepRecord R P} (h : cutRecord sent rest = some record) :
    ∃ parts, record = .streamed parts rest true ∧ parts <+: sent ∧
      parts.filter (·.isToolCall) = sent.filter (·.isToolCall) := by
  rw [cutRecord] at h
  split at h
  · contradiction
  · exact ⟨_, (Option.some.inj h).symm, rdropWhile_prefix _ _, filter_rdropWhile sent⟩

theorem calls_of_cutRecord_none (h : cutRecord sent rest = none) :
    sent.filter (·.isToolCall) = [] := by
  rw [cutRecord] at h
  split at h
  · next hnil => rw [← filter_rdropWhile, hnil, filter_nil]
  · contradiction

end CutRecord

/-- What a record that was cut off replays. -/
theorem replay_cut (parts : List (RecordedPart P)) (rest : R) :
    ∃ finish, (finish = [] ∨ ∃ calls, finish = [.cutOff calls]) ∧
      (StepRecord.streamed parts rest true).replay = .streamed (parts ++ finish) rest ∧
      (parts ++ finish).countP (·.isFinish) = max 1 (parts.countP (·.isFinish)) := by
  rw [StepRecord.replay]
  by_cases h : parts.any (·.isFinish)
  · refine ⟨[], .inl rfl, ?_, ?_⟩
    · rw [if_neg (by simp [h]), append_nil]
    · obtain ⟨chunk, hmem, hfinish⟩ := any_eq_true.1 h
      rw [append_nil, max_eq_right (countP_pos_iff.2 ⟨chunk, hmem, hfinish⟩)]
  · refine ⟨[.cutOff (parts.any (·.isToolCall))], .inr ⟨_, rfl⟩, ?_, ?_⟩
    · rw [if_pos ⟨rfl, h⟩]
    · have hnone : parts.countP (·.isFinish) = 0 := countP_eq_zero.2 fun chunk hmem hfinish =>
        h (any_eq_true.2 ⟨chunk, hmem, hfinish⟩)
      rw [countP_append, hnone]
      rfl

/-! ## The text of the step -/

/-- How far the step is: what has been passed on, and what is to come. -/
inductive StreamPhase (R P : Type) where
  | early
  /-- A record was found. -/
  | replaying
  | between (sent todo : List (RecordedPart P)) (rest : R)
  /-- The next chunk has arrived. -/
  | arrived (sent : List (RecordedPart P)) (chunk : RecordedPart P) (todo : List (RecordedPart P))
      (rest : R)
  /-- What is to be written before it is passed on is written. -/
  | written (sent : List (RecordedPart P)) (chunk : RecordedPart P) (todo : List (RecordedPart P))
      (rest : R)
  | flushed (sent : List (RecordedPart P)) (rest : R)
  | failed

namespace ModelOp

/-- The operation does not concern the stream or the record. -/
def Aside : ModelOp R P → Prop
  | put _ | get | arrive | opened => False
  | _ => True

end ModelOp

/-- The protocol of the step. -/
inductive StreamStep : StreamPhase R P → (o : StreamOp R P) → o.Res → StreamPhase R P → Prop
  | miss : StreamStep .early (.model .get) (.ok none) .early
  | hit {record} : StreamStep .early (.model .get) (.ok (some record)) .replaying
  | unread {e} : StreamStep .early (.model .get) (.error e) .failed
  | replay {o r} : o.Aside → StreamStep .replaying (.model o) r .replaying
  | early {o r} : o.Aside → StreamStep .early (.model o) r .early
  | opened {all rest} : StreamStep .early (.model .opened) (.ok (all, rest)) (.between [] all rest)
  | closed {e} : StreamStep .early (.model .opened) (.error e) .failed
  | arrive {sent chunk todo rest} : StreamStep (.between sent (chunk :: todo) rest) (.model .arrive)
      (.ok ()) (.arrived sent chunk todo rest)
  | broken {sent todo rest e} :
      StreamStep (.between sent todo rest) (.model .arrive) (.error e) .failed
  | writeAhead {sent chunk todo rest r} (h : chunk.isToolCall) :
      StreamStep (.arrived sent chunk todo rest)
        (.model (.put (.streamed (sent ++ [chunk]) rest true))) r (.written sent chunk todo rest)
  | checkpoint {sent chunk todo rest record r} : StreamStep (.arrived sent chunk todo rest)
      (.model (.putCheckpoint record)) r (.arrived sent chunk todo rest)
  | plain {sent chunk todo rest r} (h : ¬chunk.isToolCall) :
      StreamStep (.arrived sent chunk todo rest) (.enqueue chunk) r
        (.between (sent ++ [chunk]) todo rest)
  | enqueue {sent chunk todo rest r} : StreamStep (.written sent chunk todo rest) (.enqueue chunk) r
      (.between (sent ++ [chunk]) todo rest)
  | flush {sent rest} : StreamStep (.between sent [] rest)
      (.model (.put (.streamed sent rest false))) (.ok ()) (.flushed sent rest)
  | unflushed {sent rest e} : StreamStep (.between sent [] rest)
      (.model (.put (.streamed sent rest false))) (.error e) .failed
  | settle {sent rest o r} : o.Aside →
      StreamStep (.flushed sent rest) (.model o) r (.flushed sent rest)
  | over {o r} : o.Aside → StreamStep .failed (.model o) r .failed

section Text

variable {c : ModelCall} {s : StreamPhase R P}

variable {α : Type}

/-- Operations that do not concern the stream change nothing. -/
theorem aside_follows {p : Prog (ModelOp R P) (ModelOp.Res R P) α} (hp : p.Only ModelOp.Aside)
    (hs : ∀ (o : ModelOp R P) (r : o.Res R P), o.Aside → StreamStep s (.model o) r s) :
    (p.lift fun o => (Prog.perform (.model o) : Prog (StreamOp R P) StreamOp.Res _)).Follows
      StreamStep s fun s' _ => s' = s := by
  induction p with
  | pure a => rfl
  | op o k ih => exact fun r => ⟨s, hs o r hp.1, ih r (hp.2 r)⟩

/-- The same, of a program that throws. -/
theorem onModel_runs {p : ModelM R P α} (hp : p.run.Only ModelOp.Aside)
    (hs : ∀ (o : ModelOp R P) (r : o.Res R P), o.Aside → StreamStep s (.model o) r s) :
    Runs StreamStep (· = s) (onModel p) (fun s' _ => s' = s) fun _ _ => True := by
  rintro _ rfl
  refine (aside_follows hp hs).mono fun s' r hs' => ?_
  rcases r with e | a
  · trivial
  · exact hs'

theorem perform_aside {o : ModelOp R P} (ho : o.Aside) : (performModel o).run.Only ModelOp.Aside :=
  ⟨ho, fun _ => trivial⟩

theorem settle_aside (status : ClaimStatus) :
    (c.settle status : ModelM R P Unit).run.Only ModelOp.Aside :=
  Only.tryBind (perform_aside trivial) fun _ => perform_aside trivial

theorem enforceStepLimits_aside : (c.enforceStepLimits : ModelM R P Unit).run.Only ModelOp.Aside := by
  rw [ModelCall.enforceStepLimits]
  split
  · exact perform_aside trivial
  · trivial

theorem replay_aside (hit : StepRecord R P) : (c.replay hit).run.Only ModelOp.Aside := by
  have hrest : (do c.enforceStepLimits; return hit.replay : ModelM R P _).run.Only ModelOp.Aside :=
    Only.tryBind enforceStepLimits_aside fun _ => trivial
  rw [ModelCall.replay]
  split
  · trivial
  · split
    · exact Only.tryBind (perform_aside trivial) fun _ => hrest
    · exact hrest

theorem assertNotCanceled_aside :
    (ModelCall.assertNotCanceled : ModelM R P Unit).run.Only ModelOp.Aside := by
  refine Only.tryBind (perform_aside trivial) fun seen => ?_
  split <;> trivial

theorem acquireModelClaim_aside : (c.acquireModelClaim : ModelM R P Unit).run.Only ModelOp.Aside := by
  rw [ModelCall.acquireModelClaim]
  split
  · exact Only.tryBind (perform_aside trivial) fun _ => perform_aside trivial
  · refine Only.tryBind (perform_aside trivial) fun now => ?_
    refine Only.tryBind (perform_aside trivial) fun won => ?_
    split
    · trivial
    · refine Only.tryBind (perform_aside trivial) fun existing => ?_
      rcases existing with _ | existing
      · exact perform_aside trivial
      · dsimp only
        split
        · trivial
        · exact perform_aside trivial

theorem flush_runs (sent : List (RecordedPart P)) (rest : R) :
    Runs StreamStep (· = .between sent [] rest) (onModel (c.flush rest sent))
      (fun s _ => s = .flushed sent rest) fun _ _ => True := by
  rintro _ rfl r
  rcases r with e | _
  · exact ⟨_, .unflushed, trivial⟩
  · refine ⟨_, .flush, ?_⟩
    refine onModel_runs (p := do c.settle .succeeded; c.enforceStepLimits) ?_
      (fun _ _ => .settle) _ rfl
    exact Only.tryBind (settle_aside _) fun _ => enforceStepLimits_aside

/-- Before a chunk is passed on, the record is written, if it is a tool call. -/
theorem writeAhead_runs (sent : List (RecordedPart P)) (chunk : RecordedPart P)
    (todo : List (RecordedPart P)) (rest : R) :
    Runs StreamStep (· = .arrived sent chunk todo rest)
      (onModel (ModelCall.writeAhead rest (sent ++ [chunk]) chunk))
      (fun s _ => s = if chunk.isToolCall then .written sent chunk todo rest
        else .arrived sent chunk todo rest) fun _ _ => True := by
  rintro _ rfl
  rw [ModelCall.writeAhead]
  split
  · next h =>
    rintro (e | _) <;> exact ⟨_, .writeAhead h, rfl⟩
  · split
    · rintro (e | _) <;> exact ⟨_, .checkpoint, rfl⟩
    · rfl

theorem pipe_runs (sent todo : List (RecordedPart P)) (rest : R) :
    Runs StreamStep (· = .between sent todo rest) (c.pipe rest sent todo)
      (fun s _ => s = .flushed (sent ++ todo) rest) fun _ _ => True := by
  induction todo generalizing sent with
  | nil =>
    rw [append_nil]
    exact flush_runs sent rest
  | cons chunk todo ih =>
    refine Runs.bind (Q := fun s _ => s = .arrived sent chunk todo rest) ?_ fun _ => ?_
    · rintro _ rfl r
      rcases r with e | _
      · exact ⟨_, .broken, trivial⟩
      · exact ⟨_, .arrive, rfl⟩
    · refine Runs.bind (writeAhead_runs sent chunk todo rest) fun _ => ?_
      refine Runs.bind (Q := fun s _ => s = .between (sent ++ [chunk]) todo rest) ?_ fun _ => ?_
      · rintro _ rfl r
        have hstep : StreamStep (if chunk.isToolCall then .written sent chunk todo rest
            else .arrived sent chunk todo rest) (.enqueue chunk) r
              (.between (sent ++ [chunk]) todo rest) := by
          split
          · exact .enqueue
          · next h => exact .plain h
        refine ⟨_, hstep, ?_⟩
        rcases r with e | _
        · trivial
        · rfl
      · have hnext := ih (sent ++ [chunk])
        rwa [append_assoc, singleton_append] at hnext

/-- The claim is marked, and the error thrown on. -/
theorem rethrow_runs {Q : StreamPhase R P → α → Prop} (e : ModelError)
    (hs : ∀ (o : ModelOp R P) (r : o.Res R P), o.Aside → StreamStep s (.model o) r s) :
    Runs StreamStep (· = s) (onModel (do c.settle .failed; throw e)) Q fun _ _ => True := by
  rintro _ rfl r
  refine ⟨_, hs _ _ trivial, ?_⟩
  rcases r with e' | t
  · trivial
  · intro r'
    refine ⟨_, hs _ _ trivial, ?_⟩
    rcases r' with e' | _ <;> trivial

theorem openStream_runs :
    Runs StreamStep (· = .early) (onModel c.openStream : StreamM R P _)
      (fun s opened => s = .between [] opened.1 opened.2) fun _ _ => True := by
  rintro _ rfl r
  refine ⟨_, .early trivial, ?_⟩
  rcases r with e | _
  · exact rethrow_runs e (fun _ _ => .early) _ rfl
  · intro r
    rcases r with e | opened
    · exact ⟨_, .closed, rethrow_runs e (fun _ _ => .over) _ rfl⟩
    · exact ⟨_, .opened, rfl⟩

theorem wrapStreamTo_runs :
    Runs StreamStep (· = .early) (c.wrapStreamTo none : StreamM R P _)
      (fun s _ => s = .replaying ∨ ∃ all rest, s = .flushed all rest) fun _ _ => True := by
  refine Runs.bind (Q := fun s hit => s = if hit.isSome then .replaying else .early) ?_ fun hit => ?_
  · rintro _ rfl r
    rcases r with e | _ | record
    · exact ⟨_, .unread, trivial⟩
    · exact ⟨_, .miss, rfl⟩
    · exact ⟨_, .hit, rfl⟩
  · rcases hit with _ | hit
    · refine Runs.bind (onModel_runs assertNotCanceled_aside fun _ _ => .early) fun _ => ?_
      refine Runs.bind (onModel_runs acquireModelClaim_aside fun _ _ => .early) fun _ => ?_
      refine Runs.bind openStream_runs fun opened => ?_
      refine Runs.bind (pipe_runs [] opened.1 opened.2) fun _ => ?_
      exact runs_pure fun s hs => .inr ⟨_, _, hs⟩
    · exact (onModel_runs (replay_aside hit) fun _ _ => .replay).post fun s _ hs => .inl hs

end Text

/-! ## At any time -/

section Runs

variable {chunks : List (RecordedPart P)} {rest : R} {w : StreamWorld R P}

/-- What is written and passed on, where the step is. -/
def StreamInv (chunks : List (RecordedPart P)) (rest : R) (w : StreamWorld R P) :
    StreamPhase R P → Prop
  | .early => w.downstream = [] ∧ w.model.record = none
  | .replaying => False
  | .between sent todo rest' => rest' = rest ∧ sent ++ todo = chunks ∧ w.downstream = sent ∧
      w.model.record = cutRecord sent rest
  | .arrived sent chunk todo rest' => rest' = rest ∧ sent ++ chunk :: todo = chunks ∧
      w.downstream = sent ∧ w.model.record = cutRecord sent rest
  | .written sent chunk todo rest' => rest' = rest ∧ sent ++ chunk :: todo = chunks ∧
      w.downstream = sent ∧ w.model.record = cutRecord (sent ++ [chunk]) rest
  | .flushed sent rest' => rest' = rest ∧ sent = chunks ∧ w.downstream = chunks ∧
      w.model.record = some (.streamed chunks rest false)
  | .failed => w.downstream <+: chunks ∧ w.model.record = cutRecord w.downstream rest

/-- Only a write of the record changes it. -/
theorem exec_record (i : ℕ) (a : ModelAnswer R P) {o : ModelOp R P} (ho : ∀ record, o ≠ .put record)
    (w : ModelWorld R P) : (modelMachine.exec i a o w).2.record = w.record := by
  have hperform : (w.perform i a o).2.record = w.record := by
    cases o with
    | put record => exact absurd rfl (ho record)
    | claim mine =>
      rw [ModelWorld.perform]
      split <;> rfl
    | _ => rfl
  simp only [modelMachine]
  split
  · split
    · exact hperform
    · split
      · exact hperform
      · rfl
  · exact hperform

theorem exec_put (i : ℕ) (a : ModelAnswer R P) (record : StepRecord R P) (w : ModelWorld R P)
    (hok : (modelMachine.exec i a (.put record) w).1 = .ok ()) :
    (modelMachine.exec i a (.put record) w).2.record = some record := by
  rcases a with ⟨result, parts, date, fault, applied⟩
  rcases fault with _ | e
  · rfl
  · contradiction

/-- What the journal and the provider answer. -/
theorem exec_get (i : ℕ) (a : ModelAnswer R P) (w : ModelWorld R P) {r : Option (StepRecord R P)}
    (hok : (modelMachine.exec i a .get w).1 = .ok r) : r = w.record := by
  rcases a with ⟨result, parts, date, fault, applied⟩
  rcases fault with _ | e
  · exact (Except.ok.inj hok).symm
  · contradiction

theorem exec_opened (i : ℕ) (a : ModelAnswer R P) (w : ModelWorld R P)
    {r : List (RecordedPart P) × R} (hok : (modelMachine.exec i a .opened w).1 = .ok r) :
    r = (a.parts, a.result) := by
  rcases a with ⟨result, parts, date, fault, applied⟩
  rcases fault with _ | e
  · exact (Except.ok.inj hok).symm
  · contradiction

variable {s : StreamPhase R P}

theorem StreamInv.congr {w' : StreamWorld R P} (h : StreamInv chunks rest w s)
    (hdown : w'.downstream = w.downstream) (hrecord : w'.model.record = w.model.record) :
    StreamInv chunks rest w' s := by
  cases s with
  | replaying => exact h.elim
  | _ => simpa only [StreamInv, hdown, hrecord] using h

theorem same_of_aside {s' : StreamPhase R P} {o : ModelOp R P} {r : o.Res R P}
    (h : StreamStep s (.model o) r s') (ho : o.Aside) : s' = s := by
  cases h <;> first | rfl | exact ho.elim

theorem StreamInv.exec {s' : StreamPhase R P} (h : StreamInv chunks rest w s) (i : ℕ)
    (a : ModelAnswer R P) {o : StreamOp R P}
    (hstep : StreamStep s o ((streamMachine chunks rest).exec i a o w).1 s')
    (hok : WritesSucceed w i o ((streamMachine chunks rest).exec i a o w).1) :
    StreamInv chunks rest ((streamMachine chunks rest).exec i a o w).2 s' := by
  rcases o with o | chunk
  · have hsame (ho : ∀ record, o ≠ .put record) :
        ((streamMachine chunks rest).exec i a (.model o) w).2.model.record = w.model.record :=
      exec_record i _ ho w.model
    by_cases haside : o.Aside
    · obtain rfl := same_of_aside hstep haside
      refine h.congr rfl (hsame ?_)
      rintro record rfl
      exact haside
    · cases o with
      | put record =>
        have hput : ((streamMachine chunks rest).exec i a (.model (.put record)) w).1 = .ok () →
            ((streamMachine chunks rest).exec i a (.model (.put record)) w).2.model.record =
              some record := exec_put i _ record w.model
        have hdown : ((streamMachine chunks rest).exec i a (.model (.put record)) w).2.downstream =
          w.downstream := rfl
        generalize (streamMachine chunks rest).exec i a (.model (.put record)) w = x at *
        obtain ⟨r, w'⟩ := x
        rcases r with e | _
        · exact hok.elim
        · cases hstep with
          | replay ho | early ho | settle ho | «over» ho => exact ho.elim
          | writeAhead hcall =>
            obtain ⟨hrest, hall, hsent, -⟩ := h
            subst hrest
            exact ⟨rfl, hall, hdown.trans hsent, (hput rfl).trans (cutRecord_call hcall).symm⟩
          | flush =>
            obtain ⟨hrest, hall, hsent, -⟩ := h
            rw [append_nil] at hall
            subst hrest hall
            exact ⟨rfl, rfl, hdown.trans hsent, hput rfl⟩
      | get =>
        have hget (r : Option (StepRecord R P))
            (hr : ((streamMachine chunks rest).exec i a (.model .get) w).1 = .ok r) :
            r = w.model.record := exec_get i _ w.model hr
        have hdown : ((streamMachine chunks rest).exec i a (.model .get) w).2.downstream =
          w.downstream := rfl
        have hrecord := hsame nofun
        generalize (streamMachine chunks rest).exec i a (.model .get) w = x at *
        obtain ⟨r, w'⟩ := x
        cases hstep with
        | miss => exact ⟨hdown.trans h.1, hrecord.trans h.2⟩
        | hit => exact absurd ((hget _ rfl).trans h.2) nofun
        | replay ho | early ho | settle ho | «over» ho => exact ho.elim
        | unread =>
          obtain ⟨hsent, hnone⟩ := h
          refine ⟨?_, ?_⟩
          · rw [hdown, hsent]
            exact nil_prefix
          · rw [hrecord, hnone, hdown, hsent]
            rfl
      | arrive =>
        have hdown : ((streamMachine chunks rest).exec i a (.model .arrive) w).2.downstream =
          w.downstream := rfl
        have hrecord := hsame nofun
        generalize (streamMachine chunks rest).exec i a (.model .arrive) w = x at *
        obtain ⟨r, w'⟩ := x
        cases hstep with
        | replay ho | early ho | settle ho | «over» ho => exact ho.elim
        | arrive =>
          obtain ⟨hrest, hall, hsent, hrec⟩ := h
          exact ⟨hrest, hall, hdown.trans hsent, hrecord.trans hrec⟩
        | broken =>
          obtain ⟨hrest, hall, hsent, hrec⟩ := h
          refine ⟨?_, ?_⟩
          · rw [hdown, hsent, ← hall]
            exact prefix_append _ _
          · rw [hrecord, hrec, hdown, hsent]
      | opened =>
        have hopened (r : List (RecordedPart P) × R)
            (hr : ((streamMachine chunks rest).exec i a (.model .opened) w).1 = .ok r) :
            r = (chunks, rest) := exec_opened i { a with parts := chunks, result := rest } w.model hr
        have hdown : ((streamMachine chunks rest).exec i a (.model .opened) w).2.downstream =
          w.downstream := rfl
        have hrecord := hsame nofun
        generalize (streamMachine chunks rest).exec i a (.model .opened) w = x at *
        obtain ⟨r, w'⟩ := x
        cases hstep with
        | replay ho | early ho | settle ho | «over» ho => exact ho.elim
        | opened =>
          obtain ⟨rfl, rfl⟩ := Prod.mk.inj (hopened _ rfl)
          exact ⟨rfl, rfl, hdown.trans h.1, hrecord.trans h.2⟩
        | closed =>
          obtain ⟨hsent, hnone⟩ := h
          refine ⟨?_, ?_⟩
          · rw [hdown, hsent]
            exact nil_prefix
          · rw [hrecord, hnone, hdown, hsent]
            rfl
      | _ => exact absurd trivial haside
  · cases hstep with
    | plain hcall =>
      obtain ⟨hrest, hall, hdown, hrec⟩ := h
      refine ⟨hrest, by rw [append_assoc]; exact hall, congrArg (· ++ [chunk]) hdown, ?_⟩
      rw [cutRecord_other hcall]
      exact hrec
    | enqueue =>
      obtain ⟨hrest, hall, hdown, hrec⟩ := h
      exact ⟨hrest, by rw [append_assoc]; exact hall, congrArg (· ++ [chunk]) hdown, hrec⟩

theorem recoverable_of_cut {parts : List (RecordedPart P)} {ended : Prop}
    (hrecord : w.model.record = cutRecord parts rest) (hdown : w.downstream <+: parts)
    (hparts : parts <+: chunks) (hended : ¬ended) : Recoverable chunks rest w ended where
  downstream := hdown.trans hparts
  calls := by
    have hcalls := hdown.filter (·.isToolCall)
    rcases hcut : cutRecord parts rest with _ | record
    · rw [calls_of_cutRecord_none hcut, prefix_nil] at hcalls
      exact .inl hcalls
    · obtain ⟨cut, rfl, -, heq⟩ := cutRecord_eq_some hcut
      exact .inr ⟨cut, true, hrecord.trans hcut, heq ▸ hcalls⟩
  replayed record hsome := by
    obtain ⟨cut, rfl, hcut, -⟩ := cutRecord_eq_some (hrecord.symm.trans hsome)
    obtain ⟨finish, hfinish, hreplay, hcount⟩ := replay_cut cut rest
    exact ⟨cut, finish, hcut.trans hparts, hfinish, hreplay ▸ resumes_replay hsome, .inr hcount⟩
  complete h := absurd h hended

theorem StreamInv.recoverable (h : StreamInv chunks rest w s) {ended : Prop}
    (hended : ended → s = .replaying ∨ ∃ all rest, s = .flushed all rest) :
    Recoverable chunks rest w ended := by
  have hno (hs : s ≠ .replaying ∧ ∀ all rest, s ≠ .flushed all rest) : ¬ended := by
    intro hend
    rcases hended hend with h | ⟨all, rest, h⟩
    · exact hs.1 h
    · exact hs.2 all rest h
  cases s with
  | early =>
    have hdown : w.downstream <+: [] := h.1 ▸ prefix_rfl
    have hrecord : w.model.record = cutRecord [] rest := h.2
    exact recoverable_of_cut hrecord hdown nil_prefix (hno ⟨nofun, nofun⟩)
  | replaying => exact h.elim
  | between sent todo rest' =>
    obtain ⟨-, hall, hsent, hrecord⟩ := h
    exact recoverable_of_cut hrecord (hsent ▸ prefix_rfl) (hall ▸ prefix_append _ _)
      (hno ⟨nofun, nofun⟩)
  | arrived sent chunk todo rest' =>
    obtain ⟨-, hall, hsent, hrecord⟩ := h
    exact recoverable_of_cut hrecord (hsent ▸ prefix_rfl) (hall ▸ prefix_append _ _)
      (hno ⟨nofun, nofun⟩)
  | written sent chunk todo rest' =>
    obtain ⟨-, hall, hsent, hrecord⟩ := h
    rw [append_cons] at hall
    exact recoverable_of_cut hrecord (hsent ▸ prefix_append _ _) (hall ▸ prefix_append _ _)
      (hno ⟨nofun, nofun⟩)
  | failed => exact recoverable_of_cut h.2 prefix_rfl h.1 (hno ⟨nofun, nofun⟩)
  | flushed sent rest' =>
    obtain ⟨-, -, hdown, hrecord⟩ := h
    have hresumes : Resumes w.model (.streamed chunks rest) := resumes_replay hrecord
    refine ⟨hdown ▸ prefix_rfl, .inr ⟨chunks, false, hrecord, hdown ▸ prefix_rfl⟩,
      fun record _ => ?_, fun _ => hresumes⟩
    refine ⟨chunks, [], prefix_rfl, .inl rfl, ?_, .inl ⟨rfl, rfl⟩⟩
    rwa [append_nil]

/-- The attempt, and the others, which have nothing to do. -/
theorem streamStart_follows (c : ModelCall) (w : ModelWorld R P) (i : ℕ) :
    ((streamStart c w).procs i).Follows (fun s o r s' => i = 0 ∧ StreamStep s o r s') .early
      fun s r => ∀ x, r = .ok x → s = .replaying ∨ ∃ all rest, s = .flushed all rest := by
  simp only [streamStart]
  by_cases hi : i = 0
  · subst hi
    rw [update_self]
    have htext : (c.wrapStreamTo none : StreamM R P _).run.Follows StreamStep .early
        fun s r => ∀ x, r = .ok x → s = .replaying ∨ ∃ all rest, s = .flushed all rest := by
      refine (wrapStreamTo_runs .early rfl).mono fun s r hs => ?_
      rintro x rfl
      exact hs
    exact htext.sim id (fun _ _ _ _ hs => ⟨rfl, hs⟩) fun _ _ hs => hs
  · rw [update_of_ne hi]
    exact nofun

/-- A step that streams is recoverable at every cut, whatever the provider sends, and wherever its
    stream fails, if the journal writes. -/
theorem stream_recoverable (c : ModelCall) (w : ModelWorld R P) (hfresh : w.record = none)
    (chunks : List (RecordedPart P)) (rest : R) (ms : List (Move (ModelAnswer R P) ModelEnv))
    (hms : (streamMachine chunks rest).Meets WritesSucceed (streamStart c w) ms) :
    Recoverable chunks rest ((streamMachine chunks rest).play (streamStart c w) ms).world
      (∃ x, ((streamMachine chunks rest).play (streamStart c w) ms).procs 0 = .pure (.ok x)) := by
  -- The invariant is about the phase of the attempt; no other program performs an operation.
  have hexec (w : StreamWorld R P) (ph : ℕ → StreamPhase R P) (i : ℕ) (a : ModelAnswer R P)
      (o : StreamOp R P) (s' : StreamPhase R P) (h : StreamInv chunks rest w (ph 0))
      (hs : i = 0 ∧ StreamStep (ph i) o ((streamMachine chunks rest).exec i a o w).1 s')
      (hok : WritesSucceed w i o ((streamMachine chunks rest).exec i a o w).1) :
      StreamInv chunks rest ((streamMachine chunks rest).exec i a o w).2
        (update ph i s' 0) := by
    obtain ⟨rfl, hs⟩ := hs
    rw [update_self]
    exact h.exec 0 a hs hok
  have henv (w : StreamWorld R P) (ph : ℕ → StreamPhase R P) (e : ModelEnv)
      (h : StreamInv chunks rest w (ph 0)) :
      StreamInv chunks rest ((streamMachine chunks rest).env e w) (ph 0) := by
    refine h.congr rfl ?_
    cases e <;> rfl
  have hstart : StreamInv chunks rest (streamStart c w).world
      ((fun _ : ℕ => StreamPhase.early) 0) := ⟨rfl, hfresh⟩
  obtain ⟨ph, hinv, hf⟩ := Machine.play_follows
    (J := fun w ph => StreamInv chunks rest w (ph 0)) hexec henv hstart (streamStart_follows c w) hms
  refine hinv.recoverable ?_
  rintro ⟨x, hx⟩
  have hend := hf 0
  rw [hx] at hend
  exact hend x rfl

end Runs

/-! ## Streams -/

instance (w : StreamWorld ℕ ℕ) (i : ℕ) (o : StreamOp ℕ ℕ) (r : o.Res) :
    Decidable (WritesSucceed w i o r) := by
  rcases o with o | chunk
  · rcases o <;> rcases r <;> dsimp only [WritesSucceed] <;> infer_instance
  · exact isTrue trivial

def streamCall : ModelCall := ⟨.stream, none, none, false, false, false⟩

def noStep : ModelWorld ℕ ℕ := ⟨0, none, none, false, []⟩

/-- `n` operations of the attempt. -/
def streamMoves (n : ℕ) : List (Move (ModelAnswer ℕ ℕ) ModelEnv) :=
  List.replicate n (.run 0 ⟨0, [], 0, none, false⟩)

/-- The process crashes when the first of two tool calls has been passed on. -/
theorem stream_recoverable_firstCall :
    ((streamMachine [.toolCall 1, .toolCall 2, .finish 3] 0).play (streamStart streamCall noStep)
        (streamMoves 9)).world.downstream = [.toolCall 1] ∧
      Recoverable [.toolCall 1, .toolCall 2, .finish 3] 0
        ((streamMachine [.toolCall 1, .toolCall 2, .finish 3] 0).play (streamStart streamCall noStep)
          (streamMoves 9)).world
        (∃ x, ((streamMachine [.toolCall 1, .toolCall 2, .finish 3] 0).play
          (streamStart streamCall noStep) (streamMoves 9)).procs 0 = .pure (.ok x)) :=
  ⟨by decide +kernel, stream_recoverable streamCall noStep rfl [.toolCall 1, .toolCall 2, .finish 3] 0
    (streamMoves 9) (by decide +kernel)⟩

/-- A stream that ends without a finish is replayed as it was: nothing completes it. -/
theorem replayed_without_finish :
    (streamMachine [.other 1] 0).Meets WritesSucceed (streamStart streamCall noStep)
        (streamMoves 20) ∧
      Resumes ((streamMachine [.other 1] 0).play (streamStart streamCall noStep)
        (streamMoves 20)).world.model (.streamed [.other 1] 0) ∧
      [RecordedPart.other 1].countP (·.isFinish) ≠ 1 := by
  refine ⟨by decide +kernel, ?_, by decide⟩
  have hrecord : ((streamMachine [.other 1] 0).play (streamStart streamCall noStep)
      (streamMoves 20)).world.model.record = some (.streamed [.other 1] 0 false) := by
    decide +kernel
  exact resumes_replay hrecord

end Gnldev.Durable
