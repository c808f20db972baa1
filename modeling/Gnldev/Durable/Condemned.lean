import Gnldev.Durable.Compensation
import Gnldev.Durable.Tool.Effects

/-!
# Condemned runs

An unwinding lists the records of its run, and condemns it afterwards. What it reports
as undone should be all there is: no call of the run takes effect beside the list
(`CondemnedUnwound`).

A call looks for the tombstone, and claims its key later. When the listing, or the
listing and the tombstone, come in between, the call is neither listed nor stopped
(`condemned_escapes`). Otherwise nothing escapes (`condemned_unwound`): the calls that
have passed their gate when the run is listed, and have not returned, are listed, and
between the listing and the tombstone no call passes it. From the tombstone on the gate
is closed (`not_goesPast`).

The argument: a record of the run becomes a success only by a call that is past its gate,
or has read a success. As long as a key that was not listed is *quiet* (`Quiet`), no
call with the key is either.
-/

namespace Gnldev.Durable

open Prog Function

variable {V : Type}

/-! ## What an unwinding promises -/

/-- The record is a success of the run's own, no copy of one that runs share. -/
def OwnSuccess (w : ToolWorld V) (key : JsString) : Prop :=
  ∃ raw, w.recs.val key = some raw ∧ raw.mirrorOf = none ∧ raw.record.isSucceeded

/-- A record of a tool with a hook: if the key is that of calls, one of them is of a tool
    with a hook. -/
def HookedKey (jobs : ℕ → UnwindJob) (hasHook : JsString → Bool) (key : JsString) : Prop :=
  ∀ i c, jobs i = .call c → c.key = .ok key →
    ∃ k d, jobs k = .call d ∧ d.key = .ok key ∧ hasHook d.tool.name

/-- The records of the run `runId` that are successes, of tools with hooks, are in the
    report. -/
def Reported (jobs : ℕ → UnwindJob) (hasHook : JsString → Bool) (runId : JsString)
    (report : CompensationReport) (w : UnwindWorld V) : Prop :=
  ∀ suffix, HookedKey jobs hasHook (runKeys.tool runId suffix) →
    OwnSuccess w.tools (runKeys.tool runId suffix) → ∃ e ∈ report.entries, e.suffix = suffix

/-- The run `ms`, in which the job `j` is an unwinding of the run `runId`: from when it has
    returned a report whose entries are all settled, the successes are in the report. -/
def CondemnedUnwound [DecidableEq V] (jobs : ℕ → UnwindJob) (hasHook : JsString → Bool)
    (w : UnwindWorld V) (ms : List (Move (UnwindAnswer V) ℕ)) (j : ℕ) (runId : JsString) : Prop :=
  ∀ n m report, n ≤ m →
    ((unwindMachine jobs).play (unwindStart w jobs) (ms.take n)).procs j = .pure (.inr (.ok report)) →
    (∀ e ∈ report.entries, e.status.settled) →
    Reported jobs hasHook runId report
      ((unwindMachine jobs).play (unwindStart w jobs) (ms.take m)).world

/-! ## When it keeps the promise -/

/-- The record is listed when its run is read. -/
def Listable (runId : JsString) (w : ToolWorld V) (key : JsString) : Prop :=
  parseJournalKey key = some (runId, .tool) ∧
    ∃ raw, w.recs.val key = some raw ∧ raw.mirrorOf = none ∧ raw.record.executed

/-- The call reads a copy of a success. -/
def seesCopy : (o : ToolOp V) → o.Res → Bool
  | .rec_ _ (.get _), .ok (some raw) => raw.mirrorOf.isSome && raw.record.isSucceeded
  | _, _ => false

/-- The job has not returned, and it is a call with the key that is past its gate, or has
    read a success. -/
def Underway (jobs : ℕ → UnwindJob)
    (conf : Conf (UnwindOp V) UnwindOp.Res (JobResult V) (UnwindWorld V)) (key : JsString)
    (i : ℕ) : Prop :=
  (∃ c, jobs i = .call c ∧ c.key = .ok key) ∧ (∀ x, conf.procs i ≠ .pure x) ∧
    (conf.world.past i ∨ conf.world.sawSuccess i)

/-- The call looks for the tombstone of the run before it claims. -/
def HasGate (c : ToolCall) (runId : JsString) : Prop := c.sideEffect = true ∧ c.ctx.runId = runId

/-- The operation does not let a call of a tool with a hook slip past the unwinding `j`:
    whatever is a success or underway at the listing is listed, between the listing and the
    tombstone no call passes its gate, and after the listing none reads a copy, or claims
    if it has no gate. -/
def Undisturbed (jobs : ℕ → UnwindJob) (hasHook : JsString → Bool) (j : ℕ) (runId : JsString)
    (conf : Conf (UnwindOp V) UnwindOp.Res (JobResult V) (UnwindWorld V)) (i : ℕ) :
    (o : UnwindOp V) → o.Res → Prop
  | .tool o, r => ∀ c suffix, jobs i = .call c → c.key = .ok (runKeys.tool runId suffix) →
    HookedKey jobs hasHook (runKeys.tool runId suffix) → conf.world.listed j = true →
    ¬seesCopy o r ∧ (conf.world.sealed j = false ∨ ¬HasGate c runId → ¬goesPast c o r)
  | .readRun _, .ok _ => i = j → ∀ suffix, HookedKey jobs hasHook (runKeys.tool runId suffix) →
    (OwnSuccess conf.world.tools (runKeys.tool runId suffix) ∨
      ∃ k, Underway jobs conf (runKeys.tool runId suffix) k) →
    Listable runId conf.world.tools (runKeys.tool runId suffix)
  | _, _ => True

/-! ## What the jobs do -/

/-- How far a job is: what a call knows and whether it has passed its gate, and what an
    unwinding has read. -/
structure JobPhase (V : Type) where
  knows : Local V
  passed : Bool
  read : Option (List (JsString × Stored V))

def JobPhase.init : JobPhase V := ⟨.init, false, none⟩

/-- What is read of a run by an operation. -/
def reads : (o : UnwindOp V) → o.Res → Option (List (JsString × Stored V))
  | .readRun _, .ok reading => some reading.tools
  | _, _ => none

/-- The operation neither reads a run nor condemns it, and is none of a tool. -/
def UnwindOp.quiet : UnwindOp V → Bool
  | tool _ => false
  | readRun _ => false
  | condemn _ => false
  | _ => true

/-- The protocol of a job. -/
def JobStep : UnwindJob → JobPhase V → (o : UnwindOp V) → o.Res → JobPhase V → Prop
  | .call c, s, .tool o, r, s' =>
    CallStep c c.keyOr c.marker s.knows o r s'.knows ∧ GateStep c s.passed o r s'.passed
  | .call _, _, _, _, _ => False
  | .unwind _, _, .tool _, _, _ => False
  | .unwind u, s, o, r, s' => (∀ runId, o = .readRun runId ∨ o = .condemn runId → runId = u.runId) ∧
    s' = { s with read := (reads o r).or s.read }

/-- A report is about the records that were read, the last one first. -/
def Accounts (u : UnwindCall) (s : JobPhase V) (report : CompensationReport) : Prop :=
  ∃ tools work, s.read = some tools ∧ worklist u.runId tools = .ok work ∧
    report.entries.map (·.suffix) = work.reverse.map (·.suffix)

def JobEnds : UnwindJob → JobPhase V → JobResult V → Prop
  | .unwind u, s, .inr (.ok report) => Accounts u s report
  | _, _, _ => True

/-- The operations of a call are those of its tool. -/
theorem ofTool_follows {α σ : Type} {step : σ → (o : ToolOp V) → o.Res → σ → Prop}
    {step' : σ → (o : UnwindOp V) → o.Res → σ → Prop}
    (hstep : ∀ s o r s', step s o r s' → step' s (.tool o) r s')
    {p : Prog (ToolOp V) ToolOp.Res α} {s : σ} {Q : σ → α → Prop} (h : p.Follows step s Q) :
    (ofTool p).Follows step' s Q :=
  h.lift fun s o _ hs r =>
    let ⟨s', hs, hx⟩ := hs r
    ⟨s', hstep s o r s' hs, hx⟩

section Silent

variable {u : UnwindCall} {α β : Type} {s₀ : JobPhase V}

/-- An unwinding that reads nothing: it stays in its phase. -/
def Silent (u : UnwindCall) (s₀ : JobPhase V) (p : UM V α) : Prop :=
  Runs (JobStep (.unwind u)) (· = s₀) p (fun s _ => s = s₀) fun s _ => s = s₀

theorem silent_pure (a : α) : Silent u s₀ (pure a) := runs_pure fun _ hs => hs

theorem Silent.bind {p : UM V α} {f : α → UM V β} (h : Silent u s₀ p)
    (hf : ∀ a, Silent u s₀ (f a)) : Silent u s₀ (p >>= f) := Runs.bind h hf

theorem Silent.ite {p : Prop} [Decidable p] {a b : UM V α} (ha : Silent u s₀ a)
    (hb : Silent u s₀ b) : Silent u s₀ (if p then a else b) := by
  split
  · exact ha
  · exact hb

theorem silent_orThrow (r : Except JsString α) : Silent u s₀ (UM.orThrow r) := by
  rcases r with e | a
  · exact fun _ hs => hs
  · exact fun _ hs => hs

theorem silent_perform {o : UnwindOp V} (ho : o.quiet = true) : Silent u s₀ (UM.perform o) := by
  rintro s rfl r
  refine ⟨s, ?_, rfl⟩
  rcases o with _ | _ | _ | _ | _ | _ | _
  · contradiction
  · contradiction
  · contradiction
  all_goals exact ⟨by rintro _ (h | h) <;> contradiction, rfl⟩

theorem silent_condemn : Silent u s₀ (UM.perform (.condemn u.runId)) := by
  rintro s rfl r
  refine ⟨s, ⟨fun runId h => ?_, rfl⟩, rfl⟩
  rcases h with h | h
  · contradiction
  · exact (UnwindOp.condemn.inj h).symm

theorem silent_now : Silent u s₀ (UM.perform .now) := silent_perform rfl

theorem silent_onComp (o : KvOp JsString (CompRecord V)) :
    Silent u s₀ (UnwindCall.onComp o) :=
  (silent_perform rfl).bind silent_orThrow

theorem silent_resolve (hooks : Option UnwindHooks) (w : Work V) :
    Silent u s₀ (UnwindCall.resolve hooks w) := by
  unfold UnwindCall.resolve
  split
  · exact silent_pure _
  · refine .ite ((silent_perform rfl).bind fun probe => ?_) (silent_pure _)
    rcases probe with output | _ | _ <;> exact silent_pure _

theorem silent_claimComp (ck : JsString) (existing : Option (CompRecord V)) :
    Silent u s₀ (UnwindCall.claimComp ck existing) := by
  have hput : Silent u s₀ (do
      let now ← UM.perform .now
      UnwindCall.onComp (.put ck (.running now))
      return true) :=
    silent_now.bind fun _ => (silent_onComp _).bind fun _ => silent_pure _
  rcases existing with _ | _ | _ | startedAt
  · exact silent_now.bind fun _ => silent_onComp _
  · exact hput
  · exact hput
  · exact silent_now.bind fun _ => .ite (silent_pure _) hput

theorem silent_runHook (suffix : JsString) (existing : Option (CompRecord V)) :
    Silent u s₀ (u.runHook suffix existing) := by
  refine Runs.tryCatch (Y := fun s _ => s = s₀) ?_ fun e => ?_
  · exact (silent_perform rfl).bind fun r => (silent_orThrow r).bind fun _ =>
      silent_now.bind fun _ => (silent_onComp _).bind fun _ => silent_pure _
  · exact (silent_onComp _).bind fun _ => silent_pure _

theorem silent_compensateOnce (suffix : JsString) :
    Silent u s₀ (u.compensateOnce suffix : UM V CompStatus) := by
  refine (silent_onComp _).bind fun existing => ?_
  have hrest : Silent u s₀ (do
      if u.dryRun then return .wouldCompensate
      else if ← UnwindCall.claimComp (u.compKey suffix) existing then u.runHook suffix existing
      else return .busy : UM V CompStatus) :=
    .ite (silent_pure _) ((silent_claimComp _ _).bind fun _ =>
      .ite (silent_runHook _ _) (silent_pure _))
  rcases existing with _ | _ | _ | _
  · exact hrest
  · exact silent_pure _
  · exact hrest
  · exact hrest

theorem silent_unwindOne (hooks : Option UnwindHooks) (w : Work V) :
    Silent u s₀ (u.unwindOne hooks w) := by
  refine (silent_resolve hooks w).bind fun what => ?_
  rcases what with output | status
  · exact .ite (silent_compensateOnce _) (silent_pure _)
  · exact silent_pure _

/-- There is one entry for each record, in the order of the work. -/
theorem unwind_runs (reading : RunReading V) (work : List (Work V)) (stopped : Bool) :
    Runs (JobStep (.unwind u)) (· = s₀) (u.unwind reading work stopped)
      (fun s es => s = s₀ ∧ es.map (·.suffix) = work.map (·.suffix)) fun s _ => s = s₀ := by
  induction work generalizing stopped with
  | nil => exact runs_pure fun _ hs => ⟨hs, rfl⟩
  | cons w work ih =>
    have hrest (status : CompStatus) : Runs (JobStep (.unwind u)) (· = s₀) (do
        let rest ← u.unwind reading work (stopped || status = .busy || status = .failed)
        return ⟨w.suffix, w.toolCallId, w.toolName u.runId reading, status⟩ :: rest)
        (fun s es => s = s₀ ∧ es.map (·.suffix) = (w :: work).map (·.suffix))
        fun s _ => s = s₀ := by
      refine Runs.bind (ih _) fun rest => runs_pure ?_
      rintro s ⟨hs, hrest⟩
      exact ⟨hs, congrArg (w.suffix :: ·) hrest⟩
    rw [UnwindCall.unwind]
    split
    · exact Runs.bind (silent_pure _) hrest
    · exact Runs.bind (silent_unwindOne _ _) hrest

end Silent

/-- What is read is kept, whatever happens to the records afterwards. -/
theorem compensateRun_runs (u : UnwindCall) :
    Runs (JobStep (.unwind u)) (· = JobPhase.init) (u.compensateRun : UM V _) (Accounts u)
      fun _ _ => True := by
  refine Runs.bind (Q := fun s r => s.read = r.toOption.map (·.tools)) ?_ fun r => ?_
  · rintro s rfl r
    refine ⟨_, ⟨?_, rfl⟩, ?_⟩
    · rintro runId (h | h)
      · exact (UnwindOp.readRun.inj h).symm
      · contradiction
    · rcases r with e | reading <;> rfl
  refine Runs.bind (Q := fun s reading => s.read = some reading.tools) ?_ fun reading => ?_
  · rcases r with e | reading
    · exact fun _ _ => trivial
    · exact fun s hs => hs
  refine Runs.bind (Q := fun s work => s.read = some reading.tools ∧
    worklist u.runId reading.tools = .ok work) ?_ fun work => ?_
  · intro s hs
    show Ends _ _ s (worklist u.runId reading.tools)
    rcases worklist u.runId reading.tools with e | work
    · trivial
    · exact ⟨hs, rfl⟩
  rintro s₀ ⟨hread, hwork⟩
  have hend : Runs (JobStep (.unwind u)) (· = s₀) (do
      let entries ← u.unwind reading work.reverse false
      return ⟨u.runId, u.dryRun, !u.dryRun, entries⟩ : UM V CompensationReport)
      (Accounts u) fun s _ => s = s₀ := by
    refine Runs.bind (unwind_runs reading work.reverse false) fun entries => runs_pure ?_
    rintro s ⟨rfl, hentries⟩
    exact ⟨reading.tools, work, hread, hwork, hentries⟩
  refine ((?_ : Runs (JobStep (.unwind u)) (· = s₀) _ (Accounts u) fun s _ => s = s₀).drop) s₀ rfl
  dsimp only
  split
  · exact Runs.bind silent_now fun _ => Runs.bind silent_condemn fun r =>
      Runs.bind (silent_orThrow r) fun _ => hend
  · exact hend

theorem compensateRun_follows (u : UnwindCall) :
    (UnwindJob.unwind u).prog.Follows (JobStep (.unwind u)) (JobPhase.init : JobPhase V)
      (JobEnds (.unwind u)) := by
  refine (compensateRun_runs u _ rfl).bind fun s r hr => ?_
  rcases r with e | report
  · trivial
  · exact hr

variable {c : ToolCall} {runId suffix : JsString}

theorem ToolCall.key_of_keyOr (h : runKeys.tool runId suffix = c.keyOr) :
    c.key = .ok (runKeys.tool runId suffix) := by
  rw [keyOr] at h
  generalize c.key = key at h
  rcases key with e | k
  · have hmem : sep ∈ runKeys.tool runId suffix := by
      rw [runKeys.tool, List.append_assoc]
      exact List.mem_append_right _ (List.mem_append_left _ (by decide))
    rw [h] at hmem
    contradiction
  · exact congrArg Except.ok h.symm

theorem job_follows (job : UnwindJob) :
    job.prog.Follows (JobStep job) (JobPhase.init : JobPhase V) (JobEnds job) := by
  rcases job with c | u
  · have hcall := (execute_follows (V := V) ToolCall.eq_keyOr ToolCall.eq_marker).prod
      (execute_gated c)
    have hjob : c.execute.run.Follows (fun s o r s' => JobStep (.call c) s (.tool o) r s')
        (JobPhase.init : JobPhase V) fun _ _ => True :=
      hcall.sim (fun x : Local V × Bool => (⟨x.1, x.2, none⟩ : JobPhase V)) (fun _ _ _ _ h => h)
        fun _ _ _ => trivial
    exact (ofTool_follows (fun _ _ _ _ h => h) hjob).bind fun _ _ _ => trivial
  · exact compensateRun_follows u

/-! ## What a call leaves behind -/

/-- A success that the call may put: it has claimed, or claims, or has read one. -/
def Backed (s : Local V) (o : ToolOp V) : Prop :=
  s.claimed.isSome ∨ claims o ∨ ∃ base ∈ s.known, base.isSucceeded

variable {key : JsString}

/-- A put of a success is backed. -/
theorem backed_of_put {k : JsString} {dupKey : Option JsString} {s : Local V} {v : Stored V}
    {site : Site V} (h : AllowedPut c key dupKey s k v site) (hsite : site ≠ .mirror)
    (hv : v.record.isSucceeded) : Backed s (.rec_ site (.put k v)) := by
  rcases site with _ | _ | _ | _ | _ | _ | base | _
  case terminal => exact .inl (h.2.2 hv).1
  case recovered => exact .inr (.inl rfl)
  case track =>
    refine .inr (.inr ⟨base, h.2.2.1, ?_⟩)
    rw [h.2.2.2] at hv
    rcases base with _ | _ | _ | _ | _ | _
    · exact hv
    · rfl
    all_goals exact hv
  case mirror => exact absurd rfl hsite
  all_goals exact h.elim

section Does

variable {c : ToolCall} {key : JsString} {dupKey : Option JsString} {i : ℕ} {w w' : ToolWorld V}
  {s s' : Local V} {o : ToolOp V} {r : o.Res} (h : Does c key dupKey i w s o r w' s')
include h

theorem Does.claimed (hs : s'.claimed.isSome) : s.claimed.isSome ∨ claims o := by
  cases h with
  | read site =>
    rw [(s.grows_learn (o := .rec_ site (.get key)) trivial _).claimed] at hs
    exact .inl hs
  | first => exact .inr rfl
  | takeover => exact .inr rfl
  | _ => exact .inl hs

/-- A success that the call knows: it knew it, reads it, or puts it. -/
theorem Does.known {x : ToolRecord V} (hx : x ∈ s'.known) (hsucc : x.isSucceeded) :
    x ∈ s.known ∨ seesSuccess o r ∨ Backed s o := by
  cases h with
  | read site =>
    have hmem : x ∈ (s.saw c (w.recs.val key)).known := by cases site <;> exact hx
    rcases hval : w.recs.val key with _ | raw
    · rw [hval] at hmem
      exact .inl hmem
    · rw [hval] at hmem
      rcases List.mem_cons.1 hmem with rfl | hmem
      · exact .inr (.inl hsucc)
      · exact .inl hmem
  | put site v hsite hput =>
    rcases List.mem_cons.1 hx with rfl | hx
    · exact .inr (.inr (backed_of_put hput hsite hsucc))
    · exact .inl hx
  | _ => exact .inl hx

/-- A record after the operation: it was there, it is the call's own, or a copy. -/
theorem Does.val (hmark : Marked o) {k : JsString} {raw : Stored V}
    (hraw : w'.recs.val k = some raw) (hown : raw.mirrorOf = none) (hsucc : raw.record.isSucceeded) :
    w.recs.val k = some raw ∨ k = key ∧ Backed s o := by
  have hclaim (t : Int) (n : ℕ) (hw : (w.claimRec i key t n).recs.val k = some raw) :
      w.recs.val k = some raw := by
    by_cases hk : k = key
    · subst hk
      rw [ToolWorld.claimRec, Kv.set_val_self] at hw
      obtain rfl := Option.some.inj hw
      contradiction
    · rwa [ToolWorld.claimRec, Kv.set_val_of_ne _ _ _ _ hk] at hw
  cases h with
  | idle _ _ _ _ hrecs =>
    rw [hrecs] at hraw
    exact .inl hraw
  | first _ t => exact .inl (hclaim t 1 hraw)
  | takeover _ _ t n => exact .inl (hclaim t n hraw)
  | put site v hsite hput =>
    by_cases hk : k = key
    · subst hk
      rw [ToolWorld.putRec, Kv.set_val_self] at hraw
      obtain rfl := Option.some.inj hraw
      exact .inr ⟨rfl, backed_of_put hput hsite hsucc⟩
    · rw [ToolWorld.putRec, Kv.set_val_of_ne _ _ _ _ hk] at hraw
      exact .inl hraw
  | mirror k' v =>
    by_cases hk : k = k'
    · subst hk
      rw [ToolWorld.putRec, Kv.set_val_self] at hraw
      obtain rfl := Option.some.inj hraw
      -- What is put under another key says that it is a copy.
      have hcopy : v.mirrorOf.isSome := hmark
      rw [hown] at hcopy
      contradiction
    · rw [ToolWorld.putRec, Kv.set_val_of_ne _ _ _ _ hk] at hraw
      exact .inl hraw
  | _ => exact .inl hraw

end Does

variable {i : ℕ}

/-- A success that a call reads is under its key, and is its own or a copy. -/
theorem sees_of_exec [DecidableEq V] {dupKey : Option JsString} {s : Local V} {o : ToolOp V}
    (ho : Allowed c key dupKey s o) {a : ToolAnswer V} {w : ToolWorld V}
    (hsees : seesSuccess o (toolMachine.exec i a o w).1) :
    OwnSuccess w key ∨ seesCopy o (toolMachine.exec i a o w).1 := by
  rcases o with ⟨site, k | ⟨k, v⟩ | ⟨k, v⟩ | ⟨k, e, v⟩⟩ | _ | _ | _ | _ | _ | _ | _
  · obtain rfl : k = key := ho
    rcases a with ⟨ask, output, _ | e⟩
    · have hval : (toolMachine.exec i ⟨ask, output, none⟩ (.rec_ site (.get k)) w).1 =
        .ok (w.recs.val k) := rfl
      rw [hval] at hsees ⊢
      rcases hraw : w.recs.val k with _ | raw
      · rw [hraw] at hsees
        contradiction
      · rw [hraw] at hsees
        rcases hcopy : raw.mirrorOf with _ | copied
        · exact .inl ⟨raw, hraw, hcopy, hsees⟩
        · refine .inr ?_
          rw [seesCopy, hcopy]
          exact hsees
    · contradiction
  all_goals contradiction

/-! ## What is listed -/

/-- What an unwinding has read has the record, to be undone. -/
def HasWork (tools : List (JsString × Stored V)) (key : JsString) : Prop :=
  ∃ raw, (key, raw) ∈ tools ∧ raw.mirrorOf = none ∧ raw.record.executed

theorem hasWork_of_listable {w : ToolWorld V} (hw : w.recs.Linked) (h : Listable runId w key) :
    HasWork (toolEntries w.recs runId) key := by
  obtain ⟨hparse, raw, hraw, hown, hexec⟩ := h
  refine ⟨raw, List.mem_filterMap.2 ⟨key, mem_firstKeys.2 ?_, ?_⟩, hown, hexec⟩
  · rw [hw.val] at hraw
    obtain ⟨wr, hwr, hkey, -⟩ := Kv.mem_log_of_valueOf hraw
    exact ⟨wr, hwr, hkey⟩
  · rw [if_pos hparse, hraw]
    rfl

/-- One record: the rest of the work is there, and the record if it is to be undone. -/
theorem worklist_cons {raw : Stored V} {tools : List (JsString × Stored V)} {work : List (Work V)}
    (h : worklist runId ((key, raw) :: tools) = .ok work) :
    ∃ rest, worklist runId tools = .ok rest ∧ (∀ x ∈ rest, x ∈ work) ∧
      ∀ suffix, key = runKeys.tool runId suffix → raw.mirrorOf = none → raw.record.executed →
        ∃ x ∈ work, x.suffix = suffix := by
  rw [worklist] at h
  split at h
  · next hp =>
    refine ⟨work, h, fun _ hx => hx, ?_⟩
    rintro suffix rfl
    have hsome := afterPrefix_eq_some_iff.2 (show runKeys.tool runId suffix = _ ++ suffix from rfl)
    rw [hp] at hsome
    contradiction
  · next suffix hp =>
    have hkey := afterPrefix_eq_some_iff.1 hp
    split at h
    · contradiction
    · next record hrecord =>
      obtain rfl := upgradeFormat_eq hrecord
      split at h
      · rcases hrest : worklist runId tools with e | rest
        · rw [hrest] at h
          contradiction
        · rw [hrest] at h
          obtain rfl := Except.ok.inj h
          refine ⟨rest, rfl, fun _ hx => .tail _ hx, fun suffix' hkey' _ _ => ?_⟩
          refine ⟨_, .head _, ?_⟩
          rw [hkey', runKeys.tool, List.append_cancel_left_eq] at hkey
          exact hkey.symm
      · next hnot =>
        refine ⟨work, h, fun _ hx => hx, fun _ _ hown hexec => absurd ?_ hnot⟩
        rw [hown, hexec]
        rfl

/-- The worklist has every record to be undone. -/
theorem mem_worklist {tools : List (JsString × Stored V)} {work : List (Work V)}
    (hwork : worklist runId tools = .ok work) (h : HasWork tools (runKeys.tool runId suffix)) :
    ∃ x ∈ work, x.suffix = suffix := by
  obtain ⟨raw, hmem, hown, hexec⟩ := h
  induction tools generalizing work with
  | nil => contradiction
  | cons t tools ih =>
    obtain ⟨rest, hrest, hsub, hhead⟩ := worklist_cons hwork
    rcases List.mem_cons.1 hmem with rfl | hmem
    · exact hhead suffix rfl hown hexec
    · obtain ⟨x, hx, hsuffix⟩ := ih hrest hmem
      exact ⟨x, hsub x hx, hsuffix⟩

/-! ## The invariant -/

section Invariant

variable {jobs : ℕ → UnwindJob} {hasHook : JsString → Bool} {j : ℕ} {runId : JsString}

/-- The key has no success, and no call with it is underway. -/
structure Quiet (jobs : ℕ → UnwindJob)
    (conf : Conf (UnwindOp V) UnwindOp.Res (JobResult V) (UnwindWorld V)) (key : JsString) :
    Prop where
  val : ¬OwnSuccess conf.world.tools key
  calls : ∀ i, ¬Underway jobs conf key i

/-- A call that may put a success is past its gate, or has read one; and what the unwinding
    `j` has not read stays quiet. -/
structure CondemnedInv (jobs : ℕ → UnwindJob) (hasHook : JsString → Bool) (j : ℕ)
    (runId : JsString) (conf : Conf (UnwindOp V) UnwindOp.Res (JobResult V) (UnwindWorld V))
    (ph : ℕ → JobPhase V) : Prop where
  linked : conf.world.tools.recs.Linked
  passed : ∀ i, (ph i).passed → conf.world.past i
  claimed : ∀ i, (ph i).knows.claimed.isSome → conf.world.past i
  known : ∀ i, ∀ x ∈ (ph i).knows.known, x.isSucceeded →
    conf.world.past i ∨ conf.world.sawSuccess i
  listed : (ph j).read.isSome → conf.world.listed j
  sealed : conf.world.sealed j → conf.world.condemned runId
  settled : ∀ tools, (ph j).read = some tools → ∀ suffix,
    HookedKey jobs hasHook (runKeys.tool runId suffix) →
    HasWork tools (runKeys.tool runId suffix) ∨ Quiet jobs conf (runKeys.tool runId suffix)

/-- The gate of a call asks the journal; otherwise it is a call as others. -/
theorem callExec_eq [DecidableEq V] (c : ToolCall) (condemned : JsString → Bool) (i : ℕ)
    (a : ToolAnswer V) (o : ToolOp V) (w : ToolWorld V) :
    ∃ a', callExec c condemned i a o w = toolMachine.exec i a' o w := by
  by_cases ho : o = .ask .compensated
  · subst ho
    classical
    refine ⟨{ a with ask := update a.ask .compensated (condemned c.ctx.runId) }, ?_⟩
    rcases a with ⟨ask, output, _ | e⟩
    · change (Except.ok _, w) = (Except.ok (update ask .compensated _ .compensated), w)
      rw [update_self]
    · rfl
  · refine ⟨a, ?_⟩
    unfold callExec
    split
    · exact absurd rfl ho
    · rfl

/-- The gate of a condemned run lets no call pass. -/
theorem not_goesPast [DecidableEq V] {c : ToolCall} {condemned : JsString → Bool} {i : ℕ}
    {a : ToolAnswer V} {o : ToolOp V} {w : ToolWorld V} (hgated : HasGate c runId)
    (h : condemned runId = true) : ¬goesPast c o (callExec c condemned i a o w).1 := by
  have hnot : foundAlive o (callExec c condemned i a o w).1 = false := by
    rcases o with _ | _ | _ | _ | _ | _ | _ | _
    case ask ask =>
      rcases a with ⟨answers, output, _ | e⟩
      · cases ask with
        | compensated =>
          change (!condemned c.ctx.runId) = false
          rw [hgated.2, h]
          rfl
        | _ => rfl
      · cases ask <;> rfl
    all_goals rfl
  rw [goesPast, hnot, hgated.1]
  simp

section Call

variable {conf : Conf (UnwindOp V) UnwindOp.Res (JobResult V) (UnwindWorld V)}
  {ph : ℕ → JobPhase V} {i : ℕ} {c : ToolCall} {o : ToolOp V} {r : o.Res} {s' : JobPhase V}
  (h : CondemnedInv jobs hasHook j runId conf ph) (hgate : GateStep c (ph i).passed o r s'.passed)
include h hgate

/-- Who claims is past the gate, or goes past it. -/
theorem CondemnedInv.past_of_claims (ho : claims o) : conf.world.past i ∨ goesPast c o r := by
  by_cases hside : c.sideEffect = true
  · exact .inl (h.passed i (hgate.1 ho hside))
  · refine .inr ?_
    rw [goesPast, ho, Bool.eq_false_iff.2 hside]
    exact Bool.or_true _

theorem CondemnedInv.of_backed (hb : Backed (ph i).knows o) :
    (conf.world.past i ∨ goesPast c o r) ∨ conf.world.sawSuccess i := by
  rcases hb with hb | hb | ⟨base, hbase, hsucc⟩
  · exact .inl (.inl (h.claimed i hb))
  · exact .inl (h.past_of_claims hgate hb)
  · rcases h.known i base hbase hsucc with hpast | hsaw
    · exact .inl (.inl hpast)
    · exact .inr hsaw

variable {w' : ToolWorld V} (hi : jobs i = .call c) (hrun : ∀ x, conf.procs i ≠ .pure x)
  (hdoes : Does c c.keyOr c.marker i conf.world.tools (ph i).knows o r w' s'.knows)
  (hsees : seesSuccess o r → OwnSuccess conf.world.tools c.keyOr ∨ seesCopy o r)
  (hclosed : HasGate c runId → conf.world.condemned runId = true → ¬goesPast c o r)
  (hok : Undisturbed jobs hasHook j runId conf i (.tool o) r)
  (p : Prog (UnwindOp V) UnwindOp.Res (JobResult V))
include hi hrun hdoes hsees hclosed hok

/-- A key that is quiet stays so. -/
theorem CondemnedInv.quiet_call (hlisted : conf.world.listed j) {suffix : JsString}
    (hhook : HookedKey jobs hasHook (runKeys.tool runId suffix))
    (hq : Quiet jobs conf (runKeys.tool runId suffix)) :
    Quiet jobs ⟨{ conf.world with
        tools := w'
        past := update conf.world.past i (conf.world.past i || goesPast c o r)
        sawSuccess :=
          update conf.world.sawSuccess i (conf.world.sawSuccess i || seesSuccess o r) },
      update conf.procs i p⟩ (runKeys.tool runId suffix) := by
  -- A call with the key is not past its gate, and does not go past it.
  have hself (hkey : c.key = .ok (runKeys.tool runId suffix)) :
      ¬(conf.world.past i ∨ goesPast c o r) ∧ ¬(conf.world.sawSuccess i ∨ seesSuccess o r) := by
    have hnot : ¬(conf.world.past i ∨ conf.world.sawSuccess i) := fun hu =>
      hq.calls i ⟨⟨c, hi, hkey⟩, hrun, hu⟩
    obtain ⟨hcopy, hopen⟩ := hok c suffix hi hkey hhook hlisted
    have hfree : ¬(goesPast c o r ∨ seesCopy o r) := by
      rintro (hp | hp)
      · -- Before the tombstone no call goes past; after it the gate is closed.
        by_cases hgated : conf.world.sealed j = true ∧ HasGate c runId
        · exact hclosed hgated.2 (h.sealed hgated.1) hp
        · refine hopen ?_ hp
          rw [not_and_or, Bool.not_eq_true] at hgated
          exact hgated
      · exact hcopy hp
    refine ⟨fun hp => ?_, fun hs => ?_⟩
    · rcases hp with hp | hp
      · exact hnot (.inl hp)
      · exact hfree (.inl hp)
    · rcases hs with hs | hs
      · exact hnot (.inr hs)
      · rcases hsees hs with hown | hcopy
        · rw [← ToolCall.eq_keyOr _ hkey] at hown
          exact hq.val hown
        · exact hfree (.inr hcopy)
  refine ⟨?_, fun i' hu => ?_⟩
  · rintro ⟨raw, hraw, hown, hsucc⟩
    rcases hdoes.val hgate.2.1 hraw hown hsucc with hraw | ⟨hkey, hb⟩
    · exact hq.val ⟨raw, hraw, hown, hsucc⟩
    · obtain ⟨hpast, hsaw⟩ := hself (ToolCall.key_of_keyOr hkey)
      rcases h.of_backed hgate hb with hp | hs
      · exact hpast hp
      · exact hsaw (.inl hs)
  · obtain ⟨⟨d, hd, hkey⟩, hrun', hu⟩ := hu
    by_cases hi' : i' = i
    · subst hi'
      obtain rfl : c = d := by
        rw [hi] at hd
        exact UnwindJob.call.inj hd
      simp only [update_self, Bool.or_eq_true] at hu
      obtain ⟨hpast, hsaw⟩ := hself hkey
      exact hu.elim hpast hsaw
    · refine hq.calls i' ⟨⟨d, hd, hkey⟩, ?_, ?_⟩
      · simpa [hi'] using hrun'
      · simpa [hi'] using hu

/-- An operation of a call. -/
theorem CondemnedInv.call (hij : i ≠ j) : CondemnedInv jobs hasHook j runId
    ⟨{ conf.world with
        tools := w'
        past := update conf.world.past i (conf.world.past i || goesPast c o r)
        sawSuccess :=
          update conf.world.sawSuccess i (conf.world.sawSuccess i || seesSuccess o r) },
      update conf.procs i p⟩ (update ph i s') := by
  refine ⟨hdoes.linked h.linked, fun i' => ?_, fun i' => ?_, fun i' => ?_, ?_, h.sealed, ?_⟩
  · by_cases hi' : i' = i
    · subst hi'
      simp only [update_self, hgate.2.2, Bool.or_eq_true, goesPast]
      exact Or.imp (h.passed i') .inl
    · simpa [hi'] using h.passed i'
  · by_cases hi' : i' = i
    · subst hi'
      simp only [update_self, Bool.or_eq_true]
      intro hs
      rcases hdoes.claimed hs with hs | hs
      · exact .inl (h.claimed i' hs)
      · exact h.past_of_claims hgate hs
    · simpa [hi'] using h.claimed i'
  · by_cases hi' : i' = i
    · subst hi'
      simp only [update_self, Bool.or_eq_true]
      intro x hx hsucc
      rcases hdoes.known hx hsucc with hx | hs | hb
      · exact (h.known i' x hx hsucc).imp .inl .inl
      · exact .inr (.inr hs)
      · exact (h.of_backed hgate hb).imp id .inl
    · simpa [hi'] using h.known i'
  · rw [update_of_ne hij.symm]
    exact h.listed
  · rw [update_of_ne hij.symm]
    intro tools htools suffix hhook
    have hlisted := h.listed (by rw [htools]; rfl)
    exact (h.settled tools htools suffix hhook).imp id
      (h.quiet_call hgate hi hrun hdoes hsees hclosed hok p hlisted hhook)

end Call

section Unwinding

variable {conf : Conf (UnwindOp V) UnwindOp.Res (JobResult V) (UnwindWorld V)}
  {ph : ℕ → JobPhase V} {i : ℕ} {u : UnwindCall} {w' : UnwindWorld V}
  (hi : jobs i = .unwind u) (htools : w'.tools = conf.world.tools)
  (hpast : w'.past = conf.world.past) (hsaw : w'.sawSuccess = conf.world.sawSuccess)
  (p : Prog (UnwindOp V) UnwindOp.Res (JobResult V))
include hi htools hpast hsaw

/-- An unwinding leaves what is quiet quiet. -/
theorem Quiet.unwind {key : JsString} (hq : Quiet jobs conf key) :
    Quiet jobs ⟨w', update conf.procs i p⟩ key := by
  refine ⟨?_, fun i' hu => ?_⟩
  · rw [htools]
    exact hq.val
  · obtain ⟨⟨d, hd, hkey⟩, hrun, hu⟩ := hu
    have hne : i' ≠ i := by
      rintro rfl
      rw [hi] at hd
      contradiction
    simp only [update_of_ne hne, hpast, hsaw] at hrun hu
    exact hq.calls i' ⟨⟨d, hd, hkey⟩, hrun, hu⟩

/-- An operation of an unwinding: what is said of the reading of `j` is to be shown. -/
theorem CondemnedInv.unwind (h : CondemnedInv jobs hasHook j runId conf ph)
    {read : Option (List (JsString × Stored V))}
    (hlisted : (update ph i { ph i with read := read } j).read.isSome → w'.listed j)
    (hsealed : w'.sealed j → w'.condemned runId)
    (hsettled : ∀ tools, (update ph i { ph i with read := read } j).read = some tools →
      ∀ suffix, HookedKey jobs hasHook (runKeys.tool runId suffix) →
      HasWork tools (runKeys.tool runId suffix) ∨ Quiet jobs conf (runKeys.tool runId suffix)) :
    CondemnedInv jobs hasHook j runId ⟨w', update conf.procs i p⟩
      (update ph i { ph i with read := read }) := by
  have hknows (i' : ℕ) : (update ph i { ph i with read := read } i').knows = (ph i').knows ∧
      (update ph i { ph i with read := read } i').passed = (ph i').passed := by
    by_cases hi' : i' = i
    · subst hi'
      rw [update_self]
      exact ⟨rfl, rfl⟩
    · rw [update_of_ne hi']
      exact ⟨rfl, rfl⟩
  refine ⟨?_, fun i' => ?_, fun i' => ?_, fun i' => ?_, hlisted, hsealed,
    fun tools hread suffix hhook => ?_⟩
  · rw [htools]
    exact h.linked
  · rw [(hknows i').2, hpast]
    exact h.passed i'
  · rw [(hknows i').1, hpast]
    exact h.claimed i'
  · rw [(hknows i').1, hpast, hsaw]
    exact h.known i'
  · exact (hsettled tools hread suffix hhook).imp id (Quiet.unwind hi htools hpast hsaw p)

end Unwinding

/-- When the run has been listed, what is not in the list is quiet. -/
theorem settled_of_read {conf : Conf (UnwindOp V) UnwindOp.Res (JobResult V) (UnwindWorld V)}
    (hw : conf.world.tools.recs.Linked) {suffix : JsString}
    (hcond : (OwnSuccess conf.world.tools (runKeys.tool runId suffix) ∨
      ∃ k, Underway jobs conf (runKeys.tool runId suffix) k) →
      Listable runId conf.world.tools (runKeys.tool runId suffix)) :
    HasWork (toolEntries conf.world.tools.recs runId) (runKeys.tool runId suffix) ∨
      Quiet jobs conf (runKeys.tool runId suffix) := by
  by_cases hlist : Listable runId conf.world.tools (runKeys.tool runId suffix)
  · exact .inl (hasWork_of_listable hw hlist)
  · exact .inr ⟨fun hs => hlist (hcond (.inl hs)), fun k hk => hlist (hcond (.inr ⟨k, hk⟩))⟩

variable [DecidableEq V]

/-- An operation of a job that the protocol allows, and that does not disturb. -/
theorem CondemnedInv.step {u : UnwindCall} (hj : jobs j = .unwind u)
    {conf : Conf (UnwindOp V) UnwindOp.Res (JobResult V) (UnwindWorld V)} {ph : ℕ → JobPhase V}
    (h : CondemnedInv jobs hasHook j u.runId conf ph) {i : ℕ} {a : UnwindAnswer V} {o : UnwindOp V}
    {s' : JobPhase V} (hrun : ∀ x, conf.procs i ≠ .pure x)
    (hstep : JobStep (jobs i) (ph i) o ((unwindMachine jobs).exec i a o conf.world).1 s')
    (hok : Undisturbed jobs hasHook j u.runId conf i o
      ((unwindMachine jobs).exec i a o conf.world).1)
    (p : Prog (UnwindOp V) UnwindOp.Res (JobResult V)) :
    CondemnedInv jobs hasHook j u.runId
      ⟨((unwindMachine jobs).exec i a o conf.world).2, update conf.procs i p⟩
      (update ph i s') := by
  rcases hi : jobs i with c | u'
  · rw [hi] at hstep
    have hij : i ≠ j := by
      rintro rfl
      rw [hi] at hj
      contradiction
    rcases o with o | _ | _ | _ | _ | _ | _
    · have hexec : (unwindMachine jobs).exec i a (.tool o) conf.world =
          callStep c i a.tool o conf.world := by
        simp only [unwindMachine, hi]
      rw [hexec] at hstep hok ⊢
      obtain ⟨a', ha'⟩ := callExec_eq c conf.world.condemned i a.tool o conf.world.tools
      simp only [callStep, ha'] at hstep hok ⊢
      obtain ⟨hcall, hgate⟩ := hstep
      exact h.call hgate hi hrun (does_of_step hcall) (sees_of_exec hcall.1)
        (fun hgated hcond => ha' ▸ not_goesPast hgated hcond) hok p hij
    all_goals exact hstep.elim
  · rw [hi] at hstep
    -- An operation that reads no run: the phases are as before.
    have hquiet (w' : UnwindWorld V) (htools : w'.tools = conf.world.tools)
        (hpast : w'.past = conf.world.past) (hsaw : w'.sawSuccess = conf.world.sawSuccess)
        (hlisted : conf.world.listed j → w'.listed j)
        (hsealed : w'.sealed j → w'.condemned u.runId) :
        CondemnedInv jobs hasHook j u.runId ⟨w', update conf.procs i p⟩
          (update ph i { ph i with read := (ph i).read }) := by
      have hread : (update ph i { ph i with read := (ph i).read } j).read = (ph j).read := by
        rw [update_eq_self]
      refine h.unwind hi htools hpast hsaw p ?_ hsealed ?_
      · rw [hread]
        exact fun hs => hlisted (h.listed hs)
      · rw [hread]
        exact h.settled
    have hsame (x : Option JsString) {α : Type} (r : α) (w' : UnwindWorld V)
        (htools : w'.tools = conf.world.tools) (hpast : w'.past = conf.world.past)
        (hsaw : w'.sawSuccess = conf.world.sawSuccess) (hlisted : w'.listed = conf.world.listed)
        (hsealed : w'.sealed j → w'.condemned u.runId) :
        CondemnedInv jobs hasHook j u.runId
          ⟨(orFault x conf.world (r, w')).2, update conf.procs i p⟩
          (update ph i { ph i with read := (ph i).read }) := by
      rcases x with _ | e
      · exact hquiet w' htools hpast hsaw (by rw [hlisted]; exact id) hsealed
      · exact hquiet conf.world rfl rfl rfl id h.sealed
    rcases o with o | runId | _ | o | _ | _ | _
    · exact hstep.elim
    · obtain ⟨hrunId, rfl⟩ := hstep
      obtain rfl := hrunId runId (.inl rfl)
      rcases a with ⟨a, _ | e, recordTool, callTool, now, probe, result⟩
      · change CondemnedInv jobs hasHook j u.runId
          ⟨{ conf.world with listed := update conf.world.listed i true }, _⟩ _
        refine h.unwind hi ?_ ?_ ?_ p (fun hs => ?_) h.sealed fun tools hread suffix hhook => ?_
        · rfl
        · rfl
        · rfl
        · by_cases hij : j = i
          · subst hij
            exact update_self ..
          · rw [update_of_ne hij] at hs
            exact (update_of_ne hij ..).trans (h.listed hs)
        · by_cases hij : j = i
          · subst hij
            obtain rfl : u' = u := by
              rw [hi] at hj
              exact UnwindJob.unwind.inj hj
            rw [update_self] at hread
            obtain rfl := Option.some.inj hread
            exact settled_of_read h.linked (hok rfl suffix hhook)
          · rw [update_of_ne hij] at hread
            exact h.settled tools hread suffix hhook
      · exact hquiet conf.world rfl rfl rfl id h.sealed
    · obtain ⟨hrunId, rfl⟩ := hstep
      next runId =>
      obtain rfl := hrunId runId (.inr rfl)
      refine hsame a.fault _ _ rfl rfl rfl rfl fun hs => ?_
      by_cases hij : j = i
      · -- The tombstone is that of the run.
        subst hij
        obtain rfl : u' = u := by
          rw [hi] at hj
          exact UnwindJob.unwind.inj hj
        exact update_self ..
      · have hcond := h.sealed ((update_of_ne hij ..).symm.trans hs)
        dsimp only
        by_cases hrun : u.runId = u'.runId
        · rw [hrun, update_self]
        · rwa [update_of_ne hrun]
    · obtain ⟨-, rfl⟩ := hstep
      exact hsame a.fault _ _ rfl rfl rfl rfl h.sealed
    · obtain ⟨-, rfl⟩ := hstep
      exact hquiet conf.world rfl rfl rfl id h.sealed
    · obtain ⟨-, rfl⟩ := hstep
      exact hquiet conf.world rfl rfl rfl id h.sealed
    · obtain ⟨-, rfl⟩ := hstep
      exact hquiet conf.world rfl rfl rfl id h.sealed

/-- A run of calls and unwindings. -/
theorem CondemnedInv.run {u : UnwindCall} (hj : jobs j = .unwind u) {w : UnwindWorld V}
    (hw : w.tools.recs.Linked) {ms : List (Move (UnwindAnswer V) ℕ)}
    (hms : (unwindMachine jobs).Obeys (Undisturbed jobs hasHook j u.runId) (unwindStart w jobs) ms) :
    ∃ ph, CondemnedInv jobs hasHook j u.runId
        ((unwindMachine jobs).play (unwindStart w jobs) ms) ph ∧
      ∀ i, (((unwindMachine jobs).play (unwindStart w jobs) ms).procs i).Follows (JobStep (jobs i))
        (ph i) (JobEnds (jobs i)) := by
  refine Machine.obeys_induction (fun conf => ∃ ph, CondemnedInv jobs hasHook j u.runId conf ph ∧
    ∀ i, (conf.procs i).Follows (JobStep (jobs i)) (ph i) (JobEnds (jobs i))) ?_ ?_ ?_ hms
  · rintro conf i a o k ⟨ph, hinv, hfollows⟩ hp hok
    have hi := hfollows i
    rw [hp] at hi
    obtain ⟨s', hs, hk⟩ := hi ((unwindMachine jobs).exec i a o conf.world).1
    refine ⟨update ph i s', hinv.step hj (fun x => by simp [hp]) hs hok _, fun i' => ?_⟩
    by_cases hi' : i' = i
    · subst hi'
      simpa using hk
    · simpa [hi'] using hfollows i'
  · rintro conf n ⟨ph, hinv, hfollows⟩
    refine ⟨ph, ?_, hfollows⟩
    exact ⟨hinv.linked, hinv.passed, hinv.claimed, hinv.known, hinv.listed, hinv.sealed,
      fun tools hread suffix hhook => (hinv.settled tools hread suffix hhook).imp id fun hq =>
        ⟨hq.val, hq.calls⟩⟩
  · refine ⟨fun _ => JobPhase.init, ⟨hw, ?_, ?_, ?_, ?_, ?_, ?_⟩, fun i => job_follows (jobs i)⟩
    all_goals intros; contradiction

/-- Calls and unwindings, in any number and order, on any journal. An unwinding `j` whose
    listing no call of a tool with a hook slips past reports every success of its run:
    from when it has returned, whatever happens then. -/
theorem condemned_unwound (hasHook : JsString → Bool) {u : UnwindCall} (hj : jobs j = .unwind u)
    {w : UnwindWorld V} (hw : w.tools.recs.Linked) {ms : List (Move (UnwindAnswer V) ℕ)}
    (hms : (unwindMachine jobs).Obeys (Undisturbed jobs hasHook j u.runId) (unwindStart w jobs) ms) :
    CondemnedUnwound jobs hasHook w ms j u.runId := by
  rintro n m report hnm hret - suffix hhook hsucc
  obtain ⟨ph, hinv, hfollows⟩ := CondemnedInv.run hj hw (hms.take m)
  have hends := hfollows j
  rw [Machine.play_take_pure hnm hret, hj] at hends
  obtain ⟨tools, work, hread, hwork, hentries⟩ := hends
  rcases hinv.settled tools hread suffix hhook with hlisted | hq
  · obtain ⟨x, hx, rfl⟩ := mem_worklist hwork hlisted
    have hmem : x.suffix ∈ work.reverse.map (·.suffix) :=
      List.mem_map_of_mem (List.mem_reverse.2 hx)
    rw [← hentries] at hmem
    exact List.mem_map.1 hmem
  · exact absurd hsucc hq.val

end Invariant

/-! ## A worker and an operator -/

/-- An operator unwinds the run `r1`; its tools have hooks. -/
def operator : UnwindCall := ⟨js "r1", fun _ => some ⟨false, true⟩, false⟩

/-- A worker calls a tool of the run, and once more later. -/
def workerAndOperator (i : ℕ) : UnwindJob :=
  if i = 0 then .call (plainCall (js "r1") (js "a"))
  else if i = 2 then .call (plainCall (js "r1") (js "b"))
  else .unwind operator

/-- The tool returns, the hook does, and the record says which tool it is of. -/
def workerAnswer : UnwindAnswer ℕ :=
  ⟨plainAnswer (.value 7), none, fun _ => some (js "pay"), fun _ => none, 0, .unreadable, .ok 0⟩

/-- The job `i` makes `n` operations. -/
def workerSteps (i n : ℕ) : List (Move (UnwindAnswer ℕ) ℕ) :=
  List.replicate n (.run i workerAnswer)

/-- An empty journal, before any call. -/
def freshWorld : UnwindWorld ℕ :=
  ⟨emptyWorld, fun _ => false, .empty, fun _ => false, fun _ => false, fun _ => false,
    fun _ => false⟩

theorem workerAndOperator_call (h : workerAndOperator i = .call c) :
    (i = 0 ∧ c = plainCall (js "r1") (js "a")) ∨ i = 2 ∧ c = plainCall (js "r1") (js "b") := by
  rw [workerAndOperator] at h
  split at h
  · next hi => exact .inl ⟨hi, (UnwindJob.call.inj h).symm⟩
  · split at h
    · next hi => exact .inr ⟨hi, (UnwindJob.call.inj h).symm⟩
    · contradiction

/-- All calls are of the tool with the hook. -/
theorem workerAndOperator_hooked (key : JsString) :
    HookedKey workerAndOperator (· = js "pay") key := by
  intro i c hi hkey
  refine ⟨i, c, hi, hkey, ?_⟩
  rcases workerAndOperator_call hi with ⟨-, rfl⟩ | ⟨-, rfl⟩ <;> decide

/-- The worker finds its run alive, the operator unwinds it, and reports that there is
    nothing to undo; then the worker claims, and its tool takes effect. -/
theorem condemned_escapes : ¬CondemnedUnwound workerAndOperator (· = js "pay") freshWorld
    (workerSteps 0 3 ++ workerSteps 1 3 ++ workerSteps 0 9) 1 (js "r1") := by
  intro h
  obtain ⟨e, he, -⟩ := h 6 15 ⟨js "r1", false, true, []⟩ (by decide) rfl nofun (js "a")
    (workerAndOperator_hooked _)
    ⟨⟨2, .succeeded (.value 7) (some (js "h")) (some [js "a"]), none⟩, by decide +kernel, rfl, rfl⟩
  contradiction

/-- No operation reads a run, and calls operate before the operator has listed the run, or
    after it has condemned it. -/
def Apart (w : UnwindWorld ℕ) (_ : ℕ) : (o : UnwindOp ℕ) → o.Res → Prop
  | .tool o, r => w.listed 1 = false ∨ w.sealed 1 = true ∧ ¬seesCopy o r
  | .readRun _, _ => False
  | _, _ => True

instance (w : UnwindWorld ℕ) (i : ℕ) (o : UnwindOp ℕ) (r : o.Res) : Decidable (Apart w i o r) := by
  rcases o with _ | _ | _ | _ | _ | _ | _ <;> dsimp only [Apart] <;> infer_instance

theorem undisturbed_of_apart {conf : Conf (UnwindOp ℕ) UnwindOp.Res (JobResult ℕ) (UnwindWorld ℕ)}
    {o : UnwindOp ℕ} {r : o.Res} (h : Apart conf.world i o r) :
    Undisturbed workerAndOperator (· = js "pay") 1 (js "r1") conf i o r := by
  rcases o with _ | _ | _ | _ | _ | _ | _
  · intro c suffix hc _ _ hlisted
    rcases h with h | ⟨hsealed, hcopy⟩
    · rw [h] at hlisted
      contradiction
    · have hgated : HasGate c (js "r1") := by
        rcases workerAndOperator_call hc with ⟨-, rfl⟩ | ⟨-, rfl⟩ <;> exact ⟨rfl, rfl⟩
      refine ⟨hcopy, ?_⟩
      rintro (h | h)
      · rw [hsealed] at h
        contradiction
      · exact absurd hgated h
  · exact h.elim
  all_goals trivial

/-- A run apart is undisturbed. -/
theorem obeys_of_apart {conf : Conf (UnwindOp ℕ) UnwindOp.Res (JobResult ℕ) (UnwindWorld ℕ)}
    {ms : List (Move (UnwindAnswer ℕ) ℕ)} (h : (unwindMachine workerAndOperator).Meets Apart conf ms) :
    (unwindMachine workerAndOperator).Obeys
      (Undisturbed workerAndOperator (· = js "pay") 1 (js "r1")) conf ms :=
  h.obeys.mono fun _ _ _ _ => undisturbed_of_apart

/-- The journal when the worker has returned. -/
def workedConf : Conf (UnwindOp ℕ) UnwindOp.Res (JobResult ℕ) (UnwindWorld ℕ) :=
  (unwindMachine workerAndOperator).play (unwindStart freshWorld workerAndOperator)
    (workerSteps 0 16)

theorem worker_undisturbed : (unwindMachine workerAndOperator).Obeys
    (Undisturbed workerAndOperator (· = js "pay") 1 (js "r1"))
    (unwindStart freshWorld workerAndOperator) (workerSteps 0 16) :=
  obeys_of_apart (by decide +kernel)

/-- The record of the call is the only one, and can be listed; no call is underway. -/
theorem workedConf_listable (h : OwnSuccess workedConf.world.tools (runKeys.tool (js "r1") suffix) ∨
      ∃ k, Underway workerAndOperator workedConf (runKeys.tool (js "r1") suffix) k) :
    Listable (js "r1") workedConf.world.tools (runKeys.tool (js "r1") suffix) := by
  rcases h with ⟨raw, hraw, -, -⟩ | ⟨k, ⟨c, hk, -⟩, hrun, hpast⟩
  · obtain ⟨ph, hinv, -⟩ := CondemnedInv.run (j := 1) (u := operator) rfl Kv.linked_empty
      worker_undisturbed
    have hkeys : ∀ wr ∈ workedConf.world.tools.recs.log, wr.key = js "r1:tool:a" := by
      decide +kernel
    have hraw' := hraw
    rw [show workedConf.world.tools.recs.val = _ from hinv.linked.val] at hraw'
    obtain ⟨wr, hwr, hkey, -⟩ := Kv.mem_log_of_valueOf hraw'
    rw [← hkey, hkeys wr hwr]
    refine ⟨by decide, ⟨2, .succeeded (.value 7) (some (js "h")) (some [js "a"]), none⟩, ?_, rfl, rfl⟩
    decide +kernel
  · rcases workerAndOperator_call hk with ⟨rfl, -⟩ | ⟨rfl, -⟩
    · exact absurd rfl (hrun (.inl (.ok (.value 7))))
    · exact absurd hpast (by decide +kernel)

/-- The worker has returned before the operator lists the run: its call is undone. When it calls
    again, after the tombstone, the gate refuses it. -/
theorem condemned_unwound_after :
    let conf := (unwindMachine workerAndOperator).play (unwindStart freshWorld workerAndOperator)
      (workerSteps 0 16 ++ workerSteps 1 9 ++ workerSteps 2 4)
    Reported workerAndOperator (· = js "pay") (js "r1")
      ⟨js "r1", false, true, [⟨js "a", js "a", some (js "pay"), .compensated⟩]⟩ conf.world ∧
      conf.procs 2 = .pure (.inl (.ok (.blocked .compensatedRun))) := by
  have hlist : (unwindMachine workerAndOperator).Obeys
      (Undisturbed workerAndOperator (· = js "pay") 1 (js "r1")) workedConf
      (workerSteps 1 9 ++ workerSteps 2 4) := by
    refine ⟨fun _ suffix _ => workedConf_listable, ?_⟩
    exact obeys_of_apart (by decide +kernel)
  have hms := Machine.obeys_append.2 ⟨worker_undisturbed, hlist⟩
  rw [← List.append_assoc] at hms
  exact ⟨condemned_unwound (j := 1) (u := operator) (· = js "pay") rfl Kv.linked_empty hms 25 29
    ⟨js "r1", false, true, [⟨js "a", js "a", some (js "pay"), .compensated⟩]⟩ (by decide) rfl
    (by decide), rfl⟩

end Gnldev.Durable
