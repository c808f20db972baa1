import Gnldev.Durable.Tool.Protocol

/-!
# The text of `execute` conforms

Along the text of `execute`: the gates, the claim and its ladder, the marker, the tool.
Every gate keeps a steady assertion and answers, if it stops the call, with a sentinel
or a record (`Stops`); the claim ends with a claim won, or with an answer; a tool runs
under a claim, and a success is put under the marker too.

`execute_follows` is what the results about many calls start from.
-/

namespace Gnldev.Durable

open Prog ToolCall

variable {V : Type} {c : ToolCall} {key : JsString} {dupKey : Option JsString}
  {I : Local V → Prop}

/-! ## The gates -/

/-- The answer of a gate that stops the call. -/
def Stops (c : ToolCall) (s : Local V) (r : Option (Out V)) : Prop := ∀ out ∈ r, s.Gives c out

theorem stops_none (c : ToolCall) (s : Local V) : Stops c s none := fun _ h => by cases h

theorem stops_some {s : Local V} {out : Out V} (h : s.Gives c out) : Stops c s (some out) := by
  rintro _ ⟨⟩
  exact h

/-- An answer is one to the call's own question. -/
theorem approved_eq_some {record : Option (ToolRecord V)} {b : Bool}
    (h : c.approved record = some b) : c.ctx.approvals c.toolCallId = some b := by
  rw [approved] at h
  split at h
  · cases h
  · exact h

/-- A record that a gate writes to stop the call. -/
def Gated (record : ToolRecord V) (output : Out V) : Prop :=
  record.isSucceeded = false ∧ record.startedAt = none ∧ record.settled = some output

theorem settled_stamped (record : ToolRecord V) : (c.stamped record).settled = record.settled := by
  cases record <;> rfl

theorem settled_of_final {r : ToolRecord V} {output : Out V} (h : r.final = some output) :
    r.settled = some output := by
  cases r <;> first | exact h | cases h

theorem startedAt_stamped (record : ToolRecord V) :
    (c.stamped record).startedAt = record.startedAt := by
  cases record <;> rfl

/-- A final record that the call puts names it. -/
theorem mem_resolved_stamped {record : ToolRecord V} (h : (c.stamped record).final.isSome) :
    c.toolCallId ∈ (c.stamped record).resolved := by
  cases record <;> first | exact .head _ | contradiction

theorem isSucceeded_stamped (record : ToolRecord V) :
    (c.stamped record).isSucceeded = record.isSucceeded := by
  cases record <;> rfl

/-- A gate keeps the assertion, and stops the call with an answer only. -/
abbrev IsGate (c : ToolCall) (key : JsString) (dupKey : Option JsString) (I : Local V → Prop)
    (p : TM V (Option (Out V))) : Prop :=
  CallRuns c key dupKey I p (fun s r => I s ∧ Stops c s r) I

section Gates

theorem passed : IsGate c key dupKey I (pure none) := pure_runs fun s hs => ⟨hs, stops_none c s⟩

theorem limitExceeded_runs (kind : LimitKind) :
    IsGate c key dupKey I (pure (some (.limitExceeded kind))) :=
  pure_runs fun _ hs => ⟨hs, stops_some (.inl ⟨kind, rfl⟩)⟩

theorem blockedOrThrow_runs {err : ToolError} (herr : Refusal c err) :
    CallRuns c key dupKey I (c.blockedOrThrow err) (fun s out => I s ∧ s.Gives c out) I := by
  rw [blockedOrThrow]
  split
  · exact pure_runs fun _ hs => ⟨hs, .inr (.inl ⟨err, rfl, herr⟩)⟩
  · exact throw_runs herr fun _ hs => hs

variable (hI : Steady I)
include hI

theorem noted {α : Type} {p : TM V α} {Q : Local V → α → Prop}
    (h : CallRuns c key dupKey I p Q I) :
    CallRuns c key dupKey I (await_ .note >>= fun _ => p) Q I :=
  Runs.bind (note_runs hI) fun _ => h

variable {record : ToolRecord V}

/-- A terminal record that is no success can always be put. -/
theorem noSuccess_runs (hsucc : record.isSucceeded = false) (hrun : record.startedAt = none) :
    CallRuns c key dupKey I (c.writeToolTerminal .terminal key record none)
      (fun s _ => I s ∧ c.stamped record ∈ s.known) I := by
  refine writeToolTerminal_runs hI (by simp) (by simp) fun s _ => ⟨rfl, ?_, ?_⟩
  · rw [stampFormat, startedAt_stamped, hrun]
  · rw [stampFormat, isSucceeded_stamped, hsucc]
    exact fun h => absurd h Bool.false_ne_true

variable {output : Out V}

/-- The record is put as it is, so that its output is given. -/
theorem stopWith_gives (h : Gated record output) :
    CallRuns c key dupKey I (c.stopWith key record output)
      (fun s r => I s ∧ ∃ out, r = some out ∧ s.Gives c out) I := by
  obtain ⟨hsucc, hrun, hset⟩ := h
  refine CallRuns.bind (noSuccess_runs hI hsucc hrun) fun _ => pure_runs fun s hs =>
    ⟨hs.1, output, rfl, .inr (.inr ⟨_, hs.2, output, ?_, .inl rfl, mem_resolved_stamped⟩)⟩
  rw [settled_stamped, hset]

theorem stopWith_runs (h : Gated record output) :
    IsGate c key dupKey I (c.stopWith key record output) := by
  refine (stopWith_gives hI h).post ?_
  rintro s _ ⟨hs, out, rfl, hout⟩
  exact ⟨hs, stops_some hout⟩

theorem suspendWith_runs (kind : SuspendKind) :
    IsGate c key dupKey I (c.suspendWith key kind) :=
  stopWith_runs hI ⟨rfl, rfl, rfl⟩

theorem denyWith_runs (by_ : Denial) :
    IsGate c key dupKey I (c.denyWith key by_) :=
  stopWith_runs hI ⟨rfl, rfl, rfl⟩

theorem reflectWith_runs (why : Nudge) :
    IsGate c key dupKey I (c.reflectWith key why) :=
  stopWith_runs hI ⟨rfl, rfl, rfl⟩

theorem confirmGate_runs (approved : Option Bool) :
    IsGate c key dupKey I (c.confirmGate key approved) := by
  rw [confirmGate]
  split
  · exact denyWith_runs hI .confirm
  · refine Runs.when (bestEffort_runs (note_runs hI)) ?_
    exact Runs.bind (ask_runs hI .repeatSignal) fun b =>
      Runs.when (note_runs hI) (suspendWith_runs hI .confirm)

theorem guardGate_runs (approved : Option Bool) :
    IsGate c key dupKey I (c.guardGate key approved) := by
  refine Runs.bind (ask_runs hI .tainted) fun _ => ?_
  refine Runs.bind (ask_runs hI .guard) fun d => ?_
  cases d with
  | allow => exact passed
  | deny => exact denyWith_runs hI .policy
  | requireApproval =>
    simp only
    split
    · exact denyWith_runs hI .policy
    · split
      · exact suspendWith_runs hI .guard
      · exact passed

/-- A suspended record is passed with an approval, or with an answer to a question it
    carries. -/
theorem suspendedGate_runs (hsettled : record.settled = some output)
    (hhas : ∀ s, I s → s.Has c record) :
    CallRuns c key dupKey I (c.suspendedGate key record output)
      (fun s r => (I s ∧ Stops c s r) ∧ (r = none → MayTakeOver c s)) I := by
  rw [suspendedGate]
  split
  · refine (stopWith_gives hI ⟨rfl, rfl, rfl⟩).post ?_
    rintro s _ ⟨hs, out, rfl, hout⟩
    exact ⟨⟨hs, stops_some hout⟩, fun h => by cases h⟩
  · split
    · refine Runs.bind (consumeExistingRecord_runs hI hsettled fun s hs => (hhas s hs).1)
        fun out => pure_runs fun s hs => ⟨⟨hs.1, stops_some hs.2⟩, fun h => by cases h⟩
    · next hpass =>
      have hmay : ∀ s, I s → MayTakeOver c s := by
        intro s hs
        by_cases hnested : c.nestedAnswered record = true
        · exact .inr (.inr (.inr ((hhas s hs).2 hnested)))
        · have happ : c.approved (some record) = some true := by
            by_contra h
            exact hpass ⟨h, hnested⟩
          exact .inr (.inl (approved_eq_some happ))
      have hend : CallRuns c key dupKey I (pure none : TM V (Option (Out V)))
          (fun s r => (I s ∧ Stops c s r) ∧ (r = none → MayTakeOver c s)) I :=
        pure_runs fun s hs => ⟨⟨hs, stops_none c s⟩, fun _ => hmay s hs⟩
      have htrace : CallRuns c key dupKey I
          (bestEffort (await_ .now >>= fun _ => await_ .note) : TM V Unit) (fun s _ => I s) I :=
        bestEffort_runs (Runs.bind (now_runs hI) fun _ => note_runs hI)
      split
      · exact Runs.bind htrace fun _ => Runs.when htrace hend
      · exact hend

/-- What a call knows when its policies let it pass. -/
def Passes (c : ToolCall) (record : Option (ToolRecord V)) (s : Local V) : Prop :=
  ∀ x ∈ record, x.isSuspended → MayTakeOver c s

theorem policyGate_runs {record : Option (ToolRecord V)}
    (hhas : ∀ s, I s → ∀ x ∈ record, s.Has c x) :
    CallRuns c key dupKey I (c.policyGate key record)
      (fun s r => (I s ∧ Stops c s r) ∧ (r = none → Passes c record s)) I := by
  have hother : (∀ x ∈ record, x.isSuspended = false) → ∀ {p : TM V (Option (Out V))},
      IsGate c key dupKey I p → CallRuns c key dupKey I p
        (fun s r => (I s ∧ Stops c s r) ∧ (r = none → Passes c record s)) I := by
    intro hrec p h
    refine Runs.post h fun s r hs => ⟨hs, fun _ x hx hsus => ?_⟩
    rw [hrec x hx] at hsus
    cases hsus
  have hrest : IsGate c key dupKey I
      (if record.isNone ∧ c.tool.confirm ∧ c.approved record ≠ some true then
        c.confirmGate key (c.approved record)
      else if c.ctx.guard then c.guardGate key (c.approved record) else pure none) := by
    split
    · exact confirmGate_runs hI _
    · split
      · exact guardGate_runs hI _
      · exact passed
  rcases record with _ | record
  · exact hother (fun x hx => by cases hx) hrest
  · cases record with
    | suspended output =>
      refine (suspendedGate_runs hI rfl fun s hs => hhas s hs _ rfl).post fun s r hs => ?_
      exact ⟨hs.1, fun hr _ _ _ => hs.2 hr⟩
    | _ => exact hother (fun x hx => by cases hx; rfl) hrest

/-! ## The duplicate gate -/

section Duplicates

variable {k : JsString} (hk : dupKey = some k)
include hk

/-- The marker of the call's scope, which it then knows. -/
theorem getMarker_runs :
    CallRuns c key dupKey I (await_ (.dup (.get k)) : TM V (Option DupMarker))
      (fun s r => I s ∧ ∀ m ∈ r, m ∈ s.marks) I := by
  refine await_runs (fun _ _ => hk) (fun s r hs => ⟨?_, ?_⟩) fun s e hs => ?_
  · exact hI s _ (s.grows_learn (c := c) (o := .dup (.get k)) trivial (.ok r)) hs
  · rintro m hm
    cases hm
    exact .head _
  · exact hI s _ (s.grows_learn (c := c) (o := .dup (.get k)) trivial (.error e)) hs

/-- A marker of the call's own scope has been read. -/
theorem dupMarker_runs :
    CallRuns c key dupKey I (c.dupMarker k)
      (fun s r => I s ∧ ∀ m ∈ r, m.2 = false → m.1 ∈ s.marks) I := by
  refine Runs.bind (getMarker_runs hI hk) fun marker => ?_
  extract_lets expire
  have hfound : ∀ found : Option (DupMarker × Bool), CallRuns c key dupKey
      (fun s => I s ∧ ∀ m ∈ found, m.2 = false → m.1 ∈ s.marks) (expire found)
      (fun s r => I s ∧ ∀ m ∈ r, m.2 = false → m.1 ∈ s.marks) I := by
    intro found
    dsimp only [expire]
    have hJ : Steady fun s : Local V => I s ∧ ∀ m ∈ found, m.2 = false → m.1 ∈ s.marks :=
      hI.and fun s s' h hs m hm hc => h.marks _ (hs m hm hc)
    split
    · refine Runs.bind ((now_runs hJ).conseq (fun _ h => h) (fun _ _ h => h) fun _ h => h.1)
        fun now => ?_
      split
      · exact pure_runs fun s hs => ⟨hs.1, fun m hm => by cases hm⟩
      · exact pure_runs fun s hs => hs
    · exact pure_runs fun s hs => hs
  cases marker with
  | some m =>
    refine (hfound (some (m, false))).pre fun s hs => ⟨hs.1, fun x hx _ => ?_⟩
    cases hx
    exact hs.2 m rfl
  | none =>
    have hnone := (hfound none).pre fun s (hs : I s) => ⟨hs, fun x hx => by cases hx⟩
    refine Runs.pre (J := I) ?_ fun s hs => hs.1
    simp only
    split
    · refine Runs.bind (ask_runs hI .xid) fun found => ?_
      cases found with
      | none => exact hnone
      | some first =>
        obtain ⟨first, at_⟩ := first
        refine Runs.bind (bestEffort_runs (Runs.bind (now_runs hI) fun _ => pure_runs fun _ h => h))
          fun _ => ?_
        refine (hfound (some (⟨first, at_, false, false, false⟩, true))).pre
          fun s hs => ⟨hs, fun x hx hc => ?_⟩
        cases hx
        cases hc
    · exact hnone

theorem claimNudge_runs {marker : DupMarker} {cross : Bool}
    (hm : ∀ s, I s → cross = false → marker ∈ s.marks) (hdone : marker.completed) :
    CallRuns c key dupKey I (c.claimNudge k marker cross) (fun s _ => I s) I := by
  rw [claimNudge]
  split
  · next h =>
    have hcross : cross = false := by simpa using h.2.2
    refine Runs.bind (nudge_runs hI _) fun won => ?_
    have hheld : marker.released = false := by
      rw [DupMarker.completed, Bool.and_eq_true, Bool.not_eq_true'] at hdone
      exact hdone.1
    refine Runs.bind (passive_runs hI hheld fun s hs => ⟨hk, .inl ⟨marker, ?_, hdone, rfl⟩⟩)
      fun _ => pure_runs fun _ hs => hs
    exact hm s hs hcross
  · exact pure_runs fun _ hs => hs

theorem duplicateOf_runs {marker : DupMarker} {cross : Bool}
    (hm : ∀ s, I s → cross = false → marker ∈ s.marks) (hdone : marker.completed) :
    IsGate c key dupKey I (c.duplicateOf key k marker cross) := by
  refine Runs.bind (claimNudge_runs hI hk hm hdone) fun won => ?_
  cases c.dupCfg.action with
  | off => exact passed
  | warn => exact noted hI passed
  | block => exact noted hI (limitExceeded_runs _)
  | skip => exact noted hI (stopWith_runs hI ⟨rfl, rfl, rfl⟩)
  | suspend =>
    exact Runs.bind (now_runs hI) fun _ => noted hI (suspendWith_runs hI .duplicate)
  | reflect =>
    simp only
    split
    · exact noted hI (limitExceeded_runs _)
    · exact noted hI (reflectWith_runs hI .duplicate)

end Duplicates

theorem duplicateGate_runs {dk : Option JsString} (hdk : ∀ k, dk = some k → dupKey = some k)
    (approved : Option Bool) :
    IsGate c key dupKey I (c.duplicateGate key dk approved) := by
  cases dk with
  | none => exact passed
  | some k =>
    simp only [duplicateGate]
    split
    · exact passed
    · refine Runs.bind (dupMarker_runs hI (hdk k rfl)) fun found => ?_
      rcases found with _ | ⟨marker, cross⟩
      · exact passed.pre fun s hs => hs.1
      · have hJ : Steady fun s : Local V =>
            I s ∧ ∀ m ∈ some (marker, cross), m.2 = false → m.1 ∈ s.marks :=
          hI.and fun s s' h hs m hm hc => h.marks _ (hs m hm hc)
        simp only
        split
        · next hdone =>
          exact (duplicateOf_runs hJ (hdk k rfl) (fun s hs hc => hs.2 (marker, cross) rfl hc)
            hdone).conseq (fun _ h => h) (fun _ _ h => ⟨h.1.1, h.2⟩) fun _ h => h.1
        · exact passed.pre fun s hs => hs.1

/-! ## The other gates -/

theorem compensatedGate_runs :
    IsGate c key dupKey I (c.compensatedGate : TM V (Option (Out V))) := by
  rw [compensatedGate]
  split
  · refine Runs.bind (ask_runs hI .compensated) fun b => ?_
    split
    · exact Runs.bind (blockedOrThrow_runs fun he => by cases he) fun out =>
        pure_runs fun s hs => ⟨hs.1, stops_some hs.2⟩
    · exact passed
  · exact passed

/-- A report that is made if there is something to report. -/
theorem report_runs {p : TM V (Option (Out V))} (h : IsGate c key dupKey I p) :
    IsGate c key dupKey I (do
      if ← await_ (.ask .report) then await_ .note
      p) :=
  Runs.bind (ask_runs hI .report) fun _ => Runs.when (note_runs hI) h

theorem semanticGate_runs (record : Option (ToolRecord V)) (approved : Option Bool) :
    IsGate c key dupKey I (c.semanticGate key record approved) := by
  rw [semanticGate]
  refine Runs.when (bestEffort_runs (note_runs hI)) ?_
  split
  · refine Runs.bind (ask_runs hI .similar) fun found => ?_
    cases found with
    | ask => exact noted hI (suspendWith_runs hI .semantic)
    | judgedSame => exact noted hI (suspendWith_runs hI .semantic)
    | judgedOther => exact noted hI (report_runs hI passed)
    | none => exact report_runs hI passed
  · exact passed

theorem taintGate_runs (approved : Option Bool) :
    IsGate c key dupKey I (c.taintGate key approved) := by
  rw [taintGate]
  split
  · refine Runs.bind (ask_runs hI .tainted) fun b => ?_
    split
    · split
      · exact noted hI (limitExceeded_runs _)
      · exact noted hI (suspendWith_runs hI .taint)
      · refine Runs.bind (nudge_runs hI _) fun won => ?_
        split
        · exact noted hI (reflectWith_runs hI .taint)
        · exact noted hI passed
      · exact noted hI passed
    · exact passed
  · exact passed

theorem limitsGate_runs :
    IsGate c key dupKey I (c.limitsGate key) := by
  rw [limitsGate]
  split
  · refine Runs.bind (ask_runs hI .toolGate) fun gate => ?_
    rcases gate with _ | gate
    · exact passed
    · cases gate with
      | reflect => exact noted hI (reflectWith_runs hI .loop)
      | loop => exact noted hI (limitExceeded_runs _)
      | maxToolCalls => exact noted hI (limitExceeded_runs _)
  · exact passed

end Gates

/-! ## The claim -/

/-- The call has claimed nothing and started nothing. -/
def Local.Fresh (s : Local V) : Prop :=
  s.claimed = none ∧ s.marked = none ∧ s.began = false ∧ s.ended = false

/-- The call has won its key, and done nothing since. -/
def Local.Holds (s : Local V) : Prop :=
  s.claimed.isSome ∧ s.marked = none ∧ s.began = false ∧ s.ended = false

theorem Steady.fresh : Steady (Local.Fresh : Local V → Prop) := by
  intro s s' h hs
  rw [Local.Fresh, h.claimed, h.marked, h.began, h.ended]
  exact hs

theorem Steady.holds : Steady (Local.Holds : Local V → Prop) := by
  intro s s' h hs
  rw [Local.Holds, h.claimed, h.marked, h.began, h.ended]
  exact hs

/-- A call in the rounds of claiming, and the record it looks at. -/
def Claiming (c : ToolCall) (record : Option (ToolRecord V)) (s : Local V) : Prop :=
  s.Fresh ∧ (∀ x ∈ record, s.Has c x) ∧ Passes c record s

theorem Steady.claiming (record : Option (ToolRecord V)) : Steady (Claiming c record) :=
  Steady.fresh.and ((Steady.hasAll c record).and fun s s' h hs x hx hsus =>
    Steady.mayTakeOver c s s' h (hs x hx hsus))

/-- How the rounds of claiming end. -/
def ClaimEnds (c : ToolCall) (s : Local V) : Claimed V → Prop
  | .out out => s.Gives c out
  | .won _ => s.Holds

section Claim

/-- A claim that was lost: the call is answered, or goes on with a record that is not final. -/
theorem lostTo_runs {record : Option (ToolRecord V)} {again : TM V (Claimed V)}
    (hagain : (∀ x ∈ record, x.final = none) →
      CallRuns c key dupKey (Claiming c record) again (ClaimEnds c) fun _ => True) :
    CallRuns c key dupKey (fun s => s.Fresh ∧ ∀ x ∈ record, s.Has c x) (c.lostTo key record again)
      (ClaimEnds c) fun _ => True := by
  have hI : Steady fun s : Local V => s.Fresh ∧ ∀ x ∈ record, s.Has c x :=
    Steady.fresh.and (Steady.hasAll c record)
  rw [lostTo]
  split
  · next r output h =>
    obtain ⟨x, rfl, hx⟩ := Option.bind_eq_some_iff.1 h
    obtain ⟨out, hset, heq⟩ := Option.map_eq_some_iff.1 hx
    cases heq
    exact CallRuns.bind (consumeExistingRecord_runs hI hset fun s hs => (hs.2 _ rfl).1).drop
      fun out => pure_runs fun s hs => hs.2
  · next h =>
    have hset : ∀ x ∈ record, x.settled = none := by
      intro x hx
      have := Option.bind_eq_none_iff.1 h x hx
      exact Option.map_eq_none_iff.1 this
    split
    · -- Only a record that is neither final nor suspended is polled.
      refine (hagain fun x hx => ?_).pre fun s hs => ⟨hs.1, hs.2, fun x hx hsus => ?_⟩
      · have := hset x hx
        cases x <;> first | rfl | cases this
      · have := hset x hx
        cases x with
        | suspended => cases this
        | _ => cases hsus
    · exact CallRuns.bind (blockedOrThrow_runs fun he => by cases he).drop
        fun out => pure_runs fun s hs => hs.2

/-- What the provider tells is recorded, before anything is claimed. -/
theorem tryRecover_runs {I : Local V → Prop} (hI : Steady I) (hfresh : ∀ s, I s → s.claimed = none)
    (hrec : c.tool.recover = true) :
    CallRuns c key dupKey I (c.tryRecover key dupKey)
      (fun s r => I s ∧ ∀ out ∈ r.1, s.Gives c out) I := by
  have hput : ∀ output : Out V, CallRuns c key dupKey I
      (c.writeToolTerminal .recovered key (.succeeded output (some c.hash) none) dupKey)
      (fun s _ => I s ∧ c.stamped (.succeeded output (some c.hash) none) ∈ s.known) I :=
    fun output => writeToolTerminal_runs hI (by simp) (fun k hk => hk)
      fun s hs => ⟨rfl, rfl, hrec, hfresh s hs⟩
  refine CallRuns.tryCatch (CallRuns.bind (ask_runs hI .recover) fun probe => ?_) fun e _ =>
    pure_runs fun s hs => ⟨hs, fun _ h => by cases h⟩
  cases probe with
  | done output =>
    have hJ : Steady fun s : Local V =>
        I s ∧ c.stamped (.succeeded output (some c.hash) none) ∈ s.known := hI.and (.known _)
    have hend : CallRuns c key dupKey
        (fun s => I s ∧ c.stamped (.succeeded output (some c.hash) none) ∈ s.known)
        (pure (some output, false)) (fun s r => I s ∧ ∀ out ∈ r.1, s.Gives c out) I := by
      refine pure_runs fun s hs => ⟨hs.1, fun out hout => ?_⟩
      cases hout
      exact .inr (.inr ⟨_, hs.2, output, rfl, .inl rfl, mem_resolved_stamped⟩)
    refine CallRuns.bind (hput output) fun _ => ?_
    exact Runs.when ((note_runs hJ).conseq (fun _ h => h) (fun _ _ h => h) fun _ h => h.1) hend
  | notDone => exact pure_runs fun s hs => ⟨hs, fun _ h => by cases h⟩
  | unreadable => exact throw_runs (fun he => by cases he) fun _ hs => hs

variable {record : ToolRecord V} {approved : Option Bool} {recovered : Bool}

/-- The answer of the ladder lets a record in doubt be executed only by a call that may. -/
theorem ladder_none (happ : approved = some true → c.ctx.approvals c.toolCallId = some true)
    (hrec : recovered = true → c.tool.recover = true)
    (h : c.ladder approved recovered record = none) (hun : record.uncertain = true) (s : Local V) :
    MayTakeOver c s := by
  rw [ladder, if_pos hun] at h
  split at h
  · cases h
  · next hno =>
    by_cases hside : c.sideEffect = true
    · by_cases ha : approved = some true
      · exact .inr (.inl (happ ha))
      · refine .inr (.inr (.inl (hrec ?_)))
        by_contra hr
        exact hno ⟨hside, ha, by simpa using hr⟩
    · exact .inl (by simpa using hside)

/-- A record that is not final is taken over only by a call that may. -/
theorem mayTakeOver_of_ladder
    (happ : approved = some true → c.ctx.approvals c.toolCallId = some true)
    (hrec : recovered = true → c.tool.recover = true)
    (h : c.ladder approved recovered record = none) (hfinal : record.final = none) {s : Local V}
    (hpass : record.isSuspended → MayTakeOver c s) : MayTakeOver c s := by
  cases record with
  | running => exact ladder_none happ hrec h rfl s
  | failed => exact ladder_none happ hrec h rfl s
  | suspended => exact hpass rfl
  | _ => cases hfinal

theorem ladder_refusal (happ : approved = some true → c.ctx.approvals c.toolCallId = some true)
    (hrec : recovered = true → c.tool.recover = true) {err : ToolError}
    (h : c.ladder approved recovered record = some err) : Refusal c err := by
  intro herr
  rw [ladder] at h
  split at h
  · split at h
    · cases h
      cases herr
    · next hno =>
      by_cases hside : c.sideEffect = true
      · by_cases ha : approved = some true
        · exact .inr (.inl (happ ha))
        · refine .inr (.inr (hrec ?_))
          by_contra hr
          exact hno ⟨hside, ha, by simpa using hr⟩
      · exact .inl (by simpa using hside)
  · cases h

theorem pureBind_runs {α β : Type} {a : α} {f : α → TM V β} {P X : Local V → Prop}
    {R : Local V → β → Prop} (h : CallRuns c key dupKey P (f a) R X) :
    CallRuns c key dupKey P (pure a >>= f) R X := h

theorem mapThrow_runs {α β γ : Type} {x : Except ToolError α} {g : α → β} {f : β → TM V γ}
    {P X : Local V → Prop} {R : Local V → γ → Prop} (herr : ∀ e, x = .error e → Refusal c e)
    (hX : ∀ s, P s → X s) (hok : ∀ a, x = .ok a → CallRuns c key dupKey P (f (g a)) R X) :
    CallRuns c key dupKey P (g <$> orThrow x >>= f) R X := by
  cases x with
  | ok a => exact hok a rfl
  | error e => exact fun s hs => ⟨hX s hs, herr e rfl⟩

/-- The call is about to take over the record it has read again. -/
def Rereads (c : ToolCall) (raw : Option (Stored V)) (s : Local V) : Prop :=
  s.Fresh ∧ MayTakeOver c s ∧ s.reread = raw

/-- The read before a takeover. -/
theorem reread_runs :
    CallRuns c key dupKey (fun s : Local V => s.Fresh ∧ MayTakeOver c s)
      (await_ (.rec_ .takeover (.get key)))
      (fun s raw => Rereads c raw s ∧ ∀ x ∈ raw, s.Has c x.record) fun _ => True := by
  refine await_runs (fun _ _ => rfl) (fun s raw hs => ?_) fun _ _ _ => trivial
  have hgrow := s.grows_learn (c := c) (o := .rec_ .takeover (.get key)) trivial (.ok raw)
  refine ⟨⟨Steady.fresh _ _ hgrow hs.1, Steady.mayTakeOver c _ _ hgrow hs.2, rfl⟩, fun x hx => ?_⟩
  cases hx
  exact s.has_saw c x

/-- The swap, with what was read again as it was. -/
theorem swap_runs {raw : Stored V} (hfinal : raw.record.final = none) (now : Int) (n : ℕ) :
    CallRuns c key dupKey (Rereads c (some raw))
      (await_ (.rec_ .takeover (.putIfMatch key raw (stampFormat (.running now (some n))))))
      (fun s took => if took then s.Holds else s.Fresh) fun _ => True := by
  refine await_runs (fun s hs => ?_) (fun s took hs => ?_) fun _ _ _ => trivial
  · exact ⟨rfl, hs.1.1, hs.2.2, hfinal, hs.2.1, now, n, rfl⟩
  · cases took with
    | true => exact ⟨rfl, hs.1.2⟩
    | false => exact hs.1

/-- The takeover swaps what was read again, if that is not final. -/
theorem takeOver_runs {again : Option (ToolRecord V) → TM V (Claimed V)}
    (hagain : ∀ r : Option (ToolRecord V), (∀ x ∈ r, x.final = none) →
      CallRuns c key dupKey (Claiming c r) (again r) (ClaimEnds c) fun _ => True) :
    CallRuns c key dupKey (fun s => s.Fresh ∧ MayTakeOver c s) (c.takeOver key record again)
      (ClaimEnds c) fun _ => True := by
  have hlost : CallRuns c key dupKey Local.Fresh
      (do let record ← readRecord .again key; c.lostTo key record (again record))
      (ClaimEnds c) fun _ => True :=
    CallRuns.bind (readRecord_runs Steady.fresh .again).drop fun r => lostTo_runs (hagain r)
  have hnow : ∀ raw : Option (Stored V), CallRuns c key dupKey (Rereads c raw) (await_ .now)
      (fun s _ => Rereads c raw s) fun _ => True := fun raw =>
    await_runs (fun _ _ => trivial) (fun _ _ hs => hs) fun _ _ _ => trivial
  refine CallRuns.bind reread_runs fun raw => ?_
  rcases raw with _ | raw
  · -- Nothing is there any more.
    refine pureBind_runs ?_
    exact CallRuns.bind ((hnow none).pre fun _ hs => hs.1) fun _ =>
      hlost.pre fun _ (hs : Rereads c none _) => hs.1
  · refine mapThrow_runs (fun e => upgradeFormat_refusal) (fun _ _ => trivial) fun r hup => ?_
    have hr := upgradeFormat_eq hup
    subst hr
    rcases hfinal : raw.record.final with _ | output
    · simp only [Option.bind_some, hfinal, Option.map_none]
      refine CallRuns.bind ((hnow (some raw)).pre fun _ hs => hs.1) fun now => ?_
      refine CallRuns.bind (swap_runs hfinal now _) fun took => ?_
      cases took with
      | true => exact pure_runs fun s hs => hs
      | false => exact hlost
    · simp only [Option.bind_some, hfinal, Option.map_some]
      refine CallRuns.bind ((consumeExistingRecord_runs (Steady.has c raw.record)
        (settled_of_final hfinal) fun s hs => hs.1).conseq (fun s hs => hs.2 raw rfl)
        (fun _ _ h => h) fun _ _ => trivial) fun out => pure_runs fun s hs => hs.2

/-- The first claim of a key without a record. -/
theorem firstClaim_runs (now : Int) :
    CallRuns c key dupKey Local.Fresh
      (await_ (.rec_ .claim (.putIfAbsent key (stampFormat (.running now (some 1)))) : ToolOp V))
      (fun s won => if won then s.Holds else s.Fresh) fun _ => True := by
  refine await_runs (fun s hs => ⟨rfl, hs.1, now, rfl⟩) (fun s won hs => ?_) fun _ _ _ => trivial
  cases won with
  | true => exact ⟨rfl, hs.2⟩
  | false => exact hs

/-- Whatever the rounds of claiming come to, it is a won claim or an answer. -/
theorem claimLoop_runs (happ : approved = some true → c.ctx.approvals c.toolCallId = some true)
    (n : ℕ) (record : Option (ToolRecord V)) (unavailable : Bool)
    (hfinal : ∀ x ∈ record, x.final = none) :
    CallRuns c key dupKey (Claiming c record) (c.claimLoop key dupKey approved n record unavailable)
      (ClaimEnds c) fun _ => True := by
  induction n generalizing record unavailable with
  | zero => exact throw_runs (fun he => by cases he) fun _ _ => trivial
  | succ n ih =>
    have hread : ∀ unavailable, CallRuns c key dupKey Local.Fresh
        (do let record ← readRecord .again key
            c.lostTo key record (c.claimLoop key dupKey approved n record unavailable))
        (ClaimEnds c) fun _ => True := fun unavailable =>
      CallRuns.bind (readRecord_runs Steady.fresh .again).drop
        fun r => lostTo_runs (ih r unavailable)
    rcases record with _ | record
    · -- No record: the first claim.
      refine CallRuns.bind ((now_runs Steady.fresh).conseq (fun s hs => hs.1) (fun _ _ h => h)
        fun _ _ => trivial) fun now => ?_
      refine CallRuns.bind (firstClaim_runs now) fun won => ?_
      cases won with
      | true =>
        have hend : CallRuns c key dupKey Local.Holds (pure (.won none)) (ClaimEnds c)
            fun _ : Local V => True := pure_runs fun s hs => hs
        simp only [if_true]
        exact Runs.when (note_runs Steady.holds).drop hend
      | false =>
        simp only [Bool.false_eq_true, if_false]
        refine CallRuns.bind (readRecord_runs Steady.fresh .again).drop fun r => ?_
        have hI : Steady fun s : Local V => s.Fresh ∧ ∀ x ∈ r, s.Has c x :=
          Steady.fresh.and (Steady.hasAll c r)
        exact Runs.when (assertCrossRunOwner_runs hI).drop (lostTo_runs (ih r _))
    · have hbusy : CallRuns c key dupKey (Claiming c (some record))
          (do return .out (← c.blockedOrThrow .runBusy)) (ClaimEnds c) fun _ => True :=
        CallRuns.bind (blockedOrThrow_runs fun he => by cases he).drop fun out =>
          pure_runs fun s hs => hs.2
      refine CallRuns.bind (now_runs (Steady.claiming (some record))).drop fun now => ?_
      extract_lets goOn
      split
      · -- A live claim is waited for, or refused.
        split
        · exact (hread unavailable).pre fun s hs => hs.1
        · exact hbusy
      · -- The ladder: the provider, the attempts, the takeover.
        have hdone : ∀ unavailable, CallRuns c key dupKey (Claiming c (some record))
            (goOn (none, unavailable)) (ClaimEnds c) fun _ => True := by
          intro unavailable
          have hrec : (!unavailable && c.tool.recover) = true → c.tool.recover = true := by
            rw [Bool.and_eq_true]
            exact And.right
          dsimp only [goOn]
          rcases hladder : c.ladder approved (!unavailable && c.tool.recover) record with _ | err
          · refine (takeOver_runs fun r => ih r unavailable).pre fun s hs => ⟨hs.1, ?_⟩
            exact mayTakeOver_of_ladder happ hrec hladder (hfinal record rfl) (hs.2.2 record rfl)
          · exact CallRuns.bind (blockedOrThrow_runs (ladder_refusal happ hrec hladder)).drop
              fun out => pure_runs fun s hs => hs.2
        split
        · next hask =>
          refine CallRuns.bind (tryRecover_runs (Steady.claiming (some record))
            (fun s hs => hs.1.1) hask.2.2.2.2).drop fun r => ?_
          obtain ⟨_ | output, unavailable⟩ := r
          · exact (hdone unavailable).pre fun s hs => hs.1
          · exact pure_runs fun s hs => hs.2 output rfl
        · exact hdone unavailable

end Claim

/-! ## The execution -/

/-- The call has won its key and its marker. -/
def Local.Marks (s : Local V) : Prop :=
  s.claimed.isSome ∧ s.marked.isSome ∧ s.began = false ∧ s.ended = false

section Execution

variable {k : JsString} (hk : dupKey = some k)
include hk

/-- The marker is won, or the call has not gained anything. -/
theorem claimDupMarker_runs :
    CallRuns c key dupKey Local.Holds (c.claimDupMarker k : TM V Bool)
      (fun s won => if won then s.Marks else s.Holds) fun _ => True := by
  refine CallRuns.bind (now_runs Steady.holds).drop fun t => ?_
  refine CallRuns.bind ((getMarker_runs Steady.holds hk).conseq (fun _ h => h)
    (fun _ _ h => h.1) fun _ _ => trivial) fun cur => ?_
  cases cur with
  | none =>
    refine await_runs (fun s hs => ⟨hk, t, .inl ⟨rfl, hs.1, hs.2.1⟩⟩) (fun s won hs => ?_)
      fun _ _ _ => trivial
    cases won with
    | true => exact ⟨hs.1, rfl, hs.2.2⟩
    | false => exact hs
  | some cur =>
    refine CallRuns.bind (Q := fun s (now : Int) => s.Holds ∧ s.time = some now)
      (await_runs (fun _ _ => trivial) (fun s now hs => ⟨hs, rfl⟩) fun _ _ _ => trivial)
      fun now => ?_
    simp only
    split
    · next htake =>
      refine await_runs (fun s hs => ⟨hk, t, .inl ⟨rfl, hs.1.1, hs.1.2.1, ?_⟩⟩) (fun s won hs => ?_)
        fun _ _ _ => trivial
      · simp only [Bool.or_eq_true, Bool.and_eq_true, decide_eq_true_eq] at htake
        rcases htake with (hrel | hwin) | ⟨hfl, hdead⟩
        · exact .inl hrel
        · refine .inr (.inl ?_)
          rcases httl : c.dupCfg.ttlMs with _ | ttl
          · rw [httl] at hwin
            cases hwin
          · rfl
        · exact .inr (.inr ⟨hfl, now, hs.2, hdead⟩)
      · cases won with
        | true => exact ⟨hs.1.1, rfl, hs.1.2.2⟩
        | false => exact hs.1
    · exact pure_runs fun s hs => hs.1

omit hk

/-- The call may put a success, and give back the marker it has won. -/
def Local.Under (c : ToolCall) (dupKey : Option JsString) (claimedDup : Bool) (s : Local V) :
    Prop :=
  MaySucceed c dupKey s ∧ (claimedDup = true → s.marked.isSome)

theorem Steady.under (claimedDup : Bool) :
    Steady (Local.Under c dupKey claimedDup : Local V → Prop) := by
  intro s s' h hs
  rw [Local.Under, MaySucceed, h.claimed, h.marked]
  exact hs

/-- The call is about to start the tool. -/
def Local.Ready (c : ToolCall) (dupKey : Option JsString) (claimedDup : Bool) (s : Local V) :
    Prop :=
  s.Under c dupKey claimedDup ∧ s.began = false ∧ s.ended = false

theorem Steady.ready (claimedDup : Bool) :
    Steady (Local.Ready c dupKey claimedDup : Local V → Prop) := by
  intro s s' h hs
  rw [Local.Ready, h.began, h.ended]
  exact ⟨Steady.under claimedDup s s' h hs.1, hs.2⟩

theorem Local.Holds.ready {s : Local V} (h : s.Holds)
    (hrun : dupKey.isSome → c.ctx.approvals c.toolCallId = some true ∨ c.dupCfg.action = .warn) :
    s.Ready c dupKey false :=
  ⟨⟨⟨h.1, fun hd => (hrun hd).imp_right .inl⟩, fun h => by cases h⟩, h.2.2⟩

theorem Local.Marks.ready {s : Local V} (h : s.Marks) : s.Ready c dupKey true :=
  ⟨⟨⟨h.1, fun _ => .inr (.inr h.2.1)⟩, fun _ => h.2.1⟩, h.2.2⟩

/-- What the call may do after the marker's gate. -/
def Gatekept (c : ToolCall) (dupKey : Option JsString) (s : Local V) : Out V ⊕ Bool → Prop
  | .inl out => s.Gives c out
  | .inr claimedDup => s.Ready c dupKey claimedDup

theorem markerGate_runs {approved : Option Bool}
    (happ : approved = some true → c.ctx.approvals c.toolCallId = some true) :
    CallRuns c key dupKey Local.Holds (c.markerGate dupKey approved : TM V (Out V ⊕ Bool))
      (Gatekept c dupKey) fun _ => True := by
  rcases hk : dupKey with _ | k
  · exact pure_runs fun s hs => hs.ready fun h => by cases h
  · simp only [markerGate]
    split
    · next ha => exact pure_runs fun s hs => hs.ready fun _ => .inl (happ ha)
    · refine CallRuns.bind (claimDupMarker_runs rfl) fun won => ?_
      cases won with
      | true => exact pure_runs fun s hs => Local.Marks.ready hs
      | false =>
        simp only [Bool.false_eq_true, if_false]
        split
        · exact CallRuns.bind (note_runs Steady.holds).drop fun _ => pure_runs fun s hs =>
            .inl ⟨_, rfl⟩
        · next hwarn =>
          exact pure_runs fun s hs => Local.Holds.ready hs fun _ => .inr (not_not.1 hwarn)

variable {I : Local V → Prop}

/-- The effect exists: it is recorded as a success. -/
theorem success_runs (hI : Steady I) (hmay : ∀ s, I s → MaySucceed c dupKey s) (output : Out V) :
    CallRuns c key dupKey I
      (c.writeToolTerminal .terminal key (.succeeded output (some c.hash) none) dupKey)
      (fun s _ => I s ∧ s.Gives c output) I := by
  have hput : ∀ s, I s → AllowedPut c key dupKey s key
      (stampFormat (c.stamped (.succeeded output (some c.hash) none))) .terminal :=
    fun s hs => ⟨rfl, rfl, fun _ => hmay s hs⟩
  refine (writeToolTerminal_runs hI (by simp) (fun k hk => hk) hput).post fun s _ hs => ⟨hs.1, ?_⟩
  exact .inr (.inr ⟨_, hs.2, output, rfl, .inl rfl, mem_resolved_stamped⟩)

theorem lookupGate_runs (hI : Steady I) (hmay : ∀ s, I s → MaySucceed c dupKey s)
    (record : Option (ToolRecord V)) :
    IsGate c key dupKey I (c.lookupGate key dupKey record) := by
  rw [lookupGate]
  split
  · refine CallRuns.tryCatch (CallRuns.bind (ask_runs hI .lookup) fun found => ?_) fun _ _ => passed
    cases found with
    | none => exact passed
    | some output =>
      exact CallRuns.bind (success_runs hI hmay output) fun _ =>
        pure_runs fun s hs => ⟨hs.1, stops_some hs.2⟩
  · exact passed

/-- The call has run its tool. -/
def Local.Ran (c : ToolCall) (dupKey : Option JsString) (claimedDup : Bool) (s : Local V) : Prop :=
  s.Under c dupKey claimedDup ∧ s.began = true

theorem Steady.ran (claimedDup : Bool) :
    Steady (Local.Ran c dupKey claimedDup : Local V → Prop) := by
  intro s s' h hs
  rw [Local.Ran, h.began]
  exact ⟨Steady.under claimedDup s s' h hs.1, hs.2⟩

theorem runTool_runs (record : Option (ToolRecord V)) (claimedDup : Bool) :
    CallRuns c key dupKey (Local.Ready c dupKey claimedDup) (c.runTool key dupKey record claimedDup)
      (fun s _ => s.began = true) fun _ => True := by
  have hran : Steady (Local.Ran c dupKey claimedDup : Local V → Prop) := Steady.ran claimedDup
  have hmay : ∀ s : Local V, s.Ran c dupKey claimedDup → MaySucceed c dupKey s := fun s hs => hs.1.1
  refine CallRuns.tryCatch (Y := Local.Ran c dupKey claimedDup) ?_ fun error herror => ?_
  · refine CallRuns.bind (Q := fun s _ => s.Ran c dupKey claimedDup ∧ s.ended = false)
      (await_runs (fun s hs => ⟨hs.1.1.1, hs.2.1⟩) (fun s _ hs => ⟨⟨hs.1, rfl⟩, hs.2.2⟩)
        fun s e hs => ⟨hs.1, rfl⟩) fun _ => ?_
    refine CallRuns.bind (Q := fun s _ => s.Ran c dupKey claimedDup)
      (await_runs (fun s hs => ⟨hs.1.2, hs.2⟩) (fun s _ hs => hs.1) fun s e hs => hs.1)
      fun output => ?_
    refine Runs.orElse output (ask_runs hran .processed) (fun _ hs => hs) fun output => ?_
    dsimp only
    split
    · exact CallRuns.bind (noSuccess_runs hran rfl rfl) fun _ => pure_runs fun s hs => hs.1.2
    · exact CallRuns.bind (success_runs hran hmay _) fun _ => pure_runs fun s hs => hs.1.2
  · have hthrow : ∀ {P : Local V → Prop}, CallRuns c key dupKey P (throw error : TM V (Out V))
        (fun s _ => s.began = true) fun _ => True := throw_runs herror fun _ _ => trivial
    refine CallRuns.bind (noSuccess_runs hran rfl rfl).drop fun _ => ?_
    refine CallRuns.pre (J := Local.Ran c dupKey claimedDup) ?_ fun s hs => hs.1
    cases dupKey with
    | none => exact hthrow
    | some k =>
      simp only
      split
      · next hdup =>
        refine CallRuns.bind (now_runs hran).drop fun t => ?_
        refine CallRuns.bind (Q := fun _ _ => True) (await_runs (fun s hs => ?_)
          (fun _ _ _ => trivial) fun _ _ _ => trivial) fun _ => hthrow
        exact ⟨rfl, .inr ⟨hs.1.2 hdup, t, rfl⟩⟩
      · exact hthrow

/-- What a call returns: of its tool, or what it gives without. -/
def Answers (c : ToolCall) (s : Local V) (out : Out V) : Prop := s.began = true ∨ s.Gives c out

theorem afterClaim_runs {approved : Option Bool}
    (happ : approved = some true → c.ctx.approvals c.toolCallId = some true)
    (record : Option (ToolRecord V)) :
    CallRuns c key dupKey Local.Holds (c.afterClaim key dupKey approved record) (Answers c)
      fun _ => True := by
  refine CallRuns.bind (markerGate_runs happ) fun gate => ?_
  cases gate with
  | inl output => exact pure_runs fun s hs => .inr hs
  | inr claimedDup =>
    have hready : Steady (Local.Ready c dupKey claimedDup : Local V → Prop) := .ready claimedDup
    refine Runs.when (note_runs hready).drop ?_
    refine CallRuns.bind (lookupGate_runs hready (fun s hs => hs.1.1) record).drop fun found => ?_
    cases found with
    | some output => exact pure_runs fun s hs => .inr (hs.2 output rfl)
    | none =>
      exact (runTool_runs record claimedDup).conseq (fun s hs => hs.1) (fun _ _ h => .inl h)
        fun _ h => h

/-- Every gate stops the call with an answer, or leaves the rest to the next. -/
theorem gates_runs {gs : List (TM V (Option (Out V)))} {next : TM V (Out V)}
    (hgs : ∀ g ∈ gs, IsGate c key dupKey I g)
    (hnext : CallRuns c key dupKey I next (Answers c) fun _ => True) :
    CallRuns c key dupKey I (gates gs next) (Answers c) fun _ => True := by
  induction gs with
  | nil => exact hnext
  | cons g gs ih =>
    refine CallRuns.bind (hgs g (.head _)).drop fun r => ?_
    cases r with
    | some output => exact pure_runs fun s hs => .inr (hs.2 output rfl)
    | none => exact (ih fun g hg => hgs g (.tail _ hg)).pre fun s hs => hs.1

theorem claimAndRun_runs {record : Option (ToolRecord V)} (hfinal : ∀ x ∈ record, x.final = none) :
    CallRuns c key dupKey (Claiming c record) (c.claimAndRun key dupKey record) (Answers c)
      fun _ => True := by
  refine CallRuns.bind (claimLoop_runs approved_eq_some c.rounds record false hfinal) fun r => ?_
  cases r with
  | out output => exact pure_runs fun s hs => .inr hs
  | won later => exact afterClaim_runs approved_eq_some later

theorem replayRecord_runs {record : ToolRecord V} {output : Out V}
    (hfinal : record.final = some output) :
    CallRuns c key dupKey (fun s => s.Has c record) (c.replayRecord key record output) (Answers c)
      fun _ => True := by
  have hconsume : CallRuns c key dupKey (fun s => s.Has c record)
      (c.consumeExistingRecord key record output) (Answers c) fun _ => True :=
    (consumeExistingRecord_runs (Steady.has c record) (settled_of_final hfinal)
      fun s hs => hs.1).conseq (fun _ h => h) (fun _ _ h => .inr h.2) fun _ _ => trivial
  rcases record with _ | ⟨_, _ | hash, _⟩ | _ | _ | _ | _
  case succeeded.some =>
    simp only [replayRecord]
    split
    · exact throw_runs (fun he => by cases he) fun _ _ => trivial
    · exact hconsume
  all_goals exact hconsume

variable {e : ToolError}

/-- A name can only be refused for what it is. -/
theorem assertNoColonInToolName_error {name : JsString}
    (h : runKeys.assertNoColonInToolName name = .error e) : e = .badName := by
  rw [runKeys.assertNoColonInToolName] at h
  split at h
  · exact (Except.error.inj h).symm
  · cases h

theorem assertThreadId_error {threadId : JsString}
    (h : runKeys.assertThreadId threadId = .error e) : e = .badName := by
  rw [runKeys.assertThreadId] at h
  split at h
  · exact (Except.error.inj h).symm
  · cases h

/-- A computation that fails in its first part, or not at all. -/
theorem error_of_bind {α β : Type} {x : Except ToolError α} {f : α → Except ToolError β}
    (h : (x >>= f) = .error e) : x = .error e ∨ ∃ a, f a = .error e := by
  cases x with
  | error =>
    cases h
    exact .inl rfl
  | ok a => exact .inr ⟨a, h⟩

theorem key_error (h : c.key = .error e) : e = .badName := by
  rw [ToolCall.key] at h
  split at h
  · split at h
    · rcases error_of_bind h with h | ⟨_, h⟩
      · exact assertNoColonInToolName_error h
      · cases h
    · rcases error_of_bind h with h | ⟨_, h⟩
      · exact assertThreadId_error h
      · rcases error_of_bind h with h | ⟨_, h⟩
        · exact assertNoColonInToolName_error h
        · cases h
    · rcases error_of_bind h with h | ⟨_, h⟩
      · exact assertNoColonInToolName_error h
      · cases h
  · cases h

theorem dupKey_error (h : c.dupKey = .error e) : e = .badName := by
  rw [ToolCall.dupKey] at h
  split at h
  · split at h
    · next threadId _ _ =>
      rcases hthread : runKeys.assertThreadId threadId with e' | _
      · rw [threadDupMarkerKey, hthread] at h
        cases h
        exact assertThreadId_error hthread
      · rw [threadDupMarkerKey, hthread] at h
        cases h
    · cases h
  · cases h

theorem refusal_of_badName (h : e = .badName) : Refusal c e := by
  rintro rfl
  cases h

/-- A call that is not answered by its record. -/
theorem executeFresh_runs (hdup : ∀ k, c.dupKey = .ok k → k = dupKey)
    {record : Option (ToolRecord V)} (hfinal : ∀ x ∈ record, x.final = none) :
    CallRuns c key dupKey (fun s => s.Fresh ∧ ∀ x ∈ record, s.Has c x) (c.executeFresh key record)
      (Answers c) fun _ => True := by
  have hI : Steady fun s : Local V => s.Fresh ∧ ∀ x ∈ record, s.Has c x :=
    Steady.fresh.and (Steady.hasAll c record)
  have hC := Steady.claiming (c := c) record
  have hgates : CallRuns c key dupKey (Claiming c record) (do
      let dupKey ← orThrow c.dupKey
      gates [c.duplicateGate key dupKey (c.approved record), c.compensatedGate,
          c.semanticGate key record (c.approved record), c.taintGate key (c.approved record),
          c.limitsGate key]
        (c.claimAndRun key dupKey record)) (Answers c) fun _ => True := by
    refine CallRuns.bind (Q := fun s k => Claiming c record s ∧ k = dupKey)
      (orThrow_runs (fun e he => refusal_of_badName (dupKey_error he))
        (fun k hk s hs => ⟨hs, hdup k hk⟩) fun _ _ => trivial) fun k => ?_
    intro s hs
    obtain ⟨hs, rfl⟩ := hs
    refine gates_runs ?_ (claimAndRun_runs hfinal) s hs
    simp only [List.mem_cons, List.not_mem_nil, or_false]
    rintro g (rfl | rfl | rfl | rfl | rfl)
    · exact duplicateGate_runs hC (fun _ hk => hk) _
    · exact compensatedGate_runs hC
    · exact semanticGate_runs hC record _
    · exact taintGate_runs hC _
    · exact limitsGate_runs hC
  refine Runs.when (note_runs hI).drop ?_
  refine CallRuns.bind (policyGate_runs hI fun s hs => hs.2).drop fun r => ?_
  cases r with
  | some output => exact pure_runs fun s hs => .inr (hs.1.2 output rfl)
  | none =>
    refine CallRuns.pre (J := Claiming c record) ?_ fun s hs => ⟨hs.1.1.1, hs.1.1.2, hs.2 rfl⟩
    exact Runs.when (bestEffort_runs (note_runs hC)).drop hgates

/-- The text of `execute`, from the first read to the last write. -/
theorem execute_follows (hkey : ∀ k, c.key = .ok k → k = key)
    (hdup : ∀ k, c.dupKey = .ok k → k = dupKey) :
    c.execute.run.Follows (CallStep c key dupKey) (Local.init : Local V)
      (Ends (Answers c) fun _ e => Refusal c e) := by
  have hruns : CallRuns c key dupKey Local.Fresh c.execute (Answers c) fun _ : Local V => True := by
    refine CallRuns.bind (Q := fun s k => s.Fresh ∧ k = key) (orThrow_runs
      (fun e he => refusal_of_badName (key_error he)) (fun k hk s hs => ⟨hs, hkey k hk⟩)
      fun _ _ => trivial) fun k => ?_
    intro s hs
    obtain ⟨hs, rfl⟩ := hs
    revert s
    refine Runs.orElse none (get_runs Steady.fresh .first).drop
      (fun s hs => ⟨hs, fun x hx => by cases hx⟩) fun cached => ?_
    have hI : Steady fun s : Local V => s.Fresh ∧ ∀ x ∈ cached, s.Has c x.record :=
      Steady.fresh.and fun s s' h hs x hx => Steady.has c _ s s' h (hs x hx)
    refine CallRuns.bind (ctxGet_runs hI cached fun s hs => hs.2).drop fun record => ?_
    refine CallRuns.pre (J := fun s => s.Fresh ∧ ∀ x ∈ record, s.Has c x) ?_
      fun s hs => ⟨hs.1.1, hs.2⟩
    have hJ : Steady fun s : Local V => s.Fresh ∧ ∀ x ∈ record, s.Has c x :=
      Steady.fresh.and (Steady.hasAll c record)
    refine Runs.when (assertCrossRunOwner_runs hJ).drop ?_
    split
    · next r output h =>
      obtain ⟨x, rfl, hx⟩ := Option.bind_eq_some_iff.1 h
      obtain ⟨out, hfinal, heq⟩ := Option.map_eq_some_iff.1 hx
      cases heq
      exact (replayRecord_runs hfinal).pre fun s hs => hs.2 _ rfl
    · next h =>
      exact executeFresh_runs hdup fun x hx =>
        Option.map_eq_none_iff.1 (Option.bind_eq_none_iff.1 h x hx)
  refine (hruns Local.init ⟨rfl, rfl, rfl, rfl⟩).mono fun s r hr => ?_
  cases r with
  | ok out => exact hr
  | error e => exact hr.2

end Execution

end Gnldev.Durable
