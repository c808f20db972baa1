import Gnldev.Durable.Tool.Execute
import Gnldev.Lib.Exceptions

/-!
# What a call of a durable tool can do

A call is long, but what matters to the other calls is little: which operations on the
records and the markers it can perform, given what it has learned so far (`Local`).
`Allowed` says that once, and `execute_runs` shows it of the text of `execute`, with
every gate, every hook and every error. The results about many calls speak of `Allowed`
only.

Most operations are *passive*: they claim, give back and start nothing, so that what a call
knows of its claim stays true over them (`Local.Grows`, `Steady`).
-/

namespace Gnldev.Durable

open Prog

variable {V : Type}

/-! ## What a call has learned -/

/-- What a call has learned, and done. -/
structure Local (V : Type) where
  /-- The records it has read under its key, or put there. -/
  known : List (ToolRecord V)
  /-- The record as it was read before a takeover. -/
  reread : Option (Stored V)
  /-- It has read a record with a sub-agent's question that has been answered. -/
  answered : Bool
  /-- The time of the claim it has won. -/
  claimed : Option Int
  /-- The markers it has read. -/
  marks : List DupMarker
  /-- The time of the marker it has won, and not given back. -/
  marked : Option Int
  /-- It has put a success. -/
  succeeded : Bool
  /-- The clock, as it has read it last. -/
  time : Option Int
  /-- Its tool has started, and returned. -/
  began : Bool
  ended : Bool

/-- A call that has not done anything. -/
def Local.init : Local V := ⟨[], none, false, none, [], none, false, none, false, false⟩

/-- The record is a success. -/
def ToolRecord.isSucceeded : ToolRecord V → Bool
  | succeeded .. => true
  | _ => false

/-- The time of a claim. -/
def ToolRecord.startedAt : ToolRecord V → Option Int
  | running t _ => some t
  | _ => none

namespace Local

variable (c : ToolCall) (s : Local V)

/-- After reading a record. -/
def saw : Option (Stored V) → Local V
  | none => s
  | some raw => { s with
      known := raw.record :: s.known
      answered := s.answered || c.nestedAnswered raw.record }

/-- What the call knows after an operation. -/
def learn : (o : ToolOp V) → o.Res → Local V
  | .rec_ .takeover (.get _), .ok raw => { s.saw c raw with reread := raw }
  | .rec_ _ (.get _), .ok raw => s.saw c raw
  | .rec_ _ (.putIfAbsent _ v), .ok won =>
    if won then { s with claimed := v.record.startedAt } else s
  | .rec_ _ (.putIfMatch _ _ v), .ok won =>
    if won then { s with claimed := v.record.startedAt } else s
  | .rec_ .mirror (.put _ _), .ok _ => s
  | .rec_ _ (.put _ v), .ok _ => { s with
      known := v.record :: s.known
      succeeded := s.succeeded || v.record.isSucceeded }
  | .dup (.get _), .ok (some m) => { s with marks := m :: s.marks }
  | .dup (.putIfAbsent _ m), .ok won =>
    if won && m.inFlight then { s with marked := some m.at_ } else s
  | .dup (.putIfMatch _ _ m), .ok won =>
    if won && m.inFlight then { s with marked := some m.at_ } else s
  | .dup (.put _ m), .ok _ => if m.released then { s with marked := none } else s
  | .now, .ok t => { s with time := some t }
  | .start, _ => { s with began := true }
  | .finish, _ => { s with ended := true }
  | _, _ => s

end Local

/-! ## What a call may do -/

/-- A call may execute a record in doubt, or suspended: the tool has no side effects, it
    has been approved, its provider can be asked, or a sub-agent's question was answered. -/
def MayTakeOver (c : ToolCall) (s : Local V) : Prop :=
  c.sideEffect = false ∨ c.ctx.approvals c.toolCallId = some true ∨ c.tool.recover = true ∨
    s.answered = true

/-- A success may be put: it is claimed, and so is its marker, if there is one and the
    call is not to run beside others. -/
def MaySucceed (c : ToolCall) (dupKey : Option JsString) (s : Local V) : Prop :=
  s.claimed.isSome ∧ (dupKey.isSome → c.ctx.approvals c.toolCallId = some true ∨
    c.dupCfg.action = .warn ∨ s.marked.isSome)

/-- The record that a put of the call leaves, by the line of the source it is on. -/
def AllowedPut (c : ToolCall) (key : JsString) (dupKey : Option JsString) (s : Local V)
    (k : JsString) (v : Stored V) : Site V → Prop
  | .terminal => k = key ∧ v.record.startedAt = none ∧
    (v.record.isSucceeded → MaySucceed c dupKey s)
  | .recovered => k = key ∧ v.record.isSucceeded ∧ c.tool.recover ∧ s.claimed = none
  | .track base => k = key ∧ base.final.isSome ∧ base ∈ s.known ∧
    v = stampFormat (base.withResolved (base.resolved ++ [c.toolCallId]))
  | .mirror => k ≠ key ∧ ¬key.startsWith (c.ctx.runId ++ js ":")
  | _ => False

/-- The marker is given back, or its call has died; or there is a window, which may be over. -/
def Takeable (c : ToolCall) (s : Local V) (m : DupMarker) : Prop :=
  m.released ∨ c.dupCfg.ttlMs.isSome ∨ (m.inFlight ∧ ∃ t, s.time = some t ∧ c.claimTtl < t - m.at_)

/-- The operations on the marker. -/
def AllowedDup (c : ToolCall) (dupKey : Option JsString) (s : Local V) :
    KvOp JsString DupMarker → Prop
  | .get k => dupKey = some k
  | .putIfAbsent k m => dupKey = some k ∧ ∃ t,
    (m = ⟨c.toolCallId, t, false, true, false⟩ ∧ s.claimed.isSome ∧ s.marked = none) ∨
      (m = ⟨c.toolCallId, t, false, false, false⟩ ∧ s.succeeded)
  | .putIfMatch k e m => dupKey = some k ∧ ∃ t,
    (m = ⟨c.toolCallId, t, false, true, false⟩ ∧ s.claimed.isSome ∧ s.marked = none ∧
        Takeable c s e) ∨
      (m = ⟨c.toolCallId, t, false, false, false⟩ ∧ s.succeeded ∧
        (e.released ∨ (e.inFlight ∧ e.firstToolCallId = c.toolCallId)))
  | .put k m => dupKey = some k ∧
    ((∃ m₀ ∈ s.marks, m₀.completed ∧ m = { m₀ with nudged := true }) ∨
      (s.marked.isSome ∧ ∃ t, m = ⟨c.toolCallId, t, false, false, true⟩))

/-- What a call throws, or returns as blocked. Attempts are counted only for a call that
    may execute a record in doubt. -/
def Refusal (c : ToolCall) (e : ToolError) : Prop :=
  e = .retryLimitExceeded →
    c.sideEffect = false ∨ c.ctx.approvals c.toolCallId = some true ∨ c.tool.recover = true

/-- What a call may do, given what it knows. -/
def Allowed (c : ToolCall) (key : JsString) (dupKey : Option JsString) (s : Local V) :
    ToolOp V → Prop
  | .rec_ _ (.get k) => k = key
  | .rec_ _ (.putIfAbsent k v) => k = key ∧ s.claimed = none ∧
    ∃ t, v = stampFormat (.running t (some 1))
  | .rec_ _ (.putIfMatch k e v) => k = key ∧ s.claimed = none ∧ s.reread = some e ∧
    e.record.final = none ∧ MayTakeOver c s ∧ ∃ t n, v = stampFormat (.running t (some n))
  | .rec_ site (.put k v) => AllowedPut c key dupKey s k v site
  | .dup o => AllowedDup c dupKey s o
  | .start => s.claimed.isSome ∧ s.began = false
  | .finish => s.began = true ∧ s.ended = false
  | _ => True

/-- The protocol: an operation that is allowed, and what the call learns from it. -/
def CallStep (c : ToolCall) (key : JsString) (dupKey : Option JsString) (s : Local V)
    (o : ToolOp V) (r : o.Res) (s' : Local V) : Prop :=
  Allowed c key dupKey s o ∧ s' = s.learn c o r

/-! ## Passive operations -/

/-- What stays, and what can only grow, over passive operations. -/
structure Local.Grows (s s' : Local V) : Prop where
  claimed : s'.claimed = s.claimed
  marked : s'.marked = s.marked
  began : s'.began = s.began
  ended : s'.ended = s.ended
  known : ∀ r ∈ s.known, r ∈ s'.known
  marks : ∀ m ∈ s.marks, m ∈ s'.marks
  answered : s.answered → s'.answered
  succeeded : s.succeeded → s'.succeeded

theorem Local.Grows.refl (s : Local V) : s.Grows s :=
  ⟨rfl, rfl, rfl, rfl, fun _ h => h, fun _ h => h, fun h => h, fun h => h⟩

/-- The operation claims nothing, gives nothing back, and starts nothing. -/
def Passive : ToolOp V → Prop
  | .rec_ _ (.putIfAbsent _ _) => False
  | .rec_ _ (.putIfMatch _ _ _) => False
  | .dup (.putIfAbsent _ m) => m.inFlight = false
  | .dup (.putIfMatch _ _ m) => m.inFlight = false
  | .dup (.put _ m) => m.released = false
  | .start => False
  | .finish => False
  | _ => True

theorem Local.grows_saw (c : ToolCall) (s : Local V) (raw : Option (Stored V)) :
    s.Grows (s.saw c raw) := by
  cases raw with
  | none => exact .refl s
  | some raw =>
    refine ⟨rfl, rfl, rfl, rfl, fun _ h => .tail _ h, fun _ h => h, fun h => ?_, fun h => h⟩
    rw [saw, h]
    rfl

/-- After putting a record. -/
theorem Local.grows_put (s : Local V) (r : ToolRecord V) :
    s.Grows { s with known := r :: s.known, succeeded := s.succeeded || r.isSucceeded } := by
  refine ⟨rfl, rfl, rfl, rfl, fun _ h => .tail _ h, fun _ h => h, fun h => h, fun h => ?_⟩
  rw [Bool.or_eq_true]
  exact .inl h

theorem Local.grows_learn {c : ToolCall} {s : Local V} {o : ToolOp V} (ho : Passive o) (r : o.Res) :
    s.Grows (s.learn c o r) := by
  cases r with
  | error e =>
    rcases o with ⟨site, o⟩ | o | _ | _ | _ | _ | _ | _
    · cases site <;> cases o <;> exact .refl s
    · cases o <;> exact .refl s
    · exact .refl s
    · exact .refl s
    · exact .refl s
    · exact .refl s
    · exact ho.elim
    · exact ho.elim
  | ok r =>
    rcases o with ⟨site, o⟩ | o | _ | _ | _ | _ | _ | _
    · rcases o with _ | ⟨k, v⟩ | _ | _
      · cases site
        case takeover =>
          obtain ⟨h₁, h₂, h₃, h₄, h₅, h₆, h₇, h₈⟩ := s.grows_saw c r
          exact ⟨h₁, h₂, h₃, h₄, h₅, h₆, h₇, h₈⟩
        all_goals exact s.grows_saw c r
      · cases site
        case mirror => exact .refl s
        all_goals exact s.grows_put v.record
      · exact ho.elim
      · exact ho.elim
    · rcases o with _ | ⟨k, m⟩ | ⟨k, m⟩ | ⟨k, e, m⟩
      · cases r with
        | none => exact .refl s
        | some m => exact ⟨rfl, rfl, rfl, rfl, fun _ h => h, fun _ h => .tail _ h, fun h => h,
            fun h => h⟩
      · have hm : m.released = false := ho
        simp only [learn, hm, Bool.false_eq_true, if_false]
        exact .refl s
      · have hm : m.inFlight = false := ho
        simp only [learn, hm, Bool.and_false, Bool.false_eq_true, if_false]
        exact .refl s
      · have hm : m.inFlight = false := ho
        simp only [learn, hm, Bool.and_false, Bool.false_eq_true, if_false]
        exact .refl s
    · exact .refl s
    · exact ⟨rfl, rfl, rfl, rfl, fun _ h => h, fun _ h => h, fun h => h, fun h => h⟩
    · exact .refl s
    · exact .refl s
    · exact ho.elim
    · exact ho.elim

/-- An assertion that passive operations keep. -/
def Steady (I : Local V → Prop) : Prop := ∀ s s', s.Grows s' → I s → I s'

namespace Steady

variable {I J : Local V → Prop}

theorem and (hI : Steady I) (hJ : Steady J) : Steady fun s => I s ∧ J s :=
  fun s s' h hs => ⟨hI s s' h hs.1, hJ s s' h hs.2⟩

theorem const (p : Prop) : Steady fun _ : Local V => p := fun _ _ _ h => h

theorem known (r : ToolRecord V) : Steady fun s : Local V => r ∈ s.known :=
  fun _ _ h hs => h.known r hs

end Steady

/-! ## Operations -/

section Operations

variable {c : ToolCall} {key : JsString} {dupKey : Option JsString} {I : Local V → Prop}

/-- The triples of a call. What it throws is a refusal. -/
def CallRuns (c : ToolCall) (key : JsString) (dupKey : Option JsString) {α : Type}
    (P : Local V → Prop) (p : TM V α) (Q : Local V → α → Prop) (X : Local V → Prop) : Prop :=
  Runs (CallStep c key dupKey) P p Q fun s e => X s ∧ Refusal c e

variable {α : Type} {p : TM V α} {P X : Local V → Prop} {Q : Local V → α → Prop}

theorem CallRuns.conseq {J Y : Local V → Prop} {T : Local V → α → Prop}
    (h : CallRuns c key dupKey J p T Y) (hP : ∀ s, P s → J s) (hQ : ∀ s a, T s a → Q s a)
    (hX : ∀ s, Y s → X s) : CallRuns c key dupKey P p Q X :=
  Runs.conseq h hP hQ fun s _ hs => ⟨hX s hs.1, hs.2⟩

theorem CallRuns.pre {J : Local V → Prop} (h : CallRuns c key dupKey J p Q X) (hP : ∀ s, P s → J s) :
    CallRuns c key dupKey P p Q X := Runs.pre h hP

theorem CallRuns.post {T : Local V → α → Prop} (h : CallRuns c key dupKey P p T X)
    (hQ : ∀ s a, T s a → Q s a) : CallRuns c key dupKey P p Q X := Runs.post h hQ

theorem CallRuns.bind {β : Type} {f : α → TM V β} {R : Local V → β → Prop}
    (h : CallRuns c key dupKey P p Q X) (hf : ∀ a, CallRuns c key dupKey (fun s => Q s a) (f a) R X) :
    CallRuns c key dupKey P (p >>= f) R X := Runs.bind h hf

/-- Nothing is said of the phases in which the program throws. -/
theorem CallRuns.drop (h : CallRuns c key dupKey P p Q X) :
    CallRuns c key dupKey P p Q fun _ => True :=
  h.conseq (fun _ hs => hs) (fun _ _ hs => hs) fun _ _ => trivial

/-- The handler of a program that throws in the phases of `Y`. -/
theorem CallRuns.tryCatch {f : ToolError → TM V α} {Y : Local V → Prop}
    (h : CallRuns c key dupKey P p Q Y) (hf : ∀ e, Refusal c e → CallRuns c key dupKey Y (f e) Q X) :
    CallRuns c key dupKey P (tryCatch p f) Q X :=
  Runs.tryCatch h fun e s hs => hf e hs.2 s hs.1

theorem throw_runs {e : ToolError} (he : Refusal c e) (h : ∀ s, P s → X s) :
    CallRuns c key dupKey P (throw e : TM V α) Q X :=
  runs_throw fun s hs => ⟨h s hs, he⟩

theorem await_runs {o : ToolOp V} {Q : Local V → o.Ans → Prop}
    (ho : ∀ s, P s → Allowed c key dupKey s o) (hQ : ∀ s r, P s → Q (s.learn c o (.ok r)) r)
    (hX : ∀ s e, P s → X (s.learn c o (.error e))) :
    CallRuns c key dupKey P (await_ o) Q X := by
  intro s hs r
  refine ⟨_, ⟨ho s hs, rfl⟩, ?_⟩
  cases r with
  | ok r => exact hQ s r hs
  | error e => exact ⟨hX s e hs, fun he => by cases he⟩

variable (hI : Steady I)
include hI

/-- A passive operation keeps a steady assertion. -/
theorem passive_runs {o : ToolOp V} (hp : Passive o) (ho : ∀ s, I s → Allowed c key dupKey s o) :
    CallRuns c key dupKey I (await_ o) (fun s _ => I s) I :=
  await_runs ho (fun s r hs => hI s _ (s.grows_learn hp (.ok r)) hs)
    fun s e hs => hI s _ (s.grows_learn hp (.error e)) hs

theorem ask_runs (q : Ask) : CallRuns c key dupKey I (await_ (.ask q)) (fun s _ => I s) I :=
  passive_runs hI trivial fun _ _ => trivial

theorem note_runs : CallRuns c key dupKey I (await_ .note) (fun s _ => I s) I :=
  passive_runs hI trivial fun _ _ => trivial

theorem now_runs : CallRuns c key dupKey I (await_ .now) (fun s _ => I s) I :=
  passive_runs hI trivial fun _ _ => trivial

theorem nudge_runs (k : JsString) :
    CallRuns c key dupKey I (await_ (.nudge k)) (fun s _ => I s) I :=
  passive_runs hI trivial fun _ _ => trivial

omit hI

theorem pure_runs {a : α} (h : ∀ s, I s → Q s a) : CallRuns c key dupKey I (pure a) Q X := runs_pure h

theorem bestEffort_runs {p : TM V Unit} (h : CallRuns c key dupKey I p (fun s _ => I s) I) :
    CallRuns c key dupKey I (bestEffort p) (fun s _ => I s) I :=
  h.tryCatch fun _ _ => pure_runs fun _ hs => hs

end Operations

/-! ## Writing records -/

/-- What a call that has not run its tool can return: a sentinel of the engine, or the
    output of a record it has read or put, a suspension as its own. A final record names the
    call. -/
def Local.Gives (c : ToolCall) (s : Local V) (out : Out V) : Prop :=
  (∃ kind, out = .limitExceeded kind) ∨ (∃ err, out = .blocked err ∧ Refusal c err) ∨
    ∃ r ∈ s.known, ∃ o, r.settled = some o ∧ (out = o ∨ out = c.ownSuspension o) ∧
      (r.final.isSome → c.toolCallId ∈ r.resolved)

theorem settled_withResolved (ids : List JsString) (r : ToolRecord V) :
    (r.withResolved ids).settled = r.settled := by
  cases r <;> rfl

theorem resolved_withResolved {ids : List JsString} {r : ToolRecord V} (h : r.final.isSome) :
    (r.withResolved ids).resolved = ids := by
  cases r <;> first | rfl | contradiction

section Writing

open ToolCall

variable {c : ToolCall} {key : JsString} {dupKey : Option JsString} {I : Local V → Prop}
  (hI : Steady I)

/-- The keys of a run start with its id. -/
theorem tool_startsWith (runId toolCallId : JsString) :
    (runKeys.tool runId toolCallId).startsWith (runId ++ js ":") := by
  rw [JsString.startsWith_iff, runKeys.tool]
  have htool : js ":tool:" = js ":" ++ js "tool:" := by decide
  rw [htool, List.append_assoc, List.append_assoc, ← List.append_assoc]
  exact List.prefix_append _ _

/-- A copy is under another key. -/
theorem mirror_ne (h : ¬key.startsWith (c.ctx.runId ++ js ":")) :
    runKeys.tool c.ctx.runId c.toolCallId ≠ key := by
  rintro rfl
  exact h (tool_startsWith _ _)

include hI

theorem mirrorUnderRun_runs (record : ToolRecord V) :
    CallRuns c key dupKey I (c.mirrorUnderRun key record) (fun s _ => I s) I := by
  rw [mirrorUnderRun]
  split
  · exact pure_runs fun _ hs => hs
  · next hne =>
    split
    · exact pure_runs fun _ hs => hs
    · exact bestEffort_runs (passive_runs hI trivial fun _ _ => ⟨mirror_ne hne, hne⟩)

theorem finalizeMarker_runs {k : JsString} (hk : dupKey = some k)
    (hs : ∀ s, I s → s.succeeded = true) :
    CallRuns c key dupKey I (c.finalizeMarker k) (fun s _ => I s) I := by
  refine Runs.bind (now_runs hI) fun t => ?_
  refine Runs.bind (passive_runs hI rfl fun s h => ⟨hk, t, .inr ⟨rfl, hs s h⟩⟩) fun won => ?_
  split
  · exact pure_runs fun _ h => h
  · refine Runs.bind (passive_runs hI trivial fun _ _ => hk) fun cur => ?_
    cases cur with
    | none => exact pure_runs fun _ h => h
    | some cur =>
      simp only
      split
      · next hcur =>
        refine Runs.bind (passive_runs hI rfl fun s h => ⟨hk, t, .inr ⟨rfl, hs s h, ?_⟩⟩)
          fun _ => pure_runs fun _ h => h
        simpa [Bool.or_eq_true, Bool.and_eq_true] using hcur
      · exact pure_runs fun _ h => h

variable {record : ToolRecord V} {dk : Option JsString}

theorem markSuccess_runs (hdk : ∀ k, dk = some k → dupKey = some k)
    (hs : ∀ s, I s → (c.stamped record).isSucceeded → s.succeeded = true) :
    CallRuns c key dupKey I (c.markSuccess record dk) (fun s _ => I s) I := by
  cases record with
  | succeeded output hash ids =>
    cases dk with
    | some k => exact finalizeMarker_runs hI (hdk k rfl) fun s h => hs s h rfl
    | none => exact pure_runs fun _ h => h
  | _ => exact pure_runs fun _ h => h

theorem informSuccess_runs (record : ToolRecord V) :
    CallRuns c key dupKey I (c.informSuccess record) (fun s _ => I s) I := by
  cases record with
  | succeeded output hash ids =>
    simp only [informSuccess]
    refine Runs.when (bestEffort_runs (note_runs hI)) ?_
    split
    · refine bestEffort_runs (Runs.bind (ask_runs hI .report) fun b => ?_)
      split
      · exact note_runs hI
      · exact pure_runs fun _ h => h
    · exact pure_runs fun _ h => h
  | _ => exact pure_runs fun _ h => h

theorem afterTerminal_runs (hdk : ∀ k, dk = some k → dupKey = some k)
    (hs : ∀ s, I s → (c.stamped record).isSucceeded → s.succeeded = true) :
    CallRuns c key dupKey I (c.afterTerminal key record dk) (fun s _ => I s) I := by
  refine Runs.bind (mirrorUnderRun_runs hI _) fun _ => ?_
  refine Runs.bind (markSuccess_runs hI hdk hs) fun _ => ?_
  refine Runs.bind (informSuccess_runs hI _) fun _ => ?_
  split
  · exact ask_runs hI .outcome
  · exact pure_runs fun _ h => h

/-- A terminal record is put, with what goes with it. -/
theorem writeToolTerminal_runs {site : Site V} (hsite : site ≠ .mirror)
    (hdk : ∀ k, dk = some k → dupKey = some k)
    (hput : ∀ s, I s → AllowedPut c key dupKey s key (stampFormat (c.stamped record)) site) :
    CallRuns c key dupKey I (c.writeToolTerminal site key record dk)
      (fun s _ => I s ∧ c.stamped record ∈ s.known) I := by
  have hJ : Steady fun s : Local V => (I s ∧ c.stamped record ∈ s.known) ∧
      ((c.stamped record).isSucceeded → s.succeeded) :=
    (hI.and (.known _)).and fun s s' h hs hr => h.succeeded (hs hr)
  refine Runs.bind (Q := fun s _ => (I s ∧ c.stamped record ∈ s.known) ∧
    ((c.stamped record).isSucceeded → s.succeeded)) (await_runs hput ?_ ?_) fun _ => ?_
  · intro s r hs
    have hgrow := s.grows_learn (c := c) (o := .rec_ site (.put key
      (stampFormat (c.stamped record)))) trivial (.ok r)
    refine ⟨⟨hI s _ hgrow hs, ?_⟩, fun hsucc => ?_⟩
    · cases site <;> first | exact absurd rfl hsite | exact .head _
    · cases site <;> first | exact absurd rfl hsite | exact Bool.or_eq_true_iff.2 (.inr hsucc)
  · exact fun s e hs => hI s _ (s.grows_learn (o := .rec_ site (.put key
      (stampFormat (c.stamped record)))) trivial (.error e)) hs
  · -- The rest keeps all of this; a later failure is not told of the record.
    exact (afterTerminal_runs hJ hdk fun s hs => hs.2).conseq (fun _ h => h) (fun _ _ h => h.1)
      fun _ h => h.1.1

/-- The call knows the record, which names it if it is final. -/
def Local.Named (c : ToolCall) (s : Local V) (r : ToolRecord V) : Prop :=
  r ∈ s.known ∧ (r.final.isSome → c.toolCallId ∈ r.resolved)

/-- A final record is put again with this call, or names it already. -/
theorem trackResolvedToolCallId_runs (hknown : ∀ s, I s → record ∈ s.known) :
    CallRuns c key dupKey I (c.trackResolvedToolCallId key record)
      (fun s r => I s ∧ r.settled = record.settled ∧ s.Named c r) I := by
  rw [trackResolvedToolCallId]
  split
  · next hnone =>
    refine pure_runs fun s hs => ⟨hs, rfl, hknown s hs, fun hfinal => ?_⟩
    rw [Option.isNone_iff_eq_none.1 hnone] at hfinal
    contradiction
  · next hfinal =>
    have hsome : record.final.isSome := by
      rw [Option.isNone_iff_eq_none, ← ne_eq] at hfinal
      exact Option.isSome_iff_ne_none.2 hfinal
    split
    · next hmem => exact pure_runs fun s hs => ⟨hs, rfl, hknown s hs, fun _ => hmem⟩
    · refine Runs.bind (Q := fun s _ => I s ∧
        record.withResolved (record.resolved ++ [c.toolCallId]) ∈ s.known) (await_runs
          (fun s hs => ⟨rfl, hsome, hknown s hs, rfl⟩) (fun s r hs => ⟨?_, .head _⟩)
          fun s e hs => ?_) fun _ => pure_runs fun s hs => ⟨hs.1, ?_, hs.2, fun _ => ?_⟩
      · exact hI s _ (s.grows_put _) hs
      · exact hI s _ (s.grows_learn (o := .rec_ (.track record) (.put key _)) trivial (.error e)) hs
      · exact settled_withResolved _ _
      · rw [resolved_withResolved hsome]
        exact List.mem_append_right _ (.head _)

/-- A record is consumed: its output is returned, a suspension as the call's own. -/
theorem consumeExistingRecord_runs {output : Out V} (hsettled : record.settled = some output)
    (hknown : ∀ s, I s → record ∈ s.known) :
    CallRuns c key dupKey I (c.consumeExistingRecord key record output)
      (fun s out => I s ∧ s.Gives c out) I := by
  refine Runs.bind (trackResolvedToolCallId_runs hI hknown) fun latest => ?_
  have hJ : Steady fun s : Local V => I s ∧ latest.settled = record.settled ∧ s.Named c latest :=
    hI.and ((Steady.const _).and fun s s' h hs => ⟨h.known latest hs.1, hs.2⟩)
  have hgives {s : Local V} {out : Out V} (hout : out = output ∨ out = c.ownSuspension output)
      (hs : I s ∧ latest.settled = record.settled ∧ s.Named c latest) : s.Gives c out :=
    .inr (.inr ⟨latest, hs.2.2.1, output, hs.2.1.trans hsettled, hout, hs.2.2.2⟩)
  have hmirror (r : ToolRecord V) : CallRuns c key dupKey
      (fun s => I s ∧ latest.settled = record.settled ∧ s.Named c latest) (c.mirrorUnderRun key r)
      (fun s _ => I s ∧ latest.settled = record.settled ∧ s.Named c latest) I :=
    (mirrorUnderRun_runs hJ r).conseq (fun _ h => h) (fun _ _ h => h) fun _ h => h.1
  split
  · exact Runs.bind (hmirror _) fun _ => pure_runs fun s hs => ⟨hs.1, hgives (.inr rfl) hs⟩
  · exact Runs.bind (hmirror _) fun _ => pure_runs fun s hs => ⟨hs.1, hgives (.inl rfl) hs⟩

end Writing

/-! ## Reading records -/

/-- The call has read the record, and noticed an answer to a question it carries. -/
def Local.Has (c : ToolCall) (s : Local V) (r : ToolRecord V) : Prop :=
  r ∈ s.known ∧ (c.nestedAnswered r = true → s.answered = true)

theorem Steady.has (c : ToolCall) (r : ToolRecord V) : Steady fun s => s.Has c r :=
  fun _ _ h hs => ⟨h.known r hs.1, fun ha => h.answered (hs.2 ha)⟩

theorem Steady.hasAll (c : ToolCall) (r : Option (ToolRecord V)) :
    Steady fun s => ∀ x ∈ r, s.Has c x :=
  fun s s' h hs x hx => Steady.has c x s s' h (hs x hx)

theorem Steady.mayTakeOver (c : ToolCall) : Steady fun s : Local V => MayTakeOver c s := by
  rintro s s' h (hs | hs | hs | hs)
  · exact .inl hs
  · exact .inr (.inl hs)
  · exact .inr (.inr (.inl hs))
  · exact .inr (.inr (.inr (h.answered hs)))

theorem upgradeFormat_eq {raw : Stored V} {r : ToolRecord V} (h : upgradeFormat raw = .ok r) :
    r = raw.record := by
  rw [upgradeFormat] at h
  split at h
  · cases h
  · exact (Except.ok.inj h).symm

theorem Local.has_saw (c : ToolCall) (s : Local V) (raw : Stored V) :
    (s.saw c (some raw)).Has c raw.record :=
  ⟨.head _, fun h => by rw [saw, h, Bool.or_true]⟩

section Reading

variable {c : ToolCall} {key : JsString} {dupKey : Option JsString} {I : Local V → Prop}

theorem orThrow_runs {α : Type} {x : Except ToolError α} {Q : Local V → α → Prop}
    {X : Local V → Prop} (hx : ∀ e, x = .error e → Refusal c e)
    (hQ : ∀ a, x = .ok a → ∀ s, I s → Q s a) (hX : ∀ s, I s → X s) :
    CallRuns c key dupKey I (orThrow x) Q X := by
  intro s hs
  cases x with
  | ok a => exact hQ a rfl s hs
  | error e => exact ⟨hX s hs, hx e rfl⟩

/-- Reading a record of a newer format is refused. -/
theorem upgradeFormat_refusal {raw : Stored V} {e : ToolError} (h : upgradeFormat raw = .error e) :
    Refusal c e := by
  rw [upgradeFormat] at h
  split at h
  · cases h
    exact fun he => by cases he
  · cases h

variable (hI : Steady I)
include hI

/-- A read at any line, whose answer is learned. -/
theorem get_runs (site : Site V) :
    CallRuns c key dupKey I (await_ (.rec_ site (.get key)))
      (fun s raw => I s ∧ ∀ x ∈ raw, s.Has c x.record) I := by
  refine await_runs (fun _ _ => rfl) (fun s raw hs => ⟨?_, ?_⟩) fun s e hs => ?_
  · exact hI s _ (s.grows_learn (o := .rec_ site (.get key)) trivial (.ok raw)) hs
  · rintro x hx
    cases hx
    cases site <;> exact s.has_saw c x
  · exact hI s _ (s.grows_learn (o := .rec_ site (.get key)) trivial (.error e)) hs

theorem readRecord_runs (site : Site V) :
    CallRuns c key dupKey I (readRecord site key) (fun s r => I s ∧ ∀ x ∈ r, s.Has c x) I := by
  refine Runs.bind (get_runs hI site) fun raw => ?_
  cases raw with
  | none => exact pure_runs fun _ hs => ⟨hs.1, fun _ hx => by cases hx⟩
  | some raw =>
    refine Runs.bind (orThrow_runs (Q := fun s r => I s ∧ s.Has c r)
        (fun _ => upgradeFormat_refusal) ?_ fun s hs => hs.1)
      fun r => pure_runs fun s hs => ⟨hs.1, fun x hx => ?_⟩
    · rintro r hr s hs
      rw [upgradeFormat_eq hr]
      exact ⟨hs.1, hs.2 raw rfl⟩
    · cases hx
      exact hs.2

theorem assertCrossRunOwner_runs :
    CallRuns c key dupKey I (c.assertCrossRunOwner : TM V Unit) (fun s _ => I s) I := by
  rw [ToolCall.assertCrossRunOwner]
  split
  · refine Runs.bind (ask_runs hI .ownerAllows) fun b => ?_
    split
    · exact pure_runs fun _ h => h
    · exact throw_runs (fun he => by cases he) fun _ h => h
  · exact pure_runs fun _ h => h

theorem ctxGet_runs (cached : Option (Stored V)) (hc : ∀ s, I s → ∀ x ∈ cached, s.Has c x.record) :
    CallRuns c key dupKey I (ToolCall.ctxGet key cached)
      (fun s r => I s ∧ ∀ x ∈ r, s.Has c x) I := by
  have hread : ∀ raw : Option (Stored V), CallRuns c key dupKey
      (fun s => I s ∧ ∀ x ∈ raw, s.Has c x.record)
      (match raw with
        | none => pure none
        | some raw =>
          if isVersionedKey key then do
            return some (← orThrow (upgradeFormat raw))
          else return some raw.record) (fun s r => I s ∧ ∀ x ∈ r, s.Has c x) I := by
    intro raw
    cases raw with
    | none => exact pure_runs fun _ hs => ⟨hs.1, fun _ hx => by cases hx⟩
    | some raw =>
      simp only
      split
      · refine Runs.bind (orThrow_runs (Q := fun s r => I s ∧ s.Has c r)
        (fun _ => upgradeFormat_refusal) ?_ fun s hs => hs.1)
          fun r => pure_runs fun s hs => ⟨hs.1, fun x hx => ?_⟩
        · rintro r hr s hs
          rw [upgradeFormat_eq hr]
          exact ⟨hs.1, hs.2 raw rfl⟩
        · cases hx
          exact hs.2
      · refine pure_runs fun s hs => ⟨hs.1, fun x hx => ?_⟩
        cases hx
        exact hs.2 raw rfl
  cases cached with
  | some raw => exact (hread (some raw)).pre fun s hs => ⟨hs, hc s hs⟩
  | none => exact Runs.bind (get_runs hI .first) hread

end Reading

end Gnldev.Durable
