import Gnldev.Durable.Tool.AtMostOnce
import Gnldev.Durable.Tool.Finality
import Gnldev.Lib.LastIndex

/-!
# The calls a record has served

A call that finds a final record under its key adds its id to those the record has answered, by
putting the record again as it has read it (`trackResolvedToolCallId`). From these ids a run is told
which of its calls are settled (`time-travel.ts`, `reconstructState`).

The put is not conditional. As long as every call finds the record as it has read it, no call that has
been served is forgotten, and the record keeps its status and its output (`served_remembered`); of two
calls that have read the same record, the first one to put it is forgotten (`served_forgotten`).
-/

open List

namespace Gnldev.Durable

open Function

variable {V : Type}

/-! ## The calls a run has pending -/

/-- A tool call of a model step, with the id that its arguments would give it. -/
structure StepCall where
  toolCallId : JsString
  toolName : JsString
  argsKey : JsString
  deriving DecidableEq

/-- An entry of a run's journal, as far as its pending calls depend on it. -/
inductive WindowEntry (V : Type) where
  | model (calls : List StepCall)
  | tool (key : JsString) (record : ToolRecord V)

def WindowEntry.calls : WindowEntry V → List StepCall
  | model calls => calls
  | tool _ _ => []

/-- The id in a tool key. -/
def toolIdFromKey (key : JsString) : JsString :=
  match List.lastIndexOf (js ":tool:") key with
  | some i => key.drop (i + (js ":tool:").length)
  | none => key

/-- The field `resolvedToolCallIds` of a record, if it is there. -/
def ToolRecord.resolvedIds : ToolRecord V → Option (List JsString)
  | succeeded _ _ ids => ids
  | denied _ ids => ids
  | reflected _ _ ids => ids
  | _ => none

/-- The record still waits: for an answer, or for its tool. -/
def ToolRecord.waits : ToolRecord V → Bool
  | suspended _ => true
  | running _ _ => true
  | _ => false

/-- The arguments' id of a call; of calls with one id, that of the last one. -/
def argsKeyOf (toolCalls : List StepCall) (toolCallId : JsString) : Option JsString :=
  (toolCalls.filter (·.toolCallId = toolCallId)).getLast?.map (·.argsKey)

/-- The calls that a record is about: those it names, or, in an old record, those of its key. -/
def toolCandidates (toolCalls : List StepCall) (key : JsString) (record : ToolRecord V) :
    List StepCall :=
  match record.resolvedIds with
  | some ids => toolCalls.filter (·.toolCallId ∈ ids)
  | none => toolCalls.filter fun x =>
      x.toolCallId = toolIdFromKey key ∨ argsKeyOf toolCalls x.toolCallId = some (toolIdFromKey key)

/-- The calls that are settled, with those of one more entry. -/
def claimEntry (toolCalls : List StepCall) (claimed : List JsString) :
    WindowEntry V → List JsString
  | .model _ => claimed
  | .tool key record =>
    if record.waits then claimed
    else claimed ++
      ((toolCandidates toolCalls key record).filter (·.toolCallId ∉ claimed)).map (·.toolCallId)

/-- The `pending` of `reconstructState`. -/
def pendingCalls (window : List (WindowEntry V)) : List StepCall :=
  let toolCalls := window.flatMap (·.calls)
  let claimed := window.foldl (claimEntry toolCalls) []
  toolCalls.filter (·.toolCallId ∉ claimed)

section Pending

variable {toolCalls : List StepCall} {claimed : List JsString} {id : JsString}

theorem mem_claimEntry (e : WindowEntry V) (h : id ∈ claimed) :
    id ∈ claimEntry toolCalls claimed e := by
  rcases e with calls | ⟨key, record⟩
  · exact h
  · rw [claimEntry]
    split
    · exact h
    · exact mem_append_left _ h

variable {key : JsString} {record : ToolRecord V}

/-- A call that a settled record names is settled. -/
theorem mem_claimEntry_tool (hfinal : record.final.isSome) (hid : id ∈ record.resolved)
    {call : StepCall} (hcall : call ∈ toolCalls) (heq : call.toolCallId = id) :
    id ∈ claimEntry toolCalls claimed (.tool key record) := by
  have hwaits : record.waits = false := by
    cases record <;> first | rfl | contradiction
  have hids : ∃ ids, record.resolvedIds = some ids ∧ id ∈ ids := by
    rcases record with _ | ⟨_, _, _ | ids⟩ | ⟨_, _ | ids⟩ | ⟨_, _, _ | ids⟩ | _ | _
    all_goals first | contradiction | exact ⟨ids, rfl, hid⟩
  obtain ⟨ids, hsome, hmem⟩ := hids
  rw [claimEntry, hwaits]
  by_cases hold : id ∈ claimed
  · exact mem_append_left _ hold
  · refine mem_append_right _ (mem_map.2 ⟨call, mem_filter.2 ⟨?_, ?_⟩, heq⟩)
    · rw [toolCandidates, hsome]
      exact mem_filter.2 ⟨hcall, by simpa [heq] using hmem⟩
    · simpa [heq] using hold

theorem mem_foldl_claimEntry (window : List (WindowEntry V)) (h : id ∈ claimed) :
    id ∈ window.foldl (claimEntry toolCalls) claimed := by
  induction window generalizing claimed with
  | nil => exact h
  | cons e window ih => exact ih (mem_claimEntry e h)

theorem settled_of_entry {window : List (WindowEntry V)} (hfinal : record.final.isSome)
    (hid : id ∈ record.resolved) (hrec : .tool key record ∈ window) {call : StepCall}
    (hcall : call ∈ toolCalls) (heq : call.toolCallId = id) :
    id ∈ window.foldl (claimEntry toolCalls) claimed := by
  induction window generalizing claimed with
  | nil => contradiction
  | cons e window ih =>
    rcases mem_cons.1 hrec with rfl | hrec
    · exact mem_foldl_claimEntry window (mem_claimEntry_tool hfinal hid hcall heq)
    · exact ih hrec

/-- A call that is named by a final record of the run is not pending, wherever the record stands. -/
theorem not_pending {window : List (WindowEntry V)} (hfinal : record.final.isSome)
    (hid : id ∈ record.resolved) (hrec : .tool key record ∈ window) :
    ∀ call ∈ pendingCalls window, call.toolCallId ≠ id := by
  rintro call hcall heq
  obtain ⟨hmem, hopen⟩ := mem_filter.1 hcall
  have hsettled : id ∈ window.foldl (claimEntry _) [] :=
    settled_of_entry hfinal hid hrec hmem heq
  rw [decide_eq_true_eq, heq] at hopen
  exact hopen hsettled

end Pending

/-! ## Records that are served -/

/-- The record has the status and the output of `r`, and names at least the same calls. -/
def ToolRecord.Extends (r' r : ToolRecord V) : Prop :=
  r'.withResolved [] = r.withResolved [] ∧ r.resolved <+: r'.resolved

namespace ToolRecord.Extends

variable {r r' r'' : ToolRecord V}

theorem refl (r : ToolRecord V) : r.Extends r := ⟨rfl, prefix_refl _⟩

theorem trans (h : r''.Extends r') (h' : r'.Extends r) : r''.Extends r :=
  ⟨h.1.trans h'.1, h'.2.trans h.2⟩

theorem final_eq (h : r'.Extends r) : r'.final = r.final := by
  have hout (x : ToolRecord V) : (x.withResolved []).final = x.final := by cases x <;> rfl
  rw [← hout r', h.1, hout]

/-- A call is added. -/
theorem append (hfinal : r.final.isSome) (ids : List JsString) :
    (r.withResolved (r.resolved ++ ids)).Extends r := by
  refine ⟨?_, ?_⟩
  · cases r <;> rfl
  · rw [resolved_withResolved hfinal]
    exact prefix_append _ _

end ToolRecord.Extends

/-- A call adds itself to the record as it has read it, and no terminal record is put over a final
    one. -/
def Unraced (K : JsString) (w : ToolWorld V) (_ : ℕ) : (o : ToolOp V) → o.Res → Prop
  | .rec_ (.track base) (.put k _), .ok _ => k = K → w.recordAt K = some base
  | .rec_ .terminal (.put k _), .ok _ => k = K → (w.recordAt K).bind (·.final) = none
  | .rec_ .recovered (.put k _), .ok _ => k = K → (w.recordAt K).bind (·.final) = none
  | _, _ => True

/-- The call has not been served a final record: it has run its tool, it has been stopped, or it has
    been answered with a question. -/
def Unserved (c : ToolCall) (K : JsString) (i : ℕ) (w₀ w : ToolWorld V) (out : Out V) : Prop :=
  .began i ∈ w.trace ∨ (∃ kind, out = .limitExceeded kind) ∨ (∃ err, out = .blocked err) ∨
    ∃ o, Recorded K w₀ w (.suspended o) ∧ (out = o ∨ out = c.ownSuspension o)

/-- Every call that has returned and has been served is named by the record, so that it is pending in
    no run that has the record. -/
def NoneForgotten (calls : ℕ → ToolCall) (K : JsString) (w₀ : ToolWorld V)
    (conf : Conf (ToolOp V) ToolOp.Res (Except ToolError (Out V)) (ToolWorld V)) : Prop :=
  ∀ i out, conf.procs i = .pure (.ok out) → ¬Unserved (calls i) K i w₀ conf.world out →
    ∃ r, conf.world.recordAt K = some r ∧ r.final.isSome ∧ (calls i).toolCallId ∈ r.resolved ∧
      ∀ window key, .tool key r ∈ window → ∀ call ∈ pendingCalls window,
        call.toolCallId ≠ (calls i).toolCallId

/-- A final record stays, with its status and its output. -/
def StaysFinal [DecidableEq V] (K : JsString)
    (c : Conf (ToolOp V) ToolOp.Res (Except ToolError (Out V)) (ToolWorld V))
    (ms : List (Move (ToolAnswer V) ℕ)) : Prop :=
  ∀ n m r, n ≤ m → (toolMachine.play c (ms.take n)).world.recordAt K = some r → r.final.isSome →
    ∃ r', (toolMachine.play c (ms.take m)).world.recordAt K = some r' ∧ r'.Extends r

/-! ## The step -/

/-- The final records that the calls know are still there, and the tools that have run are known. -/
structure ServedInv (K : JsString) (w : ToolWorld V) (ph : ℕ → Local V) : Prop where
  known : ∀ i, ∀ r ∈ (ph i).known, r.final.isSome → ∃ r', w.recordAt K = some r' ∧ r'.Extends r
  began : ∀ i, (ph i).began → .began i ∈ w.trace

section Step

variable {c : ToolCall} {K : JsString} {dupKey : Option JsString} {i : ℕ} {w w' : ToolWorld V}
  {ph : ℕ → Local V} {s s' : Local V} {o : ToolOp V} {r : o.Res}

/-- A put of the call, of a record that it then knows: what was final is extended. -/
theorem put_extends {site : Site V} {v : Stored V} (hsite : site ≠ .mirror)
    (hput : AllowedPut c K dupKey s K v site) (hok : Unraced K w i (.rec_ site (.put K v)) (.ok ()))
    {r : ToolRecord V} (hr : w.recordAt K = some r) (hfinal : r.final.isSome) :
    v.record.Extends r := by
  have hterminal (hnone : (w.recordAt K).bind (·.final) = none) : v.record.Extends r := by
    rw [hr, Option.bind_some] at hnone
    rw [hnone] at hfinal
    contradiction
  cases site with
  | terminal => exact hterminal (hok rfl)
  | recovered => exact hterminal (hok rfl)
  | track base =>
    obtain ⟨-, hbase, -, rfl⟩ := hput
    obtain rfl : r = base := Option.some.inj (hr.symm.trans (hok rfl))
    exact .append hbase _
  | mirror => exact absurd rfl hsite
  | _ => exact hput.elim

/-- What an operation leaves of a final record. -/
theorem Does.extends (hdoes : Does c K dupKey i w s o r w' s') (hok : Unraced K w i o r)
    {r₀ r₁ : ToolRecord V} (hr : w.recordAt K = some r₁) (hext : r₁.Extends r₀)
    (hfinal : r₀.final.isSome) : ∃ r', w'.recordAt K = some r' ∧ r'.Extends r₀ := by
  have hfinal₁ : r₁.final.isSome := by rwa [hext.final_eq]
  cases hdoes with
  | idle _ _ _ _ hrecs =>
    rw [recordAt_of_recs hrecs]
    exact ⟨r₁, hr, hext⟩
  | first site t hfree =>
    rw [ToolWorld.recordAt, hfree] at hr
    contradiction
  | takeover site e t n hval _ _ hnone =>
    -- A final record is not taken over.
    rw [ToolWorld.recordAt, hval] at hr
    obtain rfl : e.record = r₁ := Option.some.inj hr
    rw [hnone] at hfinal₁
    contradiction
  | put site v hsite hput =>
    exact ⟨v.record, recordAt_putRec w i K v, (put_extends hsite hput hok hr hfinal₁).trans hext⟩
  | mirror k v hk =>
    rw [recordAt_putRec_of_ne _ _ _ hk.symm]
    exact ⟨r₁, hr, hext⟩
  | _ => exact ⟨r₁, hr, hext⟩

namespace ServedInv

theorem init (K : JsString) (w : ToolWorld V) : ServedInv K w fun _ => Local.init :=
  ⟨fun _ _ hr => absurd hr not_mem_nil, fun _ hb => absurd hb Bool.false_ne_true⟩

/-- The call `i` has learned of a record that is there. -/
theorem frame (h : ServedInv K w ph)
    (hext : ∀ r₀ r₁ : ToolRecord V, w.recordAt K = some r₁ → r₁.Extends r₀ → r₀.final.isSome →
      ∃ r', w'.recordAt K = some r' ∧ r'.Extends r₀)
    (htrace : ∀ e ∈ w.trace, e ∈ w'.trace)
    (hknown : ∀ r ∈ s.known, r ∈ (ph i).known ∨ w'.recordAt K = some r)
    (hbegan : s.began → (ph i).began ∨ .began i ∈ w'.trace) :
    ServedInv K w' (update ph i s) := by
  have hkeep (j : ℕ) (r : ToolRecord V) (hr : r ∈ (ph j).known) (hfinal : r.final.isSome) :
      ∃ r', w'.recordAt K = some r' ∧ r'.Extends r := by
    obtain ⟨r₁, hr₁, hext₁⟩ := h.known j r hr hfinal
    exact hext r r₁ hr₁ hext₁ hfinal
  refine ⟨(forall_update_iff ph fun _ s => ∀ r ∈ s.known, r.final.isSome →
      ∃ r', w'.recordAt K = some r' ∧ r'.Extends r).2 ⟨fun r hr hfinal => ?_, fun j _ => hkeep j⟩,
    (forall_update_iff ph fun j s => s.began → .began j ∈ w'.trace).2
      ⟨fun hb => ?_, fun j _ hb => htrace _ (h.began j hb)⟩⟩
  · rcases hknown r hr with hr | hr
    · exact hkeep i r hr hfinal
    · exact ⟨r, hr, .refl r⟩
  · rcases hbegan hb with hb | hb
    · exact htrace _ (h.began i hb)
    · exact hb

/-- An operation of a call with the key. -/
theorem step (h : ServedInv K w ph) (hdoes : Does c K dupKey i w (ph i) o r w' s')
    (hok : Unraced K w i o r) : ServedInv K w' (update ph i s') := by
  have hext (r₀ r₁ : ToolRecord V) : w.recordAt K = some r₁ → r₁.Extends r₀ → r₀.final.isSome →
      ∃ r', w'.recordAt K = some r' ∧ r'.Extends r₀ := hdoes.extends hok
  have htrace : ∀ e ∈ w.trace, e ∈ w'.trace := fun e he => hdoes.mem_trace he
  refine h.frame (fun r₀ r₁ => hext r₀ r₁) htrace ?_ ?_
  · intro x hx
    cases hdoes with
    | read site =>
      have hsaw : x ∈ ((ph i).saw c (w.recs.val K)).known := by cases site <;> exact hx
      exact KnownInv.known_saw hsaw
    | put site v hsite =>
      rcases mem_cons.1 hx with rfl | hx
      · exact .inr (recordAt_putRec w i K v)
      · exact .inl hx
    | _ => exact .inl hx
  · intro hb
    cases hdoes with
    | read site =>
      left
      rwa [(Local.grows_learn (o := .rec_ site (.get K)) trivial _).began] at hb
    | begin_ => exact .inr (.head _)
    | _ => exact .inl hb

end ServedInv

end Step

/-! ## The run -/

section Run

variable [DecidableEq V] {calls : ℕ → ToolCall} {K : JsString}

/-- Calls with one key, whatever their tools, runs and gates are: in every run in which each call
    finds the record as it has read it, and no terminal record is put over a final one, no call that
    has been served is forgotten, and a final record stays. -/
theorem served_remembered (hkey : ∀ i, (calls i).key = .ok K) (w : ToolWorld V)
    (ms : List (Move (ToolAnswer V) ℕ))
    (hms : toolMachine.Meets (Unraced K) (toolStart calls w) ms) :
    NoneForgotten calls K w (toolMachine.play (toolStart calls w) ms) ∧
      StaysFinal K (toolStart calls w) ms := by
  refine ⟨?_, fun n m r hnm hn hfinal => ?_⟩
  · obtain ⟨ph, ⟨hserved, hknown⟩, hfollows⟩ := toolMachine_invariant hkey
      (J := fun w' ph => ServedInv K w' ph ∧ KnownInv K w w' ph)
      (fun w' ph i o r w'' s' h hdoes hok => ⟨h.1.step hdoes hok, h.2.step hdoes⟩)
      (fun w' ph n h => ⟨⟨h.1.known, h.1.began⟩, h.2.known, h.2.current⟩)
      ⟨.init K w, .init K w⟩ hms
    intro i out hi hun
    have hends := hfollows i
    rw [hi] at hends
    rcases hends with hran | hlimit | ⟨err, rfl, -⟩ | ⟨r, hr, output, hset, hout, hnamed⟩
    · exact absurd (.inl (hserved.began i hran)) hun
    · exact absurd (.inr (.inl hlimit)) hun
    · exact absurd (.inr (.inr (.inl ⟨err, rfl⟩))) hun
    · rcases hfinal : r.final with _ | o
      · -- A record that is consumed and not final is a question.
        have hsus : r = .suspended output := by
          cases r with
          | suspended o => exact congrArg _ (Option.some.inj hset)
          | _ => contradiction
        exact absurd (.inr (.inr (.inr ⟨output, hsus ▸ hknown.known i r hr, hout⟩))) hun
      · have hsome : r.final.isSome := by rw [hfinal]; rfl
        obtain ⟨r', hr', hext⟩ := hserved.known i r hr hsome
        have hsome' : r'.final.isSome := by rwa [hext.final_eq]
        have hid := hext.2.subset (hnamed hsome)
        exact ⟨r', hr', hsome', hid, fun window key hrec => not_pending hsome' hid hrec⟩
  · refine toolMachine_persists hkey (P := fun w => ∃ r', w.recordAt K = some r' ∧ r'.Extends r)
      ?_ (fun w n h => h) hms hnm ⟨r, hn, .refl r⟩
    rintro w s i o a w' s' ⟨r₁, hr₁, hext⟩ hdoes hok
    exact hdoes.extends hok hr₁ hext hfinal

instance (K : JsString) (w : ToolWorld V) (i : ℕ) (o : ToolOp V) (r : o.Res) :
    Decidable (Unraced K w i o r) := by
  rcases o with ⟨site, o⟩ | _ | _ | _ | _ | _ | _ | _
  · rcases site with _ | _ | _ | _ | _ | _ | _ | _ <;> rcases o with _ | _ | _ | _ <;> rcases r with _ | _ <;>
      dsimp only [Unraced] <;> infer_instance
  all_goals exact isTrue trivial

end Run

/-! ## Three runs of a thread -/

/-- The calls of three runs of one thread with the same arguments. -/
def sharedCalls : ℕ → ToolCall
  | 0 => threadCall (js "r1") (js "a") false
  | 1 => threadCall (js "r2") (js "b") false
  | _ => threadCall (js "r3") (js "c") false

theorem sharedCalls_key (i : ℕ) : (sharedCalls i).key = .ok threadKey := by
  rcases i with _ | _ | i
  · decide
  · decide
  · show (threadCall (js "r3") (js "c") false).key = .ok threadKey
    decide

/-- The first call pays, and the others are answered in turn. -/
def answeredInTurn : List (Move (ToolAnswer ℕ) ℕ) :=
  guarded .allow 0 10 ++ guarded .allow 1 3 ++ guarded .allow 2 3

theorem served_remembered_turns :
    NoneForgotten sharedCalls threadKey emptyWorld
        (toolMachine.play (toolStart sharedCalls emptyWorld) answeredInTurn) ∧
      StaysFinal threadKey (toolStart sharedCalls emptyWorld) answeredInTurn :=
  served_remembered sharedCalls_key emptyWorld answeredInTurn (by decide +kernel)

/-- The second and the third call read the record, and then both put it. -/
def answeredAtOnce : List (Move (ToolAnswer ℕ) ℕ) :=
  guarded .allow 0 10 ++ guarded .allow 1 1 ++ guarded .allow 2 3 ++ guarded .allow 1 2

/-- The third call has returned the output of the record, and is not among the calls of the record; so
    its run has it pending. -/
theorem served_forgotten :
    ¬NoneForgotten sharedCalls threadKey emptyWorld
        (toolMachine.play (toolStart sharedCalls emptyWorld) answeredAtOnce) ∧
      ∀ r, (toolMachine.play (toolStart sharedCalls emptyWorld) answeredAtOnce).world.recordAt
          threadKey = some r →
        pendingCalls [.model [⟨js "c", js "pay", js "args-pay-h"⟩], .tool threadKey r] =
          [⟨js "c", js "pay", js "args-pay-h"⟩] := by
  have hrec : (toolMachine.play (toolStart sharedCalls emptyWorld) answeredAtOnce).world.recordAt
      threadKey = some (.succeeded (.value 7) (some (js "h")) (some [js "a", js "b"])) := by
    decide +kernel
  refine ⟨fun h => ?_, fun r hr => ?_⟩
  · have hret : (toolMachine.play (toolStart sharedCalls emptyWorld) answeredAtOnce).procs 2 =
        .pure (.ok (.value 7)) := rfl
    have hidle : .began 2 ∉
        (toolMachine.play (toolStart sharedCalls emptyWorld) answeredAtOnce).world.trace := by
      decide +kernel
    have hasked : (toolMachine.play (toolStart sharedCalls emptyWorld)
        answeredAtOnce).world.recs.log.all (fun wr => !wr.new.record.isSuspended) = true := by
      decide +kernel
    generalize toolMachine.play (toolStart sharedCalls emptyWorld) answeredAtOnce = conf at *
    have hserved : ¬Unserved (sharedCalls 2) threadKey 2 emptyWorld conf.world (.value 7) := by
      rintro (hran | ⟨kind, hk⟩ | ⟨err, he⟩ | ⟨o, hsus | ⟨wr, hwr, -, hsus⟩, -⟩)
      · exact hidle hran
      · contradiction
      · contradiction
      · contradiction
      · have := List.all_eq_true.1 hasked wr hwr
        rw [hsus] at this
        contradiction
    obtain ⟨r, hr, -, hid, -⟩ := h 2 (.value 7) hret hserved
    obtain rfl := Option.some.inj (hrec.symm.trans hr)
    revert hid
    decide
  · obtain rfl := Option.some.inj (hrec.symm.trans hr)
    decide

end Gnldev.Durable
