import Gnldev.Agui.Route
import Gnldev.Durable.AgentStream.Ending

/-!
# Two encoders of one stream

The frames of the AG-UI stream are what the events of the run are converted to, one after the other
(`pipeAguiStream_encodes`), and so they have one ending, last, if and only if the events do.
-/

open List

namespace Gnldev.Agui

open Durable JsValue

/-! ## Endings -/

namespace AguiEvent

/-- The event is an ending. -/
def Terminal : AguiEvent → Prop
  | RUN_FINISHED .. | RUN_ERROR .. => True
  | _ => False

end AguiEvent

section Convert

variable {ctx : AguiConvertContext} {e : AgentStreamEvent} {state state' : AguiConvertState}
  {ys : List AguiEvent}

theorem closeText_events : ∀ y ∈ (closeText state).1, ¬y.Terminal := by
  unfold closeText
  split
  · exact nofun
  · intro y hy
    obtain rfl := mem_singleton.1 hy
    exact id

/-- What is converted to frames that are no ending. -/
theorem not_terminal_append {l : List AguiEvent} (hl : ∀ y ∈ l, ¬y.Terminal) :
    ∀ y ∈ (closeText state).1 ++ l, ¬y.Terminal := by
  intro y hy
  exact (mem_append.1 hy).elim (closeText_events y) (hl y)

/-- An ending is converted to an ending. -/
theorem toAguiEvents_of_terminal (he : e.Terminal)
    (h : toAguiEvents ctx e state = .ok (ys, state')) : Gen.EndsOnce AguiEvent.Terminal ys := by
  obtain ⟨event, data⟩ := e
  rcases he with he | he
  · obtain rfl : event = .error := he
    unfold toAguiEvents at h
    rcases ht : ((data.field (js "error")).coalesce (.str (js "unknown error"))).toText with e | s
    · simp only [ht] at h
      contradiction
    · simp only [ht] at h
      obtain ⟨rfl, -⟩ := Prod.mk.inj (Except.ok.inj h)
      exact Gen.EndsOnce.append closeText_events (Gen.endsOnce_singleton trivial)
  · obtain rfl : event = .done := he
    obtain ⟨rfl, -⟩ := Prod.mk.inj (Except.ok.inj h)
    exact Gen.EndsOnce.append closeText_events (Gen.endsOnce_singleton trivial)

/-- What is no ending is not converted to one. -/
theorem toAguiEvents_of_not_terminal (he : ¬e.Terminal)
    (h : toAguiEvents ctx e state = .ok (ys, state')) : ∀ y ∈ ys, ¬y.Terminal := by
  obtain ⟨event, data⟩ := e
  unfold toAguiEvents at h
  cases event
  case error => exact absurd (.inl rfl) he
  case done => exact absurd (.inr rfl) he
  case textDelta =>
    dsimp only at h
    split at h
    · obtain ⟨rfl, -⟩ := Prod.mk.inj (Except.ok.inj h)
      simp [AguiEvent.Terminal]
    · obtain ⟨rfl, -⟩ := Prod.mk.inj (Except.ok.inj h)
      simp [AguiEvent.Terminal]
  case toolCall =>
    dsimp only at h
    split at h
    · obtain ⟨rfl, -⟩ := Prod.mk.inj (Except.ok.inj h)
      exact closeText_events
    · obtain ⟨rfl, -⟩ := Prod.mk.inj (Except.ok.inj h)
      exact not_terminal_append (by simp [AguiEvent.Terminal])
  case toolInputDelta =>
    rcases ht : ((data.field (js "delta")).coalesce (.str [])).toText with e | s
    · simp only [ht] at h
      contradiction
    · simp only [ht] at h
      obtain ⟨rfl, -⟩ := Prod.mk.inj (Except.ok.inj h)
      simp [AguiEvent.Terminal]
  case toolResult =>
    rcases ht : (data.field (js "toolCallId")).toText with e | s
    · simp only [ht] at h
      contradiction
    · simp only [ht] at h
      obtain ⟨rfl, -⟩ := Prod.mk.inj (Except.ok.inj h)
      exact not_terminal_append (by simp [AguiEvent.Terminal])
  case toolInputStart | interrupt =>
    obtain ⟨rfl, -⟩ := Prod.mk.inj (Except.ok.inj h)
    exact not_terminal_append (by simp [AguiEvent.Terminal])
  all_goals
    obtain ⟨rfl, -⟩ := Prod.mk.inj (Except.ok.inj h)
    simp [AguiEvent.Terminal]

end Convert

/-! ## The frames are the events, converted -/

section Encode

variable {ctx : AguiConvertContext} {aborted : ℕ → Bool} {result : StreamTextResult}

/-- The event with the run in it, if it is the interrupts'. -/
def addRunId (runId : JsString) (e : AgentStreamEvent) : AgentStreamEvent :=
  match e.event, e.data.field (js "interrupts") with
  | .interrupt, .arr is =>
    ⟨.interrupt, object [("interrupts", .arr (is.map (withRunId runId))), ("runId", .str runId)]⟩
  | _, _ => e

/-- What an event of the run is converted to. -/
def encodeEvent (ctx : AguiConvertContext) (e : AgentStreamEvent) :
    AguiConvertState → Except JsValue (List AguiEvent × AguiConvertState) :=
  toAguiEvents ctx (addRunId ctx.runId e)

theorem addRunId_of_ne {runId : JsString} {e : AgentStreamEvent} (h : e.event ≠ .interrupt) :
    addRunId runId e = e := by
  unfold addRunId
  split
  · contradiction
  · rfl

theorem encodes_emit {event : AgentStreamEventName} {data data' : List (String × JsValue)}
    (h : addRunId ctx.runId ⟨event, object data⟩ = ⟨event, object data'⟩) :
    Gen.Encodes (encodeEvent ctx) (send event data) (emit ctx event data') := by
  have hconvert : emit ctx event data' = Gen.convert (encodeEvent ctx) ⟨event, object data⟩ := by
    funext state
    rw [emit, Gen.convert, Gen.convert, encodeEvent, h]
  rw [hconvert]
  exact Gen.encodes_yield _

theorem encodes_send {event : AgentStreamEventName} {data : List (String × JsValue)}
    (h : event ≠ .interrupt) :
    Gen.Encodes (encodeEvent ctx) (send event data) (emit ctx event data) :=
  encodes_emit (addRunId_of_ne h)

/-- The two texts have the same cases. -/
theorem pipePart_encodes (part : JsValue) :
    Gen.Encodes (encodeEvent ctx) (streamPart part) (pipePart ctx part) := by
  unfold streamPart pipePart
  refine (Gen.encodes_lift _).bind fun type => ?_
  rcases PartType.of? type with _ | t
  · exact encodes_send nofun
  cases t
  case textDelta | reasoningDelta =>
    dsimp only
    split
    · exact encodes_send nofun
    · exact Gen.encodes_pure ()
  case toolResult =>
    dsimp only
    unfold isSentinel
    rcases ((part.field (js "output")).field (js "__gnl_suspend")).truthy with _ | _
    · rcases ((part.field (js "output")).field (js "__gnl_limit_exceeded")).truthy with _ | _
      · rcases ((part.field (js "output")).field (js "__gnl_blocked")).truthy with _ | _
        · exact encodes_send nofun
        · exact Gen.encodes_pure ()
      · exact Gen.encodes_pure ()
    · exact Gen.encodes_pure ()
  case toolError => exact (Gen.encodes_lift _).bind fun _ => encodes_send nofun
  case error => exact (Gen.encodes_lift _).bind fun _ => encodes_send nofun
  case start | finish | textStart | textEnd | abort | raw => exact Gen.encodes_pure ()
  all_goals exact encodes_send nofun

theorem encodes_interrupts (interrupts : List JsValue) :
    Gen.Encodes (encodeEvent ctx) (send .interrupt [("interrupts", .arr interrupts)])
      (emit ctx .interrupt [("interrupts", .arr (interrupts.map (withRunId ctx.runId))),
        ("runId", .str ctx.runId)]) := by
  refine encodes_emit ?_
  unfold addRunId
  simp only [field_object_self]

theorem pipeEnding_encodes :
    Gen.Encodes (encodeEvent ctx) (streamEnding result ctx.runId LIMIT_ERROR_CODES)
      (pipeEnding ctx result) := by
  unfold streamEnding pipeEnding
  refine (Gen.encodes_lift _).bind fun steps => (Gen.encodes_lift _).bind fun breach => ?_
  rcases breach with _ | breach
  · refine (Gen.encodes_lift _).bind fun blocked => ?_
    rcases blocked with _ | blocked
    · refine (Gen.encodes_lift _).bind fun interrupts => ?_
      by_cases hne : interrupts ≠ []
      · rw [if_pos hne, if_pos hne]
        exact (encodes_interrupts interrupts).bind fun _ => encodes_send nofun
      · rw [if_neg hne, if_neg hne]
        exact encodes_send nofun
    · exact (Gen.encodes_lift _).bind fun code => encodes_send nofun
  · exact encodes_send nofun

/-- The parts that are taken before the client is gone, and whether it stays. -/
def seenParts (aborted : ℕ → Bool) : ℕ → List JsValue → List JsValue × Bool
  | _, [] => ([], true)
  | i, part :: parts =>
    if aborted i then ([], false)
    else (part :: (seenParts aborted (i + 1) parts).1, (seenParts aborted (i + 1) parts).2)

/-- The stream as far as the client takes it. -/
def seen (aborted : ℕ → Bool) (result : StreamTextResult) : StreamTextResult :=
  { result with
    parts := (seenParts aborted 0 result.parts).1
    thrown := if (seenParts aborted 0 result.parts).2 then result.thrown else none }

theorem pipeParts_eq (i : ℕ) (parts : List JsValue) :
    pipeParts ctx aborted i parts = ((seenParts aborted i parts).1.forM (pipePart ctx) >>= fun _ =>
      pure (seenParts aborted i parts).2) := by
  induction parts generalizing i with
  | nil => rfl
  | cons part parts ih =>
    rw [pipeParts, seenParts]
    split
    · rfl
    · rw [ih]
      exact (Gen.bind_assoc _ _ _).symm

theorem seenParts_of_there {i : ℕ} {parts : List JsValue} (h : ∀ j, aborted j = false) :
    seenParts aborted i parts = (parts, true) := by
  induction parts generalizing i with
  | nil => rfl
  | cons part parts ih => rw [seenParts, h, ih]; rfl

theorem seen_of_there (h : ∀ j, aborted j = false) : seen aborted result = result := by
  rw [seen, seenParts_of_there h]
  rfl

/-- The frames of a run are its events, as far as the client takes them, converted. -/
theorem pipeAguiStream_encodes {state state' : AguiConvertState} {ys : List AguiEvent}
    (h : Gen.encode (encodeEvent ctx)
      (agentStreamEvents (seen aborted result) ctx.runId LIMIT_ERROR_CODES ()).1 state =
        .ok (ys, state')) :
    pipeAguiStream ctx aborted result state = (.RUN_STARTED ctx.threadId ctx.runId :: ys, state',
      (agentStreamEvents (seen aborted result) ctx.runId LIMIT_ERROR_CODES ()).2.2) := by
  have hbody : Gen.Encodes (encodeEvent ctx)
      (streamBody (seen aborted result) ctx.runId LIMIT_ERROR_CODES)
      (do
        let isThere ← pipeParts ctx aborted 0 result.parts
        Gen.rethrow (if isThere then result.thrown else none)
        pipeEnding ctx result) := by
    rw [pipeParts_eq, Gen.bind_assoc, streamBody]
    refine (Gen.encodes_forM pipePart_encodes).bind fun _ => ?_
    rw [Gen.pure_bind]
    exact (Gen.encodes_rethrow _).bind fun _ => @pipeEnding_encodes _ (seen aborted result)
  have hstream := hbody.tryCatch fun e =>
    (Gen.encodes_lift (errText e)).bind fun error =>
      @encodes_send _ .error [("error", .str error)] nofun
  have hstarted : (Gen.yield (.RUN_STARTED ctx.threadId ctx.runId) : AguiStream Unit) state =
      ([.RUN_STARTED ctx.threadId ctx.runId], state, .ok ()) := rfl
  have hrun := hstream state ys state' h
  rw [pipeAguiStream, Gen.bind_of_ok hstarted]
  exact congrArg (fun r => (.RUN_STARTED ctx.threadId ctx.runId :: r.1, r.2)) hrun

end Encode

/-! ## What is converted -/

section Converting

variable {result : StreamTextResult} {runId : JsString} {codes : AgentStreamCodes}

/-- What a part is made of has a text, where the protocol has one for it. -/
def PartConverts (part : JsValue) : Prop :=
  match PartType.of? (part.field (js "type")) with
  | some .toolInputDelta => ((part.field (js "delta")).coalesce (.str [])).hasText
  | some .toolResult =>
    isSentinel (part.field (js "output")) = false → (part.field (js "toolCallId")).hasText
  | _ => True

/-- What stopped the run has a message. -/
def MessageConverts (v : JsValue) : Prop :=
  ((v.field (js "message")).coalesce (.str (js "unknown error"))).hasText

/-- So has what stopped the run, by the steps. -/
def StepsConvert (steps : JsValue) : Prop :=
  (∀ breach, limitBreachFromSteps steps = .ok (some breach) → MessageConverts breach) ∧
  ∀ blocked, limitBreachFromSteps steps = .ok none → blockedFromSteps steps = .ok (some blocked) →
    (blocked.field (js "code")).hasText → MessageConverts blocked

/-- What a stream is made of has a text, where the protocol has one for it. -/
structure Converting (result : StreamTextResult) : Prop where
  parts : ∀ part ∈ takenParts result.parts, PartConverts part
  ending : result.PartsOver → ∀ steps, result.steps = .ok steps → StepsConvert steps

theorem forall_mem_send {event : AgentStreamEventName} {data : List (String × JsValue)}
    {C : AgentStreamEvent → Prop} : (∀ e ∈ (send event data ()).1, C e) ↔ C ⟨event, object data⟩ :=
  forall_mem_singleton

theorem converts_errText {s : JsString} : Converts ⟨.error, object [("error", .str s)]⟩ := by
  change ((JsValue.field _ _).coalesce _).hasText = true
  rw [field_object_self]
  rfl

theorem partEvents_convert {part : JsValue} (hsent : partThrows part = false) :
    (∀ e ∈ partEvents part, Converts e) ↔ PartConverts part := by
  have hpart := (Bool.or_eq_false_iff.1 hsent).1
  rw [partEvents, streamPart, read_of_not_nullish hpart, Gen.lift_ok_bind, PartConverts]
  rcases hof : PartType.of? (part.field (js "type")) with _ | t
  · exact forall_mem_send
  cases t
  case textDelta | reasoningDelta =>
    dsimp only
    split
    · exact forall_mem_send
    · exact iff_of_true (forall_mem_nil _) trivial
  case toolResult =>
    dsimp only
    rcases hs : isSentinel (part.field (js "output")) with _ | _
    · refine forall_mem_send.trans ?_
      rw [Converts, field_object_self]
      exact ⟨fun h _ => h, fun h => h rfl⟩
    · exact iff_of_true (forall_mem_nil _) fun h => (Bool.false_ne_true h.symm).elim
  case toolInputDelta =>
    refine forall_mem_send.trans ?_
    rw [Converts, field_object_of_ne (by decide), field_object_self]
  case toolError =>
    obtain ⟨s, hs⟩ := errText_of_sent hsent hof (.inl rfl)
    dsimp only
    rw [hs, Gen.lift_ok_bind]
    exact forall_mem_send
  case error =>
    obtain ⟨s, hs⟩ := errText_of_sent hsent hof (.inr rfl)
    dsimp only
    rw [hs, Gen.lift_ok_bind]
    exact iff_of_true (forall_mem_send.2 converts_errText) trivial
  case start | finish | textStart | textEnd | abort | raw =>
    exact iff_of_true (forall_mem_nil _) trivial
  all_goals exact forall_mem_send

/-- The error that a message is sent in. -/
theorem converts_message {v code detail : JsValue} :
    Converts ⟨.error, object [("error", v.field (js "message")), ("code", code),
      ("detail", detail)]⟩ ↔ MessageConverts v := by
  rw [Converts, field_object_self, MessageConverts]

theorem stepsEvents_convert {steps : JsValue} (hsteps : result.steps = .ok steps) :
    (∀ e ∈ endingEvents result runId codes, Converts e) ↔ StepsConvert steps := by
  unfold endingEvents streamEnding StepsConvert
  rw [hsteps, Gen.lift_ok_bind]
  rcases hbreach : limitBreachFromSteps steps with e | _ | breach
  · rw [Gen.lift_error_bind]
    exact iff_of_true nofun ⟨nofun, nofun⟩
  · rw [Gen.lift_ok_bind]
    dsimp only
    rcases hblocked : blockedFromSteps steps with e | _ | blocked
    · rw [Gen.lift_error_bind]
      exact iff_of_true nofun ⟨nofun, nofun⟩
    · rw [Gen.lift_ok_bind]
      dsimp only
      refine iff_of_true ?_ ⟨nofun, nofun⟩
      rcases interruptsFromSteps steps with e | interrupts
      · rw [Gen.lift_error_bind]
        exact nofun
      · rw [Gen.lift_ok_bind]
        by_cases hne : interrupts ≠ []
        · rw [if_pos hne]
          intro e he
          rcases mem_cons.1 he with rfl | he
          · trivial
          · obtain rfl := mem_singleton.1 he
            trivial
        · rw [if_neg hne]
          exact forall_mem_send.2 trivial
    · rw [Gen.lift_ok_bind]
      dsimp only
      rcases hcode : blockedCode (blocked.field (js "code")) with e | code
      · rw [Gen.lift_error_bind]
        refine iff_of_true nofun ⟨nofun, fun _ _ hb htext => ?_⟩
        obtain rfl := Option.some.inj (Except.ok.inj hb)
        obtain ⟨c, hc⟩ := blockedCode_isOk_iff.2 htext
        rw [hcode] at hc
        contradiction
      · rw [Gen.lift_ok_bind]
        refine (forall_mem_send.trans converts_message).trans ⟨fun h => ⟨nofun, ?_⟩, fun h => ?_⟩
        · rintro _ _ hb -
          obtain rfl := Option.some.inj (Except.ok.inj hb)
          exact h
        · exact h.2 blocked rfl rfl (blockedCode_isOk_iff.1 ⟨code, hcode⟩)
  · rw [Gen.lift_ok_bind]
    refine (forall_mem_send.trans converts_message).trans ⟨fun h => ⟨?_, nofun⟩, fun h => h.1 _ rfl⟩
    intro _ hb
    obtain rfl := Option.some.inj (Except.ok.inj hb)
    exact h

theorem endingEvents_convert : (∀ e ∈ endingEvents result runId codes, Converts e) ↔
    ∀ steps, result.steps = .ok steps → StepsConvert steps := by
  rcases hsteps : result.steps with e | steps
  · refine iff_of_true ?_ nofun
    rw [endingEvents, streamEnding, hsteps, Gen.lift_error_bind]
    exact nofun
  · rw [stepsEvents_convert hsteps]
    exact ⟨fun h _ heq => Except.ok.inj heq ▸ h, fun h => h steps rfl⟩

/-- The events are converted if and only if what they are made of has a text. -/
theorem events_convert :
    (∀ e ∈ (agentStreamEvents result runId codes ()).1, Converts e) ↔ Converting result := by
  obtain ⟨rest, hevents, -, hrest, -⟩ :=
    @agentStreamEvents_cases result runId codes
  have hparts : (∀ e ∈ (takenParts result.parts).flatMap partEvents, Converts e) ↔
      ∀ part ∈ takenParts result.parts, PartConverts part := by
    rw [forall_mem_flatMap]
    refine forall₂_congr fun part hpart => ?_
    have hsent := all_eq_true.1 all_takeWhile part hpart
    exact partEvents_convert (by simpa using hsent)
  have hending : (∀ e ∈ rest, Converts e) ↔
      (result.PartsOver → ∀ steps, result.steps = .ok steps → StepsConvert steps) := by
    rcases hrest with ⟨hover, rfl⟩ | ⟨hthrown, hnone⟩
    · exact endingEvents_convert.trans ⟨fun h _ => h, fun h => h hover⟩
    · refine iff_of_true (fun e he => ?_) fun hover => ?_
      · obtain ⟨s, rfl⟩ := hthrown e he
        exact converts_errText
      · rw [← @endingEvents_convert _ runId codes, hnone hover]
        exact nofun
  rw [hevents, forall_mem_append, hparts, hending]
  exact ⟨fun h => ⟨h.1, h.2⟩, fun h => ⟨h.parts, h.ending⟩⟩

end Converting

/-! ## Streams that end once and agree -/

section Sound

variable {ctx : AguiConvertContext} {result : StreamTextResult}

/-- The frames of a run whose client stays. -/
def frames (ctx : AguiConvertContext) (result : StreamTextResult) : List AguiEvent :=
  (pipeAguiStream ctx (fun _ => false) result initialAguiConvertState).1

/-- The stream ends once, keeps to itself what stopped the run, and the frames are `RUN_STARTED` and
    what its events are converted to, so that they end once, too. -/
structure StreamSound (ctx : AguiConvertContext) (result : StreamTextResult) : Prop where
  endsOnce : ∀ codes, result.EndsOnce ctx.runId codes
  sentinel : ∀ codes, ∀ e ∈ (agentStreamEvents result ctx.runId codes ()).1, ¬e.CarriesSentinel
  agree : ∃ ys state, Gen.encode (encodeEvent ctx)
      (agentStreamEvents result ctx.runId LIMIT_ERROR_CODES ()).1 initialAguiConvertState =
        .ok (ys, state) ∧
    frames ctx result = .RUN_STARTED ctx.threadId ctx.runId :: ys
  framesEndOnce : Gen.EndsOnce AguiEvent.Terminal (frames ctx result)

variable {runId : JsString} {e : AgentStreamEvent}

theorem addRunId_event :
    (addRunId runId e).event = e.event := by
  unfold addRunId
  split
  · next h _ => exact h.symm
  · rfl

theorem converts_addRunId :
    Converts (addRunId runId e) ↔ Converts e := by
  by_cases h : e.event = .interrupt
  · have h' : (addRunId runId e).event = .interrupt := addRunId_event.trans h
    unfold Converts
    rw [h, h']
  · rw [addRunId_of_ne h]

theorem terminal_addRunId :
    (addRunId runId e).Terminal ↔ e.Terminal := by
  rw [AgentStreamEvent.Terminal, AgentStreamEvent.Terminal, addRunId_event]

theorem frames_of_encode {ys : List AguiEvent} {state : AguiConvertState}
    (h : Gen.encode (encodeEvent ctx) (agentStreamEvents result ctx.runId LIMIT_ERROR_CODES ()).1
      initialAguiConvertState = .ok (ys, state)) :
    frames ctx result = .RUN_STARTED ctx.threadId ctx.runId :: ys := by
  have hseen : seen (fun _ => false) result = result := seen_of_there fun _ => rfl
  rw [frames, pipeAguiStream_encodes (by rw [hseen]; exact h)]

/-- The frames end once if the events do. -/
theorem framesEndOnce {ys : List AguiEvent} {state : AguiConvertState}
    (hends : result.EndsOnce ctx.runId LIMIT_ERROR_CODES)
    (h : Gen.encode (encodeEvent ctx) (agentStreamEvents result ctx.runId LIMIT_ERROR_CODES ()).1
      initialAguiConvertState = .ok (ys, state)) :
    Gen.EndsOnce AguiEvent.Terminal (frames ctx result) := by
  rw [frames_of_encode h]
  have hys : Gen.EndsOnce AguiEvent.Terminal ys := by
    refine hends.2.encode (fun e s ys s' he h => ?_) (fun e s ys s' he h => ?_) h
    · exact toAguiEvents_of_terminal (terminal_addRunId.2 he) h
    · exact toAguiEvents_of_not_terminal (mt terminal_addRunId.1 he) h
  exact @Gen.EndsOnce.append _ _ [_] _ (by simp [AguiEvent.Terminal]) hys

/-- A stream is so if and only if no part that is sent is an error, what is thrown has a text, and so
    has what its events are made of. -/
theorem stream_sound_iff : StreamSound ctx result ↔
    (∀ part ∈ takenParts result.parts, isErrorPart part = false) ∧ result.EndsWithText ∧
      Converting result := by
  have hencode : (∃ r, Gen.encode (encodeEvent ctx)
      (agentStreamEvents result ctx.runId LIMIT_ERROR_CODES ()).1 initialAguiConvertState = .ok r) ↔
      Converting result := by
    rw [Gen.encode_isOk_iff (C := Converts) fun e s => ?_]
    · exact events_convert
    · exact (toAguiEvents_isOk_iff _ s).trans converts_addRunId
  constructor
  · intro h
    obtain ⟨ys, state, hys, -⟩ := h.agree
    obtain ⟨hparts, htext⟩ := endsOnce_iff.1 (h.endsOnce LIMIT_ERROR_CODES)
    exact ⟨hparts, htext, hencode.1 ⟨_, hys⟩⟩
  · rintro ⟨hparts, htext, hconverting⟩
    obtain ⟨⟨ys, state⟩, hys⟩ := hencode.2 hconverting
    have hends (codes : AgentStreamCodes) : result.EndsOnce ctx.runId codes :=
      endsOnce_iff.2 ⟨hparts, htext⟩
    exact ⟨hends, fun codes e he => agentStreamEvents_sentinel he,
      ⟨ys, state, hys, frames_of_encode hys⟩, framesEndOnce (hends LIMIT_ERROR_CODES) hys⟩

/-- A part is an error, and the run goes on to its end: the stream ends twice. -/
theorem error_part_ends_twice : ¬∀ ctx result, StreamSound ctx result := by
  intro h
  let part := object [("type", .str (js "error")),
    ("error", object [("message", .str (js "overloaded"))])]
  let result : StreamTextResult := ⟨[part], none, .ok (.arr []), .ok .undefined, .ok .undefined⟩
  have hends := (h ⟨js "t1", js "r1"⟩ result).endsOnce LIMIT_ERROR_CODES
  have htaken : takenParts result.parts = [part] :=
    List.takeWhile_cons_of_pos (by decide)
  have hno := (endsOnce_iff.1 hends).1 part (by rw [htaken]; exact .head _)
  exact absurd hno (by decide)

end Sound

end Gnldev.Agui
