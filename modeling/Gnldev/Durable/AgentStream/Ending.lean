import Gnldev.Durable.AgentStream

/-!
# The ending of a stream

A stream ends with `error` or `done`, and then it is over: but a part may be an error, which is sent
like the ending that it is not. So a stream has one ending if and only if no part of it is an error,
and what is thrown has a text.
-/

open List

namespace Gnldev.Durable

open JsValue

/-! ## What the scans throw -/

section Throws

theorem throwsText_sentinelFromSteps (name : JsString) :
    ∀ steps, ThrowsText (sentinelFromSteps name steps) := by
  intro steps
  induction steps with
  | nil => exact throwsText_ok _
  | cons step steps ih =>
    rw [sentinelFromSteps]
    refine (throwsText_read _ _).bind fun content => (throwsText_iterate _).bind fun parts => ?_
    split
    · exact throwsText_ok _
    · exact ih

theorem throwsText_limitBreachFromSteps (steps : JsValue) :
    ThrowsText (limitBreachFromSteps steps) :=
  (throwsText_iterate _).bind fun _ => throwsText_sentinelFromSteps _ _

theorem throwsText_blockedFromSteps (steps : JsValue) : ThrowsText (blockedFromSteps steps) :=
  (throwsText_iterate _).bind fun _ => throwsText_sentinelFromSteps _ _

theorem throwsText_surfacedInterrupts (sus : JsValue) : ThrowsText (surfacedInterrupts sus) := by
  unfold surfacedInterrupts
  extract_lets nested inner
  split
  · exact throwsText_ok _
  · cases inner
    case arr is =>
      refine throwsText_mapM fun i => ?_
      exact (throwsText_read _ _).bind fun _ => (throwsText_toText _).bind fun _ =>
        (throwsText_toText _).bind fun _ => throwsText_ok _
    all_goals exact throwsText_typeError _

theorem throwsText_interruptsFromSteps (steps : JsValue) :
    ThrowsText (interruptsFromSteps steps) := by
  have hpart (part : JsValue) : ThrowsText (partInterrupts part) := by
    unfold partInterrupts
    split
    · exact throwsText_surfacedInterrupts _
    · exact throwsText_ok _
  have hstep (step : JsValue) : ThrowsText (stepInterrupts step) :=
    (throwsText_iterate _).bind fun _ => (throwsText_mapM hpart).bind fun _ => throwsText_ok _
  exact (throwsText_iterate _).bind fun _ => (throwsText_mapM hstep).bind fun _ => throwsText_ok _

theorem throwsText_blockedCode (code : JsValue) : ThrowsText (blockedCode code) := by
  refine (throwsText_toText code).bind fun name => ?_
  split <;> exact throwsText_ok _

theorem blockedCode_isOk_iff {code : JsValue} : (∃ c, blockedCode code = .ok c) ↔ code.hasText := by
  rw [hasText_iff]
  unfold blockedCode
  rcases code.toText with e | s
  · refine iff_of_false ?_ ?_
    all_goals
      rintro ⟨_, h⟩
      contradiction
  · refine iff_of_true ?_ ⟨s, rfl⟩
    dsimp only [bind, Except.bind]
    split <;> exact ⟨_, rfl⟩

end Throws

/-! ## Parts -/

/-- The part is an error. -/
def isErrorPart (part : JsValue) : Bool := PartType.of? (part.field (js "type")) = some .error

/-- The part cannot be sent: it is not there, or its error has no text. -/
def partThrows (part : JsValue) : Bool :=
  part.isNullish || (match PartType.of? (part.field (js "type")) with
    | some .toolError | some .error => !(messageOf (part.field (js "error"))).hasText
    | _ => false)

namespace AgentStreamEvent

/-- The event is an ending. -/
def Terminal (e : AgentStreamEvent) : Prop := e.event = .error ∨ e.event = .done

/-- The event has the output of a tool that stopped the run. -/
def CarriesSentinel (e : AgentStreamEvent) : Prop :=
  e.event = .toolResult ∧ isSentinel (e.data.field (js "output"))

end AgentStreamEvent

/-- What the event of a part is. -/
structure OfPart (part : JsValue) (e : AgentStreamEvent) : Prop where
  terminal : e.Terminal ↔ isErrorPart part
  sentinel : ¬e.CarriesSentinel
  interrupt : e.event ≠ .interrupt

/-- The events of a part are sent, and it is over. -/
structure Sends (part : JsValue) (p : AgentStream Unit) : Prop where
  returns : p () = ((p ()).1, (), .ok ())
  ofPart : ∀ e ∈ (p ()).1, OfPart part e
  ne_nil : isErrorPart part → (p ()).1 ≠ []

variable {part : JsValue}

theorem sends_nothing (h : isErrorPart part = false) : Sends part (pure ()) where
  returns := rfl
  ofPart := nofun
  ne_nil := fun he => by
    rw [h] at he
    contradiction

theorem sends_send {event : AgentStreamEventName} {data : List (String × JsValue)}
    (hterminal : (event = .error ∨ event = .done) ↔ isErrorPart part)
    (hsentinel : event = .toolResult → isSentinel ((object data).field (js "output")) = false)
    (hinterrupt : event ≠ .interrupt) : Sends part (send event data) where
  returns := rfl
  ofPart := fun e he => by
    obtain rfl := mem_singleton.1 he
    refine ⟨hterminal, fun ⟨hevent, hs⟩ => ?_, hinterrupt⟩
    rw [hsentinel hevent] at hs
    contradiction
  ne_nil := fun _ => cons_ne_nil _ _

theorem read_of_not_nullish {v : JsValue} (h : v.isNullish = false) (name : JsString) :
    v.read name = .ok (v.field name) := by
  cases v <;> first | contradiction | rfl

theorem read_of_nullish {v : JsValue} (h : v.isNullish) (name : JsString) :
    ∃ e, v.read name = .error e := by
  cases v <;> first | contradiction | exact ⟨_, rfl⟩

/-- A text is made, or what is thrown has a message. -/
theorem errText_cases (e : JsValue) :
    (∃ s, errText e = .ok s ∧ (messageOf e).hasText) ∨
      ∃ e', errText e = .error e' ∧ (messageOf e').hasText ∧ (messageOf e).hasText = false := by
  have hthrows : ThrowsText (errText e) := throwsText_toText (messageOf e)
  have hmessage : (messageOf e).hasText = (errText e).isOk := rfl
  rcases h : errText e with e' | s
  · exact .inr ⟨e', rfl, hthrows e' h, by rw [hmessage, h]; rfl⟩
  · exact .inl ⟨s, rfl, by rw [hmessage, h]; rfl⟩

/-- A part that is not sent throws. -/
theorem streamPart_throws (h : partThrows part) :
    ∃ e, streamPart part () = ([], (), .error e) ∧ (messageOf e).hasText := by
  rcases hpart : part.isNullish with _ | _
  · rw [partThrows, hpart, Bool.false_or] at h
    rw [streamPart, read_of_not_nullish hpart, Gen.lift_ok_bind]
    rcases hof : PartType.of? (part.field (js "type")) with _ | t <;> rw [hof] at h
    · contradiction
    · rcases errText_cases (part.field (js "error")) with ⟨s, -, hs⟩ | ⟨e, he, hmessage, -⟩
      · rw [hs] at h
        cases t <;> contradiction
      · refine ⟨e, ?_, hmessage⟩
        cases t <;> first | contradiction | (rw [he, Gen.lift_error_bind]; rfl)
  · obtain ⟨e, he⟩ := read_of_nullish hpart (js "type")
    refine ⟨e, ?_, throwsText_read part _ e he⟩
    rw [streamPart, he, Gen.lift_error_bind]
    rfl

/-- The error of a part that is sent has a text. -/
theorem errText_of_sent {t : PartType} (h : partThrows part = false)
    (hof : PartType.of? (part.field (js "type")) = some t) (ht : t = .toolError ∨ t = .error) :
    ∃ s, errText (part.field (js "error")) = .ok s := by
  have hthrows := (Bool.or_eq_false_iff.1 h).2
  rw [hof] at hthrows
  rcases errText_cases (part.field (js "error")) with ⟨s, hs, -⟩ | ⟨e, -, -, hno⟩
  · exact ⟨s, hs⟩
  · rw [hno] at hthrows
    rcases ht with rfl | rfl <;> contradiction

/-- A part is sent. -/
theorem streamPart_sends (hsent : partThrows part = false) :
    Sends part (streamPart part) := by
  have hpart := (Bool.or_eq_false_iff.1 hsent).1
  rw [streamPart, read_of_not_nullish hpart, Gen.lift_ok_bind]
  rcases hof : PartType.of? (part.field (js "type")) with _ | t
  · refine sends_send ?_ nofun nofun
    rw [isErrorPart, hof]
    decide
  have hsend {event : AgentStreamEventName} {data : List (String × JsValue)}
      (hevent : (event = .error ∨ event = .done) ↔ t = .error) (hne : event ≠ .toolResult)
      (hinterrupt : event ≠ .interrupt) : Sends part (send event data) := by
    refine sends_send ?_ (fun h => absurd h hne) hinterrupt
    rw [hevent, isErrorPart, hof, decide_eq_true_iff, Option.some.injEq]
  have hnothing (ht : t ≠ .error) : Sends part (pure ()) := by
    refine sends_nothing ?_
    rw [isErrorPart, hof, decide_eq_false_iff_not, Option.some.injEq]
    exact ht
  cases t
  case textDelta | reasoningDelta =>
    dsimp only
    split
    · exact hsend (by decide) nofun nofun
    · exact hnothing nofun
  case toolResult =>
    dsimp only
    split
    · exact hnothing nofun
    · next hs =>
      refine sends_send (by rw [isErrorPart, hof]; decide) (fun _ => ?_) nofun
      rw [field_object_of_ne (by decide), field_object_of_ne (by decide), field_object_self]
      exact eq_false_of_ne_true hs
  case toolError =>
    obtain ⟨s, hs⟩ := errText_of_sent hsent hof (.inl rfl)
    dsimp only
    rw [hs, Gen.lift_ok_bind]
    exact hsend (by decide) nofun nofun
  case error =>
    obtain ⟨s, hs⟩ := errText_of_sent hsent hof (.inr rfl)
    dsimp only
    rw [hs, Gen.lift_ok_bind]
    exact hsend (by decide) nofun nofun
  case start | finish | textStart | textEnd | abort | raw => exact hnothing nofun
  all_goals exact hsend (by decide) nofun nofun

/-! ## The stream -/

/-- The parts that are sent: those before the first one that throws. -/
def takenParts (parts : List JsValue) : List JsValue := parts.takeWhile fun part => !partThrows part

/-- The events of a part. -/
def partEvents (part : JsValue) : List AgentStreamEvent := (streamPart part ()).1

theorem streamParts_cases (parts : List JsValue) :
    ((parts.forM streamPart) () = ((takenParts parts).flatMap partEvents, (), .ok ()) ∧
      takenParts parts = parts) ∨
    ∃ e, (parts.forM streamPart) () = ((takenParts parts).flatMap partEvents, (), .error e) ∧
      (messageOf e).hasText ∧ takenParts parts ≠ parts := by
  induction parts with
  | nil => exact .inl ⟨rfl, rfl⟩
  | cons part parts ih =>
    have hforM : (part :: parts).forM streamPart =
        streamPart part >>= fun _ => parts.forM streamPart := rfl
    rw [hforM]
    rcases hpart : partThrows part with _ | _
    · have hreturns := (streamPart_sends hpart).returns
      have htaken : takenParts (part :: parts) = part :: takenParts parts :=
        takeWhile_cons_of_pos (by rw [hpart]; rfl)
      rw [Gen.bind_of_ok hreturns, htaken, flatMap_cons]
      rcases ih with ⟨hrun, hall⟩ | ⟨e, hrun, hmessage, hsome⟩
      · exact .inl ⟨by rw [hrun]; rfl, by rw [hall]⟩
      · exact .inr ⟨e, by rw [hrun]; rfl, hmessage, fun h => hsome (List.cons.inj h).2⟩
    · obtain ⟨e, he, hmessage⟩ := streamPart_throws hpart
      have htaken : takenParts (part :: parts) = [] :=
        takeWhile_cons_of_neg (by rw [hpart]; exact Bool.false_ne_true)
      rw [Gen.bind_of_error he, htaken]
      exact .inr ⟨e, rfl, hmessage, (cons_ne_nil _ _).symm⟩

section Ending

variable {result : StreamTextResult} {runId : JsString} {codes : AgentStreamCodes}

/-- The ending is one event, after the interrupts, unless it throws. -/
theorem streamEnding_cases :
    (∃ events, streamEnding result runId codes () = (events, (), .ok ()) ∧
      (∃ steps, result.steps = .ok steps) ∧ Gen.EndsOnce AgentStreamEvent.Terminal events ∧
      ∀ e ∈ events, ¬e.CarriesSentinel) ∨
    ∃ e, streamEnding result runId codes () = ([], (), .error e) ∧
      (result.steps = .error e ∨ (∃ steps, result.steps = .ok steps) ∧ (messageOf e).hasText) := by
  unfold streamEnding
  rcases hsteps : result.steps with e | steps
  · rw [Gen.lift_error_bind]
    exact .inr ⟨e, rfl, .inl rfl⟩
  rw [Gen.lift_ok_bind]
  rcases hbreach : limitBreachFromSteps steps with e | _ | breach
  · rw [Gen.lift_error_bind]
    exact .inr ⟨e, rfl, .inr ⟨⟨steps, rfl⟩, throwsText_limitBreachFromSteps steps e hbreach⟩⟩
  · rw [Gen.lift_ok_bind]
    dsimp only
    rcases hblocked : blockedFromSteps steps with e | _ | blocked
    · rw [Gen.lift_error_bind]
      exact .inr ⟨e, rfl, .inr ⟨⟨steps, rfl⟩, throwsText_blockedFromSteps steps e hblocked⟩⟩
    · rw [Gen.lift_ok_bind]
      dsimp only
      rcases hinterrupts : interruptsFromSteps steps with e | interrupts
      · rw [Gen.lift_error_bind]
        exact .inr ⟨e, rfl, .inr ⟨⟨steps, rfl⟩, throwsText_interruptsFromSteps steps e hinterrupts⟩⟩
      · rw [Gen.lift_ok_bind]
        by_cases hne : interrupts ≠ []
        · rw [if_pos hne]
          refine .inl ⟨_, rfl, ⟨steps, rfl⟩,
            @Gen.EndsOnce.append _ _ [_] _ ?_ (Gen.endsOnce_singleton (.inr rfl)), ?_⟩
          · simp [AgentStreamEvent.Terminal]
          · simp [send, Gen.yield, AgentStreamEvent.CarriesSentinel]
        · rw [if_neg hne]
          exact .inl ⟨_, rfl, ⟨steps, rfl⟩, Gen.endsOnce_singleton (.inr rfl),
            by simp [AgentStreamEvent.CarriesSentinel]⟩
    · rw [Gen.lift_ok_bind]
      dsimp only
      rcases hcode : blockedCode (blocked.field (js "code")) with e | code
      · rw [Gen.lift_error_bind]
        exact .inr ⟨e, rfl, .inr ⟨⟨steps, rfl⟩, throwsText_blockedCode _ e hcode⟩⟩
      · rw [Gen.lift_ok_bind]
        exact .inl ⟨_, rfl, ⟨steps, rfl⟩, Gen.endsOnce_singleton (.inl rfl),
          by simp [AgentStreamEvent.CarriesSentinel]⟩
  · rw [Gen.lift_ok_bind]
    exact .inl ⟨_, rfl, ⟨steps, rfl⟩, Gen.endsOnce_singleton (.inl rfl),
      by simp [AgentStreamEvent.CarriesSentinel]⟩

/-- What ends the stream by an error has a text. -/
def StreamTextResult.EndsWithText (result : StreamTextResult) : Prop :=
  takenParts result.parts = result.parts → (∀ e ∈ result.thrown, (messageOf e).hasText) ∧
    (result.thrown = none → ∀ e, result.steps = .error e → (messageOf e).hasText)

/-- The parts are over, and nothing was thrown. -/
def StreamTextResult.PartsOver (result : StreamTextResult) : Prop :=
  takenParts result.parts = result.parts ∧ result.thrown = none

/-- The events of the ending, when it is reached. -/
def endingEvents (result : StreamTextResult) (runId : JsString) (codes : AgentStreamCodes) :
    List AgentStreamEvent := (streamEnding result runId codes ()).1

theorem streamBody_cases :
    (streamBody result runId codes () = ((takenParts result.parts).flatMap partEvents ++
        endingEvents result runId codes, (), .ok ()) ∧
      result.PartsOver ∧ result.EndsWithText ∧
      Gen.EndsOnce AgentStreamEvent.Terminal (endingEvents result runId codes) ∧
      ∀ e ∈ endingEvents result runId codes, ¬e.CarriesSentinel) ∨
    ∃ e, streamBody result runId codes () =
        ((takenParts result.parts).flatMap partEvents, (), .error e) ∧
      ((messageOf e).hasText ↔ result.EndsWithText) ∧
      (result.PartsOver → endingEvents result runId codes = []) := by
  unfold streamBody endingEvents
  rcases streamParts_cases result.parts with ⟨hrun, hall⟩ | ⟨e, hrun, hmessage, hsome⟩
  · rw [Gen.bind_of_ok hrun]
    rcases hthrown : result.thrown with _ | e
    · have hrethrow : (Gen.rethrow none : AgentStream Unit) () = ([], (), .ok ()) := rfl
      have hnone : ∀ e ∈ result.thrown, (messageOf e).hasText := by
        rw [hthrown]
        exact nofun
      rw [Gen.bind_of_ok hrethrow, nil_append]
      rcases @streamEnding_cases result runId codes with
        ⟨rest, hending, ⟨steps, hsteps⟩, hends, hsentinel⟩ | ⟨e, hending, he⟩
      · rw [hending]
        refine .inl ⟨rfl, ⟨hall, hthrown⟩, fun _ => ⟨hnone, fun _ e he => ?_⟩, hends, hsentinel⟩
        rw [hsteps] at he
        contradiction
      · rw [hending, append_nil]
        refine .inr ⟨e, rfl, ?_, fun _ => rfl⟩
        rcases he with hsteps | ⟨⟨steps, hsteps⟩, hmessage⟩
        · refine ⟨fun h _ => ⟨hnone, fun _ e' he' => ?_⟩, fun h => (h hall).2 hthrown e hsteps⟩
          rw [hsteps] at he'
          obtain rfl := Except.error.inj he'
          exact h
        · refine iff_of_true hmessage fun _ => ⟨hnone, fun _ e' he' => ?_⟩
          rw [hsteps] at he'
          contradiction
    · have hrethrow : (Gen.rethrow (some e) : AgentStream Unit) () = ([], (), .error e) := rfl
      have hsome : result.thrown ≠ none := by
        rw [hthrown]
        exact nofun
      rw [Gen.bind_of_error hrethrow, append_nil]
      refine .inr ⟨e, rfl, ⟨fun h _ => ⟨fun e' he' => ?_, fun h => absurd h hsome⟩,
        fun h => (h hall).1 e hthrown⟩, fun h => absurd h.2 hsome⟩
      obtain rfl := Option.some.inj (hthrown.symm.trans he')
      exact h
  · rw [Gen.bind_of_error hrun]
    exact .inr ⟨e, rfl, iff_of_true hmessage fun hall => absurd hall hsome, fun h => absurd h.1 hsome⟩

/-- The error that is sent when something is thrown. -/
def IsThrown (e : AgentStreamEvent) : Prop := ∃ s, e = ⟨.error, object [("error", .str s)]⟩

/-- The events of the parts, and one ending, if there is a text for it. -/
theorem agentStreamEvents_cases : ∃ rest,
    (agentStreamEvents result runId codes ()).1 =
      (takenParts result.parts).flatMap partEvents ++ rest ∧
    (∀ e ∈ rest, ¬e.CarriesSentinel) ∧
    (result.PartsOver ∧ rest = endingEvents result runId codes ∨
      (∀ e ∈ rest, IsThrown e) ∧ (result.PartsOver → endingEvents result runId codes = [])) ∧
    ((agentStreamEvents result runId codes ()).2.2 = .ok () ∧
        Gen.EndsOnce AgentStreamEvent.Terminal rest ∧ result.EndsWithText ∨
      (∃ e, (agentStreamEvents result runId codes ()).2.2 = .error e) ∧ ¬result.EndsWithText) := by
  unfold agentStreamEvents
  rcases @streamBody_cases result runId codes with
    ⟨hbody, hover, htext, hends, hsentinel⟩ | ⟨e, hbody, htext, hending⟩
  · rw [Gen.tryCatch_of_ok hbody]
    exact ⟨_, rfl, hsentinel, .inl ⟨hover, rfl⟩, .inl ⟨rfl, hends, htext⟩⟩
  · rw [Gen.tryCatch_of_error hbody, ← htext]
    rcases errText_cases e with ⟨s, hs, hmessage⟩ | ⟨e', he', -, hmessage⟩
    · rw [hs, Gen.lift_ok_bind]
      refine ⟨_, rfl, ?_, .inr ⟨fun event hevent => ?_, hending⟩,
        .inl ⟨rfl, Gen.endsOnce_singleton (.inl rfl), hmessage⟩⟩
      · simp [send, Gen.yield, AgentStreamEvent.CarriesSentinel]
      · exact ⟨s, mem_singleton.1 hevent⟩
    · rw [he', Gen.lift_error_bind, hmessage]
      exact ⟨[], rfl, nofun, .inr ⟨nofun, hending⟩, .inr ⟨⟨e', rfl⟩, Bool.false_ne_true⟩⟩

theorem sends_of_taken {part : JsValue} (h : part ∈ takenParts result.parts) :
    Sends part (streamPart part) := by
  have hpart := all_eq_true.1 all_takeWhile part h
  exact streamPart_sends (by simpa using hpart)

/-- No event has what a tool returned to stop the run. -/
theorem agentStreamEvents_sentinel {e : AgentStreamEvent}
    (he : e ∈ (agentStreamEvents result runId codes ()).1) : ¬e.CarriesSentinel := by
  obtain ⟨rest, hevents, hrest, -, -⟩ :=
    @agentStreamEvents_cases result runId codes
  rw [hevents, mem_append, mem_flatMap] at he
  rcases he with ⟨part, hpart, he⟩ | he
  · exact ((sends_of_taken hpart).ofPart e he).sentinel
  · exact hrest e he

/-- The stream is over, and its one ending is its last event. -/
def StreamTextResult.EndsOnce (result : StreamTextResult) (runId : JsString)
    (codes : AgentStreamCodes) : Prop :=
  (agentStreamEvents result runId codes ()).2.2 = .ok () ∧
    Gen.EndsOnce AgentStreamEvent.Terminal (agentStreamEvents result runId codes ()).1

/-- A stream has one ending if and only if no part is an error, and what is thrown has a text. -/
theorem endsOnce_iff : result.EndsOnce runId codes ↔
    (∀ part ∈ takenParts result.parts, isErrorPart part = false) ∧ result.EndsWithText := by
  obtain ⟨rest, hevents, -, -, hrest⟩ :=
    @agentStreamEvents_cases result runId codes
  rw [StreamTextResult.EndsOnce, hevents]
  rcases hrest with ⟨hok, hends, htext⟩ | ⟨⟨e, herror⟩, htext⟩
  · refine ⟨fun h => ⟨fun part hpart => ?_, htext⟩, fun h => ⟨hok, hends.append fun e he => ?_⟩⟩
    · have hne : rest ≠ [] := by
        obtain ⟨init, last, rfl, -⟩ := hends
        simp
      by_contra herror
      have herror := eq_true_of_ne_false herror
      -- Its event is before the ending.
      obtain ⟨e, he⟩ := exists_mem_of_ne_nil _ ((sends_of_taken hpart).ne_nil herror)
      have hmem : e ∈ (takenParts result.parts).flatMap partEvents :=
        mem_flatMap.2 ⟨part, hpart, he⟩
      exact h.2.not_mem hne e hmem (((sends_of_taken hpart).ofPart e he).terminal.2 herror)
    · obtain ⟨part, hpart, he⟩ := mem_flatMap.1 he
      rw [((sends_of_taken hpart).ofPart e he).terminal, h.1 part hpart]
      exact Bool.false_ne_true
  · refine iff_of_false (fun h => ?_) fun h => htext h.2
    rw [herror] at h
    exact absurd h.1 nofun

end Ending

end Gnldev.Durable
