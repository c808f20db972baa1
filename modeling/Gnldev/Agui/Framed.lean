import Gnldev.Agui.Framing

/-!
# Well-framed streams

If the events of each call come in order, then what they are converted to is well-framed if and only
if no text comes between the start of a call's input and the call, no text is left open, and there
is no result of a call that there was nothing of before (`framed_iff`).
-/

open List

namespace Gnldev.Agui

open Durable JsValue

variable {ctx : AguiConvertContext} {id : JsString} {events : List AgentStreamEvent}

/-! ## The steps of a call -/

/-- The steps of a call in order: its input, the call, its result. -/
def InOrder (steps : List ToolStep) : Prop :=
  ∃ input call result, steps = input ++ call ++ result ∧
    (input = [] ∨ ∃ n, input = .start :: List.replicate n .delta ++ [.stop]) ∧
    (call = [] ∨ call = [.call]) ∧ (result = [] ∨ result = [.result])

/-- One start, the arguments, one end. -/
def FramedOnce (frames : List Frame) : Prop :=
  ∃ n, frames = .start :: List.replicate n .args ++ [.stop]

/-- No text comes between the start of the input of a call and the call. -/
def Unbroken (id : JsString) (events : List AgentStreamEvent) : Prop :=
  ∀ before e after, events = before ++ e :: after → stepOf id e = some .call →
    (∃ s ∈ before, stepOf id s = some .start) →
      ∃ xs s ys, before = xs ++ s :: ys ∧ stepOf id s = some .start ∧
        ∀ y ∈ ys, y.event ≠ .textDelta

theorem expected_append (streamed : Bool) (xs ys : List AgentStreamEvent) :
    expected id streamed (xs ++ ys) =
      expected id streamed xs ++ expected id (xs.foldl (nextStreamed id) streamed) ys := by
  induction xs generalizing streamed with
  | nil => rfl
  | cons e xs ih => rw [cons_append, expected, ih, expected, append_assoc, foldl_cons]

/-- The frames of other steps than the call do not depend on what is marked. -/
theorem expected_of_not_call (h : .call ∉ stepsOf id events) (streamed : Bool) :
    expected id streamed events =
      (stepsOf id events).flatMap fun step => stepFrames false (some step) := by
  induction events generalizing streamed with
  | nil => rfl
  | cons e events ih =>
    rw [expected]
    rcases hstep : stepOf id e with _ | step
    · rw [stepsOf, filterMap_cons_none hstep] at h ⊢
      exact ih h _
    · rw [stepsOf, filterMap_cons_some hstep, mem_cons, not_or] at h
      rw [stepsOf, filterMap_cons_some hstep, flatMap_cons, ih h.2]
      cases step <;> first | exact absurd rfl h.1 | rfl

/-- A call is marked at the end if its input has started, and no text has come since. -/
theorem marked_iff : events.foldl (nextStreamed id) false = true ↔
    ∃ xs s ys, events = xs ++ s :: ys ∧ stepOf id s = some .start ∧
      ∀ y ∈ ys, y.event ≠ .textDelta := by
  induction events using List.reverseRecOn with
  | nil => simp
  | append_singleton events e ih =>
    rw [foldl_append, foldl_cons, foldl_nil, nextStreamed]
    constructor
    · intro h
      by_cases hstart : stepOf id e = some .start
      · exact ⟨events, e, [], rfl, hstart, forall_mem_nil _⟩
      rw [if_neg hstart] at h
      by_cases htext : e.event = .textDelta
      · rw [if_pos htext] at h
        contradiction
      rw [if_neg htext] at h
      obtain ⟨xs, s, ys, rfl, hs, hys⟩ := ih.1 h
      refine ⟨xs, s, ys ++ [e], by simp, hs, ?_⟩
      rw [forall_mem_append]
      exact ⟨hys, forall_mem_singleton.2 htext⟩
    · rintro ⟨xs, s, ys, heq, hs, hys⟩
      rcases eq_nil_or_concat ys with rfl | ⟨ys, y, rfl⟩
      · obtain ⟨rfl, hes⟩ := append_inj' heq rfl
        obtain rfl := singleton_injective hes
        rw [if_pos hs]
      · rw [concat_eq_append, ← cons_append, ← append_assoc] at heq
        obtain ⟨rfl, hey⟩ := append_inj' heq rfl
        obtain rfl := singleton_injective hey
        rw [concat_eq_append, forall_mem_append] at hys
        rw [if_neg (hys.2 e mem_cons_self)]
        split
        · rfl
        · exact ih.2 ⟨xs, s, ys, rfl, hs, hys.1⟩

theorem call_not_mem {input result : List ToolStep}
    (hinput : input = [] ∨ ∃ n, input = .start :: List.replicate n .delta ++ [.stop])
    (hresult : result = [] ∨ result = [.result]) : .call ∉ input ∧ .call ∉ result := by
  constructor
  · rcases hinput with rfl | ⟨n, rfl⟩ <;> simp
  · rcases hresult with rfl | rfl <;> simp

/-- The frames of a streamed input. -/
theorem flatMap_input (n : ℕ) :
    (.start :: List.replicate n .delta ++ [.stop] : List ToolStep).flatMap
      (fun step => stepFrames false (some step)) =
        .start :: List.replicate n .args ++ [.stop] := by
  have hdeltas : (List.replicate n ToolStep.delta).flatMap
      (fun step => stepFrames false (some step)) = List.replicate n .args := by
    induction n with
    | zero => rfl
    | succ n ih =>
      rw [replicate_succ, flatMap_cons, ih]
      rfl
  rw [cons_append, flatMap_cons, flatMap_append, hdeltas]
  rfl

theorem framedOnce_input (n : ℕ) (rest : List Frame) :
    FramedOnce (.start :: List.replicate n .args ++ [.stop] ++ rest) ↔ rest = [] := by
  constructor
  · rintro ⟨k, hk⟩
    have hcount := congrArg (List.count Frame.stop) hk
    have hrest : Frame.stop ∉ rest := by
      rw [← count_eq_zero]
      simpa [count_replicate] using hcount
    rw [append_assoc, singleton_append,
      append_cons_inj_of_notMem (by simp) hrest] at hk
    exact hk.2.2
  · rintro rfl
    exact ⟨n, append_nil _⟩

/-- The frames of a call that comes among its steps. -/
theorem expected_split {before after : List AgentStreamEvent} {e : AgentStreamEvent}
    {input result : List ToolStep} (he : stepOf id e = some .call)
    (hbefore : stepsOf id before = input) (hafter : stepsOf id after = result)
    (hinput : .call ∉ input) (hresult : result = [] ∨ result = [.result]) :
    expected id false (before ++ e :: after) =
      input.flatMap (fun step => stepFrames false (some step)) ++
        stepFrames (before.foldl (nextStreamed id) false) (some .call) := by
  have hcall : .call ∉ result := by rcases hresult with rfl | rfl <;> simp
  have hnone : result.flatMap (fun step => stepFrames false (some step)) = [] := by
    rcases hresult with rfl | rfl <;> rfl
  rw [expected_append, expected, he, expected_of_not_call (hbefore ▸ hinput),
    expected_of_not_call (hafter ▸ hcall), hbefore, hafter, hnone, append_nil]

/-- A call is framed once if and only if it has an input or is made, and no text comes between. -/
theorem framedOnce_iff (h : InOrder (stepsOf id events)) :
    FramedOnce (expected id false events) ↔
      Unbroken id events ∧ (.start ∈ stepsOf id events ∨ .call ∈ stepsOf id events) := by
  obtain ⟨input, call, result, hsteps, hinput, hcall, hresult⟩ := h
  obtain ⟨hno, hno'⟩ := call_not_mem hinput hresult
  have hempty : ¬FramedOnce [] := fun ⟨n, hn⟩ => nomatch hn
  rcases hcall with rfl | rfl
  · have hnot : .call ∉ stepsOf id events := by
      rw [hsteps]
      simp [hno, hno']
    have hunbroken : Unbroken id events := by
      rintro before e after rfl he -
      refine absurd ?_ hnot
      exact mem_filterMap.2 ⟨e, by simp, he⟩
    have hframes : result.flatMap (fun step => stepFrames false (some step)) = [] := by
      rcases hresult with rfl | rfl <;> rfl
    rw [expected_of_not_call hnot, hsteps, append_nil, flatMap_append, hframes]
    rcases hinput with rfl | ⟨n, rfl⟩
    · refine iff_of_false hempty fun ⟨_, hmem⟩ => ?_
      rcases hresult with rfl | rfl <;> simp at hmem
    · rw [flatMap_input, framedOnce_input]
      exact iff_of_true rfl ⟨hunbroken, by simp⟩
  -- The call comes once, and whatever stands before it is the input.
  have hpart {before e after} (hevents : events = before ++ e :: after)
      (he : stepOf id e = some .call) : stepsOf id before = input ∧ stepsOf id after = result := by
    rw [hevents, stepsOf, filterMap_append, filterMap_cons_some he, eq_comm,
      append_assoc, singleton_append, append_cons_inj_of_notMem hno hno'] at hsteps
    exact ⟨hsteps.1.symm, hsteps.2.2.symm⟩
  have hmem : .call ∈ stepsOf id events := by
    rw [hsteps]
    simp
  obtain ⟨e, he, hstep⟩ := mem_filterMap.1 hmem
  obtain ⟨before, after, hevents⟩ := append_of_mem he
  constructor
  · intro hframed
    refine ⟨fun before e after hevents he hstart => ?_, .inr hmem⟩
    obtain ⟨hbefore, hafter⟩ := hpart hevents he
    rw [hevents, expected_split he hbefore hafter hno hresult] at hframed
    rw [← marked_iff]
    rcases hinput with rfl | ⟨n, rfl⟩
    · have hstarted : .start ∈ stepsOf id before := mem_filterMap.2 hstart
      rw [hbefore] at hstarted
      exact nomatch hstarted
    · rw [flatMap_input, framedOnce_input] at hframed
      by_contra hmark
      rw [Bool.not_eq_true] at hmark
      rw [hmark] at hframed
      exact nomatch hframed
  · rintro ⟨hunbroken, -⟩
    obtain ⟨hbefore, hafter⟩ := hpart hevents hstep
    rw [hevents, expected_split hstep hbefore hafter hno hresult]
    rcases hinput with rfl | ⟨n, rfl⟩
    · have hmark : before.foldl (nextStreamed id) false = false := by
        rw [← Bool.not_eq_true, marked_iff]
        rintro ⟨xs, s, ys, rfl, hs, -⟩
        have hstarted : .start ∈ stepsOf id (xs ++ s :: ys) :=
          mem_filterMap.2 ⟨s, by simp, hs⟩
        rw [hbefore] at hstarted
        exact nomatch hstarted
      rw [hmark]
      exact ⟨1, rfl⟩
    · have hstart : .start ∈ stepsOf id before := by
        rw [hbefore]
        simp
      have hmark := marked_iff.2 (hunbroken before e after hevents hstep
        (mem_filterMap.1 hstart))
      rw [flatMap_input, framedOnce_input, hmark]
      rfl

/-! ## The end of a text -/

/-- What ends a text. -/
def Closes : AgentStreamEventName → Bool
  | .toolInputStart | .toolCall | .toolResult | .interrupt | .error | .done => true
  | _ => false

/-- After every piece of a text comes something that ends it. -/
def TextsEnd (events : List AgentStreamEvent) : Prop :=
  ∀ before e after, events = before ++ e :: after → e.event = .textDelta →
    ∃ f ∈ after, Closes f.event

/-- Whether a text is open after an event. -/
def nextOpen (opened : Bool) (e : AgentStreamEvent) : Bool :=
  if e.event = .textDelta then true else if Closes e.event then false else opened

theorem isSome_openText_steps {state state' : AguiConvertState} {out : List AguiEvent}
    (h : Steps ctx state events out state') :
    (openText state').isSome = events.foldl nextOpen (openText state).isSome := by
  induction h with
  | nil => rfl
  | cons hstep _ ih =>
    rw [ih, foldl_cons]
    congr 1
    cases hstep with
    | more hopen => simp [nextOpen, hopen]
    | opened => simp [nextOpen, openText_opened]
    | inputStart => exact congrArg Option.isSome openText_closeText
    | inputDelta => simp [nextOpen, Closes]
    | inputEnd => simp [nextOpen, Closes]
    | framed => simp [nextOpen, Closes, openText_closeText]
    | call => simp [nextOpen, Closes, openText_closeText]
    | result => simp [nextOpen, Closes, openText_closeText]
    | ended hends => cases hends <;> simp [nextOpen, Closes, openText_closeText]
    | @aside event data haside =>
      cases event <;> first | exact haside.elim | simp [nextOpen, Closes]

theorem textsEnd_iff : TextsEnd events ↔ events.foldl nextOpen false = false := by
  induction events using List.reverseRecOn with
  | nil => exact iff_of_true (fun _ _ _ h => absurd h (by simp)) rfl
  | append_singleton events e ih =>
    have hlast {before f after} (h : events ++ [e] = before ++ f :: after) :
        (after = [] ∧ f = e) ∨ ∃ after', after = after' ++ [e] ∧ events = before ++ f :: after' := by
      rcases eq_nil_or_concat after with rfl | ⟨after', y, rfl⟩
      · obtain ⟨-, hef⟩ := append_inj' h rfl
        exact .inl ⟨rfl, (singleton_injective hef).symm⟩
      · rw [concat_eq_append, ← cons_append, ← append_assoc] at h
        obtain ⟨hevents, hey⟩ := append_inj' h rfl
        obtain rfl := singleton_injective hey
        exact .inr ⟨after', concat_eq_append, hevents⟩
    rw [foldl_append, foldl_cons, foldl_nil, nextOpen]
    by_cases htext : e.event = .textDelta
    · rw [if_pos htext]
      refine iff_of_false (fun h => ?_) nofun
      obtain ⟨f, hf, -⟩ := h events e [] rfl htext
      exact nomatch hf
    rw [if_neg htext]
    by_cases hcloses : Closes e.event
    · rw [if_pos hcloses]
      refine iff_of_true (fun before f after h hf => ?_) rfl
      rcases hlast h with ⟨-, rfl⟩ | ⟨after', rfl, -⟩
      · exact absurd hf htext
      · exact ⟨e, by simp, hcloses⟩
    rw [if_neg hcloses, ← ih]
    constructor
    · intro h before f after hevents hf
      obtain ⟨g, hg, hg'⟩ := h before f (after ++ [e]) (by simp [hevents]) hf
      rcases mem_append.1 hg with hg | hg
      · exact ⟨g, hg, hg'⟩
      · rw [mem_singleton.1 hg] at hg'
        exact absurd hg' hcloses
    · intro h before f after hevents hf
      rcases hlast hevents with ⟨-, rfl⟩ | ⟨after', rfl, hevents'⟩
      · exact absurd hf htext
      · obtain ⟨g, hg, hg'⟩ := h before f after' hevents' hf
        exact ⟨g, mem_append_left _ hg, hg'⟩

/-! ## Results -/

/-- The calls that have a result. -/
def resultCalls (events : List AgentStreamEvent) : List JsString :=
  events.filterMap fun e => match e.event, e.data.field (js "toolCallId") with
    | .toolResult, .str id => some id
    | _, _ => none

/-- The events of each call come in order, and have its id, which is a string. -/
structure Orderly (events : List AgentStreamEvent) : Prop where
  named : ∀ e ∈ events, (toolStep e.event).isSome →
    ∃ id, e.data.field (js "toolCallId") = .str id
  inOrder : ∀ id, InOrder (stepsOf id events)

theorem resultIds_append (ys zs : List AguiEvent) :
    resultIds (ys ++ zs) = resultIds ys ++ resultIds zs := filterMap_append

theorem resultIds_steps {state state' : AguiConvertState} {out : List AguiEvent}
    (h : Steps ctx state events out state')
    (hnamed : ∀ e ∈ events, (toolStep e.event).isSome →
      ∃ id, e.data.field (js "toolCallId") = .str id) :
    resultIds out = (resultCalls events).map (· ++ js ":result") := by
  induction h with
  | nil => rfl
  | @cons state e ys state₁ events zs state₂ hstep _ ih =>
    rw [forall_mem_cons] at hnamed
    have hrest : resultCalls (e :: events) = resultCalls [e] ++ resultCalls events :=
      filterMap_append (l := [e])
    rw [resultIds_append, ih hnamed.2, hrest, map_append]
    congr 1
    cases hstep with
    | more | opened | inputDelta | inputEnd => rfl
    | inputStart | call => rw [resultIds_append, resultIds_closeText]; rfl
    | framed => rw [resultIds_closeText]; rfl
    | @result data messageId content htext =>
      obtain ⟨id, hid⟩ := hnamed.1 rfl
      rw [hid] at htext
      obtain rfl : id = messageId := Except.ok.inj htext
      rw [resultIds_append, resultIds_closeText]
      simp [resultIds, resultCalls, hid]
    | ended hends =>
      rw [resultIds_append, resultIds_closeText]
      cases hends <;> rfl
    | @aside event data haside => cases event <;> first | exact haside.elim | rfl

theorem count_resultCalls (id : JsString) (events : List AgentStreamEvent) :
    (resultCalls events).count id = (stepsOf id events).count .result := by
  induction events with
  | nil => rfl
  | cons e events ih =>
    have hcalls : resultCalls (e :: events) = resultCalls [e] ++ resultCalls events :=
      filterMap_append (l := [e])
    have hsteps : stepsOf id (e :: events) = stepsOf id [e] ++ stepsOf id events :=
      filterMap_append (l := [e])
    rw [hcalls, hsteps, count_append, count_append, ih]
    congr 1
    obtain ⟨event, data⟩ := e
    rcases hid : (data.field (js "toolCallId")).isStr id with _ | _
    · have hno : stepsOf id [⟨event, data⟩] = [] := by simp [stepsOf, stepOf, hid]
      rw [hno, count_nil, count_eq_zero]
      intro hmem
      obtain ⟨e, he, heq⟩ := mem_filterMap.1 hmem
      rw [mem_singleton.1 he] at heq
      dsimp only at heq
      split at heq
      · next hfield =>
        obtain rfl := Option.some.inj heq
        simp [hfield, isStr] at hid
      · contradiction
    · rw [isStr_iff] at hid
      cases event <;> simp [resultCalls, stepsOf, stepOf, toolStep, hid, isStr]

theorem nodup_resultIds (h : Orderly events) :
    ((resultCalls events).map (· ++ js ":result")).Nodup := by
  refine List.Nodup.map (fun _ _ => append_cancel_right) ?_
  rw [nodup_iff_count_le_one]
  intro id
  obtain ⟨input, call, result, hsteps, hinput, hcall, hresult⟩ := h.inOrder id
  rw [count_resultCalls, hsteps, count_append, count_append]
  have hinput' : input.count .result = 0 := by
    rcases hinput with rfl | ⟨n, rfl⟩ <;> simp [count_replicate]
  have hcall' : call.count .result = 0 := by rcases hcall with rfl | rfl <;> rfl
  have hresult' : result.count .result ≤ 1 := by rcases hresult with rfl | rfl <;> simp
  omega

/-- The id of a text ends in a digit. -/
theorem textId_ne (n : ℕ) (id : JsString) : textId ctx n ≠ id ++ js ":result" := by
  intro h
  have hlast := congrArg List.getLast? h
  have hresult : js ":result" = js ":resul" ++ [116] := by decide
  rw [textId, getLast?_append_of_ne_nil _ (decimal_ne_nil n), hresult, ← append_assoc,
    getLast?_concat] at hlast
  exact absurd (isDigit_of_mem_decimal (mem_of_getLast? hlast)) (by decide)

/-! ## Streams -/

/-- The texts are framed, no message has the id of another one, and each call is framed once. -/
structure WellFramed (events : List AgentStreamEvent) (out : List AguiEvent) : Prop where
  texts : TextFramed out
  distinct : (textIds out ++ resultIds out).Nodup
  calls : ∀ id, stepsOf id events ≠ [] → FramedOnce (framesOf id out)

/-- Every text ends, none comes between the start of a call's input and the call, and a result is of a
    call with an input, or that is made. -/
structure Undisturbed (events : List AgentStreamEvent) : Prop where
  textsEnd : TextsEnd events
  unbroken : ∀ id, Unbroken id events
  begun : ∀ id, .result ∈ stepsOf id events →
    .start ∈ stepsOf id events ∨ .call ∈ stepsOf id events

theorem Undisturbed.begun_of_ne_nil (h : Undisturbed events) (hord : Orderly events)
    (hne : stepsOf id events ≠ []) : .start ∈ stepsOf id events ∨ .call ∈ stepsOf id events := by
  obtain ⟨input, call, result, hsteps, hinput, hcall, hresult⟩ := hord.inOrder id
  have hbegun := h.begun id
  rw [hsteps] at hne hbegun ⊢
  rcases hinput with rfl | ⟨n, rfl⟩
  · rcases hcall with rfl | rfl
    · rcases hresult with rfl | rfl
      · exact absurd rfl hne
      · exact hbegun (by simp)
    · simp
  · simp

theorem unbroken_of_nil (h : stepsOf id events = []) : Unbroken id events := by
  rintro before e after rfl he -
  have hmem : .call ∈ stepsOf id (before ++ e :: after) := mem_filterMap.2 ⟨e, by simp, he⟩
  rw [h] at hmem
  exact nomatch hmem

/-- The events of a run in which those of each call are in order, are converted to a well-framed
    stream if and only if they are undisturbed. -/
theorem framed_iff (hord : Orderly events) (hconverts : ∀ e ∈ events, Converts e) :
    ∃ out state, convertAll ctx events initialAguiConvertState = .ok (out, state) ∧
      (WellFramed events out ↔ Undisturbed events) := by
  have hall : ∃ out state, convertAll ctx events initialAguiConvertState = .ok (out, state) ∧
      Steps ctx initialAguiConvertState events out state := convertAll_ok hconverts _
  obtain ⟨out, state, hout, hsteps⟩ := hall
  refine ⟨out, state, hout, ?_⟩
  have hscan : scan none out = some (openText state) := scan_steps hsteps
  have htexts : TextFramed out ↔ TextsEnd events := by
    have hopen := isSome_openText_steps hsteps
    rw [textFramed_iff hscan (nodup_textIds hsteps) (textIds_subset_pieceIds hsteps), textsEnd_iff,
      ← Option.isNone_iff_eq_none, ← Option.not_isSome, hopen]
    simp [initialAguiConvertState, openText]
  have hframes (id : JsString) : framesOf id out = expected id false events :=
    framesOf_steps hsteps (fun _ => rfl) id
  have hdistinct : (textIds out ++ resultIds out).Nodup := by
    obtain ⟨n, hids⟩ := textIds_steps hsteps
    rw [resultIds_steps hsteps hord.named, nodup_append']
    refine ⟨nodup_textIds hsteps, nodup_resultIds hord, fun m hm hm' => ?_⟩
    rw [hids] at hm
    obtain ⟨k, -, rfl⟩ := mem_map.1 hm
    obtain ⟨id, -, hid⟩ := mem_map.1 hm'
    exact textId_ne k id hid.symm
  constructor
  · intro h
    have hcalls (id) (hne : stepsOf id events ≠ []) :=
      (framedOnce_iff (hord.inOrder id)).1 (hframes id ▸ h.calls id hne)
    refine ⟨htexts.1 h.texts, fun id => ?_, fun id hid => ?_⟩
    · by_cases hnil : stepsOf id events = []
      · exact unbroken_of_nil hnil
      · exact (hcalls id hnil).1
    · exact (hcalls id (ne_nil_of_mem hid)).2
  · intro h
    refine ⟨htexts.2 h.textsEnd, hdistinct, fun id hne => ?_⟩
    rw [hframes, framedOnce_iff (hord.inOrder id)]
    exact ⟨h.unbroken id, h.begun_of_ne_nil hord hne⟩

/-- An event of a call `c`. -/
def ofCall (event : AgentStreamEventName) : AgentStreamEvent :=
  ⟨event, object [("toolCallId", .str (js "c"))]⟩

/-- A piece of a text. -/
def piece : AgentStreamEvent := ⟨.textDelta, object [("text", .str (js "t"))]⟩

def finished : AgentStreamEvent := ⟨.done, object []⟩

/-- A text comes among the events of the call. -/
def textAmong (before after : List AgentStreamEventName) : List AgentStreamEvent :=
  before.map ofCall ++ [piece] ++ after.map ofCall ++ [finished]

theorem stepsOf_ofCall (id : JsString) (events : List AgentStreamEventName) :
    stepsOf id (events.map ofCall) = if id = js "c" then events.filterMap toolStep else [] := by
  have hcall (event : AgentStreamEventName) :
      stepOf id (ofCall event) = if id = js "c" then toolStep event else none := by
    have hfield : (ofCall event).data.field (js "toolCallId") = .str (js "c") := rfl
    rw [stepOf, hfield]
    by_cases hid : id = js "c"
    · rw [if_pos hid, if_pos (by simp [isStr, hid])]
      rfl
    · rw [if_neg hid, if_neg (by simpa [isStr] using Ne.symm hid)]
  rw [stepsOf, filterMap_map, Function.comp_def]
  simp only [hcall]
  by_cases hid : id = js "c" <;> simp [hid]

theorem stepsOf_textAmong (id : JsString) (before after : List AgentStreamEventName) :
    stepsOf id (textAmong before after) =
      if id = js "c" then (before ++ after).filterMap toolStep else [] := by
  have hpiece : stepsOf id [piece] = [] := by simp [stepsOf, stepOf, piece, toolStep]
  have hfinished : stepsOf id [finished] = [] := by simp [stepsOf, stepOf, finished, toolStep]
  rw [textAmong, stepsOf, filterMap_append, filterMap_append, filterMap_append,
    ← stepsOf, ← stepsOf, ← stepsOf, ← stepsOf, hpiece, hfinished, stepsOf_ofCall, stepsOf_ofCall]
  split <;> simp

/-- The input of a call without arguments, the call, its result. -/
theorem textAmong_orderly {before after : List AgentStreamEventName}
    (h : before ++ after = [.toolInputStart, .toolInputEnd, .toolCall, .toolResult]) :
    Orderly (textAmong before after) := by
  constructor
  · intro e he hstep
    simp only [textAmong, mem_append, mem_map, mem_singleton] at he
    rcases he with ((⟨_, _, rfl⟩ | rfl) | ⟨_, _, rfl⟩) | rfl
    · exact ⟨_, rfl⟩
    · nomatch hstep
    · exact ⟨_, rfl⟩
    · nomatch hstep
  · intro id
    rw [stepsOf_textAmong, h]
    split
    · exact ⟨[.start, .stop], [.call], [.result], rfl, .inr ⟨0, rfl⟩, .inr rfl, .inr rfl⟩
    · exact ⟨[], [], [], rfl, .inl rfl, .inl rfl, .inl rfl⟩

theorem text_after_call_framed :
    ∃ out state,
      convertAll ⟨js "t", js "r"⟩
        (textAmong [.toolInputStart, .toolInputEnd, .toolCall] [.toolResult])
        initialAguiConvertState = .ok (out, state) ∧
      WellFramed (textAmong [.toolInputStart, .toolInputEnd, .toolCall] [.toolResult]) out := by
  have hconverts : ∀ e ∈ textAmong [.toolInputStart, .toolInputEnd, .toolCall] [.toolResult],
      Converts e := by
    simp only [textAmong, map_cons, map_nil, cons_append, nil_append,
      forall_mem_cons]
    exact ⟨trivial, trivial, trivial, trivial, rfl, trivial, nofun⟩
  obtain ⟨out, state, hout, hframed⟩ : ∃ out state, convertAll ⟨js "t", js "r"⟩ _ _ =
      .ok (out, state) ∧ (WellFramed _ out ↔ Undisturbed _) :=
    framed_iff (textAmong_orderly rfl) hconverts
  refine ⟨out, state, hout, hframed.2 ⟨textsEnd_iff.2 rfl, fun id => ?_, fun id => ?_⟩⟩
  · by_cases hid : id = js "c"
    · subst hid
      exact ((framedOnce_iff ((textAmong_orderly rfl).inOrder _)).1 ⟨0, rfl⟩).1
    · refine unbroken_of_nil ?_
      rw [stepsOf_textAmong, if_neg hid]
  · rw [stepsOf_textAmong]
    split <;> simp [toolStep]

/-- A text between the input and the call: the call is framed a second time. -/
theorem call_framed_twice :
    Orderly (textAmong [.toolInputStart, .toolInputEnd] [.toolCall, .toolResult]) ∧
      ∃ out state, convertAll ⟨js "t", js "r"⟩
          (textAmong [.toolInputStart, .toolInputEnd] [.toolCall, .toolResult])
          initialAguiConvertState = .ok (out, state) ∧
        framesOf (js "c") out = [.start, .stop, .start, .args, .stop] ∧
        ¬WellFramed (textAmong [.toolInputStart, .toolInputEnd] [.toolCall, .toolResult]) out := by
  refine ⟨textAmong_orderly rfl, _, _, rfl, rfl, fun h => ?_⟩
  have hne : stepsOf (js "c") (textAmong [.toolInputStart, .toolInputEnd]
      [.toolCall, .toolResult]) ≠ [] := by
    rw [stepsOf_textAmong]
    decide
  exact nomatch (framedOnce_input 0 [.start, .args, .stop]).1 (h.calls (js "c") hne)

end Gnldev.Agui
