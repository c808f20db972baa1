import Gnldev.Durable.Tool.Effects

/-!
# At most once without permission

A tool with side effects whose provider cannot be asked runs a second time only with
permission: with an approval of the call, or with an answer to a question that a
sub-agent has asked from inside the tool. Without either nothing is taken over, so that
the first claim of the key is the only one, and the tool runs under it or not at all.

* `tool_runs_at_most_once`: the tool starts at most once, and a call that does not start
  it returns a recorded output or a sentinel of a gate, or throws;
* `tool_runs_twice`: a sub-agent's question is answered with a refusal, and the tool is
  run again to hear it.
-/

open List

namespace Gnldev.Durable

open Function

variable {V : Type}

/-- A call without permission to repeat its tool. -/
structure Unpermitted (c : ToolCall) : Prop where
  sideEffect : c.sideEffect = true
  recover : c.tool.recover = false
  approvals : c.ctx.approvals c.toolCallId ≠ some true

/-- No call reads a record with a sub-agent's question that it has an answer to. -/
def ReadsNoAnswer (calls : ℕ → ToolCall) (K : JsString) (_ : ToolWorld V) (i : ℕ) :
    (o : ToolOp V) → o.Res → Prop
  | .rec_ _ (.get k), .ok raw => k = K → ∀ x ∈ raw, (calls i).nestedAnswered x.record = false
  | _, _ => True

/-- How often a tool has started. -/
def starts (es : List (ToolEvent V)) : ℕ :=
  es.countP fun
    | .began _ => true
    | _ => false

/-- The record has been under the key, since the world was `w₀`. -/
def Recorded (K : JsString) (w₀ w : ToolWorld V) (r : ToolRecord V) : Prop :=
  w₀.recordAt K = some r ∨ ∃ wr ∈ w.recs.log, wr.key = K ∧ wr.new.record = r

/-- The output of a call that has not run its tool: the sentinel of a gate or of a refusal, or
    the output of a record, a suspension as the call's own. -/
def Replied (c : ToolCall) (K : JsString) (w₀ w : ToolWorld V) (out : Out V) : Prop :=
  (∃ kind, out = .limitExceeded kind) ∨
    (∃ err, out = .blocked err ∧ err ≠ .retryLimitExceeded) ∨
    ∃ r output, Recorded K w₀ w r ∧ r.settled = some output ∧
      (out = output ∨ out = c.ownSuspension output)

/-! ## One claim -/

structure OnceInv (K : JsString) (w : ToolWorld V) (ph : ℕ → Local V) : Prop where
  body : BodyInv K w ph
  unanswered : ∀ i, (ph i).answered = false
  one : ∀ i j t u, .won K i t ∈ w.trace → .won K j u ∈ w.trace → i = j
  occupied : ∀ i t, .won K i t ∈ w.trace → (w.recordAt K).isSome
  began : ∀ i, .began i ∈ w.trace ↔ (ph i).began = true
  once : starts w.trace ≤ 1

theorem not_mayTakeOver {c : ToolCall} (hc : Unpermitted c) {s : Local V}
    (hs : s.answered = false) : ¬MayTakeOver c s := by
  rintro (h | h | h | h)
  · exact Bool.false_ne_true (h.symm.trans hc.sideEffect)
  · exact hc.approvals h
  · exact Bool.false_ne_true (hc.recover.symm.trans h)
  · exact Bool.false_ne_true (hs.symm.trans h)

namespace OnceInv

variable {K : JsString} {w w' : ToolWorld V} {ph : ℕ → Local V} {i : ℕ} {s : Local V}

theorem init (hw : w.trace = []) : OnceInv K w fun _ => Local.init := by
  have hnone : ∀ e, e ∉ w.trace := fun e => by
    rw [hw]
    exact not_mem_nil
  refine ⟨.init hw, fun _ => rfl, fun i j t u hi => ?_, fun i t hi => ?_, fun i => ?_, ?_⟩
  · exact absurd hi (hnone _)
  · exact absurd hi (hnone _)
  · exact ⟨fun hi => absurd hi (hnone _), fun h => by cases h⟩
  · rw [hw]
    exact Nat.zero_le 1

/-- An operation that wins nothing, and starts nothing. -/
theorem frame (h : OnceInv K w ph) (hbody : BodyInv K w' (update ph i s))
    {l : List (ToolEvent V)} (htrace : w'.trace = l ++ w.trace)
    (hwon : ∀ k j t, .won k j t ∉ l) (hstart : ∀ j, .began j ∉ l)
    (hocc : (w.recordAt K).isSome → (w'.recordAt K).isSome) (hans : s.answered = false)
    (hs : s.began = (ph i).began) : OnceInv K w' (update ph i s) := by
  have hback : ∀ j t, .won K j t ∈ w'.trace → .won K j t ∈ w.trace := by
    intro j t hj
    rw [htrace, mem_append] at hj
    exact hj.resolve_left (hwon K j t)
  refine ⟨hbody, ?_, fun j k t u hj hk => ?_, fun j t hj => ?_, fun j => ?_, ?_⟩
  · exact (forall_update_iff ph fun _ s => s.answered = false).2
      ⟨hans, fun j _ => h.unanswered j⟩
  · exact h.one j k t u (hback j t hj) (hback k u hk)
  · exact hocc (h.occupied j t (hback j t hj))
  · rw [htrace, mem_append, or_iff_right (hstart j), h.began j]
    by_cases hji : j = i
    · rw [hji, update_self, hs]
    · rw [update_of_ne hji]
  · have hnone : starts l = 0 := by
      rw [starts, countP_eq_zero]
      intro e he
      cases e with
      | began j => exact absurd he (hstart j)
      | _ => exact Bool.false_ne_true
    have hold := h.once
    rw [starts] at hnone hold
    rw [htrace, starts, countP_append, hnone]
    omega

/-- The first claim. -/
theorem first (h : OnceInv K w ph) (hfree : w.recs.val K = none) {t : Int}
    (hbody : BodyInv K (w.claimRec i K t 1) (update ph i { ph i with claimed := some t })) :
    OnceInv K (w.claimRec i K t 1) (update ph i { ph i with claimed := some t }) := by
  have hnobody : ∀ j u, .won K j u ∉ w.trace := by
    intro j u hj
    have hsome := h.occupied j u hj
    rw [ToolWorld.recordAt, hfree] at hsome
    cases hsome
  have honly : ∀ j u, .won K j u ∈ (w.claimRec i K t 1).trace → j = i := by
    intro j u hj
    rcases mem_cons.1 hj with he | hj
    · cases he
      rfl
    · exact absurd hj (hnobody j u)
  refine ⟨hbody, ?_, fun j k u v hj hk => ?_, fun j u _ => ?_, fun j => ?_, ?_⟩
  · exact (forall_update_iff ph fun _ s => s.answered = false).2
      ⟨h.unanswered i, fun j _ => h.unanswered j⟩
  · rw [honly j u hj, honly k v hk]
  · rw [recordAt_claimRec]
    rfl
  · have htrace : .began j ∈ (w.claimRec i K t 1).trace ↔ .began j ∈ w.trace := by
      refine mem_cons.trans (or_iff_right ?_)
      rintro ⟨⟩
    rw [htrace, h.began j]
    by_cases hji : j = i
    · rw [hji, update_self]
    · rw [update_of_ne hji]
  · exact h.once

/-- The tool of the only winner starts, and has not started before. -/
theorem start (h : OnceInv K w ph) (hclaimed : (ph i).claimed.isSome) (hnew : (ph i).began = false)
    (hbody : BodyInv K { w with trace := .began i :: w.trace }
      (update ph i { ph i with began := true })) :
    OnceInv K { w with trace := .began i :: w.trace }
      (update ph i { ph i with began := true }) := by
  obtain ⟨t, ht⟩ := Option.isSome_iff_exists.1 hclaimed
  have hwon := h.body.won i t ht
  have hback : ∀ j u, .won K j u ∈ .began i :: w.trace → .won K j u ∈ w.trace := by
    intro j u hj
    exact (mem_cons.1 hj).resolve_left fun he => by cases he
  have hfirst : ∀ j, .began j ∉ w.trace := by
    -- Whoever has started before is the winner, hence this call, which has not.
    intro j hj
    obtain ⟨u, hu⟩ := h.body.began j hj
    obtain rfl := h.one j i u t hu hwon
    have := (h.began j).1 hj
    rw [hnew] at this
    cases this
  refine ⟨hbody, ?_, fun j k u v hj hk => ?_, fun j u hj => ?_, fun j => ?_, ?_⟩
  · exact (forall_update_iff ph fun _ s => s.answered = false).2
      ⟨h.unanswered i, fun j _ => h.unanswered j⟩
  · exact h.one j k u v (hback j u hj) (hback k v hk)
  · exact h.occupied j u (hback j u hj)
  · by_cases hji : j = i
    · rw [hji, update_self]
      exact ⟨fun _ => rfl, fun _ => .head _⟩
    · rw [update_of_ne hji, ← h.began j]
      refine mem_cons.trans (or_iff_right ?_)
      rintro ⟨⟩
      exact hji rfl
  · have hnone : starts w.trace = 0 := by
      rw [starts, countP_eq_zero]
      intro e he
      cases e with
      | began j => exact absurd he (hfirst j)
      | _ => exact Bool.false_ne_true
    rw [starts] at hnone
    rw [starts, countP_cons, hnone]
    exact Nat.le_refl 1

end OnceInv

section Step

variable {calls : ℕ → ToolCall} {K : JsString} {w w' : ToolWorld V} {ph : ℕ → Local V} {i : ℕ}
  {s' : Local V} {dupKey : Option JsString} {o : ToolOp V} {r : o.Res}

/-- A read without an answer leaves the call without one. -/
theorem unanswered_saw {c : ToolCall} {s : Local V} {raw : Option (Stored V)}
    (hs : s.answered = false) (hraw : ∀ x ∈ raw, c.nestedAnswered x.record = false) :
    (s.saw c raw).answered = false := by
  cases raw with
  | none => exact hs
  | some x => rw [Local.saw, hs, hraw x rfl, Bool.or_false]

theorem unanswered_read {c : ToolCall} {s : Local V} (site : Site V) (hs : s.answered = false)
    (hraw : ∀ x ∈ w.recs.val K, c.nestedAnswered x.record = false) :
    (s.learn c (.rec_ site (.get K)) (.ok (w.recs.val K))).answered = false := by
  cases site <;> exact unanswered_saw hs hraw

theorem OnceInv.step (hperm : Unpermitted (calls i)) (h : OnceInv K w ph)
    (hdoes : Does (calls i) K dupKey i w (ph i) o r w' s') (hok : ReadsNoAnswer calls K w i o r) :
    OnceInv K w' (update ph i s') := by
  have hbody := h.body.step hdoes
  have hnil : ∀ {e : ToolEvent V}, e ∉ [] := not_mem_nil
  have hans := h.unanswered i
  cases hdoes with
  | idle _ _ w' _ hrecs _ _ htrace =>
    have hsame : w'.trace = [] ++ w.trace := htrace
    refine h.frame hbody hsame (fun _ _ _ => hnil) (fun _ => hnil) (fun hocc => ?_) hans rfl
    rw [recordAt_of_recs hrecs]
    exact hocc
  | read site =>
    refine h.frame hbody rfl (fun _ _ _ => hnil) (fun _ => hnil) (fun hocc => hocc)
      (unanswered_read site hans (hok rfl)) ?_
    exact (Local.grows_learn (o := .rec_ site (.get K)) trivial _).began
  | first site t hfree => exact h.first hfree hbody
  | takeover site e t n hval _ _ _ hmay => exact absurd hmay (not_mayTakeOver hperm hans)
  | begin_ r hclaimed hnew => exact h.start hclaimed hnew hbody
  | put site v =>
    refine h.frame hbody rfl (l := [_]) (by simp) (by simp) (fun _ => ?_) hans rfl
    rw [recordAt_putRec]
    rfl
  | mirror k v hk =>
    refine h.frame hbody rfl (l := [_]) (by simp) (by simp) (fun hocc => ?_) hans rfl
    rw [recordAt_putRec_of_ne _ _ _ hk.symm]
    exact hocc
  | mark k t => exact h.frame hbody rfl (l := [_]) (by simp) (by simp) (fun hocc => hocc) hans rfl
  | remark k e t =>
    exact h.frame hbody rfl (l := [_]) (by simp) (by simp) (fun hocc => hocc) hans rfl
  | finish r => exact h.frame hbody rfl (l := [_]) (by simp) (by simp) (fun hocc => hocc) hans rfl
  | _ => exact h.frame hbody rfl (fun _ _ _ => hnil) (fun _ => hnil) (fun hocc => hocc) hans rfl

end Step

/-! ## Recorded outputs -/

/-- What the calls have read or put was recorded. -/
structure KnownInv (K : JsString) (w₀ w : ToolWorld V) (ph : ℕ → Local V) : Prop where
  known : ∀ i, ∀ r ∈ (ph i).known, Recorded K w₀ w r
  current : ∀ r, w.recordAt K = some r → Recorded K w₀ w r

theorem Recorded.mono {K : JsString} {w₀ w w' : ToolWorld V} {r : ToolRecord V}
    (h : Recorded K w₀ w r) (hlog : ∀ wr ∈ w.recs.log, wr ∈ w'.recs.log) : Recorded K w₀ w' r :=
  h.imp_right fun ⟨wr, hwr, hr⟩ => ⟨wr, hlog wr hwr, hr⟩

namespace KnownInv

variable {K : JsString} {w₀ w w' : ToolWorld V} {ph : ℕ → Local V} {i : ℕ} {s : Local V}

theorem init (K : JsString) (w : ToolWorld V) : KnownInv K w w fun _ => Local.init :=
  ⟨fun _ _ hr => absurd hr not_mem_nil, fun _ hr => .inl hr⟩

theorem frame (h : KnownInv K w₀ w ph) (hlog : ∀ wr ∈ w.recs.log, wr ∈ w'.recs.log)
    (hrec : ∀ r, w'.recordAt K = some r → Recorded K w₀ w' r)
    (hknown : ∀ r ∈ s.known, r ∈ (ph i).known ∨ Recorded K w₀ w' r) :
    KnownInv K w₀ w' (update ph i s) := by
  refine ⟨(forall_update_iff ph fun _ s => ∀ r ∈ s.known, Recorded K w₀ w' r).2
    ⟨fun r hr => ?_, fun j _ r hr => (h.known j r hr).mono hlog⟩, hrec⟩
  rcases hknown r hr with hr | hr
  · exact (h.known i r hr).mono hlog
  · exact hr

/-- A record is put under the key. -/
theorem recorded_put (w₀ w : ToolWorld V) (i : ℕ) (v : Stored V) :
    Recorded K w₀ (w.putRec i K v) v.record := .inr ⟨_, .head _, rfl, rfl⟩

theorem known_saw {c : ToolCall} {s : Local V} {raw : Option (Stored V)} {r : ToolRecord V}
    (hr : r ∈ (s.saw c raw).known) : r ∈ s.known ∨ raw.map (·.record) = some r := by
  cases raw with
  | none => exact .inl hr
  | some x =>
    rcases mem_cons.1 hr with rfl | hr
    · exact .inr rfl
    · exact .inl hr

theorem step {c : ToolCall} {dupKey : Option JsString} {s' : Local V} {o : ToolOp V} {r : o.Res}
    (h : KnownInv K w₀ w ph) (hdoes : Does c K dupKey i w (ph i) o r w' s') :
    KnownInv K w₀ w' (update ph i s') := by
  have hsame : ∀ {w' : ToolWorld V} {s : Local V}, w'.recs = w.recs →
      (∀ r ∈ s.known, r ∈ (ph i).known ∨ w.recordAt K = some r) →
      KnownInv K w₀ w' (update ph i s) := by
    intro w' s hrecs hs
    have hlog : ∀ wr ∈ w.recs.log, wr ∈ w'.recs.log := fun wr hwr => by rwa [hrecs]
    refine h.frame hlog (fun r hr => ?_) fun r hr => ?_
    · rw [recordAt_of_recs hrecs] at hr
      exact (h.current r hr).mono hlog
    · exact (hs r hr).imp_right fun hr => (h.current r hr).mono hlog
  have hkeep : ∀ r ∈ (ph i).known, r ∈ (ph i).known ∨ w.recordAt K = some r := fun r hr => .inl hr
  have hclaim : ∀ {t : Int} {n : ℕ}, KnownInv K w₀ (w.claimRec i K t n)
      (update ph i { ph i with claimed := some t }) := by
    intro t n
    refine h.frame (fun wr hwr => .tail _ hwr) (fun r hr => ?_) fun r hr => .inl hr
    rw [recordAt_claimRec] at hr
    cases hr
    exact .inr ⟨_, .head _, rfl, rfl⟩
  cases hdoes with
  | idle _ _ _ _ hrecs => exact hsame hrecs hkeep
  | read site => exact hsame rfl fun r hr => by cases site <;> exact known_saw hr
  | first site t => exact hclaim
  | takeover site e t n => exact hclaim
  | put site v =>
    refine h.frame (fun wr hwr => .tail _ hwr) (fun r hr => ?_) fun r hr => ?_
    · rw [recordAt_putRec] at hr
      cases hr
      exact recorded_put w₀ w i v
    · rcases mem_cons.1 hr with rfl | hr
      · exact .inr (recorded_put w₀ w i v)
      · exact .inl hr
  | mirror k v hk =>
    refine h.frame (fun wr hwr => .tail _ hwr) (fun r hr => ?_) fun r hr => .inl hr
    rw [recordAt_putRec_of_ne _ _ _ hk.symm] at hr
    exact (h.current r hr).mono fun wr hwr => .tail _ hwr
  | _ => exact hsame rfl hkeep

end KnownInv

/-! ## The run -/

section Run

open Prog

variable [DecidableEq V] {calls : ℕ → ToolCall} {K : JsString}

omit [DecidableEq V] in
/-- What a call that has ended without running its tool has returned or thrown. -/
theorem replied_of_follows {c : ToolCall} (hperm : Unpermitted c) {w₀ w : ToolWorld V}
    {ph : ℕ → Local V} {i : ℕ} (hknown : KnownInv K w₀ w ph) (hbegan : (ph i).began = false)
    {r : Except ToolError (Out V)} (hr : Ends (Answers c) (fun _ e => Refusal c e) (ph i) r) :
    (∀ out, r = .ok out → Replied c K w₀ w out) ∧ ∀ e, r = .error e → e ≠ .retryLimitExceeded := by
  have hrefusal : ∀ {e}, Refusal c e → e ≠ .retryLimitExceeded := by
    rintro e he rfl
    rcases he rfl with h | h | h
    · exact Bool.false_ne_true (h.symm.trans hperm.sideEffect)
    · exact hperm.approvals h
    · exact Bool.false_ne_true (hperm.recover.symm.trans h)
  refine ⟨?_, ?_⟩
  · rintro out rfl
    rcases hr with hran | hlimit | ⟨err, rfl, herr⟩ | ⟨x, hx, output, hset, hout, -⟩
    · rw [hbegan] at hran
      cases hran
    · exact .inl hlimit
    · exact .inr (.inl ⟨err, rfl, hrefusal herr⟩)
    · exact .inr (.inr ⟨x, output, hknown.known i x hx, hset, hout⟩)
  · rintro e rfl
    exact hrefusal hr

/-- Calls with one key, of any mode and in any number, none of which has permission to
    repeat its tool or reads a question it has an answer to. In every run the tool starts at
    most once; a call that has ended without starting it has returned a recorded output or a
    sentinel, or has thrown, but not because of its attempts. -/
theorem tool_runs_at_most_once (hkey : ∀ i, (calls i).key = .ok K)
    (hperm : ∀ i, Unpermitted (calls i)) (w : ToolWorld V) (hw : w.trace = [])
    (ms : List (Move (ToolAnswer V) ℕ))
    (hms : toolMachine.Meets (ReadsNoAnswer calls K) (toolStart calls w) ms) :
    starts (toolMachine.play (toolStart calls w) ms).world.trace ≤ 1 ∧
      ∀ i r, .began i ∉ (toolMachine.play (toolStart calls w) ms).world.trace →
        (toolMachine.play (toolStart calls w) ms).procs i = .pure r →
        (∀ out, r = .ok out →
          Replied (calls i) K w (toolMachine.play (toolStart calls w) ms).world out) ∧
        ∀ e, r = .error e → e ≠ .retryLimitExceeded := by
  obtain ⟨ph, ⟨honce, hknown⟩, hfollows⟩ := toolMachine_invariant hkey
    (J := fun w' ph => OnceInv K w' ph ∧ KnownInv K w w' ph)
    (fun w' ph i o r w'' s' h hdoes hok => ⟨h.1.step (hperm i) hdoes hok, h.2.step hdoes⟩)
    (fun w' ph n h => ⟨⟨⟨h.1.body.won, h.1.body.began⟩, h.1.unanswered, h.1.one, h.1.occupied,
      h.1.began, h.1.once⟩, h.2.known, h.2.current⟩) ⟨.init hw, .init K w⟩ hms
  refine ⟨honce.once, fun i r hi hr => ?_⟩
  have hbegan : (ph i).began = false := by
    rw [← Bool.not_eq_true, ← honce.began i]
    exact hi
  have hends := hfollows i
  rw [hr] at hends
  exact replied_of_follows (hperm i) hknown hbegan hends

instance (K : JsString) (w : ToolWorld V) (i : ℕ) (o : ToolOp V) (r : o.Res) :
    Decidable (ReadsNoAnswer calls K w i o r) := by
  rcases o with ⟨site, o⟩ | _ | _ | _ | _ | _ | _ | _
  · rcases o with _ | _ | _ | _ <;> rcases r with _ | _ <;> dsimp only [ReadsNoAnswer] <;> infer_instance
  all_goals exact isTrue trivial

end Run

/-! ## A sub-agent's question -/

/-- The key of the call of a sub-agent. -/
def agentKey : JsString := js "r1:tool:a"

/-- The call of a sub-agent, and its resume with a refusal of the question `child`. -/
def agentCalls : ℕ → ToolCall :=
  twoCalls (plainCall (js "r1") (js "a"))
    { plainCall (js "r1") (js "a") with
      ctx := { plainCtx (js "r1") with
        approvals := fun id => if id = js "child" then some false else none } }

theorem agentCalls_key (i : ℕ) : (agentCalls i).key = .ok agentKey :=
  twoCalls_all (R := fun c => c.key = .ok agentKey) (by decide) (by decide) i

theorem agentCalls_unpermitted (i : ℕ) : Unpermitted (agentCalls i) :=
  twoCalls_all (R := Unpermitted) ⟨by decide, by decide, by decide⟩
    ⟨by decide, by decide, by decide⟩ i

/-- The tool returns at once, and the resume is answered by its record. -/
theorem tool_runs_at_most_once_replayed :
    starts (toolMachine.play (toolStart agentCalls emptyWorld)
        (plainSteps (.value 7) 0 14 ++ plainSteps (.value 7) 1 1)).world.trace ≤ 1 ∧
      Replied (agentCalls 1) agentKey emptyWorld (toolMachine.play (toolStart agentCalls emptyWorld)
        (plainSteps (.value 7) 0 14 ++ plainSteps (.value 7) 1 1)).world (.value 7) := by
  have hms : toolMachine.Meets (ReadsNoAnswer agentCalls agentKey) (toolStart agentCalls emptyWorld)
      (plainSteps (.value 7) 0 14 ++ plainSteps (.value 7) 1 1) := by decide +kernel
  have h := tool_runs_at_most_once agentCalls_key agentCalls_unpermitted emptyWorld rfl _ hms
  refine ⟨h.1, (h.2 1 (.ok (.value 7)) (by decide +kernel) ?_).1 _ rfl⟩
  exact rfl

/-- The sub-agent asks, which ends the first run of the tool; the question is refused, and
    the tool runs again to hear it. -/
theorem tool_runs_twice :
    ¬starts (toolMachine.play (toolStart agentCalls emptyWorld)
      (plainSteps (.suspend ⟨js "a", .nested, [js "child"]⟩) 0 12 ++
        plainSteps (.value 7) 1 12)).world.trace ≤ 1 := by
  decide +kernel

end Gnldev.Durable
