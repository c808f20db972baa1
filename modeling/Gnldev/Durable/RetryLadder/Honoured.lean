import Gnldev.Durable.RetryLadder

/-!
# Retries are honoured

A retry that a processor asks for is honoured, or the call ends with the error that says that it is
not: it does not surface itself. In the whole life of a run no more than three are honoured, and of
one processor no more than it allows. Every execution honours the same ones, shows the model the
same feedback and, if it returns, returns what an execution that nothing stops returns
(`RetriesHonoured`).

This holds of processors that are `Heeded`, and of no others. What a hook throws after a step is not
caught where the result of the turn is: it surfaces. And the retries of a processor are counted in
an object, where some names have a value from the beginning.
-/

open List

namespace Gnldev.Durable

open JsValue Function

/-- The retries that an execution has honoured. -/
def honoured (asked : List ((key : TurnKey) × key.Ask)) : List ProcessorRetry :=
  asked.filterMap fun
    | ⟨.retry _, err⟩ => some err
    | _ => none

/-- None is honoured once more than its processor allows. -/
def WithinBounds (hs : List ProcessorRetry) : Prop :=
  ∀ before err after, hs = before ++ err :: after →
    before.countP (·.processor = err.processor) < err.maxForProc

/-- What has been thrown was honoured, or ended the call. -/
inductive RetriesAnswered (hs : List ProcessorRetry) :
    Except Thrown LadderResult → List ProcessorRetry → Prop
  | honoured {out} (h : ∀ err, out ≠ .error (.retry err)) : RetriesAnswered hs out hs
  | exhausted (message : JsString) (err : ProcessorRetry) :
    RetriesAnswered hs (.error (.exhausted message err.processor err.feedback)) (hs ++ [err])

/-- No retry surfaces itself. -/
theorem RetriesAnswered.ne_retry {hs thrown : List ProcessorRetry} {out : Except Thrown LadderResult}
    (h : RetriesAnswered hs out thrown) (err : ProcessorRetry) : out ≠ .error (.retry err) := by
  cases h with
  | honoured h => exact h err
  | exhausted message err' => exact nofun

/-- The options with the feedback of the retries. -/
def withFeedback (options : GenerateOptions) (hs : List ProcessorRetry) : GenerateOptions :=
  hs.foldl (fun options err => appendRetryFeedback options err.feedback) options

/-- The executions of one run, from no records on. -/
structure RetriesHonoured (live : ∀ key : TurnKey, key.Ask → key.Ans → Prop)
    (p : LadderProg LadderOutcome) (options : GenerateOptions)
    (es : List (Execution TurnKey.Ask LadderOutcome)) (r : Records TurnKey.Ans) : Prop where
  bounded : ∃ hs : List ProcessorRetry, hs.length ≤ RETRY_LADDER_GLOBAL_CAP ∧ WithinBounds hs ∧
    ∀ e ∈ es, honoured e.asked <+: hs
  answered : ∀ e ∈ es, ∀ out s, e.result = some (out, s) →
    RetriesAnswered (honoured e.asked) out s.thrown
  shown : ∀ e ∈ es, ∀ out s, e.result = some (out, s) →
    s.options = withFeedback options (honoured e.asked)
  uninterrupted : ∀ e ∈ es, e.result ≠ none → Executes live p (fun _ => none) e.asked e.result r
  same : ∀ e ∈ es, ∀ e' ∈ es, e.result ≠ none → e'.result ≠ none → e = e'

/-! ## The condition -/

/-- The retries of the processor are counted, or no count stops them. -/
def ProcessorRetry.Counted (err : ProcessorRetry) : Prop :=
  UsedRetries.inherited err.processor = .count 0 ∨ RETRY_LADDER_GLOBAL_CAP ≤ err.maxForProc

/-- The result of a turn that is over. -/
def Completed (result : JsValue) : Prop :=
  streamFinishError (stepsOf result) = .ok none ∧ turnInterrupts (stepsOf result) = .ok []

structure Heeded (processors : List Processor) : Prop where
  /-- Whatever the steps are, the first error of a hook is no retry. -/
  steps : ∀ (steps : List JsValue) (err : ProcessorRetry),
    (steps.foldl (StepHooks.finish processors) .init).failure ≠ some (.retry err)
  outputs : ∀ result, Completed result → ∀ err,
    processOutputs processors (turnOutput result) = .error (.retry err) → err.Counted

/-- A retry that `generateText` is rejected with is one of these. -/
def GenerateText.RejectsOnly (q : ProcessorRetry → Prop) : GenerateText → Prop
  | model _ next => ∀ answer, (next answer).RejectsOnly q
  | tool _ _ next => ∀ output, (next output).RejectsOnly q
  | stepFinished _ _ next => next.RejectsOnly q
  | resolved _ => True
  | rejected err => ∀ retry, err = .retry retry → q retry

/-! ## Turns -/

section Turn

variable {processors : List Processor} {live : ∀ key : TurnKey, key.Ask → key.Ans → Prop}
  {r r' : Records TurnKey.Ans} {t : List ((key : TurnKey) × key.Ask)}

theorem run_memoized (turn : GenerateText) (c : Closures) : Memoized (turn.run processors c) := by
  induction turn generalizing c with
  | model params next ih => exact .memo fun answer => ih answer _
  | tool toolCallId input next ih => exact .memo fun output => ih output c
  | stepFinished step stopped next ih =>
    rw [GenerateText.run]
    split
    · exact .pure _
    · exact ih _
  | resolved result => exact .pure _
  | rejected err => exact .pure _

/-- The hooks have seen these steps. -/
def StepHooks.Seen (processors : List Processor) (hooks : StepHooks) : Prop :=
  ∃ steps : List JsValue, hooks = steps.foldl (StepHooks.finish processors) .init

theorem StepHooks.Seen.finish {hooks : StepHooks} (h : hooks.Seen processors) (step : JsValue) :
    (hooks.finish processors step).Seen processors := by
  obtain ⟨steps, rfl⟩ := h
  exact ⟨steps ++ [step], by rw [foldl_concat]⟩

/-- What a turn leaves. -/
structure TurnDone (processors : List Processor) (q : ProcessorRetry → Prop)
    (turn : Except Thrown JsValue) (c : Closures) : Prop where
  seen : c.hooks.Seen processors
  rejected : ∀ err, turn = .error (.retry err) → q err
  quiet : ∀ err, turn = .error err → c.hooks.failure = none

/-- A turn honours no retry, and touches no record of one. -/
theorem run_executes {q : ProcessorRetry → Prop} {turn : GenerateText} {c : Closures}
    (hseen : c.hooks.Seen processors) (hquiet : c.hooks.failure = none)
    (hturn : turn.RejectsOnly q) {x : Option (Except Thrown JsValue × Closures)}
    (h : Executes live (turn.run processors c) r t x r') :
    honoured t = [] ∧ (∀ k, r' (.retry k) = r (.retry k)) ∧
      ∀ res c', x = some (res, c') → TurnDone processors q res c' := by
  induction turn generalizing c r t with
  | model params next ih =>
    rcases h.of_memo with ⟨rfl, rfl, rfl | rfl⟩ | ⟨a, r₁, t₁, rfl, ha, h⟩
    · exact ⟨rfl, fun _ => rfl, nofun⟩
    · exact ⟨rfl, fun _ => rfl, nofun⟩
    · obtain ⟨ht, hr, hx⟩ := ih a (c := { c with modelStep := c.modelStep + 1 }) hseen hquiet
        (hturn a) h
      exact ⟨ht, fun k => (hr k).trans (ha.of_ne nofun), hx⟩
  | tool toolCallId input next ih =>
    rcases h.of_memo with ⟨rfl, rfl, rfl | rfl⟩ | ⟨a, r₁, t₁, rfl, ha, h⟩
    · exact ⟨rfl, fun _ => rfl, nofun⟩
    · exact ⟨rfl, fun _ => rfl, nofun⟩
    · obtain ⟨ht, hr, hx⟩ := ih a hseen hquiet (hturn a) h
      exact ⟨ht, fun k => (hr k).trans (ha.of_ne nofun), hx⟩
  | stepFinished step stopped next ih =>
    have hnext := hseen.finish step
    rw [GenerateText.run] at h
    split at h
    · obtain ⟨rfl, rfl, rfl | rfl⟩ := h.of_pure
      · exact ⟨rfl, fun _ => rfl, nofun⟩
      · refine ⟨rfl, fun _ => rfl, fun res c' hx => ?_⟩
        obtain ⟨rfl, rfl⟩ := Prod.mk.inj (Option.some_inj.1 hx)
        exact ⟨hnext, nofun, nofun⟩
    · next hnone => exact ih hnext hnone hturn h
  | resolved result =>
    obtain ⟨rfl, rfl, rfl | rfl⟩ := h.of_pure
    · exact ⟨rfl, fun _ => rfl, nofun⟩
    · refine ⟨rfl, fun _ => rfl, fun res c' hx => ?_⟩
      obtain ⟨rfl, rfl⟩ := Prod.mk.inj (Option.some_inj.1 hx)
      exact ⟨hseen, nofun, nofun⟩
  | rejected err =>
    obtain ⟨rfl, rfl, rfl | rfl⟩ := h.of_pure
    · exact ⟨rfl, fun _ => rfl, nofun⟩
    · refine ⟨rfl, fun _ => rfl, fun res c' hx => ?_⟩
      obtain ⟨rfl, rfl⟩ := Prod.mk.inj (Option.some_inj.1 hx)
      exact ⟨hseen, fun retry he => hturn retry (Except.error.inj he), fun _ _ => hquiet⟩

variable {err : ProcessorRetry}

theorem settle_eq_retry {result : JsValue} :
    settle processors result = .error (.retry err) ↔ Completed result ∧
      processOutputs processors (turnOutput result) = .error (.retry err) := by
  rw [settle, Completed]
  rcases streamFinishError (stepsOf result) with e | (- | e)
  · exact ⟨nofun, nofun⟩
  · rcases turnInterrupts (stepsOf result) with e | interrupts
    · exact ⟨nofun, nofun⟩
    · change (if processors ≠ [] ∧ interrupts = [] then
        processOutputs processors (turnOutput result) >>= fun pout =>
          .ok (LadderResult.mk (shadowProps result pout) interrupts (some pout.messages))
        else .ok ⟨result, interrupts, none⟩) = _ ↔ _
      by_cases h : processors ≠ [] ∧ interrupts = []
      · rw [if_pos h, h.2]
        rcases processOutputs processors (turnOutput result) with e | pout
        · exact ⟨fun he => ⟨⟨rfl, rfl⟩, congrArg _ (Except.error.inj he)⟩,
            fun he => congrArg _ (Except.error.inj he.2)⟩
        · exact ⟨nofun, nofun⟩
      · rw [if_neg h]
        refine ⟨nofun, fun ⟨⟨_, hnone⟩, herr⟩ => absurd ⟨?_, Except.ok.inj hnone⟩ h⟩
        rintro rfl
        contradiction
  · exact ⟨nofun, nofun⟩

theorem TurnEnd.catching_eq_caught {res : Except Thrown LadderResult} :
    TurnEnd.catching res = .caught err ↔ res = .error (.retry err) := by
  constructor
  · intro h
    rcases res with e | out
    · cases e with
      | retry e => rw [(TurnEnd.caught.inj h)]
      | _ => contradiction
    · contradiction
  · rintro rfl
    rfl

theorem TurnEnd.catching_ne_threw (res : Except Thrown LadderResult) (err : ProcessorRetry) :
    TurnEnd.catching res ≠ .threw (.retry err) := by
  rcases res with e | out
  · cases e <;> exact nofun
  · exact nofun

theorem TurnEnd.of_eq_caught {failure : Option Thrown} {turn : Except Thrown JsValue}
    (h : TurnEnd.of processors failure turn = .caught err) :
    turn = .error (.retry err) ∨
      ∃ result, turn = .ok result ∧ failure = none ∧
        settle processors result = .error (.retry err) := by
  rcases turn with e | result
  · exact .inl (congrArg _ (Except.error.inj (TurnEnd.catching_eq_caught.1 h)))
  · rcases failure with - | e
    · exact .inr ⟨result, rfl, rfl, TurnEnd.catching_eq_caught.1 h⟩
    · contradiction

theorem TurnEnd.of_eq_threw {failure : Option Thrown} {turn : Except Thrown JsValue}
    (h : TurnEnd.of processors failure turn = .threw (.retry err)) :
    failure = some (.retry err) := by
  rcases turn with e | result
  · exact absurd h (TurnEnd.catching_ne_threw _ _)
  · rcases failure with - | e
    · exact absurd h (TurnEnd.catching_ne_threw _ _)
    · exact congrArg some (TurnEnd.threw.inj h)

end Turn

/-! ## The ladder -/

theorem WithinBounds.concat {hs : List ProcessorRetry} {err : ProcessorRetry} (h : WithinBounds hs)
    (herr : hs.countP (·.processor = err.processor) < err.maxForProc) :
    WithinBounds (hs ++ [err]) := by
  intro before err' after heq
  rcases eq_nil_or_concat after with rfl | ⟨after, last, rfl⟩
  · obtain ⟨rfl, hlast⟩ := append_inj' heq rfl
    obtain rfl := singleton_inj.1 hlast
    exact herr
  · rw [concat_eq_append, ← cons_append, ← append_assoc] at heq
    exact h before err' after (append_inj' heq rfl).1

/-- How often a processor has been counted. -/
theorem foldl_count {processor : JsString} {used : JsString → UsedRetries} {n : ℕ}
    (hinherited : UsedRetries.inherited processor = .count 0) (hn : used processor = .count n)
    (hs : List ProcessorRetry) :
    hs.foldl (fun used err => RetryLadder.count used err.processor) used processor =
      .count (n + hs.countP (·.processor = processor)) := by
  induction hs generalizing used n with
  | nil => exact hn
  | cons err hs ih =>
    rw [foldl_cons]
    by_cases herr : err.processor = processor
    · subst herr
      have hproto : err.processor ≠ js "__proto__" := by
        intro hproto
        rw [hproto] at hinherited
        contradiction
      have hcount : RetryLadder.count used err.processor err.processor = .count (n + 1) := by
        rw [RetryLadder.count, if_neg hproto, update_self, hn, UsedRetries.succ]
      rw [ih hcount, countP_cons_of_pos (by simp), Nat.add_right_comm, Nat.add_assoc]
    · rw [countP_cons_of_neg (by simpa using herr)]
      refine ih ?_
      rw [RetryLadder.count]
      split
      · exact hn
      · exact (update_of_ne (Ne.symm herr) _ _).trans hn

section Ladder

variable {processors : List Processor} {generateText : GenerateOptions → GenerateText}
  {runId : JsString} {options : GenerateOptions} {world : LadderWorld} {r r' : Records TurnKey.Ans}
  {t : List ((key : TurnKey) × key.Ask)} {hs : List ProcessorRetry}

/-- The state after these retries. -/
structure RetryLadder.After (processors : List Processor) (options : GenerateOptions)
    (hs : List ProcessorRetry) (s : RetryLadder) : Prop where
  options_eq : s.options = withFeedback options hs
  used_eq : s.usedByProcessor =
    hs.foldl (fun used err => RetryLadder.count used err.processor) .inherited
  attempt_eq : s.attempt = hs.length
  thrown_eq : s.thrown = hs
  seen : s.closures.hooks.Seen processors
  quiet : s.closures.hooks.failure = none

theorem RetryLadder.after_init (processors : List Processor) (options : GenerateOptions) :
    (RetryLadder.init options).After processors options [] where
  options_eq := rfl
  used_eq := rfl
  attempt_eq := rfl
  thrown_eq := rfl
  seen := ⟨[], rfl⟩
  quiet := rfl

@[simp] theorem honoured_nil : honoured [] = [] := rfl

@[simp] theorem honoured_retry (k : ℕ) (err : ProcessorRetry)
    (t : List ((key : TurnKey) × key.Ask)) :
    honoured (⟨.retry k, err⟩ :: t) = err :: honoured t := rfl

theorem honoured_append (t t' : List ((key : TurnKey) × key.Ask)) :
    honoured (t ++ t') = honoured t ++ honoured t' := filterMap_append

variable {s : RetryLadder} {err : ProcessorRetry}

/-- One more retry is within the bounds, if the ladder does not refuse it. -/
theorem WithinBounds.honour (hwithin : WithinBounds hs) (hs' : s.After processors options hs)
    (herr : err.Counted) (hgo : ¬(RETRY_LADDER_GLOBAL_CAP ≤ s.attempt ∨
      (s.usedByProcessor err.processor).reached err.maxForProc)) : WithinBounds (hs ++ [err]) := by
  obtain ⟨hcap, hused⟩ := not_or.1 hgo
  refine hwithin.concat ?_
  rcases herr with hcounted | hmany
  · rw [hs'.used_eq, foldl_count hcounted hcounted, Nat.zero_add] at hused
    exact not_le.1 fun hle => hused (decide_eq_true hle)
  · rw [hs'.attempt_eq] at hcap
    exact (countP_le_length.trans_lt (not_le.1 hcap)).trans_le hmany

/-- The retries of an execution from a state on, after those before it. -/
structure LadderEnds (options : GenerateOptions) (hs : List ProcessorRetry)
    (x : Option LadderOutcome) : Prop where
  length_le : hs.length ≤ RETRY_LADDER_GLOBAL_CAP
  within : WithinBounds hs
  answered : ∀ out s, x = some (out, s) → RetriesAnswered hs out s.thrown
  shown : ∀ out s, x = some (out, s) → s.options = withFeedback options hs

theorem LadderEnds.of_pure {x : Option LadderOutcome} {out : Except Thrown LadderResult}
    (hx : x = none ∨ x = some (out, s)) (hlen : hs.length ≤ RETRY_LADDER_GLOBAL_CAP)
    (hwithin : WithinBounds hs) (hanswered : RetriesAnswered hs out s.thrown)
    (hshown : s.options = withFeedback options hs) :
    LadderEnds options hs x := by
  rcases hx with rfl | rfl
  · exact ⟨hlen, hwithin, nofun, nofun⟩
  · refine ⟨hlen, hwithin, fun out' s' h => ?_, fun out' s' h => ?_⟩
    all_goals obtain ⟨rfl, rfl⟩ := Prod.mk.inj (Option.some_inj.1 h)
    · exact hanswered
    · exact hshown

/-- The state after a turn whose retry is honoured. -/
theorem RetryLadder.After.honour (h : s.After processors options hs) {c : Closures}
    (hseen : c.hooks.Seen processors) (hquiet : c.hooks.failure = none) (err : ProcessorRetry) :
    (RetryLadder.honour { s with closures := c, thrown := s.thrown ++ [err] } err
      ⟨err.feedback, err.processor⟩).After processors options (hs ++ [err]) where
  options_eq := by
    rw [withFeedback, foldl_concat, RetryLadder.honour, h.options_eq, withFeedback]
  used_eq := by rw [foldl_concat, RetryLadder.honour, h.used_eq]
  attempt_eq := by rw [length_append, RetryLadder.honour, h.attempt_eq, length_singleton]
  thrown_eq := by rw [RetryLadder.honour, h.thrown_eq]
  seen := hseen
  quiet := hquiet

theorem ladderFrom_executes (hp : Heeded processors)
    (hsdk : ∀ o, (generateText o).RejectsOnly ProcessorRetry.Counted)
    (hafter : s.After processors options hs) (hlen : hs.length ≤ RETRY_LADDER_GLOBAL_CAP)
    (hwithin : WithinBounds hs) (hfresh : ∀ k, s.attempt ≤ k → r (.retry k) = none)
    {x : Option LadderOutcome}
    (h : Executes world.Live (ladderFrom processors generateText runId s) r t x r') :
    LadderEnds options (hs ++ honoured t) x := by
  induction hn : RETRY_LADDER_GLOBAL_CAP - s.attempt using Nat.strong_induction_on
    generalizing hs s r t with | _ n ih =>
  rw [ladderFrom] at h
  rcases h.bind with ⟨rfl, hturn⟩ | ⟨⟨turn, c⟩, r₁, t₁, t₂, rfl, hturn, hrest⟩
  · -- It stops in the turn.
    rw [(run_executes hafter.seen hafter.quiet (hsdk _) hturn).1, append_nil]
    exact ⟨hlen, hwithin, nofun, nofun⟩
  · obtain ⟨ht₁, hr₁, hdone⟩ := run_executes hafter.seen hafter.quiet (hsdk _) hturn
    have hdone := hdone _ _ rfl
    have hfresh' : ∀ k, s.attempt ≤ k → r₁ (.retry k) = none := fun k hk =>
      (hr₁ k).trans (hfresh k hk)
    rw [honoured_append, ht₁, nil_append]
    dsimp only at hrest
    generalize hend : TurnEnd.of processors c.hooks.failure turn = ended at hrest
    cases ended with
    | returned result =>
      obtain ⟨rfl, -, hx⟩ := hrest.of_pure
      rw [honoured_nil, append_nil]
      refine .of_pure hx hlen hwithin ?_ hafter.options_eq
      change RetriesAnswered hs _ (s.thrown ++ [])
      rw [append_nil, hafter.thrown_eq]
      exact .honoured fun err => nofun
    | threw err =>
      obtain ⟨rfl, -, hx⟩ := hrest.of_pure
      have hother : ∀ retry, err ≠ .retry retry := by
        rintro retry rfl
        obtain ⟨steps, hsteps⟩ := hdone.seen
        exact hp.steps steps retry (hsteps ▸ TurnEnd.of_eq_threw hend)
      have hretried : (TurnEnd.threw err).retried = [] := by
        cases err with
        | retry retry => exact absurd rfl (hother retry)
        | _ => rfl
      rw [honoured_nil, append_nil]
      refine .of_pure hx hlen hwithin ?_ hafter.options_eq
      change RetriesAnswered hs _ (s.thrown ++ (TurnEnd.threw err).retried)
      rw [hretried, append_nil, hafter.thrown_eq]
      exact .honoured fun retry he => hother retry (Except.error.inj he)
    | caught err =>
      have hcaught : err.Counted ∧ c.hooks.failure = none := by
        rcases TurnEnd.of_eq_caught hend with rfl | ⟨result, rfl, hquiet, hsettle⟩
        · exact ⟨hdone.rejected err rfl, hdone.quiet _ rfl⟩
        · obtain ⟨hcompleted, houtput⟩ := settle_eq_retry.1 hsettle
          exact ⟨hp.outputs result hcompleted err houtput, hquiet⟩
      dsimp only at hrest
      split at hrest
      · -- The retry is refused.
        obtain ⟨rfl, -, hx⟩ := hrest.of_pure
        rw [honoured_nil, append_nil]
        refine .of_pure hx hlen hwithin ?_ hafter.options_eq
        change RetriesAnswered hs _ (s.thrown ++ [err])
        rw [hafter.thrown_eq]
        exact .exhausted _ err
      · next hgo =>
        have hwithin' := hwithin.honour hafter hcaught.1 hgo
        have hlen' : (hs ++ [err]).length ≤ RETRY_LADDER_GLOBAL_CAP := by
          rw [length_append, length_singleton, ← hafter.attempt_eq]
          exact not_le.1 (not_or.1 hgo).1
        rcases hrest.of_memo with ⟨rfl, rfl, rfl | rfl⟩ | ⟨decision, r₂, t₃, rfl, ha, hnext⟩
        · rw [honoured_nil, append_nil]
          exact ⟨hlen, hwithin, nofun, nofun⟩
        · exact ⟨hlen', hwithin', nofun, nofun⟩
        · -- Nothing is recorded yet: the decision is what the processor has thrown.
          cases ha with
          | recorded hsome =>
            rw [hfresh' _ le_rfl] at hsome
            contradiction
          | asked _ hlive =>
            obtain rfl : decision = ⟨err.feedback, err.processor⟩ := hlive
            rw [honoured_retry, append_cons]
            refine ih _ ?_ (hafter.honour hdone.seen hcaught.2 err) hlen' hwithin' (fun k hk => ?_)
              hnext rfl
            · simp only [RetryLadder.honour]
              omega
            · have hk : s.attempt < k := hk
              rw [Records.set_of_ne _ _ fun he => hk.ne' (TurnKey.retry.inj he)]
              exact hfresh' k hk.le

theorem ladderFrom_memoized (s : RetryLadder) :
    Memoized (ladderFrom processors generateText runId s) := by
  induction hn : RETRY_LADDER_GLOBAL_CAP - s.attempt using Nat.strong_induction_on
    generalizing s with | _ n ih =>
  rw [ladderFrom]
  refine (run_memoized _ _).bind fun ⟨turn, c⟩ => ?_
  dsimp only
  split
  · exact .pure _
  · exact .pure _
  · split
    · exact .pure _
    · refine .memo fun decision => ih _ ?_ _ rfl
      simp only [RetryLadder.honour]
      omega

/-- The retries are honoured in every life of the run. -/
theorem retries_honoured (hp : Heeded processors)
    (hsdk : ∀ o, (generateText o).RejectsOnly ProcessorRetry.Counted)
    {es : List (Execution TurnKey.Ask LadderOutcome)}
    (h : Lives world.Live (runGenerateWithRetryLadder processors generateText runId options) es r) :
    RetriesHonoured world.Live (runGenerateWithRetryLadder processors generateText runId options)
      options es r := by
  obtain ⟨whole, hwhole, hall⟩ := h.one (ladderFrom_memoized _)
  have hends := ladderFrom_executes hp hsdk (RetryLadder.after_init processors options)
    (Nat.zero_le _) (fun _ _ _ => by simp) (fun _ _ => rfl) hwhole
  rw [nil_append] at hends
  have hsame : ∀ e ∈ es, e.result ≠ none → e = whole := fun e he hresult =>
    (hall e he).2.resolve_left hresult
  constructor
  · exact ⟨_, hends.length_le, hends.within, fun e he => (hall e he).1.filterMap _⟩
  · intro e he out s hresult
    obtain rfl := hsame e he (hresult ▸ nofun)
    exact hends.answered out s hresult
  · intro e he out s hresult
    obtain rfl := hsame e he (hresult ▸ nofun)
    exact hends.shown out s hresult
  · intro e he hresult
    obtain rfl := hsame e he hresult
    exact hwhole
  · intro e he e' he' hresult hresult'
    exact (hsame e he hresult).trans (hsame e' he' hresult').symm

/-! ## Processors that are not heeded -/

/-- A turn of these steps. -/
def stepsTurn (steps : List JsValue) : GenerateText :=
  steps.foldr (fun step next => .stepFinished step .undefined next) (.resolved .undefined)

theorem rejectsOnly_stepsTurn (q : ProcessorRetry → Prop) (steps : List JsValue) :
    (stepsTurn steps).RejectsOnly q := by
  induction steps with
  | nil => trivial
  | cons step steps ih => exact ih

theorem foldl_finish_failure {hooks : StepHooks} {err : Thrown} (h : hooks.failure = some err)
    (steps : List JsValue) :
    (steps.foldl (StepHooks.finish processors) hooks).failure = some err := by
  induction steps generalizing hooks with
  | nil => exact h
  | cons step steps ih =>
    refine ih ?_
    rw [StepHooks.finish]
    split
    · exact h
    · rw [h]
      rfl

/-- The first error of the hooks stops the turn. -/
theorem run_stepsTurn {c : Closures} (hquiet : c.hooks.failure = none) (steps : List JsValue) :
    ∃ c', (stepsTurn steps).run processors c = .pure (.ok .undefined, c') ∧
      c'.hooks.failure = (steps.foldl (StepHooks.finish processors) c.hooks).failure := by
  induction steps generalizing c with
  | nil => exact ⟨c, rfl, rfl⟩
  | cons step steps ih =>
    rcases hfailure : (c.hooks.finish processors step).failure with - | err
    · obtain ⟨c', hrun, hc'⟩ := ih (c := { c with hooks := c.hooks.finish processors step }) hfailure
      refine ⟨c', ?_, hc'⟩
      rw [← hrun, stepsTurn, foldr_cons, GenerateText.run, hfailure]
      rfl
    · refine ⟨{ c with hooks := c.hooks.finish processors step }, ?_, ?_⟩
      · rw [stepsTurn, foldr_cons, GenerateText.run, hfailure]
      · rw [foldl_cons, foldl_finish_failure hfailure]
        exact hfailure

theorem ladder_stepsTurn {steps : List JsValue}
    (hsteps : (steps.foldl (StepHooks.finish processors) .init).failure = some (.retry err)) :
    ∃ s, runGenerateWithRetryLadder processors (fun _ => stepsTurn steps) runId options =
      .pure (.error (.retry err), s) := by
  obtain ⟨c, hrun, hc⟩ := @run_stepsTurn processors .init rfl steps
  have hended : TurnEnd.of processors c.hooks.failure (.ok .undefined) = .threw (.retry err) := by
    rw [hc.trans hsteps]
    rfl
  refine ⟨{ RetryLadder.init options with closures := c, thrown := [err] }, ?_⟩
  rw [runGenerateWithRetryLadder, ladderFrom]
  change ((stepsTurn steps).run processors .init >>= _) = _
  rw [hrun]
  dsimp only [bind, Prog.bind]
  rw [hended]
  rfl

/-- A retry that a hook throws surfaces itself. -/
theorem step_retry_surfaces (runId : JsString) (options : GenerateOptions) (world : LadderWorld)
    {steps : List JsValue}
    (hsteps : (steps.foldl (StepHooks.finish processors) .init).failure = some (.retry err)) :
    ∃ es r, Lives world.Live
        (runGenerateWithRetryLadder processors (fun _ => stepsTurn steps) runId options) es r ∧
      ¬RetriesHonoured world.Live
        (runGenerateWithRetryLadder processors (fun _ => stepsTurn steps) runId options)
        options es r := by
  obtain ⟨s, hrun⟩ := @ladder_stepsTurn processors runId options err steps hsteps
  let e : Execution TurnKey.Ask LadderOutcome := ⟨[], some (.error (.retry err), s)⟩
  refine ⟨[e], fun _ => none, .next .nil ?_, fun h => ?_⟩
  · rw [hrun]
    exact .returns _ _
  · exact (h.answered e mem_cons_self _ _ rfl).ne_retry err rfl

theorem inherited_of_not_counted (h : ¬err.Counted) :
    ∃ text, UsedRetries.inherited err.processor = .text text := by
  rcases hinherited : UsedRetries.inherited err.processor with n | text
  · have hzero : n = 0 := by
      rw [UsedRetries.inherited] at hinherited
      split at hinherited
      · contradiction
      · split at hinherited
        · contradiction
        · exact (UsedRetries.count.inj hinherited).symm
    exact absurd (.inl (hzero ▸ hinherited)) h
  · exact ⟨text, rfl⟩

theorem count_eq_text {used : JsString → UsedRetries} {processor processor' : JsString}
    {text : JsString} (h : used processor = .text text) :
    ∃ text', RetryLadder.count used processor' processor = .text text' := by
  rw [RetryLadder.count]
  split
  · exact ⟨text, h⟩
  · by_cases heq : processor = processor'
    · subst heq
      exact ⟨text ++ js "1", by rw [update_self, h, UsedRetries.succ]⟩
    · exact ⟨text, by rw [update_of_ne heq, h]⟩

/-- A processor that is not counted is honoured as often as any. -/
theorem uncounted_honoured {result : JsValue} (hcompleted : Completed result)
    (hthrows : processOutputs processors (turnOutput result) = .error (.retry err))
    (hquiet : s.closures.hooks.failure = none)
    (htext : ∃ text, s.usedByProcessor err.processor = .text text) :
    ∃ t r', Executes world.Live (ladderFrom processors (fun _ => .resolved result) runId s)
        r t none r' ∧
      honoured t = List.replicate (RETRY_LADDER_GLOBAL_CAP - s.attempt) err := by
  induction hn : RETRY_LADDER_GLOBAL_CAP - s.attempt generalizing s r with
  | zero => exact ⟨[], r, .stops .., rfl⟩
  | succ n ih =>
    obtain ⟨text, htext⟩ := htext
    have hgo : ¬(RETRY_LADDER_GLOBAL_CAP ≤ s.attempt ∨
        (s.usedByProcessor err.processor).reached err.maxForProc) := by
      refine not_or.2 ⟨by omega, ?_⟩
      rw [htext]
      exact Bool.false_ne_true
    obtain ⟨decision, r₁, ha⟩ : ∃ decision r₁,
        Answers world.Live (.retry s.attempt) err decision r r₁ := by
      rcases hr : r (.retry s.attempt) with - | decision
      · exact ⟨_, _, .asked hr rfl⟩
      · exact ⟨decision, r, .recorded hr⟩
    have hended : TurnEnd.of processors s.closures.hooks.failure (.ok result) = .caught err := by
      rw [hquiet]
      exact TurnEnd.catching_eq_caught.2 (settle_eq_retry.2 ⟨hcompleted, hthrows⟩)
    obtain ⟨t, r', hrest, ht⟩ := ih (r := r₁)
      (s := RetryLadder.honour { s with thrown := s.thrown ++ [err] } err decision) hquiet
      (count_eq_text htext) (by simp only [RetryLadder.honour]; omega)
    refine ⟨⟨.retry s.attempt, err⟩ :: t, r', ?_, by rw [honoured_retry, ht, replicate_succ]⟩
    rw [ladderFrom]
    dsimp only [GenerateText.run, bind, Prog.bind]
    rw [hended]
    dsimp only
    rw [dif_neg hgo]
    exact .memo ha hrest

/-- A processor that is not counted is honoured once more than it allows. -/
theorem uncounted_exceeds (runId : JsString) (options : GenerateOptions) (world : LadderWorld)
    {result : JsValue} (hcompleted : Completed result)
    (hthrows : processOutputs processors (turnOutput result) = .error (.retry err))
    (hcounted : ¬err.Counted) :
    ∃ es r, Lives world.Live
        (runGenerateWithRetryLadder processors (fun _ => .resolved result) runId options) es r ∧
      ¬RetriesHonoured world.Live
        (runGenerateWithRetryLadder processors (fun _ => .resolved result) runId options)
        options es r := by
  obtain ⟨t, r, hexec, ht⟩ := @uncounted_honoured processors runId world (fun _ => none)
    (.init options) err result hcompleted hthrows rfl (inherited_of_not_counted hcounted)
  refine ⟨[⟨t, none⟩], r, .next .nil hexec, fun h => ?_⟩
  obtain ⟨hs, hlen, hwithin, hpre⟩ := h.bounded
  have hpre : List.replicate RETRY_LADDER_GLOBAL_CAP err <+: hs := ht ▸ hpre _ mem_cons_self
  obtain rfl := hpre.eq_of_length_le (hlen.trans_eq length_replicate.symm)
  have htwo : 2 < err.maxForProc := by simpa using hwithin [err, err] err [] rfl
  exact hcounted (.inr htwo)

/-- The retries of a run are honoured whatever the turns do, if and only if the processors are
    heeded. -/
theorem retries_honoured_iff : (∀ (generateText : GenerateOptions → GenerateText),
    (∀ o, (generateText o).RejectsOnly ProcessorRetry.Counted) →
    ∀ runId options (world : LadderWorld) es r,
      Lives world.Live (runGenerateWithRetryLadder processors generateText runId options) es r →
      RetriesHonoured world.Live (runGenerateWithRetryLadder processors generateText runId options)
        options es r) ↔ Heeded processors := by
  let options : GenerateOptions := ⟨.arr [], .undefined⟩
  let world : LadderWorld := ⟨fun _ _ => True, fun _ _ _ => True⟩
  refine ⟨fun h => ⟨fun steps err hsteps => ?_, fun result hcompleted err hthrows => ?_⟩, ?_⟩
  · obtain ⟨es, r, hlives, hnot⟩ := step_retry_surfaces [] options world hsteps
    exact hnot (h _ (fun _ => rejectsOnly_stepsTurn _ steps) _ _ _ _ _ hlives)
  · by_contra hcounted
    obtain ⟨es, r, hlives, hnot⟩ := uncounted_exceeds [] options world hcompleted hthrows hcounted
    exact hnot (h (fun _ => .resolved result) (fun _ => trivial) _ _ _ _ _ hlives)
  · exact fun hp generateText hsdk runId options world es r => retries_honoured hp hsdk

end Ladder

/-! ## A judge of steps -/

/-- It wants the answer to be "good". -/
def judge : Processor where
  processOutputStep := some fun step =>
    if step.text.isStr (js "good") then .ok ()
    else .error (.retry ⟨js "answer with exactly good", js "judge", none⟩)
  processOutput := none

/-- A turn of one answer. -/
def answerTurn (options : GenerateOptions) : GenerateText :=
  .model options.messages fun answer =>
    let result := JsValue.obj [(js "text", answer.field (js "text")), (js "steps", .arr [answer])]
    .stepFinished answer result (.resolved result)

def badAnswer : JsValue := .obj [(js "text", .str (js "bad")), (js "content", .arr [])]

/-- A model that does not know better. -/
def badWorld : LadderWorld where
  model _ answer := answer = badAnswer
  tool _ _ _ := False

/-- The retry of the judge surfaces: the model is not asked again. -/
theorem judge_not_honoured : ∃ es r,
    Lives badWorld.Live (runGenerateWithRetryLadder [judge] answerTurn (js "run")
      ⟨.undefined, .str (js "go")⟩) es r ∧
    ¬RetriesHonoured badWorld.Live (runGenerateWithRetryLadder [judge] answerTurn (js "run")
      ⟨.undefined, .str (js "go")⟩) ⟨.undefined, .str (js "go")⟩ es r := by
  let err : ProcessorRetry := ⟨js "answer with exactly good", js "judge", none⟩
  let s : RetryLadder := { RetryLadder.init ⟨.undefined, .str (js "go")⟩ with
    closures := ⟨1, 1, some (.retry err)⟩, thrown := [err] }
  let e : Execution TurnKey.Ask LadderOutcome :=
    ⟨[⟨.model 0, .undefined⟩], some (.error (.retry err), s)⟩
  refine ⟨[e], Records.set (fun _ => none) (.model 0) badAnswer, .next .nil ?_, fun h => ?_⟩
  · rw [runGenerateWithRetryLadder, ladderFrom]
    have hlive : badWorld.Live (.model 0) .undefined badAnswer := rfl
    exact .get (.ask hlive (.put (.returns _ _)))
  · exact (h.answered e List.mem_cons_self _ _ rfl).ne_retry err rfl

end Gnldev.Durable

