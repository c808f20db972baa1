import Gnldev.Durable.JournalKey
import Gnldev.Durable.Semantic
import Gnldev.Rag.Chunk
import Mathlib.Logic.Function.Basic

/-!
# The judge

What the rules leave gray, a model is asked about (`semantic-judge.ts`). The verdict is kept under the
unordered pair, with the stamp of the question that it answers: the model, the version of the prompt
and the version of the rules. A call that finds a verdict with its stamp serves it. One that finds
nothing, or another stamp, takes a slot of its run's budget, asks, and writes what is answered, if the
journal still holds what it has found. If not, it serves what is there instead, whatever its stamp.

* `JudgeState.step`: any number of workers, each with the configuration and the build of its own;
* `JudgeState.step_next`: what a step can do.
-/

namespace Gnldev.Durable.Semantic

inductive JudgeVerdict where
  | same | different | unsure
  deriving DecidableEq

inductive JudgeCause where
  | budget | canonicalTooLong | timeout | error | parseFail
  deriving DecidableEq

inductive JudgeOutcome where
  | verdict (verdict : JudgeVerdict) (cached : Bool) (latencyMs : ℤ) (staleReplaced : Bool)
  | skipped (cause : JudgeCause)
  deriving DecidableEq

/-- The question that a verdict answers. -/
structure JudgeStamp where
  judgeModelId : JsString
  judgePromptVersion : JsString
  rulesetVersion : JsString
  deriving DecidableEq

/-- The value under `semJudgeKey`. -/
structure SemJudgeRecord extends JudgeStamp where
  verdict : JudgeVerdict
  fixtureSetId : JsString
  score : ℚ
  toolCallId : JsString
  at_ : ℤ
  deriving DecidableEq

def JUDGE_CANONICAL_MAX : ℕ := 512
def DEFAULT_JUDGE_CALLS_PER_RUN : ℕ := 10

/-- `runKeys.proc` of a slot. -/
def judgeSlotKey (runId : JsString) (n : ℕ) : JsString :=
  runId ++ js ":proc:semjudge-slot-" ++ decimal n

structure SemanticJudgeConfig where
  judgeModelId : JsString
  /-- Of the certificate. -/
  fixtureSetId : JsString
  maxCallsPerRun : Option ℕ

/-- What `judgeGrayPair` is called with, and the versions that its build has. -/
structure JudgeRequest where
  runId : JsString
  toolCallId : JsString
  plan : SemPlan
  gray : GrayCandidate
  cfg : SemanticJudgeConfig
  judgePromptVersion : JsString
  rulesetVersion : JsString

namespace JudgeRequest

variable (r : JudgeRequest)

def key : Except ToolError JsString :=
  semJudgeKey r.plan.threadId r.plan.toolName r.gray.record.argsHash r.plan.argsHash

def stamp : JudgeStamp := ⟨r.cfg.judgeModelId, r.judgePromptVersion, r.rulesetVersion⟩

def max : ℕ := r.cfg.maxCallsPerRun.getD DEFAULT_JUDGE_CALLS_PER_RUN

def slotKey (n : ℕ) : JsString := judgeSlotKey r.runId n

def tooLong : Bool :=
  JUDGE_CANONICAL_MAX < r.plan.canonical.length ∨ JUDGE_CANONICAL_MAX < r.gray.record.canonical.length

/-- What is written. -/
def record (verdict : JudgeVerdict) (now : ℤ) : SemJudgeRecord where
  toJudgeStamp := r.stamp
  verdict := verdict
  fixtureSetId := r.cfg.fixtureSetId
  score := r.gray.score
  toolCallId := r.toolCallId
  at_ := now

end JudgeRequest

/-- The whole answer is one of three words. -/
def parseJudgeVerdict (toUpperCase : JsString → JsString) (raw : JsString) : Option JudgeVerdict :=
  let t := toUpperCase (Rag.trim raw)
  if t = js "SAME" then some .same
  else if t = js "DIFFERENT" then some .different
  else if t = js "UNSURE" then some .unsure
  else none

/-- What comes of `complete()`. -/
inductive JudgeReply where
  | text (raw : JsString)
  | timeout
  | error

/-! ## A call -/

/-- What has been answered, after how long. -/
structure Judged where
  verdict : JudgeVerdict
  latencyMs : ℤ

/-- How far a call is. From the reading on, it knows the record of another stamp, if there was one. -/
inductive JudgePhase where
  | reading
  | slot (n : ℕ) (stale : Option SemJudgeRecord)
  | asking (stale : Option SemJudgeRecord)
  | asked (stale : Option SemJudgeRecord)
  | writing (stale : Option SemJudgeRecord) (judged : Judged)
  /-- The journal holds something else than what was read. -/
  | lost (stale : Option SemJudgeRecord) (judged : Judged)
  | ended (outcome : JudgeOutcome)
  | crashed

structure JudgeCall where
  request : JudgeRequest
  key : JsString
  key_eq : request.key = .ok key
  /-- The slot that it has taken. -/
  held : Option JsString
  /-- `complete()` has been called. -/
  invoked : Bool
  /-- What `complete()` answered it. -/
  answer : Option JudgeVerdict
  phase : JudgePhase

namespace JudgeCall

/-- The next slot, if the budget has one. -/
def nextSlot (c : JudgeCall) (n : ℕ) (stale : Option SemJudgeRecord) : JudgePhase :=
  if n < c.request.max then .slot n stale else .ended (.skipped .budget)

/-- What follows from what is found under the key. -/
def found (c : JudgeCall) (cached : Option SemJudgeRecord) : JudgePhase :=
  match cached with
  | some r =>
    if r.toJudgeStamp = c.request.stamp then .ended (.verdict r.verdict true 0 false)
    else if c.request.tooLong then .ended (.skipped .canonicalTooLong)
    else c.nextSlot 0 (some r)
  | none => if c.request.tooLong then .ended (.skipped .canonicalTooLong) else c.nextSlot 0 none

/-- What follows from what the model answers. -/
def answered (toUpperCase : JsString → JsString) (c : JudgeCall) (stale : Option SemJudgeRecord)
    (reply : JudgeReply) (latencyMs : ℤ) : JudgeCall :=
  match reply with
  | .timeout => { c with phase := .ended (.skipped .timeout) }
  | .error => { c with phase := .ended (.skipped .error) }
  | .text raw =>
    match parseJudgeVerdict toUpperCase raw with
    | none => { c with phase := .ended (.skipped .parseFail) }
    | some v => { c with answer := some v, phase := .writing stale ⟨v, latencyMs⟩ }

/-- What a call that has lost reports, by what is there now. -/
def served (stale : Option SemJudgeRecord) (judged : Judged) : Option SemJudgeRecord → JudgeOutcome
  | some winner => .verdict winner.verdict true judged.latencyMs false
  | none => .verdict judged.verdict false judged.latencyMs stale.isSome

end JudgeCall

/-! ## Steps -/

structure JudgeState where
  /-- The verdicts of the journal. -/
  records : JsString → Option SemJudgeRecord
  /-- The keys of the slots that have been claimed. -/
  slots : List JsString
  calls : List JudgeCall

/-- What happens. -/
inductive JudgeEvent where
  | begin (request : JudgeRequest)
  | read (n : ℕ)
  /-- The call tries to claim a slot. -/
  | slot (n : ℕ)
  /-- `complete()` is called. -/
  | ask (n : ℕ)
  | answer (n : ℕ) (reply : JudgeReply) (latencyMs : ℤ)
  /-- The record is written, if the journal holds what was read. -/
  | write (n : ℕ) (now : ℤ)
  | reread (n : ℕ)
  | crash (n : ℕ)

namespace JudgeState

def init : JudgeState := ⟨fun _ => none, [], []⟩

/-- The call becomes another one. -/
def become (s : JudgeState) (n : ℕ) (c : JudgeCall) : JudgeState :=
  { s with calls := s.calls.set n c }

/-- What an event does, if it can happen. -/
def step (toUpperCase : JsString → JsString) (s : JudgeState) : JudgeEvent → Option JudgeState
  | .begin request =>
    match h : request.key with
    | .error _ => none
    | .ok key => some { s with calls := s.calls ++ [⟨request, key, h, none, false, none, .reading⟩] }
  | .read n => s.calls[n]?.bind fun c => match c.phase with
    | .reading => some (s.become n { c with phase := c.found (s.records c.key) })
    | _ => none
  | .slot n => s.calls[n]?.bind fun c => match c.phase with
    | .slot k stale =>
      let slotKey := c.request.slotKey k
      some (if slotKey ∈ s.slots then s.become n { c with phase := c.nextSlot (k + 1) stale }
        else { s.become n { c with held := some slotKey, phase := .asking stale } with
          slots := slotKey :: s.slots })
    | _ => none
  | .ask n => s.calls[n]?.bind fun c => match c.phase with
    | .asking stale => some (s.become n { c with invoked := true, phase := .asked stale })
    | _ => none
  | .answer n reply latencyMs => s.calls[n]?.bind fun c => match c.phase with
    | .asked stale => some (s.become n (c.answered toUpperCase stale reply latencyMs))
    | _ => none
  | .write n now => s.calls[n]?.bind fun c => match c.phase with
    | .writing stale judged =>
      -- `putIfMatch` on what was read, or `claim`: both ask that the journal holds it still.
      some (if s.records c.key = stale then
        let outcome := .verdict judged.verdict false judged.latencyMs stale.isSome
        { s.become n { c with phase := .ended outcome } with
          records := Function.update s.records c.key (some (c.request.record judged.verdict now)) }
      else s.become n { c with phase := .lost stale judged })
    | _ => none
  | .reread n => s.calls[n]?.bind fun c => match c.phase with
    | .lost stale judged =>
      some (s.become n { c with phase := .ended (JudgeCall.served stale judged (s.records c.key)) })
    | _ => none
  | .crash n => s.calls[n]?.bind fun c => match c.phase with
    | .ended _ => none
    | _ => some (s.become n { c with phase := .crashed })

def run (toUpperCase : JsString → JsString) (s : JudgeState) : List JudgeEvent → Option JudgeState
  | [] => some s
  | e :: events => (s.step toUpperCase e).bind (·.run toUpperCase events)

/-- How often the run has asked. -/
def invocations (s : JudgeState) (runId : JsString) : ℕ :=
  s.calls.countP fun c => c.invoked ∧ c.request.runId = runId

/-- The model has given the verdict on the pair, asked with the stamp. -/
def Produced (s : JudgeState) (key : JsString) (stamp : JudgeStamp) (v : JudgeVerdict) : Prop :=
  ∃ c ∈ s.calls, c.key = key ∧ c.request.stamp = stamp ∧ c.invoked = true ∧ c.answer = some v

/-- The call has returned the verdict. -/
def Returned (c : JudgeCall) (v : JudgeVerdict) : Prop :=
  ∃ cached latencyMs staleReplaced, c.phase = .ended (.verdict v cached latencyMs staleReplaced)

/-- A call that has lost finds its own stamp. -/
def Agrees (s : JudgeState) : JudgeEvent → Prop
  | .reread n => ∀ c, s.calls[n]? = some c → ∀ winner, s.records c.key = some winner →
    winner.toJudgeStamp = c.request.stamp
  | _ => True

/-- Every step of the run is of a kind. -/
def Along (toUpperCase : JsString → JsString) (P : JudgeState → JudgeEvent → Prop) (s : JudgeState) :
    List JudgeEvent → Prop
  | [] => True
  | e :: events => P s e ∧ ∀ s', s.step toUpperCase e = some s' → s'.Along toUpperCase P events

/-- The writes to the key are those of one stamp. -/
def Undisturbed (key : JsString) (stamp : JudgeStamp) (s : JudgeState) : JudgeEvent → Prop
  | .write n _ => ∀ c, s.calls[n]? = some c → c.key = key → c.request.stamp = stamp
  | _ => True

variable {toUpperCase : JsString → JsString} {s t : JudgeState} {n : ℕ} {e : JudgeEvent}

/-- A call goes on, and the journal stays what it is. -/
inductive Advance (toUpperCase : JsString → JsString) (s : JudgeState) (n : ℕ) (c : JudgeCall) :
    JudgeEvent → JudgeCall → Prop
  | read : c.phase = .reading →
      Advance toUpperCase s n c (.read n) { c with phase := c.found (s.records c.key) }
  | taken {k stale} : c.phase = .slot k stale → c.request.slotKey k ∈ s.slots →
      Advance toUpperCase s n c (.slot n) { c with phase := c.nextSlot (k + 1) stale }
  | ask {stale} : c.phase = .asking stale →
      Advance toUpperCase s n c (.ask n) { c with invoked := true, phase := .asked stale }
  | answer {stale reply latencyMs} : c.phase = .asked stale →
      Advance toUpperCase s n c (.answer n reply latencyMs)
        (c.answered toUpperCase stale reply latencyMs)
  | refused {stale judged now} : c.phase = .writing stale judged → s.records c.key ≠ stale →
      Advance toUpperCase s n c (.write n now) { c with phase := .lost stale judged }
  | reread {stale judged} : c.phase = .lost stale judged →
      Advance toUpperCase s n c (.reread n)
        { c with phase := .ended (JudgeCall.served stale judged (s.records c.key)) }
  | crash : Advance toUpperCase s n c (.crash n) { c with phase := .crashed }

/-- What an event can do. -/
inductive Next (toUpperCase : JsString → JsString) (s : JudgeState) : JudgeEvent → JudgeState → Prop
  | begin {request key} (h : request.key = .ok key) : Next toUpperCase s (.begin request)
      { s with calls := s.calls ++ [⟨request, key, h, none, false, none, .reading⟩] }
  | advance {n c c' e} : s.calls[n]? = some c → Advance toUpperCase s n c e c' →
      Next toUpperCase s e (s.become n c')
  | claimed {n c k stale} : s.calls[n]? = some c → c.phase = .slot k stale →
      c.request.slotKey k ∉ s.slots → Next toUpperCase s (.slot n)
        { s.become n { c with held := some (c.request.slotKey k), phase := .asking stale } with
          slots := c.request.slotKey k :: s.slots }
  | wrote {n c now stale judged} : s.calls[n]? = some c → c.phase = .writing stale judged →
      s.records c.key = stale → Next toUpperCase s (.write n now)
        { s.become n { c with
            phase := .ended (.verdict judged.verdict false judged.latencyMs stale.isSome) } with
          records := Function.update s.records c.key (some (c.request.record judged.verdict now)) }

theorem step_next (h : s.step toUpperCase e = some t) : s.Next toUpperCase e t := by
  cases e with
  | begin request =>
    rw [step] at h
    split at h
    · contradiction
    · next key hkey =>
      obtain rfl := Option.some.inj h
      exact .begin hkey
  | read n =>
    obtain ⟨c, hc, h⟩ := Option.bind_eq_some_iff.1 h
    split at h
    · next hphase =>
      obtain rfl := Option.some.inj h
      exact .advance hc (.read hphase)
    · contradiction
  | slot n =>
    obtain ⟨c, hc, h⟩ := Option.bind_eq_some_iff.1 h
    split at h
    · next k stale hphase =>
      obtain rfl := Option.some.inj h
      split
      · next htaken => exact .advance hc (.taken hphase htaken)
      · next hfree => exact .claimed hc hphase hfree
    · contradiction
  | ask n =>
    obtain ⟨c, hc, h⟩ := Option.bind_eq_some_iff.1 h
    split at h
    · next hphase =>
      obtain rfl := Option.some.inj h
      exact .advance hc (.ask hphase)
    · contradiction
  | answer n reply latencyMs =>
    obtain ⟨c, hc, h⟩ := Option.bind_eq_some_iff.1 h
    split at h
    · next hphase =>
      obtain rfl := Option.some.inj h
      exact .advance hc (.answer hphase)
    · contradiction
  | write n now =>
    obtain ⟨c, hc, h⟩ := Option.bind_eq_some_iff.1 h
    split at h
    · next stale judged hphase =>
      obtain rfl := Option.some.inj h
      split
      · next hstill => exact .wrote hc hphase hstill
      · next hchanged => exact .advance hc (.refused hphase hchanged)
    · contradiction
  | reread n =>
    obtain ⟨c, hc, h⟩ := Option.bind_eq_some_iff.1 h
    split at h
    · next hphase =>
      obtain rfl := Option.some.inj h
      exact .advance hc (.reread hphase)
    · contradiction
  | crash n =>
    obtain ⟨c, hc, h⟩ := Option.bind_eq_some_iff.1 h
    split at h
    · contradiction
    · obtain rfl := Option.some.inj h
      exact .advance hc .crash

end JudgeState

end Gnldev.Durable.Semantic
