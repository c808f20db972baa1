import Gnldev.Durable.Turn

/-!
# Where the turn is in what the model sees

The messages of a turn are put behind the loaded history, and then input processors may rewrite the
whole array. What memory stores of the turn is read back out of what they return, so that their
redactions are stored, too. So the span of the turn is carried across every processor (`run.ts`).

A message is an object, and a processor may pass it on, rebuild it, or drop it. The start of the
span is found by the objects of the turn and of the history that are still there, and else by their
JSON (`trackIncomingBoundary`); its end by the last message of the turn (`trackTurnEnd`). A span
that comes out too narrow is refused if a message of the turn is seen outside it
(`trackIncomingSpan`). A turn whose span is lost is not stored, and that is reported
(`reconcileProcessedIncoming`).
-/

namespace Gnldev.Durable

/-- From where to where the turn goes; the end is one past its last message. -/
structure IncomingSpan where
  start : ℕ
  stop : ℕ
  deriving DecidableEq

/-- The span as far as it is known: it may be lost, or the turn may be the prompt. -/
inductive Tracked where
  | span (s : IncomingSpan)
  | boundaryLost
  | promptIsTurn
  deriving DecidableEq

inductive IncomingLossReason where
  | messagesDropped | boundaryLost | turnDropped
  deriving DecidableEq

section Tracking

variable {Msg : Type} [DecidableEq Msg] (S : TurnSetting Msg) (role : Msg → Option JsString)

/-- The last index from `min` on where the message is as asked. -/
def lastIndexWhere (p : Msg → Bool) (after : List Msg) (min : ℕ) : Option ℕ :=
  ((List.range after.length).filter fun i => min ≤ i ∧ (after[i]?).any p).getLast?

def lastIndexByShape (after : List Msg) (want : JsString) (min : ℕ) : Option ℕ :=
  lastIndexWhere (S.stringify · = want) after min

def lastIndexByIdentity (after : List Msg) (want : Msg) (min : ℕ) : Option ℕ :=
  lastIndexWhere (· = want) after min

/-- `after.indexOf(m)`. -/
def indexOf (after : List Msg) (m : Msg) : Option ℕ := after.findIdx? (· = m)

/-- The messages of the turn, and what stands in front of them. -/
def turnRows (before : List Msg) (span : IncomingSpan) : List Msg :=
  (before.take span.stop).drop span.start

def frontRows (before : List Msg) (span : IncomingSpan) : List Msg := before.take span.start

/-- The count and the roles are as before. -/
def sameLayout (before after : List Msg) : Prop := before.map role = after.map role

instance (before after : List Msg) : Decidable (sameLayout role before after) :=
  inferInstanceAs (Decidable (_ = _))

/-- The earliest index of a message of the turn that is still there. -/
def firstCaller (before after : List Msg) (span : IncomingSpan) : Option ℕ :=
  ((turnRows before span).filterMap (indexOf after)).min?

/-- One past the last message in front of the turn that is still there. -/
def histFloor (before after : List Msg) (span : IncomingSpan) : Option ℕ :=
  ((frontRows before span).reverse.findSome? (indexOf after)).map (· + 1)

/-- The start of the turn in what a processor returns, or nothing if it is lost. -/
def trackIncomingBoundary (before after : List Msg) (span : IncomingSpan) : Option ℕ :=
  if sameLayout role before after then some span.start
  else
    match firstCaller before after span, histFloor before after span with
    | some firstCaller, some histFloor => some (max firstCaller histFloor)
    | some firstCaller, none => some firstCaller
    | none, some histFloor => some histFloor
    | none, none =>
      if span.start = 0 then some 0
      else
        match before[span.start]?.bind fun m => lastIndexByShape S after (S.stringify m) 0 with
        | some at_ => some at_
        | none =>
          ((frontRows before span).reverse.findSome? fun m =>
            lastIndexByShape S after (S.stringify m) 0).map (· + 1)

/-- The end of the turn in what a processor returns. -/
def trackTurnEnd (before after : List Msg) (span : IncomingSpan) (start : ℕ) : ℕ :=
  if sameLayout role before after then min span.stop after.length
  else
    match if span.stop = 0 then none else before[span.stop - 1]? with
    | none => after.length
    | some lastIncoming =>
      match (lastIndexByIdentity after lastIncoming start).or
        (lastIndexByShape S after (S.stringify lastIncoming) start) with
      | none => after.length
      | some at_ =>
        if (at_ + 1 : ℤ) - start < (span.stop : ℤ) - span.start then after.length else at_ + 1

/-- The message, or every copy of it, is outside the span. -/
def rowOutsideSpan (after : List Msg) (start stop : ℕ) (row : Msg) : Bool :=
  match indexOf after row with
  | some at_ => at_ < start || stop ≤ at_
  | none =>
    let copies := (List.range after.length).filter fun k =>
      (after[k]?).any (S.stringify · = S.stringify row)
    copies ≠ [] && copies.all fun k => !(start ≤ k && k < stop)

def callerRowOutsideSpan (before after : List Msg) (span : IncomingSpan) (start stop : ℕ) : Bool :=
  (turnRows before span).any (rowOutsideSpan S after start stop)

/-- A message in front of the turn is still there, behind where the turn has begun. -/
def historyInside (before after : List Msg) (span : IncomingSpan) : Bool :=
  (frontRows before span).any fun m => (indexOf after m).any (span.start ≤ ·)

/-- The span across one processor. -/
def trackIncomingSpan (before after : List Msg) : Tracked → Tracked
  | .span span =>
    match trackIncomingBoundary S role before after span with
    | none => .boundaryLost
    | some start =>
      let stop := trackTurnEnd S role before after span start
      let width : ℤ := (span.stop : ℤ) - span.start
      if stop = start ∨ width ≤ (stop : ℤ) - start then .span ⟨start, stop⟩
      else if !callerRowOutsideSpan S before after span start stop then .span ⟨start, stop⟩
      else if after.length = before.length ∧ width ≤ (after.length : ℤ) - span.start ∧
          !historyInside before after span then
        .span ⟨span.start, after.length⟩
      else .boundaryLost
  | tracked => tracked

/-- What the processors return, one after the other, and the span in it. -/
def applyInputProcessors (messages : List Msg) (tracked : Tracked) :
    List (List Msg → List Msg) → List Msg × Tracked
  | [] => (messages, tracked)
  | p :: processors =>
    applyInputProcessors (p messages) (trackIncomingSpan S role messages (p messages) tracked)
      processors

/-- The span before the processors. -/
def incomingSpan (messages : List Msg) (historyCount : ℕ) : IncomingSpan :=
  ⟨historyCount, messages.length⟩

/-! ## What is stored -/

/-- What is known of the turn after the processors. -/
structure Reconciled (Msg : Type) where
  incoming : List Msg
  trailing : ℕ
  alreadyStored : Bool
  lost : Option IncomingLossReason := none
  dedupedByShape : Bool := false
  chainAppended : ℕ := 0
  chainInserted : ℕ := 0
  /-- The messages that go to the model. -/
  messages : Option (List Msg)

/-- Read the turn out of what the processors have returned; `promptTurn` is the prompt, as a
    message. -/
def reconcileProcessedIncoming (messages : Option (List Msg)) (promptTurn : Msg) (tracked : Tracked)
    (incoming loadedHistory : List Msg) : Reconciled Msg :=
  if incoming = [] then
    { incoming, trailing := 0, alreadyStored := false, messages }
  else
    match messages, tracked with
    | none, .promptIsTurn =>
      { incoming := [promptTurn], trailing := 1, alreadyStored := false, messages }
    | none, _ =>
      { incoming := [], trailing := 0, alreadyStored := false
        lost := some .messagesDropped, messages }
    | some msgs, .span span =>
      let at_ := min span.start msgs.length
      let endAt := min (max span.stop at_) msgs.length
      let history := msgs.take at_
      let next := (msgs.take endAt).drop at_
      let chainInserted := next.length - incoming.length
      if next = [] then
        { incoming := next, trailing := msgs.length - at_, alreadyStored := false
          lost := some .turnDropped, messages }
      else if historyEndsWithIncoming S history next ∧
          historyEndsWithIncoming S loadedHistory next then
        { incoming := next, trailing := next.length, alreadyStored := true, dedupedByShape := true
          chainInserted, messages := some history }
      else
        { incoming := next, trailing := msgs.length - at_, alreadyStored := false
          chainAppended := msgs.length - endAt, chainInserted, messages }
    | some _, _ =>
      { incoming := [], trailing := 0, alreadyStored := false, lost := some .boundaryLost, messages }

end Tracking

end Gnldev.Durable
