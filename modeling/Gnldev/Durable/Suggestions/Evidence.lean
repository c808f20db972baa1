import Gnldev.Durable.Suggestions

/-!
# What becomes of a suggestion

A run that has ended learns at most once (`generateFor`): a memo is claimed before the model is asked.
What it learns is a new suggestion, or evidence for one that says the same; evidence of a run that was
told the lesson of that very suggestion is tainted. Evidence and status are written to one record, by
comparing and setting, and a third attempt that fails is the last.

* `LearnState.step`: any number of calls that learn and decide on the suggestions;
* `suggestions_kept`: decisions agree and lessons are approved; and what a call reports is so, as long
  as no third attempt fails.
-/

open List

namespace Gnldev.Durable.Suggestions

open Function

def RULE_MAX_CHARS : ℕ := 400

/-- What the model answers, when it can be read. -/
structure LearnJson where
  found : Bool
  rule : JsString
  mechanism : JsString

def LearnJson.valid (a : LearnJson) : Prop :=
  a.found = true ∧ a.rule ≠ [] ∧ a.mechanism ≠ [] ∧ a.rule.length ≤ RULE_MAX_CHARS

instance (a : LearnJson) : Decidable a.valid :=
  inferInstanceAs (Decidable (_ ∧ _ ∧ _ ∧ _))

/-- The value under `<runId>:sugg:gen`. -/
structure GenMemo where
  suggId : Option SuggId
  merged : Bool

/-- What `generateFor` returns. -/
def GenMemo.result (m : GenMemo) : Option (SuggId × Bool) := m.suggId.map fun id => (id, m.merged)

structure LearnInput where
  runId : JsString
  resourceId : ResourceId
  threadId : Option JsString

/-- What has been found out so far. -/
structure Draft where
  rule : JsString
  mechanism : JsString
  influencedBy : List SuggId
  injectedRules : List JsString
  shadowed : Bool
  at_ : ℕ

/-- The run was told this lesson. -/
def Draft.influenced (draft : Draft) (l : LessonRecord) : Draft :=
  { draft with
    influencedBy := l.fromSuggestion :: draft.influencedBy
    injectedRules := draft.injectedRules ++ [l.rule] }

def Draft.timed (draft : Draft) (shadowed : Bool) (now : ℕ) : Draft :=
  { draft with shadowed := draft.injectedRules ≠ [] ∧ shadowed, at_ := now }

/-- The run has given evidence already. -/
def SuggestionRecord.testified (r : SuggestionRecord) (runId : JsString) : Bool :=
  r.evidence.any (·.runId = runId)

def SuggestionRecord.append (r : SuggestionRecord) (e : SuggestionEvidence) : SuggestionRecord :=
  { r with evidence := r.evidence ++ [e] }

/-- How far a call of `generateFor` is. -/
inductive LearnPhase where
  | reading
  | claiming
  /-- The memo has been claimed before. -/
  | lost
  /-- The model is asked. -/
  | generating
  /-- The lessons that the run was told are looked for. -/
  | influence (draft : Draft)
  | tracing (draft : Draft) (todo : List JsString)
  | listing (draft : Draft)
  /-- These suggestions are still to be read. -/
  | scanning (draft : Draft) (todo : List SuggId) (existing : List SuggestionRecord)
  | matching (draft : Draft) (existing : List SuggestionRecord)
  | birthing (draft : Draft)
  /-- The record is to be read; so many attempts have failed. -/
  | merging (target : SuggId) (entry : SuggestionEvidence) (attempt : ℕ)
  /-- The record is to be set, if it is what was read. -/
  | comparing (target : SuggId) (entry : SuggestionEvidence) (attempt : ℕ) (read : SuggestionRecord)
  | memoing (id : SuggId) (merged : Bool)
  | forgetting
  | ended (result : Option (SuggId × Bool))
  | crashed

structure LearnCall where
  input : LearnInput
  phase : LearnPhase

/-- What the call is told from outside: by the model, the clock, the embedder. -/
inductive LearnAnswer where
  | nothing
  | lesson (answer : Option LearnJson)
  /-- Whether the rule is the shadow of one that was injected. -/
  | shadow (shadowed : Bool) (now : ℕ)
  /-- Which suggestion says the same. -/
  | matched (i : Option ℕ)
  /-- A UUID, and the vector. -/
  | fresh (id : SuggId) (vecB64 embedModelId : Option JsString)

namespace LearnCall

/-- A lesson that is not valid is none. -/
def draftOf (a : LearnJson) : LearnPhase :=
  if a.valid then
    .influence
      { rule := a.rule, mechanism := a.mechanism, influencedBy := [], injectedRules := []
        shadowed := false, at_ := 0 }
  else .forgetting

/-- When all that the run was told is traced, the suggestions are listed. -/
def trace (draft : Draft) : List JsString → LearnPhase
  | [] => .listing draft
  | k :: todo => .tracing draft (k :: todo)

def scan (draft : Draft) (existing : List SuggestionRecord) : List SuggId → LearnPhase
  | [] => .matching draft existing
  | id :: todo => .scanning draft (id :: todo) existing

/-- The evidence of the run for a suggestion. -/
def entry (c : LearnCall) (draft : Draft) (target : SuggId) : SuggestionEvidence where
  runId := c.input.runId
  sourceSuggestionId := none
  resourceId := some c.input.resourceId
  threadId := c.input.threadId
  at_ := draft.at_
  tainted := target ∈ draft.influencedBy ∨ draft.shadowed

/-- The suggestion that is born. -/
def suggestion (c : LearnCall) (draft : Draft) (id : SuggId) (vecB64 embedModelId : Option JsString) :
    SuggestionRecord where
  id := id
  owner := .personal c.input.resourceId
  status := .pending
  rule := draft.rule
  mechanism := draft.mechanism
  vecB64 := vecB64
  embedModelId := embedModelId
  evidence := [{ runId := c.input.runId, sourceSuggestionId := none
                 resourceId := some c.input.resourceId, threadId := c.input.threadId
                 at_ := draft.at_, tainted := draft.shadowed }]
  at_ := draft.at_
  decidedAt := none
  decidedBy := none

/-- The suggestions of the resource that have not been rejected. -/
def mayMatch (c : LearnCall) (r : SuggestionRecord) : Prop :=
  r.owner = .personal c.input.resourceId ∧ r.status ≠ .rejected

instance (c : LearnCall) (r : SuggestionRecord) : Decidable (c.mayMatch r) :=
  inferInstanceAs (Decidable (_ ∧ _))

/-- The call in another phase. -/
def moved (c : LearnCall) (phase : LearnPhase) : LearnCall := { c with phase := phase }

/-- The next operation of a call, by the memo of its run and what the run was told. -/
def step (j : SuggJournal) (memo : Option GenMemo) (told : Option (List JsString)) (c : LearnCall)
    (answer : LearnAnswer) : Option (SuggJournal × Option GenMemo × LearnCall) :=
  match c.phase, answer with
  | .reading, _ => match memo with
    | some m => some (j, memo, c.moved (.ended m.result))
    | none => some (j, memo, c.moved .claiming)
  | .claiming, _ => match memo with
    | some _ => some (j, memo, c.moved .lost)
    | none => some (j, some ⟨none, false⟩, c.moved .generating)
  | .lost, _ => some (j, memo, c.moved (.ended (memo.bind GenMemo.result)))
  | .generating, .lesson (some a) => some (j, memo, c.moved (draftOf a))
  | .generating, .lesson none => some (j, memo, c.moved .forgetting)
  | .influence draft, _ => some (j, memo, c.moved (trace draft (told.getD [])))
  | .tracing draft [], _ => some (j, memo, c.moved (trace draft []))
  | .tracing draft (k :: todo), _ => match j.lessons.get k with
    | some l => some (j, memo, c.moved (trace (draft.influenced l) todo))
    | none => some (j, memo, c.moved (trace draft todo))
  | .listing draft, .shadow shadowed now =>
    some (j, memo, c.moved (scan (draft.timed shadowed now) [] (j.suggestions.entries.map Prod.fst)))
  | .scanning draft [] existing, _ => some (j, memo, c.moved (scan draft existing []))
  | .scanning draft (id :: todo) existing, _ => match j.suggestions.get id with
    | some r =>
      if c.mayMatch r then some (j, memo, c.moved (scan draft (existing ++ [r]) todo))
      else some (j, memo, c.moved (scan draft existing todo))
    | none => some (j, memo, c.moved (scan draft existing todo))
  | .matching draft existing, .matched (some i) => existing[i]?.map fun target =>
    (j, memo, c.moved (.merging target.id (c.entry draft target.id) 0))
  | .matching draft _, .matched none => some (j, memo, c.moved (.birthing draft))
  | .birthing draft, .fresh id vecB64 embedModelId => match j.suggestions.get id with
    | some _ => none
    | none =>
      let r := c.suggestion draft id vecB64 embedModelId
      some ({ j with suggestions := j.suggestions.put id r }, memo, c.moved (.memoing id false))
  | .merging target entry attempt, _ => match j.suggestions.get target with
    | none => some (j, memo, c.moved (.memoing target true))
    | some read =>
      if read.testified c.input.runId then some (j, memo, c.moved (.memoing target true))
      else some (j, memo, c.moved (.comparing target entry attempt read))
  | .comparing target entry attempt read, _ =>
    if j.suggestions.get target = some read then
      some ({ j with suggestions := j.suggestions.put target (read.append entry) }, memo,
        c.moved (.memoing target true))
    else if attempt < 2 then some (j, memo, c.moved (.merging target entry (attempt + 1)))
    else some (j, memo, c.moved (.memoing target true))
  | .memoing id merged, _ =>
    some (j, some ⟨some id, merged⟩, c.moved (.ended (some (id, merged))))
  | .forgetting, _ => some (j, some ⟨none, false⟩, c.moved (.ended none))
  | _, _ => none

end LearnCall

/-! ## Steps -/

structure LearnState where
  journal : SuggJournal
  /-- The keys of the lessons that a run was told. -/
  told : JsString → Option (List JsString)
  memos : JsString → Option GenMemo
  decides : List DecideCall
  learns : List LearnCall

/-- What happens. -/
inductive LearnEvent where
  /-- A suggestion for all is made of what several have approved. -/
  | promote (r : SuggestionRecord)
  /-- A run is told lessons, before it learns. -/
  | tell (runId : JsString) (keys : List JsString)
  | decide (id : SuggId) (decision : Decision)
  | learn (input : LearnInput)
  /-- The next operation of a call. -/
  | decideStep (n : ℕ)
  | learnStep (n : ℕ) (answer : LearnAnswer)
  | decideCrash (n : ℕ)
  | learnCrash (n : ℕ)

namespace LearnState

def init : LearnState := ⟨.empty, fun _ => none, fun _ => none, [], []⟩

/-- What an event does, if it can happen. -/
def step (s : LearnState) : LearnEvent → Option LearnState
  | .promote r => match s.journal.suggestions.get r.id, r.owner, r.status with
    | none, .org, .pending => some { s with journal := { s.journal with
        suggestions := s.journal.suggestions.put r.id r } }
    | _, _, _ => none
  | .tell runId keys =>
    if s.told runId = none ∧ (∀ c ∈ s.learns, c.input.runId ≠ runId) ∧
        ∀ k ∈ keys, (s.journal.lessons.get k).isSome then
      some { s with told := update s.told runId (some keys) }
    else none
  | .decide id decision => some { s with decides := s.decides ++ [⟨id, decision, .reading⟩] }
  | .learn input => some { s with learns := s.learns ++ [⟨input, .reading⟩] }
  | .decideStep n => s.decides[n]?.bind fun c => (c.step s.journal).map fun (j, c') =>
    { s with journal := j, decides := s.decides.set n c' }
  | .learnStep n answer => s.learns[n]?.bind fun c =>
    (c.step s.journal (s.memos c.input.runId) (s.told c.input.runId) answer).map fun (j, memo, c') =>
      { s with
        journal := j
        memos := update s.memos c.input.runId memo
        learns := s.learns.set n c' }
  | .decideCrash n => s.decides[n]?.bind fun c => match c.phase with
    | .ended _ => none
    | _ => some { s with decides := s.decides.set n { c with phase := .crashed } }
  | .learnCrash n => s.learns[n]?.bind fun c => match c.phase with
    | .ended _ => none
    | _ => some { s with learns := s.learns.set n { c with phase := .crashed } }

def run (s : LearnState) : List LearnEvent → Option LearnState
  | [] => some s
  | e :: events => (s.step e).bind (·.run events)

/-- The third attempt to set a record finds what was read, or the status that it is to set. -/
def Agrees (s : LearnState) : LearnEvent → Prop
  | .decideStep n => ∀ c, s.decides[n]? = some c → ∀ d attempt read,
    c.phase = .comparing d attempt read → 2 ≤ attempt →
    ∃ r, s.journal.suggestions.get c.id = some r ∧ (r = read ∨ r.status = d.status)
  | .learnStep n _ => ∀ c, s.learns[n]? = some c → ∀ target entry attempt read,
    c.phase = .comparing target entry attempt read → 2 ≤ attempt →
    s.journal.suggestions.get target = some read
  | _ => True

/-- Every step of the run agrees. -/
def AllAgree (s : LearnState) : List LearnEvent → Prop
  | [] => True
  | e :: events => s.Agrees e ∧ ∀ s', s.step e = some s' → s'.AllAgree events

end LearnState

/-! ## What an operation can do -/

variable {j j' : SuggJournal} {memo memo' : Option GenMemo} {told : Option (List JsString)}
  {c c' : LearnCall} {answer : LearnAnswer}

namespace LearnCall

inductive Next (j : SuggJournal) (memo : Option GenMemo) (told : Option (List JsString))
    (c : LearnCall) : SuggJournal → Option GenMemo → LearnCall → Prop
  | known {m} : memo = some m → Next j memo told c j memo (c.moved (.ended m.result))
  | unknown : memo = none → Next j memo told c j memo (c.moved .claiming)
  | lost : Next j memo told c j memo (c.moved .lost)
  | claimed : memo = none → Next j memo told c j (some ⟨none, false⟩) (c.moved .generating)
  | reread : Next j memo told c j memo (c.moved (.ended (memo.bind GenMemo.result)))
  | drafted {a} : Next j memo told c j memo (c.moved (draftOf a))
  | failed : Next j memo told c j memo (c.moved .forgetting)
  | influence {draft} : c.phase = .influence draft →
      Next j memo told c j memo (c.moved (trace draft (told.getD [])))
  | traced {draft} : c.phase = .tracing draft [] →
      Next j memo told c j memo (c.moved (trace draft []))
  | found {draft k todo l} : c.phase = .tracing draft (k :: todo) → j.lessons.get k = some l →
      Next j memo told c j memo (c.moved (trace (draft.influenced l) todo))
  | absent {draft k todo} : c.phase = .tracing draft (k :: todo) → j.lessons.get k = none →
      Next j memo told c j memo (c.moved (trace draft todo))
  | listed {draft shadowed now} : c.phase = .listing draft → Next j memo told c j memo
      (c.moved (scan (draft.timed shadowed now) [] (j.suggestions.entries.map Prod.fst)))
  | scanned {draft existing} : c.phase = .scanning draft [] existing →
      Next j memo told c j memo (c.moved (scan draft existing []))
  | may {draft id todo existing r} : c.phase = .scanning draft (id :: todo) existing →
      j.suggestions.get id = some r → c.mayMatch r →
      Next j memo told c j memo (c.moved (scan draft (existing ++ [r]) todo))
  | other {draft id todo existing} : c.phase = .scanning draft (id :: todo) existing →
      Next j memo told c j memo (c.moved (scan draft existing todo))
  | matched {draft existing target} : c.phase = .matching draft existing → target ∈ existing →
      Next j memo told c j memo (c.moved (.merging target.id (c.entry draft target.id) 0))
  | unmatched {draft} : Next j memo told c j memo (c.moved (.birthing draft))
  | born {draft id vecB64 embedModelId} : c.phase = .birthing draft → j.suggestions.get id = none →
      Next j memo told c { j with
        suggestions := j.suggestions.put id (c.suggestion draft id vecB64 embedModelId) } memo
        (c.moved (.memoing id false))
  | gone {target entry attempt} : c.phase = .merging target entry attempt →
      j.suggestions.get target = none → Next j memo told c j memo (c.moved (.memoing target true))
  | already {target entry attempt read} : c.phase = .merging target entry attempt →
      j.suggestions.get target = some read → read.testified c.input.runId = true →
      Next j memo told c j memo (c.moved (.memoing target true))
  | read {target entry attempt read} : c.phase = .merging target entry attempt →
      read.testified c.input.runId = false →
      Next j memo told c j memo (c.moved (.comparing target entry attempt read))
  | merged {target entry attempt read} : c.phase = .comparing target entry attempt read →
      j.suggestions.get target = some read → Next j memo told c { j with
        suggestions := j.suggestions.put target (read.append entry) } memo
        (c.moved (.memoing target true))
  | again {target entry attempt read} : c.phase = .comparing target entry attempt read →
      Next j memo told c j memo (c.moved (.merging target entry (attempt + 1)))
  | exhausted {target entry attempt read} : c.phase = .comparing target entry attempt read →
      2 ≤ attempt → j.suggestions.get target ≠ some read →
      Next j memo told c j memo (c.moved (.memoing target true))
  | memoed {id merged} : c.phase = .memoing id merged →
      Next j memo told c j (some ⟨some id, merged⟩) (c.moved (.ended (some (id, merged))))
  | forgotten : Next j memo told c j (some ⟨none, false⟩) (c.moved (.ended none))

theorem step_next (h : c.step j memo told answer = some (j', memo', c')) :
    Next j memo told c j' memo' c' := by
  rw [step.eq_def] at h
  split at h
  · split at h
    · obtain ⟨⟩ := h
      exact .known rfl
    · obtain ⟨⟩ := h
      exact .unknown rfl
  · split at h
    · obtain ⟨⟩ := h
      exact .lost
    · obtain ⟨⟩ := h
      exact .claimed rfl
  · obtain ⟨⟩ := h
    exact .reread
  · obtain ⟨⟩ := h
    exact .drafted
  · obtain ⟨⟩ := h
    exact .failed
  · next hphase =>
    obtain ⟨⟩ := h
    exact .influence hphase
  · next hphase =>
    obtain ⟨⟩ := h
    exact .traced hphase
  · next hphase =>
    split at h
    · next hl =>
      obtain ⟨⟩ := h
      exact .found hphase hl
    · next hl =>
      obtain ⟨⟩ := h
      exact .absent hphase hl
  · next hphase =>
    obtain ⟨⟩ := h
    exact .listed hphase
  · next hphase =>
    obtain ⟨⟩ := h
    exact .scanned hphase
  · next hphase =>
    split at h
    · next hr =>
      split at h
      · next hmay =>
        obtain ⟨⟩ := h
        exact .may hphase hr hmay
      · obtain ⟨⟩ := h
        exact .other hphase
    · obtain ⟨⟩ := h
      exact .other hphase
  · next hphase =>
    obtain ⟨target, htarget, heq⟩ := Option.map_eq_some_iff.1 h
    obtain ⟨⟩ := heq
    exact .matched hphase (mem_of_getElem? htarget)
  · obtain ⟨⟩ := h
    exact .unmatched
  · next hphase =>
    split at h
    · contradiction
    · next hnone =>
      obtain ⟨⟩ := h
      exact .born hphase hnone
  · next hphase =>
    split at h
    · next hnone =>
      obtain ⟨⟩ := h
      exact .gone hphase hnone
    · next hread =>
      split at h
      · next htestified =>
        obtain ⟨⟩ := h
        exact .already hphase hread htestified
      · next hnot =>
        obtain ⟨⟩ := h
        exact .read hphase (Bool.not_eq_true _ ▸ hnot)
  · next hphase =>
    split at h
    · next hsame =>
      obtain ⟨⟩ := h
      exact .merged hphase hsame
    · next hother =>
      split at h
      · obtain ⟨⟩ := h
        exact .again hphase
      · next hlast =>
        obtain ⟨⟩ := h
        exact .exhausted hphase (Nat.not_lt.1 hlast) hother
  · next hphase =>
    obtain ⟨⟩ := h
    exact .memoed hphase
  · obtain ⟨⟩ := h
    exact .forgotten
  · contradiction

end LearnCall

/-! ## What stays -/

/-- The record has all the evidence, and the status that was decided. -/
structure SuggestionRecord.Follows (d : Option Decision) (r r' : SuggestionRecord) : Prop where
  sameOrigin : r.SameOrigin r'
  evidence : r.evidence ⊆ r'.evidence
  status : ∀ d', d = some d' → r.status = d'.status → r'.status = d'.status

theorem SuggestionRecord.Follows.refl (d : Option Decision) (r : SuggestionRecord) :
    r.Follows d r := ⟨.refl r, fun _ h => h, fun _ _ h => h⟩

/-- What was in the journal is in it still. -/
structure SuggJournal.Keeps (j j' : SuggJournal) : Prop where
  suggestions : ∀ id r, j.suggestions.get id = some r →
    ∃ r', j'.suggestions.get id = some r' ∧ r.Follows (j.decisions id) r'
  decisions : ∀ id d, j.decisions id = some d → j'.decisions id = some d
  lessons : ∀ k l, j.lessons.get k = some l →
    ∃ l', j'.lessons.get k = some l' ∧ l'.fromSuggestion = l.fromSuggestion

namespace SuggJournal.Keeps

theorem refl (j : SuggJournal) : j.Keeps j :=
  ⟨fun _ r h => ⟨r, h, .refl _ r⟩, fun _ _ h => h, fun _ l h => ⟨l, h, rfl⟩⟩

theorem grows (h : j.Keeps j') : j.Grows j' where
  suggestions id r hr := by
    obtain ⟨r', hr', hfollows⟩ := h.suggestions id r hr
    exact ⟨r', hr', hfollows.sameOrigin⟩
  decisions := h.decisions
  lessons := h.lessons

/-- A record takes the place of one that it follows, or of none. -/
theorem put {id : SuggId} {r' : SuggestionRecord}
    (h : ∀ r, j.suggestions.get id = some r → r.Follows (j.decisions id) r') :
    j.Keeps { j with suggestions := j.suggestions.put id r' } where
  suggestions id' r hr := by
    rcases eq_or_ne id' id with rfl | hne
    · exact ⟨r', j.suggestions.get_put_self id' r', h r hr⟩
    · exact ⟨r, (j.suggestions.get_put_of_ne hne r').trans hr, .refl _ r⟩
  decisions _ _ h := h
  lessons _ l h := ⟨l, h, rfl⟩

theorem put_of_none {id : SuggId} {r' : SuggestionRecord} (hnone : j.suggestions.get id = none) :
    j.Keeps { j with suggestions := j.suggestions.put id r' } :=
  put fun _ hr => nomatch hnone.symm.trans hr

end SuggJournal.Keeps

theorem SuggestionRecord.follows_append (d : Option Decision) (r : SuggestionRecord)
    (e : SuggestionEvidence) : r.Follows d (r.append e) :=
  ⟨⟨rfl, rfl, rfl, rfl⟩, subset_append_left _ _, fun _ _ h => h⟩

theorem LearnCall.Next.keeps (h : LearnCall.Next j memo told c j' memo' c') : j.Keeps j' := by
  cases h with
  | born _ hnone => exact .put_of_none hnone
  | @merged target entry attempt read _ hread =>
    refine .put fun r hr => ?_
    obtain rfl := Option.some.inj (hread.symm.trans hr)
    exact read.follows_append _ entry
  | _ => exact .refl j

theorem DecideCall.Next.keeps {c c' : DecideCall} (h : DecideCall.Next j c j' c') (hinv : j.Inv)
    (hphase : DecideCall.InPhase j c.id c.phase) : j.Keeps j' := by
  have hgrows := h.grows hinv
  cases h with
  | claimed => exact ⟨fun _ r h => ⟨r, h, .refl _ r⟩, hgrows.decisions, hgrows.lessons⟩
  | @flipped d attempt read hcomparing hread =>
    rw [hcomparing] at hphase
    refine .put fun r hr => ?_
    obtain rfl := Option.some.inj (hread.symm.trans hr)
    refine ⟨read.sameOrigin_decided d, fun _ h => h, fun d' hd' _ => ?_⟩
    rw [← Option.some.inj (hphase.decision.symm.trans hd')]
    rfl
  | put => exact ⟨fun _ r h => ⟨r, h, .refl _ r⟩, fun _ _ h => h, hgrows.lessons⟩
  | _ => exact .refl j

theorem LearnCall.Next.inv (h : LearnCall.Next j memo told c j' memo' c') (hinv : j.Inv) :
    j'.Inv := by
  have hgrows := h.keeps.grows
  cases h with
  | @born draft id vecB64 embedModelId =>
    exact SuggJournal.Inv.put (r := c.suggestion draft id vecB64 embedModelId) hinv hgrows
  | @merged target entry attempt read _ hread =>
    obtain rfl := hinv.named target read hread
    exact SuggJournal.Inv.put (r := read.append entry) hinv hgrows
  | _ => exact hinv

theorem LearnCall.Next.input (h : LearnCall.Next j memo told c j' memo' c') :
    c'.input = c.input := by
  cases h <;> rfl

/-! ## What is known of a call -/

/-- The run was told a lesson of the suggestion. -/
def InfluencedBy (j : SuggJournal) (told : Option (List JsString)) (id : SuggId) : Prop :=
  ∃ keys, told = some keys ∧ ∃ k ∈ keys, ∃ l, j.lessons.get k = some l ∧ l.fromSuggestion = id

/-- The suggestion is one of a resource, and the run has given evidence for it. -/
def Testified (j : SuggJournal) (runId : JsString) (id : SuggId) : Prop :=
  ∃ r, j.suggestions.get id = some r ∧ (∃ ρ, r.owner = .personal ρ) ∧
    ∃ e ∈ r.evidence, e.runId = runId

/-- The suggestion is one of a resource. -/
def Personal (j : SuggJournal) (id : SuggId) : Prop :=
  ∃ r, j.suggestions.get id = some r ∧ ∃ ρ, r.owner = .personal ρ

/-- What the run was told is to be traced, or has been. -/
def Traced (j : SuggJournal) (told : Option (List JsString)) (draft : Draft) (todo : List JsString) :
    Prop :=
  ∀ keys, told = some keys → ∀ k ∈ keys, k ∈ todo ∨
    ∃ l, j.lessons.get k = some l ∧ l.fromSuggestion ∈ draft.influencedBy

/-- The evidence is that of the run, and tainted if it has to be. -/
structure Fair (j : SuggJournal) (told : Option (List JsString)) (runId : JsString) (id : SuggId)
    (e : SuggestionEvidence) : Prop where
  runId : e.runId = runId
  tainted : InfluencedBy j told id → e.tainted = true

/-- The lessons that the run was told are there. -/
def Present (j : SuggJournal) (told : Option (List JsString)) : Prop :=
  ∀ keys, told = some keys → ∀ k ∈ keys, ∃ l, j.lessons.get k = some l

variable {id : SuggId} {runId : JsString} {draft : Draft} {todo : List JsString}

/-- What is known of a call in a phase. -/
def LearnCall.InPhase (j : SuggJournal) (told : Option (List JsString)) (runId : JsString) :
    LearnPhase → Prop
  | .tracing draft todo => Traced j told draft todo
  | .listing draft => Traced j told draft []
  | .scanning draft _ existing => Traced j told draft [] ∧ ∀ r ∈ existing, Personal j r.id
  | .matching draft existing => Traced j told draft [] ∧ ∀ r ∈ existing, Personal j r.id
  | .merging target entry _ => Personal j target ∧ Fair j told runId target entry
  | .comparing target entry _ read => (Personal j target ∧ Fair j told runId target entry) ∧
    read.testified runId = false
  | .memoing id true => Testified j runId id
  | .ended (some (id, true)) => Testified j runId id
  | _ => True

theorem InfluencedBy.of_grows (h : InfluencedBy j' told id) (hgrows : j.Grows j')
    (htold : Present j told) : InfluencedBy j told id := by
  obtain ⟨keys, hkeys, k, hk, l', hl', rfl⟩ := h
  obtain ⟨l, hl⟩ := htold keys hkeys k hk
  obtain ⟨l'', hl'', hfrom⟩ := hgrows.lessons k l hl
  obtain rfl := Option.some.inj (hl'.symm.trans hl'')
  exact ⟨keys, hkeys, k, hk, l, hl, hfrom.symm⟩

theorem Testified.mono (h : Testified j runId id) (hkeeps : j.Keeps j') : Testified j' runId id := by
  obtain ⟨r, hr, ⟨ρ, howner⟩, e, he, hrun⟩ := h
  obtain ⟨r', hr', hfollows⟩ := hkeeps.suggestions id r hr
  exact ⟨r', hr', ⟨ρ, hfollows.sameOrigin.owner.trans howner⟩, e, hfollows.evidence he, hrun⟩

theorem Personal.mono (h : Personal j id) (hgrows : j.Grows j') : Personal j' id := by
  obtain ⟨r, hr, ρ, howner⟩ := h
  obtain ⟨r', hr', hsame⟩ := hgrows.suggestions id r hr
  exact ⟨r', hr', ρ, hsame.owner.trans howner⟩

theorem Traced.mono (h : Traced j told draft todo) (hgrows : j.Grows j') :
    Traced j' told draft todo := by
  intro keys hkeys k hk
  rcases h keys hkeys k hk with htodo | ⟨l, hl, hmem⟩
  · exact .inl htodo
  · obtain ⟨l', hl', hfrom⟩ := hgrows.lessons k l hl
    exact .inr ⟨l', hl', hfrom ▸ hmem⟩

theorem Fair.mono {e : SuggestionEvidence} (h : Fair j told runId id e) (hgrows : j.Grows j')
    (htold : Present j told) : Fair j' told runId id e :=
  ⟨h.runId, fun hinfluenced => h.tainted (hinfluenced.of_grows hgrows htold)⟩

theorem LearnCall.InPhase.mono {phase : LearnPhase} (h : InPhase j told runId phase)
    (hkeeps : j.Keeps j') (htold : Present j told) : InPhase j' told runId phase := by
  have hgrows := hkeeps.grows
  cases phase with
  | tracing => exact Traced.mono h hgrows
  | listing => exact Traced.mono h hgrows
  | scanning => exact ⟨h.1.mono hgrows, fun r hr => (h.2 r hr).mono hgrows⟩
  | matching => exact ⟨h.1.mono hgrows, fun r hr => (h.2 r hr).mono hgrows⟩
  | merging => exact ⟨h.1.mono hgrows, h.2.mono hgrows htold⟩
  | comparing => exact ⟨⟨h.1.1.mono hgrows, h.1.2.mono hgrows htold⟩, h.2⟩
  | memoing id merged =>
    cases merged with
    | true => exact Testified.mono h hkeeps
    | false => trivial
  | ended result =>
    rcases result with _ | ⟨id, _ | _⟩
    · trivial
    · trivial
    · exact Testified.mono h hkeeps
  | _ => trivial

namespace LearnCall

theorem inPhase_ended {m : GenMemo} (h : ∀ id, m = ⟨some id, true⟩ → Testified j runId id) :
    InPhase j told runId (.ended m.result) := by
  rcases m with ⟨_ | id, _ | _⟩
  · trivial
  · trivial
  · trivial
  · exact h id rfl

theorem inPhase_trace (h : Traced j told draft todo) : InPhase j told runId (trace draft todo) := by
  cases todo with
  | nil => exact h
  | cons k todo => exact h

theorem inPhase_scan {existing : List SuggestionRecord} {todo : List SuggId}
    (h : Traced j told draft []) (hexisting : ∀ r ∈ existing, Personal j r.id) :
    InPhase j told runId (scan draft existing todo) := by
  cases todo with
  | nil => exact ⟨h, hexisting⟩
  | cons id todo => exact ⟨h, hexisting⟩

/-- When all is traced, the suggestions whose lessons the run was told are known. -/
theorem fair_entry (h : Traced j told draft []) (id : SuggId) :
    Fair j told c.input.runId id (c.entry draft id) := by
  refine ⟨rfl, fun ⟨keys, hkeys, k, hk, l, hl, hfrom⟩ => ?_⟩
  rcases h keys hkeys k hk with hnil | ⟨l', hl', hmem⟩
  · exact absurd hnil not_mem_nil
  · obtain rfl := Option.some.inj (hl.symm.trans hl')
    exact decide_eq_true (.inl (hfrom ▸ hmem))

theorem testified_of_mem {r : SuggestionRecord} (h : Personal j id)
    (hr : j.suggestions.get id = some r) (htestified : r.testified runId = true) :
    Testified j runId id := by
  obtain ⟨r', hr', howner⟩ := h
  obtain rfl := Option.some.inj (hr.symm.trans hr')
  obtain ⟨e, he, hrun⟩ := any_eq_true.1 htestified
  exact ⟨r, hr, howner, e, he, of_decide_eq_true hrun⟩

theorem Next.inPhase (h : Next j memo told c j' memo' c') (hinv : j.Inv) (htold : Present j told)
    (hphase : InPhase j told c.input.runId c.phase)
    (hmemo : ∀ id, memo = some ⟨some id, true⟩ → Testified j c.input.runId id)
    (hagrees : ∀ target entry attempt read, c.phase = .comparing target entry attempt read →
      2 ≤ attempt → j.suggestions.get target = some read) :
    InPhase j' told c.input.runId c'.phase := by
  cases h with
  | known hm => exact inPhase_ended fun id hid => hmemo id (hid ▸ hm)
  | reread =>
    rcases memo with _ | m
    · trivial
    · exact inPhase_ended fun id hid => hmemo id (hid ▸ rfl)
  | @drafted a =>
    change InPhase _ _ _ (draftOf a)
    rw [draftOf]
    split
    · trivial
    · trivial
  | influence =>
    refine inPhase_trace fun keys hkeys k hk => .inl ?_
    rwa [hkeys]
  | traced htracing =>
    rw [htracing] at hphase
    exact inPhase_trace hphase
  | @found draft k todo l htracing hl =>
    rw [htracing] at hphase
    refine inPhase_trace fun keys hkeys k' hk' => ?_
    rcases hphase keys hkeys k' hk' with hmem | ⟨l', hl', hmem⟩
    · rcases mem_cons.1 hmem with rfl | htodo
      · exact .inr ⟨l, hl, mem_cons_self⟩
      · exact .inl htodo
    · exact .inr ⟨l', hl', mem_cons_of_mem _ hmem⟩
  | @absent draft k todo htracing hnone =>
    rw [htracing] at hphase
    refine inPhase_trace fun keys hkeys k' hk' => ?_
    rcases hphase keys hkeys k' hk' with hmem | htraced
    · rcases mem_cons.1 hmem with rfl | htodo
      · -- The lessons that a run was told are there.
        obtain ⟨l, hl⟩ := htold keys hkeys _ hk'
        exact nomatch hnone.symm.trans hl
      · exact .inl htodo
    · exact .inr htraced
  | listed hlisting =>
    rw [hlisting] at hphase
    exact inPhase_scan hphase (forall_mem_nil _)
  | scanned hscanning =>
    rw [hscanning] at hphase
    exact hphase
  | @may draft id todo existing r hscanning hr hmay =>
    rw [hscanning] at hphase
    refine inPhase_scan hphase.1 (forall_mem_append.2 ⟨hphase.2, ?_⟩)
    refine forall_mem_singleton.2 ⟨r, ?_, _, hmay.1⟩
    rwa [hinv.named id r hr]
  | other hscanning =>
    rw [hscanning] at hphase
    exact inPhase_scan hphase.1 hphase.2
  | @matched draft existing target hmatching htarget =>
    rw [hmatching] at hphase
    exact ⟨hphase.2 target htarget, fair_entry hphase.1 target.id⟩
  | @gone target entry attempt hmerging hnone =>
    rw [hmerging] at hphase
    obtain ⟨⟨r, hr, -⟩, -⟩ := hphase
    exact nomatch hnone.symm.trans hr
  | already hmerging hread htestified =>
    rw [hmerging] at hphase
    exact testified_of_mem hphase.1 hread htestified
  | read hmerging hnot =>
    rw [hmerging] at hphase
    exact ⟨hphase, hnot⟩
  | @merged target entry attempt read hcomparing hread =>
    rw [hcomparing] at hphase
    obtain ⟨⟨⟨r, hr, howner⟩, hfair⟩, -⟩ := hphase
    obtain rfl := Option.some.inj (hread.symm.trans hr)
    exact ⟨read.append entry, j.suggestions.get_put_self _ _, howner, entry,
      mem_append_right _ (mem_singleton_self _), hfair.runId⟩
  | again hcomparing =>
    rw [hcomparing] at hphase
    exact hphase.1
  | exhausted hcomparing hlast hother => exact absurd (hagrees _ _ _ _ hcomparing hlast) hother
  | @memoed id merged hmemoing =>
    rw [hmemoing] at hphase
    cases merged with
    | true => exact hphase
    | false => trivial
  | _ => trivial

end LearnCall

/-- What a memo says that a call leaves. -/
theorem LearnCall.Next.leaves (h : LearnCall.Next j memo told c j' memo' c')
    (hphase : LearnCall.InPhase j told c.input.runId c.phase)
    (hmemo : ∀ id, memo = some ⟨some id, true⟩ → Testified j c.input.runId id)
    (hid : memo' = some ⟨some id, true⟩) : Testified j' c.input.runId id := by
  have hkeeps := h.keeps
  cases h with
  | claimed => exact nomatch hid
  | memoed hmemoing =>
    obtain ⟨⟩ := hid
    rw [hmemoing] at hphase
    exact hphase
  | forgotten => exact nomatch hid
  | _ => exact (hmemo id hid).mono hkeeps

/-! ## What a decision comes to -/

/-- The suggestion has the status that was decided. -/
def Settled (j : SuggJournal) (id : SuggId) (d : Decision) : Prop :=
  ∃ r, j.suggestions.get id = some r ∧ r.status = d.status

/-- The lesson of the suggestion is there. -/
def Lessoned (j : SuggJournal) (id : SuggId) : Prop :=
  ∃ r, j.suggestions.get id = some r ∧ ∃ l, j.lessons.get (lessonKey r.owner r.id) = some l ∧
    l.fromSuggestion = id

namespace DecideCall

variable {c c' : DecideCall} {d : Decision} {read : SuggestionRecord} {phase : DecidePhase}

/-- What a call has seen to. -/
def Good (j : SuggJournal) (id : SuggId) : DecidePhase → Prop
  | .birth d _ => Settled j id d
  | .putting d _ => Settled j id d
  | .ended d => Settled j id d ∧ (d.approve = true → Lessoned j id)
  | _ => True

theorem good_born (h : Settled j id d) : Good j id (born d read) := by
  rw [born]
  split
  · exact h
  · next hreject => exact ⟨h, fun happrove => absurd happrove hreject⟩

theorem settled_mono (h : Settled j id d) (hd : j.decisions id = some d) (hkeeps : j.Keeps j') :
    Settled j' id d := by
  obtain ⟨r, hr, hstatus⟩ := h
  obtain ⟨r', hr', hfollows⟩ := hkeeps.suggestions id r hr
  exact ⟨r', hr', hfollows.status d hd hstatus⟩

theorem lessoned_mono (h : Lessoned j id) (hkeeps : j.Keeps j') : Lessoned j' id := by
  obtain ⟨r, hr, l, hl, hfrom⟩ := h
  obtain ⟨r', hr', hfollows⟩ := hkeeps.suggestions id r hr
  obtain ⟨l', hl', hfrom'⟩ := hkeeps.lessons _ l hl
  refine ⟨r', hr', l', ?_, hfrom'.trans hfrom⟩
  rwa [hfollows.sameOrigin.owner, hfollows.sameOrigin.id]

theorem Good.mono (h : Good j id phase) (hphase : InPhase j id phase) (hkeeps : j.Keeps j') :
    Good j' id phase := by
  cases phase with
  | birth => exact settled_mono h hphase.1.decision hkeeps
  | putting => exact settled_mono h hphase.1.decision hkeeps
  | ended => exact ⟨settled_mono h.1 hphase hkeeps, fun ha => lessoned_mono (h.2 ha) hkeeps⟩
  | _ => trivial

/-- The lesson of what was read is that of the suggestion. -/
theorem lessonKey_of_read (hinv : j.Inv) (h : Read j id d read) :
    ∃ r, j.suggestions.get id = some r ∧
      lessonKey read.owner read.id = lessonKey r.owner r.id ∧ read.id = id := by
  obtain ⟨r, hr, hsame⟩ := h.record
  refine ⟨r, hr, ?_, hsame.id.symm.trans (hinv.named id r hr)⟩
  rw [hsame.owner, hsame.id]

theorem Next.good (h : Next j c j' c') (hinv : j.Inv) (hphase : InPhase j c.id c.phase)
    (hgood : Good j c.id c.phase)
    (hagrees : ∀ d attempt read, c.phase = .comparing d attempt read → 2 ≤ attempt →
      ∃ r, j.suggestions.get c.id = some r ∧ (r = read ∨ r.status = d.status)) :
    Good j' c.id c'.phase := by
  cases h with
  | gone hflipping hnone =>
    rw [hflipping] at hphase
    obtain ⟨r, hr⟩ := hinv.decided _ _ hphase
    exact nomatch hnone.symm.trans hr
  | settled hflipping hread hstatus => exact good_born ⟨_, hread, hstatus⟩
  | flipped hcomparing hread => exact good_born ⟨_, j.suggestions.get_put_self _ _, rfl⟩
  | exhausted hcomparing hlast hother =>
    obtain ⟨r, hr, rfl | hstatus⟩ := hagrees _ _ _ hcomparing hlast
    · exact absurd hr hother
    · exact good_born ⟨r, hr, hstatus⟩
  | @there d read lesson hbirth hlesson =>
    rw [hbirth] at hphase hgood
    obtain ⟨r, hr, hkey, hid⟩ := lessonKey_of_read hinv hphase.1
    have hfrom := (lessonKey_inj (hinv.lessons _ lesson hlesson).1).2
    exact ⟨hgood, fun _ => ⟨r, hr, lesson, hkey ▸ hlesson, hfrom.symm.trans hid⟩⟩
  | absent hbirth =>
    rw [hbirth] at hgood
    exact hgood
  | @put d read hputting =>
    rw [hputting] at hphase hgood
    obtain ⟨r, hr, hkey, hid⟩ := lessonKey_of_read hinv hphase.1
    exact ⟨hgood, fun _ => ⟨r, hr, lessonOf read d, hkey ▸ j.lessons.get_put_self _ _, hid⟩⟩
  | _ => trivial

/-- A decision leaves the evidence as it is. -/
theorem Next.evidence (h : Next j c j' c') {r' : SuggestionRecord}
    (hr' : j'.suggestions.get id = some r') : ∃ r, j.suggestions.get id = some r ∧
      r'.evidence = r.evidence ∧ r'.owner = r.owner := by
  cases h with
  | @flipped d attempt read _ hread =>
    rcases eq_or_ne id c.id with rfl | hne
    · rw [j.suggestions.get_put_self] at hr'
      obtain rfl := Option.some.inj hr'
      exact ⟨read, hread, rfl, rfl⟩
    · exact ⟨r', (j.suggestions.get_put_of_ne hne _).symm.trans hr', rfl, rfl⟩
  | _ => exact ⟨r', hr', rfl, rfl⟩

end DecideCall

/-! ## The evidence of a record -/

/-- A run has given evidence once, has learnt, and its evidence is tainted if it has to be. -/
def EvidenceOk (j : SuggJournal) (told : JsString → Option (List JsString)) (runs : List JsString)
    (id : SuggId) (r : SuggestionRecord) : Prop :=
  (∃ ρ, r.owner = .personal ρ) → (r.evidence.map (·.runId)).Nodup ∧
    ∀ e ∈ r.evidence, e.runId ∈ runs ∧ (InfluencedBy j (told e.runId) id → e.tainted = true)

variable {tellings tellings' : JsString → Option (List JsString)} {runs runs' : List JsString}

theorem EvidenceOk.mono {r r' : SuggestionRecord} (h : EvidenceOk j tellings runs id r)
    (hevidence : r'.evidence = r.evidence) (howner : r'.owner = r.owner) (hgrows : j.Grows j')
    (htold : ∀ runId, Present j (tellings runId))
    (hsame : ∀ runId ∈ runs, tellings' runId = tellings runId)
    (hruns : runs ⊆ runs') : EvidenceOk j' tellings' runs' id r' := by
  rintro ⟨ρ, hρ⟩
  rw [hevidence]
  obtain ⟨hnodup, hall⟩ := h ⟨ρ, howner.symm.trans hρ⟩
  refine ⟨hnodup, fun e he => ?_⟩
  obtain ⟨hrun, htainted⟩ := hall e he
  refine ⟨hruns hrun, fun hinfluenced => htainted ?_⟩
  rw [hsame e.runId hrun] at hinfluenced
  exact hinfluenced.of_grows hgrows (htold e.runId)

/-- What a call that learns leaves in a record. -/
theorem LearnCall.Next.evidence
    (h : LearnCall.Next j memo (tellings c.input.runId) c j' memo' c') (hinv : j.Inv)
    (hrun : c.input.runId ∈ runs) (htold : ∀ runId, Present j (tellings runId))
    (hphase : LearnCall.InPhase j (tellings c.input.runId) c.input.runId c.phase)
    (hok : ∀ id r, j.suggestions.get id = some r → EvidenceOk j tellings runs id r)
    {r' : SuggestionRecord} (hr' : j'.suggestions.get id = some r') :
    EvidenceOk j' tellings runs id r' := by
  have hgrows := h.keeps.grows
  have hold {r : SuggestionRecord} (hr : j.suggestions.get id = some r) :
      EvidenceOk j' tellings runs id r :=
    (hok id r hr).mono rfl rfl hgrows htold (fun _ _ => rfl) fun _ h => h
  cases h with
  | @born draft id' vecB64 embedModelId _ hnone =>
    rcases eq_or_ne id id' with rfl | hne
    · rw [j.suggestions.get_put_self] at hr'
      obtain rfl := Option.some.inj hr'
      refine fun _ => ⟨nodup_singleton _, forall_mem_singleton.2 ⟨hrun, ?_⟩⟩
      -- There is no lesson of a suggestion that is not there.
      rintro ⟨keys, -, k, -, l, hl, rfl⟩
      obtain ⟨-, ⟨r, hr, -⟩, -⟩ := hinv.lessons k l hl
      exact nomatch hnone.symm.trans hr
    · exact hold ((j.suggestions.get_put_of_ne hne _).symm.trans hr')
  | @merged target entry attempt read hcomparing hread =>
    rcases eq_or_ne id target with rfl | hne
    · rw [j.suggestions.get_put_self] at hr'
      obtain rfl := Option.some.inj hr'
      rw [hcomparing] at hphase
      obtain ⟨⟨-, hfair⟩, hnot⟩ := hphase
      intro howner
      obtain ⟨hnodup, hall⟩ := hok id read hread howner
      rw [SuggestionRecord.append, map_append]
      refine ⟨nodup_append.2 ⟨hnodup, nodup_singleton _, ?_⟩, ?_⟩
      · rintro run hmem _ hsingle rfl
        obtain rfl := mem_singleton.1 hsingle
        obtain ⟨e, he, heq⟩ := mem_map.1 hmem
        have htestified : read.testified c.input.runId = true :=
          any_eq_true.2 ⟨e, he, decide_eq_true (heq.trans hfair.runId)⟩
        exact nomatch hnot.symm.trans htestified
      · refine forall_mem_append.2 ⟨hall, forall_mem_singleton.2 ⟨hfair.runId ▸ hrun, ?_⟩⟩
        rw [hfair.runId]
        exact hfair.tainted
    · exact hold ((j.suggestions.get_put_of_ne hne _).symm.trans hr')
  | _ => exact hold hr'

/-! ## All calls -/

namespace LearnState

variable {s t : LearnState} {e : LearnEvent}

/-- The runs that have begun to learn. -/
def learning (s : LearnState) : List JsString := s.learns.map (·.input.runId)

/-- What is known whatever the calls do. -/
structure Inv (s : LearnState) : Prop where
  journal : s.journal.Inv
  decides : ∀ c ∈ s.decides, DecideCall.InPhase s.journal c.id c.phase

/-- What is known as long as no third attempt fails. -/
structure Kept (s : LearnState) : Prop where
  told : ∀ runId, Present s.journal (s.told runId)
  evidence : ∀ id r, s.journal.suggestions.get id = some r →
    EvidenceOk s.journal s.told s.learning id r
  decides : ∀ c ∈ s.decides, DecideCall.Good s.journal c.id c.phase
  learns : ∀ c ∈ s.learns,
    LearnCall.InPhase s.journal (s.told c.input.runId) c.input.runId c.phase
  memos : ∀ runId id, s.memos runId = some ⟨some id, true⟩ → Testified s.journal runId id

theorem learning_set {n : ℕ} {c c' : LearnCall} (hc : s.learns[n]? = some c)
    (hinput : c'.input = c.input) :
    (s.learns.set n c').map (·.input.runId) = s.learning := by
  refine ext_getElem? fun i => ?_
  rw [learning, map_set, getElem?_set, hinput]
  split
  · next hin =>
    subst hin
    obtain ⟨hlt, -⟩ := List.getElem?_eq_some_iff.1 hc
    rw [length_map, if_pos hlt, getElem?_map, hc]
    rfl
  · rfl

/-- The journal keeps what it has, and its records their evidence. -/
theorem Kept.journal_of_keeps (hkept : s.Kept) (h : s.Inv) (hkeeps : s.journal.Keeps j)
    (hevidence : ∀ id r, j.suggestions.get id = some r → EvidenceOk j s.told s.learning id r) :
    Kept { s with journal := j } where
  told runId keys hkeys k hk := by
    obtain ⟨l, hl⟩ := hkept.told runId keys hkeys k hk
    obtain ⟨l', hl', -⟩ := hkeeps.lessons k l hl
    exact ⟨l', hl'⟩
  evidence := hevidence
  decides c hc := (hkept.decides c hc).mono (h.decides c hc) hkeeps
  learns c hc := (hkept.learns c hc).mono hkeeps (hkept.told _)
  memos runId id hid := (hkept.memos runId id hid).mono hkeeps

theorem Inv.step (h : s.Inv) (hstep : s.step e = some t) : t.Inv := by
  cases e with
  | promote r =>
    rw [step] at hstep
    split at hstep
    · next hnone _ _ =>
      obtain rfl := Option.some.inj hstep
      have hgrows := SuggJournal.grows_suggest hnone
      exact ⟨h.journal.put hgrows, fun c hc => (h.decides c hc).mono hgrows⟩
    · contradiction
  | tell runId keys =>
    rw [step] at hstep
    split at hstep
    · obtain rfl := Option.some.inj hstep
      exact ⟨h.journal, h.decides⟩
    · contradiction
  | decide id decision =>
    obtain rfl := Option.some.inj hstep
    exact ⟨h.journal, forall_mem_append.2 ⟨h.decides, forall_mem_singleton.2 trivial⟩⟩
  | learn input =>
    obtain rfl := Option.some.inj hstep
    exact ⟨h.journal, h.decides⟩
  | decideStep n =>
    obtain ⟨c, hc, hstep⟩ := Option.bind_eq_some_iff.1 hstep
    obtain ⟨⟨j, c'⟩, hcstep, rfl⟩ := Option.map_eq_some_iff.1 hstep
    have hnext := DecideCall.step_next hcstep
    have hphase := h.decides c (mem_of_getElem? hc)
    refine ⟨hnext.inv h.journal hphase, fun d hd => ?_⟩
    rcases mem_or_eq_of_mem_set hd with hd | rfl
    · exact (h.decides d hd).mono (hnext.grows h.journal)
    · exact hnext.inPhase h.journal hphase
  | learnStep n answer =>
    obtain ⟨c, hc, hstep⟩ := Option.bind_eq_some_iff.1 hstep
    obtain ⟨⟨j, memo, c'⟩, hcstep, rfl⟩ := Option.map_eq_some_iff.1 hstep
    have hnext := LearnCall.step_next hcstep
    exact ⟨hnext.inv h.journal, fun d hd => (h.decides d hd).mono hnext.keeps.grows⟩
  | decideCrash n =>
    obtain ⟨c, hc, hstep⟩ := Option.bind_eq_some_iff.1 hstep
    split at hstep
    · contradiction
    · obtain rfl := Option.some.inj hstep
      refine ⟨h.journal, fun d hd => ?_⟩
      rcases mem_or_eq_of_mem_set hd with hd | rfl
      · exact h.decides d hd
      · trivial
  | learnCrash n =>
    obtain ⟨c, hc, hstep⟩ := Option.bind_eq_some_iff.1 hstep
    split at hstep
    · contradiction
    · obtain rfl := Option.some.inj hstep
      exact ⟨h.journal, h.decides⟩

theorem Kept.step (hkept : s.Kept) (h : s.Inv) (hagrees : s.Agrees e) (hstep : s.step e = some t) :
    t.Kept := by
  cases e with
  | promote r =>
    rw [LearnState.step] at hstep
    split at hstep
    · next hnone horg _ =>
      obtain rfl := Option.some.inj hstep
      have hkeeps : s.journal.Keeps { s.journal with
          suggestions := s.journal.suggestions.put r.id r } := .put_of_none hnone
      refine hkept.journal_of_keeps h hkeeps fun id r' hr' => ?_
      rcases eq_or_ne id r.id with rfl | hne
      · rw [s.journal.suggestions.get_put_self] at hr'
        obtain rfl := Option.some.inj hr'
        exact fun ⟨ρ, hρ⟩ => nomatch horg.symm.trans hρ
      · have hr := (s.journal.suggestions.get_put_of_ne hne _).symm.trans hr'
        exact (hkept.evidence id r' hr).mono rfl rfl hkeeps.grows hkept.told (fun _ _ => rfl)
          fun _ h => h
    · contradiction
  | tell runId keys =>
    rw [LearnState.step] at hstep
    split at hstep
    · next hmay =>
      obtain rfl := Option.some.inj hstep
      obtain ⟨-, hnone, hthere⟩ := hmay
      -- The runs that learn are other ones.
      have hsame (runId' : JsString) (hrun : runId' ∈ s.learning) :
          update s.told runId (some keys) runId' = s.told runId' := by
        obtain ⟨c, hc, rfl⟩ := mem_map.1 hrun
        exact update_of_ne (hnone c hc) _ _
      refine ⟨fun runId' => ?_, fun id r hr => ?_, hkept.decides, fun c hc => ?_, hkept.memos⟩
      · rcases eq_or_ne runId' runId with rfl | hne
        · dsimp only
          rw [update_self]
          rintro _ ⟨⟩ k hk
          exact Option.isSome_iff_exists.1 (hthere k hk)
        · dsimp only
          rw [update_of_ne hne]
          exact hkept.told runId'
      · exact (hkept.evidence id r hr).mono rfl rfl (.refl _) hkept.told hsame fun _ h => h
      · dsimp only
        rw [hsame _ (mem_map.2 ⟨c, hc, rfl⟩)]
        exact hkept.learns c hc
    · contradiction
  | decide id decision =>
    obtain rfl := Option.some.inj hstep
    exact ⟨hkept.told, hkept.evidence, forall_mem_append.2 ⟨hkept.decides,
      forall_mem_singleton.2 trivial⟩, hkept.learns, hkept.memos⟩
  | learn input =>
    obtain rfl := Option.some.inj hstep
    refine ⟨hkept.told, fun id r hr => ?_, hkept.decides, forall_mem_append.2 ⟨hkept.learns,
      forall_mem_singleton.2 trivial⟩, hkept.memos⟩
    refine (hkept.evidence id r hr).mono rfl rfl (.refl _) hkept.told (fun _ _ => rfl) ?_
    exact map_subset _ (subset_append_left _ _)
  | decideStep n =>
    obtain ⟨c, hc, hstep⟩ := Option.bind_eq_some_iff.1 hstep
    obtain ⟨⟨j, c'⟩, hcstep, rfl⟩ := Option.map_eq_some_iff.1 hstep
    have hnext := DecideCall.step_next hcstep
    have hmem := mem_of_getElem? hc
    have hphase := h.decides c hmem
    have hkeeps := hnext.keeps h.journal hphase
    have hkept' : Kept { s with journal := j } := by
      refine hkept.journal_of_keeps h hkeeps fun id r' hr' => ?_
      obtain ⟨r, hr, hevidence, howner⟩ := hnext.evidence hr'
      exact (hkept.evidence id r hr).mono hevidence howner hkeeps.grows hkept.told
        (fun _ _ => rfl) fun _ h => h
    refine ⟨hkept'.told, hkept'.evidence, fun d hd => ?_, hkept'.learns, hkept'.memos⟩
    rcases mem_or_eq_of_mem_set hd with hd | rfl
    · exact hkept'.decides d hd
    · rw [hnext.sameId]
      exact hnext.good h.journal hphase (hkept.decides c hmem) (hagrees c hc)
  | learnStep n answer =>
    obtain ⟨c, hc, hstep⟩ := Option.bind_eq_some_iff.1 hstep
    obtain ⟨⟨j, memo, c'⟩, hcstep, rfl⟩ := Option.map_eq_some_iff.1 hstep
    have hnext := LearnCall.step_next hcstep
    have hmem := mem_of_getElem? hc
    have hphase := hkept.learns c hmem
    have hrun : c.input.runId ∈ s.learning := mem_map.2 ⟨c, hmem, rfl⟩
    have hkept' : Kept { s with journal := j } :=
      hkept.journal_of_keeps h hnext.keeps fun id r' hr' =>
        hnext.evidence h.journal hrun hkept.told hphase hkept.evidence hr'
    have hphase' := hnext.inPhase h.journal (hkept.told _) hphase (hkept.memos _) (hagrees c hc)
    have hlearning : (s.learns.set n c').map (·.input.runId) = s.learning :=
      learning_set hc hnext.input
    refine ⟨hkept'.told, fun id r hr => ?_, hkept'.decides, fun d hd => ?_, fun runId id hid => ?_⟩
    · rw [learning, hlearning]
      exact hkept'.evidence id r hr
    · rcases mem_or_eq_of_mem_set hd with hd | rfl
      · exact hkept'.learns d hd
      · rw [hnext.input]
        exact hphase'
    · dsimp only at hid
      rw [update_apply] at hid
      split at hid
      · next heq =>
        subst heq
        exact hnext.leaves hphase (hkept.memos _) hid
      · exact hkept'.memos runId id hid
  | decideCrash n =>
    obtain ⟨c, hc, hstep⟩ := Option.bind_eq_some_iff.1 hstep
    split at hstep
    · contradiction
    · obtain rfl := Option.some.inj hstep
      refine ⟨hkept.told, hkept.evidence, fun d hd => ?_, hkept.learns, hkept.memos⟩
      rcases mem_or_eq_of_mem_set hd with hd | rfl
      · exact hkept.decides d hd
      · trivial
  | learnCrash n =>
    obtain ⟨c, hc, hstep⟩ := Option.bind_eq_some_iff.1 hstep
    split at hstep
    · contradiction
    · obtain rfl := Option.some.inj hstep
      have hlearning : (s.learns.set n { c with phase := .crashed }).map (·.input.runId) =
          s.learning := learning_set hc rfl
      refine ⟨hkept.told, fun id r hr => ?_, hkept.decides, fun d hd => ?_, hkept.memos⟩
      · rw [learning, hlearning]
        exact hkept.evidence id r hr
      · rcases mem_or_eq_of_mem_set hd with hd | rfl
        · exact hkept.learns d hd
        · trivial

theorem inv_init : init.Inv := ⟨SuggJournal.inv_empty, forall_mem_nil _⟩

theorem kept_init : init.Kept :=
  ⟨nofun, nofun, forall_mem_nil _, forall_mem_nil _, nofun⟩

variable {events : List LearnEvent}

theorem Inv.run (h : s.Inv) (hrun : s.run events = some t) : t.Inv := by
  induction events generalizing s with
  | nil =>
    obtain rfl := Option.some.inj hrun
    exact h
  | cons e events ih =>
    obtain ⟨s', hstep, hrest⟩ := Option.bind_eq_some_iff.1 hrun
    exact ih (h.step hstep) hrest

theorem Kept.run (hkept : s.Kept) (h : s.Inv) (hagrees : s.AllAgree events)
    (hrun : s.run events = some t) : t.Kept := by
  induction events generalizing s with
  | nil =>
    obtain rfl := Option.some.inj hrun
    exact hkept
  | cons e events ih =>
    obtain ⟨s', hstep, hrest⟩ := Option.bind_eq_some_iff.1 hrun
    exact ih (hkept.step h hagrees.1 hstep) (h.step hstep) (hagrees.2 s' hstep) hrest

/-- The call makes no third attempt. -/
def early (s : LearnState) : LearnEvent → Bool
  | .decideStep n => s.decides[n]?.all fun c =>
    match c.phase with
    | .comparing _ attempt _ => attempt < 2
    | _ => true
  | .learnStep n _ => s.learns[n]?.all fun c =>
    match c.phase with
    | .comparing _ _ attempt _ => attempt < 2
    | _ => true
  | _ => true

def allEarly (s : LearnState) : List LearnEvent → Bool
  | [] => true
  | e :: events => s.early e && (s.step e).all (·.allEarly events)

/-- Where no call makes a third attempt, every step agrees. -/
theorem AllAgree.of_early (h : s.allEarly events) : s.AllAgree events := by
  induction events generalizing s with
  | nil => trivial
  | cons e events ih =>
    obtain ⟨hearly, hrest⟩ := (Bool.and_eq_true_iff ..).1 h
    refine ⟨?_, fun s' hs' => ih (by rwa [hs'] at hrest)⟩
    cases e with
    | decideStep n =>
      intro c hc d attempt read hphase hlast
      simp only [early, hc, Option.all_some, hphase, decide_eq_true_eq] at hearly
      omega
    | learnStep n answer =>
      intro c hc target entry attempt read hphase hlast
      simp only [early, hc, Option.all_some, hphase, decide_eq_true_eq] at hearly
      omega
    | _ => trivial

end LearnState

/-! ## The promises -/

open LearnState

/-- The only entry of a run. -/
theorem filter_runId_eq {evidence : List SuggestionEvidence} {e : SuggestionEvidence}
    (hnodup : (evidence.map (·.runId)).Nodup) (he : e ∈ evidence) :
    evidence.filter (·.runId = e.runId) = [e] := by
  induction evidence with
  | nil => exact absurd he not_mem_nil
  | cons e' evidence ih =>
    rw [map_cons, nodup_cons] at hnodup
    rcases mem_cons.1 he with rfl | hmem
    · rw [filter_cons_of_pos (by simp), filter_eq_nil_iff.2]
      intro e' he' heq
      exact hnodup.1 (mem_map.2 ⟨e', he', of_decide_eq_true heq⟩)
    · have hne : ¬e'.runId = e.runId := fun heq =>
        hnodup.1 (mem_map.2 ⟨e, hmem, heq.symm⟩)
      rw [filter_cons_of_neg (by simpa using hne), ih hnodup.2 hmem]

/-- In every run all that decide on a suggestion report one status, and a lesson is that of a
    suggestion that was approved. As long as no third attempt is in vain, what was decided is the
    status, and what was approved has its lesson; and a call that reports that it has merged has left
    one entry of its run, which is tainted if the run was told a lesson of the suggestion. -/
theorem suggestions_kept (events : List LearnEvent) (s : LearnState)
    (hrun : LearnState.init.run events = some s) :
    (∀ c ∈ s.decides, ∀ c' ∈ s.decides, c.id = c'.id → ∀ d d', c.phase = .ended d →
      c'.phase = .ended d' → d.status = d'.status) ∧
    (∀ k l, s.journal.lessons.get k = some l →
      ∃ d, s.journal.decisions l.fromSuggestion = some d ∧ d.approve = true) ∧
    (LearnState.init.AllAgree events →
      (∀ c ∈ s.decides, ∀ d, c.phase = .ended d → Settled s.journal c.id d ∧
        (d.approve = true → Lessoned s.journal c.id)) ∧
      ∀ c ∈ s.learns, ∀ id, c.phase = .ended (some (id, true)) →
        ∃ r, s.journal.suggestions.get id = some r ∧
          ∃ e, r.evidence.filter (·.runId = c.input.runId) = [e] ∧
            (InfluencedBy s.journal (s.told c.input.runId) id → e.tainted = true)) := by
  have hinv := inv_init.run hrun
  refine ⟨fun c hc c' hc' hid d d' hd hd' => ?_, fun k l hl => (hinv.journal.lessons k l hl).2.2,
    fun hagrees => ?_⟩
  · have hdecision := hinv.decides c hc
    have hdecision' := hinv.decides c' hc'
    rw [hd] at hdecision
    rw [hd', ← hid] at hdecision'
    rw [Option.some.inj (hdecision.symm.trans hdecision')]
  · have hkept := kept_init.run inv_init hagrees hrun
    refine ⟨fun c hc d hd => ?_, fun c hc id hended => ?_⟩
    · have hgood := hkept.decides c hc
      rwa [hd] at hgood
    · have htestified := hkept.learns c hc
      rw [hended] at htestified
      obtain ⟨r, hr, howner, e, he, hrunId⟩ := htestified
      obtain ⟨hnodup, hall⟩ := hkept.evidence id r hr howner
      refine ⟨r, hr, e, ?_, ?_⟩
      · rw [← hrunId]
        exact filter_runId_eq hnodup he
      · rw [← hrunId]
        exact (hall e he).2

/-- A run asks what it has learnt, up to the suggestions that say the same. -/
def study (n : ℕ) : List LearnEvent :=
  [.learnStep n .nothing, .learnStep n .nothing, .learnStep n (.lesson (some ⟨true, [114], [109]⟩)),
    .learnStep n .nothing, .learnStep n (.shadow false 1)]

/-- A run learns what is there already, up to the record. -/
def studyAgain (n : ℕ) (runId : JsString) : List LearnEvent :=
  .learn ⟨runId, ⟨[117], by decide⟩, none⟩ :: study n ++
    [.learnStep n .nothing, .learnStep n (.matched (some 0))]

/-- The evidence of a run is written between the reading of a decision and its setting. -/
def between (n : ℕ) : List LearnEvent :=
  [.decideStep 0, .learnStep n .nothing, .learnStep n .nothing, .decideStep 0]

/-- A run learns something. -/
def studyFirst : List LearnEvent :=
  .learn ⟨[48], ⟨[117], by decide⟩, none⟩ :: study 0 ++
    [.learnStep 0 (.matched none), .learnStep 0 (.fresh .one none none)]

/-- It is approved. Once the evidence of another run comes first. -/
def decidedOnce : List LearnEvent :=
  studyFirst ++ studyAgain 1 [49] ++ [.decide .one ⟨true, none, 5⟩, .decideStep 0, .decideStep 0] ++
    between 1 ++ replicate 4 (.decideStep 0) ++ [.learnStep 0 .nothing, .learnStep 1 .nothing]

/-- The decision is set at the second attempt, and the evidence is there. -/
theorem decidedOnce_kept : ∃ s, LearnState.init.run decidedOnce = some s ∧
    s.decides.map (·.phase) = [.ended ⟨true, none, 5⟩] ∧
    s.learns.map (·.phase) = [.ended (some (.one, false)), .ended (some (.one, true))] ∧
    (∀ c ∈ s.decides, ∀ d, c.phase = .ended d → Settled s.journal c.id d ∧
      (d.approve = true → Lessoned s.journal c.id)) ∧
    ∀ c ∈ s.learns, ∀ id, c.phase = .ended (some (id, true)) →
      ∃ r, s.journal.suggestions.get id = some r ∧
        ∃ e, r.evidence.filter (·.runId = c.input.runId) = [e] ∧
          (InfluencedBy s.journal (s.told c.input.runId) id → e.tainted = true) := by
  obtain ⟨-, -, hkept⟩ := suggestions_kept decidedOnce _ rfl
  exact ⟨_, rfl, rfl, rfl, hkept (.of_early rfl)⟩

/-- Three times the evidence of another run comes first. -/
def outrun : List LearnEvent :=
  studyFirst ++ studyAgain 1 [49] ++ studyAgain 2 [50] ++ studyAgain 3 [51] ++
    [.decide .one ⟨true, none, 5⟩, .decideStep 0, .decideStep 0] ++
    between 1 ++ between 2 ++ between 3 ++ [.decideStep 0, .decideStep 0]

/-- It is reported as approved, and has a lesson, and is pending. -/
theorem outrun_not_settled : ∃ s, LearnState.init.run outrun = some s ∧
    ∃ c ∈ s.decides, ∃ d, c.phase = .ended d ∧ ¬Settled s.journal c.id d := by
  refine ⟨_, rfl, _, mem_singleton_self _, _, rfl, ?_⟩
  rintro ⟨r, hr, hstatus⟩
  obtain rfl := Option.some.inj hr
  exact nomatch hstatus

end Gnldev.Durable.Suggestions
