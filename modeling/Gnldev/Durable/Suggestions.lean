import Gnldev.Durable.RunKeys
import Gnldev.Lib.OrderedMap
import Mathlib.Logic.Function.Basic

/-!
# Suggestions and lessons

A run may leave a suggestion, and a suggestion that is approved becomes a lesson that later runs are
told (`suggestions.ts`). Who decides first claims the decision; its effects, the status of the
suggestion and the lesson, come after it, and every call that decides makes sure of them
(`applyDecisionEffects`). Suggestions also take up evidence, so that the status is set by comparing
and setting, and three attempts are made.

* `DecideCall.step`: the operations of `decide`, one at a time;
* `DecideCall.Next`: what an operation can do;
* `DecideCall.Next.inv`: a lesson is where its suggestion says, and was approved.
-/

namespace Gnldev.Durable.Suggestions

open Function

/-- The id of a suggestion: a UUID, or `org-` and a digest. -/
structure SuggId where
  text : JsString
  noColon : sep ∉ text

theorem SuggId.ext {id id' : SuggId} (h : id.text = id'.text) : id = id' := by
  cases id
  cases id'
  cases h
  rfl

instance : DecidableEq SuggId := fun _ _ => decidable_of_iff _ ⟨SuggId.ext, congrArg SuggId.text⟩

def SuggId.one : SuggId := ⟨[49], by decide⟩

/-- Who learns: a resource that is not empty. -/
abbrev ResourceId := {s : JsString // s ≠ []}

/-- `scope`, and `resourceId` where it is personal. -/
inductive Owner where
  | personal (resourceId : ResourceId)
  | org
  deriving DecidableEq

structure SuggestionEvidence where
  runId : JsString
  sourceSuggestionId : Option JsString
  resourceId : Option JsString
  threadId : Option JsString
  at_ : ℕ
  tainted : Bool
  deriving DecidableEq

inductive SuggestionStatus where
  | pending | approved | rejected
  deriving DecidableEq

structure SuggestionRecord where
  id : SuggId
  owner : Owner
  status : SuggestionStatus
  rule : JsString
  mechanism : JsString
  vecB64 : Option JsString
  embedModelId : Option JsString
  evidence : List SuggestionEvidence
  at_ : ℕ
  decidedAt : Option ℕ
  decidedBy : Option JsString
  deriving DecidableEq

structure LessonRecord where
  rule : JsString
  mechanism : JsString
  fromSuggestion : SuggId
  owner : Owner
  at_ : ℕ
  effectiveEvidence : ℕ

/-- The value under `sugg:<id>:decision`. -/
structure Decision where
  approve : Bool
  by_ : Option JsString
  at_ : ℕ

def Decision.status (d : Decision) : SuggestionStatus := if d.approve then .approved else .rejected

/-! ## Keys -/

def personalLessonKey (resourceId suggId : JsString) : JsString :=
  js "lesson:res:" ++ resourceId ++ js ":" ++ suggId

def orgLessonKey (suggId : JsString) : JsString := js "lesson:org:" ++ suggId

/-- The key of the lesson of a suggestion. -/
def lessonKey (owner : Owner) (id : SuggId) : JsString :=
  match owner with
  | .personal resourceId => personalLessonKey resourceId id.text
  | .org => orgLessonKey id.text

/-! ## Evidence -/

def DAY_MS : ℕ := 86400000

/-- One user in one thread on one day. -/
def SuggestionEvidence.source (e : SuggestionEvidence) : JsString :=
  e.resourceId.getD [] ++ js "|" ++ e.threadId.getD [] ++ js "|" ++ decimal (e.at_ / DAY_MS)

/-- `evidenceQualityOf(..).effective`. -/
def effective (evidence : List SuggestionEvidence) : ℕ :=
  ((evidence.filter (¬·.tainted)).map (·.source)).dedup.length

/-! ## The journal -/

/-- The records of the suggestions, their decisions and their lessons. -/
structure SuggJournal where
  suggestions : OrderedMap SuggId SuggestionRecord
  decisions : SuggId → Option Decision
  lessons : OrderedMap JsString LessonRecord

namespace SuggJournal

def empty : SuggJournal := ⟨.empty, fun _ => none, .empty⟩

end SuggJournal

/-- The record with the status that was decided. -/
def SuggestionRecord.decided (r : SuggestionRecord) (d : Decision) : SuggestionRecord :=
  { r with
    status := d.status
    decidedAt := r.decidedAt.or (some d.at_)
    decidedBy := if d.by_.getD [] ≠ [] ∧ r.decidedBy.getD [] = [] then d.by_ else r.decidedBy }

/-- The lesson of a suggestion. -/
def lessonOf (r : SuggestionRecord) (d : Decision) : LessonRecord where
  rule := r.rule
  mechanism := r.mechanism
  fromSuggestion := r.id
  owner := r.owner
  at_ := d.at_
  effectiveEvidence := effective r.evidence

/-! ## Decisions -/

/-- How far a call of `decide` is. -/
inductive DecidePhase where
  | reading
  | claiming
  /-- The decision has been claimed before. -/
  | lost
  /-- The record is to be read; so many attempts have failed. -/
  | flipping (d : Decision) (attempt : ℕ)
  /-- The record is to be set, if it is what was read. -/
  | comparing (d : Decision) (attempt : ℕ) (read : SuggestionRecord)
  /-- The lesson is looked for. -/
  | birth (d : Decision) (read : SuggestionRecord)
  | putting (d : Decision) (read : SuggestionRecord)
  | ended (d : Decision)
  | threw
  | crashed

structure DecideCall where
  id : SuggId
  /-- What is to be decided, if nobody has. -/
  decision : Decision
  phase : DecidePhase

namespace DecideCall

/-- When the status is settled the lesson is born, if the suggestion was approved. -/
def born (d : Decision) (read : SuggestionRecord) : DecidePhase :=
  if d.approve then .birth d read else .ended d

/-- The next operation of a call on the journal. -/
def step (j : SuggJournal) (c : DecideCall) : Option (SuggJournal × DecideCall) :=
  match c.phase with
  | .reading => some (j, { c with phase := match j.suggestions.get c.id with
    | some _ => .claiming
    | none => .threw })
  | .claiming => match j.decisions c.id with
    | some _ => some (j, { c with phase := .lost })
    | none => some ({ j with decisions := update j.decisions c.id (some c.decision) },
      { c with phase := .flipping c.decision 0 })
  | .lost => some (j, { c with phase := match j.decisions c.id with
    | some d => .flipping d 0
    | none => .threw })
  | .flipping d attempt => some (j, { c with phase := match j.suggestions.get c.id with
    | none => .ended d
    | some read => if read.status = d.status then born d read else .comparing d attempt read })
  | .comparing d attempt read =>
    if j.suggestions.get c.id = some read then
      some ({ j with suggestions := j.suggestions.put c.id (read.decided d) },
        { c with phase := born d (read.decided d) })
    else some (j, { c with phase := if attempt < 2 then .flipping d (attempt + 1) else born d read })
  | .birth d read => match j.lessons.get (lessonKey read.owner read.id) with
    | some _ => some (j, { c with phase := .ended d })
    | none => some (j, { c with phase := .putting d read })
  | .putting d read => some ({ j with
      lessons := j.lessons.put (lessonKey read.owner read.id) (lessonOf read d) },
    { c with phase := .ended d })
  | .ended _ => none
  | .threw => none
  | .crashed => none

end DecideCall

/-! ## What stays -/

/-- The records are of one suggestion, before and after a decision or more evidence. -/
structure SuggestionRecord.SameOrigin (r r' : SuggestionRecord) : Prop where
  id : r'.id = r.id
  owner : r'.owner = r.owner
  rule : r'.rule = r.rule
  mechanism : r'.mechanism = r.mechanism

theorem SuggestionRecord.SameOrigin.refl (r : SuggestionRecord) : r.SameOrigin r :=
  ⟨rfl, rfl, rfl, rfl⟩

variable {r : SuggestionRecord}

theorem SuggestionRecord.SameOrigin.trans {r' r'' : SuggestionRecord} (h : r.SameOrigin r')
    (h' : r'.SameOrigin r'') : r.SameOrigin r'' :=
  ⟨h'.id.trans h.id, h'.owner.trans h.owner, h'.rule.trans h.rule, h'.mechanism.trans h.mechanism⟩

/-- Nothing is lost, and what says where it comes from does not change. -/
structure SuggJournal.Grows (j j' : SuggJournal) : Prop where
  suggestions : ∀ id r, j.suggestions.get id = some r →
    ∃ r', j'.suggestions.get id = some r' ∧ r.SameOrigin r'
  decisions : ∀ id d, j.decisions id = some d → j'.decisions id = some d
  lessons : ∀ k l, j.lessons.get k = some l →
    ∃ l', j'.lessons.get k = some l' ∧ l'.fromSuggestion = l.fromSuggestion

theorem SuggJournal.Grows.refl (j : SuggJournal) : j.Grows j :=
  ⟨fun _ r h => ⟨r, h, .refl r⟩, fun _ _ => id, fun _ l h => ⟨l, h, rfl⟩⟩

/-! ## What an operation can do -/

variable {j j' : SuggJournal} {c c' : DecideCall}

namespace DecideCall

inductive Next (j : SuggJournal) (c : DecideCall) : SuggJournal → DecideCall → Prop
  | known {read} : c.phase = .reading → j.suggestions.get c.id = some read →
      Next j c j { c with phase := .claiming }
  | unknown : Next j c j { c with phase := .threw }
  | claimed : c.phase = .claiming → j.decisions c.id = none →
      Next j c { j with decisions := update j.decisions c.id (some c.decision) }
        { c with phase := .flipping c.decision 0 }
  | lost : Next j c j { c with phase := .lost }
  | found {d} : j.decisions c.id = some d → Next j c j { c with phase := .flipping d 0 }
  | gone {d attempt} : c.phase = .flipping d attempt → j.suggestions.get c.id = none →
      Next j c j { c with phase := .ended d }
  | settled {d attempt read} : c.phase = .flipping d attempt → j.suggestions.get c.id = some read →
      read.status = d.status → Next j c j { c with phase := born d read }
  | read {d attempt read} : c.phase = .flipping d attempt → j.suggestions.get c.id = some read →
      Next j c j { c with phase := .comparing d attempt read }
  | flipped {d attempt read} : c.phase = .comparing d attempt read →
      j.suggestions.get c.id = some read →
      Next j c { j with suggestions := j.suggestions.put c.id (read.decided d) }
        { c with phase := born d (read.decided d) }
  | again {d attempt read} : c.phase = .comparing d attempt read →
      Next j c j { c with phase := .flipping d (attempt + 1) }
  | exhausted {d attempt read} : c.phase = .comparing d attempt read → 2 ≤ attempt →
      j.suggestions.get c.id ≠ some read → Next j c j { c with phase := born d read }
  | there {d read lesson} : c.phase = .birth d read →
      j.lessons.get (lessonKey read.owner read.id) = some lesson →
      Next j c j { c with phase := .ended d }
  | absent {d read} : c.phase = .birth d read → Next j c j { c with phase := .putting d read }
  | put {d read} : c.phase = .putting d read →
      Next j c { j with
        lessons := j.lessons.put (lessonKey read.owner read.id) (lessonOf read d) }
        { c with phase := .ended d }

theorem step_next (h : c.step j = some (j', c')) : Next j c j' c' := by
  rw [step.eq_def] at h
  split at h
  · next hphase =>
    obtain ⟨rfl, rfl⟩ := Prod.mk.inj (Option.some.inj h)
    split
    · next hread => exact .known hphase hread
    · exact .unknown
  · next hphase =>
    split at h
    · obtain ⟨rfl, rfl⟩ := Prod.mk.inj (Option.some.inj h)
      exact .lost
    · next hnone =>
      obtain ⟨rfl, rfl⟩ := Prod.mk.inj (Option.some.inj h)
      exact .claimed hphase hnone
  · obtain ⟨rfl, rfl⟩ := Prod.mk.inj (Option.some.inj h)
    split
    · next hd => exact .found hd
    · exact .unknown
  · next hphase =>
    obtain ⟨rfl, rfl⟩ := Prod.mk.inj (Option.some.inj h)
    split
    · next hnone => exact .gone hphase hnone
    · next hread =>
      split
      · next hstatus => exact .settled hphase hread hstatus
      · exact .read hphase hread
  · next hphase =>
    split at h
    · next hsame =>
      obtain ⟨rfl, rfl⟩ := Prod.mk.inj (Option.some.inj h)
      exact .flipped hphase hsame
    · next hother =>
      obtain ⟨rfl, rfl⟩ := Prod.mk.inj (Option.some.inj h)
      split
      · exact .again hphase
      · next hlast => exact .exhausted hphase (Nat.not_lt.1 hlast) hother
  · next hphase =>
    split at h
    · next hlesson =>
      obtain ⟨rfl, rfl⟩ := Prod.mk.inj (Option.some.inj h)
      exact .there hphase hlesson
    · obtain ⟨rfl, rfl⟩ := Prod.mk.inj (Option.some.inj h)
      exact .absent hphase
  · next hphase =>
    obtain ⟨rfl, rfl⟩ := Prod.mk.inj (Option.some.inj h)
    exact .put hphase
  · contradiction
  · contradiction
  · contradiction

end DecideCall

/-! ## What is known -/

theorem lessonKey_inj {owner owner' : Owner} {id id' : SuggId}
    (h : lessonKey owner id = lessonKey owner' id') : owner = owner' ∧ id = id' := by
  have hres : js "lesson:res:" = js "lesson:" ++ js "res:" := by decide
  have horg : js "lesson:org:" = js "lesson:" ++ js "org:" := by decide
  have hne (s t : JsString) : js "res:" ++ s ≠ js "org:" ++ t :=
    JsString.append_ne_append (by decide) (by decide) s t
  have hcolon : js ":" = [sep] := by decide
  cases owner with
  | personal r =>
    cases owner' with
    | personal r' =>
      simp only [lessonKey, personalLessonKey, hcolon, List.append_assoc, List.singleton_append,
        List.append_cancel_left_eq] at h
      obtain ⟨hr, hid⟩ := JsString.append_cons_inj_last id.noColon id'.noColon h
      obtain rfl := Subtype.ext hr
      exact ⟨rfl, SuggId.ext hid⟩
    | org =>
      simp only [lessonKey, personalLessonKey, orgLessonKey, hres, horg, List.append_assoc,
        List.append_cancel_left_eq] at h
      exact absurd h (hne _ _)
  | org =>
    cases owner' with
    | personal r' =>
      simp only [lessonKey, personalLessonKey, orgLessonKey, hres, horg, List.append_assoc,
        List.append_cancel_left_eq] at h
      exact absurd h.symm (hne _ _)
    | org => exact ⟨rfl, SuggId.ext (List.append_cancel_left h)⟩

/-- What is known of the journal. -/
structure SuggJournal.Inv (j : SuggJournal) : Prop where
  named : ∀ id r, j.suggestions.get id = some r → r.id = id
  decided : ∀ id d, j.decisions id = some d → ∃ r, j.suggestions.get id = some r
  /-- A lesson stands where its suggestion says, and was approved. -/
  lessons : ∀ k l, j.lessons.get k = some l → k = lessonKey l.owner l.fromSuggestion ∧
    (∃ r, j.suggestions.get l.fromSuggestion = some r ∧ r.owner = l.owner) ∧
      ∃ d, j.decisions l.fromSuggestion = some d ∧ d.approve = true

/-- What was read is a record of the suggestion, which was decided so. -/
structure Read (j : SuggJournal) (id : SuggId) (d : Decision) (read : SuggestionRecord) : Prop where
  decision : j.decisions id = some d
  record : ∃ r, j.suggestions.get id = some r ∧ read.SameOrigin r

/-- What is known of a call in a phase. -/
def DecideCall.InPhase (j : SuggJournal) (id : SuggId) : DecidePhase → Prop
  | .claiming => ∃ r, j.suggestions.get id = some r
  | .flipping d _ => j.decisions id = some d
  | .comparing d _ read => Read j id d read
  | .birth d read => Read j id d read ∧ d.approve = true
  | .putting d read => Read j id d read ∧ d.approve = true
  | .ended d => j.decisions id = some d
  | _ => True

variable {id : SuggId} {d : Decision} {read : SuggestionRecord} {phase : DecidePhase}

theorem Read.mono (h : Read j id d read) (hgrows : j.Grows j') : Read j' id d read := by
  obtain ⟨r, hr, hsame⟩ := h.record
  obtain ⟨r', hr', hsame'⟩ := hgrows.suggestions id r hr
  exact ⟨hgrows.decisions id d h.decision, r', hr', hsame.trans hsame'⟩

theorem DecideCall.InPhase.mono (h : InPhase j id phase) (hgrows : j.Grows j') :
    InPhase j' id phase := by
  cases phase with
  | claiming =>
    obtain ⟨r, hr⟩ := h
    obtain ⟨r', hr', -⟩ := hgrows.suggestions id r hr
    exact ⟨r', hr'⟩
  | flipping d => exact hgrows.decisions id d h
  | comparing => exact Read.mono h hgrows
  | birth => exact ⟨h.1.mono hgrows, h.2⟩
  | putting => exact ⟨h.1.mono hgrows, h.2⟩
  | ended d => exact hgrows.decisions id d h
  | _ => trivial

theorem DecideCall.inPhase_born (h : Read j id d read) : InPhase j id (born d read) := by
  rw [born]
  split
  · next happrove => exact ⟨h, happrove⟩
  · exact h.decision

theorem SuggestionRecord.sameOrigin_decided (r : SuggestionRecord) (d : Decision) :
    r.SameOrigin (r.decided d) := ⟨rfl, rfl, rfl, rfl⟩

/-- A record takes the place of one of the same suggestion. -/
theorem SuggJournal.grows_put (hread : j.suggestions.get id = some read)
    (hsame : read.SameOrigin r) : j.Grows { j with suggestions := j.suggestions.put id r } where
  suggestions id' r' hr' := by
    rcases eq_or_ne id' id with rfl | hne
    · rw [hread] at hr'
      obtain rfl := Option.some.inj hr'
      exact ⟨r, j.suggestions.get_put_self id' r, hsame⟩
    · exact ⟨r', (j.suggestions.get_put_of_ne hne r).trans hr', .refl r'⟩
  decisions _ _ h := h
  lessons _ l h := ⟨l, h, rfl⟩

/-- A suggestion that is made, or gathers evidence, is one of the same id. -/
theorem SuggJournal.Inv.put (hinv : j.Inv)
    (hgrows : j.Grows { j with suggestions := j.suggestions.put r.id r }) :
    SuggJournal.Inv { j with suggestions := j.suggestions.put r.id r } where
  named id r' hr' := by
    rcases eq_or_ne id r.id with rfl | hne
    · rw [j.suggestions.get_put_self] at hr'
      obtain rfl := Option.some.inj hr'
      rfl
    · exact hinv.named id r' ((j.suggestions.get_put_of_ne hne _).symm.trans hr')
  decided id d hd := by
    obtain ⟨r', hr'⟩ := hinv.decided id d hd
    obtain ⟨r'', hr'', -⟩ := hgrows.suggestions id r' hr'
    exact ⟨r'', hr''⟩
  lessons k l hl := by
    obtain ⟨hk, ⟨r', hr', howner⟩, happroved⟩ := hinv.lessons k l hl
    obtain ⟨r'', hr'', hsame⟩ := hgrows.suggestions _ r' hr'
    exact ⟨hk, ⟨r'', hr'', hsame.owner.trans howner⟩, happroved⟩

theorem SuggJournal.grows_suggest (hnone : j.suggestions.get r.id = none) :
    j.Grows { j with suggestions := j.suggestions.put r.id r } where
  suggestions id r' hr' := by
    have hne : id ≠ r.id := by
      rintro rfl
      rw [hnone] at hr'
      contradiction
    exact ⟨r', (j.suggestions.get_put_of_ne hne _).trans hr', .refl r'⟩
  decisions _ _ h := h
  lessons _ l h := ⟨l, h, rfl⟩

theorem SuggJournal.inv_empty : SuggJournal.empty.Inv := ⟨nofun, nofun, nofun⟩

namespace DecideCall

theorem Next.sameId (h : Next j c j' c') : c'.id = c.id := by
  cases h <;> rfl

theorem Next.grows (h : Next j c j' c') (hinv : j.Inv) : j.Grows j' := by
  cases h with
  | claimed _ hnone =>
    refine ⟨fun _ r h => ⟨r, h, .refl r⟩, fun id d hd => ?_, fun _ l h => ⟨l, h, rfl⟩⟩
    have hne : id ≠ c.id := by
      rintro rfl
      rw [hnone] at hd
      contradiction
    exact (update_of_ne hne _ _).trans hd
  | flipped _ hread => exact SuggJournal.grows_put hread (SuggestionRecord.sameOrigin_decided _ _)
  | @put d read hputting =>
    refine ⟨fun _ r h => ⟨r, h, .refl r⟩, fun _ _ h => h, fun k l hl => ?_⟩
    rcases eq_or_ne k (lessonKey read.owner read.id) with rfl | hne
    · exact ⟨_, j.lessons.get_put_self _ _, (lessonKey_inj (hinv.lessons _ l hl).1).2⟩
    · exact ⟨l, (j.lessons.get_put_of_ne hne _).trans hl, rfl⟩
  | _ => exact .refl j

theorem Next.inPhase (h : Next j c j' c') (hinv : j.Inv) (hphase : InPhase j c.id c.phase) :
    InPhase j' c'.id c'.phase := by
  have hgrows := h.grows hinv
  cases h with
  | known _ hread => exact ⟨_, hread⟩
  | unknown => trivial
  | claimed => exact update_self ..
  | lost => trivial
  | found hd => exact hd
  | gone hflipping =>
    rw [hflipping] at hphase
    exact hphase
  | settled hflipping hread =>
    rw [hflipping] at hphase
    exact inPhase_born ⟨hphase, _, hread, .refl _⟩
  | read hflipping hread =>
    rw [hflipping] at hphase
    exact ⟨hphase, _, hread, .refl _⟩
  | flipped hcomparing =>
    rw [hcomparing] at hphase
    exact inPhase_born ⟨hphase.decision, _, j.suggestions.get_put_self _ _, .refl _⟩
  | again hcomparing =>
    rw [hcomparing] at hphase
    exact hphase.decision
  | exhausted hcomparing =>
    rw [hcomparing] at hphase
    exact inPhase_born hphase
  | there hbirth =>
    rw [hbirth] at hphase
    exact hphase.1.decision
  | absent hbirth =>
    rw [hbirth] at hphase
    exact hphase
  | put hputting =>
    rw [hputting] at hphase
    exact hphase.1.decision

/-- The lessons stay where their suggestions are. -/
theorem Next.inv (h : Next j c j' c') (hinv : j.Inv) (hphase : InPhase j c.id c.phase) : j'.Inv := by
  have hgrows := h.grows hinv
  -- The lessons that there were have kept what they are known by.
  have hkept (k : JsString) (l : LessonRecord) (hl : j.lessons.get k = some l) :
      k = lessonKey l.owner l.fromSuggestion ∧
        (∃ r, j'.suggestions.get l.fromSuggestion = some r ∧ r.owner = l.owner) ∧
          ∃ d, j'.decisions l.fromSuggestion = some d ∧ d.approve = true := by
    obtain ⟨hk, ⟨r, hr, howner⟩, d, hd, happrove⟩ := hinv.lessons k l hl
    obtain ⟨r', hr', hsame⟩ := hgrows.suggestions _ r hr
    exact ⟨hk, ⟨r', hr', hsame.owner.trans howner⟩, d, hgrows.decisions _ d hd, happrove⟩
  have hknown (id : SuggId) (d : Decision) (hd : j.decisions id = some d) :
      ∃ r, j'.suggestions.get id = some r := by
    obtain ⟨r, hr⟩ := hinv.decided id d hd
    obtain ⟨r', hr', -⟩ := hgrows.suggestions id r hr
    exact ⟨r', hr'⟩
  cases h with
  | claimed hclaiming =>
    rw [hclaiming] at hphase
    refine ⟨hinv.named, fun id d hd => ?_, hkept⟩
    rcases eq_or_ne id c.id with rfl | hne
    · exact hphase
    · exact hknown id d ((update_of_ne hne _ _).symm.trans hd)
  | @flipped d attempt read _ hread =>
    refine ⟨fun id r hr => ?_, hknown, hkept⟩
    rcases eq_or_ne id c.id with rfl | hne
    · rw [j.suggestions.get_put_self] at hr
      obtain rfl := Option.some.inj hr
      exact hinv.named _ read hread
    · exact hinv.named id r ((j.suggestions.get_put_of_ne hne _).symm.trans hr)
  | @put d read hputting =>
    rw [hputting] at hphase
    obtain ⟨⟨hd, r, hr, hsame⟩, happrove⟩ := hphase
    have hid : read.id = c.id := hsame.id.symm.trans (hinv.named _ r hr)
    refine ⟨hinv.named, hknown, fun k l hl => ?_⟩
    rcases eq_or_ne k (lessonKey read.owner read.id) with rfl | hne
    · rw [j.lessons.get_put_self] at hl
      obtain rfl := Option.some.inj hl
      rw [← hid] at hr hd
      exact ⟨rfl, ⟨r, hr, hsame.owner⟩, d, hd, happrove⟩
    · exact hkept k l ((j.lessons.get_put_of_ne hne _).symm.trans hl)
  | _ => exact hinv

end DecideCall

end Gnldev.Durable.Suggestions
