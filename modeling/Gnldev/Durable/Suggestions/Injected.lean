import Gnldev.Durable.Suggestions
import Mathlib.Data.List.Sort

/-!
# What a run is told

The lessons of a resource are found by the start of their keys, and the newest are told to a run. The
block is frozen under the run's own key: the first that claims it settles it for all
(`prepareInjection`).

* `InjectState.step`: any number of calls that inject or decide, while suggestions are made and gather
  evidence;
* `ended_of_blocks`: all calls of a run return what is frozen;
* `told_by_owner`: a run is told lessons of its own resource as long as no other resource, whose id
  goes on after its id and a colon, is among the newest.
-/

open List

namespace Gnldev.Durable.Suggestions

open Function

/-- The value under `<runId>:cfg:lessons`. -/
structure Block where
  ids : List JsString
  text : JsString
  deriving DecidableEq

def DEFAULT_MAX_INJECT : ℤ := 5

/-- A lesson and its key. -/
abbrev KeyedLesson := JsString × LessonRecord

def renderLesson (l : LessonRecord) : JsString :=
  js "- " ++ l.rule ++ js " (why: " ++ l.mechanism ++ js ")"

def renderBlock (lessons : List LessonRecord) : JsString :=
  if lessons = [] then []
  else
    js "[Approved lessons — human-approved guidance from past runs; advisory, never overriding " ++
      js "the task]\n" ++ (js "\n").intercalate (lessons.map renderLesson)

/-- `slice(0, n)`. -/
def sliceTo {A : Type} (n : ℤ) (l : List A) : List A :=
  if 0 ≤ n then l.take n.toNat else l.take (l.length + n).toNat

/-- The newest first, as many as are told. -/
def choose (maxInject : Option ℤ) (out : List KeyedLesson) : List KeyedLesson :=
  sliceTo (maxInject.getD DEFAULT_MAX_INJECT) (out.insertionSort fun a b => b.2.at_ ≤ a.2.at_)

def blockOf (chosen : List KeyedLesson) : Block :=
  ⟨chosen.map Prod.fst, renderBlock (chosen.map Prod.snd)⟩

/-- How far a call of `prepareInjection` is. -/
inductive InjectPhase where
  | reading
  | listingPersonal (resourceId : ResourceId)
  | listingOrg (keys : List JsString)
  /-- The lessons under these keys are still to be read. -/
  | scanning (todo : List JsString) (out : List KeyedLesson)
  | claiming (chosen : List KeyedLesson)
  | lost (chosen : List KeyedLesson)
  | ended (block : Block)
  | crashed

structure InjectCall where
  runId : JsString
  resourceId : Option ResourceId
  maxInject : Option ℤ
  phase : InjectPhase

/-- `listKeys`. -/
def SuggJournal.listLessons (j : SuggJournal) (start : JsString) : List JsString :=
  (j.lessons.entries.map Prod.fst).filter (·.startsWith start)

namespace InjectCall

/-- When all keys are read, the block is made. -/
def scan (c : InjectCall) (out : List KeyedLesson) : List JsString → InjectPhase
  | [] => .claiming (choose c.maxInject out)
  | k :: todo => .scanning (k :: todo) out

/-- The next operation of a call, by what is frozen for its run: what is frozen then. -/
def step (j : SuggJournal) (frozen : Option Block) (c : InjectCall) :
    Option (Option Block × InjectCall) :=
  match c.phase with
  | .reading => some (frozen, { c with phase := match frozen, c.resourceId with
    | some block, _ => .ended block
    | none, some resourceId => .listingPersonal resourceId
    | none, none => .listingOrg [] })
  | .listingPersonal resourceId =>
    let keys := j.listLessons (js "lesson:res:" ++ resourceId ++ js ":")
    some (frozen, { c with phase := .listingOrg keys })
  | .listingOrg keys =>
    some (frozen, { c with phase := c.scan [] (keys ++ j.listLessons (js "lesson:org:")) })
  | .scanning [] out => some (frozen, { c with phase := c.scan out [] })
  | .scanning (k :: todo) out => some (frozen, { c with phase := match j.lessons.get k with
    | some l => c.scan (out ++ [(k, l)]) todo
    | none => c.scan out todo })
  | .claiming chosen => match frozen with
    | none => some (some (blockOf chosen), { c with phase := .ended (blockOf chosen) })
    | some _ => some (frozen, { c with phase := .lost chosen })
  | .lost chosen => some (frozen, { c with phase := .ended (frozen.getD (blockOf chosen)) })
  | .ended _ => none
  | .crashed => none

end InjectCall

/-! ## Steps -/

structure InjectState where
  journal : SuggJournal
  /-- What is frozen, by run. -/
  blocks : JsString → Option Block
  decides : List DecideCall
  injects : List InjectCall

/-- What happens. -/
inductive InjectEvent where
  /-- A suggestion is made. -/
  | suggest (r : SuggestionRecord)
  /-- A suggestion takes up evidence. -/
  | testify (id : SuggId) (e : SuggestionEvidence)
  | decide (id : SuggId) (decision : Decision)
  | inject (runId : JsString) (resourceId : Option ResourceId) (maxInject : Option ℤ)
  /-- The next operation of a call. -/
  | decideStep (n : ℕ)
  | injectStep (n : ℕ)
  | decideCrash (n : ℕ)
  | injectCrash (n : ℕ)

namespace InjectState

def init : InjectState := ⟨.empty, fun _ => none, [], []⟩

/-- What an event does, if it can happen. -/
def step (s : InjectState) : InjectEvent → Option InjectState
  | .suggest r => match s.journal.suggestions.get r.id, r.status with
    | none, .pending => some { s with journal := { s.journal with
        suggestions := s.journal.suggestions.put r.id r } }
    | _, _ => none
  | .testify id e => (s.journal.suggestions.get id).map fun r =>
    { s with journal := { s.journal with
      suggestions := s.journal.suggestions.put id { r with evidence := r.evidence ++ [e] } } }
  | .decide id decision => some { s with decides := s.decides ++ [⟨id, decision, .reading⟩] }
  | .inject runId resourceId maxInject =>
    some { s with injects := s.injects ++ [⟨runId, resourceId, maxInject, .reading⟩] }
  | .decideStep n => s.decides[n]?.bind fun c => (c.step s.journal).map fun (j, c') =>
    { s with journal := j, decides := s.decides.set n c' }
  | .injectStep n => s.injects[n]?.bind fun c =>
    (c.step s.journal (s.blocks c.runId)).map fun (frozen, c') =>
      { s with blocks := update s.blocks c.runId frozen, injects := s.injects.set n c' }
  | .decideCrash n => s.decides[n]?.bind fun c => match c.phase with
    | .ended _ => none
    | _ => some { s with decides := s.decides.set n { c with phase := .crashed } }
  | .injectCrash n => s.injects[n]?.bind fun c => match c.phase with
    | .ended _ => none
    | _ => some { s with injects := s.injects.set n { c with phase := .crashed } }

def run (s : InjectState) : List InjectEvent → Option InjectState
  | [] => some s
  | e :: events => (s.step e).bind (·.run events)

end InjectState

/-- The id goes on after the other one and a colon. -/
def Extends (r r' : ResourceId) : Prop := r.1 ++ js ":" <+: r'.1

/-- A lesson of a suggestion that was approved, and its key. -/
structure Approved (j : SuggJournal) (e : KeyedLesson) : Prop where
  key : e.1 = lessonKey e.2.owner e.2.fromSuggestion
  decision : ∃ d, j.decisions e.2.fromSuggestion = some d ∧ d.approve = true

/-- The block has been made of lessons that were approved, and those that are personal are those of
    the resource. -/
def OwnedBy (j : SuggJournal) (resourceId : Option ResourceId) (block : Block) : Prop :=
  ∃ chosen, block = blockOf chosen ∧ ∀ e ∈ chosen, Approved j e ∧
    ∀ r, e.2.owner = .personal r → resourceId = some r

namespace InjectState

/-- The calls of a run are for one resource, and none of the lessons that are frozen for a resource is
    that of another one whose id goes on after its id and a colon. -/
def Agrees (s : InjectState) : InjectEvent → Prop
  | .inject runId resourceId _ => ∀ c ∈ s.injects, c.runId = runId → c.resourceId = resourceId
  | .injectStep n => ∀ c, s.injects[n]? = some c → s.blocks c.runId = none →
    ∀ chosen, c.phase = .claiming chosen → ∀ e ∈ chosen, ∀ r r', c.resourceId = some r →
      e.2.owner = .personal r' → ¬Extends r r'
  | _ => True

/-- Every step of the run agrees. -/
def AllAgree (s : InjectState) : List InjectEvent → Prop
  | [] => True
  | e :: events => s.Agrees e ∧ ∀ s', s.step e = some s' → s'.AllAgree events

end InjectState

/-! ## Keys -/

/-- The key has been listed for the resource. -/
def KeyFor (resourceId : Option ResourceId) (k : JsString) : Prop :=
  (∃ r, resourceId = some r ∧ js "lesson:res:" ++ r.1 ++ js ":" <+: k) ∨ js "lesson:org:" <+: k

/-- What is found by the start of its key is of the resource, or of one whose id goes on after it. -/
theorem owner_of_isPrefix {r r' : ResourceId} {id : SuggId}
    (h : js "lesson:res:" ++ r.1 ++ js ":" <+: personalLessonKey r' id.text) :
    r' = r ∨ Extends r r' := by
  have hcolon : js ":" = [sep] := by decide
  rw [Extends, hcolon]
  simp only [personalLessonKey, hcolon, append_assoc, prefix_append_right_inj] at h
  -- Both start what follows: the id and its colon, and the id of the owner.
  have howner : r'.1 <+: r'.1 ++ ([sep] ++ id.text) := prefix_append _ _
  rcases lt_or_ge r.1.length r'.1.length with hlt | hle
  · have hlength : (r.1 ++ [sep]).length ≤ r'.1.length := by
      rwa [length_append, length_singleton]
    exact .inr (prefix_of_prefix_length_le h howner hlength)
  · obtain ⟨t, ht⟩ := prefix_of_prefix_length_le howner
      ((prefix_append r.1 [sep]).trans h) hle
    rcases t with _ | ⟨u, t⟩
    · exact .inl (Subtype.ext (by simpa using ht))
    · -- The id of the suggestion would have a colon.
      rw [← ht, append_assoc, prefix_append_right_inj, cons_append,
        singleton_append, cons_prefix_cons] at h
      exact absurd (h.2.subset (mem_append_right t (mem_singleton_self sep))) id.noColon

theorem not_org_of_personal {r : ResourceId} {id : SuggId} :
    ¬js "lesson:org:" <+: personalLessonKey r.1 id.text := by
  rintro ⟨t, ht⟩
  rw [personalLessonKey, append_assoc, append_assoc] at ht
  exact JsString.append_ne_append (by decide) (by decide) t _ ht

/-- What has been read of a lesson under a key that was listed. -/
def Told (j : SuggJournal) (resourceId : Option ResourceId) (e : KeyedLesson) : Prop :=
  Approved j e ∧ ∀ r', e.2.owner = .personal r' → ∃ r, resourceId = some r ∧ (r' = r ∨ Extends r r')

variable {j j' : SuggJournal} {resourceId : Option ResourceId} {k : JsString} {l : LessonRecord}

theorem told_of_get (hinv : j.Inv) (hkey : KeyFor resourceId k) (hl : j.lessons.get k = some l) :
    Told j resourceId (k, l) := by
  obtain ⟨hk, -, happroved⟩ := hinv.lessons k l hl
  refine ⟨⟨hk, happroved⟩, fun r' howner => ?_⟩
  dsimp only at howner
  rw [howner] at hk
  rcases hkey with ⟨r, hr, hstart⟩ | horg
  · exact ⟨r, hr, owner_of_isPrefix (hk ▸ hstart)⟩
  · exact absurd (hk ▸ horg) not_org_of_personal

variable {e : KeyedLesson}

theorem Approved.mono (h : Approved j e) (hgrows : j.Grows j') :
    Approved j' e := by
  obtain ⟨hkey, d, hd, happrove⟩ := h
  exact ⟨hkey, d, hgrows.decisions _ d hd, happrove⟩

theorem Told.mono (h : Told j resourceId e) (hgrows : j.Grows j') :
    Told j' resourceId e := ⟨h.1.mono hgrows, h.2⟩

theorem mem_choose {maxInject : Option ℤ} {out : List KeyedLesson} (h : e ∈ choose maxInject out) :
    e ∈ out := by
  rw [choose, sliceTo] at h
  split at h
  · exact (mem_insertionSort _).1 (mem_of_mem_take h)
  · exact (mem_insertionSort _).1 (mem_of_mem_take h)

theorem keyFor_of_mem_listLessons {start : JsString} (h : k ∈ j.listLessons start) : start <+: k :=
  JsString.startsWith_iff.1 (mem_filter.1 h).2

theorem OwnedBy.mono {block : Block} (h : OwnedBy j resourceId block) (hgrows : j.Grows j') :
    OwnedBy j' resourceId block := by
  obtain ⟨chosen, hblock, hall⟩ := h
  exact ⟨chosen, hblock, fun e he => ⟨(hall e he).1.mono hgrows, (hall e he).2⟩⟩

/-! ## A call -/

namespace InjectCall

variable {frozen frozen' : Option Block} {c c' : InjectCall}

/-- What is known of a call in a phase, by what is frozen for its run. -/
def InPhase (j : SuggJournal) (frozen : Option Block) (resourceId : Option ResourceId) :
    InjectPhase → Prop
  | .listingPersonal r => resourceId = some r
  | .listingOrg keys => ∀ k ∈ keys, KeyFor resourceId k
  | .scanning todo out => (∀ k ∈ todo, KeyFor resourceId k) ∧ ∀ e ∈ out, Told j resourceId e
  | .claiming chosen => ∀ e ∈ chosen, Told j resourceId e
  | .lost _ => frozen ≠ none
  | .ended block => frozen = some block
  | _ => True

theorem InPhase.mono {phase : InjectPhase} (h : InPhase j frozen resourceId phase)
    (hgrows : j.Grows j') (hfrozen : ∀ block, frozen = some block → frozen' = some block) :
    InPhase j' frozen' resourceId phase := by
  cases phase with
  | listingPersonal => exact h
  | listingOrg => exact h
  | scanning => exact ⟨h.1, fun e he => (h.2 e he).mono hgrows⟩
  | claiming => exact fun e he => (h e he).mono hgrows
  | lost =>
    obtain ⟨block, hblock⟩ := Option.ne_none_iff_exists'.1 h
    exact Option.ne_none_iff_exists'.2 ⟨block, hfrozen block hblock⟩
  | ended block => exact hfrozen block h
  | _ => trivial

theorem inPhase_scan {out : List KeyedLesson} {todo : List JsString}
    (hout : ∀ e ∈ out, Told j c.resourceId e) (htodo : ∀ k ∈ todo, KeyFor c.resourceId k) :
    InPhase j frozen c.resourceId (c.scan out todo) := by
  cases todo with
  | nil => exact fun e he => hout e (mem_choose he)
  | cons k todo => exact ⟨htodo, hout⟩

/-- What an operation can do. -/
inductive Next (j : SuggJournal) (frozen : Option Block) (c : InjectCall) :
    Option Block → InjectCall → Prop
  | move {phase} : InPhase j frozen c.resourceId phase →
      Next j frozen c frozen { c with phase := phase }
  | freeze {chosen} : c.phase = .claiming chosen → frozen = none →
      Next j frozen c (some (blockOf chosen)) { c with phase := .ended (blockOf chosen) }

theorem Next.keeps (h : Next j frozen c frozen' c') (block : Block) (hblock : frozen = some block) :
    frozen' = some block := by
  cases h with
  | move => exact hblock
  | freeze _ hnone =>
    rw [hnone] at hblock
    contradiction

theorem Next.inPhase (h : Next j frozen c frozen' c') :
    c'.runId = c.runId ∧ c'.resourceId = c.resourceId ∧
      InPhase j frozen' c.resourceId c'.phase := by
  cases h with
  | move hphase => exact ⟨rfl, rfl, hphase⟩
  | freeze => exact ⟨rfl, rfl, rfl⟩

theorem step_next (hinv : j.Inv) (hphase : InPhase j frozen c.resourceId c.phase)
    (h : c.step j frozen = some (frozen', c')) : Next j frozen c frozen' c' := by
  rw [step.eq_def] at h
  split at h
  · obtain ⟨rfl, rfl⟩ := Prod.mk.inj (Option.some.inj h)
    refine .move ?_
    split
    · rfl
    · assumption
    · exact forall_mem_nil _
  · next r hlisting =>
    rw [hlisting] at hphase
    obtain ⟨rfl, rfl⟩ := Prod.mk.inj (Option.some.inj h)
    exact .move fun k hk => .inl ⟨r, hphase, keyFor_of_mem_listLessons hk⟩
  · next keys hlisting =>
    rw [hlisting] at hphase
    obtain ⟨rfl, rfl⟩ := Prod.mk.inj (Option.some.inj h)
    refine .move (inPhase_scan (forall_mem_nil _) (forall_mem_append.2 ⟨hphase, ?_⟩))
    exact fun k hk => .inr (keyFor_of_mem_listLessons hk)
  · next out hscanning =>
    rw [hscanning] at hphase
    obtain ⟨rfl, rfl⟩ := Prod.mk.inj (Option.some.inj h)
    exact .move (inPhase_scan hphase.2 (forall_mem_nil _))
  · next k todo out hscanning =>
    rw [hscanning] at hphase
    obtain ⟨rfl, rfl⟩ := Prod.mk.inj (Option.some.inj h)
    obtain ⟨hk, htodo⟩ := forall_mem_cons.1 hphase.1
    refine .move ?_
    split
    · next l hl =>
      refine inPhase_scan (forall_mem_append.2 ⟨hphase.2, ?_⟩) htodo
      exact forall_mem_singleton.2 (told_of_get hinv hk hl)
    · exact inPhase_scan hphase.2 htodo
  · next chosen hclaiming =>
    split at h
    · obtain ⟨rfl, rfl⟩ := Prod.mk.inj (Option.some.inj h)
      exact .freeze hclaiming rfl
    · obtain ⟨rfl, rfl⟩ := Prod.mk.inj (Option.some.inj h)
      exact .move nofun
  · next chosen hlost =>
    rw [hlost] at hphase
    obtain ⟨rfl, rfl⟩ := Prod.mk.inj (Option.some.inj h)
    obtain ⟨block, rfl⟩ := Option.ne_none_iff_exists'.1 hphase
    exact .move rfl
  · contradiction
  · contradiction

end InjectCall

/-! ## All calls -/

namespace InjectState

variable {s t : InjectState} {e : InjectEvent}

/-- What is known of all calls. -/
structure Inv (s : InjectState) : Prop where
  journal : s.journal.Inv
  decides : ∀ c ∈ s.decides, DecideCall.InPhase s.journal c.id c.phase
  injects : ∀ c ∈ s.injects,
    InjectCall.InPhase s.journal (s.blocks c.runId) c.resourceId c.phase

/-- Only the journal changes. -/
theorem Inv.journal_of_grows (h : s.Inv) (hgrows : s.journal.Grows j) (hj : j.Inv) :
    Inv { s with journal := j } where
  journal := hj
  decides c hc := (h.decides c hc).mono hgrows
  injects c hc := (h.injects c hc).mono hgrows fun _ h => h

/-- What an event can do to what is frozen, and to the calls that inject. -/
inductive Next (s : InjectState) : InjectEvent → InjectState → Prop
  | other {e j decides} : s.journal.Grows j →
      Next s e { s with journal := j, decides := decides }
  | begin {runId resourceId maxInject} : Next s (.inject runId resourceId maxInject)
      { s with injects := s.injects ++ [⟨runId, resourceId, maxInject, .reading⟩] }
  | inject {n c frozen c'} : s.injects[n]? = some c →
      InjectCall.Next s.journal (s.blocks c.runId) c frozen c' →
      Next s (.injectStep n)
        { s with blocks := update s.blocks c.runId frozen, injects := s.injects.set n c' }
  | crash {n c} : s.injects[n]? = some c →
      Next s (.injectCrash n) { s with injects := s.injects.set n { c with phase := .crashed } }

theorem step_next (h : s.Inv) (hstep : s.step e = some t) : s.Next e t ∧ t.Inv := by
  cases e with
  | suggest r =>
    rw [step] at hstep
    split at hstep
    · next hnone _ =>
      obtain rfl := Option.some.inj hstep
      have hgrows := SuggJournal.grows_suggest hnone
      exact ⟨.other hgrows, h.journal_of_grows hgrows (h.journal.put hgrows)⟩
    · contradiction
  | testify id e =>
    obtain ⟨r, hr, rfl⟩ := Option.map_eq_some_iff.1 hstep
    obtain rfl := h.journal.named id r hr
    have hgrows := SuggJournal.grows_put (r := { r with evidence := r.evidence ++ [e] }) hr
      ⟨rfl, rfl, rfl, rfl⟩
    have hinv :=
      SuggJournal.Inv.put (r := { r with evidence := r.evidence ++ [e] }) h.journal hgrows
    exact ⟨.other hgrows, h.journal_of_grows hgrows hinv⟩
  | decide id decision =>
    obtain rfl := Option.some.inj hstep
    refine ⟨.other (.refl _), h.journal, forall_mem_append.2 ⟨h.decides, ?_⟩, h.injects⟩
    exact forall_mem_singleton.2 trivial
  | inject runId resourceId maxInject =>
    obtain rfl := Option.some.inj hstep
    refine ⟨.begin, h.journal, h.decides, forall_mem_append.2 ⟨h.injects, ?_⟩⟩
    exact forall_mem_singleton.2 trivial
  | decideStep n =>
    obtain ⟨c, hc, hstep⟩ := Option.bind_eq_some_iff.1 hstep
    obtain ⟨⟨j, c'⟩, hcstep, rfl⟩ := Option.map_eq_some_iff.1 hstep
    have hnext := DecideCall.step_next hcstep
    have hphase := h.decides c (mem_of_getElem? hc)
    have hgrows := hnext.grows h.journal
    have hinv := h.journal_of_grows hgrows (hnext.inv h.journal hphase)
    refine ⟨.other hgrows, hinv.journal, fun d hd => ?_, hinv.injects⟩
    rcases mem_or_eq_of_mem_set hd with hd | rfl
    · exact hinv.decides d hd
    · exact hnext.inPhase h.journal hphase
  | injectStep n =>
    obtain ⟨c, hc, hstep⟩ := Option.bind_eq_some_iff.1 hstep
    obtain ⟨⟨frozen, c'⟩, hcstep, rfl⟩ := Option.map_eq_some_iff.1 hstep
    have hphase := h.injects c (mem_of_getElem? hc)
    have hnext := InjectCall.step_next h.journal hphase hcstep
    obtain ⟨hrun, hresource, hphase'⟩ := hnext.inPhase
    refine ⟨.inject hc hnext, h.journal, h.decides, fun d hd => ?_⟩
    dsimp only
    rcases mem_or_eq_of_mem_set hd with hd | rfl
    · rcases eq_or_ne d.runId c.runId with heq | hne
      · rw [heq, update_self]
        refine (h.injects d hd).mono (.refl _) ?_
        rw [heq]
        exact hnext.keeps
      · rw [update_of_ne hne]
        exact h.injects d hd
    · rw [hrun, hresource, update_self]
      exact hphase'
  | decideCrash n =>
    obtain ⟨c, hc, hstep⟩ := Option.bind_eq_some_iff.1 hstep
    split at hstep
    · contradiction
    · obtain rfl := Option.some.inj hstep
      refine ⟨.other (.refl _), h.journal, fun d hd => ?_, h.injects⟩
      rcases mem_or_eq_of_mem_set hd with hd | rfl
      · exact h.decides d hd
      · trivial
  | injectCrash n =>
    obtain ⟨c, hc, hstep⟩ := Option.bind_eq_some_iff.1 hstep
    split at hstep
    · contradiction
    · obtain rfl := Option.some.inj hstep
      refine ⟨.crash hc, h.journal, h.decides, fun d hd => ?_⟩
      rcases mem_or_eq_of_mem_set hd with hd | rfl
      · exact h.injects d hd
      · trivial

theorem inv_init : init.Inv :=
  ⟨SuggJournal.inv_empty, forall_mem_nil _, forall_mem_nil _⟩

/-- A call returns what is frozen for its run. -/
theorem Inv.ended (h : s.Inv) {c : InjectCall} (hc : c ∈ s.injects) {block : Block}
    (hended : c.phase = .ended block) : s.blocks c.runId = some block := by
  have hphase := h.injects c hc
  rwa [hended] at hphase

/-- The runs that have been injected into, and for whom. -/
def owners (s : InjectState) : List (JsString × Option ResourceId) :=
  s.injects.map fun c => (c.runId, c.resourceId)

theorem owners_set {n : ℕ} {c c' : InjectCall} (hc : s.injects[n]? = some c)
    (hrun : c'.runId = c.runId) (hresource : c'.resourceId = c.resourceId) :
    ((s.injects.set n c').map fun c => (c.runId, c.resourceId)) = s.owners := by
  refine ext_getElem? fun i => ?_
  rw [owners, map_set, getElem?_set, hrun, hresource]
  split
  · next hin =>
    subst hin
    obtain ⟨hlt, -⟩ := List.getElem?_eq_some_iff.1 hc
    rw [length_map, if_pos hlt, getElem?_map, hc]
    rfl
  · rfl

/-- What is frozen for a run was frozen for its resource. -/
structure Owned (s : InjectState) : Prop where
  frozen : ∀ runId block, s.blocks runId = some block →
    ∃ resourceId, (runId, resourceId) ∈ s.owners ∧ OwnedBy s.journal resourceId block
  same : ∀ runId r r', (runId, r) ∈ s.owners → (runId, r') ∈ s.owners → r = r'

theorem Owned.step (howned : s.Owned) (h : s.Inv) (hagrees : s.Agrees e)
    (hstep : s.step e = some t) : t.Owned := by
  cases (step_next h hstep).1 with
  | other hgrows =>
    refine ⟨fun runId block hblock => ?_, howned.same⟩
    obtain ⟨r, hr, hby⟩ := howned.frozen runId block hblock
    exact ⟨r, hr, hby.mono hgrows⟩
  | @begin runId resourceId maxInject =>
    have howners : owners { s with
        injects := s.injects ++ [⟨runId, resourceId, maxInject, .reading⟩] } =
          s.owners ++ [(runId, resourceId)] := map_append
    refine ⟨fun runId' block hblock => ?_, ?_⟩
    · obtain ⟨r, hr, hby⟩ := howned.frozen runId' block hblock
      rw [howners]
      exact ⟨r, mem_append_left _ hr, hby⟩
    · rw [howners]
      -- The calls before it that are of its run are for its resource.
      have hbefore (r : Option ResourceId) (hr : (runId, r) ∈ s.owners) : r = resourceId := by
        obtain ⟨c, hc, heq⟩ := mem_map.1 hr
        obtain ⟨hrun, rfl⟩ := Prod.mk.inj heq
        exact hagrees c hc hrun
      intro runId' r r' hr hr'
      rcases mem_append.1 hr with hold | hnew <;>
        rcases mem_append.1 hr' with hold' | hnew'
      · exact howned.same runId' r r' hold hold'
      · obtain ⟨rfl, rfl⟩ := Prod.mk.inj (mem_singleton.1 hnew')
        exact hbefore r hold
      · obtain ⟨rfl, rfl⟩ := Prod.mk.inj (mem_singleton.1 hnew)
        exact (hbefore r' hold').symm
      · obtain ⟨-, rfl⟩ := Prod.mk.inj (mem_singleton.1 hnew)
        obtain ⟨-, rfl⟩ := Prod.mk.inj (mem_singleton.1 hnew')
        rfl
  | @inject n c frozen c' hc hnext =>
    obtain ⟨hrun, hresource, -⟩ := hnext.inPhase
    have howners : owners { s with
        blocks := update s.blocks c.runId frozen, injects := s.injects.set n c' } =
          s.owners := owners_set hc hrun hresource
    refine ⟨fun runId block hblock => ?_, howners ▸ howned.same⟩
    rw [howners]
    rcases eq_or_ne runId c.runId with rfl | hne
    · cases hnext with
      | move =>
        rw [update_eq_self] at hblock
        exact howned.frozen _ block hblock
      | @freeze chosen hclaiming hnone =>
        change update s.blocks c.runId (some (blockOf chosen)) c.runId = some block at hblock
        rw [update_self] at hblock
        obtain rfl := Option.some.inj hblock
        have htold := h.injects c (mem_of_getElem? hc)
        rw [hclaiming] at htold
        refine ⟨c.resourceId, mem_map.2 ⟨c, mem_of_getElem? hc, rfl⟩, chosen, rfl, ?_⟩
        intro e he
        obtain ⟨happroved, howner⟩ := htold e he
        refine ⟨happroved, fun r' hr' => ?_⟩
        obtain ⟨r, hr, rfl | hextends⟩ := howner r' hr'
        · exact hr
        · exact absurd hextends (hagrees c hc hnone chosen hclaiming e he r r' hr hr')
    · exact howned.frozen runId block ((update_of_ne hne _ _).symm.trans hblock)
  | @crash n c hc =>
    have howners : owners { s with injects := s.injects.set n { c with phase := .crashed } } =
      s.owners := owners_set hc rfl rfl
    exact ⟨howners ▸ howned.frozen, howners ▸ howned.same⟩

variable {events : List InjectEvent}

theorem Inv.run (h : s.Inv) (hrun : s.run events = some t) : t.Inv := by
  induction events generalizing s with
  | nil =>
    obtain rfl := Option.some.inj hrun
    exact h
  | cons e events ih =>
    obtain ⟨s', hstep, hrest⟩ := Option.bind_eq_some_iff.1 hrun
    exact ih (step_next h hstep).2 hrest

theorem Owned.run (howned : s.Owned) (h : s.Inv) (hagrees : s.AllAgree events)
    (hrun : s.run events = some t) : t.Owned := by
  induction events generalizing s with
  | nil =>
    obtain rfl := Option.some.inj hrun
    exact howned
  | cons e events ih =>
    obtain ⟨s', hstep, hrest⟩ := Option.bind_eq_some_iff.1 hrun
    exact ih (howned.step h hagrees.1 hstep) (step_next h hstep).2 (hagrees.2 s' hstep) hrest

theorem owned_init : init.Owned := ⟨nofun, nofun⟩

theorem AllAgree.cons (h : s.Agrees e) (hstep : s.step e = some t) (ht : t.AllAgree events) :
    s.AllAgree (e :: events) := by
  refine ⟨h, fun s' hs' => ?_⟩
  obtain rfl := Option.some.inj (hstep.symm.trans hs')
  exact ht

end InjectState

/-! ## The promises -/

open InjectState

/-- In every run all calls of one run of the agent return one block. The personal lessons in it were
    approved for the resource of the call, as long as each run is of one resource, and none of the
    lessons that are frozen for a resource is that of another one whose id goes on after it. -/
theorem told_by_owner (events : List InjectEvent) (s : InjectState)
    (hrun : InjectState.init.run events = some s) :
    (∀ c ∈ s.injects, ∀ d ∈ s.injects, c.runId = d.runId → ∀ b b', c.phase = .ended b →
      d.phase = .ended b' → b = b') ∧
    (InjectState.init.AllAgree events → ∀ c ∈ s.injects, ∀ b, c.phase = .ended b →
      OwnedBy s.journal c.resourceId b) := by
  have hinv := inv_init.run hrun
  refine ⟨fun c hc d hd heq b b' hb hb' => ?_, fun hagrees c hc b hb => ?_⟩
  · have hfrozen := hinv.ended hc hb
    rw [heq, hinv.ended hd hb'] at hfrozen
    exact (Option.some.inj hfrozen).symm
  · have howned := owned_init.run inv_init hagrees hrun
    obtain ⟨r, hr, hby⟩ := howned.frozen _ b (hinv.ended hc hb)
    have hmem : (c.runId, c.resourceId) ∈ s.owners := mem_map.2 ⟨c, hc, rfl⟩
    rwa [howned.same _ _ _ hmem hr]

/-- `a`, and `a:b`. -/
def short : ResourceId := ⟨[97], by decide⟩
def long : ResourceId := ⟨[97, 58, 98], by decide⟩

/-- A suggestion of a resource. -/
def suggestionOf (resourceId : ResourceId) : SuggestionRecord where
  id := .one
  owner := .personal resourceId
  status := .pending
  rule := [114]
  mechanism := [109]
  vecB64 := none
  embedModelId := none
  evidence := []
  at_ := 0
  decidedAt := none
  decidedBy := none

/-- The suggestion of a resource is approved, and a run of another one is told what it may be. -/
def toldOf (resourceId other : ResourceId) : List InjectEvent :=
  [.suggest (suggestionOf resourceId), .decide .one ⟨true, none, 5⟩, .decideStep 0,
    .decideStep 0, .decideStep 0, .decideStep 0, .decideStep 0, .decideStep 0,
    .inject [120] (some other) none, .injectStep 0, .injectStep 0, .injectStep 0, .injectStep 0,
    .injectStep 0]

theorem own_lesson_told :
    ∃ s, InjectState.init.run (toldOf short short) = some s ∧
      ∀ c ∈ s.injects, ∀ b, c.phase = .ended b → OwnedBy s.journal c.resourceId b := by
  refine ⟨_, rfl, (told_by_owner (toldOf short short) _ rfl).2 ?_⟩
  have hnot : ¬Extends short short := by
    rw [Extends]
    decide
  refine .cons trivial rfl <| .cons trivial rfl <| .cons trivial rfl <| .cons trivial rfl <|
    .cons trivial rfl <| .cons trivial rfl <| .cons trivial rfl <| .cons trivial rfl <|
    .cons (forall_mem_nil _) rfl <| .cons ?_ rfl <| .cons ?_ rfl <| .cons ?_ rfl <|
    .cons ?_ rfl <| .cons ?_ rfl trivial
  · rintro _ ⟨⟩ _ _ ⟨⟩
  · rintro _ ⟨⟩ _ _ ⟨⟩
  · rintro _ ⟨⟩ _ _ ⟨⟩
  · rintro _ ⟨⟩ _ _ ⟨⟩
  · rintro _ ⟨⟩ _ _ ⟨⟩ e he r r' hr hr'
    obtain rfl := mem_singleton.1 he
    obtain rfl := Option.some.inj hr
    obtain rfl := Owner.personal.inj hr'
    exact hnot

/-- A resource is told the lesson of another one, whose id goes on after its own and a colon. -/
theorem other_lesson_told :
    ∃ s, InjectState.init.run (toldOf long short) = some s ∧
      ∃ c ∈ s.injects, ∃ b, c.phase = .ended b ∧ ¬OwnedBy s.journal c.resourceId b := by
  refine ⟨_, rfl, _, mem_singleton_self _, _, rfl, ?_⟩
  rintro ⟨chosen, hblock, hall⟩
  have hids := congrArg Block.ids hblock
  rcases chosen with _ | ⟨e, rest⟩
  · exact nomatch hids
  · have hkey : lessonKey (.personal long) .one = e.1 :=
      (List.cons.inj hids).1
    obtain ⟨happroved, howner⟩ := hall e mem_cons_self
    have howns := (lessonKey_inj (hkey.trans happroved.key)).1
    exact absurd (howner _ howns.symm) (by decide)

end Gnldev.Durable.Suggestions
