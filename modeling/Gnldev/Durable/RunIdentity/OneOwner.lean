import Gnldev.Durable.RunIdentity
import Mathlib.Data.Set.Insert

/-!
# One owner to a run

Any number of births, entries and forks, in any interleaving, on any runs. A call is admitted as the
owner that it has read, and an agent writes its input over the record that it was admitted by. So the
owner stays, unless the record is not the one it was: an agent that has lost the claim of its birth
goes on as itself, and a fork goes on whatever it finds (`owner_changes`).

* `RunFact`: what a call knows of a run, which stays so;
* `IdentityStep`: the protocol of the calls, on what they know;
* `Unrivalled`: no claim is lost to another owner, or won of a run that there is;
* `one_owner`: then every run has one owner.
-/

namespace Gnldev.Durable

open Prog Function

variable {I V : Type}

/-! ## The protocol -/

/-- What a call knows: whose the run is, that it has rows or a record, that it has a record. -/
inductive RunFact where
  | owner (runId : JsString) (c : Caller)
  | rows (runId : JsString)
  | record (runId : JsString)

/-- What is known when the record of a run has been read: without one, and with rows, it is staff's;
    and there is one when there has been one. -/
def readInput (s : Set RunFact) (runId : JsString) : Option OwnerRecord → Set RunFact
  | some record => insert (.owner runId (recordOwner record)) s
  | none => s ∪ {f | ∃ c, f = .owner runId c ∧ (.record runId ∈ s ∨ .rows runId ∈ s ∧ c = STAFF)}

/-- The caller may act as the owner. -/
def Caller.Reaches : Caller → Caller → Prop
  | staff _, _ => True
  | unknown, c => c = unknown
  | user id _, c => ∃ orgId, c = user id orgId

namespace IdentityJob

def isAgent : IdentityJob I → Bool
  | agent _ => true
  | _ => false

def isFork : IdentityJob I → Bool
  | fork _ => true
  | _ => false

/-- The call may be admitted to the run as `c`. -/
def Admits (job : IdentityJob I) (runId : JsString) (c : Caller) : Prop :=
  match job with
  | entering id caller _ => id = runId ∧ caller.Reaches c
  | agent args => args.runId = runId ∧ args.caller.Reaches c
  | _ => False

end IdentityJob

/-- An operation that says nothing about the owner of a run. -/
def IdentityOp.outside : IdentityOp I V → Bool
  | readRun _ | admitThread _ | gate | compensated _ | namespaceTaken _ | now => true
  | _ => false

/-- An operation that says something, when it does not throw. -/
def IdentityOp.asks : IdentityOp I V → Bool
  | getInput _ | rowsPresent _ | claim _ _ => true
  | _ => false

/-- What is known after a claim. An agent and a fork go on as they have claimed. -/
def claimed (job : IdentityJob I) (s : Set RunFact) (runId : JsString) (record : OwnerRecord) :
    Set RunFact :=
  s ∪ {f | f = .record runId ∨ (job.isAgent ∨ job.isFork) ∧ f = .owner runId (recordOwner record)}

/-- The protocol of a call. -/
inductive IdentityStep (job : IdentityJob I) :
    Set RunFact → (o : IdentityOp I V) → o.Res → Set RunFact → Prop
  | getInput {s runId r} : IdentityStep job s (.getInput runId) (.ok r) (readInput s runId r)
  | rowsPresent {s runId found} : IdentityStep job s (.rowsPresent runId) (.ok found)
      (s ∪ {f | found ∧ f = .rows runId})
  | claim {s runId record won} : IdentityStep job s (.claim runId record) (.ok won)
      (claimed job s runId record)
  | putInput {s src dst c record r} : .owner src c ∈ s → .owner src (recordOwner record) ∈ s →
      .owner dst c ∈ s → IdentityStep job s (.putInput dst record) r s
  | putRow {s runId key value r} : IdentityStep job s (.putRow runId key value) r s
  | runStarted {s runId c r} : .owner runId c ∈ s → job.Admits runId c →
      IdentityStep job s (.runStarted runId c) r s
  | outside {s o r} : o.outside → IdentityStep job s o r s
  | thrown {s o e} : o.asks → IdentityStep job s o (.error e) s

/-- The owner, as it is known. -/
def RunOwner.Known (runId : JsString) (s : Set RunFact) : RunOwner → Prop
  | missing => True
  | owned c _ => .owner runId c ∈ s ∧ c.Named

section Protocol

variable {job : IdentityJob I} {F : Set RunFact} {runId : JsString} {caller : Caller}

theorem subset_readInput (s : Set RunFact) (r : Option OwnerRecord) : s ⊆ readInput s runId r := by
  cases r with
  | none => exact Set.subset_union_left
  | some record => exact Set.subset_insert ..

variable {P : Set RunFact → Prop}

/-- An operation that the protocol lets pass. -/
theorem stays_known {o : IdentityOp I V} (h : ∀ s r, P s → IdentityStep job s o r s) :
    Runs (IdentityStep job) P (performIdentity o) (fun s _ => P s) fun _ _ => True :=
  runs_perform (fun s _ hs => ⟨s, h s _ hs, hs⟩) fun s _ hs => ⟨s, h s _ hs, trivial⟩

theorem outside_known {o : IdentityOp I V} (h : o.outside) :
    Runs (IdentityStep job) P (performIdentity o) (fun s _ => P s) fun _ _ => True :=
  stays_known fun _ _ _ => .outside h

theorem getInput_runs : Runs (IdentityStep (I := I) (V := V) job) (F ⊆ ·)
    (performIdentity (.getInput runId)) (fun s r => ∃ t, F ⊆ t ∧ s = readInput t runId r)
    fun _ _ => True :=
  runs_perform (fun s _ hs => ⟨_, .getInput, s, hs, rfl⟩) fun s _ _ => ⟨s, .thrown rfl, trivial⟩

theorem throwAny_runs (e : Option IdentityError) :
    Runs (IdentityStep (I := I) (V := V) job) P (throwAny e) (fun s _ => P s ∧ e = none)
      fun _ _ => True := by
  rcases e with _ | e
  · exact runs_pure fun _ h => ⟨h, rfl⟩
  · exact runs_throw fun _ _ => trivial

theorem callerOf_runs :
    Runs (IdentityStep (I := I) (V := V) job) P (callerOf caller)
      (fun s c => P s ∧ c = caller ∧ caller.Named) fun _ _ => True := by
  rcases caller with ⟨id, orgId⟩ | orgId | _
  · rw [callerOf]
    split
    · exact runs_throw fun _ _ => trivial
    · next hid => exact runs_pure fun _ h => ⟨h, rfl, hid⟩
  · exact runs_pure fun _ h => ⟨h, rfl, trivial⟩
  · exact runs_pure fun _ h => ⟨h, rfl, trivial⟩

/-- The owner of a run is read. -/
theorem runOwnerOf_runs : Runs (IdentityStep (I := I) (V := V) job) (F ⊆ ·) (runOwnerOf runId)
    (fun s owner => F ⊆ s ∧ owner.Known runId s) fun _ _ => True := by
  have hread {G : Set RunFact} (hG : F ⊆ G) (record : OwnerRecord) (s : Set RunFact)
      (hs : ∃ t, G ⊆ t ∧ s = readInput t runId (some record)) :
      F ⊆ s ∧ (RunOwner.owned (recordOwner record) (some record)).Known runId s := by
    obtain ⟨t, ht, rfl⟩ := hs
    exact ⟨(hG.trans ht).trans (subset_readInput ..), Set.mem_insert .., recordOwner_named record⟩
  refine Runs.bind getInput_runs fun r => ?_
  rcases r with _ | record
  · refine Runs.bind (Q := fun s (found : Bool) => F ∪ {f | found ∧ f = .rows runId} ⊆ s) ?_
      fun found => ?_
    · refine runs_perform ?_ fun s _ _ => ⟨s, .thrown rfl, trivial⟩
      rintro _ found ⟨t, ht, rfl⟩
      exact ⟨_, .rowsPresent, Set.union_subset_union_left _ (ht.trans (subset_readInput ..))⟩
    · rcases found with _ | _
      · exact runs_pure fun s hs => ⟨Set.subset_union_left.trans hs, trivial⟩
      · refine Runs.bind getInput_runs fun r => ?_
        rcases r with _ | record
        · refine runs_pure ?_
          rintro _ ⟨t, ht, rfl⟩
          refine ⟨(Set.subset_union_left.trans ht).trans (subset_readInput ..), .inr ?_, trivial⟩
          exact ⟨STAFF, rfl, .inr ⟨ht (.inr ⟨rfl, rfl⟩), rfl⟩⟩
        · exact runs_pure (hread Set.subset_union_left record)
  · exact runs_pure (hread (Set.Subset.refl _) record)

/-- Who may act on a run, reaches whom it acts for. -/
theorem reaches_of_allow {c : Caller} {record : Option OwnerRecord}
    (h : decideRunAccess (.owned c record) caller = .allow) : caller.Reaches c := by
  rcases caller with ⟨id, orgId⟩ | orgId | _
  · rcases c with ⟨owner, orgId'⟩ | orgId' | _
    · rw [decideRunAccess] at h
      split at h
      · next howner => exact ⟨orgId', by rw [howner]⟩
      · contradiction
    · contradiction
    · contradiction
  · trivial
  · rw [decideRunAccess] at h
    split at h
    · next hunknown => exact hunknown
    · contradiction

theorem reaches_self (c : Caller) : c.Reaches c := by
  rcases c with ⟨id, orgId⟩ | orgId | _
  · exact ⟨orgId, rfl⟩
  · trivial
  · rfl

theorem decide_owned (c : Caller) (record : Option OwnerRecord) (caller : Caller) :
    decideRunAccess (.owned c record) caller ≠ .missing := by
  rcases caller with ⟨id, orgId⟩ | orgId | _
  · rcases c with ⟨owner, orgId'⟩ | orgId' | _
    · rw [decideRunAccess]
      split <;> nofun
    · nofun
    · nofun
  · nofun
  · rw [decideRunAccess]
    split <;> nofun

/-- Whom a call acts for. -/
theorem actingCaller_runs (owner : RunOwner) :
    Runs (IdentityStep (I := I) (V := V) job) P (actingCaller owner caller)
      (fun s acting => P s ∧ ∀ c ∈ acting, caller.Reaches c ∧
        ((owner = .missing ∧ c = caller ∧ c.Named) ∨ ∃ record, owner = .owned c record))
      fun _ _ => True := by
  rcases owner with _ | ⟨c, record⟩
  · refine Runs.bind callerOf_runs fun c => runs_pure ?_
    rintro s ⟨hs, rfl, hnamed⟩
    refine ⟨hs, ?_⟩
    rintro _ ⟨⟩
    exact ⟨reaches_self c, .inl ⟨rfl, rfl, hnamed⟩⟩
  · rcases h : decideRunAccess (.owned c record) caller with _ | _ | _
    · simp only [actingCaller, h]
      refine runs_pure fun s hs => ⟨hs, ?_⟩
      rintro _ ⟨⟩
      exact ⟨reaches_of_allow h, .inr ⟨record, rfl⟩⟩
    · simp only [actingCaller, h]
      exact runs_pure fun s hs => ⟨hs, nofun⟩
    · exact absurd h (decide_owned c record caller)

/-- A birth claims the record, and knows whose it is when it has read it back. -/
theorem claimRunOwner_runs (hnamed : caller.Named) (fields : BirthFields) :
    Runs (IdentityStep (I := I) (V := V) job) (F ⊆ ·) (claimRunOwner runId caller fields)
      (fun s c => F ⊆ s ∧ .owner runId c ∈ s ∧
        (job.isAgent ∨ job.isFork → .owner runId caller ∈ s)) fun _ _ => True := by
  refine Runs.bind (Q := fun s _ => claimed job F runId (stampOwner fields caller) ⊆ s) ?_ fun _ =>
    Runs.bind getInput_runs fun r => ?_
  · refine runs_perform (fun s _ hs => ⟨_, .claim, ?_⟩) fun s _ _ => ⟨s, .thrown rfl, trivial⟩
    exact Set.union_subset_union_left _ hs
  · have hkept {s t : Set RunFact} (ht : claimed job F runId (stampOwner fields caller) ⊆ t)
        (hs : s = readInput t runId r) :
        F ⊆ s ∧ (job.isAgent ∨ job.isFork → .owner runId caller ∈ s) := by
      rw [hs]
      refine ⟨(Set.subset_union_left.trans ht).trans (subset_readInput ..), fun hjob => ?_⟩
      refine subset_readInput _ _ (ht (.inr (.inr ⟨hjob, ?_⟩)))
      rw [recordOwner_stampOwner hnamed]
    rcases r with _ | record
    · refine callerOf_runs.post ?_
      rintro s c ⟨⟨t, ht, hs⟩, rfl, -⟩
      refine ⟨(hkept ht hs).1, ?_, (hkept ht hs).2⟩
      rw [hs]
      exact .inr ⟨_, rfl, .inl (ht (.inr (.inl rfl)))⟩
    · refine runs_pure ?_
      rintro s ⟨t, ht, hs⟩
      refine ⟨(hkept ht hs).1, ?_, (hkept ht hs).2⟩
      rw [hs]
      exact Set.mem_insert ..

theorem inheritOwner_runs {src dst : JsString} (fields : BirthFields) :
    Runs (IdentityStep (I := I) (V := V) job) (∅ ⊆ ·) (inheritOwner src dst fields)
      (fun s _ => ∃ c, .owner src c ∈ s ∧ (job.isFork → .owner dst c ∈ s)) fun _ _ => True := by
  refine Runs.bind runOwnerOf_runs fun owner => ?_
  rcases owner with _ | ⟨c, record⟩
  · exact runs_throw fun _ _ => trivial
  · intro s hs
    refine (claimRunOwner_runs (F := {.owner src c}) hs.2.2 fields).post (fun s _ h => ?_) s ?_
    · exact ⟨c, h.1 rfl, fun hfork => h.2.2 (.inr hfork)⟩
    · exact Set.singleton_subset_iff.2 hs.2.1

/-- Who is admitted to the run is known as its owner, and the caller reaches it. -/
def AdmittedTo (runId : JsString) (caller : Caller) (s : Set RunFact) (a : Admission) : Prop :=
  ∀ id c, a = some (id, c) → id = runId ∧ .owner runId c ∈ s ∧ caller.Reaches c

theorem admitRun_runs (birth : Option BirthFields) :
    Runs (IdentityStep (I := I) (V := V) job) (∅ ⊆ ·) (admitRun runId caller birth)
      (fun s x => AdmittedTo runId caller s (admission runId x)) fun _ _ => True := by
  refine Runs.bind runOwnerOf_runs fun owner => Runs.bind (actingCaller_runs owner) fun acting => ?_
  rcases owner with _ | ⟨o, record⟩
  · rcases acting with _ | acting
    · exact runs_throw fun _ _ => trivial
    · rcases birth with _ | fields
      · exact runs_pure fun _ _ => nofun
      · intro s hs
        obtain ⟨-, hacting⟩ := hs
        obtain ⟨-, ⟨-, rfl, hnamed⟩ | ⟨_, hrecord⟩⟩ := hacting acting rfl
        · refine Runs.bind (claimRunOwner_runs (F := ∅) hnamed fields) (fun recorded =>
            Runs.bind (actingCaller_runs _) fun again => ?_) s (Set.empty_subset s)
          rcases again with _ | again
          · exact runs_throw fun _ _ => trivial
          · refine runs_pure ?_
            rintro s ⟨⟨-, hrecorded, -⟩, hagain⟩ id c ⟨⟩
            obtain ⟨hreaches, ⟨hmissing, -⟩ | ⟨_, howned⟩⟩ := hagain again rfl
            · contradiction
            · obtain rfl := (RunOwner.owned.inj howned).1
              exact ⟨rfl, hrecorded, hreaches⟩
        · contradiction
  · rcases acting with _ | acting
    · exact runs_throw fun _ _ => trivial
    · refine runs_pure ?_
      rintro s ⟨⟨-, hknown⟩, hacting⟩ id c ⟨⟩
      obtain ⟨hreaches, ⟨hmissing, -⟩ | ⟨_, howned⟩⟩ := hacting acting rfl
      · contradiction
      · obtain rfl := (RunOwner.owned.inj howned).1
        exact ⟨rfl, hknown.1, hreaches⟩

/-! ### Agents -/

/-- What an agent knows when it has entered the run, unless it is refused. -/
structure Entered (args : AgentArgs) (s : Set RunFact) (owner : RunOwner) (acting : Caller) :
    Prop where
  reaches : args.caller.Reaches acting
  named : acting.Named
  owned : owner = .missing ∨ .owner args.runId acting ∈ s

variable {args : AgentArgs}

theorem enterAgentRun_runs : Runs (IdentityStep (I := I) (V := V) job) (∅ ⊆ ·)
    (enterAgentRun args.runId args.caller)
    (fun s x => x.2.2 = none → Entered args s x.1 x.2.1) fun _ _ => True := by
  refine Runs.bind runOwnerOf_runs fun owner => Runs.bind callerOf_runs fun declared =>
    Runs.bind (actingCaller_runs owner) fun acting => ?_
  rcases acting with _ | acting
  · rcases owner with _ | ⟨o, record⟩
    · exact runs_pure fun _ _ => nofun
    · exact runs_pure fun _ _ => nofun
  · refine runs_pure ?_
    rintro s ⟨⟨⟨-, hknown⟩, rfl, -⟩, hacting⟩ -
    obtain ⟨hreaches, ⟨hmissing, -, hnamed⟩ | ⟨record, rfl⟩⟩ := hacting acting rfl
    · exact ⟨hreaches, hnamed, .inl hmissing⟩
    · exact ⟨hreaches, hknown.2, .inr hknown.1⟩

/-- Staff may act for anyone. -/
theorem reaches_of_staff {orgId : Option JsString} (h : caller.Reaches (.staff orgId)) (c : Caller) :
    caller.Reaches c := by
  rcases caller with ⟨id, orgId'⟩ | orgId' | _
  · obtain ⟨_, h⟩ := h
    contradiction
  · trivial
  · contradiction

theorem threadCaller_runs (owner : RunOwner) (acting : Caller) (refusal : Option IdentityError) :
    Runs (IdentityStep (I := I) (V := V) job)
      (fun s => (refusal = none → Entered args s owner acting) ∧ (args.thread → refusal = none))
      (threadCaller args owner acting)
      (fun s caller => refusal = none → Entered args s owner caller) fun _ _ => True := by
  rw [threadCaller]
  split
  · next hthread =>
    refine Runs.bind ((outside_known rfl).pre fun s hs => hs.1 (hs.2 hthread)) fun th => ?_
    split
    · next id _ => exact runs_pure fun s h _ => ⟨reaches_of_staff h.reaches _, id.2, .inl rfl⟩
    · exact runs_pure fun _ h _ => h
  · exact runs_pure fun _ h => h.1

theorem bornAs_runs (hjob : job.isAgent) (owner : RunOwner) (caller : Caller) :
    Runs (IdentityStep (I := I) (V := V) job) (Entered args · owner caller)
      (bornAs args.runId owner caller) (fun s _ => args.caller.Reaches caller ∧ caller.Named ∧
        .owner args.runId caller ∈ s) fun _ _ => True := by
  rcases owner with _ | ⟨o, record⟩
  · intro s hs
    refine Runs.bind (claimRunOwner_runs (F := ∅) hs.named _) (fun recorded =>
      Runs.bind (actingCaller_runs _) fun again => ?_) s (Set.empty_subset s)
    rcases again with _ | again
    · exact runs_throw fun _ _ => trivial
    · exact runs_pure fun t ht => ⟨hs.reaches, hs.named, ht.1.2.2 (.inl hjob)⟩
  · exact runs_pure fun s h => ⟨h.reaches, h.named, h.owned.resolve_left nofun⟩

theorem persistInput_runs (frozen : Bool) (caller : Caller) :
    Runs (IdentityStep (I := I) (V := V) job)
      (fun s => caller.Named ∧ .owner args.runId caller ∈ s) (persistInput args frozen caller)
      (fun s _ => .owner args.runId caller ∈ s) fun _ _ => True := by
  rw [persistInput]
  split
  · exact runs_pure fun _ h => h.2
  · refine (stays_known fun s r hs => .putInput hs.2 ?_ hs.2).post fun _ _ h => h.2
    rw [recordOwner_stampOwner hs.1]
    exact hs.2

/-- An agent acts for the owner of the run, whom its caller reaches. -/
theorem agentRun_runs : Runs (IdentityStep (I := I) (V := V) (.agent args)) (∅ ⊆ ·) (agentRun args)
    (fun s c => .owner args.runId c ∈ s ∧ args.caller.Reaches c) fun _ _ => True := by
  refine Runs.bind enterAgentRun_runs fun x => ?_
  obtain ⟨owner, acting, refusal⟩ := x
  refine Runs.bind (throwAny_runs _) fun _ => Runs.bind (throwAny_runs _) fun _ =>
    Runs.bind (outside_known rfl) fun _ =>
    Runs.bind ((threadCaller_runs owner acting refusal).pre ?_) fun caller =>
    Runs.bind (outside_known rfl) fun _ => Runs.bind (throwAny_runs refusal) fun _ =>
    Runs.bind ((bornAs_runs rfl owner caller).pre fun s hs => hs.1 hs.2) fun _ =>
    Runs.bind (@stays_known _ _ (.agent args) _ _ fun s r hs => .runStarted hs.2.2 ⟨rfl, hs.1⟩) fun _ =>
    Runs.bind (outside_known rfl) fun _ => ?_
  · rintro s ⟨⟨h, -⟩, hrefusal⟩
    refine ⟨h, fun hthread => ?_⟩
    rwa [if_pos hthread] at hrefusal
  · intro s hs
    exact Runs.bind (persistInput_runs _ caller) (fun _ => runs_pure fun t ht => ⟨ht, hs.1⟩) s hs.2

/-! ### Forks -/

section Copies

variable {P : Set RunFact → Prop} {dst : JsString}

theorem putModels_runs (keep : List (RunEntry I V)) : Runs (IdentityStep job) P (putModels dst keep)
    (fun s _ => P s) fun _ _ => True := by
  induction keep with
  | nil => exact runs_pure fun _ h => h
  | cons m keep ih => exact Runs.bind (stays_known fun _ _ _ => .putRow) fun _ => ih

theorem putCandidates_runs (entries : List (RunEntry I V)) (keys : List (JsString × JsString))
    (copied : List JsString) : Runs (IdentityStep job) P (putCandidates dst entries keys copied)
      (fun s _ => P s) fun _ _ => True := by
  induction keys generalizing copied with
  | nil => exact runs_pure fun _ h => h
  | cons key keys ih =>
    rw [putCandidates]
    split
    · exact ih copied
    · split
      · exact ih copied
      · exact Runs.bind (stays_known fun _ _ _ => .putRow) fun _ => ih _

theorem putCalls_runs (args : ForkArgs I) (entries : List (RunEntry I V)) (calls : List (CallPart I))
    (copied : List JsString) : Runs (IdentityStep job) P (putCalls args dst entries calls copied)
      (fun s _ => P s) fun _ _ => True := by
  induction calls generalizing copied with
  | nil => exact runs_pure fun _ h => h
  | cons tc calls ih =>
    rw [putCalls]
    split
    · exact runs_throw fun _ _ => trivial
    · exact Runs.bind (putCandidates_runs entries _ copied) fun _ => ih _

end Copies

/-- The copy leaves the target with the owner of the source. -/
theorem copyInto_runs (args : ForkArgs I) (dst : JsString) (c : Caller) :
    Runs (IdentityStep (V := V) job) (fun s => .owner args.srcRunId c ∈ s ∧ .owner dst c ∈ s)
      (copyInto args dst) (fun _ _ => True) fun _ _ => True := by
  refine Runs.bind (outside_known rfl) fun entries => Runs.bind (putModels_runs _) fun _ =>
    Runs.bind (putCalls_runs args entries _ _) fun copied =>
    Runs.bind (getInput_runs (F := {.owner args.srcRunId c, .owner dst c}) |>.pre ?_) fun r => ?_
  · rintro s ⟨hsrc, hdst⟩
    exact Set.pair_subset hsrc hdst
  · rcases r with _ | record
    · exact runs_pure fun _ _ => trivial
    · refine Runs.bind ((stays_known ?_).post (Q := fun _ _ => True) fun _ _ _ => trivial) fun _ =>
        runs_pure fun _ _ => trivial
      rintro _ _ ⟨t, ht, rfl⟩
      have hkept := ht.trans (@subset_readInput args.srcRunId t (some record))
      exact .putInput (hkept (.inl rfl)) (Set.mem_insert ..) (hkept (.inr rfl))

theorem pickForkNumber_runs (base : JsString) (tries n : ℕ) :
    Runs (IdentityStep (I := I) (V := V) job) (∅ ⊆ ·) (pickForkNumber base tries n)
      (fun s _ => ∅ ⊆ s) fun _ _ => True := by
  induction tries generalizing n with
  | zero => exact runs_throw fun _ _ => trivial
  | succ tries ih =>
    rw [pickForkNumber]
    split
    · exact runs_throw fun _ _ => trivial
    · refine Runs.bind (outside_known rfl) fun taken => ?_
      rcases taken with _ | _
      · exact runs_pure fun _ h => h
      · exact ih _

theorem forkIdentity_runs (args : ForkArgs I) :
    Runs (IdentityStep (V := V) (.fork args)) (∅ ⊆ ·) (forkIdentity args) (fun _ _ => True)
      fun _ _ => True := by
  refine Runs.bind ((throwAny_runs _).post fun _ _ h => h.1) fun _ =>
    Runs.bind (outside_known rfl) fun undone =>
    Runs.bind ((throwAny_runs _).post fun _ _ h => h.1) fun _ =>
    Runs.bind (Q := fun s _ => ∅ ⊆ s) ?_ fun dst => Runs.bind (inheritOwner_runs _) fun _ => ?_
  · rw [forkDestination]
    split
    · exact runs_pure fun _ h => h
    · split
      · exact Runs.bind (outside_known rfl) fun _ => runs_pure fun _ h => h
      · exact pickForkNumber_runs _ _ _
  · rintro s ⟨c, hsrc, hdst⟩
    exact copyInto_runs args dst c s ⟨hsrc, hdst rfl⟩

/-- The call is admitted to a run only as its owner. -/
def IdentityJob.Admitted (job : IdentityJob I) (s : Set RunFact)
    (r : Except IdentityError Admission) : Prop :=
  ∀ id c, r = .ok (some (id, c)) → .owner id c ∈ s ∧ job.Admits id c

theorem identity_follows (job : IdentityJob I) :
    (job.prog (V := V)).Follows (IdentityStep job) ∅ job.Admitted := by
  -- Who is admitted by the end of a program.
  have hadmitted {p : IdentityM I V Admission} {Q : Set RunFact → Admission → Prop}
      (h : Runs (IdentityStep job) (∅ ⊆ ·) p Q fun _ _ => True)
      (hQ : ∀ s id c, Q s (some (id, c)) → .owner id c ∈ s ∧ job.Admits id c) :
      Prog.Follows (IdentityStep job) p.run ∅ job.Admitted := by
    refine (h ∅ (Set.empty_subset _)).mono fun s r hr => ?_
    rintro id c rfl
    exact hQ s id c hr
  rcases job with ⟨runId, caller, birth⟩ | args | ⟨src, dst, fields⟩ | args
  · refine hadmitted (Runs.bind (admitRun_runs birth) fun x =>
      runs_pure (Q := AdmittedTo runId caller) fun _ h => h) ?_
    intro s id c h
    obtain ⟨rfl, howner, hreaches⟩ := h id c rfl
    exact ⟨howner, rfl, hreaches⟩
  · refine hadmitted (Runs.bind agentRun_runs fun c =>
      runs_pure (Q := AdmittedTo args.runId args.caller) ?_) ?_
    · rintro s h id c ⟨⟩
      exact ⟨rfl, h⟩
    · intro s id c h
      obtain ⟨rfl, howner, hreaches⟩ := h id c rfl
      exact ⟨howner, rfl, hreaches⟩
  · exact hadmitted (Runs.bind (inheritOwner_runs fields) fun _ =>
      runs_pure (Q := fun _ a => a = none) fun _ _ => rfl) fun _ _ _ => nofun
  · exact hadmitted (Runs.bind (forkIdentity_runs args) fun _ =>
      runs_pure (Q := fun _ a => a = none) fun _ _ => rfl) fun _ _ _ => nofun

end Protocol

/-! ## The records -/

namespace IdentityWorld

variable {w : IdentityWorld I V} {i : ℕ} {runId id : JsString} {c c' : Caller}

@[simp] theorem noteClaim_inputs : (w.noteClaim i runId).inputs = w.inputs := by
  rw [noteClaim]
  split <;> rfl

@[simp] theorem noteClaim_rows : (w.noteClaim i runId).rows = w.rows := by
  rw [noteClaim]
  split <;> rfl

@[simp] theorem noteClaim_acts : (w.noteClaim i runId).acts = w.acts := by
  rw [noteClaim]
  split <;> rfl

theorem owner_setInput (record : OwnerRecord) :
    (w.setInput runId record).owner runId = some (recordOwner record) := by
  rw [owner, setInput]
  simp only [update_self, Option.map_some]

theorem owner_setInput_of_ne (record : OwnerRecord) (h : id ≠ runId) :
    (w.setInput runId record).owner id = w.owner id := by
  rw [owner, setInput, owner]
  simp only [update_of_ne h]

/-- The run, if it has an owner, has this one; without a record, and with rows, it is staff's. -/
def Belongs (w : IdentityWorld I V) (runId : JsString) (c : Caller) : Prop :=
  w.owner runId = some c ∨ w.owner runId = none ∧ w.rows runId ≠ [] ∧ c = STAFF

theorem Belongs.eq (h : w.Belongs runId c) (h' : w.Belongs runId c') : c = c' := by
  obtain h | ⟨hnone, -, hc⟩ := h
  · obtain h' | ⟨hnone, -⟩ := h'
    · exact Option.some.inj (h.symm.trans h')
    · rw [h] at hnone
      contradiction
  · obtain h' | ⟨-, -, hc'⟩ := h'
    · rw [h'] at hnone
      contradiction
    · rw [hc, hc']

theorem belongs_noteClaim : (w.noteClaim i runId).Belongs id c ↔ w.Belongs id c := by
  simp only [Belongs, owner, noteClaim_inputs, noteClaim_rows]

theorem rows_setRow {key : JsString} {value : RunValue I V} (h : w.rows id ≠ []) :
    (w.setRow runId key value).rows id ≠ [] := by
  rw [setRow]
  by_cases hid : id = runId
  · subst hid
    dsimp only
    rw [update_self]
    exact List.cons_ne_nil _ _
  · dsimp only
    rwa [update_of_ne hid]

theorem Belongs.setRow {key : JsString} {value : RunValue I V} (h : w.Belongs id c) :
    (w.setRow runId key value).Belongs id c :=
  h.imp_right fun h => ⟨h.1, rows_setRow h.2.1, h.2.2⟩

/-- A record of whom the run belongs to, or of a run that does not belong to anyone, moves no run to
    another owner. -/
theorem Belongs.setInput {record : OwnerRecord}
    (hrecord : ∀ c, w.Belongs runId c → recordOwner record = c) (h : w.Belongs id c) :
    (w.setInput runId record).Belongs id c := by
  by_cases hid : id = runId
  · subst hid
    exact .inl ((owner_setInput record).trans (congrArg some (hrecord c h)))
  · rw [Belongs, owner_setInput_of_ne record hid]
    exact h

end IdentityWorld

/-- What is known is so. -/
def RunFact.Holds (w : IdentityWorld I V) : RunFact → Prop
  | owner runId c => w.Belongs runId c
  | rows runId => w.inputs runId ≠ none ∨ w.rows runId ≠ []
  | record runId => w.inputs runId ≠ none

/-- What an operation of the call `i` does. -/
inductive IdentityEffect (w : IdentityWorld I V) (i : ℕ) :
    (o : IdentityOp I V) → o.Res → IdentityWorld I V → Prop
  | got {runId} : IdentityEffect w i (.getInput runId) (.ok (w.inputs runId)) w
  | probed {runId} :
      IdentityEffect w i (.rowsPresent runId)
        (.ok ((w.inputs runId).isSome || !(w.rows runId).isEmpty)) w
  | won {runId record r} : w.inputs runId = none →
      IdentityEffect w i (.claim runId record) r ((w.noteClaim i runId).setInput runId record)
  | lost {runId record r} : w.inputs runId ≠ none →
      IdentityEffect w i (.claim runId record) r (w.noteClaim i runId)
  | putInput {runId record r} :
      IdentityEffect w i (.putInput runId record) r (w.setInput runId record)
  | putRow {runId key value r} :
      IdentityEffect w i (.putRow runId key value) r (w.setRow runId key value)
  | started {runId c r key value} : IdentityEffect w i (.runStarted runId c) r
      { w with rows := (w.setRow runId key value).rows, acts := (i, runId, c) :: w.acts }
  | outside {o r} : o.outside → IdentityEffect w i o r w
  | thrown {o e} : IdentityEffect w i o (.error e) w

variable {w : IdentityWorld I V}

theorem perform_identityEffect {i : ℕ} {a : IdentityAnswer I V} {o : IdentityOp I V} {r : o.Res}
    (h : r = .ok (w.perform i a o).1 ∨ ∃ e, r = .error e) :
    IdentityEffect w i o r (w.perform i a o).2 := by
  cases o with
  | getInput runId =>
    obtain rfl | ⟨e, rfl⟩ := h
    · exact .got
    · exact .thrown
  | rowsPresent runId =>
    obtain rfl | ⟨e, rfl⟩ := h
    · exact .probed
    · exact .thrown
  | claim runId record =>
    rw [IdentityWorld.perform]
    split
    · next hnone => exact .won hnone
    · next hsome => exact .lost hsome
  | putInput runId record => exact .putInput
  | putRow runId key value => exact .putRow
  | runStarted runId c => exact .started
  | _ => exact .outside rfl

theorem identity_exec_effect {i : ℕ} {a : IdentityAnswer I V} {o : IdentityOp I V} :
    IdentityEffect w i o (identityMachine.exec i a o w).1 (identityMachine.exec i a o w).2 := by
  rw [identityMachine]
  dsimp only
  split
  · next e _ =>
    split
    · exact perform_identityEffect (.inr ⟨e, rfl⟩)
    · exact .thrown
  · exact perform_identityEffect (.inl rfl)

/-- A claim that is won finds no row of the run; one that an agent loses finds it recorded for whom it
    claims; and one of a fork finds no record. -/
structure ClaimUnrivalled (job : IdentityJob I) (w : IdentityWorld I V) (runId : JsString)
    (record : OwnerRecord) : Prop where
  fresh : w.inputs runId = none → w.rows runId = []
  own : job.isAgent → ∀ r ∈ w.inputs runId, recordOwner r = recordOwner record
  vacant : job.isFork → w.inputs runId = none

/-- The claims of a run are without rivals. -/
def Unrivalled (jobs : ℕ → IdentityJob I) (w : IdentityWorld I V) (i : ℕ) :
    (o : IdentityOp I V) → o.Res → Prop
  | .claim runId record, _ => ClaimUnrivalled (jobs i) w runId record
  | _, _ => True

/-- What is known is so, whoever acts acts as the owner, and no fork has claimed a run that there
    was. -/
structure IdentityInv (jobs : ℕ → IdentityJob I) (w : IdentityWorld I V) (ph : ℕ → Set RunFact) :
    Prop where
  holds : ∀ i, ∀ f ∈ ph i, f.Holds w
  acts : ∀ i id c, (i, id, c) ∈ w.acts → w.Belongs id c ∧ (jobs i).Admits id c
  onto : ∀ i ∈ w.onto, (jobs i).isFork = false

section Step

variable {jobs : ℕ → IdentityJob I} {w w' : IdentityWorld I V} {ph : ℕ → Set RunFact} {i : ℕ}
  {o : IdentityOp I V} {r : o.Res} {s s' : Set RunFact} {id : JsString} {c : Caller}

/-- Who writes a record over another, writes it for whom the run belongs to. -/
theorem IdentityStep.putInput_owner {dst : JsString} {record : OwnerRecord}
    {r : (IdentityOp.putInput (I := I) (V := V) dst record).Res} (hs : IdentityStep (jobs i) s
      (.putInput dst record) r s') (h : ∀ f ∈ s, f.Holds w) : w.Belongs dst (recordOwner record) := by
  cases hs with
  | putInput hsrc hrecord hdst =>
    have heq := (show w.Belongs _ _ from h _ hsrc).eq (h _ hrecord)
    rw [← heq]
    exact h _ hdst
  | outside h => contradiction
  | thrown h => contradiction

/-- Whom a run belongs to, it goes on to belong to. -/
theorem effect_belongs (he : IdentityEffect w i o r w') (hs : IdentityStep (jobs i) s o r s')
    (hok : Unrivalled jobs w i o r) (hf : ∀ f ∈ s, f.Holds w) (h : w.Belongs id c) :
    w'.Belongs id c := by
  cases he with
  | @won runId record _ hnone =>
    refine IdentityWorld.Belongs.setInput (fun c hc => ?_) (IdentityWorld.belongs_noteClaim.2 h)
    obtain howner | ⟨-, hrows, -⟩ := IdentityWorld.belongs_noteClaim.1 hc
    · rw [IdentityWorld.owner, hnone] at howner
      contradiction
    · exact absurd (hok.fresh hnone) hrows
  | lost => exact IdentityWorld.belongs_noteClaim.2 h
  | putInput => exact h.setInput fun c hc => (hs.putInput_owner hf).eq hc
  | putRow => exact h.setRow
  | started => exact h.setRow
  | _ => exact h

theorem effect_inputs (he : IdentityEffect w i o r w') (h : w.inputs id ≠ none) :
    w'.inputs id ≠ none := by
  have hset {u : IdentityWorld I V} {runId : JsString} {record : OwnerRecord}
      (h : u.inputs id ≠ none) : (u.setInput runId record).inputs id ≠ none := by
    simp only [IdentityWorld.setInput, update_apply]
    split
    · nofun
    · exact h
  cases he with
  | won hnone => exact hset (by rwa [IdentityWorld.noteClaim_inputs])
  | lost => rwa [IdentityWorld.noteClaim_inputs]
  | putInput => exact hset h
  | _ => exact h

theorem effect_rows (he : IdentityEffect w i o r w') (h : w.rows id ≠ []) : w'.rows id ≠ [] := by
  cases he with
  | won => rwa [IdentityWorld.setInput, IdentityWorld.noteClaim_rows]
  | lost => rwa [IdentityWorld.noteClaim_rows]
  | putRow => exact IdentityWorld.rows_setRow h
  | started => exact IdentityWorld.rows_setRow h
  | _ => exact h

/-- The owner stays. -/
theorem effect_owner (he : IdentityEffect w i o r w') (hs : IdentityStep (jobs i) s o r s')
    (hok : Unrivalled jobs w i o r) (hf : ∀ f ∈ s, f.Holds w) (h : w.owner id = some c) :
    w'.owner id = some c := by
  refine (effect_belongs he hs hok hf (.inl h)).resolve_right fun ⟨hnone, _⟩ => ?_
  refine effect_inputs he (fun hnil => ?_) (Option.map_eq_none_iff.1 hnone)
  rw [IdentityWorld.owner, hnil] at h
  contradiction

/-- What is known stays so. -/
theorem effect_holds (he : IdentityEffect w i o r w') (hs : IdentityStep (jobs i) s o r s')
    (hok : Unrivalled jobs w i o r) (hf : ∀ f ∈ s, f.Holds w) (f : RunFact) (h : f.Holds w) :
    f.Holds w' := by
  cases f with
  | owner runId c => exact effect_belongs he hs hok hf h
  | rows runId => exact h.imp (effect_inputs he) (effect_rows he)
  | record runId => exact effect_inputs he h

/-- What is learned from the record of a run is so. -/
theorem holds_readInput (hf : ∀ f ∈ s, f.Holds w) (runId : JsString) :
    ∀ f ∈ readInput s runId (w.inputs runId), f.Holds w := by
  intro f hmem
  rcases hinput : w.inputs runId with _ | record
  · rw [hinput] at hmem
    obtain hold | ⟨c, rfl, hrecord | ⟨hrows, rfl⟩⟩ := hmem
    · exact hf f hold
    · exact absurd hinput (hf _ hrecord)
    · have hnone : w.owner runId = none := by
        rw [IdentityWorld.owner, hinput]
        rfl
      exact .inr ⟨hnone, (hf _ hrows).resolve_left (· hinput), rfl⟩
  · rw [hinput] at hmem
    obtain rfl | hold := hmem
    · exact .inl (by rw [IdentityWorld.owner, hinput]; rfl)
    · exact hf f hold

/-- A claim leaves a record, for whom an agent or a fork has claimed the run. -/
theorem holds_claimed {runId : JsString} {record : OwnerRecord} {won : Bool}
    (he : IdentityEffect w i (.claim runId record) (.ok won) w')
    (hok : ClaimUnrivalled (jobs i) w runId record) : w'.inputs runId ≠ none ∧
      ((jobs i).isAgent ∨ (jobs i).isFork → w'.owner runId = some (recordOwner record)) := by
  have hwon : (w'.owner runId = some (recordOwner record)) → w'.inputs runId ≠ none := by
    intro howner hnone
    rw [IdentityWorld.owner, hnone] at howner
    contradiction
  cases he with
  | won =>
    have howner := @IdentityWorld.owner_setInput _ _ (w.noteClaim i runId) runId record
    exact ⟨hwon howner, fun _ => howner⟩
  | lost hsome =>
    refine ⟨by rwa [IdentityWorld.noteClaim_inputs], fun hjob => ?_⟩
    obtain ⟨r, hr⟩ := Option.ne_none_iff_exists'.1 hsome
    obtain hagent | hfork := hjob
    · rw [IdentityWorld.owner, IdentityWorld.noteClaim_inputs, hr, Option.map_some,
        hok.own hagent r hr]
    · exact absurd (hok.vacant hfork) hsome
  | outside h => contradiction

/-- What is known after an operation is so. -/
theorem holds_step (he : IdentityEffect w i o r w') (hs : IdentityStep (jobs i) s o r s')
    (hok : Unrivalled jobs w i o r) (hf : ∀ f ∈ s, f.Holds w) : ∀ f ∈ s', f.Holds w' := by
  have hkept (f : RunFact) (h : f ∈ s) : f.Holds w' := effect_holds he hs hok hf f (hf f h)
  cases hs with
  | getInput =>
    cases he with
    | got => exact holds_readInput hf _
    | outside h => contradiction
  | rowsPresent =>
    cases he with
    | probed =>
      rintro f (hold | ⟨hfound, rfl⟩)
      · exact hf f hold
      · rcases Bool.or_eq_true_iff.1 hfound with hinput | hrows
        · exact .inl (Option.isSome_iff_ne_none.1 hinput)
        · exact .inr (by simpa using hrows)
    | outside h => contradiction
  | claim =>
    obtain ⟨hsome, howner⟩ := holds_claimed he hok
    rintro f (hold | rfl | ⟨hjob, rfl⟩)
    · exact hkept f hold
    · exact hsome
    · exact .inl (howner hjob)
  | _ => exact hkept

theorem IdentityInv.step (h : IdentityInv jobs w ph) (hs : IdentityStep (jobs i) (ph i) o r s')
    (he : IdentityEffect w i o r w') (hok : Unrivalled jobs w i o r) :
    IdentityInv jobs w' (update ph i s') := by
  refine ⟨fun j f hmem => ?_, fun j id c hmem => ?_, fun j hmem => ?_⟩
  · by_cases hji : j = i
    · subst hji
      rw [update_self] at hmem
      exact holds_step he hs hok (h.holds j) f hmem
    · rw [update_of_ne hji] at hmem
      exact effect_holds he hs hok (h.holds i) f (h.holds j f hmem)
  · have hold (hmem : (j, id, c) ∈ w.acts) : w'.Belongs id c ∧ (jobs j).Admits id c :=
      ⟨effect_belongs he hs hok (h.holds i) (h.acts j id c hmem).1, (h.acts j id c hmem).2⟩
    cases he with
    | won => exact hold (by rwa [IdentityWorld.setInput, IdentityWorld.noteClaim_acts] at hmem)
    | lost => exact hold (by rwa [IdentityWorld.noteClaim_acts] at hmem)
    | started =>
      obtain hnew | hmem := List.mem_cons.1 hmem
      · cases hnew
        cases hs with
        | runStarted howner hadmits =>
          exact ⟨IdentityWorld.Belongs.setRow (h.holds i _ howner), hadmits⟩
        | outside h => contradiction
        | thrown h => contradiction
      · exact hold hmem
    | _ => exact hold hmem
  · have hnote {runId : JsString} {record : OwnerRecord}
        (hok : ClaimUnrivalled (jobs i) w runId record)
        (hmem : j ∈ (w.noteClaim i runId).onto) : (jobs j).isFork = false := by
      rw [IdentityWorld.noteClaim] at hmem
      split at hmem
      · exact h.onto j hmem
      · next hrun =>
        obtain rfl | hmem := List.mem_cons.1 hmem
        · by_contra hfork
          rw [Bool.not_eq_false] at hfork
          have hvacant := hok.vacant hfork
          exact hrun ⟨hvacant, hok.fresh hvacant⟩
        · exact h.onto j hmem
    cases he with
    | won => exact hnote hok hmem
    | lost => exact hnote hok hmem
    | _ => exact h.onto j hmem

end Step

theorem IdentityInv.env {jobs : ℕ → IdentityJob I} {ph : ℕ → Set RunFact}
    (h : IdentityInv jobs w ph) (e : IdentityRow I V) :
    IdentityInv jobs (identityMachine.env e w) ph := by
  refine ⟨fun i f hf => ?_, fun i id c hmem => ?_, h.onto⟩
  · have hf := h.holds i f hf
    cases f with
    | owner => exact IdentityWorld.Belongs.setRow hf
    | rows => exact Or.imp_right IdentityWorld.rows_setRow hf
    | record => exact hf
  · exact ⟨(h.acts i id c hmem).1.setRow, (h.acts i id c hmem).2⟩

/-! ## Every run -/

section Runs

variable {inputs : JsString → Option OwnerRecord} {rows : JsString → List (JsString × RunValue I V)}
  {jobs : ℕ → IdentityJob I} {ms : List (Move (IdentityAnswer I V) (IdentityRow I V))}

/-- The run so far. -/
def identityAfter (inputs : JsString → Option OwnerRecord)
    (rows : JsString → List (JsString × RunValue I V)) (jobs : ℕ → IdentityJob I)
    (ms : List (Move (IdentityAnswer I V) (IdentityRow I V))) :
    Conf (IdentityOp I V) IdentityOp.Res (Except IdentityError Admission) (IdentityWorld I V) :=
  identityMachine.play (identityStart inputs rows jobs) ms

/-- The call `i` has been admitted to the run, or has begun to act in it, for `c`. -/
def AdmittedAs (k : Conf (IdentityOp I V) IdentityOp.Res (Except IdentityError Admission)
    (IdentityWorld I V)) (i : ℕ) (runId : JsString) (c : Caller) : Prop :=
  (i, runId, c) ∈ k.world.acts ∨ k.procs i = .pure (.ok (some (runId, c)))

/-- A fork that has claimed a run that there was, does not write to it; and it claims no run that has
    rows. -/
def Spares (jobs : ℕ → IdentityJob I) (w : IdentityWorld I V) (i : ℕ) :
    (o : IdentityOp I V) → o.Res → Prop
  | .claim runId _, _ => (jobs i).isFork → w.inputs runId = none → w.rows runId = []
  | .putRow _ _ _, _ | .putInput _ _, _ => (jobs i).isFork → i ∉ w.onto
  | _, _ => True

/-- A run has one owner, and whoever is admitted to it acts for that one; a fork writes to no run that
    there was. -/
structure OneOwner (inputs : JsString → Option OwnerRecord)
    (rows : JsString → List (JsString × RunValue I V)) (jobs : ℕ → IdentityJob I)
    (ms : List (Move (IdentityAnswer I V) (IdentityRow I V))) : Prop where
  stays : ∀ n m runId c, n ≤ m →
    (identityAfter inputs rows jobs (ms.take n)).world.owner runId = some c →
    (identityAfter inputs rows jobs (ms.take m)).world.owner runId = some c
  acts : ∀ i runId acting c, AdmittedAs (identityAfter inputs rows jobs ms) i runId acting →
    (identityAfter inputs rows jobs ms).world.owner runId = some c → acting = c
  reached : ∀ i runId acting, AdmittedAs (identityAfter inputs rows jobs ms) i runId acting →
    (jobs i).Admits runId acting
  spared : identityMachine.Meets (Spares jobs) (identityStart inputs rows jobs) ms

/-- In every run whose claims are without rivals, every run has one owner. -/
theorem one_owner (inputs : JsString → Option OwnerRecord)
    (rows : JsString → List (JsString × RunValue I V)) (jobs : ℕ → IdentityJob I)
    (ms : List (Move (IdentityAnswer I V) (IdentityRow I V)))
    (hms : identityMachine.Meets (Unrivalled jobs) (identityStart inputs rows jobs) ms) :
    OneOwner inputs rows jobs ms := by
  have hinit : IdentityInv jobs (identityStart inputs rows jobs).world fun _ => ∅ :=
    ⟨fun _ _ h => h.elim, nofun, nofun⟩
  have hstep (w : IdentityWorld I V) (ph : ℕ → Set RunFact) (i : ℕ) (a : IdentityAnswer I V)
      (o : IdentityOp I V) (s' : Set RunFact) (h : IdentityInv jobs w ph)
      (hs : IdentityStep (jobs i) (ph i) o (identityMachine.exec i a o w).1 s')
      (hok : Unrivalled jobs w i o (identityMachine.exec i a o w).1) :
      IdentityInv jobs (identityMachine.exec i a o w).2 (update ph i s') :=
    h.step hs identity_exec_effect hok
  have hfollows (i : ℕ) := identity_follows (V := V) (jobs i)
  obtain ⟨ph, hinv, hf⟩ := Machine.play_follows hstep (fun _ _ e h => h.env e) hinit hfollows hms
  have hadmitted {i : ℕ} {runId : JsString} {acting : Caller}
      (h : AdmittedAs (identityAfter inputs rows jobs ms) i runId acting) :
      (identityAfter inputs rows jobs ms).world.Belongs runId acting ∧
        (jobs i).Admits runId acting := by
    obtain hacts | hreturned := h
    · exact hinv.acts i runId acting hacts
    · have hi := hf i
      rw [show (identityMachine.play _ ms).procs i = _ from hreturned] at hi
      obtain ⟨howner, hadmits⟩ := hi runId acting rfl
      exact ⟨hinv.holds i _ howner, hadmits⟩
  refine ⟨fun n m runId c hnm h => ?_, fun i runId acting c h howner => ?_,
    fun i runId acting h => (hadmitted h).2, ?_⟩
  · refine Machine.keeps_follows (P := fun w => w.owner runId = some c) hstep (fun _ _ e h => h.env e)
      ?_ (fun _ _ _ _ h => h) hinit hfollows hms hnm h
    intro w ph i a o s' h howner hs hok
    exact effect_owner identity_exec_effect hs hok (h.holds i) howner
  · exact (hadmitted h).1.eq (.inl howner)
  · refine Machine.meets_follows hstep (fun _ _ e h => h.env e) ?_ hinit hfollows hms
    intro w ph i a o s' h hs hok
    have hfork (hfork : (jobs i).isFork) : i ∉ w.onto := fun hmem => by
      rw [h.onto i hmem] at hfork
      contradiction
    cases o with
    | claim runId record => exact fun _ => hok.fresh
    | putRow | putInput => exact hfork
    | _ => trivial

end Runs

/-! ## Runs with two owners -/

instance (job : IdentityJob ℕ) (w : IdentityWorld ℕ Unit) (runId : JsString) (record : OwnerRecord) :
    Decidable (ClaimUnrivalled job w runId record) :=
  decidable_of_iff (_ ∧ _ ∧ _) ⟨fun h => ⟨h.1, h.2.1, h.2.2⟩, fun h => ⟨h.fresh, h.own, h.vacant⟩⟩

instance (jobs : ℕ → IdentityJob ℕ) (w : IdentityWorld ℕ Unit) (i : ℕ) (o : IdentityOp ℕ Unit)
    (r : o.Res) : Decidable (Unrivalled jobs w i o r) := by
  cases o <;> dsimp only [Unrivalled] <;> infer_instance

/-- A user and staff, whose agents are to run under one id. -/
def userAndStaff : ℕ → IdentityJob ℕ
  | 0 => .agent ⟨js "r", .user (js "ada") none, false, true, false⟩
  | _ => .agent ⟨js "r", STAFF, false, true, false⟩

/-- A run of one user is forked into a run of another one. -/
def forkOnto (_ : ℕ) : IdentityJob ℕ := .fork ⟨js "s", 0, some (js "r"), fun _ => []⟩

/-- The inputs of the two runs. -/
def twoInputs (runId : JsString) : Option OwnerRecord :=
  if runId = js "s" then some (stampOwner ⟨none, true, false⟩ (.user (js "ada") none))
  else if runId = js "r" then some (stampOwner ⟨none, true, false⟩ (.user (js "bob") none))
  else none

/-- The call `i` makes `n` operations. -/
def identityMoves (i n : ℕ) : List (Move (IdentityAnswer ℕ Unit) (IdentityRow ℕ Unit)) :=
  List.replicate n (.run i ⟨[], ⟨false, none, none⟩, false, 0, none, false⟩)

/-- Staff enters the run when it is born, and acts for its user. -/
theorem one_owner_entered :
    (identityAfter (fun _ => none) (fun _ => []) userAndStaff
      (identityMoves 0 9 ++ identityMoves 1 5)).procs 1 =
        .pure (.ok (some (js "r", .user (js "ada") none))) ∧
      ∀ c, (identityAfter (fun _ => none) (fun _ => []) userAndStaff
        (identityMoves 0 9 ++ identityMoves 1 5)).world.owner (js "r") = some c →
          .user (js "ada") none = c := by
  refine ⟨rfl, fun c h => ?_⟩
  have hone := one_owner (fun _ => none) (fun _ => []) userAndStaff
    (identityMoves 0 9 ++ identityMoves 1 5) (by decide +kernel)
  exact hone.acts 1 (js "r") (.user (js "ada") none) c (.inr rfl) h

/-- Staff that has lost the claim to a user writes its own input over that user's, and acts as itself;
    and a fork overwrites the run of another user. -/
theorem owner_changes :
    ¬OneOwner (fun _ => none) (fun _ => []) userAndStaff
        (identityMoves 1 2 ++ identityMoves 0 9 ++ identityMoves 1 7) ∧
      ¬OneOwner twoInputs (fun _ => []) forkOnto (identityMoves 0 7) := by
  refine ⟨fun h => ?_, fun h => ?_⟩
  · have hstays := h.stays 11 18 (js "r") (.user (js "ada") none) (by decide) rfl
    contradiction
  · have hstays := h.stays 0 7 (js "r") (.user (js "bob") none) (by decide) rfl
    contradiction

end Gnldev.Durable
