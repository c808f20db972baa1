import Gnldev.Durable.ThreadOwner

/-!
# One user to a thread

Any number of runs are admitted to a thread, in any interleaving. A claim goes to the first, but a
record that an unknown caller left has no winner: every user that claims the thread finds it still
claimed by nobody, and is admitted. And an upgrade is a plain write, after an older reading: what an
operator has assigned in between is lost (`two_users`).

* `OwnerStep`: the protocol of the calls on a thread;
* `UndisturbedOwner`: a claim does not find the record of an unknown caller, an upgrade no other user;
* `one_user_per_thread`: then the thread has one user.
-/

namespace Gnldev.Durable

open Prog

/-! ## The protocol -/

/-- What a call knows of the thread. -/
inductive OwnerPhase where
  | reading
  /-- The record names this user. -/
  | knows (owner : UserId)
  /-- It has claimed the thread, and has found the record of an unknown caller. -/
  | unclaimed
  | assigned (owner : UserId)
  | done

/-- A record that names nobody, as an unknown caller leaves it. -/
def ThreadOwnerRecord.leftUnknown (record : ThreadOwnerRecord) : Bool :=
  record.resourceId = none ∧ record.ownerKind = some .unknown

/-- Where a call is after reading the record. -/
def OwnerPhase.read (site : ReadSite) (record : Option ThreadOwnerRecord) : OwnerPhase :=
  match record.bind (·.resourceId) with
  | some owner => .knows owner
  | none => if site = .claimed ∧ record.any (·.leftUnknown) then .unclaimed else .reading

/-- The protocol of a call. -/
inductive OwnerStep (job : ThreadJob) : OwnerPhase → (o : OwnerOp) → o.Res → OwnerPhase → Prop
  | get {site r} : OwnerStep job .reading (.get site) (.ok r) (.read site r)
  | getThreadResource {r} : OwnerStep job .reading .getThreadResource (.ok r) .reading
  | runsOnThread {r} : OwnerStep job .reading .runsOnThread (.ok r) .reading
  | bornUnknown {runId r} : OwnerStep job .reading (.bornUnknown runId) (.ok r) .reading
  | getMessages {r} : OwnerStep job .reading .getMessages (.ok r) .reading
  | claim {record r} : OwnerStep job .reading (.claim record) (.ok r) .reading
  | put {record : ThreadOwnerRecord} {owner r} : record.resourceId = some owner →
      OwnerStep job .reading (.put record) (.ok r) (.knows owner)
  | assign {owner r} : job = .assign owner.1 →
      OwnerStep job .reading (.assign ⟨some owner, none⟩) (.ok r) (.assigned owner)
  | thrown {s o r s' e} : OwnerStep job s o (.ok r) s' → OwnerStep job s o (.error e) .done

/-- The call is one that admits a user. -/
def ThreadJob.user : ThreadJob → Option JsString
  | admission _ (.user id _) => some id
  | _ => none

/-- The ownership is what the call knows. -/
structure OwnerPhase.Reports (s : OwnerPhase) (o : ThreadOwnership) : Prop where
  owned : ∀ owner, o.owner = some owner → s = .knows owner
  nobody : o.exists → o.owner = none → o.staffClaimed.isSome
  fresh : !o.exists ∨ o.owner = none ∧ o.staffClaimed = some false → s = .reading ∨ s = .unclaimed

/-- What a call has done when it returns: a user is admitted as the one the record names, or has found
    the record of an unknown caller. -/
def ThreadJob.Returned (job : ThreadJob) (s : OwnerPhase) (_ : ThreadResult) : Prop :=
  (∀ id, job.user = some id → (∃ owner, s = .knows owner ∧ owner.1 = id) ∨ s = .unclaimed) ∧
    ∀ id, job = .assign id → ∃ owner, s = .assigned owner ∧ owner.1 = id

section Protocol

variable {job : ThreadJob} {memory : MemoryKind} {caller : Caller}

theorem performOwner_runs {o : OwnerOp} {s : OwnerPhase} (r₀ : o.Ans) {f : o.Ans → OwnerPhase}
    (h : ∀ r, OwnerStep job s o (.ok r) (f r)) :
    Runs (OwnerStep job) (· = s) (performOwner o) (fun s' r => s' = f r) fun _ _ => True := by
  refine runs_perform ?_ ?_
  · rintro _ r rfl
    exact ⟨_, h r, rfl⟩
  · rintro _ e rfl
    exact ⟨_, .thrown (h r₀), trivial⟩

/-- An operation that says nothing about the record. -/
theorem outside_runs {o : OwnerOp} (r₀ : o.Ans)
    (h : ∀ r, OwnerStep job .reading o (.ok r) .reading) : Runs (OwnerStep job) (· = .reading)
      (performOwner o) (fun s _ => s = .reading) fun _ _ => True :=
  performOwner_runs r₀ h

theorem allBornUnknown_runs (runs : List ThreadRun) : Runs (OwnerStep job) (· = .reading)
    (allBornUnknown runs) (fun s _ => s = .reading) fun _ _ => True := by
  induction runs with
  | nil => exact runs_pure fun _ h => h
  | cons run runs ih =>
    refine Runs.bind (outside_runs false fun _ => .bornUnknown) fun unknown => ?_
    rcases unknown with _ | _
    · exact runs_pure fun _ h => h
    · exact ih

theorem deriveFromRuns_runs : Runs (OwnerStep job) (· = .reading) (deriveFromRuns memory)
    (fun s _ => s = .reading) fun _ _ => True := by
  refine Runs.bind (outside_runs [] fun _ => .runsOnThread) fun runs => ?_
  split
  · split
    · split
      · exact runs_pure fun _ h => h
      · exact Runs.bind (allBornUnknown_runs runs) fun _ => runs_pure fun _ h => h
    · exact runs_pure fun _ h => h
  · split
    · exact Runs.bind (outside_runs 0 fun _ => .getMessages) fun _ => runs_pure fun _ h => h
    · exact runs_pure fun _ h => h

theorem deriveOwner_runs : Runs (OwnerStep job) (· = .reading) (deriveOwner memory)
    (fun s _ => s = .reading) fun _ _ => True := by
  rw [deriveOwner]
  split
  · refine Runs.bind (outside_runs none fun _ => .getThreadResource) fun resourceId => ?_
    rcases resourceId with _ | resourceId
    · exact deriveFromRuns_runs
    · exact runs_pure fun _ h => h
  · exact deriveFromRuns_runs

theorem reports_knows (owner : UserId) : (OwnerPhase.knows owner).Reports ⟨true, some owner, none⟩ :=
  ⟨fun _ h => congrArg _ (Option.some.inj h), nofun, fun h => h.elim nofun fun h => nomatch h.1⟩

/-- What the record says, read back. -/
theorem reports_recorded (site : ReadSite) (record : Option ThreadOwnerRecord) :
    (OwnerPhase.read site record).Reports (ownershipOf record) := by
  rw [OwnerPhase.read, ownershipOf]
  rcases record.bind (·.resourceId) with _ | owner
  · refine ⟨nofun, fun _ _ => rfl, fun _ => ?_⟩
    dsimp only
    split
    · exact .inr rfl
    · exact .inl rfl
  · exact reports_knows owner

/-- The record is read back, after a claim. -/
theorem claimed_runs (site : ReadSite) (record : ThreadOwnerRecord) :
    Runs (OwnerStep job) (· = .reading)
      (do let _ ← performOwner (.claim record)
          return ownershipOf (← performOwner (.get site)) : OwnerM ThreadOwnership)
      (fun s o => ∃ r, s = .read site r ∧ o = ownershipOf r) fun _ _ => True := by
  refine Runs.bind (outside_runs false fun _ => .claim) fun _ =>
    Runs.bind (performOwner_runs none fun _ => .get) fun r => runs_pure fun s h => ⟨r, h, rfl⟩

theorem backfill_runs (d : Derived) : Runs (OwnerStep job) (· = .reading) (backfill d)
    (fun s o => s ≠ .unclaimed ∧ s.Reports o) fun _ _ => True := by
  have hreading {o : ThreadOwnership} (howner : o.owner = none)
      (h : o.exists → o.staffClaimed.isSome) :
      OwnerPhase.reading.Reports o :=
    ⟨fun owner ho => absurd (howner.symm.trans ho) nofun, fun he _ => h he, fun _ => .inl rfl⟩
  rw [backfill]
  split
  · refine runs_pure ?_
    rintro _ rfl
    exact ⟨nofun, hreading rfl nofun⟩
  · split
    · refine runs_pure ?_
      rintro _ rfl
      exact ⟨nofun, hreading rfl fun _ => rfl⟩
    · refine (claimed_runs .backfilled _).post ?_
      rintro _ _ ⟨r, rfl, rfl⟩
      refine ⟨?_, reports_recorded .backfilled r⟩
      rw [OwnerPhase.read]
      split
      · nofun
      · rw [if_neg (fun h => absurd h.1 nofun)]
        nofun

theorem ownerOfNobody_runs (record : ThreadOwnerRecord) : Runs (OwnerStep job) (· = .reading)
    (ownerOfNobody memory record) (fun s o => s ≠ .unclaimed ∧ s.Reports o) fun _ _ => True := by
  have hnobody (s : OwnerPhase) (hs : s = .reading) : s ≠ .unclaimed ∧
      s.Reports ⟨true, none, some (record.ownerKind ≠ some .unknown)⟩ := by
    rw [hs]
    exact ⟨nofun, nofun, fun _ _ => rfl, fun _ => .inl rfl⟩
  rw [ownerOfNobody]
  split
  · refine Runs.bind (outside_runs none fun _ => .getThreadResource) fun resourceId => ?_
    split
    · next owner _ =>
      refine Runs.bind (performOwner_runs () fun _ => .put rfl) fun _ => runs_pure ?_
      rintro _ rfl
      exact ⟨nofun, reports_knows owner⟩
    · exact runs_pure hnobody
  · exact runs_pure hnobody

theorem threadOwnerOf_runs : Runs (OwnerStep job) (· = .reading) (threadOwnerOf memory)
    (fun s o => s ≠ .unclaimed ∧ s.Reports o) fun _ _ => True := by
  refine Runs.bind (performOwner_runs none fun _ => .get) fun record => ?_
  rcases record with _ | ⟨_ | owner, kind⟩
  · exact Runs.bind (deriveOwner_runs.pre fun _ h => h) fun d => backfill_runs d
  · refine (ownerOfNobody_runs _).pre fun s hs => ?_
    rw [hs]
    simp [OwnerPhase.read]
  · refine runs_pure ?_
    rintro _ rfl
    exact ⟨nofun, reports_knows owner⟩

/-- The gate lets a user through as the one that the record names, or to a record of nobody. -/
theorem threadGate_runs (o : ThreadOwnership) {P : OwnerPhase → Prop} (hP : ∀ s, P s → s.Reports o)
    (hnobody : ∀ s, P s → o.owner = none → o.staffClaimed ≠ some true → s = .unclaimed) :
    Runs (OwnerStep (.admission memory caller)) P (threadGate caller o)
      (fun s r => (ThreadJob.admission memory caller).Returned s (some r)) fun _ _ => True := by
  rcases caller with ⟨id, orgId⟩ | orgId | _
  · rw [threadGate]
    split
    · next owner howner =>
      split
      · exact runs_throw fun _ _ => trivial
      · next hid =>
        refine runs_pure fun s hs => ⟨fun id' hid' =>
          .inl ⟨owner, (hP s hs).owned owner howner, ?_⟩, nofun⟩
        rw [← Option.some.inj hid']
        exact not_not.1 hid
    · next howner =>
      split
      · exact runs_throw fun _ _ => trivial
      · next hclaimed =>
        exact runs_pure fun s hs => ⟨fun _ _ => .inr (hnobody s hs howner hclaimed), nofun⟩
  · exact runs_pure fun _ _ => ⟨nofun, nofun⟩
  · rw [threadGate]
    split
    · exact runs_throw fun _ _ => trivial
    · exact runs_pure fun _ _ => ⟨nofun, nofun⟩

/-- Who claims the thread, and then passes the gate. -/
theorem claimFor_runs (record : ThreadOwnerRecord) : Runs (OwnerStep (.admission memory caller))
    (· = .reading) (do threadGate caller (← claimFor record) : OwnerM ThreadOwnership)
    (fun s r => (ThreadJob.admission memory caller).Returned s (some r)) fun _ _ => True := by
  refine Runs.bind (claimed_runs .claimed record) fun o => threadGate_runs o ?_ ?_
  · rintro _ ⟨r, rfl, rfl⟩
    exact reports_recorded .claimed r
  · rintro _ ⟨r, rfl, rfl⟩ howner hclaimed
    rw [ownershipOf] at howner hclaimed
    rw [OwnerPhase.read]
    rcases r with _ | ⟨_ | owner, kind⟩
    · exact absurd rfl hclaimed
    · refine if_pos ⟨rfl, ?_⟩
      simpa [ThreadOwnerRecord.leftUnknown] using hclaimed
    · contradiction

theorem admitThreadRun_runs : Runs (OwnerStep (.admission memory caller)) (· = .reading)
    (admitThreadRun memory caller)
    (fun s r => (ThreadJob.admission memory caller).Returned s (some r)) fun _ _ => True := by
  refine Runs.bind threadOwnerOf_runs fun o => ?_
  split
  · next hfresh =>
    have hreading (s : OwnerPhase) (hs : s ≠ .unclaimed ∧ s.Reports o) : s = .reading :=
      (hs.2.fresh hfresh).resolve_right hs.1
    rcases caller with ⟨id, orgId⟩ | orgId | _
    · exact (claimFor_runs _).pre hreading
    · dsimp only
      split
      · exact (claimFor_runs _).pre hreading
      · exact runs_pure fun _ _ => ⟨nofun, nofun⟩
    · exact runs_pure fun _ _ => ⟨nofun, nofun⟩
  · next hfresh =>
    refine threadGate_runs o (fun s hs => hs.2) fun s hs howner hclaimed => ?_
    rw [not_or, not_and] at hfresh
    obtain ⟨claimed, h⟩ := Option.isSome_iff_exists.1 (hs.2.nobody (by simpa using hfresh.1) howner)
    rcases claimed with _ | _
    · exact absurd h (hfresh.2 howner)
    · exact absurd h hclaimed

theorem assignThreadOwner_runs (resourceId : JsString) :
    Runs (OwnerStep (.assign resourceId)) (· = .reading) (assignThreadOwner resourceId)
      (fun s _ => (ThreadJob.assign resourceId).Returned s none) fun _ _ => True := by
  rw [assignThreadOwner, namedUser]
  by_cases hid : resourceId ≠ []
  · simp only [Option.bind_some, dif_pos hid]
    refine (performOwner_runs () fun _ => .assign rfl).post ?_
    rintro _ _ rfl
    refine ⟨nofun, ?_⟩
    rintro _ ⟨⟩
    exact ⟨_, rfl, rfl⟩
  · simp only [Option.bind_some, dif_neg hid]
    exact runs_throw fun _ _ => trivial

theorem threadJob_follows (job : ThreadJob) : job.prog.Follows (OwnerStep job) .reading
    fun s r => ∀ x, r = .ok x → job.Returned s x := by
  have hends {s : OwnerPhase} {r : Except OwnerError ThreadResult}
      (h : Ends (fun s x => job.Returned s x) (fun _ _ => True) s r) :
      ∀ x, r = .ok x → job.Returned s x := by
    rintro x rfl
    exact h
  rcases job with ⟨memory, caller⟩ | resourceId
  · exact (Runs.bind admitThreadRun_runs (fun o => runs_pure fun _ h => h) _ rfl).mono
      fun _ _ => hends
  · exact (Runs.bind (assignThreadOwner_runs resourceId) (fun o => runs_pure fun _ h => h) _ rfl).mono
      fun _ _ => hends

end Protocol

/-! ## The record -/

/-- What an operation of the call `i` does. -/
inductive OwnerEffect (w : OwnerWorld) (i : ℕ) : (o : OwnerOp) → o.Res → OwnerWorld → Prop
  | got {site} : OwnerEffect w i (.get site) (.ok w.record) w
  | put {record r} : OwnerEffect w i (.put record) r { w with record := some record }
  | claimed {record r} : w.record = none →
      OwnerEffect w i (.claim record) r { w with record := some record }
  | lost {record r} : OwnerEffect w i (.claim record) r w
  | assigned {record r} : OwnerEffect w i (.assign record) r
      ⟨some record, (record.resourceId.map fun owner => (i, owner)).toList ++ w.assigned⟩
  | outside {o r} : o.writes = false → (∀ site, o ≠ .get site) → OwnerEffect w i o r w
  | thrown {o e} : OwnerEffect w i o (.error e) w

theorem perform_ownerEffect {w : OwnerWorld} {i : ℕ} {a : OwnerAnswer} {o : OwnerOp} {r : o.Res}
    (h : o.writes ∨ r = .ok (w.perform i a o).1) : OwnerEffect w i o r (w.perform i a o).2 := by
  cases o with
  | get site =>
    obtain rfl := h.resolve_left nofun
    exact .got
  | put record => exact .put
  | claim record =>
    rw [OwnerWorld.perform]
    split
    · next hw => exact .claimed hw
    · exact .lost
  | assign record => exact .assigned
  | _ => exact .outside rfl nofun

theorem owner_exec_effect {w : OwnerWorld} {i : ℕ} {a : OwnerAnswer} {o : OwnerOp} :
    OwnerEffect w i o (ownerMachine.exec i a o w).1 (ownerMachine.exec i a o w).2 := by
  rw [ownerMachine]
  dsimp only
  split
  · split
    · next h => exact perform_ownerEffect (.inl h.2)
    · exact .thrown
  · exact perform_ownerEffect (.inr rfl)

/-- A user that has claimed the thread does not find the record of an unknown caller, and an upgrade
    does not find that of another user. -/
def UndisturbedOwner (jobs : ℕ → ThreadJob) (w : OwnerWorld) (i : ℕ) : (o : OwnerOp) → o.Res → Prop
  | .get .claimed, _ => (jobs i).user.isSome → w.record.any (·.leftUnknown) = false
  | .put record, _ => w.named = none ∨ w.named = record.resourceId
  | _, _ => True

/-- What a call knows is so; of the record, as long as nothing has been assigned. -/
def OwnerPhase.Holds (w : OwnerWorld) (job : ThreadJob) (i : ℕ) : OwnerPhase → Prop
  | knows owner => w.assigned = [] → w.named = some owner
  | unclaimed => job.user = none
  | assigned owner => (i, owner) ∈ w.assigned
  | _ => True

structure OwnerInv (jobs : ℕ → ThreadJob) (w : OwnerWorld) (ph : ℕ → OwnerPhase) : Prop where
  assigned : ∀ i owner, (i, owner) ∈ w.assigned → jobs i = .assign owner.1
  latest : ∀ x ∈ w.assigned.head?, w.named = some x.2
  holds : ∀ i, (ph i).Holds w (jobs i) i

section Step

variable {jobs : ℕ → ThreadJob} {w w' : OwnerWorld} {ph : ℕ → OwnerPhase} {i : ℕ} {o : OwnerOp}
  {r : o.Res} {s s' : OwnerPhase}

theorem OwnerPhase.Holds.mono {job : ThreadJob} (h : s.Holds w job i)
    (hassigned : w.assigned ⊆ w'.assigned)
    (hnamed : w'.assigned = [] → ∀ owner, w.named = some owner → w'.named = some owner) :
    s.Holds w' job i := by
  cases s with
  | knows owner =>
    intro hnil
    rw [hnil] at hassigned
    exact hnamed hnil owner (h (List.subset_nil.1 hassigned))
  | unclaimed => exact h
  | assigned owner => exact hassigned h
  | _ => trivial

theorem OwnerStep.assigns {job : ThreadJob} {record : ThreadOwnerRecord}
    {r : (OwnerOp.assign record).Res}
    (hs : OwnerStep job s (.assign record) r s') : ∃ owner, record = ⟨some owner, none⟩ ∧
      job = .assign owner.1 ∧ (s' = .assigned owner ∨ s' = .done) := by
  cases hs with
  | assign hjob => exact ⟨_, rfl, hjob, .inl rfl⟩
  | thrown hs =>
    cases hs with
    | assign hjob => exact ⟨_, rfl, hjob, .inr rfl⟩

/-- A user is assigned, or the assignments are what they were. -/
theorem effect_assigned (hs : OwnerStep (jobs i) s o r s') (he : OwnerEffect w i o r w') :
    w'.assigned = w.assigned ∨
      ∃ owner, jobs i = .assign owner.1 ∧
        w' = ⟨some ⟨some owner, none⟩, (i, owner) :: w.assigned⟩ := by
  cases he with
  | assigned =>
    obtain ⟨owner, rfl, hjob, -⟩ := hs.assigns
    exact .inr ⟨owner, hjob, rfl⟩
  | _ => exact .inl rfl

/-- The user that the record names stays, unless one is assigned. -/
theorem effect_named (hs : OwnerStep (jobs i) s o r s') (he : OwnerEffect w i o r w')
    (hok : UndisturbedOwner jobs w i o r) (hassigned : w'.assigned = w.assigned) {owner : UserId}
    (h : w.named = some owner) : w'.named = some owner := by
  cases he with
  | put =>
    obtain hnone | hsame := hok
    · rw [hnone] at h
      contradiction
    · exact hsame.symm.trans h
  | claimed hnone =>
    rw [OwnerWorld.named, hnone] at h
    contradiction
  | assigned =>
    obtain ⟨owner, rfl, -⟩ := hs.assigns
    exact absurd hassigned (List.cons_ne_self _ _)
  | _ => exact h

/-- What a call knows after an operation of its own. -/
theorem holds_self (hs : OwnerStep (jobs i) s o r s') (he : OwnerEffect w i o r w')
    (hok : UndisturbedOwner jobs w i o r) (h : s.Holds w (jobs i) i) : s'.Holds w' (jobs i) i := by
  cases hs with
  | @get site =>
    cases he with
    | got =>
      rw [OwnerPhase.read]
      split
      · next owner howner => exact fun _ => howner
      · split
        · next hleft =>
          obtain ⟨rfl, hleft⟩ := hleft
          by_contra huser
          have hclean := hok (Option.isSome_iff_ne_none.2 huser)
          rw [hclean] at hleft
          contradiction
        · trivial
    | outside _ hget => exact absurd rfl (hget _)
  | put howner =>
    cases he with
    | put => exact fun _ => howner
    | outside hwrites => contradiction
  | assign =>
    cases he with
    | assigned => exact List.mem_cons_self
    | outside hwrites => contradiction
  | _ => trivial

theorem OwnerInv.step (h : OwnerInv jobs w ph) (hs : OwnerStep (jobs i) (ph i) o r s')
    (he : OwnerEffect w i o r w') (hok : UndisturbedOwner jobs w i o r) :
    OwnerInv jobs w' (Function.update ph i s') := by
  have hassigned := effect_assigned hs he
  refine ⟨fun j owner hmem => ?_, fun x hx => ?_, fun j => ?_⟩
  · obtain hsame | ⟨owner, hjob, rfl⟩ := hassigned
    · rw [hsame] at hmem
      exact h.assigned j _ hmem
    · obtain hnew | hold := List.mem_cons.1 hmem
      · obtain ⟨rfl, rfl⟩ := Prod.mk.inj hnew
        exact hjob
      · exact h.assigned j _ hold
  · obtain hsame | ⟨owner, -, rfl⟩ := hassigned
    · rw [hsame] at hx
      exact effect_named hs he hok hsame (h.latest x hx)
    · obtain rfl := Option.some.inj hx
      rfl
  · by_cases hji : j = i
    · subst hji
      rw [Function.update_self]
      exact holds_self hs he hok (h.holds j)
    · rw [Function.update_of_ne hji]
      refine (h.holds j).mono ?_ fun hnil owner howner => ?_
      · obtain hsame | ⟨owner, -, rfl⟩ := hassigned
        · rw [hsame]
          exact List.Subset.refl _
        · exact List.subset_cons_self ..
      · obtain hsame | ⟨owner, -, rfl⟩ := hassigned
        · exact effect_named hs he hok hsame howner
        · contradiction

end Step

/-! ## Every run -/

section Runs

/-- The run so far. -/
def ownerAfter (record : Option ThreadOwnerRecord) (jobs : ℕ → ThreadJob)
    (ms : List (Move OwnerAnswer Unit)) :
    Conf OwnerOp OwnerOp.Res (Except OwnerError ThreadResult) OwnerWorld :=
  ownerMachine.play (ownerStart record jobs) ms

/-- The thread has one user: without an operator, one user is admitted, and the record that names one
    names no other; with one, the record names who was assigned last. -/
structure OneUser (record : Option ThreadOwnerRecord) (jobs : ℕ → ThreadJob)
    (ms : List (Move OwnerAnswer Unit)) : Prop where
  admitted : (∀ i id, jobs i ≠ .assign id) → ∀ i j x y id id',
    (ownerAfter record jobs ms).procs i = .pure (.ok x) → (jobs i).user = some id →
    (ownerAfter record jobs ms).procs j = .pure (.ok y) → (jobs j).user = some id' → id = id'
  named : (∀ i id, jobs i ≠ .assign id) → ∀ n m owner, n ≤ m →
    (ownerAfter record jobs (ms.take n)).world.named = some owner →
    (ownerAfter record jobs (ms.take m)).world.named = some owner
  assigned : ∀ i id x, jobs i = .assign id → (ownerAfter record jobs ms).procs i = .pure (.ok x) →
    ∃ owner, owner.1 = id ∧ (i, owner) ∈ (ownerAfter record jobs ms).world.assigned
  latest : ∀ i owner, (ownerAfter record jobs ms).world.assigned.head? = some (i, owner) →
    (ownerAfter record jobs ms).world.named = some owner

/-- In every run in which no claim and no upgrade is disturbed, a thread has one user. -/
theorem one_user_per_thread (record : Option ThreadOwnerRecord) (jobs : ℕ → ThreadJob)
    (ms : List (Move OwnerAnswer Unit))
    (hms : ownerMachine.Meets (UndisturbedOwner jobs) (ownerStart record jobs) ms) :
    OneUser record jobs ms := by
  have hinit : OwnerInv jobs (ownerStart record jobs).world fun _ => .reading :=
    ⟨nofun, nofun, fun _ => trivial⟩
  obtain ⟨ph, hinv, hf⟩ := Machine.play_follows
    (fun _ _ _ _ _ _ h hs hok => h.step hs owner_exec_effect hok) (fun _ _ _ h => h) hinit
    (fun i => threadJob_follows (jobs i)) hms
  have hreturned {i : ℕ} {x : ThreadResult}
      (h : (ownerAfter record jobs ms).procs i = .pure (.ok x)) : (jobs i).Returned (ph i) x := by
    have hi := hf i
    rw [show (ownerMachine.play _ ms).procs i = _ from h] at hi
    exact hi x rfl
  refine ⟨fun hjobs i j x y id id' hx hid hy hid' => ?_, fun hjobs n m owner hnm h => ?_,
    fun i id x hjob hx => ?_, fun i owner h => hinv.latest _ h⟩
  · have hnil : (ownerAfter record jobs ms).world.assigned = [] :=
      List.eq_nil_iff_forall_not_mem.2 fun x hx => hjobs _ _ (hinv.assigned x.1 x.2 hx)
    have hnamed {i : ℕ} {x : ThreadResult} {id : JsString}
        (hx : (ownerAfter record jobs ms).procs i = .pure (.ok x)) (hid : (jobs i).user = some id) :
        (ownerAfter record jobs ms).world.named.map (·.1) = some id := by
      have hholds := hinv.holds i
      obtain ⟨owner, hknows, rfl⟩ | hunclaimed := (hreturned hx).1 id hid
      · rw [hknows] at hholds
        exact congrArg _ (hholds hnil)
      · rw [hunclaimed] at hholds
        exact absurd (hid.symm.trans hholds) nofun
    exact Option.some.inj ((hnamed hx hid).symm.trans (hnamed hy hid'))
  · refine Machine.persists_follows (P := fun w => w.named = some owner) ?_ (fun _ _ h => h)
      (fun i => threadJob_follows (jobs i)) hms hnm h
    intro w s i a o s' h hs hok
    obtain hsame | ⟨owner, hjob, -⟩ := effect_assigned hs owner_exec_effect
    · exact effect_named hs owner_exec_effect hok hsame h
    · exact absurd hjob (hjobs i _)
  · obtain ⟨owner, hassigned, howner⟩ := (hreturned hx).2 id hjob
    have hholds := hinv.holds i
    rw [hassigned] at hholds
    exact ⟨owner, howner, hholds⟩

end Runs

/-! ## Threads with two users -/

instance (jobs : ℕ → ThreadJob) (w : OwnerWorld) (i : ℕ) (o : OwnerOp) (r : o.Res) :
    Decidable (UndisturbedOwner jobs w i o r) := by
  rcases o with (_ | _ | _) | _ | _ | _ | _ | _ | _ | _ <;> dsimp only [UndisturbedOwner] <;>
    infer_instance

/-- Two users on the thread, of a journal without a memory. -/
def twoUsers : ℕ → ThreadJob
  | 0 => .admission .absent (.user (js "ada") none)
  | _ => .admission .absent (.user (js "bob") none)

/-- A user on the thread, whose memory can name its owner, and an operator. -/
def userAndOperator : ℕ → ThreadJob
  | 0 => .admission .naming (.user (js "ada") none)
  | _ => .assign (js "bob")

/-- The call `i` makes `n` operations; there are no runs, and the memory says `ada`. -/
def ownerMoves (i n : ℕ) : List (Move OwnerAnswer Unit) :=
  List.replicate n (.run i ⟨some (js "ada"), [], false, 0, none, false⟩)

/-- The first user claims the thread, and the second one is refused. -/
theorem one_user_per_thread_refused :
    (ownerAfter none twoUsers (ownerMoves 0 4 ++ ownerMoves 1 1)).procs 1 =
        .pure (.error (.mismatch (js "ada") (js "bob"))) ∧
      ∀ owner, (ownerAfter none twoUsers (ownerMoves 0 4)).world.named = some owner →
        (ownerAfter none twoUsers (ownerMoves 0 4 ++ ownerMoves 1 1)).world.named = some owner := by
  refine ⟨rfl, fun owner h => ?_⟩
  have hone := one_user_per_thread none twoUsers (ownerMoves 0 4 ++ ownerMoves 1 1)
    (by decide +kernel)
  exact hone.named (fun i _ => by rcases i with _ | _ <;> nofun) 4 5 owner (by decide) h

/-- Two users find the record of an unknown caller, and both are admitted; and what an operator has
    assigned is overwritten by an upgrade that had read the record before. -/
theorem two_users :
    ¬OneUser (some ⟨none, some .unknown⟩) twoUsers (ownerMoves 0 3 ++ ownerMoves 1 3) ∧
      ¬OneUser (some ⟨none, none⟩) userAndOperator
        (ownerMoves 0 2 ++ ownerMoves 1 1 ++ ownerMoves 0 1) := by
  refine ⟨fun h => ?_, fun h => ?_⟩
  · have hsame := h.admitted (fun i _ => by rcases i with _ | _ <;> nofun) 0 1 _ _ (js "ada")
      (js "bob") rfl rfl rfl rfl
    contradiction
  · have hnamed := h.latest 1 ⟨js "bob", by decide⟩ rfl
    contradiction

end Gnldev.Durable
