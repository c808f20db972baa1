import Gnldev.Durable.Journal
import Gnldev.Durable.RunId
import Gnldev.Lib.Kv
import Gnldev.Lib.RelyGuarantee

/-!
# Handing a run over

A run that lives for long is split into periods (`rollover.ts`): at the end of one,
its messages are carried over into the input of a new run. The target is chosen
among the names that have no input yet, then frozen in a marker of the old run, and
only then seeded.

* `rolloverRun`: the handoff, with its three claims;
* `Handed`: what a finished handoff leaves in the journal;
* `rollover_agrees`: every handoff of one run ends with the same target and the same
  messages; and those of two runs with different targets, as long as no other run
  that counts from the same base stands between its marker and its seed, from the
  choice of a target to the marker.
-/

namespace Gnldev.Durable

/-- Who a run acts for. -/
inductive Caller where
  | user (id : JsString) (orgId : Option JsString)
  | staff (orgId : Option JsString)
  | unknown
  deriving DecidableEq

/-- The input of a run, with messages in `M`. -/
structure InputRecord (M : Type) where
  /-- Nothing, if the record has no array of messages. -/
  messages : Option (List M)
  system : Option JsString
  threadId : Option JsString
  actor : Option JsString
  agent : Option JsString
  workKey : Option JsString
  workScope : Option JsString
  hash : Option JsString
  owner : Caller
  deriving DecidableEq

/-- A value of the journal: the marker of a handoff, or an input. -/
inductive RolloverDoc (M : Type) where
  | marker (target : JsString) (at_ : ℕ)
  | input (record : InputRecord M)
  deriving DecidableEq

def RolloverDoc.inputOf {M : Type} : RolloverDoc M → Option (InputRecord M)
  | .input record => some record
  | .marker .. => none

/-- The target in the marker, if there is one. -/
def RolloverDoc.target {M : Type} : RolloverDoc M → Option JsString
  | .marker target _ => some target
  | .input _ => none

/-- The messages of a record, as they are handed out. -/
def RolloverDoc.messages {M : Type} (d : RolloverDoc M) : List M :=
  (d.inputOf.bind (·.messages)).getD []

def rolloverKey (runId : JsString) : JsString := runId ++ js ":rollover"

def runKeysInput (runId : JsString) : JsString := runId ++ js ":input"

inductive RolloverError where
  | noFreeName
  | badRunId (e : RunIdError)
  | markerUnreadable
  | noRecord
  | ownerUnreadable
  deriving DecidableEq

structure RolloverResult (M : Type) where
  newRunId : JsString
  messages : List M
  deriving DecidableEq

/-- What the code outside the model gives a call: its options, and its functions of
    what it reads. -/
structure RolloverCall (E M : Type) where
  /-- The run that is handed over. -/
  runId : JsString
  newRunId : Option JsString
  /-- The messages the entries and the input of the old run come to, as they are
      reconstructed and then carried over by the caller. -/
  carry : List E → Option (InputRecord M) → List M
  /-- The digest of messages and a system prompt. -/
  rawInputFingerprint : List M → Option JsString → JsString

/-! ## The handoff -/

/-- The operations: on the keys of the journal, reading the entries and the owner of a
    run, and the clock. -/
inductive RolloverOp (E M : Type) where
  | kv (o : KvOp JsString (RolloverDoc M))
  | readRun (runId : JsString)
  | runOwnerOf (runId : JsString)
  | now

/-- The answers. The owner can be missing (`some none`) or unreadable (`none`). -/
abbrev RolloverOp.Res {E M : Type} : RolloverOp E M → Type
  | kv o => o.Res
  | readRun _ => List E
  | runOwnerOf _ => Option (Option Caller)
  | now => ℕ

variable {E M : Type}

abbrev RolloverM (E M : Type) := Prog (RolloverOp E M) RolloverOp.Res

/-- The journal as a handoff sees it. -/
def rolloverJournal : Journal (RolloverM E M) (RolloverDoc M) where
  get k := Prog.perform (RolloverOp.kv (.get k))
  put k v := Prog.perform (RolloverOp.kv (.put k v))
  putIfAbsent := some fun k v => Prog.perform (RolloverOp.kv (.putIfAbsent k v))
  putIfMatch := some fun k e v => Prog.perform (RolloverOp.kv (.putIfMatch k e v))
  now := (fun n : ℕ => (n : Int)) <$> (Prog.perform RolloverOp.now : RolloverM E M ℕ)

/-- The first name from `n` on that has no input. -/
def pickFrom (name : ℕ → Except RunIdError JsString) :
    (tries n : ℕ) → RolloverM E M (Except RolloverError JsString)
  | 0, _ => return .error .noFreeName
  | tries + 1, n =>
    match name n with
    | .error e => return .error (.badRunId e)
    | .ok cand => do
      if (← rolloverJournal.get (runKeysInput cand)).isNone then return .ok cand
      pickFrom name tries (n + 1)

/-- The base and the number of a raw id that ends in `@` and digits. The base has no
    line terminators. -/
def parsePeriod (runId : JsString) : Option (JsString × ℕ) :=
  let digits := (runId.reverse.takeWhile isDigit).reverse
  match runId.reverse.dropWhile isDigit with
  | [] => none
  | u :: base =>
    if digits ≠ [] ∧ u = 64 ∧ base.all (· ∉ [0x0A, 0x0D, 0x2028, 0x2029]) then
      some (base.reverse, numberOf digits)
    else none

/-- The name of the next period: an execution of the work of a derived id, and the next
    `@N` of a raw one. -/
def pickNextRunId (runId : JsString) : RolloverM E M (Except RolloverError JsString) :=
  match derivedRunIdBase runId with
  | some base =>
    pickFrom (executionRunId base) 10000 (((parseDerivedRunId runId).bind (·.execution)).getD 1 + 1)
  | none =>
    let (base, start) := match parsePeriod runId with
      | some (base, n) => (base, n + 1)
      | none => (runId, 2)
    pickFrom (fun n => .ok (base ++ js "@" ++ decimal n)) 10000 start

/-- What the names of the next periods begin with. -/
def periodStem (runId : JsString) : JsString :=
  match derivedRunIdBase runId with
  | some base => base ++ js "#"
  | none => ((parsePeriod runId).elim runId Prod.fst) ++ js "@"

/-- The target: the candidate, or the one that was frozen before. -/
def freezeTarget (runId candidate : JsString) : RolloverM E M (Except RolloverError JsString) := do
  let at_ ← Prog.perform RolloverOp.now
  if ← claim rolloverJournal (rolloverKey runId) (.marker candidate at_) then return .ok candidate
  match (← rolloverJournal.get (rolloverKey runId)).bind (·.target) with
  | some target => return if target = [] then .error .markerUnreadable else .ok target
  | none => return .error .markerUnreadable

/-- The seed of a new run. -/
def seedOf (call : RolloverCall E M) (entries : List E) (oldInput : Option (InputRecord M))
    (owner : Caller) : InputRecord M :=
  let messages := call.carry entries oldInput
  let system := oldInput.bind (·.system)
  { messages := some messages
    system
    threadId := oldInput.bind (·.threadId)
    actor := oldInput.bind (·.actor)
    agent := oldInput.bind (·.agent)
    workKey := oldInput.bind (·.workKey)
    workScope := oldInput.bind (·.workScope)
    hash := some (call.rawInputFingerprint messages system)
    owner }

/-- Seed the target, unless it has been, and report what it was seeded with. -/
def seedTarget (call : RolloverCall E M) (newRunId : JsString) :
    RolloverM E M (Except RolloverError (RolloverResult M)) := do
  let inputKey := runKeysInput newRunId
  match ← rolloverJournal.get inputKey with
  | some already => return .ok ⟨newRunId, already.messages⟩
  | none =>
    let entries ← (Prog.perform (RolloverOp.readRun call.runId) : RolloverM E M (List E))
    let oldInput := (← rolloverJournal.get (runKeysInput call.runId)).bind (·.inputOf)
    if entries.length = 0 ∧ oldInput.isNone then return .error .noRecord
    match ← (Prog.perform (RolloverOp.runOwnerOf call.runId) :
      RolloverM E M (Option (Option Caller))) with
    | none => return .error .ownerUnreadable
    | some src =>
      -- The owner is the source's. The loser of a race reports the winner's seed.
      let _ ← claim rolloverJournal inputKey (.input (seedOf call entries oldInput (src.getD .unknown)))
      let winner ← rolloverJournal.get inputKey
      return .ok ⟨newRunId, (winner.map (·.messages)).getD []⟩

/-- The candidate of a call. -/
def candidateOf (call : RolloverCall E M) : RolloverM E M (Except RolloverError JsString) :=
  match call.newRunId with
  | some newRunId => return .ok newRunId
  | none => pickNextRunId call.runId

/-- Hand a run over. -/
def rolloverRun (call : RolloverCall E M) :
    RolloverM E M (Except RolloverError (RolloverResult M)) := do
  match ← candidateOf call with
  | .error e => return .error e
  | .ok candidate =>
    match ← freezeTarget call.runId candidate with
    | .error e => return .error e
    | .ok newRunId => seedTarget call newRunId

/-! ## Handoffs together -/

/-- The journal: its keys, and the entries of the runs. -/
structure RolloverWorld (E M : Type) where
  kv : Kv JsString (RolloverDoc M)
  entries : JsString → List E
  /-- The keys as they were when a call last read one. No operation reads this. -/
  seen : ℕ → Kv JsString (RolloverDoc M)

/-- What the code outside the model answers. -/
structure RolloverAnswer where
  owner : Option (Option Caller)
  now : ℕ

variable [DecidableEq M]

/-- The journal with atomic operations. The runs go on being written. -/
def rolloverMachine : Machine (RolloverOp E M) RolloverOp.Res (RolloverWorld E M) RolloverAnswer
    (JsString → List E) where
  exec i a
    | .kv (.get k), w => (w.kv.val k, { w with seen := Function.update w.seen i w.kv })
    | .kv o, w => let (r, kv) := w.kv.exec i a.now o; (r, { w with kv })
    | .readRun runId, w => (w.entries runId, w)
    | .runOwnerOf _, w => (a.owner, w)
    | .now, w => (a.now, w)
  env entries w := { w with entries }

/-- The calls, about to start. -/
def rolloverStart (w : RolloverWorld E M) (calls : ℕ → RolloverCall E M) :
    Conf (RolloverOp E M) RolloverOp.Res (Except RolloverError (RolloverResult M))
      (RolloverWorld E M) :=
  ⟨w, fun i => rolloverRun (calls i)⟩

/-- The target the marker of a run names. -/
def RolloverWorld.target (w : RolloverWorld E M) (runId : JsString) : Option JsString :=
  (w.kv.val (rolloverKey runId)).bind (·.target)

/-- When a call sets the marker of its run, every other run that counts from the same
    base and has a marker had its seed when the call last read the journal: it found its
    target free in the same journal. -/
def WindowClear (w : RolloverWorld E M) (i : ℕ) : (o : RolloverOp E M) → o.Res → Prop
  | .kv (.putIfAbsent k (.marker ..)), won =>
    won = true → ∀ runId source, k = rolloverKey source → runId ≠ source →
      periodStem runId = periodStem source → ∀ target ∈ w.target runId,
        (w.seen i).val (runKeysInput target) ≠ none
  | _, _ => True

/-- The targets are periods of their runs, and no two runs have the same. -/
structure RolloverWorld.Distinct (w : RolloverWorld E M) : Prop where
  period : ∀ runId, ∀ target ∈ w.target runId, ∃ n, target = periodStem runId ++ decimal n
  apart : ∀ runId runId' target, w.target runId = some target → w.target runId' = some target →
    runId = runId'

/-- What a finished handoff leaves: the marker, and a seed with the messages it reports. -/
structure Handed (runId : JsString) (r : RolloverResult M) (w : RolloverWorld E M) : Prop where
  target : w.target runId = some r.newRunId
  seeded : ∃ d, w.kv.val (runKeysInput r.newRunId) = some d ∧ d.messages = r.messages

/-- Keys that are written once. -/
def rolloverRG : RG (RolloverOp E M) RolloverOp.Res (RolloverWorld E M) RolloverAnswer
    (JsString → List E) where
  M := rolloverMachine
  ok _ _ _ _ := True
  I _ := True
  G _ w w' := ∀ k v, w.kv.val k = some v → w'.kv.val k = some v

/-- Distinct markers, and a call's own view of the journal. -/
def choiceRG : RG (RolloverOp E M) RolloverOp.Res (RolloverWorld E M) RolloverAnswer
    (JsString → List E) where
  M := rolloverMachine
  ok := WindowClear
  I := RolloverWorld.Distinct
  G i w w' := ∀ j ≠ i, w'.seen j = w.seen j

theorem rolloverKey_injective : Function.Injective rolloverKey := fun _ _ h =>
  List.append_cancel_right h

/-! ### The operations -/

section Operations

variable {w : RolloverWorld E M} {i : ℕ}

theorem kept_val (k : JsString) (v : RolloverDoc M) :
    (rolloverRG (E := E)).Kept fun w => w.kv.val k = some v where
  step _ _ _ _ _ hG h := hG k v h
  env _ _ _ h := h

theorem kept_target (runId target : JsString) :
    (rolloverRG (E := E) (M := M)).Kept fun w => w.target runId = some target where
  step _ w w' _ _ hG h := by
    obtain ⟨d, hd, ht⟩ := Option.bind_eq_some_iff.1 h
    exact Option.bind_eq_some_iff.2 ⟨d, hG _ _ hd, ht⟩
  env _ _ _ h := h

variable {R : RolloverWorld E M → Prop} (hR : rolloverRG.Kept R)
include hR

/-- An operation that only reads. -/
theorem sat_ask {o : RolloverOp E M} (ho : ∀ a w, (rolloverMachine.exec i a o w).2 = w) :
    (Prog.perform o).Sat rolloverRG i R fun _ w => R w := by
  refine Prog.sat_kept hR ?_
  intro w a _ hw _
  refine ⟨trivial, ?_, trivial⟩
  intro k v h
  exact (ho a w).symm ▸ h

/-- What is read stays. -/
theorem sat_get (k : JsString) :
    (rolloverJournal.get k).Sat rolloverRG i R fun r w => R w ∧ ∀ v ∈ r, w.kv.val k = some v := by
  refine Prog.sat_perform hR (fun r => ?_) ?_
  · exact RG.Kept.forall fun v => RG.Kept.imp _ (kept_val k v)
  · intro w a hI _ _
    exact ⟨hI, fun _ _ h => h, fun v hv => hv⟩

omit hR in
/-- A key that has a value is read with it. -/
theorem sat_seeded {k : JsString} (hsome : rolloverRG.Kept fun w : RolloverWorld E M =>
    R w ∧ ∃ v, w.kv.val k = some v) :
    (rolloverJournal.get k).Sat rolloverRG i (fun w => R w ∧ ∃ v, w.kv.val k = some v) fun r w =>
      (R w ∧ ∃ v, w.kv.val k = some v) ∧ ∃ v, r = some v ∧ w.kv.val k = some v := by
  refine Prog.sat_perform hsome (fun r => ?_) ?_
  · exact ⟨fun _ _ _ _ _ hG ⟨v, hv, hval⟩ => ⟨v, hv, hG k v hval⟩, fun _ _ _ h => h⟩
  · rintro w a hI ⟨-, v, hv⟩ _
    exact ⟨hI, fun _ _ h => h, v, hv, hv⟩

/-- After a claim the key has a value: the own one, if the claim was won. -/
theorem sat_claim (k : JsString) (v : RolloverDoc M) :
    (claim rolloverJournal k v).Sat rolloverRG i R fun won w =>
      R w ∧ (∃ v', w.kv.val k = some v') ∧ (won → w.kv.val k = some v) := by
  refine Prog.sat_perform hR (fun r => ?_) ?_
  · have hsome : (rolloverRG (E := E) (M := M)).Kept fun w => ∃ v', w.kv.val k = some v' :=
      ⟨fun _ _ _ _ _ hG ⟨v', h⟩ => ⟨v', hG k v' h⟩, fun _ _ _ h => h⟩
    exact hsome.and (RG.Kept.imp _ (kept_val k v))
  · intro w a _ hw _
    simp only [rolloverRG, rolloverMachine, Kv.exec]
    by_cases hk : w.kv.val k = none
    · simp only [if_pos hk]
      refine ⟨trivial, fun k' v' h => ?_, ⟨v, ?_⟩, fun _ => ?_⟩
      · by_cases he : k' = k
        · rw [he, hk] at h
          cases h
        · rwa [Kv.set_val_of_ne _ _ _ _ he]
      · exact Kv.set_val_self ..
      · exact Kv.set_val_self ..
    · simp only [if_neg hk]
      exact ⟨trivial, fun _ _ h => h, Option.ne_none_iff_exists'.1 hk, fun h => by cases h⟩

end Operations

/-! ### The programs -/

section Programs

variable {i : ℕ}

theorem pickFrom_sat (name : ℕ → Except RunIdError JsString) (tries n : ℕ) :
    (pickFrom name tries n).Sat (rolloverRG (E := E) (M := M)) i (fun _ => True)
      fun _ _ => True := by
  induction tries generalizing n with
  | zero => exact fun _ _ h => h
  | succ tries ih =>
    rw [pickFrom]
    split
    · exact fun _ _ h => h
    · refine (sat_get (RG.kept_const True) _).bind fun r => ?_
      split
      · exact fun _ _ _ => trivial
      · exact (ih _).pre fun _ _ => trivial

theorem pickNextRunId_sat (runId : JsString) :
    (pickNextRunId runId).Sat (rolloverRG (E := E) (M := M)) i (fun _ => True)
      fun _ _ => True := by
  unfold pickNextRunId
  split
  · exact pickFrom_sat _ _ _
  · exact pickFrom_sat _ _ _

/-- A target that is frozen is the one in the marker. -/
theorem freezeTarget_sat (runId candidate : JsString) :
    (freezeTarget runId candidate).Sat (rolloverRG (E := E) (M := M)) i (fun _ => True)
      fun r w => ∀ target, r = .ok target → w.target runId = some target := by
  unfold freezeTarget
  refine (sat_ask (RG.kept_const True) fun _ _ => rfl).bind fun at_ => ?_
  refine (sat_claim (RG.kept_const True) _ _).bind fun won => ?_
  split
  · next hwon =>
    rintro w - ⟨-, -, hval⟩ target htarget
    cases htarget
    simp [RolloverWorld.target, hval hwon, RolloverDoc.target]
  · refine Prog.Sat.pre (P := fun _ => True) ?_ fun _ _ => trivial
    refine (sat_get (RG.kept_const True) _).bind fun r => ?_
    split
    · next target hr =>
      rintro w - ⟨-, hval⟩ target' htarget
      obtain ⟨d, hd, ht⟩ := Option.bind_eq_some_iff.1 hr
      split at htarget
      · cases htarget
      · cases htarget
        simp [RolloverWorld.target, hval d hd, ht]
    · exact fun _ _ _ _ h => by cases h

/-- A target that is seeded holds the messages that are reported. -/
theorem seedTarget_sat (call : RolloverCall E M) (newRunId : JsString) :
    (seedTarget call newRunId).Sat rolloverRG i (fun w => w.target call.runId = some newRunId)
      fun r w => ∀ res, r = .ok res → Handed call.runId res w := by
  have hR := kept_target (E := E) (M := M) call.runId newRunId
  unfold seedTarget
  refine (sat_get hR _).bind fun already => ?_
  split
  · rintro w - ⟨hw, hval⟩ res hres
    cases hres
    exact ⟨hw, _, hval _ rfl, rfl⟩
  · refine Prog.Sat.pre (P := fun w => w.target call.runId = some newRunId) ?_ fun _ h => h.1
    refine (sat_ask hR fun _ _ => rfl).bind fun entries => (sat_get hR _).bind fun oldInput => ?_
    dsimp only
    split
    · exact fun _ _ _ _ h => by cases h
    · refine Prog.Sat.pre (P := fun w => w.target call.runId = some newRunId) ?_ fun _ h => h.1
      refine (sat_ask hR fun _ _ => rfl).bind fun owner => ?_
      split
      · exact fun _ _ _ _ h => by cases h
      · refine (sat_claim hR _ _).bind fun won => ?_
        -- whoever won the claim, the key has a value from now on
        have hsome : (rolloverRG (E := E) (M := M)).Kept fun w =>
            w.target call.runId = some newRunId ∧
              ∃ v, w.kv.val (runKeysInput newRunId) = some v :=
          ⟨fun _ _ _ hI hI' hG h => ⟨hR.step i _ _ hI hI' hG h.1,
            h.2.elim fun v hv => ⟨v, hG _ _ hv⟩⟩, fun _ _ _ h => h⟩
        refine Prog.Sat.pre ?_ fun w h => (⟨h.1, h.2.1⟩ : _ ∧ _)
        refine (sat_seeded hsome).bind fun winner => ?_
        rintro w - ⟨⟨hw, -⟩, v, hv, hval⟩ res hres
        cases hres
        exact ⟨hw, v, hval, by rw [hv]; rfl⟩

theorem rolloverRun_sat (call : RolloverCall E M) :
    (rolloverRun call).Sat rolloverRG i (fun _ => True)
      fun r w => ∀ res, r = .ok res → Handed call.runId res w := by
  unfold rolloverRun
  refine Prog.Sat.bind (R := fun _ _ => True) ?_ fun candidate => ?_
  · unfold candidateOf
    split
    · exact fun _ _ _ => trivial
    · exact pickNextRunId_sat _
  · split
    · exact fun _ _ _ _ h => by cases h
    · refine (freezeTarget_sat _ _).bind fun target => ?_
      split
      · exact fun _ _ _ _ h => by cases h
      · exact (seedTarget_sat call _).pre fun w h => h _ rfl

end Programs

/-! ### The choice of a target -/

section Choice

/-- A name that ends in a number gives away what comes before it. -/
theorem stem_unique {stem stem' : JsString} {u u' : UInt16} (hu : isDigit u = false)
    (hu' : isDigit u' = false) {n n' : ℕ}
    (h : stem ++ [u] ++ decimal n = stem' ++ [u'] ++ decimal n') : stem ++ [u] = stem' ++ [u'] := by
  have hdrop : ∀ (stem : JsString) (u : UInt16) (n : ℕ), isDigit u = false →
      (stem ++ [u] ++ decimal n).reverse.dropWhile isDigit = (stem ++ [u]).reverse := by
    intro stem u n hu
    rw [List.reverse_append, List.dropWhile_append_of_pos fun a ha =>
      isDigit_of_mem_decimal (List.mem_reverse.1 ha), List.reverse_append, List.reverse_singleton,
      List.singleton_append, List.dropWhile_cons_of_neg (by simp [hu])]
  have hrev := congrArg (fun t : JsString => t.reverse.dropWhile isDigit) h
  simp only [hdrop _ _ _ hu, hdrop _ _ _ hu'] at hrev
  exact List.reverse_injective hrev

/-- Runs that count from different bases have different periods. -/
theorem periodStem_unique {runId runId' : JsString} {n n' : ℕ}
    (h : periodStem runId ++ decimal n = periodStem runId' ++ decimal n') :
    periodStem runId = periodStem runId' := by
  have hends : ∀ runId, ∃ stem u, isDigit u = false ∧ periodStem runId = stem ++ [u] := by
    intro runId
    unfold periodStem
    split
    · exact ⟨_, 35, by decide, rfl⟩
    · exact ⟨_, 64, by decide, rfl⟩
  obtain ⟨stem, u, hu, hstem⟩ := hends runId
  obtain ⟨stem', u', hu', hstem'⟩ := hends runId'
  rw [hstem, hstem'] at h ⊢
  exact stem_unique hu hu' h

variable {w : RolloverWorld E M} {i : ℕ}

omit [DecidableEq M] in
/-- Writing a key of another kind leaves the markers. -/
theorem target_set {t : Int} {k : JsString} {v : RolloverDoc M} (runId : JsString) :
    RolloverWorld.target { w with kv := w.kv.set i t k v } runId =
      if rolloverKey runId = k then v.target else w.target runId := by
  split
  · next hk => simp only [RolloverWorld.target, hk, Kv.set_val_self, Option.bind_some]
  · next hk => simp only [RolloverWorld.target, Kv.set_val_of_ne _ _ _ _ hk]

omit [DecidableEq M] in
/-- A marker that names a period of its run, which no other run's marker names. -/
theorem RolloverWorld.Distinct.set (h : w.Distinct) {t : Int} {k : JsString} {v : RolloverDoc M}
    (hv : ∀ target ∈ v.target, ∀ source, rolloverKey source = k →
      (∃ n, target = periodStem source ++ decimal n) ∧
        ∀ runId ≠ source, w.target runId ≠ some target) :
    RolloverWorld.Distinct { w with kv := w.kv.set i t k v } := by
  constructor
  case period =>
    intro runId target htarget
    rw [target_set] at htarget
    split at htarget
    · next hk => exact (hv target htarget runId hk).1
    · exact h.period runId target htarget
  case apart =>
    intro runId runId' target ht ht'
    rw [target_set] at ht ht'
    split at ht <;> split at ht'
    · next hk hk' => exact rolloverKey_injective (hk.trans hk'.symm)
    · next hk hk' =>
      by_contra hne
      exact (hv target ht runId hk).2 runId' (Ne.symm hne) ht'
    · next hk hk' =>
      by_contra hne
      exact (hv target ht' runId' hk').2 runId hne ht
    · exact h.apart runId runId' target ht ht'

/-- The operation sets no marker. -/
def SetsNone : RolloverOp E M → Prop
  | .kv (.get _) | .readRun _ | .runOwnerOf _ | .now => True
  | .kv (.putIfAbsent _ v) => v.target = none
  | .kv _ => False

/-- A program that sets no marker leaves them distinct. -/
theorem sat_setsNone {α : Type} {p : Prog (RolloverOp E M) RolloverOp.Res α} (hp : p.Only SetsNone) :
    p.Sat choiceRG i (fun _ => True) fun _ _ => True := by
  induction p with
  | pure a => exact fun _ _ h => h
  | op o k ih =>
    refine Prog.Sat.op (fun _ _ => True) (fun _ _ _ _ _ _ h => h) ?_ fun r => ih r (hp.2 r)
    intro w a hI _ _
    have hseen : ∀ j ≠ i, (rolloverMachine.exec i a o w).2.seen j = w.seen j := by
      intro j hj
      rcases o with ((_ | _ | _ | _) | _ | _ | _) <;>
        simp [rolloverMachine, Function.update_of_ne hj]
    refine ⟨?_, hseen, trivial⟩
    rcases o with (o | runId | runId | _)
    · cases o with
      | get k => exact ⟨hI.period, hI.apart⟩
      | putIfAbsent k v =>
        simp only [choiceRG, rolloverMachine, Kv.exec]
        split
        · refine hI.set fun target htarget => ?_
          rw [show v.target = none from hp.1] at htarget
          cases htarget
        · exact hI
      | put k v => exact hp.1.elim
      | putIfMatch k e v => exact hp.1.elim
    · exact hI
    · exact hI
    · exact hI

/-- A name that is picked is a period of the run, and was free when it was read. -/
def Free (i : ℕ) (runId cand : JsString) (w : RolloverWorld E M) : Prop :=
  (∃ n, cand = periodStem runId ++ decimal n) ∧ (w.seen i).val (runKeysInput cand) = none

theorem stable_free (runId cand : JsString) :
    (choiceRG (E := E) (M := M)).Stable i (Free i runId cand) := by
  rintro w w' - - (⟨j, hj, hG⟩ | ⟨e, rfl⟩) ⟨hn, hfree⟩
  · exact ⟨hn, by rw [hG i (Ne.symm hj)]; exact hfree⟩
  · exact ⟨hn, hfree⟩

theorem pickFrom_free {runId : JsString} {name : ℕ → Except RunIdError JsString}
    (hname : ∀ n cand, name n = .ok cand → cand = periodStem runId ++ decimal n) (tries n : ℕ) :
    (pickFrom name tries n).Sat (choiceRG (E := E) (M := M)) i (fun _ => True)
      fun r w => ∀ cand, r = .ok cand → Free i runId cand w := by
  induction tries generalizing n with
  | zero => exact fun _ _ _ _ h => by cases h
  | succ tries ih =>
    rw [pickFrom]
    split
    · exact fun _ _ _ _ h => by cases h
    · next cand hcand =>
      refine Prog.Sat.op (fun r w => r = none → Free i runId cand w)
        (fun r w w' hI hI' hrely h hr => stable_free runId cand w w' hI hI' hrely (h hr)) ?_ ?_
      · intro w a hI _ _
        refine ⟨⟨hI.period, hI.apart⟩, fun j hj => Function.update_of_ne hj _ _, fun hr => ?_⟩
        refine ⟨⟨n, hname n cand hcand⟩, ?_⟩
        show (Function.update w.seen i w.kv i).val _ = none
        rw [Function.update_self]
        exact hr
      · intro r
        cases r with
        | none =>
          rintro w - h cand' hcand'
          cases hcand'
          exact h rfl
        | some d => exact (ih _).pre fun _ _ => trivial

theorem pickNextRunId_free (runId : JsString) :
    (pickNextRunId runId).Sat (choiceRG (E := E) (M := M)) i (fun _ => True)
      fun r w => ∀ cand, r = .ok cand → Free i runId cand w := by
  unfold pickNextRunId
  split
  · next base hbase =>
    refine pickFrom_free (fun n cand hcand => ?_) _ _
    unfold executionRunId at hcand
    split_ifs at hcand
    cases hcand
    rw [periodStem, hbase]
  · next hbase =>
    refine pickFrom_free (fun n cand hcand => ?_) _ _
    cases hcand
    rw [periodStem, hbase]
    cases parsePeriod runId <;> rfl

/-- A target that was free is frozen apart from the others. -/
theorem freezeTarget_apart (runId candidate : JsString) :
    (freezeTarget runId candidate).Sat (choiceRG (E := E) (M := M)) i (Free i runId candidate)
      fun _ _ => True := by
  refine Prog.Sat.op (fun _ => Free i runId candidate) (fun _ => stable_free runId candidate) ?_
    fun at_ => ?_
  · exact fun w a hI h _ => ⟨hI, fun _ _ => rfl, h⟩
  · refine Prog.Sat.op (fun _ _ => True) (fun _ _ _ _ _ _ h => h) ?_ fun won => ?_
    · rintro w a hI ⟨hperiod, hfree⟩ hok
      simp only [choiceRG, rolloverMachine, Kv.exec] at hok ⊢
      by_cases hk : w.kv.val (rolloverKey runId) = none
      · simp only [if_pos hk] at hok ⊢
        refine ⟨hI.set fun target htarget source hsource => ?_, fun _ _ => trivial, trivial⟩
        cases htarget
        obtain rfl := rolloverKey_injective hsource
        refine ⟨hperiod, fun runId' hne hother => ?_⟩
        -- another run with this target counts from the same base, and had its seed
        obtain ⟨n, hn⟩ := hperiod
        obtain ⟨n', hn'⟩ := hI.period runId' _ hother
        have hstem := periodStem_unique (hn'.symm.trans hn)
        exact hok rfl runId' source rfl hne hstem _ hother hfree
      · simp only [if_neg hk]
        exact ⟨hI, fun _ _ => trivial, trivial⟩
    · refine sat_setsNone ?_
      by_cases hwon : won = true
      · subst hwon
        trivial
      · rw [Bool.not_eq_true] at hwon
        subst hwon
        refine ⟨trivial, fun r => ?_⟩
        show Prog.Only SetsNone (match r.bind (·.target) with | some _ => _ | none => _)
        split <;> trivial

omit [DecidableEq M] in
theorem seedTarget_setsNone (call : RolloverCall E M) (newRunId : JsString) :
    (seedTarget call newRunId).Only SetsNone := by
  refine ⟨trivial, fun already => ?_⟩
  cases already with
  | some d => trivial
  | none =>
    refine ⟨trivial, fun entries => ⟨trivial, fun oldInput => ?_⟩⟩
    show Prog.Only SetsNone (if _ then _ else _)
    split
    · trivial
    · refine ⟨trivial, fun owner => ?_⟩
      cases owner with
      | none => trivial
      | some src => exact ⟨rfl, fun won => ⟨trivial, fun winner => trivial⟩⟩

theorem rolloverRun_apart {call : RolloverCall E M} (hnew : call.newRunId = none) :
    (rolloverRun call).Sat choiceRG i (fun _ => True) fun _ _ => True := by
  unfold rolloverRun candidateOf
  rw [hnew]
  refine (pickNextRunId_free call.runId).bind fun candidate => ?_
  split
  · exact fun _ _ _ => trivial
  · refine Prog.Sat.bind ((freezeTarget_apart _ _).pre fun w h => h _ rfl) fun target => ?_
    split
    · exact fun _ _ _ => trivial
    · exact sat_setsNone (seedTarget_setsNone call _)

end Choice

/-! ## The target of a run -/

section Runs

variable {start : RolloverWorld E M} {calls : ℕ → RolloverCall E M}

/-- What a call that has returned leaves. -/
theorem handed_of_returned (ms : List (Move RolloverAnswer (JsString → List E))) {i : ℕ}
    {r : RolloverResult M}
    (hi : (rolloverMachine.play (rolloverStart start calls) ms).procs i = .pure (.ok r)) :
    Handed (calls i).runId r (rolloverMachine.play (rolloverStart start calls) ms).world :=
  Machine.play_returned (S := rolloverRG) (c := rolloverStart start calls) (P := fun _ _ => True)
    (Q := fun i r w => ∀ res, r = .ok res → Handed (calls i).runId res w) (fun _ _ h => h) trivial
    (fun _ => (RG.kept_const True).stable _) (fun _ => trivial) (fun _ => rolloverRun_sat _)
    (Machine.meets_true _ _) hi r rfl

/-- The markers of calls that are kept apart. -/
theorem distinct_of_apart (hstart : ∀ runId, start.target runId = none)
    (hnew : ∀ i, (calls i).newRunId = none) {ms : List (Move RolloverAnswer (JsString → List E))}
    (hms : rolloverMachine.Meets WindowClear (rolloverStart start calls) ms) :
    (rolloverMachine.play (rolloverStart start calls) ms).world.Distinct := by
  have hdistinct : start.Distinct := by
    constructor
    · exact fun runId target h => by rw [hstart runId] at h; cases h
    · exact fun runId _ _ h => by rw [hstart runId] at h; cases h
  exact Machine.play_sat (S := choiceRG) (c := rolloverStart start calls) (P := fun _ _ => True)
    (Q := fun _ _ _ => True) (fun _ _ h => ⟨h.period, h.apart⟩) hdistinct
    (fun _ _ _ _ _ _ h => h) (fun _ => trivial) (fun i => rolloverRun_apart (hnew i)) hms

end Runs

/-- **A handoff has one target, and a target one source**, in every interleaving and with
    every crash: the first always; the second as long as no other run that counts from the
    same base stands between its marker and its seed, from the choice of a target to the
    marker. -/
theorem rollover_agrees (start : RolloverWorld E M) (calls : ℕ → RolloverCall E M)
    (hstart : ∀ runId, start.target runId = none)
    (ms : List (Move RolloverAnswer (JsString → List E)))
    {i j : ℕ} {r r' : RolloverResult M}
    (hi : (rolloverMachine.play (rolloverStart start calls) ms).procs i = .pure (.ok r))
    (hj : (rolloverMachine.play (rolloverStart start calls) ms).procs j = .pure (.ok r')) :
    ((calls i).runId = (calls j).runId → r = r') ∧
      ((∀ i, (calls i).newRunId = none) →
        rolloverMachine.Meets WindowClear (rolloverStart start calls) ms →
        (calls i).runId ≠ (calls j).runId → r.newRunId ≠ r'.newRunId) := by
  have hri := handed_of_returned ms hi
  have hrj := handed_of_returned ms hj
  refine ⟨fun hsame => ?_, fun hnew hms hother heq => ?_⟩
  · -- one marker, and one seed
    have htarget : r.newRunId = r'.newRunId := by
      have h := hri.target
      rw [hsame, hrj.target] at h
      exact (Option.some.inj h).symm
    obtain ⟨d, hd, hm⟩ := hri.seeded
    obtain ⟨d', hd', hm'⟩ := hrj.seeded
    rw [htarget, hd', Option.some.injEq] at hd
    obtain ⟨newRunId, messages⟩ := r
    obtain ⟨newRunId', messages'⟩ := r'
    simp only at htarget hm hm'
    rw [htarget, ← hm, ← hm', hd]
  · have hdistinct := distinct_of_apart hstart hnew hms
    exact hother (hdistinct.apart _ _ _ hri.target (heq ▸ hrj.target))

/-- A record with messages and nothing else. -/
def messagesOnly (messages : List JsString) : InputRecord JsString :=
  ⟨some messages, none, none, none, none, none, none, none, .unknown⟩

/-- Two runs that count from the same base, each with one message. -/
def sameBase : RolloverWorld Unit JsString where
  kv := ((Kv.empty.set 0 0 (runKeysInput (js "agent")) (.input (messagesOnly [js "first"]))).set 0 0
    (runKeysInput (js "agent@1")) (.input (messagesOnly [js "second"])))
  entries _ := []
  seen _ := Kv.empty

/-- They are handed over, the first by any number of calls. Without entries, the messages
    are those of the input. -/
def sameBaseCalls (i : ℕ) : RolloverCall Unit JsString where
  runId := if i = 1 then js "agent@1" else js "agent"
  newRunId := none
  carry _ input := (input.bind (·.messages)).getD []
  rawInputFingerprint _ _ := []

/-- The next operations of a call. -/
def ops (i n : ℕ) : List (Move RolloverAnswer (JsString → List Unit)) :=
  List.replicate n (.run i ⟨some (some .unknown), 0⟩)

theorem rolloverKey_ne_input (runId runId' : JsString) :
    rolloverKey runId ≠ runKeysInput runId' := by
  intro h
  have hlast := congrArg List.getLast? h
  rw [rolloverKey, runKeysInput, List.getLast?_append, List.getLast?_append] at hlast
  exact absurd (show (114 : UInt16) = 116 from Option.some.inj hlast) (by decide)

theorem sameBase_target (runId : JsString) : sameBase.target runId = none := by
  simp [RolloverWorld.target, sameBase, Kv.set, Function.update_of_ne (rolloverKey_ne_input _ _),
    Kv.empty]

/-- One run after the other, the first by two calls, one of which crashes after its marker. -/
def inTurn : List (Move RolloverAnswer (JsString → List Unit)) :=
  ops 2 3 ++ ops 0 10 ++ ops 1 10

theorem rollover_agrees_inTurn :
    rolloverMachine.Meets WindowClear (rolloverStart sameBase sameBaseCalls) inTurn ∧
      js "agent@2" ≠ js "agent@3" := by
  have hfirst : (rolloverMachine.play (rolloverStart sameBase sameBaseCalls) inTurn).procs 0 =
    .pure (.ok ⟨js "agent@2", [js "first"]⟩) := rfl
  have hsecond : (rolloverMachine.play (rolloverStart sameBase sameBaseCalls) inTurn).procs 1 =
    .pure (.ok ⟨js "agent@3", [js "second"]⟩) := rfl
  suffices hms : rolloverMachine.Meets WindowClear (rolloverStart sameBase sameBaseCalls) inTurn from
    ⟨hms, (rollover_agrees sameBase sameBaseCalls sameBase_target inTurn hfirst hsecond).2
      (fun _ => rfl) hms (by decide)⟩
  rw [inTurn, Machine.meets_append, Machine.meets_append]
  refine ⟨⟨⟨trivial, trivial, fun _ runId source _ _ _ target htarget => ?_, trivial⟩, trivial,
    trivial, fun h => absurd h Bool.false_ne_true, trivial, trivial, trivial, trivial, trivial,
    trivial, trivial, trivial⟩, trivial, trivial, trivial,
    fun _ runId source _ _ _ target htarget => ?_, trivial, trivial, trivial, trivial, trivial,
    trivial, trivial⟩
  · change target ∈ sameBase.target runId at htarget
    rw [sameBase_target] at htarget
    cases htarget
  · -- the only marker is the one of the first run, whose target has its seed
    change ((((sameBase.kv.set 2 0 (rolloverKey (js "agent")) (.marker (js "agent@2") 0)).set 0 0
      (runKeysInput (js "agent@2")) (.input (seedOf (sameBaseCalls 0) []
        (some (messagesOnly [js "first"])) .unknown))).val (rolloverKey runId)).bind (·.target)) =
          some target at htarget
    rw [Kv.set_val_of_ne _ _ _ _ (rolloverKey_ne_input _ _)] at htarget
    by_cases hkey : rolloverKey runId = rolloverKey (js "agent")
    · rw [hkey, Kv.set_val_self] at htarget
      cases htarget
      exact Option.some_ne_none _
    · rw [Kv.set_val_of_ne _ _ _ _ hkey] at htarget
      exact absurd ((sameBase_target runId).symm.trans htarget) (by simp)

/-- A handoff pauses between its marker and its seed, and the other run is handed over to
    the same target: the first call reports the other run's message. -/
theorem rollover_collides :
    ¬∀ (start : RolloverWorld Unit JsString) (calls : ℕ → RolloverCall Unit JsString)
      (ms : List (Move RolloverAnswer (JsString → List Unit))),
      (∀ runId, start.target runId = none) → (∀ i, (calls i).newRunId = none) →
      ∀ (i j : ℕ) (r r' : RolloverResult JsString),
        (rolloverMachine.play (rolloverStart start calls) ms).procs i = .pure (.ok r) →
        (rolloverMachine.play (rolloverStart start calls) ms).procs j = .pure (.ok r') →
        ((calls i).runId = (calls j).runId → r = r') ∧
          ((calls i).runId ≠ (calls j).runId → r.newRunId ≠ r'.newRunId) := by
  intro h
  have hsame := (h sameBase sameBaseCalls (ops 0 3 ++ ops 1 9 ++ ops 0 6) sameBase_target
    (fun _ => rfl) 0 1 ⟨js "agent@2", [js "second"]⟩ ⟨js "agent@2", [js "second"]⟩ rfl rfl).2
  exact hsame (by decide) rfl

end Gnldev.Durable
