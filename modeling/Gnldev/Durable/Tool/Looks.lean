import Gnldev.Durable.Tool.Aside
import Gnldev.Durable.Tool.Effects

/-!
# What a call has seen of its key

A call looks at its key when it reads the record there, and when it claims it. What it puts
afterwards rests on the last look (`Rests`): a terminal record is put only if the look has shown
no final one, and a call adds itself to a final record only as it has seen it. `execute_rests`
shows this along the text, for every gate, hook and error.

In a run of many calls the last look of a call is in the list of what has been performed, and so is
what has landed under the key since (`sinceLook`). As long as nothing has, the look is still true
(`LookInv`).
-/

namespace Gnldev.Durable

open Prog ToolCall Function

variable {V : Type}

/-- The last look of a call at its key, if there was one: the record, if there was one. -/
abbrev Look (V : Type) := Option (Option (ToolRecord V))

/-- What an operation shows of the key: the record that is read, or with which it is claimed. -/
def seenAt (K : JsString) : (o : ToolOp V) → o.Res → Look V
  | .rec_ _ (.get k), .ok raw => if k = K then some (raw.map (·.record)) else none
  | .rec_ _ (.putIfAbsent k v), .ok won => if k = K ∧ won then some (some v.record) else none
  | .rec_ _ (.putIfMatch k _ v), .ok won => if k = K ∧ won then some (some v.record) else none
  | _, _ => none

/-- The record that an operation leaves under the key. -/
def landed (K : JsString) : (o : ToolOp V) → o.Res → Option (ToolRecord V)
  | .rec_ _ (.put k v), .ok _ => if k = K then some v.record else none
  | .rec_ _ (.putIfAbsent k v), .ok won => if k = K ∧ won then some v.record else none
  | .rec_ _ (.putIfMatch k _ v), .ok won => if k = K ∧ won then some v.record else none
  | _, _ => none

/-- The last look has shown no final record. -/
def Unsettled (s : Look V) : Prop := ∃ record, s = some record ∧ record.bind (·.final) = none

/-- What is put rests on the last look. -/
def Rests (s : Look V) : ToolOp V → Prop
  | .rec_ .terminal (.put _ _) => Unsettled s
  | .rec_ .recovered (.put _ _) => Unsettled s
  | .rec_ (.track base) (.put _ _) => s = some (some base)
  | _ => True

/-- The protocol of looking before one puts. -/
def LookStep (K : JsString) (s : Look V) (o : ToolOp V) (r : o.Res) (s' : Look V) : Prop :=
  Rests s o ∧ s' = (seenAt K o r).or s

/-! ## The text -/

section Text

variable {c : ToolCall} {K : JsString} {α β : Type} {I : Look V → Prop} {p : TM V α}

/-- The last look shows nothing final before and after it. -/
def Still (K : JsString) (p : TM V α) : Prop :=
  Runs (LookStep K) Unsettled p (fun s _ => Unsettled s) fun s _ => Unsettled s

/-- It starts when the last look has shown nothing final, and is the last part of a call. -/
def Last (K : JsString) (p : TM V α) : Prop :=
  Runs (LookStep K) Unsettled p (fun _ _ => True) fun _ _ => True

/-- An operation that is no look, where it is allowed. -/
theorem looks_await {o : ToolOp V} (hrests : ∀ s, I s → Rests s o) (hseen : ∀ r, seenAt K o r = none) :
    Runs (LookStep K) I (await_ o) (fun s _ => I s) fun s _ => I s := by
  intro s hs r
  refine ⟨_, ⟨hrests s hs, rfl⟩, ?_⟩
  rw [hseen r]
  rcases r with e | r <;> exact hs

theorem looks_orThrow (x : Except ToolError α) :
    Runs (LookStep K) I (orThrow x : TM V α) (fun s a => I s ∧ x = .ok a) fun _ _ => True := by
  rcases x with e | a
  · exact runs_throw fun _ _ => trivial
  · exact runs_pure fun _ hs => ⟨hs, rfl⟩

/-- What the gates do beside. -/
theorem still_of_aside (h : KeepsAside .gates p) : Still K p := by
  intro s hs
  refine (Follows.of_only (I := Unsettled) (fun s o r hs ho => ?_) h hs).mono fun s r hs => ?_
  · have hseen : seenAt K o r = none := by
      rcases o with ⟨site, _ | _ | _ | _⟩ | _ | _ | _ | _ | _ | _ | _
      case rec_.get => cases site <;> exact absurd rfl ho
      case rec_.putIfAbsent | rec_.putIfMatch => cases site <;> cases ho
      all_goals rfl
    have hrests : Rests s o := by
      rcases o with ⟨site, _ | _ | _ | _⟩ | _ | _ | _ | _ | _ | _ | _
      case rec_.put =>
        cases site with
        | terminal => exact hs
        | recovered => cases ho
        | track => exact absurd rfl ho
        | _ => trivial
      case rec_.get | rec_.putIfAbsent | rec_.putIfMatch => cases site <;> trivial
      all_goals trivial
    refine ⟨_, ⟨hrests, rfl⟩, ?_⟩
    rw [hseen]
    exact hs
  · rcases r with e | a <;> exact hs

theorem Still.last (h : Still K p) : Last K p :=
  h.conseq (fun _ h => h) (fun _ _ _ => trivial) fun _ _ _ => trivial

theorem Still.then {f : α → TM V β} (h : Still K p) (hf : ∀ a, Last K (f a)) :
    Last K (p >>= f) := Runs.bind h.drop hf

theorem Last.when {b : Prop} [Decidable b] {q : TM V β} (hp : Still K p) (hq : Last K q) :
    Last K (if b then p >>= fun _ => q else q) := by
  split
  · exact hp.then fun _ => hq
  · exact hq

/-- A gate, and what comes after it. -/
theorem Still.gate {g : TM V (Option (Out V))} {next : TM V (Out V)} (h : KeepsAside .gates g)
    (hnext : Last K next) :
    Last K (g >>= fun stopped => match stopped with
      | some output => return output
      | none => next) := by
  refine (still_of_aside h).then fun stopped => ?_
  rcases stopped with _ | output
  · exact hnext
  · exact runs_pure fun _ _ => trivial

/-! ### Reading and consuming -/

theorem looks_get (site : Site V) :
    Runs (LookStep K) I (await_ (.rec_ site (.get K)))
      (fun s raw => s = some (raw.map (·.record))) fun _ _ => True := by
  intro s _ r
  refine ⟨_, ⟨by cases site <;> trivial, rfl⟩, ?_⟩
  rcases r with e | raw
  · trivial
  · rw [seenAt, if_pos rfl]
    rfl

/-- An upgraded record is the record that was read. -/
theorem looks_upgrade (raw : Stored V) :
    Runs (LookStep K) (fun s => s = some (some raw.record)) (orThrow (upgradeFormat raw) : TM V _)
      (fun s record => s = some (some record)) fun _ _ => True := by
  refine (looks_orThrow _).post fun s record h => ?_
  obtain ⟨hs, hok⟩ := h
  rw [upgradeFormat] at hok
  split at hok
  · cases hok
  · cases hok
    exact hs

theorem looks_readRecord (site : Site V) :
    Runs (LookStep K) I (readRecord site K) (fun s record => s = some record) fun _ _ => True := by
  refine (looks_get site).bind fun raw => ?_
  rcases raw with _ | raw
  · exact runs_pure fun _ hs => hs
  · exact (looks_upgrade raw).bind fun record => runs_pure fun _ hs => hs

/-- The first read, unless the snapshot has shown the record. -/
theorem looks_ctxGet (cached : Option (Stored V)) :
    Runs (LookStep K) (fun s => ∀ raw, cached = some raw → s = some (some raw.record))
      (ctxGet K cached) (fun s record => s = some record) fun _ _ => True := by
  have hraw (raw : Stored V) : Runs (LookStep K) (fun s => s = some (some raw.record))
      (if isVersionedKey K then do return some (← orThrow (upgradeFormat raw))
        else return some raw.record : TM V (Option _))
      (fun s record => s = some record) fun _ _ => True := by
    split
    · exact (looks_upgrade raw).bind fun record => runs_pure fun _ hs => hs
    · exact runs_pure fun _ hs => hs
  rcases cached with _ | raw
  · refine Runs.bind (looks_get .first) fun raw => ?_
    rcases raw with _ | raw
    · exact runs_pure fun _ hs => hs
    · exact hraw raw
  · exact (hraw raw).pre fun s hs => hs raw rfl

theorem looks_assertCrossRunOwner :
    Runs (LookStep K) I (c.assertCrossRunOwner : TM V Unit) (fun s _ => I s) fun _ _ => True := by
  unfold assertCrossRunOwner
  split
  · have hask : Runs (LookStep K) I (await_ (.ask .ownerAllows) : TM V Bool) (fun s _ => I s)
        fun s _ => I s := looks_await (fun _ _ => trivial) fun _ => rfl
    refine hask.drop.bind fun allowed => ?_
    split
    · exact runs_pure fun _ hs => hs
    · exact runs_throw fun _ _ => trivial
  · exact runs_pure fun _ hs => hs

/-- A call adds itself to the record that it has seen. -/
theorem looks_consume (record : ToolRecord V) (output : Out V) :
    Runs (LookStep K) (fun s => s = some (some record)) (c.consumeExistingRecord K record output)
      (fun _ _ => True) fun _ _ => True := by
  have htrack : Runs (LookStep K) (fun s => s = some (some record))
      (c.trackResolvedToolCallId K record) (fun s _ => s = some (some record)) fun _ _ => True := by
    unfold trackResolvedToolCallId
    split
    · exact runs_pure fun _ hs => hs
    · split
      · exact runs_pure fun _ hs => hs
      · refine Runs.bind (Q := fun s _ => s = some (some record)) ?_ fun _ => runs_pure fun _ hs => hs
        exact Runs.drop (X := fun s _ => s = some (some record))
          (looks_await (fun _ hs => hs) fun _ => rfl)
  have hmirror (record' : ToolRecord V) : Runs (LookStep K) (fun s => s = some (some record))
      (c.mirrorUnderRun K record') (fun s _ => s = some (some record)) fun _ _ => True := by
    unfold mirrorUnderRun
    split
    · exact runs_pure fun _ hs => hs
    · split
      · exact runs_pure fun _ hs => hs
      · exact Runs.tryCatch (looks_await (fun _ _ => trivial) fun _ => rfl) fun _ =>
          runs_pure fun _ hs => hs
  refine htrack.bind fun latest => ?_
  rcases latest with _ | _ | _ | _ | _ | _
  all_goals exact (hmirror _).bind fun _ => runs_pure fun _ _ => trivial

theorem looks_replayRecord (record : ToolRecord V) (output : Out V) :
    Runs (LookStep K) (fun s => s = some (some record)) (c.replayRecord K record output)
      (fun _ _ => True) fun _ _ => True := by
  unfold replayRecord
  split
  · split
    · exact runs_throw fun _ _ => trivial
    · exact looks_consume _ _
  · exact looks_consume _ _

/-! ### The claim -/

/-- A call that has won its key has seen nothing final. -/
def Won (s : Look V) (claimed : Claimed V) : Prop := ∀ record, claimed = .won record → Unsettled s

theorem looks_out {p : TM V (Out V)}
    (h : Runs (LookStep K) I p (fun _ _ => True) fun _ _ => True) :
    Runs (LookStep K) I (do return .out (← p) : TM V (Claimed V)) Won fun _ _ => True :=
  h.bind fun _ => runs_pure fun _ _ _ h => by cases h

/-- A claim, whether it is won or lost. -/
theorem still_claim {o : KvOp JsString (Stored V)} {site : Site V} {v : Stored V}
    (ho : o = .putIfAbsent K v ∨ ∃ e, o = .putIfMatch K e v) (hv : v.record.final = none) :
    Still K (await_ (.rec_ site o)) := by
  intro s hs r
  have hrests : Rests s (.rec_ site o) := by
    rcases ho with rfl | ⟨e, rfl⟩ <;> cases site <;> trivial
  refine ⟨_, ⟨hrests, rfl⟩, ?_⟩
  have hnext : Unsettled ((seenAt K (.rec_ site o) r).or s) := by
    rcases ho with rfl | ⟨e, rfl⟩ <;> rcases r with _ | won <;> simp only [seenAt]
    case inl.ok | inr.ok =>
      split
      · exact ⟨_, rfl, hv⟩
      · exact hs
    all_goals exact hs
  rcases r with e | won <;> exact hnext

theorem looks_lostTo {record : Option (ToolRecord V)} {again : TM V (Claimed V)}
    (h : Runs (LookStep K) Unsettled again Won fun _ _ => True) :
    Runs (LookStep K) (fun s => s = some record) (c.lostTo K record again) Won fun _ _ => True := by
  unfold lostTo
  split
  · next r output hsettled =>
    obtain ⟨r', rfl, hr⟩ := Option.bind_eq_some_iff.1 hsettled
    obtain ⟨_, -, heq⟩ := Option.map_eq_some_iff.1 hr
    cases heq
    exact looks_out (looks_consume _ _)
  · next hsettled =>
    have hopen : ∀ s : Look V, s = some record → Unsettled s := by
      rintro _ rfl
      refine ⟨record, rfl, ?_⟩
      rcases record with _ | record
      · rfl
      · cases record with
        | suspended => rfl
        | _ => first | rfl | simp [ToolRecord.settled, ToolRecord.final] at hsettled
    split
    · exact h.pre hopen
    · exact looks_out ((still_of_aside (aside_blockedOrThrow _)).last.pre hopen)

theorem still_tryRecover (dupKey : Option JsString) :
    Runs (LookStep K) Unsettled (c.tryRecover K dupKey : TM V (Option (Out V) × Bool))
      (fun s _ => Unsettled s) fun _ _ => True := by
  refine Runs.tryCatch (Y := fun s _ => Unsettled s)
    (Runs.bind (still_of_aside (aside_ask _)) fun probe => ?_) fun _ => runs_pure fun _ hs => hs
  rcases probe with output | _ | _
  · have hput : Still K (c.writeToolTerminal .recovered K (.succeeded output (some c.hash) none)
        dupKey) := by
      refine Runs.bind (Q := fun s _ => Unsettled s) (looks_await (fun _ hs => hs) fun _ => rfl)
        fun _ => ?_
      exact still_of_aside (aside_afterTerminal _ _ _)
    exact hput.bind fun _ => .when (still_of_aside aside_note) (runs_pure fun _ hs => hs)
  · exact runs_pure fun _ hs => hs
  · exact runs_throw fun _ hs => hs

theorem looks_takeOver (record : ToolRecord V) {again : Option (ToolRecord V) → TM V (Claimed V)}
    (h : ∀ record, Runs (LookStep K) Unsettled (again record) Won fun _ _ => True) :
    Runs (LookStep K) I (c.takeOver K record again) Won fun _ _ => True := by
  refine (looks_get .takeover).bind fun rawBefore => ?_
  -- The swap is a claim; a lost one goes on with the record there is.
  have htook (before : Option (ToolRecord V)) (took : Bool) : Runs (LookStep K) Unsettled
      (if took then return .won (some (laterOf record before))
      else do
        let record ← readRecord .again K
        c.lostTo K record (again record) : TM V (Claimed V)) Won fun _ _ => True := by
    split
    · exact runs_pure fun _ hs _ _ => hs
    · exact (looks_readRecord _).bind fun record => looks_lostTo (h record)
  rcases rawBefore with _ | raw
  · have hlost : Runs (LookStep K) Unsettled (await_ .now >>= fun _ => _) Won fun _ _ => True :=
      Runs.bind (still_of_aside aside_now).drop fun _ => htook none false
    exact hlost.pre fun s hs => ⟨none, hs, rfl⟩
  · have hupgrade : Runs (LookStep K) (fun s => s = some (some raw.record))
        (some <$> orThrow (upgradeFormat raw) : TM V (Option (ToolRecord V)))
        (fun s before => s = some before) fun _ _ => True :=
      (looks_upgrade raw).bind fun record => runs_pure fun _ hs => hs
    refine hupgrade.bind fun before => ?_
    dsimp only
    split
    · next r output hfinal =>
      obtain ⟨r', rfl, hr⟩ := Option.bind_eq_some_iff.1 hfinal
      obtain ⟨_, -, heq⟩ := Option.map_eq_some_iff.1 hr
      cases heq
      exact looks_out (looks_consume _ _)
    · next hfinal =>
      have hopen : ∀ s : Look V, s = some before → Unsettled s := by
        rintro _ rfl
        refine ⟨before, rfl, ?_⟩
        rcases before with _ | r
        · rfl
        · simpa using hfinal
      refine Runs.pre (J := Unsettled) ?_ hopen
      refine Runs.bind (still_of_aside aside_now).drop fun now => ?_
      exact Runs.bind (still_claim (.inr ⟨raw, rfl⟩) rfl).drop (htook before)

theorem looks_claimLoop (dupKey : Option JsString) (approved : Option Bool) (n : ℕ)
    (record : Option (ToolRecord V)) (recoverUnavailable : Bool) :
    Runs (LookStep K) Unsettled (c.claimLoop K dupKey approved n record recoverUnavailable) Won
      fun _ _ => True := by
  induction n generalizing record recoverUnavailable with
  | zero => exact runs_throw fun _ _ => trivial
  | succ n ih =>
    have hagain (unavailable : Bool) (record : Option (ToolRecord V)) :
        Runs (LookStep K) (fun s => s = some record)
          (c.lostTo K record (c.claimLoop K dupKey approved n record unavailable)) Won
          fun _ _ => True := looks_lostTo (ih record unavailable)
    rcases record with _ | record
    · refine Runs.bind (still_of_aside aside_now).drop fun _ => ?_
      refine Runs.bind (still_claim (.inl rfl) rfl).drop fun won => ?_
      split
      · exact .when (still_of_aside aside_note).drop (runs_pure fun _ hs _ _ => hs)
      · refine Runs.bind (looks_readRecord .again) fun record => ?_
        exact .when looks_assertCrossRunOwner (hagain _ record)
    · refine Runs.bind (still_of_aside aside_now).drop fun _ => ?_
      extract_lets goOn
      have hgoOn (result : Option (Out V) × Bool) :
          Runs (LookStep K) Unsettled (goOn result) Won fun _ _ => True := by
        rcases result with ⟨_ | output, unavailable⟩
        · dsimp only [goOn]
          split
          · exact looks_out (still_of_aside (aside_blockedOrThrow _)).last
          · exact looks_takeOver record fun r => ih r unavailable
        · exact runs_pure fun _ _ _ h => by cases h
      split
      · split
        · exact Runs.bind (looks_readRecord .again) fun record => hagain _ record
        · exact looks_out (still_of_aside (aside_blockedOrThrow _)).last
      · exact .orElse (none, recoverUnavailable) (still_tryRecover dupKey) (fun _ hs => hs) hgoOn

/-! ### The whole call -/

theorem last_runTool (dupKey : Option JsString) (record : Option (ToolRecord V)) (claimedDup : Bool) :
    Last K (c.runTool K dupKey record claimedDup) := by
  have hput (record : ToolRecord V) (dupKey : Option JsString) :
      Still K (c.writeToolTerminal .terminal K record dupKey) :=
    still_of_aside (aside_writeToolTerminal _ _ _)
  refine Runs.tryCatch (Y := fun s _ => Unsettled s) ?_ fun error => ?_
  · refine Runs.bind (Q := fun s _ => Unsettled s) (looks_await (fun _ _ => trivial) fun _ => rfl)
      fun _ => ?_
    refine Runs.bind (Q := fun s _ => Unsettled s) (looks_await (fun _ _ => trivial) fun _ => rfl)
      fun output => ?_
    refine .orElse output (still_of_aside (aside_ask _)) (fun _ hs => hs) fun output => ?_
    dsimp only
    split
    · exact (hput _ _).bind fun _ => runs_pure fun _ _ => trivial
    · exact (hput _ _).bind fun _ => runs_pure fun _ _ => trivial
  · refine (hput _ _).then fun _ => ?_
    refine (still_of_aside (?_ : KeepsAside .gates _)).last
    rcases dupKey with _ | dupKey
    · exact aside_throw error
    · refine .ite ?_ (aside_throw error)
      exact aside_now.bind fun _ => (aside_dup _).bind fun _ => aside_throw error

theorem last_claimAndRun (dupKey : Option JsString) (record : Option (ToolRecord V)) :
    Last K (c.claimAndRun K dupKey record) := by
  refine Runs.bind (looks_claimLoop _ _ _ _ _) fun claimed => ?_
  rcases claimed with output | record
  · exact runs_pure fun _ _ => trivial
  · refine Runs.pre (J := Unsettled) ?_ fun s hs => hs record rfl
    refine (still_of_aside (aside_markerGate _ _)).then fun gate => ?_
    rcases gate with output | claimedDup
    · exact runs_pure fun _ _ => trivial
    · exact .when (still_of_aside aside_note)
        (Still.gate (aside_lookupGate _ _ _) (last_runTool _ _ _))

theorem last_executeFresh (record : Option (ToolRecord V)) :
    Last K (c.executeFresh K record) := by
  refine .when (still_of_aside aside_note) (Still.gate (aside_policyGate _ _) ?_)
  refine .when (still_of_aside (aside_bestEffort aside_note)) ?_
  refine (still_of_aside (aside_orThrow c.dupKey)).then fun dupKey => ?_
  exact Still.gate (aside_duplicateGate _ _ _) <| Still.gate aside_compensatedGate <|
    Still.gate (aside_semanticGate _ _ _) <| Still.gate (aside_taintGate _ _) <|
    Still.gate (aside_limitsGate _) (last_claimAndRun _ _)

/-- What a call puts under its key rests on its last look. -/
theorem execute_rests (hkey : c.key = .ok K) :
    c.execute.run.Follows (LookStep K) none fun _ (_ : Except ToolError (Out V)) => True := by
  have hexecute : Runs (LookStep K) (fun s => s = none) (c.execute : TM V (Out V))
      (fun _ _ => True) fun _ _ => True := by
    rw [execute, hkey]
    change Runs (LookStep K) _ (if c.ctx.replayCache then _ else _) _ _
    refine .orElse none (Q := fun s cached => ∀ raw, cached = some raw → s = some (some raw.record))
      ?_ (fun _ _ _ h => by cases h) fun cached => ?_
    · refine (looks_get .first).post fun s cached hs raw hraw => ?_
      rw [hs, hraw]
      rfl
    · refine (looks_ctxGet cached).bind fun record => .when looks_assertCrossRunOwner ?_
      split
      · next r output hfinal =>
        obtain ⟨r', rfl, hr⟩ := Option.bind_eq_some_iff.1 hfinal
        obtain ⟨_, -, heq⟩ := Option.map_eq_some_iff.1 hr
        cases heq
        exact looks_replayRecord _ _
      · next hfinal =>
        refine Runs.pre (last_executeFresh record) ?_
        rintro _ rfl
        refine ⟨record, rfl, ?_⟩
        rcases record with _ | r
        · rfl
        · simpa using hfinal
  exact (hexecute none rfl).mono fun _ _ _ => trivial

end Text

/-! ## What has landed since -/

/-- What has been performed, the last at the end. -/
abbrev ToolLog (V : Type) := List (ℕ × Σ o : ToolOp V, o.Res)

/-- What has been performed since the last look of a call, the latest first. -/
def sinceLook (K : JsString) (i : ℕ) (log : ToolLog V) : ToolLog V :=
  log.reverse.takeWhile fun e => !(e.1 = i && (seenAt K e.2.1 e.2.2).isSome)

/-- A record has landed under the key since then. -/
def landedSince (K : JsString) (i : ℕ) (log : ToolLog V) : Bool :=
  (sinceLook K i log).any fun e => (landed K e.2.1 e.2.2).isSome

/-- A success has. -/
def successSince (K : JsString) (i : ℕ) (log : ToolLog V) : Bool :=
  (sinceLook K i log).any fun e => (landed K e.2.1 e.2.2).any (·.isSucceeded)

/-- The record under a key is a success. -/
def ToolWorld.succeededAt (w : ToolWorld V) (k : JsString) : Bool :=
  (w.recordAt k).any (·.isSucceeded)

/-- What the last look of a call says of the record that is there. -/
structure Current (K : JsString) (i : ℕ) (s : Look V) (w : ToolWorld V) (log : ToolLog V) : Prop where
  /-- It is the one that was seen, if nothing has landed. -/
  same : ∀ record, s = some record → landedSince K i log = false → w.recordAt K = record
  /-- It is no success, if none was seen and none has landed. -/
  noSuccess : ∀ record, s = some record → record.any (·.isSucceeded) = false →
    successSince K i log = false → w.succeededAt K = false

/-- The last looks of all calls. -/
def LookInv (K : JsString) (x : ToolWorld V × ToolLog V) (ph : ℕ → Look V) : Prop :=
  ∀ i, Current K i (ph i) x.1 x.2

section Machine

variable {K : JsString} {i j : ℕ} {w w' : ToolWorld V} {log : ToolLog V} {o : ToolOp V} {r : o.Res}

theorem sinceLook_other (h : i = j → seenAt K o r = none) :
    sinceLook K j (log ++ [(i, ⟨o, r⟩)]) = (i, ⟨o, r⟩) :: sinceLook K j log := by
  rw [sinceLook, List.reverse_append]
  refine List.takeWhile_cons_of_pos ?_
  by_cases hij : i = j
  · simp [h hij]
  · simp [hij]

/-- A look reads the key, or leaves the record that it shows. -/
theorem seenAt_cases {record : Option (ToolRecord V)} (h : seenAt K o r = some record) :
    (∃ site, o = .rec_ site (.get K)) ∨ ∃ v, record = some v ∧ landed K o r = some v := by
  rcases o with ⟨site, k | ⟨k, v⟩ | ⟨k, v⟩ | ⟨k, e, v⟩⟩ | _ | _ | _ | _ | _ | _ | _ <;>
    rcases r with err | r <;> simp only [seenAt, reduceCtorEq] at h
  case rec_.get.ok =>
    split at h
    · next hk => exact .inl ⟨site, hk ▸ rfl⟩
    · cases h
  all_goals
    split at h
    · next hwon =>
      cases h
      exact .inr ⟨_, rfl, if_pos hwon⟩
    · cases h

variable [DecidableEq V] {a : ToolAnswer V}

/-- The record under the key after an operation: the one that has landed, or the one before. -/
theorem recordAt_landed (i : ℕ) (a : ToolAnswer V) (o : ToolOp V) (w : ToolWorld V) :
    (toolMachine.exec i a o w).2.recordAt K =
      (landed K o (toolMachine.exec i a o w).1).or (w.recordAt K) := by
  have hset (k : JsString) (v : Stored V) :
      ((w.recs.set i w.clock k v).val K).map (·.record) =
        (if k = K then some v.record else none).or (w.recordAt K) := by
    by_cases hk : k = K
    · rw [hk, Kv.set_val_self, if_pos rfl]
      rfl
    · rw [Kv.set_val_of_ne _ _ _ _ (Ne.symm hk), if_neg hk]
      rfl
  rcases hfault : a.fault with _ | e
  · rcases o with ⟨site, k | ⟨k, v⟩ | ⟨k, v⟩ | ⟨k, e, v⟩⟩ | o | _ | _ | _ | _ | _ | _ <;>
      simp only [toolMachine, hfault, toolExec, Kv.exec, ToolWorld.recordAt, landed]
    case rec_.put => exact hset k v
    case rec_.putIfAbsent | rec_.putIfMatch =>
      split
      · simpa [ToolWorld.recordAt] using hset k v
      · simp
    all_goals rfl
  · rcases o with ⟨site, k | ⟨k, v⟩ | ⟨k, v⟩ | ⟨k, e, v⟩⟩ | o | _ | _ | _ | _ | _ | _ <;>
      simp only [toolMachine, hfault, landed] <;> rfl

/-- What is seen is there. -/
theorem recordAt_of_seenAt {record : Option (ToolRecord V)}
    (h : seenAt K o (toolMachine.exec i a o w).1 = some record) :
    (toolMachine.exec i a o w).2.recordAt K = record := by
  rcases seenAt_cases h with ⟨site, rfl⟩ | ⟨v, rfl, hlanded⟩
  · rcases hfault : a.fault with _ | e <;>
      simp only [toolMachine, hfault, toolExec, Kv.exec, seenAt, if_true, reduceCtorEq] at h ⊢
    exact Option.some.inj h
  · rw [recordAt_landed, hlanded, Option.some_or]

/-- A look is current when it is made, and stays so while nothing lands. -/
theorem LookInv.step {x : ToolWorld V × ToolLog V} {ph : ℕ → Look V} {s' : Look V}
    (h : LookInv K x ph) (hs : LookStep K (ph i) o (toolMachine.logged.exec i a o x).1 s') :
    LookInv K (toolMachine.logged.exec i a o x).2 (update ph i s') := by
  obtain ⟨w, log⟩ := x
  change LookStep K (ph i) o (toolMachine.exec i a o w).1 s' at hs
  change LookInv K ((toolMachine.exec i a o w).2, log ++ [(i, ⟨o, (toolMachine.exec i a o w).1⟩)]) _
  have hrecord := recordAt_landed (K := K) i a o w
  have hseen (record : Option (ToolRecord V)) (h : seenAt K o (toolMachine.exec i a o w).1 = some record) :
      (toolMachine.exec i a o w).2.recordAt K = record := recordAt_of_seenAt h
  obtain ⟨-, rfl⟩ := hs
  generalize (toolMachine.exec i a o w).2 = w' at *
  generalize (toolMachine.exec i a o w).1 = r at *
  -- A call that has not looked now has its old look, and one more operation since.
  have hold (j : ℕ) (hj : i = j → seenAt K o r = none) :
      Current K j (ph j) w' (log ++ [(i, ⟨o, r⟩)]) := by
    refine ⟨fun record hrec hland => ?_, fun record hrec hsucc hland => ?_⟩
    · rw [landedSince, sinceLook_other hj, List.any_cons, Bool.or_eq_false_iff] at hland
      rw [hrecord, Option.isSome_eq_false_iff.1 hland.1 |> Option.isNone_iff_eq_none.1]
      exact (h j).same record hrec hland.2
    · rw [successSince, sinceLook_other hj, List.any_cons, Bool.or_eq_false_iff] at hland
      have hbefore := (h j).noSuccess record hrec hsucc hland.2
      rw [ToolWorld.succeededAt] at hbefore ⊢
      rw [hrecord]
      rcases hlanded : landed K o r with _ | v
      · exact hbefore
      · rw [hlanded] at hland
        exact hland.1
  intro j
  by_cases hji : j = i
  · subst hji
    rw [update_self]
    rcases hlook : seenAt K o r with _ | record
    · exact hold j fun _ => hlook
    · have hcur := hseen record hlook
      refine ⟨fun record' hrec _ => ?_, fun record' hrec hsucc _ => ?_⟩
      · cases hrec
        exact hcur
      · cases hrec
        rw [ToolWorld.succeededAt, hcur]
        exact hsucc
  · rw [update_of_ne hji]
    exact hold j fun hij => absurd hij.symm hji

end Machine

end Gnldev.Durable
