import Gnldev.Durable.Tool.Looks

/-!
# Finality of a recorded success

Once the record of a key is a success, a call that reads it returns its output. The success itself
stays only as long as nobody puts a terminal record over it: the writes of `writeToolTerminal` are
unconditional, and rest on reads that may be old.

* `puts_with_care`: a call whose last look at the key is not outdated by a success puts no terminal
  record over one;
* `success_stays`: in a run of such calls, a success stays, and the calls it has answered only
  become more;
* `success_denied`: a guard's refusal, decided on an old read, replaces a success.
-/

namespace Gnldev.Durable

variable {V : Type}

/-- In a run, a success under the key stays with its output, and the calls it has answered
    only become more. -/
def StaysSucceeded [DecidableEq V] (K : JsString)
    (c : Conf (ToolOp V) ToolOp.Res (Except ToolError (Out V)) (ToolWorld V))
    (ms : List (Move (ToolAnswer V) ℕ)) : Prop :=
  ∀ n m output hash ids, n ≤ m →
    (toolMachine.play c (ms.take n)).world.recordAt K = some (.succeeded output hash ids) →
    ∃ ids', (toolMachine.play c (ms.take m)).world.recordAt K =
      some (.succeeded output hash ids') ∧ ids.getD [] <+: ids'.getD []

/-- A terminal record is put while there is no success, and a call adds itself to a
    success as it has read it. -/
def PutsWithCare (K : JsString) (w : ToolWorld V) (_ : ℕ) : (o : ToolOp V) → o.Res → Prop
  | .rec_ .terminal (.put k _), .ok _ => k = K → w.succeededAt K = false
  | .rec_ .recovered (.put k _), .ok _ => k = K → w.succeededAt K = false
  | .rec_ (.track base) (.put k _), .ok _ =>
    k = K → w.succeededAt K = true → w.recordAt K = some base
  | _, _ => True

/-- No success has landed between a call's last look at the key and the terminal record it puts
    there; and no record at all, when it adds itself to a success. -/
def InTime (K : JsString) (x : ToolWorld V × ToolLog V) (i : ℕ) : (o : ToolOp V) → o.Res → Prop
  | .rec_ .terminal (.put k _), .ok _ => k = K → successSince K i x.2 = false
  | .rec_ .recovered (.put k _), .ok _ => k = K → successSince K i x.2 = false
  | .rec_ (.track base) (.put k _), .ok _ =>
    k = K → (if base.isSucceeded then landedSince K i x.2 else successSince K i x.2) = false
  | _, _ => True

/-! ## The looks -/

section Looks

variable {K : JsString}

theorem not_isSucceeded_of_final {record : Option (ToolRecord V)} (h : record.bind (·.final) = none) :
    record.any (·.isSucceeded) = false := by
  rcases record with _ | record
  · rfl
  · cases record with
    | succeeded => cases h
    | _ => rfl

/-- A put that rests on a last look that is in time is made with care. -/
theorem with_care {i : ℕ} {s : Look V} {w : ToolWorld V} {log : ToolLog V} {o : ToolOp V} {r : o.Res}
    (h : Current K i s w log) (hrests : Rests s o) (htime : InTime K (w, log) i o r) :
    PutsWithCare K w i o r := by
  have hopen (hs : Unsettled s) (hland : successSince K i log = false) : w.succeededAt K = false := by
    obtain ⟨record, hrec, hfinal⟩ := hs
    exact h.noSuccess record hrec (not_isSucceeded_of_final hfinal) hland
  rcases o with ⟨site, k | ⟨k, v⟩ | ⟨k, v⟩ | ⟨k, e, v⟩⟩ | _ | _ | _ | _ | _ | _ | _
  case rec_.put =>
    rcases r with e | r
    · cases site <;> trivial
    · cases site with
      | terminal => exact fun hk => hopen hrests (htime hk)
      | recovered => exact fun hk => hopen hrests (htime hk)
      | track base =>
        intro hk hsucc
        have hin := htime hk
        cases hbase : base.isSucceeded with
        | true =>
          rw [hbase, if_pos rfl] at hin
          exact h.same _ hrests hin
        | false =>
          -- A call that has seen another final record has seen no success.
          rw [hbase, if_neg Bool.false_ne_true] at hin
          rw [h.noSuccess _ hrests hbase hin] at hsucc
          cases hsucc
      | _ => trivial
  case rec_.get | rec_.putIfAbsent | rec_.putIfMatch => cases site <;> cases r <;> trivial
  all_goals trivial

variable [DecidableEq V]

/-- What calls put rests on their last looks, and those are in time. -/
theorem puts_with_care {calls : ℕ → ToolCall} (hkey : ∀ i, (calls i).key = .ok K)
    {w : ToolWorld V} {ms : List (Move (ToolAnswer V) ℕ)}
    (hms : toolMachine.logged.Meets (InTime K) (toolStart calls w).logged ms) :
    toolMachine.Meets (PutsWithCare K) (toolStart calls w) ms := by
  have hinit : LookInv K (w, []) fun _ => none := fun i => ⟨nofun, nofun⟩
  refine Machine.meets_of_logged (Machine.meets_follows (J := LookInv K)
    (fun x ph i a o s' h hs _ => h.step hs) (fun x ph n h i => ⟨(h i).same, (h i).noSuccess⟩)
    (fun x ph i a o s' h hs htime => with_care (h i) hs.1 htime) hinit
    (fun i => execute_rests (hkey i)) hms)

end Looks

/-! ## The step -/

section Step

variable {c : ToolCall} {K : JsString} {dupKey : Option JsString} {i : ℕ} {w w' : ToolWorld V}
  {s s' : Local V} {o : ToolOp V} {r : o.Res} {output : Out V} {hash : Option JsString}
  {ids : Option (List JsString)}

/-- A put of the call that is made with care adds at most the call. -/
theorem put_keeps_success {site : Site V} {v : Stored V} (hsite : site ≠ .mirror)
    (hput : AllowedPut c K dupKey s K v site)
    (hok : PutsWithCare K w i (.rec_ site (.put K v)) (.ok ()))
    (hw : w.recordAt K = some (.succeeded output hash ids)) :
    ∃ ids', v.record = .succeeded output hash ids' ∧ ids.getD [] <+: ids'.getD [] := by
  have hsucc : w.succeededAt K = true := by
    rw [ToolWorld.succeededAt, hw]
    rfl
  cases site with
  | terminal =>
    rw [hok rfl] at hsucc
    cases hsucc
  | recovered =>
    rw [hok rfl] at hsucc
    cases hsucc
  | track base =>
    obtain ⟨-, -, -, rfl⟩ := hput
    have hbase := hok rfl hsucc
    rw [hw] at hbase
    cases hbase
    exact ⟨_, rfl, List.prefix_append _ _⟩
  | mirror => exact absurd rfl hsite
  | _ => exact hput.elim

/-- An operation of a call with this key that is made with care. -/
theorem does_keeps_success (hdoes : Does c K dupKey i w s o r w' s') (hok : PutsWithCare K w i o r)
    (hw : ∃ ids', w.recordAt K = some (.succeeded output hash ids') ∧
      ids.getD [] <+: ids'.getD []) :
    ∃ ids', w'.recordAt K = some (.succeeded output hash ids') ∧ ids.getD [] <+: ids'.getD [] := by
  obtain ⟨ids', hrec, hids⟩ := hw
  cases hdoes with
  | idle _ _ _ _ hrecs =>
    rw [recordAt_of_recs hrecs]
    exact ⟨ids', hrec, hids⟩
  | first site t hfree =>
    -- There is a record, so that nobody claims it as free.
    rw [ToolWorld.recordAt, hfree] at hrec
    cases hrec
  | takeover site e t n hval _ _ hfinal =>
    -- A takeover is of a record that is not final.
    rw [ToolWorld.recordAt, hval] at hrec
    have he : e.record = .succeeded output hash ids' := Option.some.inj hrec
    rw [he] at hfinal
    cases hfinal
  | put site v hsite hput =>
    obtain ⟨ids'', hv, hmore⟩ := put_keeps_success hsite hput hok hrec
    rw [recordAt_putRec, hv]
    exact ⟨ids'', rfl, hids.trans hmore⟩
  | mirror k v hk =>
    rw [recordAt_putRec_of_ne _ _ _ hk.symm]
    exact ⟨ids', hrec, hids⟩
  | _ => exact ⟨ids', hrec, hids⟩

end Step

/-! ## The run -/

section Run

variable [DecidableEq V]

/-- Calls with one key, whatever their tools, runs and gates are: in every run in which no success
    lands between a call's last look at the key and the terminal record it puts there, a success
    stays. -/
theorem success_stays {calls : ℕ → ToolCall} {K : JsString} (hkey : ∀ i, (calls i).key = .ok K)
    (w : ToolWorld V) (ms : List (Move (ToolAnswer V) ℕ))
    (hms : toolMachine.logged.Meets (InTime K) (toolStart calls w).logged ms) :
    StaysSucceeded K (toolStart calls w) ms := by
  intro n m output hash ids hnm hn
  refine toolMachine_persists hkey (P := fun w => ∃ ids', w.recordAt K =
    some (.succeeded output hash ids') ∧ ids.getD [] <+: ids'.getD []) ?_ ?_
    (puts_with_care hkey hms) hnm ⟨ids, hn, List.prefix_refl _⟩
  · exact fun w s i o r w' s' h hdoes hok => does_keeps_success hdoes hok h
  · exact fun w n h => h

instance (K : JsString) (x : ToolWorld V × ToolLog V) (i : ℕ) (o : ToolOp V) (r : o.Res) :
    Decidable (InTime K x i o r) := by
  rcases o with ⟨site, o⟩ | _ | _ | _ | _ | _ | _ | _
  · rcases site with _ | _ | _ | _ | _ | _ | _ | _ <;> rcases o with _ | _ | _ | _ <;> rcases r with _ | _ <;>
      dsimp only [InTime] <;> infer_instance
  all_goals exact isTrue trivial

end Run

/-! ## Two runs of a thread -/

/-- A call of a run in a thread, with or without a guard. -/
def threadCall (runId toolCallId : JsString) (guard : Bool) : ToolCall :=
  { plainCall runId toolCallId with
    tool := { plainTool with idempotencyWindow := some .thread }
    ctx := { plainCtx runId with guard := guard } }

/-- The calls of two runs of one thread with the same arguments; the second run has a guard. -/
def threadCalls : ℕ → ToolCall :=
  twoCalls (threadCall (js "r1") (js "a") false) (threadCall (js "r2") (js "b") true)

/-- Their key. -/
def threadKey : JsString := js "xthr:t:args-pay-h"

theorem threadCalls_key (i : ℕ) : (threadCalls i).key = .ok threadKey :=
  twoCalls_all (R := fun c => c.key = .ok threadKey) (by decide) (by decide) i

/-- The call `i` makes `n` operations, with a guard that decides `d`. -/
def guarded (d : Decision) (i n : ℕ) : List (Move (ToolAnswer ℕ) ℕ) :=
  List.replicate n (.run i { plainAnswer (.value 7) with
    ask
      | .guard => d
      | q => (plainAnswer (.value 7)).ask q })

/-- Both calls find no record; the first one succeeds; the second one loses the claim, reads again,
    and adds itself to the success that answers it. -/
theorem success_stays_answered :
    toolMachine.logged.Meets (InTime threadKey) (toolStart threadCalls emptyWorld).logged
        (guarded .allow 0 4 ++ guarded .allow 1 5 ++ guarded .allow 0 6 ++ guarded .allow 1 5) ∧
      StaysSucceeded threadKey (toolStart threadCalls emptyWorld)
        (guarded .allow 0 4 ++ guarded .allow 1 5 ++ guarded .allow 0 6 ++ guarded .allow 1 5) :=
  have hms : toolMachine.logged.Meets (InTime threadKey) (toolStart threadCalls emptyWorld).logged
      (guarded .allow 0 4 ++ guarded .allow 1 5 ++ guarded .allow 0 6 ++ guarded .allow 1 5) := by
    decide +kernel
  ⟨hms, success_stays threadCalls_key _ _ hms⟩

/-- The second call finds no record, and waits for its guard; the first call succeeds; the
    guard denies the second call, whose record replaces the success. -/
theorem success_denied :
    ¬StaysSucceeded threadKey (toolStart threadCalls emptyWorld)
      (guarded .deny 1 1 ++ guarded .deny 0 10 ++ guarded .deny 1 3) := by
  intro h
  have hsucc : (toolMachine.play (toolStart threadCalls emptyWorld) ((guarded .deny 1 1 ++
      guarded .deny 0 10 ++ guarded .deny 1 3).take 11)).world.recordAt threadKey =
        some (.succeeded (.value 7) (some (js "h")) (some [js "a"])) := by decide +kernel
  have hdenied : (toolMachine.play (toolStart threadCalls emptyWorld) ((guarded .deny 1 1 ++
      guarded .deny 0 10 ++ guarded .deny 1 3).take 14)).world.recordAt threadKey =
        some (.denied (.denied .policy) (some [js "b"])) := by decide +kernel
  obtain ⟨ids, hstays, -⟩ := h 11 14 _ _ _ (by decide) hsucc
  rw [hdenied] at hstays
  cases hstays

end Gnldev.Durable
