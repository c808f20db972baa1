import Gnldev.Durable.Semantic.Judge
import Mathlib.Data.List.Nodup
import Mathlib.Data.List.Perm.Subperm
import Mathlib.Data.List.ReduceOption

/-!
# What the judge promises

A slot is claimed before the model is asked, and no two calls have the same one, so that the budget
bounds the questions of a run, however many workers replay it (`Inv.invocations_le`). Among the calls
that ask with one stamp the first that writes settles the answer for all (`Settling.run`). What a call
returns answers its own question unless it has lost against another stamp (`Own.step`).

* `judged_alike`: the three promises over all runs;
* `other_stamp_served`: a run in which a call returns the verdict of another model.
-/

open List

namespace Gnldev.Durable.Semantic

open Function

namespace JudgeCall

/-- It holds a slot of its budget. -/
def Holds (c : JudgeCall) : Prop := ∃ k < c.request.max, c.held = some (c.request.slotKey k)

/-- The record that it wants to replace has another stamp. -/
def Stale (c : JudgeCall) (stale : Option SemJudgeRecord) : Prop :=
  ∀ r, stale = some r → r.toJudgeStamp ≠ c.request.stamp

/-- It has been answered nothing yet, and wants to replace `stale`. -/
def Unanswered (c : JudgeCall) (stale : Option SemJudgeRecord) : Prop :=
  c.answer = none ∧ c.Stale stale

/-- The model has answered it, and it wants to replace `stale`. -/
def Answered (c : JudgeCall) (stale : Option SemJudgeRecord) (v : JudgeVerdict) : Prop :=
  c.invoked = true ∧ c.answer = some v ∧ c.Stale stale

/-- What is known of a call in a phase. -/
def InPhase (c : JudgeCall) : JudgePhase → Prop
  | .reading => c.held = none ∧ c.answer = none
  | .slot k stale => c.held = none ∧ k < c.request.max ∧ c.Unanswered stale
  | .asking stale => c.Holds ∧ c.Unanswered stale
  | .asked stale => c.invoked = true ∧ c.Unanswered stale
  | .writing stale judged => c.Answered stale judged.verdict
  | .lost stale judged => c.Answered stale judged.verdict
  | .ended _ => True
  | .crashed => True

structure Inv (c : JudgeCall) : Prop where
  inPhase : c.InPhase c.phase
  holds : c.invoked = true → c.Holds

/-- What a call keeps. -/
structure Grows (c d : JudgeCall) : Prop where
  request : d.request = c.request
  key : d.key = c.key
  invoked : c.invoked = true → d.invoked = true
  answer : ∀ v, c.answer = some v → d.answer = some v

variable {c : JudgeCall}

theorem nextSlot_cases (c : JudgeCall) (k : ℕ) (stale : Option SemJudgeRecord) :
    c.nextSlot k stale = .ended (.skipped .budget) ∨
      k < c.request.max ∧ c.nextSlot k stale = .slot k stale := by
  rw [nextSlot]
  split
  · next hk => exact .inr ⟨hk, rfl⟩
  · exact .inl rfl

/-- What follows from a record, or none. -/
theorem found_cases (c : JudgeCall) (cached : Option SemJudgeRecord) :
    (∃ r, cached = some r ∧ r.toJudgeStamp = c.request.stamp ∧
      c.found cached = .ended (.verdict r.verdict true 0 false)) ∨
      c.Stale cached ∧ ((∃ cause, c.found cached = .ended (.skipped cause)) ∨
        0 < c.request.max ∧ c.found cached = .slot 0 cached) := by
  have hnext (stale : Option SemJudgeRecord) :
      (∃ cause, c.nextSlot 0 stale = .ended (.skipped cause)) ∨
        0 < c.request.max ∧ c.nextSlot 0 stale = .slot 0 stale :=
    (c.nextSlot_cases 0 stale).imp_left fun h => ⟨_, h⟩
  cases cached with
  | none =>
    refine .inr ⟨nofun, ?_⟩
    rw [found.eq_def]
    dsimp only
    split
    · exact .inl ⟨_, rfl⟩
    · exact hnext none
  | some r =>
    rw [found.eq_def]
    dsimp only
    split
    · next hstamp => exact .inl ⟨r, rfl, hstamp, rfl⟩
    · next hstamp =>
      refine .inr ⟨?_, ?_⟩
      · rintro _ ⟨⟩
        exact hstamp
      · split
        · exact .inl ⟨_, rfl⟩
        · exact hnext (some r)

theorem inPhase_nextSlot {k : ℕ} {stale : Option SemJudgeRecord} (hheld : c.held = none)
    (hun : c.Unanswered stale) : c.InPhase (c.nextSlot k stale) := by
  rcases c.nextSlot_cases k stale with h | ⟨hk, h⟩
  · rw [h]
    trivial
  · rw [h]
    exact ⟨hheld, hk, hun⟩

theorem inPhase_found (hheld : c.held = none) (hanswer : c.answer = none)
    (cached : Option SemJudgeRecord) : c.InPhase (c.found cached) := by
  rcases c.found_cases cached with ⟨r, -, -, h⟩ | ⟨hstale, ⟨cause, h⟩ | ⟨hmax, h⟩⟩
  · rw [h]
    trivial
  · rw [h]
    trivial
  · rw [h]
    exact ⟨hheld, hmax, hanswer, hstale⟩

/-- What an answer makes of a call. -/
theorem answered_cases (toUpperCase : JsString → JsString) (c : JudgeCall)
    (stale : Option SemJudgeRecord) (reply : JudgeReply) (latencyMs : ℤ) :
    (∃ cause, c.answered toUpperCase stale reply latencyMs =
      { c with phase := .ended (.skipped cause) }) ∨
      ∃ v, c.answered toUpperCase stale reply latencyMs =
        { c with answer := some v, phase := .writing stale ⟨v, latencyMs⟩ } := by
  cases reply with
  | timeout => exact .inl ⟨_, rfl⟩
  | error => exact .inl ⟨_, rfl⟩
  | text raw =>
    rw [answered.eq_def]
    dsimp only
    split
    · exact .inl ⟨_, rfl⟩
    · exact .inr ⟨_, rfl⟩

end JudgeCall

namespace JudgeState

variable {toUpperCase : JsString → JsString} {s t : JudgeState} {n : ℕ} {e : JudgeEvent}
  {c c' : JudgeCall}

variable {i : ℕ} {d : JudgeCall}

theorem getElem?_become (h : (s.become n c').calls[i]? = some d) :
    i = n ∧ d = c' ∨ i ≠ n ∧ s.calls[i]? = some d := by
  rw [become, getElem?_set] at h
  split at h
  · next hin =>
    split at h
    · exact .inl ⟨hin.symm, (Option.some.inj h).symm⟩
    · contradiction
  · next hin => exact .inr ⟨fun hni => hin hni.symm, h⟩

theorem getElem?_concat {calls : List JudgeCall} (h : (calls ++ [c])[i]? = some d) :
    calls[i]? = some d ∨ i = calls.length ∧ d = c := by
  rw [getElem?_append] at h
  split at h
  · exact .inl h
  · next hi =>
    rw [getElem?_singleton] at h
    split at h
    · exact .inr ⟨by omega, (Option.some.inj h).symm⟩
    · contradiction

/-! ## A call that goes on -/

theorem Advance.grows (h : Advance toUpperCase s n c e c') (hinv : c.Inv) : c.Grows c' := by
  have hphase := hinv.inPhase
  cases h with
  | read => exact ⟨rfl, rfl, id, fun _ => id⟩
  | taken => exact ⟨rfl, rfl, id, fun _ => id⟩
  | ask => exact ⟨rfl, rfl, fun _ => rfl, fun _ => id⟩
  | refused => exact ⟨rfl, rfl, id, fun _ => id⟩
  | reread => exact ⟨rfl, rfl, id, fun _ => id⟩
  | crash => exact ⟨rfl, rfl, id, fun _ => id⟩
  | @answer stale reply latencyMs hasked =>
    rw [hasked] at hphase
    rcases c.answered_cases toUpperCase stale reply latencyMs with ⟨cause, h⟩ | ⟨v, h⟩
    · rw [h]
      exact ⟨rfl, rfl, id, fun _ => id⟩
    · rw [h]
      refine ⟨rfl, rfl, id, fun w hw => ?_⟩
      rw [hphase.2.1] at hw
      contradiction

theorem Advance.held (h : Advance toUpperCase s n c e c') : c'.held = c.held := by
  cases h with
  | @answer stale reply latencyMs =>
    rcases c.answered_cases toUpperCase stale reply latencyMs with ⟨cause, h⟩ | ⟨v, h⟩ <;> rw [h]
  | _ => rfl

theorem Advance.inv (h : Advance toUpperCase s n c e c') (hinv : c.Inv) : c'.Inv := by
  have hphase := hinv.inPhase
  cases h with
  | read hread =>
    rw [hread] at hphase
    exact ⟨JudgeCall.inPhase_found hphase.1 hphase.2 _, hinv.holds⟩
  | taken hslot =>
    rw [hslot] at hphase
    exact ⟨JudgeCall.inPhase_nextSlot hphase.1 hphase.2.2, hinv.holds⟩
  | ask hasking =>
    rw [hasking] at hphase
    exact ⟨⟨rfl, hphase.2.1, hphase.2.2⟩, fun _ => hphase.1⟩
  | @answer stale reply latencyMs hasked =>
    rw [hasked] at hphase
    rcases c.answered_cases toUpperCase stale reply latencyMs with ⟨cause, h⟩ | ⟨v, h⟩
    · rw [h]
      exact ⟨trivial, hinv.holds⟩
    · rw [h]
      exact ⟨⟨hphase.1, rfl, hphase.2.2⟩, hinv.holds⟩
  | refused hwriting =>
    rw [hwriting] at hphase
    exact ⟨hphase, hinv.holds⟩
  | reread => exact ⟨trivial, hinv.holds⟩
  | crash => exact ⟨trivial, hinv.holds⟩

/-! ## All calls -/

/-- What is known of all calls. -/
structure Inv (s : JudgeState) : Prop where
  calls : ∀ c ∈ s.calls, c.Inv
  /-- A slot is held by one call. -/
  once : ∀ (i j : ℕ) (c d : JudgeCall) key, s.calls[i]? = some c → s.calls[j]? = some d →
    c.held = some key → d.held = some key → i = j
  claimed : ∀ c ∈ s.calls, ∀ key, c.held = some key → key ∈ s.slots

theorem Inv.call (h : s.Inv) (hc : s.calls[n]? = some c) : c.Inv :=
  h.calls c (mem_of_getElem? hc)

/-- A call becomes another one, in a journal with more slots. -/
theorem Inv.become (h : s.Inv) {slots : List JsString} (hslots : s.slots ⊆ slots) (hc' : c'.Inv)
    (hheld : ∀ key, c'.held = some key → key ∈ slots ∧
      ∀ i ≠ n, ∀ d, s.calls[i]? = some d → d.held ≠ some key)
    (records : JsString → Option SemJudgeRecord) :
    Inv { s.become n c' with slots := slots, records := records } where
  calls d hd := by
    rcases mem_or_eq_of_mem_set hd with hd | rfl
    · exact h.calls d hd
    · exact hc'
  once i j d d' key hi hj hkey hkey' := by
    rcases getElem?_become hi with ⟨rfl, rfl⟩ | ⟨hni, hi'⟩ <;>
      rcases getElem?_become hj with ⟨rfl, rfl⟩ | ⟨hnj, hj'⟩
    · rfl
    · exact absurd hkey' ((hheld key hkey).2 j hnj d' hj')
    · exact absurd hkey ((hheld key hkey').2 i hni d hi')
    · exact h.once i j d d' key hi' hj' hkey hkey'
  claimed d hd key hkey := by
    rcases mem_or_eq_of_mem_set hd with hd | rfl
    · exact hslots (h.claimed d hd key hkey)
    · exact (hheld key hkey).1

/-- A call that holds what it held. -/
theorem Inv.held_of_eq (h : s.Inv) (hc : s.calls[n]? = some c) (heq : c'.held = c.held)
    (key : JsString) (hkey : c'.held = some key) :
    key ∈ s.slots ∧ ∀ i ≠ n, ∀ d, s.calls[i]? = some d → d.held ≠ some key := by
  rw [heq] at hkey
  exact ⟨h.claimed c (mem_of_getElem? hc) key hkey,
    fun i hi d hd hheld => hi (h.once i n d c key hd hc hheld hkey)⟩

theorem Inv.step (h : s.Inv) (hstep : s.step toUpperCase e = some t) : t.Inv := by
  cases step_next hstep with
  | @begin request key hkey =>
    have hnew (i : ℕ) (d : JudgeCall) (k : JsString) (hheld : d.held = some k)
        (hd : (s.calls ++ [⟨request, key, hkey, none, false, none, .reading⟩])[i]? = some d) :
        s.calls[i]? = some d := by
      rcases getElem?_concat hd with hd | ⟨-, rfl⟩
      · exact hd
      · contradiction
    refine ⟨forall_mem_append.2 ⟨h.calls, forall_mem_singleton.2 ⟨⟨rfl, rfl⟩, nofun⟩⟩,
      ?_, ?_⟩
    · intro i j d d' k hi hj hd hd'
      exact h.once i j d d' k (hnew i d k hd hi) (hnew j d' k hd' hj) hd hd'
    · exact forall_mem_append.2 ⟨h.claimed, forall_mem_singleton.2 nofun⟩
  | @advance n c c' _ hc hadv =>
    exact h.become (fun _ => id) (hadv.inv (h.call hc)) (h.held_of_eq hc hadv.held) s.records
  | @claimed n c k stale hc hslot hfree =>
    have hphase := (h.call hc).inPhase
    rw [hslot] at hphase
    have hclaims : JudgeCall.Inv
        { c with held := some (c.request.slotKey k), phase := .asking stale } :=
      ⟨⟨⟨k, hphase.2.1, rfl⟩, hphase.2.2⟩, fun _ => ⟨k, hphase.2.1, rfl⟩⟩
    refine h.become (fun _ => mem_cons_of_mem _) hclaims ?_ s.records
    rintro _ ⟨⟩
    exact ⟨mem_cons_self, fun i _ d hd hheld =>
      hfree (h.claimed d (mem_of_getElem? hd) _ hheld)⟩
  | @wrote n c now stale judged hc =>
    have hended : JudgeCall.Inv { c with
        phase := .ended (.verdict judged.verdict false judged.latencyMs stale.isSome) } :=
      ⟨trivial, (h.call hc).holds⟩
    exact h.become (fun _ => id) hended (h.held_of_eq hc rfl) _

theorem inv_init : init.Inv where
  calls := forall_mem_nil _
  once _ _ c _ _ hi := nomatch (getElem?_nil ▸ hi : none = some c)
  claimed := forall_mem_nil _

variable {events : List JudgeEvent}

theorem Inv.run (h : s.Inv) (hrun : s.run toUpperCase events = some t) :
    t.Inv := by
  induction events generalizing s with
  | nil =>
    obtain rfl := Option.some.inj hrun
    exact h
  | cons e events ih =>
    obtain ⟨s', hstep, hrest⟩ := Option.bind_eq_some_iff.1 hrun
    exact ih (h.step hstep) hrest

/-! ## The budget -/

theorem Inv.nodup_held (h : s.Inv) : (s.calls.filterMap (·.held)).Nodup := by
  rw [List.Nodup, pairwise_filterMap, pairwise_iff_getElem]
  rintro i j hi hj hlt key hkey _ hkey' rfl
  exact hlt.ne (h.once i j _ _ key (getElem?_eq_getElem hi) (getElem?_eq_getElem hj) hkey
    hkey')

/-- The calls of a run that have asked hold different slots, and there are no more than its budget. -/
theorem Inv.invocations_le (h : s.Inv) {runId : JsString} {budget : ℕ}
    (hbudget : ∀ c ∈ s.calls, c.request.runId = runId → c.request.max ≤ budget) :
    s.invocations runId ≤ budget := by
  obtain ⟨asked, hasked⟩ : ∃ asked, asked = s.calls.filter fun c =>
    c.invoked ∧ c.request.runId = runId := ⟨_, rfl⟩
  have hslot (c) (hc : c ∈ asked) : ∃ k < budget, c.held = some (judgeSlotKey runId k) := by
    rw [hasked, mem_filter, decide_eq_true_eq] at hc
    obtain ⟨hc, hasked⟩ := hc
    obtain ⟨k, hk, hheld⟩ := (h.calls c hc).holds hasked.1
    refine ⟨k, hk.trans_le (hbudget c hc hasked.2), ?_⟩
    rw [hheld, JudgeRequest.slotKey, hasked.2]
  have hlength : (asked.filterMap (·.held)).length = asked.length := by
    rw [filterMap_length_eq_length]
    intro c hc
    obtain ⟨k, -, hheld⟩ := hslot c hc
    rw [hheld]
    rfl
  have hnodup : (asked.filterMap (·.held)).Nodup :=
    h.nodup_held.sublist (hasked ▸ filter_sublist.filterMap _)
  have hsubset : asked.filterMap (·.held) ⊆ (List.range budget).map (judgeSlotKey runId) := by
    intro key hkey
    obtain ⟨c, hc, hheld⟩ := mem_filterMap.1 hkey
    obtain ⟨k, hk, hslotKey⟩ := hslot c hc
    rw [hheld] at hslotKey
    exact mem_map.2 ⟨k, mem_range.2 hk, (Option.some.inj hslotKey).symm⟩
  calc s.invocations runId = asked.length := by
        rw [invocations, countP_eq_length_filter, hasked]
    _ = (asked.filterMap (·.held)).length := hlength.symm
    _ ≤ ((List.range budget).map (judgeSlotKey runId)).length :=
        (subperm_of_subset hnodup hsubset).length_le
    _ = budget := by rw [length_map, length_range]

/-! ## Whose verdict it is -/

/-- A call is still there, and knows what it knew. -/
theorem grows_of_step (h : s.Inv) (hstep : s.step toUpperCase e = some t)
    (hd : s.calls[i]? = some d) : ∃ d', t.calls[i]? = some d' ∧ d.Grows d' := by
  have hsame : d.Grows d := ⟨rfl, rfl, id, fun _ => id⟩
  have hset {n : ℕ} {c c' : JudgeCall} (hc : s.calls[n]? = some c) (hgrows : c.Grows c') :
      ∃ d', (s.calls.set n c')[i]? = some d' ∧ d.Grows d' := by
    rcases eq_or_ne n i with rfl | hni
    · obtain rfl := Option.some.inj (hc.symm.trans hd)
      obtain ⟨hlt, -⟩ := List.getElem?_eq_some_iff.1 hc
      exact ⟨c', getElem?_set_self hlt, hgrows⟩
    · exact ⟨d, (getElem?_set_ne hni).trans hd, hsame⟩
  cases step_next hstep with
  | begin =>
    obtain ⟨hlt, -⟩ := List.getElem?_eq_some_iff.1 hd
    exact ⟨d, (getElem?_append_left hlt).trans hd, hsame⟩
  | advance hc hadv => exact hset hc (hadv.grows (h.call hc))
  | claimed hc => exact hset hc ⟨rfl, rfl, id, fun _ => id⟩
  | wrote hc => exact hset hc ⟨rfl, rfl, id, fun _ => id⟩

variable {v : JudgeVerdict}

theorem Produced.step (h : s.Inv) (hstep : s.step toUpperCase e = some t) {key : JsString}
    {stamp : JudgeStamp} (hp : s.Produced key stamp v) :
    t.Produced key stamp v := by
  obtain ⟨c, hc, rfl, rfl, hinvoked, hanswer⟩ := hp
  obtain ⟨i, hi⟩ := getElem?_of_mem hc
  obtain ⟨d, hd, hgrows⟩ := grows_of_step h hstep hi
  exact ⟨d, mem_of_getElem? hd, hgrows.key, by rw [hgrows.request], hgrows.invoked hinvoked,
    hgrows.answer v hanswer⟩

theorem Inv.produced (h : s.Inv) (hc : s.calls[n]? = some c) {stale : Option SemJudgeRecord}
    {judged : Judged} (hphase : c.phase = .writing stale judged ∨ c.phase = .lost stale judged) :
    s.Produced c.key c.request.stamp judged.verdict := by
  have hknown := (h.call hc).inPhase
  have hanswered : c.Answered stale judged.verdict := by
    rcases hphase with hphase | hphase
    · rwa [hphase] at hknown
    · rwa [hphase] at hknown
  exact ⟨c, mem_of_getElem? hc, rfl, rfl, hanswered.1, hanswered.2.1⟩

/-- A call returns what is recorded with its stamp, or what it finds when it has lost. -/
theorem Advance.returned (h : Advance toUpperCase s n c e c') (hv : Returned c' v) :
    (∃ r, s.records c.key = some r ∧ r.toJudgeStamp = c.request.stamp ∧ r.verdict = v) ∨
      ∃ stale judged, e = .reread n ∧ c.phase = .lost stale judged ∧
        ((∃ r, s.records c.key = some r ∧ r.verdict = v) ∨
          s.records c.key = none ∧ judged.verdict = v) := by
  obtain ⟨cached, latencyMs, staleReplaced, hv⟩ := hv
  cases h with
  | read =>
    change c.found _ = _ at hv
    rcases c.found_cases (s.records c.key) with ⟨r, hr, hstamp, h⟩ | ⟨-, ⟨cause, h⟩ | ⟨-, h⟩⟩
    · rw [h] at hv
      cases hv
      exact .inl ⟨r, hr, hstamp, rfl⟩
    · rw [h] at hv
      exact nomatch hv
    · rw [h] at hv
      exact nomatch hv
  | @taken k stale =>
    change c.nextSlot _ _ = _ at hv
    rcases c.nextSlot_cases (k + 1) stale with h | ⟨-, h⟩
    · rw [h] at hv
      exact nomatch hv
    · rw [h] at hv
      exact nomatch hv
  | ask => exact nomatch hv
  | @answer stale reply latencyMs =>
    rcases c.answered_cases toUpperCase stale reply latencyMs with ⟨cause, h⟩ | ⟨w, h⟩
    · rw [h] at hv
      exact nomatch hv
    · rw [h] at hv
      exact nomatch hv
  | refused => exact nomatch hv
  | @reread stale judged hlost =>
    refine .inr ⟨stale, judged, rfl, hlost, ?_⟩
    rcases hrecord : s.records c.key with _ | r
    · rw [hrecord] at hv
      cases hv
      exact .inr ⟨rfl, rfl⟩
    · rw [hrecord] at hv
      cases hv
      exact .inl ⟨r, rfl, rfl⟩
  | crash => exact nomatch hv

/-- What is recorded and what is returned answers the question that its stamp names. -/
structure Own (s : JudgeState) : Prop where
  records : ∀ key r, s.records key = some r → s.Produced key r.toJudgeStamp r.verdict
  returned : ∀ c ∈ s.calls, ∀ v, Returned c v → s.Produced c.key c.request.stamp v

theorem Own.step (hown : s.Own) (h : s.Inv) (hagrees : s.Agrees e)
    (hstep : s.step toUpperCase e = some t) : t.Own := by
  have hkeep {key stamp v} (hp : s.Produced key stamp v) : t.Produced key stamp v := hp.step h hstep
  have hset {n : ℕ} {d : JudgeCall} (hd : ∀ v, Returned d v → s.Produced d.key d.request.stamp v) :
      ∀ c ∈ s.calls.set n d, ∀ v, Returned c v → t.Produced c.key c.request.stamp v := by
    intro c hc v hv
    rcases mem_or_eq_of_mem_set hc with hc | rfl
    · exact hkeep (hown.returned c hc v hv)
    · exact hkeep (hd v hv)
  cases step_next hstep with
  | begin =>
    refine ⟨fun key r hr => hkeep (hown.records key r hr), forall_mem_append.2 ⟨?_, ?_⟩⟩
    · exact fun c hc v hv => hkeep (hown.returned c hc v hv)
    · exact forall_mem_singleton.2 fun _ ⟨_, _, _, hv⟩ => nomatch hv
  | @advance n c c' _ hc hadv =>
    refine ⟨fun key r hr => hkeep (hown.records key r hr), hset fun v hv => ?_⟩
    have hgrows := hadv.grows (h.call hc)
    rw [hgrows.key, hgrows.request]
    rcases hadv.returned hv with ⟨r, hr, hstamp, rfl⟩ | ⟨stale, judged, rfl, hlost, hfound⟩
    · exact hstamp ▸ hown.records _ r hr
    · rcases hfound with ⟨r, hr, rfl⟩ | ⟨-, rfl⟩
      · exact hagrees c hc r hr ▸ hown.records _ r hr
      · exact h.produced hc (.inr hlost)
  | claimed =>
    exact ⟨fun key r hr => hkeep (hown.records key r hr), hset fun _ ⟨_, _, _, hv⟩ => nomatch hv⟩
  | @wrote n c now stale judged hc hphase =>
    have hproduced := h.produced hc (.inl hphase)
    refine ⟨fun key r hr => ?_, hset fun v ⟨_, _, _, hv⟩ => ?_⟩
    · dsimp only at hr
      rw [update_apply] at hr
      split at hr
      · next hkey =>
        cases hr
        exact hkey ▸ hkeep hproduced
      · exact hkeep (hown.records key r hr)
    · cases hv
      exact hproduced

/-! ## One answer -/

/-- What a call has found is still there, or it has given up. -/
def Waits (found : Option SemJudgeRecord) : JudgePhase → Prop
  | .reading => True
  | .slot _ stale => stale = found
  | .asking stale => stale = found
  | .asked stale => stale = found
  | .writing stale _ => stale = found
  | .lost .. => False
  | .ended outcome => ∃ cause, outcome = .skipped cause
  | .crashed => True

theorem Advance.waits (h : Advance toUpperCase s n c e c') (hstale : c.Stale (s.records c.key))
    (hwaits : Waits (s.records c.key) c.phase) : Waits (s.records c.key) c'.phase := by
  cases h with
  | read =>
    change Waits _ (c.found _)
    rcases c.found_cases (s.records c.key) with ⟨r, hr, hstamp, -⟩ | ⟨-, ⟨cause, h⟩ | ⟨-, h⟩⟩
    · exact absurd hstamp (hstale r hr)
    · rw [h]
      exact ⟨cause, rfl⟩
    · rw [h]
      exact rfl
  | @taken k stale hslot =>
    rw [hslot] at hwaits
    change Waits _ (c.nextSlot _ _)
    rcases c.nextSlot_cases (k + 1) stale with h | ⟨-, h⟩
    · rw [h]
      exact ⟨_, rfl⟩
    · rw [h]
      exact hwaits
  | ask hasking =>
    rw [hasking] at hwaits
    exact hwaits
  | @answer stale reply latencyMs hasked =>
    rw [hasked] at hwaits
    rcases c.answered_cases toUpperCase stale reply latencyMs with ⟨cause, h⟩ | ⟨v, h⟩
    · rw [h]
      exact ⟨cause, rfl⟩
    · rw [h]
      exact hwaits
  | refused hwriting hchanged =>
    rw [hwriting] at hwaits
    exact absurd hwaits.symm hchanged
  | reread hlost =>
    rw [hlost] at hwaits
    exact hwaits.elim
  | crash => trivial

/-- The calls from the first one on that ask the question. -/
def Among (s : JudgeState) (first : ℕ) (key : JsString) (stamp : JudgeStamp) (P : JudgeCall → Prop) :
    Prop :=
  ∀ i c, first ≤ i → s.calls[i]? = some c → c.key = key → c.request.stamp = stamp → P c

variable {first : ℕ} {key : JsString} {stamp : JudgeStamp}

theorem Among.become {P Q : JudgeCall → Prop} (h : s.Among first key stamp P)
    (hc : s.calls[n]? = some c) (hkey : c'.key = c.key) (hrequest : c'.request = c.request)
    (hrest : ∀ d, P d → Q d) (hc' : c.key = key → c.request.stamp = stamp → P c → Q c') :
    (s.become n c').Among first key stamp Q := by
  intro i d hi hd hdkey hdstamp
  rcases getElem?_become hd with ⟨rfl, rfl⟩ | ⟨-, hd⟩
  · rw [hkey] at hdkey
    rw [hrequest] at hdstamp
    exact hc' hdkey hdstamp (h i c hi hc hdkey hdstamp)
  · exact hrest d (h i d hi hd hdkey hdstamp)

/-- Nothing is recorded that answers the question, and nobody has been told an answer. -/
structure Pending (s : JudgeState) (first : ℕ) (key : JsString) (stamp : JudgeStamp) : Prop where
  stale : ∀ r, s.records key = some r → r.toJudgeStamp ≠ stamp
  waits : s.Among first key stamp fun c => Waits (s.records key) c.phase

/-- The answer is recorded, and it is what everybody has been told. -/
structure Decided (s : JudgeState) (first : ℕ) (key : JsString) (stamp : JudgeStamp)
    (r : SemJudgeRecord) : Prop where
  record : s.records key = some r
  stamped : r.toJudgeStamp = stamp
  told : s.Among first key stamp fun c => ∀ v, Returned c v → v = r.verdict

/-- As long as the others do not write, who asks waits, or the first answer stands. -/
def Settling (s : JudgeState) (first : ℕ) (key : JsString) (stamp : JudgeStamp) : Prop :=
  s.Pending first key stamp ∨ ∃ r, s.Decided first key stamp r

theorem Among.begin {P : JudgeCall → Prop} (h : s.Among first key stamp P) (hc : P c) :
    Among { s with calls := s.calls ++ [c] } first key stamp P := by
  intro i d hi hd hdkey hdstamp
  rcases getElem?_concat hd with hd | ⟨-, rfl⟩
  · exact h i d hi hd hdkey hdstamp
  · exact hc

theorem Decided.step {r : SemJudgeRecord} (hdecided : s.Decided first key stamp r) (h : s.Inv)
    (hundisturbed : s.Undisturbed key stamp e) (hstep : s.step toUpperCase e = some t) :
    t.Decided first key stamp r := by
  obtain ⟨hrecord, hstamped, htold⟩ := hdecided
  cases step_next hstep with
  | begin => exact ⟨hrecord, hstamped, htold.begin fun _ ⟨_, _, _, hv⟩ => nomatch hv⟩
  | @advance n c c' _ hc hadv =>
    have hgrows := hadv.grows (h.call hc)
    refine ⟨hrecord, hstamped, htold.become hc hgrows.key hgrows.request (fun _ => id) ?_⟩
    rintro rfl - - v hv
    rcases hadv.returned hv with ⟨r', hr', -, rfl⟩ |
      ⟨stale, judged, -, -, ⟨r', hr', rfl⟩ | ⟨hnone, -⟩⟩
    · rw [Option.some.inj (hr'.symm.trans hrecord)]
    · rw [Option.some.inj (hr'.symm.trans hrecord)]
    · exact nomatch hnone.symm.trans hrecord
  | claimed hc =>
    exact ⟨hrecord, hstamped, htold.become hc rfl rfl (fun _ => id)
      fun _ _ _ _ ⟨_, _, _, hv⟩ => nomatch hv⟩
  | @wrote n c now stale judged hc hphase hstill =>
    -- It wants to replace what has another stamp, and what is there has the stamp.
    have hother : c.key ≠ key := by
      rintro rfl
      have hknown := (h.call hc).inPhase
      rw [hphase] at hknown
      refine hknown.2.2 r ?_ (hstamped.trans (hundisturbed c hc rfl).symm)
      rw [← hstill, hrecord]
    refine ⟨?_, hstamped, htold.become hc rfl rfl (fun _ => id) fun hkey => absurd hkey hother⟩
    exact (update_of_ne hother.symm _ _).trans hrecord

theorem Pending.step (hpending : s.Pending first key stamp) (h : s.Inv)
    (hundisturbed : s.Undisturbed key stamp e) (hstep : s.step toUpperCase e = some t) :
    t.Settling first key stamp := by
  obtain ⟨hstale, hwaits⟩ := hpending
  cases step_next hstep with
  | begin => exact .inl ⟨hstale, hwaits.begin trivial⟩
  | @advance n c c' _ hc hadv =>
    have hgrows := hadv.grows (h.call hc)
    refine .inl ⟨hstale, hwaits.become hc hgrows.key hgrows.request (fun _ => id) ?_⟩
    rintro rfl rfl hc
    exact hadv.waits hstale hc
  | claimed hc hslot =>
    refine .inl ⟨hstale, hwaits.become hc rfl rfl (fun _ => id) ?_⟩
    intro _ _ hc
    rw [hslot] at hc
    exact hc
  | @wrote n c now stale judged hc hphase hstill =>
    by_cases hkey : c.key = key
    · have hstamp := hundisturbed c hc hkey
      subst hkey
      refine .inr ⟨c.request.record judged.verdict now, update_self .., hstamp, ?_⟩
      refine hwaits.become hc rfl rfl (fun d hd v ⟨_, _, _, hv⟩ => ?_) ?_
      · rw [hv] at hd
        obtain ⟨_, hd⟩ := hd
        exact nomatch hd
      · rintro - - - v ⟨_, _, _, hv⟩
        cases hv
        rfl
    · have hrecords :
          update s.records c.key (some (c.request.record judged.verdict now)) key =
            s.records key := update_of_ne (Ne.symm hkey) _ _
      refine .inl ⟨fun r hr => hstale r (hrecords.symm.trans hr), ?_⟩
      dsimp only
      rw [hrecords]
      exact hwaits.become hc rfl rfl (fun _ => id) fun heq => absurd heq hkey

theorem Settling.run (hset : s.Settling first key stamp) (h : s.Inv)
    (hundisturbed : s.Along toUpperCase (Undisturbed key stamp) events)
    (hrun : s.run toUpperCase events = some t) : t.Settling first key stamp := by
  induction events generalizing s with
  | nil =>
    obtain rfl := Option.some.inj hrun
    exact hset
  | cons e events ih =>
    obtain ⟨s', hstep, hrest⟩ := Option.bind_eq_some_iff.1 hrun
    refine ih ?_ (h.step hstep) (hundisturbed.2 s' hstep) hrest
    rcases hset with hpending | ⟨r, hdecided⟩
    · exact hpending.step h hundisturbed.1 hstep
    · exact .inr ⟨r, hdecided.step h hundisturbed.1 hstep⟩

theorem settling_begin (s : JudgeState) (key : JsString) (stamp : JudgeStamp) :
    s.Settling s.calls.length key stamp := by
  have hnone {P : JudgeCall → Prop} : s.Among s.calls.length key stamp P := by
    intro i c hi hc
    rw [getElem?_eq_none hi] at hc
    contradiction
  by_cases hr : ∃ r, s.records key = some r ∧ r.toJudgeStamp = stamp
  · obtain ⟨r, hr, hstamp⟩ := hr
    exact .inr ⟨r, hr, hstamp, hnone⟩
  · push Not at hr
    exact .inl ⟨hr, hnone⟩

/-- What two calls that ask one question return, from the first of them on, is the same. -/
theorem Settling.same (h : s.Settling first key stamp) {m : ℕ} (hm : first ≤ m) (hn : first ≤ n)
    (hc : s.calls[m]? = some c) (hd : s.calls[n]? = some d) (hckey : c.key = key)
    (hdkey : d.key = key) (hcstamp : c.request.stamp = stamp) (hdstamp : d.request.stamp = stamp)
    {w : JudgeVerdict} (hv : Returned c v) (hw : Returned d w) : v = w := by
  rcases h with ⟨-, hwaits⟩ | ⟨r, -, -, htold⟩
  · obtain ⟨_, _, _, hphase⟩ := hv
    have hwait : Waits (s.records key) c.phase := hwaits m c hm hc hckey hcstamp
    rw [hphase] at hwait
    obtain ⟨_, hcause⟩ := hwait
    exact nomatch hcause
  · exact (htold m c hm hc hckey hcstamp v hv).trans (htold n d hn hd hdkey hdstamp w hw).symm

theorem run_append (before during : List JudgeEvent) : s.run toUpperCase (before ++ during) =
    (s.run toUpperCase before).bind (·.run toUpperCase during) := by
  induction before generalizing s with
  | nil => rfl
  | cons e before ih =>
    rw [cons_append, run, run, Option.bind_assoc]
    exact congrArg _ (funext fun s' => ih)

theorem Own.run (hown : s.Own) (h : s.Inv) (hagrees : s.Along toUpperCase Agrees events)
    (hrun : s.run toUpperCase events = some t) :
    t.Own := by
  induction events generalizing s with
  | nil =>
    obtain rfl := Option.some.inj hrun
    exact hown
  | cons e events ih =>
    obtain ⟨s', hstep, hrest⟩ := Option.bind_eq_some_iff.1 hrun
    exact ih (hown.step h hagrees.1 hstep) (h.step hstep) (hagrees.2 s' hstep) hrest

theorem Along.cons {P : JudgeState → JudgeEvent → Prop} (h : P s e)
    (hstep : s.step toUpperCase e = some t) (ht : t.Along toUpperCase P events) :
    s.Along toUpperCase P (e :: events) := by
  refine ⟨h, fun s' hs' => ?_⟩
  obtain rfl := Option.some.inj (hstep.symm.trans hs')
  exact ht

theorem own_init : init.Own := ⟨nofun, forall_mem_nil _⟩

end JudgeState

/-! ## The promises -/

/-- The requests are about one pair of calls, in either order. -/
def JudgeRequest.SamePair (r r' : JudgeRequest) : Prop :=
  r.plan.threadId = r'.plan.threadId ∧ r.plan.toolName = r'.plan.toolName ∧
    (r.gray.record.argsHash = r'.gray.record.argsHash ∧ r.plan.argsHash = r'.plan.argsHash ∨
      r.gray.record.argsHash = r'.plan.argsHash ∧ r.plan.argsHash = r'.gray.record.argsHash)

theorem inOrder_comm (h₁ h₂ : JsString) : inOrder h₁ h₂ = inOrder h₂ h₁ := by
  rw [inOrder, inOrder]
  split
  · next h =>
    split
    · next h' => rw [List.le_antisymm h h']
    · rfl
  · next h => rw [if_pos ((List.le_total h₁ h₂).resolve_left h)]

theorem JudgeRequest.SamePair.key {r r' : JudgeRequest} (h : r.SamePair r') : r.key = r'.key := by
  obtain ⟨hthread, htool, ⟨hprior, hnew⟩ | ⟨hprior, hnew⟩⟩ := h
  · rw [JudgeRequest.key, JudgeRequest.key, hthread, htool, hprior, hnew]
  · rw [JudgeRequest.key, JudgeRequest.key, hthread, htool, hprior, hnew, semJudgeKey, semJudgeKey,
      inOrder_comm]

open JudgeState

/-- In every run: a run of the agent asks no more often than its budget allows; what a call returns
    has been answered under its own stamp, as long as those that lose find their own stamp; and the
    calls of one stamp on one pair return one verdict, if no other stamp is written from the first
    of them on. -/
theorem judged_alike (toUpperCase : JsString → JsString) (events : List JudgeEvent) (t : JudgeState)
    (hrun : init.run toUpperCase events = some t) :
    (∀ runId budget, (∀ c ∈ t.calls, c.request.runId = runId → c.request.max ≤ budget) →
      t.invocations runId ≤ budget) ∧
    (init.Along toUpperCase JudgeState.Agrees events →
      ∀ c ∈ t.calls, ∀ v, JudgeState.Returned c v → t.Produced c.key c.request.stamp v) ∧
    ∀ before during s, events = before ++ during → init.run toUpperCase before = some s →
      ∀ m n c d v w, s.calls.length ≤ m → s.calls.length ≤ n → t.calls[m]? = some c →
        t.calls[n]? = some d → c.request.SamePair d.request → c.request.stamp = d.request.stamp →
        s.Along toUpperCase (JudgeState.Undisturbed c.key c.request.stamp) during →
        JudgeState.Returned c v → JudgeState.Returned d w → v = w := by
  refine ⟨fun runId budget => (inv_init.run hrun).invocations_le,
    fun hagrees => (own_init.run inv_init hagrees hrun).returned, ?_⟩
  rintro before during s rfl hs m n c d v w hm hn hc hd hpair hstamp hundisturbed hv hw
  rw [run_append, hs] at hrun
  have hset := (settling_begin s c.key c.request.stamp).run (inv_init.run hs) hundisturbed hrun
  have hkey : d.key = c.key :=
    Except.ok.inj (d.key_eq.symm.trans (hpair.key.symm.trans c.key_eq))
  exact hset.same hm hn hc hd rfl hkey rfl hstamp.symm hv hw

/-- What is asked about one pair, with a model. -/
def askWith (runId judgeModelId : JsString) : JudgeRequest where
  runId := runId
  toolCallId := [99]
  plan :=
    { cfg := ⟨[101], none, none, none⟩, id := ⟨[], none, none⟩, threadId := [116], toolName := [112]
      argsHash := [50], fields := ⟨[], [], []⟩, canonical := [] }
  gray :=
    { record :=
        { identity := [], amounts := [], discriminators := [], toolName := [112], argsHash := [49]
          embedModelId := [101], templateVersion := SEM_TEMPLATE_VERSION, canonical := []
          vecB64 := none, firstToolCallId := [98], at_ := 0 }
      score := 1, trace := [] }
  cfg := ⟨judgeModelId, [102], none⟩
  judgePromptVersion := [49]
  rulesetVersion := [49]

/-- Two workers, the second with the model `m`, find nothing, and are answered each its own way. The
    second loses, and reads again. -/
def twoWorkers (m : JsString) : List JudgeEvent :=
  [.begin (askWith [114] [97]), .begin (askWith [115] m), .read 0, .read 1, .slot 0, .slot 1,
    .ask 0, .ask 1, .answer 0 (.text (js "SAME")) 5, .answer 1 (.text (js "DIFFERENT")) 6,
    .write 0 7, .write 1 8, .reread 1]

/-- Of one model, both return the verdict of the first. -/
theorem judged_once : ∃ t, init.run id (twoWorkers [97]) = some t ∧
    t.calls.map (·.phase) = [.ended (.verdict .same false 5 false), .ended (.verdict .same true 6 false)] ∧
    t.invocations [114] ≤ 10 ∧
    ∀ c ∈ t.calls, ∀ v, JudgeState.Returned c v → t.Produced c.key c.request.stamp v := by
  obtain ⟨hbudget, hown, -⟩ := judged_alike id (twoWorkers [97]) _ rfl
  refine ⟨_, rfl, rfl, hbudget [114] 10 ?_, hown ?_⟩
  · exact forall_mem_cons.2 ⟨fun _ => le_rfl, forall_mem_singleton.2 fun _ => le_rfl⟩
  · iterate 12 refine .cons trivial rfl ?_
    refine .cons ?_ rfl trivial
    rintro c ⟨⟩ winner ⟨⟩
    rfl

/-- The workers have two models. -/
def twoModels : List JudgeEvent := twoWorkers [98]

/-- It returns the verdict of the other model, which its own has not given. -/
theorem other_stamp_served : ∃ t, init.run id twoModels = some t ∧ ∃ c ∈ t.calls, ∃ v,
    JudgeState.Returned c v ∧ ¬t.Produced c.key c.request.stamp v := by
  refine ⟨_, rfl, _, mem_of_getElem? (i := 1) rfl, .same, ⟨true, 6, false, rfl⟩, ?_⟩
  rintro ⟨d, hd, -, hstamp, -, hanswer⟩
  obtain ⟨i, hi⟩ := getElem?_of_mem hd
  rcases i with _ | _ | i
  · -- The first call has asked the other model.
    obtain rfl := Option.some.inj hi
    exact absurd (congrArg JudgeStamp.judgeModelId hstamp) (by decide)
  · obtain rfl := Option.some.inj hi
    exact absurd hanswer (by decide)
  · exact nomatch hi

end Gnldev.Durable.Semantic
