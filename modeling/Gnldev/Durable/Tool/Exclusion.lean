import Gnldev.Durable.Tool.Effects

/-!
# Exclusion by the claim of a key

A call that has won its key holds a *claim* until it puts a record, and the claim is
live until its time is over. A takeover swaps the record that it has read again for a
claim; whether the record was stale was judged on an earlier read. So a claim that
another call has won in between is swapped like the stale one it replaced.

* `claims_exclude`: in a run in which no takeover reads a live claim again, and no call
  puts a record that can be taken over beside another call's live claim, a claim is won
  only while no other one is live;
* `claim_taken_live`: two calls judge one stale claim, and both take it over.
-/

namespace Gnldev.Durable

open Function

variable {V : Type}

/-- The time of the claim of the call `i`, which has not put a record since it has won. -/
def openClaim (K : JsString) (i : ℕ) : List (ToolEvent V) → Option Int
  | [] => none
  | .won k j t :: es => if k = K ∧ j = i then some t else openClaim K i es
  | .wrote k j _ :: es => if k = K ∧ j = i then none else openClaim K i es
  | _ :: es => openClaim K i es

/-- The call `i` holds a claim whose time is not over. -/
def ToolWorld.liveClaim (K : JsString) (ttl : Int) (w : ToolWorld V) (i : ℕ) : Bool :=
  (openClaim K i w.trace).any fun t => w.clock - t ≤ ttl

/-- The key is won while no other call's claim is live. -/
def WinsAlone (K : JsString) (ttl : Int) (w : ToolWorld V) (i : ℕ) : (o : ToolOp V) → o.Res → Prop
  | .rec_ _ (.putIfAbsent k _), .ok won =>
    k = K → won = true → ∀ j, j ≠ i → w.liveClaim K ttl j = false
  | .rec_ _ (.putIfMatch k _ _), .ok won =>
    k = K → won = true → ∀ j, j ≠ i → w.liveClaim K ttl j = false
  | _, _ => True

/-- What is read again before a takeover is no live claim, and a record that can be taken
    over is put while no other call's claim is live. -/
def TakesStale (calls : ℕ → ToolCall) (K : JsString) (ttl : Int) (w : ToolWorld V) (i : ℕ) :
    (o : ToolOp V) → o.Res → Prop
  | .rec_ .takeover (.get k), .ok raw =>
    k = K → ∀ x ∈ raw, (calls i).live w.clock x.record = false
  | .rec_ .terminal (.put k v), .ok _ =>
    k = K → v.record.final = none → ∀ j, j ≠ i → w.liveClaim K ttl j = false
  | _, _ => True

/-! ## The invariant -/

/-- The record of the key is the claim of the time `t`, or it is final. -/
def Held (K : JsString) (t : Int) (w : ToolWorld V) : Prop :=
  ∃ r, w.recordAt K = some r ∧ (r.startedAt = some t ∨ r.final.isSome)

structure ClaimInv (K : JsString) (ttl : Int) (w : ToolWorld V) (ph : ℕ → Local V) : Prop where
  /-- A live claim is in its place, or nothing can be claimed any more. -/
  held : ∀ i t, openClaim K i w.trace = some t → w.clock - t ≤ ttl → Held K t w
  /-- A claim that was read again is stale. -/
  stale : ∀ i e t, (ph i).reread = some e → e.record.startedAt = some t → ttl < w.clock - t
  one : ∀ i j, w.liveClaim K ttl i = true → w.liveClaim K ttl j = true → i = j

theorem liveClaim_iff {K : JsString} {ttl : Int} {w : ToolWorld V} {i : ℕ} :
    w.liveClaim K ttl i = true ↔ ∃ t, openClaim K i w.trace = some t ∧ w.clock - t ≤ ttl := by
  rw [ToolWorld.liveClaim, Option.any_eq_true]
  simp only [decide_eq_true_eq]

namespace ClaimInv

variable {K : JsString} {ttl : Int} {w w' : ToolWorld V} {ph : ℕ → Local V} {i : ℕ} {s : Local V}

theorem init (hw : w.trace = []) : ClaimInv K ttl w fun _ => Local.init := by
  have hnone : ∀ i, openClaim K i w.trace = none := fun i => by rw [hw, openClaim]
  refine ⟨fun i t ht => ?_, fun i e t he => ?_, fun i j hi => ?_⟩
  · rw [hnone] at ht
    cases ht
  · cases he
  · rw [ToolWorld.liveClaim, hnone] at hi
    cases hi

/-- An operation that claims nothing, and does not change the record. -/
theorem frame (h : ClaimInv K ttl w ph) (hrec : w'.recordAt K = w.recordAt K)
    (hclock : w'.clock = w.clock)
    (hopen : ∀ j, openClaim K j w'.trace = openClaim K j w.trace)
    (hread : s.reread = (ph i).reread) : ClaimInv K ttl w' (update ph i s) where
  held j t hj hlive := by
    rw [hopen] at hj
    rw [hclock] at hlive
    rw [Held, hrec]
    exact h.held j t hj hlive
  stale j e t hj ht := by
    rw [hclock]
    by_cases hji : j = i
    · subst hji
      rw [update_self, hread] at hj
      exact h.stale _ e t hj ht
    · rw [update_of_ne hji] at hj
      exact h.stale j e t hj ht
  one j k hj hk := by
    rw [ToolWorld.liveClaim, hopen, hclock] at hj hk
    exact h.one j k hj hk

/-- Time passes. -/
theorem tick (h : ClaimInv K ttl w ph) (n : ℕ) :
    ClaimInv K ttl { w with clock := w.clock + n } ph where
  held j t hj hlive := by
    have hbefore : w.clock - t ≤ ttl := by
      simp only at hlive
      omega
    exact h.held j t hj hbefore
  stale j e t hj ht := by
    have := h.stale j e t hj ht
    simp only
    omega
  one j k hj hk := by
    rw [liveClaim_iff] at hj hk
    obtain ⟨t, ht, hlt⟩ := hj
    obtain ⟨u, hu, hlu⟩ := hk
    refine h.one j k (liveClaim_iff.2 ⟨t, ht, ?_⟩) (liveClaim_iff.2 ⟨u, hu, ?_⟩)
    · simp only at hlt
      omega
    · simp only at hlu
      omega

/-- Where there is no record, there is no live claim. -/
theorem free_alone (h : ClaimInv K ttl w ph) (hfree : w.recordAt K = none) (j : ℕ) :
    w.liveClaim K ttl j = false := by
  rw [← Bool.not_eq_true, liveClaim_iff]
  rintro ⟨t, ht, hlive⟩
  obtain ⟨r, hr, -⟩ := h.held j t ht hlive
  rw [hfree] at hr
  cases hr

/-- What is taken over is not the record of a live claim: it was stale when it was read
    again, and has been there since. -/
theorem takeover_alone (h : ClaimInv K ttl w ph) {e : Stored V} (hval : w.recs.val K = some e)
    (hread : (ph i).reread = some e) (hfinal : e.record.final = none) (j : ℕ) :
    w.liveClaim K ttl j = false := by
  rw [← Bool.not_eq_true, liveClaim_iff]
  rintro ⟨t, ht, hlive⟩
  obtain ⟨r, hr, hheld⟩ := h.held j t ht hlive
  rw [ToolWorld.recordAt, hval, Option.map_some] at hr
  obtain rfl := Option.some.inj hr
  rcases hheld with hrun | hdone
  · have := h.stale i e t hread hrun
    omega
  · rw [hfinal] at hdone
    cases hdone

/-- A claim is won beside no other live one. -/
theorem win (h : ClaimInv K ttl w ph) (halone : ∀ j, j ≠ i → w.liveClaim K ttl j = false)
    (t : Int) (n : ℕ) (hread : s.reread = (ph i).reread) :
    ClaimInv K ttl (w.claimRec i K t n) (update ph i s) := by
  have hself : openClaim K i (w.claimRec i K t n).trace = some t := if_pos ⟨rfl, rfl⟩
  have hother : ∀ j, j ≠ i →
      openClaim K j (w.claimRec i K t n).trace = openClaim K j w.trace := fun j hj =>
    if_neg fun hwon => hj hwon.2.symm
  have honly : ∀ j, (w.claimRec i K t n).liveClaim K ttl j = true → j = i := by
    intro j hj
    by_contra hji
    rw [ToolWorld.liveClaim, hother j hji] at hj
    exact Bool.false_ne_true ((halone j hji).symm.trans hj)
  refine ⟨fun j u hj hlive => ?_, fun j e u hj hu => ?_, fun j k hj hk => ?_⟩
  · obtain rfl := honly j (liveClaim_iff.2 ⟨u, hj, hlive⟩)
    rw [hself] at hj
    obtain rfl := Option.some.inj hj
    exact ⟨_, recordAt_claimRec w j K t n, .inl rfl⟩
  · by_cases hji : j = i
    · subst hji
      rw [update_self, hread] at hj
      exact h.stale _ e u hj hu
    · rw [update_of_ne hji] at hj
      exact h.stale j e u hj hu
  · rw [honly j hj, honly k hk]

/-- A record is put: it is final, or no other claim is live. -/
theorem put (h : ClaimInv K ttl w ph) {v : Stored V}
    (hv : v.record.final = none → ∀ j, j ≠ i → w.liveClaim K ttl j = false)
    (hread : s.reread = (ph i).reread) :
    ClaimInv K ttl (w.putRec i K v) (update ph i s) := by
  have hself : openClaim K i (w.putRec i K v).trace = none := if_pos ⟨rfl, rfl⟩
  have hother : ∀ j, j ≠ i → openClaim K j (w.putRec i K v).trace = openClaim K j w.trace :=
    fun j hj => if_neg fun hwrote => hj hwrote.2.symm
  have hne : ∀ {j t}, openClaim K j (w.putRec i K v).trace = some t → j ≠ i := by
    rintro j t hj rfl
    rw [hself] at hj
    cases hj
  refine ⟨fun j t hj hlive => ?_, fun j e t hj ht => ?_, fun j k hj hk => ?_⟩
  · refine ⟨v.record, recordAt_putRec w i K v, .inr ?_⟩
    by_contra hfinal
    rw [Option.not_isSome_iff_eq_none] at hfinal
    have hdead := hv hfinal j (hne hj)
    rw [hother j (hne hj)] at hj
    exact Bool.false_ne_true (hdead.symm.trans (liveClaim_iff.2 ⟨t, hj, hlive⟩))
  · by_cases hji : j = i
    · subst hji
      rw [update_self, hread] at hj
      exact h.stale _ e t hj ht
    · rw [update_of_ne hji] at hj
      exact h.stale j e t hj ht
  · have hback : ∀ j, (w.putRec i K v).liveClaim K ttl j = true → w.liveClaim K ttl j = true := by
      intro j hj
      obtain ⟨t, ht, hlive⟩ := liveClaim_iff.1 hj
      rw [hother j (hne ht)] at ht
      exact liveClaim_iff.2 ⟨t, ht, hlive⟩
    exact h.one j k (hback j hj) (hback k hk)

/-- The record is read again before a takeover, and is no live claim. -/
theorem reread (h : ClaimInv K ttl w ph)
    (hstale : ∀ e t, s.reread = some e → e.record.startedAt = some t → ttl < w.clock - t) :
    ClaimInv K ttl w (update ph i s) := by
  refine ⟨h.held, fun j e t hj ht => ?_, h.one⟩
  by_cases hji : j = i
  · subst hji
    rw [update_self] at hj
    exact hstale e t hj ht
  · rw [update_of_ne hji] at hj
    exact h.stale j e t hj ht

end ClaimInv

/-! ## The step -/

theorem final_of_isSucceeded {r : ToolRecord V} (h : r.isSucceeded = true) : r.final.isSome := by
  cases r with
  | succeeded => rfl
  | _ => cases h

theorem final_withResolved (r : ToolRecord V) (ids : List JsString) :
    (r.withResolved ids).final = r.final := by
  cases r <;> rfl

theorem Local.reread_saw (c : ToolCall) (s : Local V) (raw : Option (Stored V)) :
    (s.saw c raw).reread = s.reread := by
  cases raw <;> rfl

section Step

variable {calls : ℕ → ToolCall} {K : JsString} {ttl : Int} {w w' : ToolWorld V} {ph : ℕ → Local V}
  {i : ℕ} {s' : Local V} {dupKey : Option JsString} {o : ToolOp V} {r : o.Res}

/-- A put that is not terminal is of a final record. -/
theorem final_of_allowedPut {c : ToolCall} {s : Local V} {site : Site V} {v : Stored V}
    (hput : AllowedPut c K dupKey s K v site) (hsite : site ≠ .mirror) (hterm : site ≠ .terminal) :
    v.record.final.isSome := by
  cases site with
  | recovered => exact final_of_isSucceeded hput.2.1
  | track base =>
    obtain ⟨-, hbase, -, rfl⟩ := hput
    rw [stampFormat, final_withResolved]
    exact hbase
  | terminal => exact absurd rfl hterm
  | mirror => exact absurd rfl hsite
  | _ => exact hput.elim

/-- What is read again is no live claim of the reader's own check. -/
theorem stale_of_read (httl : ttl ≤ (calls i).claimTtl)
    (hok : ∀ x ∈ w.recs.val K, (calls i).live w.clock x.record = false) {e : Stored V} {t : Int}
    (he : w.recs.val K = some e) (ht : e.record.startedAt = some t) : ttl < w.clock - t := by
  have hdead := hok e he
  cases hrec : e.record with
  | running u n =>
    rw [hrec] at hdead ht
    obtain rfl : u = t := Option.some.inj ht
    have : ¬w.clock - u ≤ (calls i).claimTtl := of_decide_eq_false hdead
    omega
  | _ =>
    rw [hrec] at ht
    cases ht

theorem ClaimInv.step (httl : ∀ i, ttl ≤ (calls i).claimTtl) (h : ClaimInv K ttl w ph)
    (hdoes : Does (calls i) K dupKey i w (ph i) o r w' s') (hok : TakesStale calls K ttl w i o r) :
    ClaimInv K ttl w' (update ph i s') := by
  cases hdoes with
  | idle o r w' _ hrecs _ hclock htrace =>
    refine h.frame (recordAt_of_recs hrecs K) hclock (fun j => ?_) rfl
    rw [htrace]
  | read site =>
    cases site with
    | takeover =>
      exact h.reread fun e t he ht => stale_of_read (httl i) (hok rfl) he ht
    | _ => exact h.frame rfl rfl (fun _ => rfl) (Local.reread_saw _ _ _)
  | first site t hfree =>
    have hnone : w.recordAt K = none := by
      rw [ToolWorld.recordAt, hfree]
      rfl
    exact h.win (fun j _ => h.free_alone hnone j) t 1 rfl
  | takeover site e t n hval _ hread hfinal =>
    exact h.win (fun j _ => h.takeover_alone hval hread hfinal j) t n rfl
  | put site v hsite hput =>
    refine h.put (fun hfinal => ?_) rfl
    by_cases hterm : site = .terminal
    · subst hterm
      exact hok rfl hfinal
    · have hdone := final_of_allowedPut hput hsite hterm
      rw [hfinal] at hdone
      cases hdone
  | mirror k v hk =>
    refine h.frame (recordAt_putRec_of_ne _ _ _ hk.symm) rfl (fun j => ?_) rfl
    exact if_neg fun hwrote => hk hwrote.1
  | _ => exact h.frame rfl rfl (fun _ => rfl) rfl

theorem winsAlone_of_loses (h : Loses o r) : WinsAlone K ttl w i o r := by
  rcases o with ⟨site, k | ⟨k, v⟩ | ⟨k, v⟩ | ⟨k, e, v⟩⟩ | _ | _ | _ | _ | _ | _ | _
  · trivial
  · trivial
  · rcases r with _ | won
    · trivial
    · intro _ hwon
      rw [show won = false from h] at hwon
      cases hwon
  · rcases r with _ | won
    · trivial
    · intro _ hwon
      rw [show won = false from h] at hwon
      cases hwon
  all_goals trivial

/-- Under the invariant, a claim is won alone. -/
theorem ClaimInv.winsAlone (h : ClaimInv K ttl w ph)
    (hdoes : Does (calls i) K dupKey i w (ph i) o r w' s') : WinsAlone K ttl w i o r := by
  cases hdoes with
  | first site t hfree =>
    have hnone : w.recordAt K = none := by
      rw [ToolWorld.recordAt, hfree]
      rfl
    exact fun _ _ j _ => h.free_alone hnone j
  | takeover site e t n hval _ hread hfinal =>
    exact fun _ _ j _ => h.takeover_alone hval hread hfinal j
  | idle o r _ hlost => exact winsAlone_of_loses hlost
  | put site v => cases site <;> trivial
  | read site => cases site <;> trivial
  | _ => trivial

end Step

/-! ## The run -/

section Run

variable [DecidableEq V] {calls : ℕ → ToolCall} {K : JsString} {ttl : Int}

/-- Calls with one key, whatever their tools, runs, approvals and hooks are, and whatever
    record is there at first. In every run in which no takeover reads a live claim again,
    and no failure or question is recorded beside another call's live claim: a claim is won
    only while no other one is live, so that no two are live at once; and a tool starts only
    after its call has won. -/
theorem claims_exclude (hkey : ∀ i, (calls i).key = .ok K) (httl : ∀ i, ttl ≤ (calls i).claimTtl)
    (w : ToolWorld V) (hw : w.trace = []) (ms : List (Move (ToolAnswer V) ℕ))
    (hms : toolMachine.Meets (TakesStale calls K ttl) (toolStart calls w) ms) :
    toolMachine.Meets (WinsAlone K ttl) (toolStart calls w) ms ∧
      (∀ n i j, (toolMachine.play (toolStart calls w) (ms.take n)).world.liveClaim K ttl i = true →
        (toolMachine.play (toolStart calls w) (ms.take n)).world.liveClaim K ttl j = true → i = j) ∧
      ∀ n i, .began i ∈ (toolMachine.play (toolStart calls w) (ms.take n)).world.trace →
        ∃ t, .won K i t ∈ (toolMachine.play (toolStart calls w) (ms.take n)).world.trace := by
  refine ⟨?_, fun n i j hi hj => ?_, fun n i hi => ?_⟩
  · exact toolMachine_meets hkey (J := ClaimInv K ttl)
      (fun w ph i o r w' s' h hdoes hok => h.step httl hdoes hok) (fun w ph n h => h.tick n)
      (fun w ph i o r w' s' h hdoes _ => h.winsAlone hdoes) (.init hw) hms
  · obtain ⟨ph, h, -⟩ := toolMachine_invariant hkey (J := ClaimInv K ttl)
      (fun w ph i o r w' s' h hdoes hok => h.step httl hdoes hok) (fun w ph n h => h.tick n)
      (.init hw) (Machine.meets_take hms n)
    exact h.one i j hi hj
  · obtain ⟨ph, h, -⟩ := toolMachine_invariant hkey (J := BodyInv K)
      (fun w ph i o r w' s' h hdoes _ => h.step hdoes) (fun w ph n h => ⟨h.won, h.began⟩)
      (.init hw) (Machine.meets_take hms n)
    exact h.began i hi

end Run

/-! ## Two resumes of a crashed call -/

section Decidable

/-- The winner of an event. -/
def ToolEvent.winner : ToolEvent V → Option ℕ
  | won _ i _ => some i
  | _ => none

theorem mem_winners {K : JsString} {i : ℕ} {t : Int} {es : List (ToolEvent V)}
    (h : openClaim K i es = some t) : i ∈ es.filterMap ToolEvent.winner := by
  induction es with
  | nil => cases h
  | cons e es ih =>
    have htail : openClaim K i es = some t → i ∈ (e :: es).filterMap ToolEvent.winner := by
      intro hes
      obtain ⟨e', he', hw⟩ := List.mem_filterMap.1 (ih hes)
      exact List.mem_filterMap.2 ⟨e', .tail _ he', hw⟩
    cases e with
    | won k j u =>
      rw [openClaim] at h
      split at h
      · next hki => exact List.mem_filterMap.2 ⟨_, .head _, congrArg some hki.2⟩
      · exact htail h
    | wrote k j r =>
      rw [openClaim] at h
      split at h
      · cases h
      · exact htail h
    | _ => exact htail h

/-- Only the winners can hold live claims. -/
theorem winners_alone {K : JsString} {ttl : Int} {w : ToolWorld V} {i : ℕ} :
    (∀ j ∈ w.trace.filterMap ToolEvent.winner, j ≠ i → w.liveClaim K ttl j = false) ↔
      ∀ j, j ≠ i → w.liveClaim K ttl j = false := by
  refine ⟨fun h j hj => ?_, fun h j _ => h j⟩
  rw [← Bool.not_eq_true]
  intro hlive
  obtain ⟨t, ht, -⟩ := liveClaim_iff.1 hlive
  exact Bool.false_ne_true ((h j (mem_winners ht) hj).symm.trans hlive)

instance (K : JsString) (ttl : Int) (w : ToolWorld V) (i : ℕ) :
    Decidable (∀ j, j ≠ i → w.liveClaim K ttl j = false) :=
  decidable_of_iff
    (∀ j ∈ w.trace.filterMap ToolEvent.winner, j ≠ i → w.liveClaim K ttl j = false)
    winners_alone

variable (K : JsString) (ttl : Int) (w : ToolWorld V) (i : ℕ)

instance (o : ToolOp V) (r : o.Res) : Decidable (WinsAlone K ttl w i o r) := by
  rcases o with ⟨site, o⟩ | _ | _ | _ | _ | _ | _ | _
  · rcases o with _ | _ | _ | _ <;> rcases r with _ | _ <;> dsimp only [WinsAlone] <;> infer_instance
  all_goals exact isTrue trivial

instance (calls : ℕ → ToolCall) (o : ToolOp V) (r : o.Res) :
    Decidable (TakesStale calls K ttl w i o r) := by
  rcases o with ⟨site, o⟩ | _ | _ | _ | _ | _ | _ | _
  · rcases site with _ | _ | _ | _ | _ | _ | _ | _ <;> rcases o with _ | _ | _ | _ <;> rcases r with _ | _ <;>
      dsimp only [TakesStale] <;> infer_instance
  all_goals exact isTrue trivial

end Decidable

/-- A call that a human has approved after a crash. -/
def approvedCall : ToolCall :=
  { plainCall (js "r1") (js "a") with
    ctx := { plainCtx (js "r1") with approvals := fun _ => some true } }

/-- Its key. -/
def crashedKey : JsString := js "r1:tool:a"

/-- The claim of a call that has crashed long ago. -/
def crashedWorld : ToolWorld ℕ :=
  { emptyWorld with
    clock := 40000
    recs := Kv.empty.set 9 0 crashedKey (stampFormat (.running 0 (some 1))) }

/-- The call `i` makes `n` operations. -/
def resumeSteps : ℕ → ℕ → List (Move (ToolAnswer ℕ) ℕ) := plainSteps (.value 7)

/-- A resume takes the claim over, and another one is answered by its record. -/
theorem claims_exclude_resumed :
    toolMachine.Meets (TakesStale (fun _ => approvedCall) crashedKey 30000)
        (toolStart (fun _ => approvedCall) crashedWorld) (resumeSteps 0 12 ++ resumeSteps 1 1) ∧
      toolMachine.Meets (WinsAlone crashedKey 30000)
        (toolStart (fun _ => approvedCall) crashedWorld) (resumeSteps 0 12 ++ resumeSteps 1 1) :=
  have hms : toolMachine.Meets (TakesStale (fun _ => approvedCall) crashedKey 30000)
      (toolStart (fun _ => approvedCall) crashedWorld) (resumeSteps 0 12 ++ resumeSteps 1 1) := by
    decide +kernel
  ⟨hms, (claims_exclude (fun _ => by decide) (fun _ => by decide) _ rfl _ hms).1⟩

/-- Two resumes judge the crashed claim. The first one takes it over and starts its tool;
    the second one reads the new claim, takes it over as well, and starts its tool too. -/
theorem claim_taken_live :
    ¬(toolMachine.Meets (WinsAlone crashedKey 30000) (toolStart (fun _ => approvedCall) crashedWorld)
        (resumeSteps 1 3 ++ resumeSteps 0 7 ++ resumeSteps 1 4)) ∧
      .began 0 ∈ (toolMachine.play (toolStart (fun _ => approvedCall) crashedWorld)
        (resumeSteps 1 3 ++ resumeSteps 0 7 ++ resumeSteps 1 4)).world.trace ∧
      .ended 0 ∉ (toolMachine.play (toolStart (fun _ => approvedCall) crashedWorld)
        (resumeSteps 1 3 ++ resumeSteps 0 7 ++ resumeSteps 1 4)).world.trace ∧
      .began 1 ∈ (toolMachine.play (toolStart (fun _ => approvedCall) crashedWorld)
        (resumeSteps 1 3 ++ resumeSteps 0 7 ++ resumeSteps 1 4)).world.trace := by
  decide +kernel

end Gnldev.Durable
