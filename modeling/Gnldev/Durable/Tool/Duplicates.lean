import Gnldev.Durable.Tool.Finality

/-!
# The guard against duplicates

Calls with the same arguments, under different ids, share a marker. A call wins it before
it runs the tool, and completes it after its success; a call that finds it completed, or
in flight, does not run. The record of a success and the completion of the marker are two
writes, and a marker in flight whose time is over can be taken over: a call that stops
between the two leaves a success that the marker does not tell of.

* `one_success`: at most one of the calls succeeds in a run in which the marker is won
  only while no other call has succeeded, and a recovered success is recorded only while
  the marker is in flight for its call;
* `careful_of_told`: the look-ups of the calls see to the first, where the marker tells of
  each success;
* `two_successes`: the crash between the two writes.
-/

open List

namespace Gnldev.Durable

open Function

variable {V : Type}

/-- Calls in mode `call` of a tool with side effects that share the marker `D`, and are not
    to run beside each other; a record belongs to one id. -/
structure DupFamily (calls : ℕ → ToolCall) (D : JsString) : Prop where
  mode : ∀ i, (calls i).argsMode = false
  marker : ∀ i, (calls i).dupKey = .ok (some D)
  action : ∀ i, (calls i).dupCfg.action ∈ [DupAction.block, .suspend, .skip, .reflect]
  ttlMs : ∀ i, (calls i).dupCfg.ttlMs = none
  unapproved : ∀ i, (calls i).ctx.approvals (calls i).toolCallId ≠ some true
  keys : ∀ i j, (calls i).key = (calls j).key ↔ (calls i).toolCallId = (calls j).toolCallId

/-- Where a call in mode `call` keeps its record. -/
def ToolCall.ownKey (c : ToolCall) : JsString := runKeys.tool c.ctx.runId c.toolCallId

/-- The ids of the calls that have recorded a success. -/
def successes (calls : ℕ → ToolCall) (es : List (ToolEvent V)) : List JsString :=
  es.filterMap fun
    | .wrote _ i r => if r.isSucceeded then some (calls i).toolCallId else none
    | _ => none

/-- The times of the markers that the call `i` has won. -/
def marksOf (D : JsString) (i : ℕ) (es : List (ToolEvent V)) : List Int :=
  es.filterMap fun
    | .marked k j t => if k = D ∧ j = i then some t else none
    | _ => none

/-- Every operation of a call that has won the marker is made in time. The marker's time is
    read from the clock after the claim's. -/
def MarksInTime (D : JsString) (ttl : Int) (w : ToolWorld V) (i : ℕ) (o : ToolOp V) (_ : o.Res) :
    Prop :=
  ∀ t ∈ marksOf D i w.trace, w.clock - t ≤ ttl

/-- The marker is won while no other call has succeeded, and a recovered success is recorded
    while the marker is in flight for its call. -/
def MarksWithCare (calls : ℕ → ToolCall) (D : JsString) (w : ToolWorld V) (i : ℕ) :
    (o : ToolOp V) → o.Res → Prop
  | .dup (.putIfAbsent _ m), .ok won =>
    won = true → m.inFlight = true → ∀ x ∈ successes calls w.trace, x = (calls i).toolCallId
  | .dup (.putIfMatch _ _ m), .ok won =>
    won = true → m.inFlight = true → ∀ x ∈ successes calls w.trace, x = (calls i).toolCallId
  | .rec_ .recovered (.put _ _), .ok _ =>
    ∃ m ∈ w.dups.val D, m.inFlight = true ∧ m.firstToolCallId = (calls i).toolCallId
  | _, _ => True

/-- At most one of the calls ever has a success under its key. -/
def OneSuccess [DecidableEq V] (calls : ℕ → ToolCall)
    (c : Conf (ToolOp V) ToolOp.Res (Except ToolError (Out V)) (ToolWorld V))
    (ms : List (Move (ToolAnswer V) ℕ)) : Prop :=
  ∀ n m i j, (toolMachine.play c (ms.take n)).world.succeededAt (calls i).ownKey = true →
    (toolMachine.play c (ms.take m)).world.succeededAt (calls j).ownKey = true →
    (calls i).toolCallId = (calls j).toolCallId

variable {calls : ℕ → ToolCall} {D : JsString}

theorem DupFamily.key (h : DupFamily calls D) (i : ℕ) :
    (calls i).key = .ok (calls i).ownKey := by
  rw [ToolCall.key, h.mode i]
  rfl

theorem DupFamily.marker_eq (h : DupFamily calls D) (i : ℕ) :
    (calls i).marker = some D := (ToolCall.eq_marker _ (h.marker i)).symm

theorem DupFamily.ownKey_inj (h : DupFamily calls D) {i j : ℕ}
    (hij : (calls i).ownKey = (calls j).ownKey) :
    (calls i).toolCallId = (calls j).toolCallId := by
  rw [← h.keys i j, h.key i, h.key j, hij]

/-! ## What the calls know -/

/-- What the call with this id knows: `S` are the ids with a success, `T` the times of its
    markers. -/
structure Knows (S : List JsString) (T : List Int) (clock : Int) (id : JsString) (s : Local V) :
    Prop where
  marked : ∀ t, s.marked = some t → t ∈ T
  time : ∀ t, s.time = some t → t ≤ clock
  succeeded : s.succeeded = true → id ∈ S
  known : ∀ r ∈ s.known, r.isSucceeded = true → id ∈ S
  marks : ∀ m ∈ s.marks, m.completed = true → m.firstToolCallId ∈ S

theorem Knows.mono {S S' : List JsString} {T T' : List Int} {clock clock' : Int} {id : JsString}
    {s : Local V} (h : Knows S T clock id s) (hS : ∀ x ∈ S, x ∈ S') (hT : ∀ t ∈ T, t ∈ T')
    (hclock : clock ≤ clock') : Knows S' T' clock' id s where
  marked t ht := hT t (h.marked t ht)
  time t ht := Int.le_trans (h.time t ht) hclock
  succeeded hs := hS id (h.succeeded hs)
  known r hr hs := hS id (h.known r hr hs)
  marks m hm hd := hS _ (h.marks m hm hd)

/-- What all the calls know. -/
structure KnowInv (calls : ℕ → ToolCall) (D : JsString) (w : ToolWorld V) (ph : ℕ → Local V) :
    Prop where
  knows : ∀ i, Knows (successes calls w.trace) (marksOf D i w.trace) w.clock (calls i).toolCallId
    (ph i)
  current : ∀ i, w.succeededAt (calls i).ownKey = true →
    (calls i).toolCallId ∈ successes calls w.trace

theorem KnowInv.init {w : ToolWorld V} (hrecs : ∀ i, w.succeededAt (calls i).ownKey = false) :
    KnowInv calls D w fun _ => Local.init := by
  refine ⟨fun i => ⟨?_, ?_, ?_, ?_, ?_⟩, fun i hi => ?_⟩
  · exact fun t ht => absurd ht (by simp [Local.init])
  · exact fun t ht => absurd ht (by simp [Local.init])
  · exact fun hs => absurd hs (by simp [Local.init])
  · exact fun r hr => absurd hr (by simp [Local.init])
  · exact fun m hm => absurd hm (by simp [Local.init])
  · exact absurd ((hrecs i).symm.trans hi) Bool.false_ne_true

/-- The marker is held for the call with this id, which has won it at the time `t`. -/
def MarkedBy (D id : JsString) (t : Int) (w : ToolWorld V) : Prop :=
  ∃ m, w.dups.val D = some m ∧ m.firstToolCallId = id ∧ m.released = false ∧
    (m.inFlight = true → m.at_ = t)

/-- The marker, the successes, and the calls that hold the marker in time. -/
structure MarkerInv (calls : ℕ → ToolCall) (D : JsString) (ttl : Int) (w : ToolWorld V)
    (ph : ℕ → Local V) : Prop where
  /-- While a call is in flight, no other one has succeeded. -/
  flying : ∀ m, w.dups.val D = some m → m.inFlight = true →
    ∀ x ∈ successes calls w.trace, x = m.firstToolCallId
  complete : ∀ m, w.dups.val D = some m → m.completed = true →
    m.firstToolCallId ∈ successes calls w.trace
  holder : ∀ i t, (ph i).marked = some t → w.clock - t ≤ ttl →
    MarkedBy D (calls i).toolCallId t w ∧
      ∀ x ∈ successes calls w.trace, x = (calls i).toolCallId
  alone : ∀ i j t u, (ph i).marked = some t → w.clock - t ≤ ttl → (ph j).marked = some u →
    w.clock - u ≤ ttl → i = j
  one : ∀ x ∈ successes calls w.trace, ∀ y ∈ successes calls w.trace, x = y

namespace MarkerInv

variable {calls : ℕ → ToolCall} {D : JsString} {ttl : Int} {w w' : ToolWorld V}
  {ph : ℕ → Local V} {i : ℕ} {s : Local V}

theorem init (hw : w.trace = []) (hD : w.dups.val D = none) :
    MarkerInv calls D ttl w fun _ => Local.init := by
  refine ⟨?_, ?_, ?_, ?_, ?_⟩
  · exact fun m hm => absurd (hD.symm.trans hm) (by simp)
  · exact fun m hm => absurd (hD.symm.trans hm) (by simp)
  · exact fun i t ht => absurd ht (by simp [Local.init])
  · exact fun i j t u ht => absurd ht (by simp [Local.init])
  · rw [hw, successes, filterMap_nil]
    exact fun x hx => absurd hx not_mem_nil

/-- Nothing happens to the marker, and nobody succeeds. -/
theorem frame (h : MarkerInv calls D ttl w ph) (hdups : w'.dups.val D = w.dups.val D)
    (hclock : w'.clock = w.clock) (hS : successes calls w'.trace = successes calls w.trace)
    (hs : s.marked = (ph i).marked) : MarkerInv calls D ttl w' (update ph i s) := by
  have hmarked : ∀ j, (update ph i s j).marked = (ph j).marked :=
    (forall_update_iff ph fun j s => s.marked = (ph j).marked).2 ⟨hs, fun _ _ => rfl⟩
  refine ⟨?_, ?_, fun j t hj hlive => ?_, fun j k t u hj hlj hk hlk => ?_, ?_⟩
  · rw [hdups, hS]
    exact h.flying
  · rw [hdups, hS]
    exact h.complete
  · rw [hmarked] at hj
    rw [hclock] at hlive
    rw [MarkedBy, hdups, hS]
    exact h.holder j t hj hlive
  · rw [hmarked] at hj hk
    rw [hclock] at hlj hlk
    exact h.alone j k t u hj hlj hk hlk
  · rw [hS]
    exact h.one

theorem tick (h : MarkerInv calls D ttl w ph) (n : ℕ) :
    MarkerInv calls D ttl { w with clock := w.clock + n } ph := by
  have hback : ∀ t : Int, w.clock + n - t ≤ ttl → w.clock - t ≤ ttl := fun t ht => by omega
  exact ⟨h.flying, h.complete, fun j t hj hlive => h.holder j t hj (hback t hlive),
    fun j k t u hj hlj hk hlk => h.alone j k t u hj (hback t hlj) hk (hback u hlk), h.one⟩

/-- Where the marker can be won, nobody holds it in time. -/
theorem free (h : MarkerInv calls D ttl w ph)
    (hfree : ∀ m, w.dups.val D = some m →
      m.released = true ∨ (m.inFlight = true ∧ ttl < w.clock - m.at_)) {j : ℕ} {t : Int}
    (hj : (ph j).marked = some t) : ttl < w.clock - t := by
  by_contra hlive
  obtain ⟨⟨m, hm, -, hrel, hat⟩, -⟩ := h.holder j t hj (by omega)
  rcases hfree m hm with hm | ⟨hfl, hdead⟩
  · rw [hrel] at hm
    cases hm
  · rw [hat hfl] at hdead
    omega

/-- The marker is won. -/
theorem win (h : MarkerInv calls D ttl w ph)
    (hfree : ∀ m, w.dups.val D = some m →
      m.released = true ∨ (m.inFlight = true ∧ ttl < w.clock - m.at_))
    (hS : ∀ x ∈ successes calls w.trace, x = (calls i).toolCallId) (t : Int)
    (hs : s.marked = some t) :
    MarkerInv calls D ttl (w.claimDup i D ⟨(calls i).toolCallId, t, false, true, false⟩)
      (update ph i s) := by
  have hval : (w.claimDup i D ⟨(calls i).toolCallId, t, false, true, false⟩).dups.val D =
      some ⟨(calls i).toolCallId, t, false, true, false⟩ := Kv.set_val_self _ _ _ _ _
  have honly : ∀ j u, (update ph i s j).marked = some u → w.clock - u ≤ ttl → j = i := by
    intro j u hj hlive
    by_contra hji
    rw [update_of_ne hji] at hj
    have := h.free hfree hj
    omega
  refine ⟨fun m hm _ => ?_, fun m hm hdone => ?_, fun j u hj hlive => ?_,
    fun j k u v hj hlj hk hlk => ?_, h.one⟩
  · rw [hval] at hm
    cases hm
    exact hS
  · rw [hval] at hm
    cases hm
    cases hdone
  · obtain rfl := honly j u hj hlive
    rw [update_self, hs] at hj
    cases hj
    exact ⟨⟨_, hval, rfl, rfl, fun _ => rfl⟩, hS⟩
  · rw [honly j u hj hlj, honly k v hk hlk]

/-- The marker is replaced by a completed one, of a call that has succeeded. -/
theorem completed (h : MarkerInv calls D ttl w ph) {m' : DupMarker} (hdone : m'.completed = true)
    (hmem : m'.firstToolCallId ∈ successes calls w.trace) :
    MarkerInv calls D ttl (w.putDup i D m') (update ph i (ph i)) := by
  have hval : (w.putDup i D m').dups.val D = some m' := Kv.set_val_self _ _ _ _ _
  rw [DupMarker.completed, Bool.and_eq_true, Bool.not_eq_true', Bool.not_eq_true'] at hdone
  rw [update_eq_self]
  refine ⟨fun m hm hfl => ?_, fun m hm _ => ?_, fun j t hj hlive => ?_, h.alone, h.one⟩
  · rw [hval] at hm
    cases hm
    rw [hdone.2] at hfl
    cases hfl
  · rw [hval] at hm
    cases hm
    exact hmem
  · obtain ⟨-, hS⟩ := h.holder j t hj hlive
    refine ⟨⟨m', hval, hS _ hmem, hdone.1, fun hfl => ?_⟩, hS⟩
    rw [hdone.2] at hfl
    cases hfl

/-- The holder gives the marker back. -/
theorem release (h : MarkerInv calls D ttl w ph) {t : Int} (ht : (ph i).marked = some t)
    (hlive : w.clock - t ≤ ttl) {m' : DupMarker} (hrel : m'.released = true)
    (hfl : m'.inFlight = false) (hs : s.marked = none) :
    MarkerInv calls D ttl (w.putDup i D m') (update ph i s) := by
  have hval : (w.putDup i D m').dups.val D = some m' := Kv.set_val_self _ _ _ _ _
  have hnobody : ∀ j u, (update ph i s j).marked = some u → ¬w.clock - u ≤ ttl := by
    intro j u hj hlj
    by_cases hji : j = i
    · rw [hji, update_self, hs] at hj
      cases hj
    · rw [update_of_ne hji] at hj
      exact hji (h.alone j i u t hj hlj ht hlive)
  refine ⟨fun m hm hm' => ?_, fun m hm hdone => ?_, fun j u hj hlj => ?_,
    fun j k u v hj hlj => ?_, h.one⟩
  · rw [hval] at hm
    cases hm
    rw [hfl] at hm'
    cases hm'
  · rw [hval] at hm
    cases hm
    rw [DupMarker.completed, hrel] at hdone
    cases hdone
  · exact absurd hlj (hnobody j u hj)
  · exact absurd hlj (hnobody j u hj)

/-- A call may succeed: it has done so before, or nobody else has and the marker names it. -/
def MaySucceedAt (calls : ℕ → ToolCall) (D : JsString) (w : ToolWorld V) (i : ℕ) : Prop :=
  (calls i).toolCallId ∈ successes calls w.trace ∨
    (∀ x ∈ successes calls w.trace, x = (calls i).toolCallId) ∧
      ∃ m, w.dups.val D = some m ∧ m.firstToolCallId = (calls i).toolCallId

/-- A call succeeds that may. -/
theorem succeed (h : MarkerInv calls D ttl w ph) (hmay : MaySucceedAt calls D w i)
    (hdups : w'.dups.val D = w.dups.val D) (hclock : w'.clock = w.clock)
    (hS : successes calls w'.trace = (calls i).toolCallId :: successes calls w.trace)
    (hs : s.marked = (ph i).marked) : MarkerInv calls D ttl w' (update ph i s) := by
  have hmarked : ∀ j, (update ph i s j).marked = (ph j).marked :=
    (forall_update_iff ph fun j s => s.marked = (ph j).marked).2 ⟨hs, fun _ _ => rfl⟩
  refine ⟨fun m hm hfl x hx => ?_, fun m hm hdone => ?_, fun j t hj hlive => ?_,
    fun j k t u hj hlj hk hlk => ?_, fun x hx y hy => ?_⟩
  · rw [hdups] at hm
    rw [hS] at hx
    rcases mem_cons.1 hx with rfl | hx
    · rcases hmay with hmem | ⟨-, m', hm', hfirst⟩
      · exact h.flying m hm hfl _ hmem
      · rw [hm] at hm'
        cases hm'
        exact hfirst.symm
    · exact h.flying m hm hfl x hx
  · rw [hdups] at hm
    rw [hS]
    exact .tail _ (h.complete m hm hdone)
  · rw [hmarked] at hj
    rw [hclock] at hlive
    obtain ⟨hheld, hothers⟩ := h.holder j t hj hlive
    rw [MarkedBy, hdups, hS]
    refine ⟨hheld, fun x hx => ?_⟩
    rcases mem_cons.1 hx with rfl | hx
    · rcases hmay with hmem | ⟨-, m', hm', hfirst⟩
      · exact hothers _ hmem
      · obtain ⟨m, hm, hid, -⟩ := hheld
        rw [hm] at hm'
        cases hm'
        exact hfirst.symm.trans hid
    · exact hothers x hx
  · rw [hmarked] at hj hk
    rw [hclock] at hlj hlk
    exact h.alone j k t u hj hlj hk hlk
  · rw [hS] at hx hy
    have hall : ∀ z ∈ (calls i).toolCallId :: successes calls w.trace,
        z = (calls i).toolCallId := by
      intro z hz
      rcases mem_cons.1 hz with rfl | hz
      · rfl
      · rcases hmay with hmem | ⟨hothers, -⟩
        · exact h.one z hz _ hmem
        · exact hothers z hz
    rw [hall x hx, hall y hy]

end MarkerInv

/-! ## The step -/

section Step

variable {calls : ℕ → ToolCall} {D : JsString} {ttl : Int} {w w' : ToolWorld V} {ph : ℕ → Local V}
  {i : ℕ} {s' : Local V} {o : ToolOp V} {r : o.Res}

theorem successes_wrote (calls : ℕ → ToolCall) (k : JsString) (i : ℕ) (r : ToolRecord V)
    (es : List (ToolEvent V)) :
    successes calls (.wrote k i r :: es) =
      if r.isSucceeded then (calls i).toolCallId :: successes calls es else successes calls es := by
  by_cases h : r.isSucceeded = true
  · rw [if_pos h, successes, filterMap_cons]
    simp only [h, if_true]
    rfl
  · rw [if_neg h, successes, filterMap_cons]
    simp only [h, Bool.false_eq_true, if_false]
    rfl

/-- A put success is one of a call that may succeed. -/
theorem maySucceedAt_of_put (hfam : DupFamily calls D) (hknow : KnowInv calls D w ph)
    (hmark : MarkerInv calls D ttl w ph) {site : Site V} {v : Stored V} (hsite : site ≠ .mirror)
    (hput : AllowedPut (calls i) (calls i).ownKey (some D) (ph i) (calls i).ownKey v site)
    (htime : MarksInTime D ttl w i (.rec_ site (.put (calls i).ownKey v)) (.ok ()))
    (hok : MarksWithCare calls D w i (.rec_ site (.put (calls i).ownKey v)) (.ok ()))
    (hv : v.record.isSucceeded = true) : MarkerInv.MaySucceedAt calls D w i := by
  cases site with
  | terminal =>
    rcases (hput.2.2 hv).2 rfl with happ | hwarn | hmarked
    · exact absurd happ (hfam.unapproved i)
    · have haction := hfam.action i
      rw [hwarn] at haction
      simp at haction
    · obtain ⟨t, ht⟩ := Option.isSome_iff_exists.1 hmarked
      obtain ⟨⟨m, hm, hid, -⟩, hothers⟩ :=
        hmark.holder i t ht (htime t ((hknow.knows i).marked t ht))
      exact .inr ⟨hothers, m, hm, hid⟩
  | recovered =>
    obtain ⟨m, hm, hfl, hid⟩ := hok
    refine .inr ⟨fun x hx => ?_, m, hm, hid⟩
    rw [hmark.flying m hm hfl x hx, hid]
  | track base =>
    obtain ⟨-, -, hbase, rfl⟩ := hput
    refine .inl ((hknow.knows i).known base hbase ?_)
    cases base <;> first | rfl | exact hv
  | mirror => exact absurd rfl hsite
  | _ => exact hput.elim

/-- A marker that is taken over has been given back, or its time is over. -/
theorem free_of_takeable (hfam : DupFamily calls D) (httl : ∀ i, ttl ≤ (calls i).claimTtl)
    (hknow : KnowInv calls D w ph) {m : DupMarker} (htake : Takeable (calls i) (ph i) m) :
    m.released = true ∨ (m.inFlight = true ∧ ttl < w.clock - m.at_) := by
  rcases htake with hrel | httlMs | ⟨hfl, u, hu, hdead⟩
  · exact .inl hrel
  · rw [hfam.ttlMs i] at httlMs
    cases httlMs
  · have := (hknow.knows i).time u hu
    have := httl i
    exact .inr ⟨hfl, by omega⟩

/-- A call looks at the marker before it wins it. So if the marker tells of the successes of the other
    calls, completed or in flight in its time, the call wins it only while there are none. -/
theorem careful_of_told (hfam : DupFamily calls D) (httl : ∀ i, ttl ≤ (calls i).claimTtl)
    (hknow : KnowInv calls D w ph)
    (hdoes : Does (calls i) (calls i).ownKey (some D) i w (ph i) o r w' s')
    (hbefore : (ph i).marked = none) (hafter : s'.marked.isSome = true)
    (htold : ∀ x ∈ successes calls w.trace, x ≠ (calls i).toolCallId → ∃ m, w.dups.val D = some m ∧
      m.released = false ∧ (m.inFlight = true → w.clock - m.at_ ≤ ttl)) :
    ∀ x ∈ successes calls w.trace, x = (calls i).toolCallId := by
  intro x hx
  by_contra hne
  obtain ⟨m, hm, hheld, hlive⟩ := htold x hx hne
  have hkeeps : ¬(m.released = true ∨ (m.inFlight = true ∧ ttl < w.clock - m.at_)) := by
    rintro (hrel | ⟨hfl, hdead⟩)
    · rw [hheld] at hrel
      cases hrel
    · have := hlive hfl
      omega
  cases hdoes with
  | mark k t hk hfree =>
    cases hk
    rw [hfree] at hm
    cases hm
  | remark k e t hk hval _ _ htake =>
    cases hk
    rw [hval] at hm
    cases hm
    exact hkeeps (free_of_takeable hfam httl hknow htake)
  | read site =>
    rw [(Local.grows_learn (o := .rec_ site (.get (calls i).ownKey)) trivial _).marked, hbefore] at hafter
    cases hafter
  | release => cases hafter
  | _ =>
    rw [hbefore] at hafter
    cases hafter

theorem MarkerInv.step (hfam : DupFamily calls D) (httl : ∀ i, ttl ≤ (calls i).claimTtl)
    (hknow : KnowInv calls D w ph) (hmark : MarkerInv calls D ttl w ph)
    (hdoes : Does (calls i) (calls i).ownKey (some D) i w (ph i) o r w' s')
    (htime : MarksInTime D ttl w i o r) (hok : MarksWithCare calls D w i o r) :
    MarkerInv calls D ttl w' (update ph i s') := by
  cases hdoes with
  | idle _ _ _ _ _ hdups hclock htrace =>
    refine hmark.frame ?_ hclock ?_ rfl
    · rw [hdups]
    · rw [htrace]
  | read site =>
    exact hmark.frame rfl rfl rfl
      (Local.grows_learn (o := .rec_ site (.get (calls i).ownKey)) trivial _).marked
  | put site v hsite hput =>
    by_cases hv : v.record.isSucceeded = true
    · refine hmark.succeed (maySucceedAt_of_put hfam hknow hmark hsite hput htime hok hv) rfl rfl
        ?_ rfl
      rw [ToolWorld.putRec, successes_wrote, if_pos hv]
    · refine hmark.frame rfl rfl ?_ rfl
      rw [ToolWorld.putRec, successes_wrote, if_neg hv]
  | mirror k v _ hkey => exact absurd (tool_startsWith _ _) hkey
  | mark k t hk hfree =>
    cases hk
    refine hmark.win (fun m hm => ?_) (hok rfl rfl) t rfl
    rw [hfree] at hm
    cases hm
  | remark k e t hk hval _ _ htake =>
    cases hk
    refine hmark.win (fun m hm => ?_) (hok rfl rfl) t rfl
    rw [hval] at hm
    cases hm
    exact free_of_takeable hfam httl hknow htake
  | complete k t o r hk hs =>
    cases hk
    exact hmark.completed rfl ((hknow.knows i).succeeded hs)
  | nudged k m hk hm hdone =>
    cases hk
    exact hmark.completed hdone ((hknow.knows i).marks m hm hdone)
  | release k t hk hm =>
    cases hk
    obtain ⟨u, hu⟩ := Option.isSome_iff_exists.1 hm
    exact hmark.release hu (htime u ((hknow.knows i).marked u hu)) rfl rfl rfl
  | _ => exact hmark.frame rfl rfl rfl rfl

theorem KnowInv.frame (h : KnowInv calls D w ph)
    (hS : ∀ x ∈ successes calls w.trace, x ∈ successes calls w'.trace)
    (hT : ∀ j, ∀ t ∈ marksOf D j w.trace, t ∈ marksOf D j w'.trace) (hclock : w.clock ≤ w'.clock)
    (hcur : ∀ j, w'.succeededAt (calls j).ownKey = true →
      w.succeededAt (calls j).ownKey = true ∨ (calls j).toolCallId ∈ successes calls w'.trace)
    (hs : Knows (successes calls w.trace) (marksOf D i w.trace) w.clock (calls i).toolCallId (ph i) →
      Knows (successes calls w'.trace) (marksOf D i w'.trace) w'.clock (calls i).toolCallId s') :
    KnowInv calls D w' (update ph i s') := by
  refine ⟨(forall_update_iff ph fun j s => Knows (successes calls w'.trace)
    (marksOf D j w'.trace) w'.clock (calls j).toolCallId s).2 ⟨hs (h.knows i), fun j _ => ?_⟩,
    fun j hj => ?_⟩
  · exact (h.knows j).mono hS (hT j) hclock
  · exact (hcur j hj).elim (fun hj => hS _ (h.current j hj)) fun hj => hj

/-- The record of a call is replaced by one that is no success. -/
theorem succeededAt_of_set {k : JsString} {v : Stored V} {t : Int}
    (hv : v.record.isSucceeded = false) (hrecs : w'.recs = w.recs.set i t k v) {k' : JsString}
    (hk : w'.succeededAt k' = true) : w.succeededAt k' = true := by
  rw [ToolWorld.succeededAt, ToolWorld.recordAt, hrecs] at hk
  by_cases hkk : k' = k
  · rw [hkk, Kv.set_val_self, Option.map_some, Option.any_some, hv] at hk
    cases hk
  · rw [Kv.set_val_of_ne _ _ _ _ hkk] at hk
    exact hk

/-- The call reads its record. -/
theorem Knows.read {S : List JsString} {T : List Int} {clock : Int} {id key : JsString} {c : ToolCall}
    {s : Local V} (h : Knows S T clock id s) (hcur : w.succeededAt key = true → id ∈ S)
    (site : Site V) :
    Knows S T clock id (s.learn c (.rec_ site (.get key)) (.ok (w.recs.val key))) := by
  have hsaw : Knows S T clock id (s.saw c (w.recs.val key)) := by
    rw [ToolWorld.succeededAt, ToolWorld.recordAt] at hcur
    cases hval : w.recs.val key with
    | none => exact h
    | some x =>
      rw [hval] at hcur
      refine ⟨h.marked, h.time, h.succeeded, fun r hr hs => ?_, h.marks⟩
      rcases mem_cons.1 hr with rfl | hr
      · exact hcur hs
      · exact h.known r hr hs
  cases site with
  | takeover => exact ⟨hsaw.marked, hsaw.time, hsaw.succeeded, hsaw.known, hsaw.marks⟩
  | _ => exact hsaw

/-- The call puts a record. -/
theorem Knows.put {S S' : List JsString} {T : List Int} {clock : Int} {id : JsString} {s : Local V}
    (h : Knows S T clock id s) (hS : ∀ x ∈ S, x ∈ S') {r : ToolRecord V}
    (hr : r.isSucceeded = true → id ∈ S') :
    Knows S' T clock id
      { s with known := r :: s.known, succeeded := s.succeeded || r.isSucceeded } := by
  refine ⟨h.marked, h.time, fun hs => ?_, fun x hx hs => ?_, fun m hm hd => hS _ (h.marks m hm hd)⟩
  · rcases Bool.or_eq_true_iff.1 hs with hs | hs
    · exact hS _ (h.succeeded hs)
    · exact hr hs
  · rcases mem_cons.1 hx with rfl | hx
    · exact hr hs
    · exact hS _ (h.known x hx hs)

theorem mem_marksOf_cons {e : ToolEvent V} {es : List (ToolEvent V)} {j : ℕ} {t : Int}
    (h : t ∈ marksOf D j es) : t ∈ marksOf D j (e :: es) := by
  obtain ⟨e', he', ht⟩ := mem_filterMap.1 h
  exact mem_filterMap.2 ⟨e', .tail _ he', ht⟩

theorem mem_successes_cons {e : ToolEvent V} {es : List (ToolEvent V)} {x : JsString}
    (h : x ∈ successes calls es) : x ∈ successes calls (e :: es) := by
  obtain ⟨e', he', hx⟩ := mem_filterMap.1 h
  exact mem_filterMap.2 ⟨e', .tail _ he', hx⟩

theorem KnowInv.step (hfam : DupFamily calls D) (h : KnowInv calls D w ph)
    (hdone : ∀ m, w.dups.val D = some m → m.completed = true →
      m.firstToolCallId ∈ successes calls w.trace)
    (hdoes : Does (calls i) (calls i).ownKey (some D) i w (ph i) o r w' s') :
    KnowInv calls D w' (update ph i s') := by
  have hwin : ∀ {t : Int} {n : ℕ}, KnowInv calls D (w.claimRec i (calls i).ownKey t n)
      (update ph i { ph i with claimed := some t }) := fun {t n} =>
    h.frame (fun x hx => mem_successes_cons hx) (fun j u hu => mem_marksOf_cons hu) (Int.le_refl _)
      (fun j hj => .inl (succeededAt_of_set rfl rfl hj))
      fun hk => ⟨hk.marked, hk.time, hk.succeeded, hk.known, hk.marks⟩
  have hmark : ∀ {m : DupMarker} {t : Int}, m.at_ = t → KnowInv calls D (w.claimDup i D m)
      (update ph i { ph i with marked := some t }) := by
    intro m t ht
    refine h.frame (fun x hx => mem_successes_cons hx) (fun j u hu => mem_marksOf_cons hu)
      (Int.le_refl _) (fun j hj => .inl hj) fun hk => ⟨fun u hu => ?_, hk.time,
        fun hs => mem_successes_cons (hk.succeeded hs), fun x hx hs =>
          mem_successes_cons (hk.known x hx hs), fun m hm hd => mem_successes_cons (hk.marks m hm hd)⟩
    cases hu
    refine mem_filterMap.2 ⟨_, .head _, ?_⟩
    rw [ht]
    exact if_pos ⟨rfl, rfl⟩
  cases hdoes with
  | idle _ _ w' _ hrecs _ hclock htrace =>
    refine h.frame (fun x hx => htrace ▸ hx) (fun j t ht => htrace ▸ ht) (Int.le_of_eq hclock.symm)
      (fun j hj => .inl ?_) fun hk => by rwa [htrace, hclock]
    rwa [ToolWorld.succeededAt, recordAt_of_recs hrecs] at hj
  | now =>
    refine h.frame (fun x hx => hx) (fun j t ht => ht) (Int.le_refl _) (fun j hj => .inl hj)
      fun hk => ⟨hk.marked, fun t ht => ?_, hk.succeeded, hk.known, hk.marks⟩
    cases ht
    exact Int.le_refl _
  | read site =>
    exact h.frame (fun x hx => hx) (fun j t ht => ht) (Int.le_refl _) (fun j hj => .inl hj)
      fun hk => hk.read (h.current i) site
  | first site t => exact hwin
  | takeover site e t n => exact hwin
  | put site v hsite hput =>
    have hmore : v.record.isSucceeded = true → (calls i).toolCallId ∈
        successes calls (w.putRec i (calls i).ownKey v).trace := by
      intro hv
      rw [ToolWorld.putRec, successes_wrote, if_pos hv]
      exact .head _
    refine h.frame (fun x hx => mem_successes_cons hx) (fun j u hu => mem_marksOf_cons hu)
      (Int.le_refl _) (fun j hj => ?_) fun hk => hk.put (fun x hx => mem_successes_cons hx) hmore
    by_cases hv : v.record.isSucceeded = true
    · by_cases hji : (calls j).ownKey = (calls i).ownKey
      · rw [hfam.ownKey_inj hji]
        exact .inr (hmore hv)
      · rw [ToolWorld.succeededAt, recordAt_putRec_of_ne _ _ _ hji] at hj
        exact .inl hj
    · exact .inl (succeededAt_of_set (by simpa using hv) rfl hj)
  | mirror k v _ hkey => exact absurd (tool_startsWith _ _) hkey
  | readMarker k hk =>
    cases hk
    refine h.frame (fun x hx => hx) (fun j t ht => ht) (Int.le_refl _) (fun j hj => .inl hj)
      fun hk => ⟨hk.marked, hk.time, hk.succeeded, hk.known, fun m hm hd => ?_⟩
    rcases mem_append.1 hm with hm | hm
    · exact hdone m (Option.mem_toList.1 hm) hd
    · exact hk.marks m hm hd
  | mark k t hk =>
    cases hk
    exact hmark rfl
  | remark k e t hk =>
    cases hk
    exact hmark rfl
  | release k t hk hm =>
    exact h.frame (fun x hx => hx) (fun j t ht => ht) (Int.le_refl _) (fun j hj => .inl hj)
      fun hk => ⟨fun u hu => absurd hu (by simp), hk.time, hk.succeeded, hk.known, hk.marks⟩
  | _ =>
    exact h.frame (fun x hx => hx) (fun j t ht => ht) (Int.le_refl _) (fun j hj => .inl hj)
      fun hk => ⟨hk.marked, hk.time, hk.succeeded, hk.known, hk.marks⟩

end Step

/-! ## The run -/

section Run

variable [DecidableEq V] {calls : ℕ → ToolCall} {D : JsString} {ttl : Int}

/-- The calls of a family, on an empty marker and without successes, any number of them in
    any interleaving, with crashes anywhere. If every call that has won the marker keeps its
    time, the marker is won only while no other call has succeeded, and a recovered success is
    recorded only while the marker is in flight for its call, at most one of them succeeds. -/
theorem one_success (hfam : DupFamily calls D) (httl : ∀ i, ttl ≤ (calls i).claimTtl)
    (w : ToolWorld V) (hw : w.trace = []) (hD : w.dups.val D = none)
    (hrecs : ∀ i, w.succeededAt (calls i).ownKey = false) (ms : List (Move (ToolAnswer V) ℕ))
    (hms : toolMachine.Meets (fun w i o r => MarksInTime D ttl w i o r ∧
      MarksWithCare calls D w i o r) (toolStart calls w) ms) :
    OneSuccess calls (toolStart calls w) ms := by
  have hinv : ∀ n, ∃ ph, KnowInv calls D (toolMachine.play (toolStart calls w) (ms.take n)).world ph ∧
      MarkerInv calls D ttl (toolMachine.play (toolStart calls w) (ms.take n)).world ph := by
    intro n
    obtain ⟨ph, h, -⟩ := toolMachine_invariant hfam.key
      (J := fun w ph => KnowInv calls D w ph ∧ MarkerInv calls D ttl w ph)
      (fun w ph i o r w' s' h hdoes hok => by
        rw [hfam.marker_eq] at hdoes
        exact ⟨h.1.step hfam h.2.complete hdoes, h.2.step hfam httl h.1 hdoes hok.1 hok.2⟩)
      (fun w ph n h => ⟨⟨fun i => (h.1.knows i).mono (fun _ hx => hx) (fun _ ht => ht)
        (by simp only; omega), h.1.current⟩, h.2.tick n⟩)
      ⟨.init hrecs, .init hw hD⟩ (Machine.meets_take hms n)
    exact ⟨ph, h⟩
  have hlater : ∀ n m i, n ≤ m →
      (toolMachine.play (toolStart calls w) (ms.take n)).world.succeededAt (calls i).ownKey = true →
      (calls i).toolCallId ∈
        successes calls (toolMachine.play (toolStart calls w) (ms.take m)).world.trace := by
    intro n m i hnm hi
    obtain ⟨ph, hknow, -⟩ := hinv n
    refine toolMachine_persists hfam.key (P := fun w => (calls i).toolCallId ∈
      successes calls w.trace) ?_ (fun w n h => h) hms hnm (hknow.current i hi)
    intro w s j o r w' s' h hdoes _
    obtain ⟨e, he, hx⟩ := List.mem_filterMap.1 h
    exact List.mem_filterMap.2 ⟨e, hdoes.mem_trace he, hx⟩
  intro n m i j hi hj
  obtain ⟨ph, -, hmark⟩ := hinv (max n m)
  exact hmark.one _ (hlater n _ i (Nat.le_max_left n m) hi) _ (hlater m _ j (Nat.le_max_right n m) hj)

instance (w : ToolWorld V) (i : ℕ) (o : ToolOp V) (r : o.Res) :
    Decidable (MarksInTime D ttl w i o r) :=
  inferInstanceAs (Decidable (∀ t ∈ marksOf D i w.trace, w.clock - t ≤ ttl))

instance (w : ToolWorld V) (i : ℕ) (o : ToolOp V) (r : o.Res) :
    Decidable (MarksWithCare calls D w i o r) := by
  rcases o with ⟨site, o⟩ | o | _ | _ | _ | _ | _ | _
  · rcases site with _ | _ | _ | _ | _ | _ | _ | _ <;> rcases o with _ | _ | _ | _ <;> rcases r with _ | _ <;>
      dsimp only [MarksWithCare] <;> infer_instance
  · rcases o with _ | _ | _ | _ <;> rcases r with _ | _ <;> dsimp only [MarksWithCare] <;> infer_instance
  all_goals exact isTrue trivial

end Run

/-! ## Two calls with the same arguments -/

/-- A call in a run that blocks duplicates. -/
def blockingCall (toolCallId : JsString) : ToolCall :=
  { plainCall (js "r1") toolCallId with
    ctx := { plainCtx (js "r1") with limits := some ⟨some (.action .block), none, false⟩ } }

/-- Two calls of a run with the same arguments. -/
def blockingCalls : ℕ → ToolCall := twoCalls (blockingCall (js "a")) (blockingCall (js "b"))

/-- Their marker. -/
def blockingMarker : JsString := js "r1:proc:dup-pay-h"

theorem blockingCalls_family : DupFamily blockingCalls blockingMarker where
  mode := twoCalls_all (R := fun c => c.argsMode = false) rfl rfl
  marker := twoCalls_all (R := fun c => c.dupKey = .ok (some blockingMarker)) (by decide) (by decide)
  action := twoCalls_all (R := fun c => c.dupCfg.action ∈ [DupAction.block, .suspend, .skip, .reflect])
    (by decide) (by decide)
  ttlMs := twoCalls_all (R := fun c => c.dupCfg.ttlMs = none) rfl rfl
  unapproved := twoCalls_all (R := fun c => c.ctx.approvals c.toolCallId ≠ some true)
    (by decide) (by decide)
  keys i j := by
    rw [blockingCalls, twoCalls, twoCalls]
    split <;> split <;> decide

/-- The first call succeeds, and the second one is blocked. -/
theorem one_success_blocked :
    OneSuccess blockingCalls (toolStart blockingCalls (emptyWorld : ToolWorld ℕ))
      (plainSteps (.value 7) 0 18 ++ plainSteps (.value 7) 1 3) :=
  one_success blockingCalls_family (twoCalls_all (R := fun c => 30000 ≤ c.claimTtl) (by decide)
    (by decide)) emptyWorld rfl rfl (fun _ => rfl) _ (by decide +kernel)

/-- The first call stops after recording its success. When its marker's time is over, the
    second call takes the marker over, runs the tool and succeeds as well; every call has
    kept its time. -/
theorem two_successes :
    toolMachine.Meets (MarksInTime blockingMarker 30000)
        (toolStart blockingCalls (emptyWorld : ToolWorld ℕ))
        (plainSteps (.value 7) 0 13 ++ [.env 30001] ++ plainSteps (.value 7) 1 14) ∧
      ¬OneSuccess blockingCalls (toolStart blockingCalls (emptyWorld : ToolWorld ℕ))
        (plainSteps (.value 7) 0 13 ++ [.env 30001] ++ plainSteps (.value 7) 1 14) := by
  refine ⟨by decide +kernel, fun h => ?_⟩
  have hsame := h 28 28 0 1 (by decide +kernel) (by decide +kernel)
  exact absurd hsame (by decide)

end Gnldev.Durable
