import Gnldev.Events.Bus
import Gnldev.Lib.RelyGuarantee

/-!
# No event is skipped

Any number of emitters, pollers and operators on any topics and consumers. What a
consumer has marked stays marked, and a log only grows at its end (`Keeps`): so a
page a pass has seen through stays seen through, however the others move. A pass
is frozen at an event that is neither marked nor quarantined, and it persists its
cursor only while it is not frozen.

* `Covered`: the first `n` events of a topic are acked or quarantined for a consumer;
* `CursorInv`: they are, for `n` the persisted cursor;
* `AckInv`: an ack is that of an event for which a consumer's handler has returned;
* `delivery_covered`: the invariants hold after every run, and a quarantined event
  can be seen by `listDeadEvents`.
-/

open List

namespace Gnldev.Events

open Durable

variable {P : Type}

/-! ## The machine -/

/-- What the code outside the model answers at a call. -/
structure EvtAnswer where
  time : Int
  outcome : Except JsString Unit
  delay : Option ℚ
  id : JsString

/-- The work store with atomic operations, pages of `limit` records, and a world
    that does nothing by itself. -/
def evtMachine (limit : ℕ+) :
    Machine (EvtOp P) EvtOp.Res (WorkState P EvtValue) EvtAnswer Empty where
  exec i a
    | .work o, w => o.exec limit (.flag true) i a.time a.id w
    | .handler .., w => (a.outcome, w)
    | .retryDelay _, w => (a.delay, w)
    | .now, w => (a.time, w)
    | .randomUUID, w => (a.id, w)
  env e := e.elim

/-- The work store as the programs see it. -/
def evtStore : EvtStore P where
  append ns payload id := perform (.work (.append ns payload id))
  list ns cursor := perform (.work (.list ns cursor))
  get k := perform (.work (.get k))
  put k v := perform (.work (.put k v))
  ackOnce k := perform (.work (.ackOnce k))
  putIfMatch := some fun k e v => perform (.work (.putIfMatch k e v))

/-- A call on the bus. -/
inductive EvtCall (P : Type) where
  | emit (topic : JsString) (payload : P) (opts : EmitOptions)
  | poll (topic : JsString) (opts : ConsumerOptions) (fuel : ℕ)
  | retryDeadEvent (topic consumer eventId : JsString)

/-- The program of a call. -/
def EvtCall.prog [EmptyCollection P] : EvtCall P → EvtM P Unit
  | emit topic payload opts => do
    let _ ← Events.emit evtStore none topic payload opts
  | poll topic opts fuel => do
    let _ ← Events.poll evtStore topic opts fuel
  | retryDeadEvent topic consumer eventId => do
    let _ ← Events.retryDeadEvent evtStore topic consumer eventId

/-! ## What is known, and stays so -/

/-- A key is present. -/
def Has (key : JsString) (w : WorkState P EvtValue) : Prop := (w.kv.val key).isSome

/-- A key holds a dead-letter record. -/
def IsDead (key : JsString) (w : WorkState P EvtValue) : Prop :=
  (readDead (w.kv.val key)).isSome

/-- An event is done with, for a consumer: it is acked or has a dead-letter record. -/
def Done (topic consumer : JsString) (e : LogRecord P) (w : WorkState P EvtValue) : Prop :=
  Has (ackKey topic consumer e.id) w ∨ IsDead (deadKey topic consumer e.id) w

/-- The first `n` events of the topic are there, and done with. -/
def Covered (topic consumer : JsString) (n : ℕ) (w : WorkState P EvtValue) : Prop :=
  n ≤ (w.logs (logNsOf topic)).length ∧
    ∀ e ∈ (w.logs (logNsOf topic)).take n, Done topic consumer e w

/-- The persisted cursor of a consumer. -/
def persistedCursor (topic consumer : JsString) (w : WorkState P EvtValue) : ℕ :=
  (readCursor (w.kv.val (cursorKeyOf topic consumer))).getD 0

/-- Every consumer's cursor has only events behind it that are done with. -/
def CursorInv (w : WorkState P EvtValue) : Prop :=
  ∀ topic consumer, Covered topic consumer (persistedCursor topic consumer w) w

/-- What every step of every program does: logs only grow at their end, no key
    disappears, and a dead-letter record is only replaced by another. -/
structure Keeps (w w' : WorkState P EvtValue) : Prop where
  extends_ : w.Extends w'
  dead : ∀ k, family k = js "evtdead" → IsDead k w → IsDead k w'

/-- A part of a log that is there stays as it is. -/
theorem Keeps.take_eq {w w' : WorkState P EvtValue} (h : Keeps w w') {ns : JsString} {n : ℕ}
    (hn : n ≤ (w.logs ns).length) : (w'.logs ns).take n = (w.logs ns).take n := by
  obtain ⟨rest, hrest⟩ := h.extends_.logs ns
  rw [← hrest, take_append_of_le_length hn]

theorem Covered.keeps {topic consumer : JsString} {n : ℕ} {w w' : WorkState P EvtValue}
    (hw : Covered topic consumer n w) (h : Keeps w w') : Covered topic consumer n w' := by
  refine ⟨hw.1.trans (h.extends_.logs _).length_le, fun e he => ?_⟩
  rw [h.take_eq hw.1] at he
  exact (hw.2 e he).imp (h.extends_.keys _) (h.dead _ (by simp))

/-- The world with what the programs have performed. -/
abbrev Logged (P : Type) := WorkState P EvtValue × List (ℕ × Σ o : EvtOp P, o.Res)

/-- The handler of the call `i` has returned for an event of the topic. -/
def Returned (i : ℕ) (topic : JsString) (e : LogRecord P) (x : Logged P) : Prop :=
  e ∈ x.1.logs (logNsOf topic) ∧
    (i, ⟨.handler e.payload ⟨e.id, topic, (ownerOfName e.id).1⟩, .ok ()⟩) ∈ x.2

/-- The key is the ack of an event, for a consumer whose handler has returned for it. -/
def Handled (calls : ℕ → EvtCall P) (k : JsString) (x : Logged P) : Prop :=
  ∃ i topic opts fuel e, calls i = .poll topic opts fuel ∧ ackKey topic opts.name e.id = k ∧
    Returned i topic e x

/-- Every ack is put after the handler has returned. -/
def AckInv (calls : ℕ → EvtCall P) (x : Logged P) : Prop :=
  ∀ k, family k = js "evtack" → Has k x.1 → Handled calls k x

/-- The setting of the argument. -/
def evtRG (limit : ℕ+) (calls : ℕ → EvtCall P) :
    RG (EvtOp P) EvtOp.Res (Logged P) EvtAnswer Empty where
  M := (evtMachine limit).logged
  ok _ _ _ _ := True
  I x := CursorInv x.1 ∧ AckInv calls x
  G _ x x' := Keeps x.1 x'.1 ∧ x.2 <+: x'.2

section Kept

variable {limit : ℕ+} {calls : ℕ → EvtCall P} {topic consumer : JsString}

/-- What a step that only keeps cannot invalidate. -/
theorem kept_of {R : WorkState P EvtValue → Prop} (h : ∀ w w', Keeps w w' → R w → R w') :
    (evtRG limit calls).Kept fun x => R x.1 where
  step _ x x' _ _ hG hx := h x.1 x'.1 hG.1 hx
  env e := e.elim

theorem kept_has (k : JsString) : (evtRG limit calls).Kept fun x => Has k x.1 :=
  kept_of fun _ _ h hw => h.extends_.keys k hw

theorem kept_isDead {k : JsString} (hk : family k = js "evtdead") :
    (evtRG limit calls).Kept fun x => IsDead k x.1 :=
  kept_of fun _ _ h hw => h.dead k hk hw

theorem kept_done (e : LogRecord P) : (evtRG limit calls).Kept fun x => Done topic consumer e x.1 :=
  (kept_has _).or (kept_isDead (by simp))

theorem kept_covered (n : ℕ) : (evtRG limit calls).Kept fun x => Covered topic consumer n x.1 :=
  kept_of fun _ _ h hw => hw.keeps h

theorem kept_returned (i : ℕ) (e : LogRecord P) :
    (evtRG limit calls).Kept (Returned i topic e) where
  step _ _ _ _ _ hG hx := ⟨(hG.1.extends_.logs _).subset hx.1, hG.2.subset hx.2⟩
  env e := e.elim

theorem Handled.keeps {k : JsString} {x x' : Logged P} (hx : Handled calls k x)
    (h : Keeps x.1 x'.1) (hlog : x.2 <+: x'.2) : Handled calls k x' := by
  obtain ⟨i, topic, opts, fuel, e, hi, hk, he, hret⟩ := hx
  exact ⟨i, topic, opts, fuel, e, hi, hk, (h.extends_.logs _).subset he, hlog.subset hret⟩

end Kept

/-! ## Operations -/

/-- The operation puts only dead-letter records under `evtdead:`. -/
def KeepsDead (o : WorkOp P EvtValue) : Prop :=
  ∀ k v, o.writes (.flag true) = some (k, v) → family k = js "evtdead" →
    (readDead (some v)).isSome

/-- The operation puts nothing into a family. -/
def Spares (fam : JsString) (o : WorkOp P EvtValue) : Prop :=
  ∀ k v, o.writes (.flag true) = some (k, v) → family k ≠ fam

/-- The operation moves no cursor, acks no event, and puts only dead-letter records
    under `evtdead:`. -/
structure Legal (o : WorkOp P EvtValue) : Prop where
  cursor : Spares (js "evtcursor") o
  ack : Spares (js "evtack") o
  dead : KeepsDead o

/-- What an operation teaches. -/
def Learns : (o : WorkOp P EvtValue) → o.Res → WorkState P EvtValue → Prop
  | .get k, r, w =>
    (r.isSome → Has k w) ∧ (family k = js "evtdead" → (readDead r).isSome → IsDead k w)
  | .put k _, _, w => family k = js "evtdead" → IsDead k w
  | .ackOnce k, _, w => Has k w
  | .putIfMatch k _ _, r, w => r = true → family k = js "evtdead" → IsDead k w
  | .list ns cursor, page, w => (∀ e ∈ page.items, e ∈ w.logs ns) ∧
    ∀ next, page.nextCursor = some next →
      cursor.getD 0 ≤ next ∧ next ≤ (w.logs ns).length ∧
        (w.logs ns).take next = (w.logs ns).take (cursor.getD 0) ++ page.items
  | .append .., _, _ => True

section Operations

variable {limit : ℕ+} {i : ℕ} {t : Int} {genId : JsString} {w : WorkState P EvtValue}

variable {o : WorkOp P EvtValue}

theorem keeps_exec (ho : KeepsDead o) :
    Keeps w (o.exec limit (.flag true) i t genId w).2 := by
  refine ⟨o.exec_extends w, fun k hk hw => ?_⟩
  rcases o.exec_val w k with h | ⟨v, hv, h⟩
  · rwa [IsDead, h]
  · rw [IsDead, h]
    exact ho k v hv hk

theorem cursorInv_exec (ho : Spares (js "evtcursor") o) (hd : KeepsDead o) (hw : CursorInv w) :
    CursorInv (o.exec limit (.flag true) i t genId w).2 := by
  intro topic consumer
  have hcur : persistedCursor topic consumer (o.exec limit (.flag true) i t genId w).2 =
      persistedCursor topic consumer w := by
    rcases o.exec_val w (cursorKeyOf topic consumer) with h | ⟨v, hv, -⟩
    · rw [persistedCursor, h, persistedCursor]
    · exact absurd (by simp) (ho _ v hv)
  rw [hcur]
  exact (hw topic consumer).keeps (keeps_exec hd)

theorem learns_exec (ho : KeepsDead o) :
    Learns o (o.exec limit (.flag true) i t genId w).1 (o.exec limit (.flag true) i t genId w).2 := by
  cases o with
  | append ns payload id => trivial
  | list ns cursor =>
    refine ⟨fun e he => mem_of_mem_drop (mem_of_mem_take he), fun next hnext => ?_⟩
    obtain ⟨rfl, hlen, htake⟩ := take_nextCursor hnext
    exact ⟨Nat.le_add_right _ _, hlen, htake⟩
  | get k => exact ⟨fun h => h, fun _ h => h⟩
  | put k v =>
    intro hk
    have := ho k v rfl hk
    simpa [IsDead, WorkOp.exec] using this
  | ackOnce k =>
    simp only [WorkOp.exec]
    split
    · simp [Learns, Has]
    · next h => exact Option.isSome_iff_ne_none.2 h
  | putIfMatch k e v =>
    simp only [WorkOp.exec]
    split
    · intro _ hk
      have := ho k v rfl hk
      simpa [IsDead] using this
    · intro h
      cases h

theorem kept_learns {calls : ℕ → EvtCall P} (o : WorkOp P EvtValue) (r : o.Res) :
    (evtRG limit calls).Kept fun x => Learns o r x.1 := by
  cases o with
  | append ns payload id => exact RG.kept_const True
  | list ns cursor =>
    refine kept_of fun w w' h hw => ⟨fun e he => (h.extends_.logs ns).subset (hw.1 e he),
      fun next hnext => ?_⟩
    obtain ⟨hle, hlen, htake⟩ := hw.2 next hnext
    refine ⟨hle, hlen.trans (h.extends_.logs _).length_le, ?_⟩
    rw [h.take_eq hlen, h.take_eq (hle.trans hlen), htake]
  | get k =>
    exact .and (.imp _ (kept_has k)) (kept_of (R := fun w => family k = js "evtdead" →
      (readDead r).isSome → IsDead k w) fun _ _ h hw hk hr => h.dead k hk (hw hk hr))
  | put k v => exact kept_of fun _ _ h hw hk => h.dead k hk (hw hk)
  | ackOnce k => exact kept_has k
  | putIfMatch k e v => exact kept_of fun _ _ h hw hr hk => h.dead k hk (hw hr hk)

omit limit genId in
theorem cursorInv_set {topic consumer : JsString} {c : Option ℕ} (hI : CursorInv w)
    (hc : Covered topic consumer (c.getD 0) w) :
    Keeps w { w with kv := w.kv.set i t (cursorKeyOf topic consumer) (.cursor c) } ∧
      CursorInv { w with kv := w.kv.set i t (cursorKeyOf topic consumer) (.cursor c) } := by
  have hkeeps : Keeps w { w with kv := w.kv.set i t (cursorKeyOf topic consumer) (.cursor c) } := by
    refine ⟨w.extends_set .., fun k hk hw => ?_⟩
    have hne : k ≠ cursorKeyOf topic consumer := by
      rintro rfl
      rw [family_cursorKeyOf] at hk
      exact absurd hk (by decide)
    rwa [IsDead, Kv.set_val_of_ne _ _ _ _ hne]
  refine ⟨hkeeps, fun topic' consumer' => ?_⟩
  by_cases hk : cursorKeyOf topic' consumer' = cursorKeyOf topic consumer
  · obtain ⟨rfl, rfl⟩ := cursorKeyOf_injective hk
    rw [persistedCursor, Kv.set_val_self]
    exact hc.keeps hkeeps
  · rw [persistedCursor, Kv.set_val_of_ne _ _ _ _ hk]
    exact (hI topic' consumer').keeps hkeeps

variable {calls : ℕ → EvtCall P}

/-- An operation that acks nothing, or an event for which the handler has returned, and
    keeps the cursors over events that are done with. -/
theorem opSat_work {R : Logged P → Prop} (hd : KeepsDead o)
    (hc : ∀ x t genId, CursorInv x.1 → R x →
      CursorInv (o.exec limit (.flag true) i t genId x.1).2)
    (ha : ∀ x, R x → ∀ k v, o.writes (.flag true) = some (k, v) → family k = js "evtack" →
      Handled calls k x) :
    (evtRG limit calls).OpSat i (.work o) R fun r x => Learns o r x.1 := by
  intro x a hI hx _
  have hkeeps : Keeps x.1 (o.exec limit (.flag true) i a.time a.id x.1).2 := keeps_exec hd
  refine ⟨⟨hc x a.time a.id hI.1 hx, fun k hk hhas => ?_⟩, ⟨hkeeps, prefix_append _ _⟩,
    learns_exec hd⟩
  have hbefore : Handled calls k x := by
    rcases o.exec_val x.1 k with h | ⟨v, hv, -⟩
    · exact hI.2 k hk (by rwa [Has, ← h])
    · exact ha x hx k v hv hk
  exact hbefore.keeps hkeeps (prefix_append _ _)

variable {R : Logged P → Prop} (hR : (evtRG limit calls).Kept R)
include hR

/-- An operation on the work store. -/
theorem sat_work (ho : Legal o) :
    (perform (.work o)).Sat (evtRG limit calls) i R fun r x => R x ∧ Learns o r x.1 :=
  Prog.sat_perform hR (kept_learns o) (opSat_work ho.dead
    (fun _ _ _ hI _ => cursorInv_exec ho.cursor ho.dead hI)
    fun _ _ k v hv hk => absurd hk (ho.ack k v hv))

/-- A call of the code outside the model. -/
theorem sat_outside {o : EvtOp P} (ho : ∀ a w, ((evtMachine limit).exec i a o w).2 = w) :
    (perform o).Sat (evtRG limit calls) i R fun r x => R x ∧ (i, ⟨o, r⟩) ∈ x.2 := by
  refine Prog.sat_perform hR (fun r => ⟨fun _ _ _ _ _ hG hx => hG.2.subset hx, fun e => e.elim⟩) ?_
  intro x a hI _ _
  have hkeeps : Keeps x.1 x.1 := ⟨.refl x.1, fun _ _ h => h⟩
  simp only [evtRG, Machine.logged, ho a x.1]
  exact ⟨⟨hI.1, fun k hk hhas => (hI.2 k hk hhas).keeps hkeeps (prefix_append _ _)⟩,
    ⟨hkeeps, prefix_append _ _⟩, mem_append_right _ (mem_singleton_self _)⟩

/-- Moving a cursor over events that are done with. -/
theorem sat_putCursor {topic consumer : JsString} {c : Option ℕ}
    (hc : ∀ x, R x → Covered topic consumer (c.getD 0) x.1) :
    (evtStore.put (cursorKeyOf topic consumer) (.cursor c)).Sat (evtRG limit calls) i R
      fun _ x => R x := by
  have hfam : family (cursorKeyOf topic consumer) = js "evtcursor" := family_cursorKeyOf ..
  refine (Prog.sat_perform hR (kept_learns (.put _ _)) (opSat_work
    (o := .put (cursorKeyOf topic consumer) (.cursor c)) ?_
    (fun x t _ hI hx => (cursorInv_set (i := i) (t := t) hI (hc x hx)).2) ?_)).post fun _ _ _ h => h.1
  · rintro k v ⟨⟩ hk
    exact absurd (hfam.symm.trans hk) (by decide)
  · rintro x - k v ⟨⟩ hk
    exact absurd (hfam.symm.trans hk) (by decide)

/-- Acking an event for which the handler has returned. -/
theorem sat_ackOnce {topic consumer id : JsString}
    (hret : ∀ x, R x → Handled calls (ackKey topic consumer id) x) :
    (perform (.work (.ackOnce (ackKey topic consumer id)))).Sat (evtRG limit calls) i R
      fun r x => R x ∧ Learns (.ackOnce (ackKey topic consumer id)) r x.1 := by
  have hfam : family (ackKey topic consumer id) = js "evtack" := family_ackKey ..
  have hd : KeepsDead (P := P) (.ackOnce (ackKey topic consumer id)) := by
    rintro k v ⟨⟩ hk
    exact absurd (hfam.symm.trans hk) (by decide)
  refine Prog.sat_perform hR (kept_learns (.ackOnce _)) (opSat_work hd
    (fun _ _ _ hI _ => cursorInv_exec ?_ hd hI) ?_)
  · rintro k v ⟨⟩ hk
    exact absurd (hfam.symm.trans hk) (by decide)
  · rintro x hx k v ⟨⟩ -
    exact hret x hx

end Operations

/-! ## The programs -/

section Programs

theorem legal_read {o : WorkOp P EvtValue} (h : o.writes (.flag true) = none) : Legal o where
  cursor k v hv := by rw [h] at hv; cases hv
  ack k v hv := by rw [h] at hv; cases hv
  dead k v hv := by rw [h] at hv; cases hv

theorem legal_write {o : WorkOp P EvtValue} {fam k : JsString} {v : EvtValue}
    (h : o.writes (.flag true) = some (k, v)) (hk : family k = fam)
    (hfam : fam ∉ [js "evtcursor", js "evtack"])
    (hd : fam = js "evtdead" → (readDead (some v)).isSome) : Legal o := by
  subst hk
  have hwrite {k' v'} (hv : o.writes (.flag true) = some (k', v')) : k' = k ∧ v' = v := by
    simpa [h, eq_comm] using hv
  refine ⟨fun k' v' hv hc => ?_, fun k' v' hv ha => ?_, fun k' v' hv hk => ?_⟩
  · exact hfam (by simp [← hc, (hwrite hv).1])
  · exact hfam (by simp [← ha, (hwrite hv).1])
  · obtain ⟨rfl, rfl⟩ := hwrite hv
    exact hd hk

/-- A put into a family of other records. -/
theorem legal_put {fam k : JsString} {v : EvtValue} (hk : family k = fam)
    (hfam : fam ∉ [js "evtcursor", js "evtack", js "evtdead"]) :
    Legal (.put k v : WorkOp P EvtValue) := by
  simp only [mem_cons, not_mem_nil, or_false, not_or] at hfam
  exact legal_write rfl hk (by simp [hfam]) fun h => absurd h hfam.2.2

variable {limit : ℕ+} {calls : ℕ → EvtCall P} {i : ℕ} {R : Logged P → Prop}
  (hR : (evtRG limit calls).Kept R) {topic : JsString} {opts : ConsumerOptions}
include hR

theorem replace_sat {fam k : JsString} {expected : Option EvtValue} {v : EvtValue}
    (hk : family k = fam) (hfam : fam ∉ [js "evtcursor", js "evtack"])
    (hd : fam = js "evtdead" → (readDead (some v)).isSome) :
    (replace evtStore k expected v).Sat (evtRG limit calls) i R fun b x =>
      R x ∧ (b = true → family k = js "evtdead" → IsDead k x.1) := by
  cases expected with
  | none =>
    refine (sat_work hR (o := .put k v) (legal_write rfl hk hfam hd)).bind fun _ => ?_
    exact fun w _ h => ⟨h.1, fun _ => h.2⟩
  | some e => exact sat_work hR (o := .putIfMatch k e v) (legal_write rfl hk hfam hd)

theorem delayFor_sat (n : ℕ) : (delayFor n).Sat (evtRG limit calls) i R fun _ x => R x := by
  refine (sat_outside hR fun _ _ => rfl).bind fun raw => ?_
  cases raw with
  | none => exact fun x _ h => h.1
  | some raw => exact fun x _ h => h.1

/-- The pass is not frozen at the event: it was not before, and the event is done with. -/
def Passed (topic : JsString) (opts : ConsumerOptions) (e : LogRecord P) (frozen frozen' : Bool)
    (w : WorkState P EvtValue) : Prop :=
  frozen' = false → frozen = false ∧ Done topic opts.name e w

variable {e : LogRecord P} {frozen : Bool}

variable {attRaw : Option EvtValue}

theorem recordFailure_sat {freshRaw : Option EvtValue} {err : JsString} {now : Int} {n : ℕ} :
    (recordFailure evtStore topic opts e freshRaw attRaw err now n frozen).Sat
      (evtRG limit calls) i R
      fun f x => R x ∧ Passed topic opts e frozen f x.1 := by
  refine (delayFor_sat hR n).bind fun delay => ?_
  refine (replace_sat hR (family_attKey ..) (by decide) fun h => absurd h (by decide)).bind fun wroteAtt => ?_
  cases wroteAtt with
  | false => exact fun w _ h => ⟨h.1, fun hf => by cases hf⟩
  | true =>
    refine Prog.Sat.pre (P := R) ?_ fun _ h => h.1
    by_cases hn : opts.exhausted n
    · simp only [hn, if_true]
      refine (replace_sat hR (family_deadKey topic opts.name e.id) (by decide) fun _ => rfl).bind fun wrote => ?_
      cases wrote with
      | false => exact fun w _ h => ⟨h.1, fun hf => by cases hf⟩
      | true => exact fun w _ h => ⟨h.1, fun hf => ⟨hf, .inr (h.2 rfl (family_deadKey ..))⟩⟩
    · simp only [hn, if_true]
      exact fun w _ h => ⟨h, fun hf => by cases hf⟩

theorem onFailure_sat {dead : Option StoredDead} {err : JsString} :
    (onFailure evtStore topic opts e dead attRaw err frozen).Sat (evtRG limit calls) i R
      fun f x => R x ∧ Passed topic opts e frozen f x.1 := by
  refine (sat_work hR (legal_read rfl)).bind fun freshRaw => ?_
  refine Prog.Sat.pre (P := R) ?_ fun _ h => h.1
  split
  · exact fun w _ h => ⟨h, fun hf => by cases hf⟩
  · refine (sat_outside hR fun _ _ => rfl).bind fun now => ?_
    refine Prog.Sat.pre (P := R) ?_ fun _ h => h.1
    extract_lets n
    split
    · refine (sat_work hR (legal_read rfl)).bind fun ack => ?_
      split
      · next hack => exact fun w _ h => ⟨h.1, fun hf => ⟨hf, .inl (h.2.1 hack)⟩⟩
      · exact (recordFailure_sat hR).pre fun _ h => h.1
    · exact recordFailure_sat hR

variable {fuel₀ : ℕ} (hcall : calls i = .poll topic opts fuel₀)
include hcall

theorem deliver_sat {dead : Option StoredDead} {delivered : ℕ}
    (he : ∀ x, R x → e ∈ x.1.logs (logNsOf topic)) :
    (deliver evtStore topic opts e dead attRaw frozen delivered).Sat (evtRG limit calls) i R
      fun r x => R x ∧ Passed topic opts e frozen r.1 x.1 := by
  refine (sat_outside hR fun _ _ => rfl).bind fun outcome => ?_
  cases outcome with
  | error err =>
    refine ((onFailure_sat hR).pre fun _ h => h.1).bind fun f => ?_
    exact fun x _ h => h
  | ok _ =>
    -- The handler has returned, and stays so until the marker is put.
    have hret : (evtRG limit calls).Kept fun x => R x ∧ Returned i topic e x :=
      hR.and (kept_returned i e)
    refine ((sat_ackOnce hret fun x h => ⟨i, topic, opts, fuel₀, e, hcall, rfl, h.2⟩).pre
      fun x h => ⟨h.1, he x h.1, h.2⟩).bind fun won => ?_
    exact fun x _ h => ⟨h.1.1, fun hf => ⟨hf, .inl h.2⟩⟩

theorem pollEvent_sat {delivered : ℕ} (he : ∀ x, R x → e ∈ x.1.logs (logNsOf topic)) :
    (pollEvent evtStore topic opts e frozen delivered).Sat (evtRG limit calls) i R
      fun r x => R x ∧ Passed topic opts e frozen r.1 x.1 := by
  refine (sat_work hR (legal_read rfl)).bind fun ack => ?_
  split
  · next hack => exact fun x _ h => ⟨h.1, fun hf => ⟨hf, .inl (h.2.1 hack)⟩⟩
  · refine ((sat_work hR (legal_read rfl)).pre fun _ h => h.1).bind fun deadRaw => ?_
    extract_lets dead
    split
    · next hdead =>
      have hsome : dead.isSome := Option.isSome_of_any hdead
      exact fun x _ h => ⟨h.1, fun hf => ⟨hf, .inr (h.2.2 (family_deadKey ..) hsome)⟩⟩
    · refine ((sat_work hR (legal_read rfl)).pre fun _ h => h.1).bind fun attRaw => ?_
      refine Prog.Sat.pre (P := R) ?_ fun _ h => h.1
      split
      · exact deliver_sat hR hcall he
      · refine (sat_outside hR fun _ _ => rfl).bind fun now => ?_
        refine Prog.Sat.pre (P := R) ?_ fun _ h => h.1
        split
        · exact fun x _ h => ⟨h, fun hf => by cases hf⟩
        · exact deliver_sat hR hcall he

theorem pollItems_sat (items : List (LogRecord P)) (frozen : Bool) (delivered : ℕ)
    (hitems : ∀ x, R x → ∀ e ∈ items, e ∈ x.1.logs (logNsOf topic)) :
    (pollItems evtStore topic opts items frozen delivered).Sat (evtRG limit calls) i R fun r x =>
      R x ∧ (r.1 = false → frozen = false ∧ ∀ e ∈ items, Done topic opts.name e x.1) := by
  induction items generalizing R frozen delivered with
  | nil => exact fun x _ h => ⟨h, fun hf => ⟨hf, by simp⟩⟩
  | cons e items ih =>
    refine (pollEvent_sat hR hcall fun x h => hitems x h e mem_cons_self).bind fun r => ?_
    -- What the first event left is kept while the others are handled.
    have hkept : (evtRG limit calls).Kept fun x => R x ∧ Passed topic opts e frozen r.1 x.1 :=
      hR.and (.imp _ ((RG.kept_const _).and (kept_done e)))
    refine (ih hkept r.1 r.2 fun x h e he => hitems x h.1 e (mem_cons_of_mem _ he)).post
      fun r' x _ h => ⟨h.1.1, fun hf => ?_⟩
    obtain ⟨hr, hrest⟩ := h.2 hf
    obtain ⟨hfrozen, he⟩ := h.1.2 hr
    exact ⟨hfrozen, forall_mem_cons.2 ⟨he, hrest⟩⟩

omit hR in
/-- A pass has seen through everything before its cursor, unless it is frozen. -/
theorem pollPages_sat (rescan : Bool) (fuel : ℕ) (cursor : Option ℕ) (frozen : Bool)
    (delivered : ℕ) :
    (pollPages evtStore topic opts rescan fuel cursor frozen delivered).Sat (evtRG limit calls) i
      (fun x => frozen = false → Covered topic opts.name (cursor.getD 0) x.1) fun _ _ => True := by
  induction fuel generalizing cursor frozen delivered with
  | zero => exact fun _ _ _ => trivial
  | succ fuel ih =>
    have hR : (evtRG limit calls).Kept
        fun x => frozen = false → Covered topic opts.name (cursor.getD 0) x.1 :=
      .imp _ (kept_covered _)
    refine (sat_work hR (legal_read rfl)).bind fun page => ?_
    refine (pollItems_sat (hR.and (kept_learns (.list (logNsOf topic) cursor) page)) hcall page.items
      frozen delivered fun x h => h.2.1).bind fun (frozen', delivered') => ?_
    cases hnext : page.nextCursor with
    | none =>
      simp only
      split
      · refine Prog.Sat.bind (R := fun _ _ => True) ?_ fun _ _ _ _ => trivial
        exact ((sat_work (RG.kept_const True) (legal_put (family_rescanKeyOf ..) (by decide))).conseq
          (fun _ _ _ => trivial) fun _ _ _ _ => trivial)
      · exact fun _ _ _ => trivial
    | some next =>
      -- The page and what came before it are seen through.
      have hcov : ∀ x : Logged P,
          (((frozen = false → Covered topic opts.name (cursor.getD 0) x.1) ∧
            Learns (.list (logNsOf topic) cursor) page x.1) ∧ (frozen' = false → frozen = false ∧
            ∀ e ∈ page.items, Done topic opts.name e x.1)) →
          frozen' = false → Covered topic opts.name next x.1 := by
        rintro x ⟨⟨hbefore, hpage⟩, hitems⟩ hf
        obtain ⟨-, hlen, htake⟩ := hpage.2 next hnext
        obtain ⟨hfrozen, hdone⟩ := hitems hf
        refine ⟨hlen, fun e he => ?_⟩
        rw [htake, mem_append] at he
        exact he.elim ((hbefore hfrozen).2 e) (hdone e)
      simp only
      cases frozen' with
      | true => exact (ih (some next) true delivered').pre fun _ _ hf => by cases hf
      | false =>
        have hnext' := (ih (some next) false delivered').pre
          fun x (h : Covered topic opts.name next x.1) _ => h
        refine Prog.Sat.bind (R := fun _ x => Covered topic opts.name next x.1) ?_ fun _ => hnext'
        exact (sat_putCursor (kept_covered next) fun _ h => h).pre fun x h => hcov x h rfl

omit hR in
theorem poll_sat (fuel : ℕ) :
    (poll evtStore topic opts fuel).Sat (evtRG limit calls) i (fun _ => True)
      fun _ _ => True := by
  have hT : (evtRG limit calls).Kept fun _ => True := RG.kept_const True
  have hzero : ∀ w : WorkState P EvtValue, Covered topic opts.name 0 w := fun w =>
    ⟨Nat.zero_le _, by simp⟩
  refine (sat_work hT (legal_read rfl)).bind fun rescan => ?_
  refine Prog.Sat.pre (P := fun _ => True) ?_ fun _ _ => trivial
  split
  · refine (sat_putCursor hT fun x _ => hzero x.1).bind fun _ => ?_
    exact (pollPages_sat hcall true fuel none false 0).pre fun x _ _ => hzero x.1
  · -- The cursor that is read has only events behind it that are done with.
    refine Prog.Sat.bind (R := fun raw x => Covered topic opts.name ((readCursor raw).getD 0) x.1)
      ?_ fun raw => (pollPages_sat hcall false fuel (readCursor raw) false 0).pre fun _ h _ => h
    refine ((Prog.sat_perform hT (T := fun raw x =>
      Covered topic opts.name ((readCursor raw).getD 0) x.1) (fun raw => kept_covered _) ?_)).post
      fun _ _ _ h => h.2
    intro x a hI _ _
    exact ⟨⟨hI.1, fun k hk hhas => (hI.2 k hk hhas).keeps ⟨.refl x.1, fun _ _ h => h⟩
      (prefix_append _ _)⟩, ⟨⟨.refl x.1, fun _ _ h => h⟩, prefix_append _ _⟩, hI.1 topic opts.name⟩

omit hcall

omit hR in
theorem retryDeadLoop_sat {consumer eventId : JsString} (tries : ℕ) :
    (retryDeadLoop evtStore topic consumer eventId tries).Sat (evtRG limit calls) i
      (fun _ => True) fun _ _ => True := by
  have hT : (evtRG limit calls).Kept fun _ => True := RG.kept_const True
  induction tries with
  | zero => exact fun _ _ _ => trivial
  | succ tries ih =>
    refine (sat_work hT (legal_read rfl)).bind fun raw => ?_
    refine Prog.Sat.pre (P := fun _ => True) ?_ fun _ _ => trivial
    split
    · exact fun _ _ _ => trivial
    · refine (sat_work hT (legal_read rfl)).bind fun ack => ?_
      refine Prog.Sat.pre (P := fun _ => True) ?_ fun _ _ => trivial
      split
      · exact fun _ _ _ => trivial
      · refine ((sat_outside hT fun _ _ => rfl).post fun _ _ _ h => h.1).bind fun now => ?_
        refine (sat_work hT (legal_put (family_attKey ..) (by decide))).bind fun _ => ?_
        refine ((replace_sat hT (family_deadKey ..) (by decide) fun _ => rfl).pre
          fun _ _ => trivial).bind fun wrote => ?_
        cases wrote with
        | false => exact ih.pre fun _ _ => trivial
        | true =>
          refine ((sat_work hT (legal_put (family_rescanKeyOf ..) (by decide))).pre
            fun _ _ => trivial).bind
            fun _ => ?_
          exact fun _ _ _ => trivial

omit hR in
theorem countFrom_sat (ns : JsString) (maxDepth fuel count : ℕ) (cursor : Option ℕ) :
    (countFrom evtStore ns maxDepth fuel count cursor).Sat (evtRG limit calls) i
      (fun _ => True) fun _ _ => True := by
  induction fuel generalizing count cursor with
  | zero => exact fun _ _ _ => trivial
  | succ fuel ih =>
    refine (sat_work (RG.kept_const True) (legal_read rfl)).bind fun page => ?_
    refine Prog.Sat.pre (P := fun _ => True) ?_ fun _ _ => trivial
    extract_lets count'
    split
    · exact fun _ _ _ => trivial
    · split
      · exact fun _ _ _ => trivial
      · exact ih _ _

section Emit

variable [EmptyCollection P] {payload : P} {emitOpts : EmitOptions}

omit hR in
theorem emitAs_sat (name : Option JsString) :
    (emitAs evtStore topic payload emitOpts name).Sat (evtRG limit calls) i
      (fun _ => True) fun _ _ => True := by
  unfold emitAs
  split
  · exact fun _ _ _ => trivial
  · refine (sat_work (RG.kept_const True) (legal_read rfl)).bind fun id => ?_
    refine ((sat_work (RG.kept_const True) (legal_read rfl)).pre fun _ _ => trivial).bind fun _ => ?_
    exact fun _ _ _ => trivial

omit hR in
theorem emitNamed_sat :
    (emitNamed evtStore topic payload emitOpts).Sat (evtRG limit calls) i
      (fun _ => True) fun _ _ => True := by
  unfold emitNamed
  split
  · exact emitAs_sat _
  · split
    · exact (sat_outside (RG.kept_const True) fun _ _ => rfl).bind fun _ =>
        (emitAs_sat _).pre fun _ _ => trivial
    · exact emitAs_sat _

omit hR in
theorem emit_sat (scopedTo : Option JsString) :
    (emit evtStore scopedTo topic payload emitOpts).Sat (evtRG limit calls) i
      (fun _ => True) fun _ _ => True := by
  unfold emit
  split
  · exact fun _ _ _ => trivial
  · split
    · exact emitNamed_sat
    · refine (countFrom_sat _ _ _ _ _).bind fun depth => ?_
      split
      · exact fun _ _ _ => trivial
      · exact emitNamed_sat

omit hR in
theorem prog_sat (i : ℕ) :
    (calls i).prog.Sat (evtRG limit calls) i (fun _ => True) fun _ _ => True := by
  cases hcall : calls i with
  | emit topic payload opts => exact (emit_sat none).bind fun _ _ _ _ => trivial
  | poll topic opts fuel => exact (poll_sat hcall fuel).bind fun _ _ _ _ => trivial
  | retryDeadEvent topic consumer eventId =>
    exact (retryDeadLoop_sat _).bind fun _ _ _ _ => trivial

end Emit

end Programs

/-! ## The dead events are listed -/

section Listing

variable {limit : ℕ+} {i : ℕ} {a : EvtAnswer} {topic consumer : JsString}

/-- What is listed for an event, if it has a dead-letter record. -/
def deadEvent (topic consumer : JsString) (w : WorkState P EvtValue) (e : LogRecord P) :
    Option (DeadEvent P) :=
  (readDead (w.kv.val (deadKey topic consumer e.id))).map fun rec_ =>
    ⟨rec_, e.id, topic, consumer, e.payload, (ownerOfName e.id).1,
      if (w.kv.val (ackKey topic consumer e.id)).isSome then .delivered
      else if rec_.isReleased then .released else .quarantined⟩

theorem solo_listDeadItems (items : List (LogRecord P)) (out : List (DeadEvent P))
    (w : WorkState P EvtValue) :
    (evtMachine limit).solo i a (listDeadItems evtStore topic consumer items out) w =
      (out ++ items.filterMap (deadEvent topic consumer w), w) := by
  induction items generalizing out with
  | nil => rw [filterMap_nil, append_nil]; rfl
  | cons e items ih =>
    have hget : ∀ k, (evtMachine limit).solo i a (evtStore.get k) w = (w.kv.val k, w) := fun _ => rfl
    rw [listDeadItems, Machine.solo_bind, hget]
    cases hd : readDead (w.kv.val (deadKey topic consumer e.id)) with
    | none =>
      have he : deadEvent topic consumer w e = none := by rw [deadEvent, hd]; rfl
      simp only
      rw [ih, filterMap_cons_none he]
    | some rec_ =>
      simp only
      rw [Machine.solo_bind, hget, ih, filterMap_cons_some (by rw [deadEvent, hd]; rfl),
        append_assoc, singleton_append]

/-- Every page but the last one moves on, so that `length + 1` pages are enough. -/
theorem solo_listDeadPages (fuel : ℕ) (cursor : Option ℕ) (out : List (DeadEvent P))
    (w : WorkState P EvtValue)
    (hfuel : (w.logs (logNsOf topic)).length < cursor.getD 0 + fuel) :
    (evtMachine limit).solo i a (listDeadPages evtStore topic consumer fuel cursor out) w =
      (out ++ ((w.logs (logNsOf topic)).drop (cursor.getD 0)).filterMap
        (deadEvent topic consumer w), w) := by
  induction fuel generalizing cursor out with
  | zero =>
    rw [drop_eq_nil_of_le (by omega), filterMap_nil, append_nil]
    rfl
  | succ fuel ih =>
    have hlist : (evtMachine limit).solo i a (evtStore.list (logNsOf topic) cursor) w =
        (paginate (w.logs (logNsOf topic)) cursor limit, w) := rfl
    rw [listDeadPages, Machine.solo_bind, hlist, Machine.solo_bind, solo_listDeadItems]
    simp only [paginate]
    have hpos : 0 < (limit : ℕ) := limit.2
    by_cases hnext : cursor.getD 0 + limit < (w.logs (logNsOf topic)).length
    · simp only [if_pos hnext]
      rw [ih _ _ (by simp only [Option.getD_some]; omega), append_assoc,
        ← filterMap_append, Option.getD_some, ← drop_drop, take_append_drop]
    · simp only [if_neg hnext]
      rw [take_of_length_le (by rw [length_drop]; omega)]
      rfl

/-- Every dead event of the topic is listed. -/
theorem mem_listDeadEvents {w : WorkState P EvtValue} {e : LogRecord P}
    (he : e ∈ w.logs (logNsOf topic)) (hdead : IsDead (deadKey topic consumer e.id) w) :
    ∃ d ∈ ((evtMachine limit).solo i a (listDeadEvents evtStore topic consumer
      ((w.logs (logNsOf topic)).length + 1)) w).1, d.id = e.id := by
  have hlisted : (deadEvent topic consumer w e).isSome := by
    rw [deadEvent, Option.isSome_map]
    exact hdead
  obtain ⟨d, hd⟩ := Option.isSome_iff_exists.1 hlisted
  have hid : d.id = e.id := by
    obtain ⟨rec_, -, rfl⟩ := Option.map_eq_some_iff.1 hd
    rfl
  rw [listDeadEvents, solo_listDeadPages _ _ _ _ (by rw [Option.getD_none]; omega)]
  exact ⟨d, mem_append_right _ (mem_filterMap.2 ⟨e, he, hd⟩), hid⟩

end Listing

/-! ## The invariant -/

/-- The calls before any of them has run, on any logs and without a marker. -/
def evtStart [EmptyCollection P] (logs : JsString → List (LogRecord P)) (calls : ℕ → EvtCall P) :
    Conf (EvtOp P) EvtOp.Res Unit (WorkState P EvtValue) :=
  ⟨⟨logs, Kv.empty⟩, fun i => (calls i).prog⟩

/-- The consumer's handler has returned for an event with the id. -/
def Delivered (calls : ℕ → EvtCall P) (topic consumer id : JsString) (x : Logged P) : Prop :=
  ∃ i opts fuel e, calls i = .poll topic opts fuel ∧ opts.name = consumer ∧ e.id = id ∧
    Returned i topic e x

/-- **No event is skipped.** After every run of any calls on the bus, in any
    interleaving, every event before a consumer's persisted cursor is acked, or
    has a dead-letter record and is listed by `listDeadEvents`; and if the topics are
    ones `createConsumer` accepts, an ack is that of an event that the handler of a
    consumer of that name has been given, and has returned for. -/
theorem delivery_covered [EmptyCollection P] (limit : ℕ+) (logs : JsString → List (LogRecord P))
    (calls : ℕ → EvtCall P) (ms : List (Move EvtAnswer Empty)) (topic consumer : JsString) :
    let x := ((evtMachine limit).logged.play (evtStart logs calls).logged ms).world
    persistedCursor topic consumer x.1 ≤ (x.1.logs (logNsOf topic)).length ∧
      (∀ e ∈ (x.1.logs (logNsOf topic)).take (persistedCursor topic consumer x.1),
        Has (ackKey topic consumer e.id) x.1 ∨ (IsDead (deadKey topic consumer e.id) x.1 ∧
          ∀ i a, ∃ d ∈ ((evtMachine limit).solo i a (listDeadEvents evtStore topic consumer
            ((x.1.logs (logNsOf topic)).length + 1)) x.1).1, d.id = e.id)) ∧
      ((∀ i t opts fuel, calls i = .poll t opts fuel → assertTopic t = .ok ()) →
        assertTopic topic = .ok () → ∀ id, Has (ackKey topic consumer id) x.1 →
          Delivered calls topic consumer id x) := by
  intro x
  obtain ⟨hcursor, hack⟩ : CursorInv x.1 ∧ AckInv calls x := by
    refine Machine.play_sat (S := evtRG limit calls) (c := (evtStart logs calls).logged)
      (P := fun _ _ => True) (Q := fun _ _ _ => True) (fun _ e => e.elim)
      ⟨fun _ _ => ⟨Nat.zero_le _, ?_⟩, ?_⟩ (fun i => (RG.kept_const True).stable i) (fun _ => trivial)
      prog_sat (Machine.meets_true _ _)
    -- No cursor has been persisted and no event acked yet.
    · exact fun e he => absurd he List.not_mem_nil
    · exact fun k _ hk => by cases hk
  obtain ⟨hlen, hdone⟩ := hcursor topic consumer
  refine ⟨hlen, fun e he => (hdone e he).imp_right fun hdead => ⟨hdead, fun i a => ?_⟩,
    fun hcalls ht id hid => ?_⟩
  · exact mem_listDeadEvents (List.mem_of_mem_take he) hdead
  · obtain ⟨i, topic', opts, fuel, e, hi, hk, hret⟩ := hack _ (family_ackKey topic consumer id) hid
    obtain ⟨-, rfl, rfl, rfl⟩ := markerKey_injective (by decide) (by decide)
      (isOwnedId_of_assertTopic (hcalls i _ _ _ hi)) (isOwnedId_of_assertTopic ht) hk
    exact ⟨i, opts, fuel, e, hi, rfl, rfl, hret⟩

/-- A poll delivers and acks the first of two events, and moves its cursor over it. -/
theorem delivery_covered_delivers :
    let logs : JsString → List (LogRecord (List ℕ)) := fun _ => [⟨js "x", [7]⟩, ⟨js "y", [8]⟩]
    let calls : ℕ → EvtCall (List ℕ) := fun _ => .poll (js "t") ⟨js "c", none⟩ 2
    let ms := List.replicate 9 (Move.run 0 ⟨0, .ok (), none, []⟩)
    let x := ((evtMachine ⟨1, Nat.one_pos⟩).logged.play (evtStart logs calls).logged ms).world
    persistedCursor (js "t") (js "c") x.1 = 1 ∧ Has (ackKey (js "t") (js "c") (js "x")) x.1 ∧
      Delivered calls (js "t") (js "c") (js "x") x := by
  intro logs calls ms x
  have hack : Has (ackKey (js "t") (js "c") (js "x")) x.1 := by unfold Has; decide +kernel
  refine ⟨by decide +kernel, hack, (delivery_covered ⟨1, Nat.one_pos⟩ logs calls ms (js "t") (js "c")).2.2 ?_
    (by rfl) _ hack⟩
  rintro i t opts fuel ⟨⟩
  rfl

end Gnldev.Events
