import Gnldev.Events.Delivery
import Mathlib.Data.Rat.Floor

/-!
# Erasing a person's events

`eventEraser` deletes the events of one owner on every topic, found by the prefix
of their ids, and every consumer's markers for them. A consumer's cursor is an
offset into the log the events are deleted from, and nothing moves it back: each
event deleted before another moves the other one position towards the cursor, and
past it.

An event is *scanned* if a poll that runs alone, with a handler that succeeds and
at a time when the event is due, delivers and acks it (`Scanned`). After an erasure
another owner's live event is scanned exactly if at least as many events are left
before it as the next pass starts after: `erase_scanned_iff`.
-/

open List

namespace Gnldev.Events

open Durable

variable {P : Type}

/-- The prefix of an owned event's markers of a family, for an owner's prefix. -/
def markerPrefix (fam p : JsString) : JsString := fam ++ colon :: enc p

/-- Delete the events whose ids have a prefix, and their markers. -/
def eraseEvents (p : JsString) (s : WorkState P EvtValue) : WorkState P EvtValue :=
  (((s.deleteIdPrefix p).deletePrefix (markerPrefix (js "evtack") p)).deletePrefix
    (markerPrefix (js "evtatt") p)).deletePrefix (markerPrefix (js "evtdead") p)

/-- Erase an owner's events on every topic. -/
def eventErase (owner : Owner) (s : WorkState P EvtValue) :
    Except NameError (WorkState P EvtValue) :=
  (ownedPrefix owner).map fun p => eraseEvents p s

/-- A deletion on the store, of records by their ids or of keys. -/
inductive Deletion where
  | idPrefix (p : JsString)
  | keyPrefix (p : JsString)

/-- The bus, with deletions at any time. -/
def erasingMachine (limit : ℕ+) :
    Machine (EvtOp P) EvtOp.Res (WorkState P EvtValue) EvtAnswer Deletion where
  exec := (evtMachine limit).exec
  env
    | .idPrefix p, w => w.deleteIdPrefix p
    | .keyPrefix p, w => w.deletePrefix p

/-- The event is quarantined for the consumer, and not released. -/
def Quarantined (topic consumer id : JsString) (w : WorkState P EvtValue) : Prop :=
  (readDead (w.kv.val (deadKey topic consumer id))).any (!·.isReleased)

/-- The backoff of the event is over. -/
def Due (topic consumer id : JsString) (t : Int) (w : WorkState P EvtValue) : Prop :=
  ∀ att ∈ readAttempts (w.kv.val (attKey topic consumer id)), att.nextAt ≤ t

instance (topic consumer id : JsString) (t : Int) (w : WorkState P EvtValue) :
    Decidable (Due topic consumer id t w) :=
  inferInstanceAs (Decidable (∀ att ∈ readAttempts _, att.nextAt ≤ t))

/-- A poll that runs alone, with a handler that succeeds, at a time when the event
    is due, acks the event. -/
def Scanned (limit : ℕ+) (topic : JsString) (opts : ConsumerOptions) (id : JsString)
    (w : WorkState P EvtValue) : Prop :=
  ∀ i a, a.outcome = .ok () → Due topic opts.name id a.time w →
    Has (ackKey topic opts.name id) ((evtMachine limit).solo i a
      (poll evtStore topic opts ((w.logs (logNsOf topic)).length + 1)) w).2

/-- The event is another owner's, or the system's, and neither acked nor
    quarantined for the consumer. -/
def LiveOther (owner : Owner) (topic consumer : JsString) (e : LogRecord P)
    (w : WorkState P EvtValue) : Prop :=
  ¬Has (ackKey topic consumer e.id) w ∧ ¬Quarantined topic consumer e.id w ∧
    ∃ name other, other ≠ owner ∧ ownedName name other = .ok e.id

/-- Where the consumer's next pass starts. -/
def passStart (topic consumer : JsString) (w : WorkState P EvtValue) : ℕ :=
  if w.kv.val (rescanKeyOf topic consumer) = some (.flag true) then 0
  else persistedCursor topic consumer w

/-! ## A poll alone -/

/-- What a poll alone does that scans the events `es` with a handler that succeeds:
    it acks those that are live, and writes nothing else but its cursor and the
    rescan flag. -/
structure Polls (topic consumer : JsString) (t : Int) (es : List (LogRecord P))
    (w w' : WorkState P EvtValue) : Prop where
  logs : w'.logs = w.logs
  writes : ∀ k, w'.kv.val k = w.kv.val k ∨ (∃ e ∈ es, k = ackKey topic consumer e.id) ∨
    k = cursorKeyOf topic consumer ∨ k = rescanKeyOf topic consumer
  keys : ∀ k, Has k w → Has k w'
  acks : ∀ e ∈ es, ¬Quarantined topic consumer e.id w → Due topic consumer e.id t w →
    Has (ackKey topic consumer e.id) w'

namespace Polls

variable {topic consumer : JsString} {t : Int} {es es' : List (LogRecord P)}
  {w w' w'' : WorkState P EvtValue}

theorem refl (w : WorkState P EvtValue) : Polls topic consumer t [] w w :=
  ⟨rfl, fun _ => .inl rfl, fun _ h => h, fun _ h => absurd h not_mem_nil⟩

/-- A poll changes neither quarantines nor backoffs. -/
theorem val_eq (h : Polls topic consumer t es w w') {k : JsString} (hack : family k ≠ js "evtack")
    (hcur : family k ≠ js "evtcursor") (hres : family k ≠ js "evtrescan") :
    w'.kv.val k = w.kv.val k := by
  rcases h.writes k with h | ⟨e, -, rfl⟩ | rfl | rfl
  · exact h
  · exact absurd (family_ackKey ..) hack
  · exact absurd (family_cursorKeyOf ..) hcur
  · exact absurd (family_rescanKeyOf ..) hres

theorem quarantined_iff (h : Polls topic consumer t es w w') (id : JsString) :
    Quarantined topic consumer id w' ↔ Quarantined topic consumer id w := by
  have hfam : family (deadKey topic consumer id) = js "evtdead" := family_deadKey ..
  rw [Quarantined, Quarantined, h.val_eq (by rw [hfam]; decide) (by rw [hfam]; decide)
    (by rw [hfam]; decide)]

theorem due_iff (h : Polls topic consumer t es w w') (id : JsString) :
    Due topic consumer id t w' ↔ Due topic consumer id t w := by
  have hfam : family (attKey topic consumer id) = js "evtatt" := family_attKey ..
  rw [Due, Due, h.val_eq (by rw [hfam]; decide) (by rw [hfam]; decide) (by rw [hfam]; decide)]

theorem trans (h : Polls topic consumer t es w w') (h' : Polls topic consumer t es' w' w'') :
    Polls topic consumer t (es ++ es') w w'' where
  logs := h'.logs.trans h.logs
  writes k := by
    rcases h'.writes k with hk | ⟨e, he, hk⟩ | hk
    · rw [hk]
      refine (h.writes k).imp_right (.imp_left ?_)
      rintro ⟨e, he, hk⟩
      exact ⟨e, mem_append_left _ he, hk⟩
    · exact .inr (.inl ⟨e, mem_append_right _ he, hk⟩)
    · exact .inr (.inr hk)
  keys k hk := h'.keys k (h.keys k hk)
  acks e he hq hd := by
    rcases mem_append.1 he with he | he
    · exact h'.keys _ (h.acks e he hq hd)
    · exact h'.acks e he (mt (h.quarantined_iff _).1 hq) ((h.due_iff _).2 hd)

/-- A write of the cursor or of the rescan flag. -/
theorem set {i : ℕ} {s : Int} {k : JsString} {v : EvtValue}
    (hk : k = cursorKeyOf topic consumer ∨ k = rescanKeyOf topic consumer) :
    Polls topic consumer t [] w { w with kv := w.kv.set i s k v } where
  logs := rfl
  writes k' := by
    by_cases he : k' = k
    · exact .inr (.inr (he ▸ hk))
    · exact .inl (Kv.set_val_of_ne _ _ _ _ he)
  keys := (w.extends_set i s k v).keys
  acks _ h := absurd h not_mem_nil

end Polls

section Solo

variable {limit : ℕ+} {topic : JsString} {opts : ConsumerOptions} {i : ℕ} {a : EvtAnswer}
  {w : WorkState P EvtValue}

theorem solo_get (k : JsString) :
    (evtMachine limit).solo i a (evtStore.get k) w = (w.kv.val k, w) := rfl

/-- A delivery to a handler that succeeds acks the event. -/
theorem solo_deliver (ha : a.outcome = .ok ()) (e : LogRecord P) (dead : Option StoredDead)
    (attRaw : Option EvtValue) (frozen : Bool) (delivered : ℕ) :
    Polls topic opts.name a.time [e] w ((evtMachine limit).solo i a
      (deliver evtStore topic opts e dead attRaw frozen delivered) w).2 := by
  have hhandler : (evtMachine limit).solo i a
      (perform (.handler e.payload ⟨e.id, topic, (ownerOfName e.id).1⟩)) w = (.ok (), w) :=
    Prod.ext ha rfl
  rw [deliver, Machine.solo_bind, hhandler]
  simp only
  rw [Machine.solo_bind]
  show Polls topic opts.name a.time [e] w ((evtMachine limit).exec i a
    (.work (.ackOnce (ackKey topic opts.name e.id))) w).2
  simp only [evtMachine, WorkOp.exec]
  split
  · refine ⟨rfl, fun k => ?_, (w.extends_set _ _ _ _).keys, fun e' he' _ _ => ?_⟩
    · by_cases hk : k = ackKey topic opts.name e.id
      · exact .inr (.inl ⟨e, .head _, hk⟩)
      · exact .inl (Kv.set_val_of_ne _ _ _ _ hk)
    · rw [mem_singleton] at he'
      subst he'
      simp [Has]
  · next hack =>
    refine ⟨rfl, fun _ => .inl rfl, fun _ h => h, fun e' he' _ _ => ?_⟩
    rw [mem_singleton] at he'
    subst he'
    exact Option.isSome_iff_ne_none.2 hack

/-- An event that is passed by is acked, quarantined or not due. -/
theorem polls_skip {e : LogRecord P} (h : Has (ackKey topic opts.name e.id) w ∨
    Quarantined topic opts.name e.id w ∨ ¬Due topic opts.name e.id a.time w) :
    Polls topic opts.name a.time [e] w w := by
  refine ⟨rfl, fun _ => .inl rfl, fun _ h => h, fun e' he' hq hd => ?_⟩
  rw [mem_singleton] at he'
  subst he'
  exact h.resolve_right (not_or.2 ⟨hq, not_not.2 hd⟩)

theorem solo_pollEvent (ha : a.outcome = .ok ()) (e : LogRecord P) (frozen : Bool)
    (delivered : ℕ) : Polls topic opts.name a.time [e] w ((evtMachine limit).solo i a
      (pollEvent evtStore topic opts e frozen delivered) w).2 := by
  rw [pollEvent, Machine.solo_bind, solo_get]
  dsimp only
  split
  · next hack => exact polls_skip (.inl hack)
  rw [Machine.solo_bind, solo_get]
  dsimp only
  split
  · next hdead => exact polls_skip (.inr (.inl hdead))
  rw [Machine.solo_bind, solo_get]
  dsimp only
  split
  · exact solo_deliver ha ..
  · next att hatt =>
    have hnow : (evtMachine limit).solo i a (perform (.now : EvtOp P)) w = (a.time, w) := rfl
    rw [Machine.solo_bind, hnow]
    dsimp only
    split
    · next hlt =>
      refine polls_skip (.inr (.inr fun hd => ?_))
      exact absurd (hd att hatt) (Rat.not_le.2 hlt)
    · exact solo_deliver ha ..

theorem solo_pollItems (ha : a.outcome = .ok ()) (items : List (LogRecord P)) (frozen : Bool)
    (delivered : ℕ) : Polls topic opts.name a.time items w ((evtMachine limit).solo i a
      (pollItems evtStore topic opts items frozen delivered) w).2 := by
  induction items generalizing w frozen delivered with
  | nil => exact .refl w
  | cons e items ih =>
    rw [pollItems, Machine.solo_bind]
    exact (solo_pollEvent ha e frozen delivered).trans (ih _ _)

/-- A pass that has pages enough scans every event from the cursor on. -/
theorem solo_pollPages (ha : a.outcome = .ok ()) (rescan : Bool) (fuel : ℕ) (cursor : Option ℕ)
    (frozen : Bool) (delivered : ℕ)
    (hfuel : (w.logs (logNsOf topic)).length < cursor.getD 0 + fuel) :
    Polls topic opts.name a.time ((w.logs (logNsOf topic)).drop (cursor.getD 0)) w
      ((evtMachine limit).solo i a
        (pollPages evtStore topic opts rescan fuel cursor frozen delivered) w).2 := by
  induction fuel generalizing cursor frozen delivered w with
  | zero =>
    rw [drop_eq_nil_of_le (by omega)]
    exact .refl w
  | succ fuel ih =>
    have hlist : (evtMachine limit).solo i a (evtStore.list (logNsOf topic) cursor) w =
        (paginate (w.logs (logNsOf topic)) cursor limit, w) := rfl
    rw [pollPages, Machine.solo_bind, hlist, Machine.solo_bind]
    dsimp only [paginate]
    have hpage : Polls topic opts.name a.time
        (((w.logs (logNsOf topic)).drop (cursor.getD 0)).take limit) w
        ((evtMachine limit).solo i a (pollItems evtStore topic opts
          (((w.logs (logNsOf topic)).drop (cursor.getD 0)).take limit) frozen delivered) w).2 :=
      solo_pollItems ha _ frozen delivered
    generalize (evtMachine limit).solo i a (pollItems evtStore topic opts
      (((w.logs (logNsOf topic)).drop (cursor.getD 0)).take limit) frozen delivered) w = r at hpage ⊢
    have hsplit : (w.logs (logNsOf topic)).drop (cursor.getD 0) =
        ((w.logs (logNsOf topic)).drop (cursor.getD 0)).take limit ++
          (w.logs (logNsOf topic)).drop (cursor.getD 0 + limit) := by
      rw [← drop_drop, take_append_drop]
    have hpos : 0 < (limit : ℕ) := limit.2
    rw [hsplit]
    refine hpage.trans ?_
    by_cases hnext : cursor.getD 0 + limit < (w.logs (logNsOf topic)).length
    · -- The pass goes on from the next page, whether or not the cursor is persisted.
      have hrest : ∀ {w'} fr d, w'.logs = w.logs → Polls topic opts.name a.time
          ((w.logs (logNsOf topic)).drop (cursor.getD 0 + limit)) w' ((evtMachine limit).solo i a
            (pollPages evtStore topic opts rescan fuel (some (cursor.getD 0 + limit)) fr d) w').2 := by
        intro w' fr d hw'
        rw [← hw']
        refine ih (some (cursor.getD 0 + limit)) fr d ?_
        rw [hw', Option.getD_some]
        omega
      simp only [if_pos hnext]
      split
      · exact hrest _ _ hpage.logs
      · rw [Machine.solo_bind]
        exact (Polls.set (.inl rfl)).trans (hrest _ _ hpage.logs)
    · simp only [if_neg hnext]
      rw [drop_eq_nil_of_le (by omega)]
      split
      · rw [Machine.solo_bind]
        exact .set (.inr rfl)
      · exact .refl _

/-- A poll scans every event from where its pass starts. -/
theorem solo_poll (ha : a.outcome = .ok ()) :
    Polls topic opts.name a.time
      ((w.logs (logNsOf topic)).drop (passStart topic opts.name w)) w
      ((evtMachine limit).solo i a
        (poll evtStore topic opts ((w.logs (logNsOf topic)).length + 1)) w).2 := by
  rw [poll, Machine.solo_bind, solo_get]
  dsimp only
  by_cases hres : w.kv.val (rescanKeyOf topic opts.name) = some (.flag true)
  · rw [passStart, if_pos hres, if_pos hres, Machine.solo_bind]
    set w₁ := ((evtMachine limit).solo i a
      (evtStore.put (cursorKeyOf topic opts.name) (.cursor none)) w).2
    have hpages : Polls topic opts.name a.time (w.logs (logNsOf topic)) w₁
        ((evtMachine limit).solo i a (pollPages evtStore topic opts true
          ((w.logs (logNsOf topic)).length + 1) none false 0) w₁).2 :=
      solo_pollPages (w := w₁) ha true _ none false 0 (by
        show (w.logs (logNsOf topic)).length < 0 + ((w.logs (logNsOf topic)).length + 1)
        omega)
    exact (Polls.set (.inl rfl)).trans hpages
  · rw [passStart, if_neg hres, if_neg hres, Machine.solo_bind, solo_get]
    exact solo_pollPages ha false _ _ false 0 (by omega)

/-- A live event of an unowned topic is scanned exactly if it is where the pass
    starts or after. -/
theorem scanned_iff {id : JsString} (ht : isOwnedId topic = false)
    (hack : ¬Has (ackKey topic opts.name id) w) (hq : ¬Quarantined topic opts.name id w) :
    Scanned limit topic opts id w ↔
      ∃ r ∈ (w.logs (logNsOf topic)).drop (passStart topic opts.name w), r.id = id := by
  constructor
  · intro hs
    -- At some time the event is due.
    obtain ⟨t, hdue⟩ : ∃ t : Int, Due topic opts.name id t w := by
      cases hatt : readAttempts (w.kv.val (attKey topic opts.name id)) with
      | none => exact ⟨0, fun att h => absurd (hatt.symm.trans h) (by simp)⟩
      | some att =>
        refine ⟨⌈att.nextAt⌉, fun att' h => ?_⟩
        rw [← Option.some.inj (hatt.symm.trans h)]
        exact Int.le_ceil _
    let a : EvtAnswer := ⟨t, .ok (), none, []⟩
    have hpolls : Polls topic opts.name a.time
        ((w.logs (logNsOf topic)).drop (passStart topic opts.name w)) w
        ((evtMachine limit).solo 0 a
          (poll evtStore topic opts ((w.logs (logNsOf topic)).length + 1)) w).2 := solo_poll rfl
    rcases hpolls.writes (ackKey topic opts.name id) with h | ⟨r, hr, h⟩ | h | h
    · have hacked := hs 0 ⟨t, .ok (), none, []⟩ rfl hdue
      rw [Has, h] at hacked
      exact absurd hacked hack
    · exact ⟨r, hr, (markerKey_injective (by decide) (by decide) ht ht h).2.2.2.symm⟩
    · have hfam := congrArg family h
      rw [family_ackKey, family_cursorKeyOf] at hfam
      exact absurd hfam (by decide)
    · have hfam := congrArg family h
      rw [family_ackKey, family_rescanKeyOf] at hfam
      exact absurd hfam (by decide)
  · rintro ⟨r, hr, rfl⟩ i a ha hdue
    exact (solo_poll ha).acks r hr hq hdue

end Solo

/-! ## After an erasure -/

theorem idsUnique_play [EmptyCollection P] (limit : ℕ+) (calls : ℕ → EvtCall P)
    (ms : List (Move EvtAnswer Deletion)) :
    IdsUnique ((erasingMachine limit).play (evtStart (fun _ => []) calls) ms).world := by
  refine Machine.play_induction (fun c : Conf (EvtOp P) EvtOp.Res Unit (WorkState P EvtValue) =>
    IdsUnique c.world) ?_ ?_ ?_ (Machine.meets_true _ ms)
  · intro c i a o k h _ _
    cases o with
    | work o => exact h.exec o
    | _ => exact h
  · intro c e h
    cases e with
    | idPrefix p => exact h.deleteIdPrefix p
    | keyPrefix p => exact h.deletePrefix p
  · intro ns
    exact nodup_nil

section Erased

variable {owner : Owner} {w w' : WorkState P EvtValue}

/-- A key of another family has no marker's prefix. -/
theorem not_startsWith_markerPrefix {fam k : JsString} (p : JsString) (hfam : colon ∉ fam)
    (h : family k ≠ fam) : k.startsWith (markerPrefix fam p) = false := by
  rw [← Bool.not_eq_true, JsString.startsWith_iff]
  rintro ⟨rest, rfl⟩
  refine h ?_
  rw [markerPrefix, append_assoc, cons_append]
  exact family_append fam _ hfam

/-- Keys that are no markers keep their values. -/
theorem eraseEvents_val (p : JsString) {k : JsString} (hack : family k ≠ js "evtack")
    (hatt : family k ≠ js "evtatt") (hdead : family k ≠ js "evtdead") :
    (eraseEvents p w).kv.val k = w.kv.val k := by
  have h₁ := not_startsWith_markerPrefix p (by decide) hack
  have h₂ := not_startsWith_markerPrefix p (by decide) hatt
  have h₃ := not_startsWith_markerPrefix p (by decide) hdead
  simp [eraseEvents, WorkState.deletePrefix, WorkState.deleteIdPrefix, Kv.delete, h₁, h₂, h₃]

theorem eraseEvents_logs (p topic : JsString) : (eraseEvents p w).logs (logNsOf topic) =
    (w.logs (logNsOf topic)).filter fun r => !r.id.startsWith p := by
  have hfam : family (logNsOf topic) = js "evt" := family_append (js "evt") _ (by decide)
  have h₁ : (logNsOf topic).startsWith (markerPrefix (js "evtack") p) = false :=
    not_startsWith_markerPrefix p (by decide) (by rw [hfam]; decide)
  have h₂ : (logNsOf topic).startsWith (markerPrefix (js "evtatt") p) = false :=
    not_startsWith_markerPrefix p (by decide) (by rw [hfam]; decide)
  have h₃ : (logNsOf topic).startsWith (markerPrefix (js "evtdead") p) = false :=
    not_startsWith_markerPrefix p (by decide) (by rw [hfam]; decide)
  simp [eraseEvents, WorkState.deletePrefix, WorkState.deleteIdPrefix, h₁, h₂, h₃]

theorem eraseEvents_passStart (p topic consumer : JsString) :
    passStart topic consumer (eraseEvents p w) = passStart topic consumer w := by
  have hcur : family (cursorKeyOf topic consumer) = js "evtcursor" := family_cursorKeyOf ..
  have hres : family (rescanKeyOf topic consumer) = js "evtrescan" := family_rescanKeyOf ..
  rw [passStart, passStart, persistedCursor, persistedCursor,
    eraseEvents_val p (by rw [hres]; decide) (by rw [hres]; decide) (by rw [hres]; decide),
    eraseEvents_val p (by rw [hcur]; decide) (by rw [hcur]; decide) (by rw [hcur]; decide)]

/-- A key has what it had, or nothing. -/
theorem eraseEvents_val_or (p k : JsString) :
    (eraseEvents p w).kv.val k = none ∨ (eraseEvents p w).kv.val k = w.kv.val k := by
  simp only [eraseEvents, WorkState.deletePrefix, WorkState.deleteIdPrefix, Kv.delete]
  split_ifs <;> simp

theorem eventErase_ok (h : eventErase owner w = .ok w') :
    ∃ pre, ownedPrefix owner = .ok pre ∧ w' = eraseEvents pre w := by
  unfold eventErase at h
  cases hp : ownedPrefix owner with
  | error e => rw [hp] at h; cases h
  | ok pre =>
    rw [hp] at h
    cases h
    exact ⟨pre, rfl, rfl⟩

end Erased

/-- Another owner's live event has at least as many events before it that are not the
    erased owner's as the consumer's next pass starts after. -/
def FitsPass (owner : Owner) (w : WorkState P EvtValue) : Prop :=
  ∀ pre, ownedPrefix owner = .ok pre → ∀ topic consumer, assertTopic topic = .ok () →
    ∀ p e, (w.logs (logNsOf topic))[p]? = some e → LiveOther owner topic consumer e w →
      passStart topic consumer w +
        ((w.logs (logNsOf topic)).take p).countP (·.id.startsWith pre) ≤ p

/-- **Erasing one person's events.** In every state a run can reach, after an erasure
    every consumer's polls scan every live event of every other owner, exactly if the
    start of the consumer's pass and the number of the person's events before the
    event leave room for it. -/
theorem erase_scanned_iff [EmptyCollection P] (limit : ℕ+) (calls : ℕ → EvtCall P)
    (ms : List (Move EvtAnswer Deletion)) (owner : Owner) (w' : WorkState P EvtValue)
    (h : eventErase owner
      ((erasingMachine limit).play (evtStart (fun _ => []) calls) ms).world = .ok w') :
    let w := ((erasingMachine limit).play (evtStart (fun _ => []) calls) ms).world
    (∀ topic opts, assertTopic topic = .ok () → ∀ e ∈ w.logs (logNsOf topic),
      LiveOther owner topic opts.name e w → Scanned limit topic opts e.id w') ↔
        FitsPass owner w := by
  intro w
  have huniq : IdsUnique w := idsUnique_play limit calls ms
  obtain ⟨pre, hpre, rfl⟩ := eventErase_ok h
  -- For each event: it is kept, and scanned where it has gone.
  have hevent : ∀ topic opts, assertTopic topic = .ok () → ∀ p e,
      (w.logs (logNsOf topic))[p]? = some e → LiveOther owner topic opts.name e w →
        (Scanned limit topic opts e.id (eraseEvents pre w) ↔ passStart topic opts.name w +
          ((w.logs (logNsOf topic)).take p).countP (·.id.startsWith pre) ≤ p) := by
    rintro topic opts htopic p e hp ⟨hack, hq, name, other, hother, hname⟩
    have hkeep : e.id.startsWith pre = false := by
      rw [← Bool.not_eq_true, JsString.startsWith_iff]
      exact fun hs => hother (ownedPrefix_isPrefix_ownedName hpre hname hs)
    have hack' : ¬Has (ackKey topic opts.name e.id) (eraseEvents pre w) := by
      rw [Has]
      rcases eraseEvents_val_or (w := w) pre (ackKey topic opts.name e.id) with hv | hv <;> rw [hv]
      · simp
      · exact hack
    have hq' : ¬Quarantined topic opts.name e.id (eraseEvents pre w) := by
      rw [Quarantined]
      rcases eraseEvents_val_or (w := w) pre (deadKey topic opts.name e.id) with hv | hv <;> rw [hv]
      · simp [readDead]
      · exact hq
    rw [scanned_iff (isOwnedId_of_assertTopic htopic) hack' hq', eraseEvents_logs,
      eraseEvents_passStart]
    exact exists_mem_drop_filter (huniq _) hp hkeep
  constructor
  · intro hs pre' hpre' topic consumer htopic p e hp hlive
    rw [hpre] at hpre'
    cases hpre'
    exact (hevent topic ⟨consumer, none⟩ htopic p e hp hlive).1
      (hs topic ⟨consumer, none⟩ htopic e (List.mem_of_getElem? hp) hlive)
  · intro hfit topic opts htopic e hmem hlive
    obtain ⟨p, hp⟩ := List.mem_iff_getElem?.1 hmem
    exact (hevent topic opts htopic p e hp hlive).2 (hfit pre hpre topic opts.name htopic p e hp hlive)

/-- An event of `A` and one of `B`, and then polls of the consumer `c`. -/
def twoPublishers : ℕ → EvtCall JsString
  | 0 => .emit (js "t") [] ⟨some (js "x"), none, ⟨none, some (js "A")⟩⟩
  | 1 => .emit (js "t") [] ⟨some (js "y"), none, ⟨none, some (js "B")⟩⟩
  | _ => .poll (js "t") ⟨js "c", some 8⟩ 3

/-- Steps of a program whose outside calls all succeed. -/
def evtSteps (i n : ℕ) : List (Move EvtAnswer Deletion) :=
  List.replicate n (.run i ⟨0, .ok (), none, js "g"⟩)

/-- With pages of one event, `A`'s event is delivered, the cursor passes it, and the
    delivery of `B`'s event fails once: it waits for its next attempt. -/
def awaitingRedelivery : WorkState JsString EvtValue :=
  ((erasingMachine ⟨1, Nat.one_pos⟩).play (evtStart (fun _ => []) twoPublishers)
    (evtSteps 0 2 ++ evtSteps 1 2 ++ evtSteps 2 13 ++
      [.run 2 ⟨0, .error (js "e"), none, js "g"⟩] ++ evtSteps 2 6)).world

theorem erase_scanned_iff_awaitingRedelivery :
    ∃ w', eventErase ⟨none, some (js "A")⟩ awaitingRedelivery = .ok w' ∧
      ((∀ topic opts, assertTopic topic = .ok () → ∀ e ∈ awaitingRedelivery.logs (logNsOf topic),
        LiveOther ⟨none, some (js "A")⟩ topic opts.name e awaitingRedelivery →
          Scanned ⟨1, Nat.one_pos⟩ topic opts e.id w') ↔
        FitsPass ⟨none, some (js "A")⟩ awaitingRedelivery) :=
  ⟨_, rfl, erase_scanned_iff _ twoPublishers _ _ _ rfl⟩

/-- Erasing `A` moves `B`'s waiting event before the cursor: no poll scans it. -/
theorem erase_loses_event :
    ¬∀ w', eventErase ⟨none, some (js "A")⟩ awaitingRedelivery = .ok w' →
      ∀ topic opts, assertTopic topic = .ok () → ∀ e ∈ awaitingRedelivery.logs (logNsOf topic),
        LiveOther ⟨none, some (js "A")⟩ topic opts.name e awaitingRedelivery →
          Scanned ⟨1, Nat.one_pos⟩ topic opts e.id w' := by
  intro h
  have hs := h _ rfl (js "t") ⟨js "c", some 8⟩ (by rfl) ⟨js "~o~:B:y", []⟩ (by decide +kernel)
    ⟨by simp only [Has]; decide +kernel, by simp only [Quarantined]; decide +kernel,
      js "y", ⟨none, some (js "B")⟩, by decide, by rfl⟩
    0 ⟨60000, .ok (), none, []⟩ rfl (by decide +kernel)
  revert hs
  simp only [Has]
  decide +kernel

end Gnldev.Events
