import Gnldev.Queue.Lease
import Mathlib.Data.List.MinMax
import Mathlib.Data.List.Nodup
import Mathlib.Order.Nat

/-!
# Fencing the terminal writes

A worker whose lease has been taken over is to be kept from writing the outcome of
the job. Its lease is fenced in the run journal, but the outcome is written to the
work store; there it is fenced by `qown`, where a worker puts its token after it has
won the lease, and which it swaps for itself before it writes. So there are two
chains, and they can disagree:

* a worker puts its token after its lease has been taken over;
* a worker checks the token before the one that took over has put its own;
* a worker writes the outcome after a check, but the lease was taken over since.

In a run without these three (`FencedInTime`) every outcome is written by the holder
of the lease, and the holder is never refused (`terminal_writes_fenced`). With them a
superseded worker writes, or the holder is refused (`superseded_worker_writes`).
-/

open List

namespace Gnldev.Queue

open Durable

variable {P : Type}

/-! ## The statement -/

/-- The call has put its token under the job's `qown`. -/
def signed (id : JsString) (i : ℕ) (es : List QEvent) : Bool :=
  es.any fun
    | .wrote k j _ => k = qown id ∧ j = i
    | _ => false

/-- Someone has won the lease of the job since the call's last successful check. -/
def retaken (id : JsString) (i : ℕ) : List QEvent → Bool
  | [] => false
  | .acquired k _ _ :: es => k = leaseKey id || retaken id i es
  | .swapped k j :: es => if k = qown id ∧ j = i then false else retaken id i es
  | .wrote .. :: es => retaken id i es

/-- The outcome of a job is written by the holder of its lease, whose check is
    answered yes. -/
def Fenced (w : QWorld P) (i : ℕ) : (o : QOp P) → o.Res → Prop
  | .work (.put k _), _ => ∀ id, Guarded id k → holder id w = some i
  | .work (.putIfMatch k _ _), won => ∀ id, k = qown id → holder id w = some i → won = true
  | _, _ => True

/-- A token is put by the holder of the lease, checked when the holder has put its own,
    and an outcome is written when the lease has not been won since the check. -/
def FencedInTime (w : QWorld P) (i : ℕ) : (o : QOp P) → o.Res → Prop
  | .work (.put k _), _ => (∀ id, k = qown id → holder id w = some i) ∧
    ∀ id, Guarded id k → retaken id i w.trace = false
  | .work (.putIfMatch k _ _), _ => ∀ id, k = qown id →
    ∀ h, holder id w = some h → h ≠ i → signed id h w.trace
  | _, _ => True

/-! ## Events -/

/-- The call an event is of. -/
def QEvent.tid : QEvent → ℕ
  | acquired _ i _ => i
  | wrote _ i _ => i
  | swapped _ i => i

variable {id : JsString}

theorem qown_inj {id' : JsString} : qown id = qown id' ↔ id = id' := append_right_inj _

/-- An outcome is not written under `qown`. -/
theorem not_guarded_qown (id id' : JsString) : ¬Guarded id' (qown id) := by
  obtain ⟨h₁, h₂, h₃⟩ := qown_ne id id'
  rintro (hk | hk | hk)
  · exact h₁ hk
  · exact h₂ hk
  · exact h₃ hk

/-- An outcome is of one job. -/
theorem guarded_inj {id' k : JsString} (h : Guarded id k) (h' : Guarded id' k) : id = id' := by
  rcases h with rfl | rfl | rfl <;> rcases h' with h' | h' | h'
  · exact (append_right_inj _).1 h'
  · exact absurd h' (JsString.append_ne_append (by decide) (by decide) _ _)
  · exact absurd h' (JsString.append_ne_append (by decide) (by decide) _ _)
  · exact absurd h' (JsString.append_ne_append (by decide) (by decide) _ _)
  · exact (append_right_inj _).1 h'
  · exact absurd h' (JsString.append_ne_append (by decide) (by decide) _ _)
  · exact absurd h' (JsString.append_ne_append (by decide) (by decide) _ _)
  · exact absurd h' (JsString.append_ne_append (by decide) (by decide) _ _)
  · exact (append_right_inj _).1 h'

section Events

variable {id : JsString} {i : ℕ} {es : List QEvent}

theorem signed_cons_of {e : QEvent} (h : signed id i es) : signed id i (e :: es) := by
  rw [signed, any_cons, Bool.or_eq_true]
  exact .inr h

theorem signed_cons_acquired {k t : JsString} {j : ℕ} :
    signed id i (.acquired k j t :: es) = signed id i es := rfl

theorem signed_cons_wrote {k : JsString} {j : ℕ} {v : JobValue} :
    signed id i (.wrote k j v :: es) = true ↔ (k = qown id ∧ j = i) ∨ signed id i es = true := by
  simp [signed]

/-- Events of other calls: what a call knows of the holder since its check stays true. -/
theorem retaken_cons {e : QEvent} (he : e.tid ≠ i) (h : retaken id i (e :: es) = false) :
    retaken id i es = false ∧ lastWin (leaseKey id) (e :: es) = lastWin (leaseKey id) es := by
  cases e with
  | acquired k j t =>
    rw [retaken, Bool.or_eq_false_iff, decide_eq_false_iff_not] at h
    exact ⟨h.2, by rw [lastWin, if_neg h.1]⟩
  | wrote => exact ⟨h, rfl⟩
  | swapped k j =>
    rw [retaken, if_neg fun hk => he hk.2] at h
    exact ⟨h, rfl⟩

end Events

/-! ## The invariant -/

/-- What a call knows in its phase. -/
def Phase.Knows (w : QWorld P) (i : ℕ) : Phase → Prop
  | free => ∀ k t, .acquired k i t ∉ w.trace
  | looked .. => ∀ k t, .acquired k i t ∉ w.trace
  | drew _ token => (∀ k t, .acquired k i t ∉ w.trace) ∧ (i, token) ∈ w.drawn
  | leased id token => .acquired (leaseKey id) i token ∈ w.trace
  | owned id token _ => .acquired (leaseKey id) i token ∈ w.trace ∧ signed id i w.trace
  | checked id token => .acquired (leaseKey id) i token ∈ w.trace ∧ signed id i w.trace ∧
    (retaken id i w.trace = false → lastWin (leaseKey id) w.trace = some (i, token))

/-- What is true of the stores and the tokens. -/
structure FenceWorld (w : QWorld P) : Prop where
  fresh : (w.drawn.map (·.2)).Nodup
  drawn : ∀ k i t, .acquired k i t ∈ w.trace → (i, t) ∈ w.drawn
  once : ∀ k k' i t t', .acquired k i t ∈ w.trace → .acquired k' i t' ∈ w.trace → k = k' ∧ t = t'
  runs : ∀ k rec_, w.runs.val k = some rec_ → ∃ k' j, .acquired k' j rec_.token ∈ w.trace
  signer : ∀ id i, signed id i w.trace → ∃ k t, .acquired k i t ∈ w.trace
  /-- The token of the holder, once it is put, stays. -/
  value : ∀ id h t, lastWin (leaseKey id) w.trace = some (h, t) → signed id h w.trace →
    w.work.kv.val (qown id) = some (.token t)

/-- The invariant. -/
structure FenceInv (w : QWorld P) (ph : ℕ → Phase) : Prop where
  world : FenceWorld w
  knows : ∀ i, (ph i).Knows w i

variable {w w' : QWorld P} {i : ℕ} {s : Phase}

/-- A step of the call `i` leaves what the other calls know. -/
theorem Phase.Knows.frame {j : ℕ} (h : s.Knows w j) (hj : j ≠ i)
    (htrace : w'.trace = w.trace ∨ ∃ e : QEvent, e.tid = i ∧ w'.trace = e :: w.trace)
    (hdrawn : ∀ x ∈ w.drawn, x ∈ w'.drawn) : s.Knows w' j := by
  have hmem : ∀ e ∈ w.trace, e ∈ w'.trace := by
    intro e he
    rcases htrace with ht | ⟨e', -, ht⟩
    · rwa [ht]
    · rw [ht]
      exact .tail _ he
  have hnot : (∀ k t, .acquired k j t ∉ w.trace) → ∀ k t, .acquired k j t ∉ w'.trace := by
    intro hn k t hm
    rcases htrace with ht | ⟨e', he', ht⟩
    · rw [ht] at hm
      exact hn k t hm
    · rw [ht] at hm
      rcases mem_cons.1 hm with he | hm
      · rw [← he] at he'
        exact hj he'
      · exact hn k t hm
  have hsigned : ∀ id, signed id j w.trace → signed id j w'.trace := by
    intro id hs
    rcases htrace with ht | ⟨e', -, ht⟩
    · rwa [ht]
    · rw [ht]
      exact signed_cons_of hs
  cases s with
  | free => exact hnot h
  | looked => exact hnot h
  | drew id token => exact ⟨hnot h.1, hdrawn _ h.2⟩
  | leased id token => exact hmem _ h
  | owned id token started => exact ⟨hmem _ h.1, hsigned id h.2⟩
  | checked id token =>
    refine ⟨hmem _ h.1, hsigned id h.2.1, fun hr => ?_⟩
    rcases htrace with ht | ⟨e', he', ht⟩
    · rw [ht] at hr ⊢
      exact h.2.2 hr
    · rw [ht] at hr ⊢
      obtain ⟨hr, hl⟩ := retaken_cons (by rw [he']; exact hj.symm) hr
      rw [hl]
      exact h.2.2 hr

/-- The invariant after a step of the call `i` that makes at most one event. -/
theorem FenceInv.update {ph : ℕ → Phase} (h : FenceInv w ph) (hw : FenceWorld w')
    (hs : s.Knows w' i)
    (htrace : w'.trace = w.trace ∨ ∃ e : QEvent, e.tid = i ∧ w'.trace = e :: w.trace)
    (hdrawn : ∀ x ∈ w.drawn, x ∈ w'.drawn) : FenceInv w' (Function.update ph i s) where
  world := hw
  knows j := by
    by_cases hj : j = i
    · subst hj
      rwa [Function.update_self]
    · rw [Function.update_of_ne hj]
      exact (h.knows j).frame hj htrace hdrawn

/-! ## Steps -/

/-- The event is neither the win of a lock nor a write under `qown`. -/
def QEvent.Quiet : QEvent → Prop
  | acquired .. => False
  | wrote k _ _ => ∀ id, k ≠ qown id
  | swapped .. => True

theorem QEvent.Quiet.signed_cons {e : QEvent} (he : e.Quiet) {es : List QEvent} :
    signed id i (e :: es) = signed id i es := by
  cases e with
  | acquired => exact he.elim
  | wrote k j v =>
    rw [Bool.eq_iff_iff, signed_cons_wrote]
    exact ⟨fun h => h.resolve_left fun hk => he id hk.1, .inr⟩
  | swapped => rfl

theorem QEvent.Quiet.lastWin_cons {e : QEvent} (he : e.Quiet) {key : JsString}
    {es : List QEvent} : lastWin key (e :: es) = lastWin key es := by
  cases e with
  | acquired => exact he.elim
  | wrote => rfl
  | swapped => rfl

namespace FenceWorld

variable {w w' : QWorld P} {i : ℕ}

/-- A step without a win, and without a write under `qown`. -/
theorem quiet (h : FenceWorld w)
    (htrace : w'.trace = w.trace ∨ ∃ e : QEvent, e.Quiet ∧ w'.trace = e :: w.trace)
    (hdrawn : w'.drawn = w.drawn)
    (hruns : ∀ k rec_, w'.runs.val k = some rec_ →
      ∃ k' rec', w.runs.val k' = some rec' ∧ rec'.token = rec_.token)
    (hval : ∀ id, w'.work.kv.val (qown id) = w.work.kv.val (qown id)) : FenceWorld w' := by
  have hacq : ∀ k j t, .acquired k j t ∈ w'.trace ↔ .acquired k j t ∈ w.trace := by
    intro k j t
    rcases htrace with ht | ⟨e, he, ht⟩
    · rw [ht]
    · rw [ht, mem_cons]
      refine ⟨fun hm => hm.resolve_left ?_, .inr⟩
      rintro rfl
      exact he
  have hsigned : ∀ id j, signed id j w'.trace = signed id j w.trace := by
    intro id j
    rcases htrace with ht | ⟨e, he, ht⟩
    · rw [ht]
    · rw [ht, he.signed_cons]
  have hwin : ∀ k, lastWin k w'.trace = lastWin k w.trace := by
    intro k
    rcases htrace with ht | ⟨e, he, ht⟩
    · rw [ht]
    · rw [ht, he.lastWin_cons]
  refine ⟨by rw [hdrawn]; exact h.fresh, ?_, ?_, ?_, ?_, ?_⟩
  · intro k j t hm
    rw [hdrawn]
    exact h.drawn k j t ((hacq k j t).1 hm)
  · intro k k' j t t' hm hm'
    exact h.once k k' j t t' ((hacq _ _ _).1 hm) ((hacq _ _ _).1 hm')
  · intro k rec_ hrec
    obtain ⟨k', rec', hrec', htok⟩ := hruns k rec_ hrec
    obtain ⟨k'', j, hm⟩ := h.runs k' rec' hrec'
    rw [htok] at hm
    exact ⟨k'', j, (hacq _ _ _).2 hm⟩
  · intro id j hs
    rw [hsigned] at hs
    obtain ⟨k, t, hm⟩ := h.signer id j hs
    exact ⟨k, t, (hacq _ _ _).2 hm⟩
  · intro id j t hw hs
    rw [hwin] at hw
    rw [hsigned] at hs
    rw [hval]
    exact h.value id j t hw hs

/-- A token is drawn that was never drawn before. -/
theorem draw (h : FenceWorld w) {t : JsString} (ht : t ∉ w.drawn.map (·.2)) :
    FenceWorld { w with drawn := (i, t) :: w.drawn } where
  fresh := nodup_cons.2 ⟨ht, h.fresh⟩
  drawn k j t' hm := .tail _ (h.drawn k j t' hm)
  once := h.once
  runs := h.runs
  signer := h.signer
  value := h.value

variable {id token : JsString}

/-- A call that has not won anything wins a lease, with a token of its own. -/
theorem win (h : FenceWorld w) (hnone : ∀ k t, .acquired k i t ∉ w.trace)
    (htok : (i, token) ∈ w.drawn) (htrace : w'.trace = .acquired (leaseKey id) i token :: w.trace)
    (hdrawn : w'.drawn = w.drawn)
    (hruns : ∀ k rec_, w'.runs.val k = some rec_ → w.runs.val k = some rec_ ∨ rec_.token = token)
    (hval : w'.work = w.work) : FenceWorld w' where
  fresh := by rw [hdrawn]; exact h.fresh
  drawn k j t hm := by
    rw [hdrawn]
    rw [htrace] at hm
    rcases mem_cons.1 hm with he | hm
    · cases he
      exact htok
    · exact h.drawn k j t hm
  once k k' j t t' hm hm' := by
    rw [htrace] at hm hm'
    rcases mem_cons.1 hm with he | hm <;> rcases mem_cons.1 hm' with he' | hm'
    · cases he
      cases he'
      exact ⟨rfl, rfl⟩
    · cases he
      exact absurd hm' (hnone _ _)
    · cases he'
      exact absurd hm (hnone _ _)
    · exact h.once k k' j t t' hm hm'
  runs k rec_ hrec := by
    rw [htrace]
    rcases hruns k rec_ hrec with hrec | hrec
    · obtain ⟨k', j, hm⟩ := h.runs k rec_ hrec
      exact ⟨k', j, .tail _ hm⟩
    · rw [hrec]
      exact ⟨_, _, .head _⟩
  signer id' j hs := by
    rw [htrace, signed_cons_acquired] at hs
    obtain ⟨k, t, hm⟩ := h.signer id' j hs
    rw [htrace]
    exact ⟨k, t, .tail _ hm⟩
  value id' j t hw hs := by
    rw [htrace, lastWin] at hw
    rw [htrace, signed_cons_acquired] at hs
    rw [hval]
    split at hw
    · -- The winner has not put its token yet.
      cases hw
      obtain ⟨k, t', hm⟩ := h.signer id' _ hs
      exact absurd hm (hnone k t')
    · exact h.value id' j t hw hs

/-- The holder of a lease puts its token. -/
theorem own (h : FenceWorld w) (hwin : lastWin (leaseKey id) w.trace = some (i, token)) (t : Int) :
    FenceWorld { w with
      work := { w.work with kv := w.work.kv.set i t (qown id) (.token token) }
      trace := .wrote (qown id) i (.token token) :: w.trace } where
  fresh := h.fresh
  drawn k j t' hm := h.drawn k j t' ((mem_cons.1 hm).resolve_left (by simp))
  once k k' j t' t'' hm hm' := h.once k k' j t' t'' ((mem_cons.1 hm).resolve_left (by simp))
    ((mem_cons.1 hm').resolve_left (by simp))
  runs k rec_ hrec := by
    obtain ⟨k', j, hm⟩ := h.runs k rec_ hrec
    exact ⟨k', j, .tail _ hm⟩
  signer id' j hs := by
    rcases signed_cons_wrote.1 hs with ⟨-, rfl⟩ | hs
    · exact ⟨_, _, .tail _ (lastWin_mem hwin)⟩
    · obtain ⟨k, t', hm⟩ := h.signer id' j hs
      exact ⟨k, t', .tail _ hm⟩
  value id' j t' hw hs := by
    change lastWin (leaseKey id') w.trace = some (j, t') at hw
    by_cases hid : id' = id
    · subst hid
      rw [hwin, Option.some.injEq, Prod.mk.injEq] at hw
      rw [← hw.2]
      exact Kv.set_val_self ..
    · rcases signed_cons_wrote.1 hs with ⟨hk, -⟩ | hs
      · exact absurd (qown_inj.1 hk).symm hid
      · exact (Kv.set_val_of_ne _ _ _ _ fun hk => hid (qown_inj.1 hk)).trans (h.value id' j t' hw hs)

/-- A token is drawn by one call only. -/
theorem drawn_unique (h : FenceWorld w) {j : ℕ} {t : JsString} (hi : (i, t) ∈ w.drawn)
    (hj : (j, t) ∈ w.drawn) : i = j := by
  have := inj_on_of_nodup_map h.fresh hi hj rfl
  exact congrArg Prod.fst this

/-- The holder's token is the one it won the lease with. -/
theorem lastWin_eq (h : FenceWorld w) (hwon : .acquired (leaseKey id) i token ∈ w.trace)
    (hh : holder id w = some i) :
    lastWin (leaseKey id) w.trace = some (i, token) := by
  obtain ⟨⟨j, t⟩, ht, rfl⟩ := Option.map_eq_some_iff.1 hh
  rw [ht, (h.once _ _ _ _ _ hwon (lastWin_mem ht)).2]

end FenceWorld

theorem freshFor_notMem (drawn : List (ℕ × JsString)) (proposed : JsString) :
    freshFor drawn proposed ∉ drawn.map (·.2) := by
  rw [freshFor]
  split
  · intro hm
    obtain ⟨⟨i, t⟩, hx, ht⟩ := mem_map.1 hm
    -- The new token is longer than every one drawn.
    have hmem : t.length ∈ drawn.map (·.2.length) := mem_map.2 ⟨_, hx, rfl⟩
    have hle : t.length ≤ (drawn.map (·.2.length)).foldr max 0 := le_max_of_le hmem le_rfl
    have hlen := congrArg List.length ht
    rw [length_replicate] at hlen
    change t.length = _ at hlen
    omega
  · assumption

/-- An operation on the work store makes at most one event, of its call. -/
theorem exec_work_trace (limit : ℕ+) (i : ℕ) (a : QAnswer) (w : QWorld P)
    (o : WorkOp (JobRecord P) JobValue) :
    ((qMachine limit).exec i a (.work o) w).2.trace = w.trace ∨
      ∃ e : QEvent, e.tid = i ∧ (e.Quiet ∨ ∃ k v id, o = .put k v ∧ k = qown id) ∧
        ((qMachine limit).exec i a (.work o) w).2.trace = e :: w.trace := by
  have hev : ((qMachine limit).exec i a (.work o) w).2.trace =
    QOp.events i (.work o) ((qMachine limit).exec i a (.work o) w).1 ++ w.trace := rfl
  rw [hev]
  cases o with
  | put k v =>
    refine .inr ⟨.wrote k i v, rfl, ?_, rfl⟩
    by_cases hk : ∃ id, k = qown id
    · obtain ⟨id, hk⟩ := hk
      exact .inr ⟨k, v, id, rfl, hk⟩
    · exact .inl fun id h => hk ⟨id, h⟩
  | putIfMatch k e v =>
    generalize ((qMachine limit).exec i a (.work (.putIfMatch k e v)) w).1 = won
    cases won with
    | true => exact .inr ⟨.swapped k i, rfl, .inl trivial, rfl⟩
    | false => exact .inl rfl
  | append => exact .inl rfl
  | list => exact .inl rfl
  | get => exact .inl rfl
  | ackOnce => exact .inl rfl

section Exec

variable {w : QWorld P} {i : ℕ} {limit : ℕ+} {a : QAnswer}

theorem exec_read_trace {o : WorkOp (JobRecord P) JobValue} (hw : o.writes (.attempts 1) = none) :
    ((qMachine limit).exec i a (.work o) w).2.trace = w.trace := by
  cases o <;> first | rfl | cases hw

/-- An insertion takes place, or nothing happens. -/
theorem exec_insert (limit : ℕ+) (i : ℕ) (a : QAnswer) (w : QWorld P) (k : JsString)
    (v : LockRecord) :
    let x := (qMachine limit).exec i a (.lock (.kv (.putIfAbsent k v))) w
    (x.1 = true ∧ x.2.runs = w.runs.set i w.clock k v) ∨ (x.1 = false ∧ x.2.runs = w.runs) := by
  by_cases h : w.runs.val k = none
  · refine .inl ?_
    simp [qMachine, lockMachine, Kv.exec, h]
  · refine .inr ?_
    simp [qMachine, lockMachine, Kv.exec, h]

/-- A swap replaces the expected record, or nothing happens. -/
theorem exec_swap (limit : ℕ+) (i : ℕ) (a : QAnswer) (w : QWorld P) (k : JsString)
    (e v : LockRecord) :
    let x := (qMachine limit).exec i a (.lock (.kv (.putIfMatch k e v))) w
    (x.1 = true ∧ w.runs.val k = some e ∧ x.2.runs = w.runs.set i w.clock k v) ∨
      (x.1 = false ∧ x.2.runs = w.runs) := by
  by_cases h : w.runs.val k = some e
  · refine .inl ?_
    simp [qMachine, lockMachine, Kv.exec, h]
  · refine .inr ?_
    simp [qMachine, lockMachine, Kv.exec, h]

/-- A check succeeds exactly on the token, and leaves it there. -/
theorem exec_check (limit : ℕ+) (i : ℕ) (a : QAnswer) (w : QWorld P) (id token : JsString) :
    let x := (qMachine limit).exec i a
      (.work (.putIfMatch (qown id) (.token token) (.token token))) w
    (x.1 = true ↔ w.work.kv.val (qown id) = some (.token token)) ∧
      x.2.work.kv.val = w.work.kv.val := by
  by_cases h : w.work.kv.val (qown id) = some (.token token)
  · refine ⟨by simp [qMachine, WorkOp.exec, h], ?_⟩
    simp only [qMachine, WorkOp.exec, h, if_true, Kv.set]
    rw [← h, Function.update_eq_self]
  · exact ⟨by simp [qMachine, WorkOp.exec, h], by simp [qMachine, WorkOp.exec, h]⟩

theorem set_val_cases {k k' : JsString} {v rec_ : LockRecord} {t : Int}
    (h : (w.runs.set i t k v).val k' = some rec_) :
    w.runs.val k' = some rec_ ∨ (k' = k ∧ rec_ = v) := by
  by_cases hk : k' = k
  · subst hk
    rw [Kv.set_val_self, Option.some.injEq] at h
    exact .inr ⟨rfl, h.symm⟩
  · rw [Kv.set_val_of_ne _ _ _ _ hk] at h
    exact .inl h

end Exec

/-- The same locks have the same tokens. -/
theorem tokens_of_runs (h : w'.runs = w.runs) (k : JsString) (rec_ : LockRecord)
    (hrec : w'.runs.val k = some rec_) :
    ∃ k' rec', w.runs.val k' = some rec' ∧ rec'.token = rec_.token :=
  ⟨k, rec_, h ▸ hrec, rfl⟩

/-- What a call knows depends on the events and the tokens drawn. -/
theorem Phase.Knows.congr (h : s.Knows w i) (htrace : w'.trace = w.trace)
    (hdrawn : ∀ x ∈ w.drawn, x ∈ w'.drawn) : s.Knows w' i := by
  cases s with
  | drew id token =>
    refine ⟨?_, hdrawn _ h.2⟩
    rw [htrace]
    exact h.1
  | _ =>
    simp only [Knows, htrace]
    exact h

namespace FenceInv

variable {w : QWorld P} {ph : ℕ → Phase} {i : ℕ} {s : Phase} {limit : ℕ+} {a : QAnswer}

/-- An operation on the work store that leaves `qown`. -/
theorem work (h : FenceInv w ph) {o : WorkOp (JobRecord P) JobValue}
    (hput : ∀ k v id, o = .put k v → k ≠ qown id)
    (hval : ∀ id, ((qMachine limit).exec i a (.work o) w).2.work.kv.val (qown id) =
      w.work.kv.val (qown id))
    (hs : s.Knows ((qMachine limit).exec i a (.work o) w).2 i) :
    FenceInv ((qMachine limit).exec i a (.work o) w).2 (Function.update ph i s) := by
  have htrace := exec_work_trace limit i a w o
  refine h.update (h.world.quiet ?_ rfl (tokens_of_runs rfl) hval) hs ?_ fun _ hx => hx
  · rcases htrace with ht | ⟨e, -, he | ⟨k, v, id, hk, hkey⟩, ht⟩
    · exact .inl ht
    · exact .inr ⟨e, he, ht⟩
    · exact absurd hkey (hput k v id hk)
  · rcases htrace with ht | ⟨e, he, -, ht⟩
    · exact .inl ht
    · exact .inr ⟨e, he, ht⟩

/-- An operation that makes no event, and leaves the stores but for a lock with the same
    token. -/
theorem idle (h : FenceInv w ph) {w' : QWorld P} (htrace : w'.trace = w.trace)
    (hdrawn : w'.drawn = w.drawn) (hwork : w'.work = w.work)
    (hruns : ∀ k rec_, w'.runs.val k = some rec_ →
      ∃ k' rec', w.runs.val k' = some rec' ∧ rec'.token = rec_.token)
    (hs : s.Knows w' i) : FenceInv w' (Function.update ph i s) := by
  refine h.update (h.world.quiet (.inl htrace) hdrawn hruns fun id => ?_) hs (.inl htrace) ?_
  · rw [hwork]
  · rw [hdrawn]
    exact fun _ hx => hx

/-- An operation on a lock that is lost. -/
theorem lost (h : FenceInv w ph) {o : LockOp} (hruns : ((qMachine limit).exec i a (.lock o) w).2.runs =
      w.runs) (hev : QOp.events i (.lock o) ((qMachine limit).exec i a (.lock o) w).1 = [])
    (hs : s.Knows w i) :
    FenceInv ((qMachine limit).exec i a (.lock o) w).2 (Function.update ph i s) := by
  have htrace : ((qMachine limit).exec i a (.lock o) w).2.trace = w.trace := by
    rw [exec_lock_trace, hev]
    rfl
  exact h.idle htrace rfl rfl (tokens_of_runs hruns) (hs.congr htrace fun _ hx => hx)

variable {id token : JsString}

/-- A call that has drawn a token wins the lease with it. -/
theorem win (h : FenceInv w ph) (hi : (Phase.drew id token).Knows w i) {w' : QWorld P}
    (htrace : w'.trace = .acquired (leaseKey id) i token :: w.trace) (hdrawn : w'.drawn = w.drawn)
    (hruns : ∀ k rec_, w'.runs.val k = some rec_ → w.runs.val k = some rec_ ∨ rec_.token = token)
    (hwork : w'.work = w.work) : FenceInv w' (Function.update ph i (.leased id token)) := by
  refine h.update (h.world.win hi.1 hi.2 htrace hdrawn hruns hwork) ?_
    (.inr ⟨_, rfl, htrace⟩) ?_
  · rw [Phase.Knows, htrace]
    exact .head _
  · rw [hdrawn]
    exact fun _ hx => hx

/-- The token of a record in the journal is not the one a call has just drawn. -/
theorem token_ne (h : FenceInv w ph) (hi : (Phase.drew id token).Knows w i) {k : JsString}
    {rec_ : LockRecord} (hrec : w.runs.val k = some rec_) : rec_.token ≠ token := by
  intro he
  obtain ⟨k', j, hm⟩ := h.world.runs k rec_ hrec
  rw [he] at hm
  have hij := h.world.drawn_unique hi.2 (h.world.drawn _ _ _ hm)
  subst hij
  exact hi.1 k' token hm

/-- A check that succeeds is the holder's, once the holder has put its token. -/
theorem lastWin_of_check (h : FenceInv w ph) (hwon : .acquired (leaseKey id) i token ∈ w.trace)
    (hval : w.work.kv.val (qown id) = some (.token token))
    (hok : ∀ j, holder id w = some j → j ≠ i → signed id j w.trace) :
    lastWin (leaseKey id) w.trace = some (i, token) := by
  obtain ⟨⟨j, t⟩, hlast⟩ := Option.isSome_iff_exists.1 (lastWin_isSome hwon)
  have hh : holder id w = some j := by rw [holder, hlast]; rfl
  by_cases hj : j = i
  · subst hj
    exact h.world.lastWin_eq hwon hh
  · have ht := h.world.value id j t hlast (hok j hh hj)
    rw [hval, Option.some.injEq, JobValue.token.injEq] at ht
    subst ht
    have := h.world.drawn_unique (h.world.drawn _ _ _ (lastWin_mem hlast))
      (h.world.drawn _ _ _ hwon)
    exact absurd this hj

theorem step (h : FenceInv w ph) {o : QOp P} {r : o.Res} (hs : Step (ph i) o r s)
    (hr : ((qMachine limit).exec i a o w).1 = r) (hok : FencedInTime w i o r) :
    FenceInv ((qMachine limit).exec i a o w).2 (Function.update ph i s) := by
  have hi := h.knows i
  generalize hph : ph i = s₀ at hs hi
  cases hs with
  | read hw =>
    refine h.work ?_ (fun id => ?_) (hi.congr (exec_read_trace hw) fun _ hx => hx)
    · rintro k v id rfl
      cases hw
    · rcases WorkOp.exec_val _ w.work (qown id) with hv | ⟨v, hv, -⟩
      · exact hv
      · rw [hw] at hv
        cases hv
  | look hl =>
    refine h.work ?_ (fun id => rfl) ?_
    · rintro k v id ⟨⟩
    · cases hl with
      | done => exact hi
      | fail => split <;> exact hi
  | outside ho =>
    rw [exec_outside ho]
    exact h.idle rfl rfl rfl (tokens_of_runs rfl) hi
  | giveUp => exact h.idle rfl rfl rfl (tokens_of_runs rfl) hi.1
  | cursor =>
    refine h.work ?_ (fun id => ?_) fun k t hm => ?_
    · rintro k v id ⟨⟩
      exact (QCURSOR_ne id).2.2.2
    · exact Kv.set_val_of_ne _ _ _ _ (QCURSOR_ne id).2.2.2.symm
    · exact hi k t ((mem_cons.1 hm).resolve_left (by simp))
  | name => exact h.update (h.world.draw (freshFor_notMem _ _)) hi (.inl rfl) fun _ => .tail _
  | draw =>
    refine h.update (h.world.draw (freshFor_notMem _ _)) ⟨hi, ?_⟩ (.inl rfl) fun _ => .tail _
    rw [← hr]
    exact .head _
  | @insert id owner expires token won =>
    rcases exec_insert limit i a w (leaseKey id) ⟨owner, expires, token⟩ with
      ⟨hwon, hset⟩ | ⟨hwon, hset⟩
    · rw [hwon] at hr
      subst hr
      refine h.win hi ?_ rfl (fun k rec_ hrec => ?_) rfl
      · rw [exec_lock_trace, hwon]
        rfl
      · rw [hset] at hrec
        exact (set_val_cases hrec).imp_right fun he => by rw [he.2]
    · rw [hwon] at hr
      subst hr
      exact h.lost hset (by rw [hwon]; rfl) hi
  | @miss id owner expires token =>
    rcases exec_insert limit i a w (leaseKey id) ⟨owner, expires, token⟩ with
      ⟨hwon, -⟩ | ⟨hwon, hset⟩
    · rw [hwon] at hr
      cases hr
    · exact h.lost hset (by rw [hwon]; rfl) hi.1
  | @takeOver id cur owner expires token won =>
    rcases exec_swap limit i a w (leaseKey id) cur ⟨owner, expires, token⟩ with
      ⟨hwon, hcur, hset⟩ | ⟨hwon, hset⟩
    · rw [hwon] at hr
      subst hr
      refine h.win hi ?_ rfl (fun k rec_ hrec => ?_) rfl
      · rw [exec_lock_trace, hwon]
        simp [QOp.events, h.token_ne hi hcur]
      · rw [hset] at hrec
        exact (set_val_cases hrec).imp_right fun he => by rw [he.2]
    · rw [hwon] at hr
      subst hr
      exact h.lost hset (by rw [hwon]; rfl) hi.1
  | @keep _ k cur v won htok =>
    have htrace : ((qMachine limit).exec i a (.lock (.kv (.putIfMatch k cur v))) w).2.trace =
        w.trace := by
      rw [exec_lock_trace, events_keep htok]
      rfl
    refine h.idle htrace rfl rfl ?_ (hi.congr htrace fun _ hx => hx)
    rcases exec_swap limit i a w k cur v with ⟨-, hcur, hset⟩ | ⟨-, hset⟩
    · intro k' rec_ hrec
      rw [hset] at hrec
      rcases set_val_cases hrec with hrec | ⟨-, rfl⟩
      · exact ⟨k', rec_, hrec, rfl⟩
      · exact ⟨k, cur, hcur, htok⟩
    · exact tokens_of_runs hset
  | @own id token =>
    have hwin := h.world.lastWin_eq hi (hok.1 id rfl)
    refine h.update (h.world.own hwin w.clock) ⟨.tail _ hi, ?_⟩ (.inr ⟨_, rfl, rfl⟩) fun _ hx => hx
    exact signed_cons_wrote.2 (.inl ⟨rfl, rfl⟩)
  | start => exact h.idle rfl rfl rfl (tokens_of_runs rfl) hi
  | @check id token started won =>
    have hx := exec_check limit i a w id token
    refine h.work (fun _ _ _ => by simp) (fun id' => congrFun hx.2 _) ?_
    have htrace : ((qMachine limit).exec i a (.work (.putIfMatch (qown id) (.token token)
        (.token token))) w).2.trace = (if won then [.swapped (qown id) i] else []) ++ w.trace := by
      rw [← hr]
      rfl
    cases won with
    | true =>
      have hwin := h.lastWin_of_check hi.1 (hx.1.1 hr) (hok id rfl)
      simp only [if_true, singleton_append] at htrace
      simp only [if_true, Phase.Knows, htrace]
      exact ⟨.tail _ hi.1, signed_cons_of hi.2, fun _ => hwin⟩
    | false => exact hi.congr htrace fun _ hx => hx
  | @write id token k v hk =>
    have hown : ∀ id', k ≠ qown id' := by
      rintro id' rfl
      exact not_guarded_qown id' id hk
    refine h.work ?_ (fun id' => ?_) ⟨.tail _ hi.1, signed_cons_of hi.2.1, hi.2.2⟩
    · rintro k' v' id' ⟨⟩
      exact hown id'
    · exact Kv.set_val_of_ne _ _ _ _ (hown id').symm

/-- Under the invariant, an operation meets what fencing promises. -/
theorem fenced (h : FenceInv w ph) {o : QOp P} {r : o.Res} (hs : Step (ph i) o r s)
    (hr : ((qMachine limit).exec i a o w).1 = r) (hok : FencedInTime w i o r) :
    Fenced w i o r := by
  have hi := h.knows i
  generalize hph : ph i = s₀ at hs hi
  cases hs with
  | @read _ o _ hw => cases o <;> trivial
  | outside ho => cases o <;> trivial
  | cursor =>
    intro id hk
    obtain ⟨h₁, h₂, h₃, -⟩ := QCURSOR_ne id
    rcases hk with hk | hk | hk
    · exact absurd hk h₁
    · exact absurd hk h₂
    · exact absurd hk h₃
  | own =>
    intro id hk
    exact absurd hk (not_guarded_qown _ id)
  | @check id token started won =>
    intro id' hid hh
    obtain rfl := qown_inj.1 hid
    have hval := h.world.value id i token (h.world.lastWin_eq hi.1 hh) hi.2
    rw [← hr]
    exact (exec_check limit i a w id token).1.2 hval
  | @write id token k v hk =>
    intro id' hk'
    obtain rfl := guarded_inj hk hk'
    rw [holder, hi.2.2 (hok.2 id hk)]
    rfl
  | _ => trivial

end FenceInv

/-- **Fencing.** In a run of any calls on the queue, in any interleaving, with leases
    expiring at any point, in which tokens are put, checked and followed by the outcome
    in time, only the holder of a job's lease writes its outcome, and it is never
    refused. -/
theorem terminal_writes_fenced (limit : ℕ+) (calls : ℕ → QCall P) (t : Int)
    (ms : List (Move QAnswer ℕ))
    (hms : (qMachine limit).Meets FencedInTime (qStart calls t) ms) :
    (qMachine limit).Meets Fenced (qStart calls t) ms := by
  refine meets_step (J := FenceInv)
    (fun w ph i a o r s h hs hr hok => ⟨h.step hs hr hok, h.fenced hs hr hok⟩) ?_ ?_ hms
  · exact fun w ph e h => ⟨⟨h.world.fresh, h.world.drawn, h.world.once, h.world.runs,
      h.world.signer, h.world.value⟩, fun i => (h.knows i).congr rfl fun _ hx => hx⟩
  · refine ⟨⟨List.nodup_nil, ?_, ?_, ?_, ?_, ?_⟩, fun i k t => List.not_mem_nil⟩
    · exact fun _ _ _ hm => by cases hm
    · exact fun _ _ _ _ _ hm => by cases hm
    · exact fun _ _ hm => by cases hm
    · exact fun _ _ hm => by cases hm
    · exact fun _ _ _ hm => by cases hm

section Decidable

variable (w : QWorld P) (i : ℕ)

theorem forall_guarded_iff {R : JsString → Prop} {k : JsString} :
    ((k = qdone (k.drop 6) → R (k.drop 6)) ∧ (k = qfail (k.drop 6) → R (k.drop 6)) ∧
      (k = qatt (k.drop 5) → R (k.drop 5))) ↔ ∀ id, Guarded id k → R id := by
  rw [forall_key_iff (fun _ => rfl : ∀ id, (qdone id).drop 6 = id),
    forall_key_iff (fun _ => rfl : ∀ id, (qfail id).drop 6 = id),
    forall_key_iff (fun _ => rfl : ∀ id, (qatt id).drop 5 = id)]
  constructor
  · rintro ⟨h₁, h₂, h₃⟩ id (hk | hk | hk)
    · exact h₁ id hk
    · exact h₂ id hk
    · exact h₃ id hk
  · exact fun h => ⟨fun id hk => h id (.inl hk), fun id hk => h id (.inr (.inl hk)),
      fun id hk => h id (.inr (.inr hk))⟩

theorem forall_qown_iff {R : JsString → Prop} {k : JsString} :
    (k = qown (k.drop 5) → R (k.drop 5)) ↔ ∀ id, k = qown id → R id :=
  forall_key_iff fun _ => rfl

instance : (o : QOp P) → (r : o.Res) → Decidable (Fenced w i o r)
  | .work (.put k _), _ =>
    decidable_of_iff ((k = qdone (k.drop 6) → holder (k.drop 6) w = some i) ∧
        (k = qfail (k.drop 6) → holder (k.drop 6) w = some i) ∧
        (k = qatt (k.drop 5) → holder (k.drop 5) w = some i))
      (forall_guarded_iff (R := fun id => holder id w = some i))
  | .work (.putIfMatch k _ _), won =>
    decidable_of_iff (k = qown (k.drop 5) → holder (k.drop 5) w = some i → won = true)
      (forall_qown_iff (R := fun id => holder id w = some i → won = true))
  | .work (.append ..), _ | .work (.list ..), _ | .work (.get _), _ | .work (.ackOnce _), _
  | .lock _, _ | .handler _, _ | .claimRunOwner _, _ | .lockLost, _ | .dateNow, _
  | .randomUUID, _ => isTrue trivial

instance : (o : QOp P) → (r : o.Res) → Decidable (FencedInTime w i o r)
  | .work (.put k _), _ =>
    decidable_of_iff ((k = qown (k.drop 5) → holder (k.drop 5) w = some i) ∧
        (k = qdone (k.drop 6) → retaken (k.drop 6) i w.trace = false) ∧
        (k = qfail (k.drop 6) → retaken (k.drop 6) i w.trace = false) ∧
        (k = qatt (k.drop 5) → retaken (k.drop 5) i w.trace = false))
      (and_congr (forall_qown_iff (R := fun id => holder id w = some i))
        (forall_guarded_iff (R := fun id => retaken id i w.trace = false)))
  | .work (.putIfMatch k _ _), _ =>
    decidable_of_iff (k = qown (k.drop 5) →
        ∀ h ∈ holder (k.drop 5) w, h ≠ i → signed (k.drop 5) h w.trace)
      (forall_qown_iff (R := fun id => ∀ h, holder id w = some h → h ≠ i → signed id h w.trace))
  | .work (.append ..), _ | .work (.list ..), _ | .work (.get _), _ | .work (.ackOnce _), _
  | .lock _, _ | .handler _, _ | .claimRunOwner _, _ | .lockLost, _ | .dateNow, _
  | .randomUUID, _ => isTrue trivial

end Decidable

/-- A lease is taken over while its worker runs the handler. The new worker puts its
    token, the old one comes back and is refused, the new one writes the outcome. -/
theorem terminal_writes_fenced_takeOver :
    (qMachine ⟨50, by decide⟩).Meets FencedInTime (qStart threeJobs 1)
        (steps 0 2 ++ steps 3 10 ++ [.env 30001] ++ steps 4 10 ++ steps 3 4 ++ steps 4 8) ∧
      (qMachine ⟨50, by decide⟩).Meets Fenced (qStart threeJobs 1)
        (steps 0 2 ++ steps 3 10 ++ [.env 30001] ++ steps 4 10 ++ steps 3 4 ++ steps 4 8) :=
  have hms : (qMachine ⟨50, by decide⟩).Meets FencedInTime (qStart threeJobs 1)
      (steps 0 2 ++ steps 3 10 ++ [.env 30001] ++ steps 4 10 ++ steps 3 4 ++ steps 4 8) := by
    decide +kernel
  ⟨hms, terminal_writes_fenced _ _ _ _ hms⟩

/-- The lease is taken over between the check of its worker and the write of the outcome,
    which takes place. And a worker whose lease has been taken over puts its token over
    that of the new holder, who is refused. -/
theorem superseded_worker_writes :
    ¬(qMachine ⟨50, by decide⟩).Meets Fenced (qStart threeJobs 1)
        (steps 0 2 ++ steps 3 12 ++ [.env 30001] ++ steps 4 9 ++ steps 3 2) ∧
      ¬(qMachine ⟨50, by decide⟩).Meets Fenced (qStart threeJobs 1)
        (steps 0 2 ++ steps 3 7 ++ [.env 30001] ++ steps 4 10 ++ steps 3 1 ++ steps 4 4) := by
  decide +kernel

end Gnldev.Queue
