import Gnldev.Durable.Lease

/-!
# The lease elects one

Any number of calls of any owners on one lease, in any interleaving, with any times. An acquisition
only replaces a record of its owner or one that has ended by its own time, and a release only one of
its owner: that is all the protocol of the calls (`LeaseCall.Step`) has to keep from the read to the
swap, as the record compared says itself who has the lease and until when. So every write of the
history is justified by the record it replaced (`LeaseJustified`).

* `lease_elected`: if an acquisition has returned true, another owner's one whose time is before its end
  does so only after the lease was replaced: by a call of its owner, or by an acquisition whose time had
  reached the end;
* `lease_held_once`: so no two owners have leases that go on, up to the skew of the clocks.
-/

namespace Gnldev.Durable

open Function

variable (key : JsString)

/-- How far a call is. -/
inductive LeasePhase where
  | start
  /-- It has read the record, or nothing. -/
  | seen (cur : Option Lease)
  /-- It has ended: by an answer to its write, if any, or by an error. -/
  | done (wrote : Option Bool)
  deriving DecidableEq

/-- Someone else has the lease. -/
def Lease.Blocks (cur : Lease) (owner : JsString) (now : Int) : Prop :=
  cur.owner ≠ owner ∧ ∃ e, cur.expiresAt = some e ∧ now < e

/-- The answer of a conditional write. -/
def answerOf : Except Unit Bool → Option Bool
  | .ok won => some won
  | .error _ => none

/-- The protocol of a call. -/
inductive LeaseCall.Step : LeaseCall → LeasePhase → (o : KvOp JsString Lease) → LeaseRes o →
    LeasePhase → Prop
  | unread {c} : Step c .start (.get key) (.error ()) (.seen none)
  | read {c cur} : Step c .start (.get key) (.ok cur) (.seen cur)
  | claim {owner ttlMs now cur r} : (∀ l, cur = some l → l.expiresAt = none) →
    Step (.acquire owner ttlMs now) (.seen cur) (.putIfAbsent key ⟨owner, some (now + ttlMs)⟩) r
      (.done (answerOf r))
  | swap {owner ttlMs now cur r} : ¬cur.Blocks owner now →
    Step (.acquire owner ttlMs now) (.seen (some cur))
      (.putIfMatch key cur ⟨owner, some (now + ttlMs)⟩) r (.done (answerOf r))
  | release {cur r} :
    Step (.release cur.owner) (.seen (some cur)) (.putIfMatch key cur ⟨cur.owner, some 0⟩) r
      (.done (answerOf r))

/-- An acquisition returns true if its write was answered so. -/
def LeaseCall.Replies (ph : LeasePhase) (r : Except Unit LeaseReply) : Prop :=
  r = .ok (.acquired true) → ph = .done (some true)

section Follows

open Prog LeaseCall

variable {key} {owner : JsString} {ttlMs now : Int}

/-- What was read, whether or not the read failed. -/
theorem currentLease_follows {α : Type} {c : LeaseCall} {f : Option Lease → LeaseM α}
    {Q : LeasePhase → Except Unit α → Prop}
    (hf : ∀ cur, (f cur).run.Follows (c.Step key) (.seen cur) Q) :
    (currentLease leaseJournal key >>= f).run.Follows (c.Step key) .start Q := by
  rintro (- | cur)
  · exact ⟨_, .unread, hf none⟩
  · exact ⟨_, .read, hf cur⟩

theorem acquireLease_follows :
    (acquireLease leaseJournal key owner ttlMs now).run.Follows
      ((acquire owner ttlMs now).Step key) .start
      fun ph r => r = .ok true → ph = .done (some true) := by
  have hclaim {cur : Option Lease} (h : ∀ l, cur = some l → l.expiresAt = none) :
      (claim leaseJournal key ⟨owner, some (now + ttlMs)⟩).run.Follows
        ((acquire owner ttlMs now).Step key) (.seen cur)
        fun ph r => r = .ok true → ph = .done (some true) := by
    intro r
    refine ⟨_, .claim h, fun hr => ?_⟩
    rw [hr]
    rfl
  refine currentLease_follows fun cur => ?_
  match cur with
  | none => exact hclaim nofun
  | some ⟨o, none⟩ => exact hclaim fun l hl => Option.some.inj hl ▸ rfl
  | some ⟨o, some e⟩ =>
    by_cases hblocks : o ≠ owner ∧ e > now
    · simp only [if_pos hblocks]
      exact nofun
    · simp only [if_neg hblocks]
      intro r
      refine ⟨_, .swap fun hb => hblocks ⟨hb.1, ?_⟩, fun hr => ?_⟩
      · obtain ⟨e', he, hlt⟩ := hb.2
        rwa [Option.some.inj he]
      · rw [hr]
        rfl

theorem releaseLease_follows :
    (releaseLease leaseJournal key owner).run.Follows ((release owner).Step key) .start
      fun _ _ => True := by
  refine currentLease_follows fun cur => ?_
  match cur with
  | none => trivial
  | some cur =>
    by_cases hown : cur.owner = owner
    · subst hown
      simp only [ne_eq, not_true_eq_false, if_false]
      intro r
      refine ⟨_, .release, ?_⟩
      match r with
      | .ok _ => trivial
      | .error _ => trivial
    · simp only [ne_eq, hown, not_false_eq_true, if_true]
      trivial

/-- Every call follows its protocol. -/
theorem leaseProg_follows (c : LeaseCall) : (c.prog key).run.Follows (c.Step key) .start Replies := by
  match c with
  | .acquire owner ttlMs now =>
    refine acquireLease_follows.bind fun ph r hr => ?_
    match r with
    | .ok won => exact fun h => hr (by simpa using h)
    | .error _ => exact nofun
  | .release owner =>
    refine releaseLease_follows.bind fun ph r _ => ?_
    match r with
    | .ok _ => exact nofun
    | .error _ => exact nofun

end Follows

/-! ## The history of the record -/

/-- A write is justified by the record it replaced: an acquisition inserts the record, or replaces one that
    does not block it, and a release replaces one of its owner. At the write, `P` is known of the time
    of an acquisition and the clock. -/
def LeaseJustified (P : Int → Int → Prop) (calls : ℕ → LeaseCall) (wr : Write JsString Lease) :
    Prop :=
  match calls wr.tid with
  | .acquire owner ttlMs now => P now wr.time ∧ wr.new = ⟨owner, some (now + ttlMs)⟩ ∧
      ∀ cur, wr.old = some cur → ¬cur.Blocks owner now
  | .release owner => wr.new = ⟨owner, some 0⟩ ∧ ∃ cur, wr.old = some cur ∧ cur.owner = owner

/-- The invariant between the journal and the phases of the calls. -/
structure LeaseInv (P : Int → Int → Prop) (calls : ℕ → LeaseCall) (w : LeaseWorld)
    (ph : ℕ → LeasePhase) : Prop where
  linked : w.kv.Linked
  key : ∀ wr ∈ w.kv.log, wr.key = key
  justified : ∀ wr ∈ w.kv.log, LeaseJustified P calls wr
  past : ∀ wr ∈ w.kv.log, wr.time ≤ w.clock
  wrote : ∀ i, ph i = .done (some true) → ∃ wr ∈ w.kv.log, wr.tid = i

namespace LeaseInv

variable {key} {P : Int → Int → Prop} {calls : ℕ → LeaseCall} {w : LeaseWorld} {ph : ℕ → LeasePhase}
  {i : ℕ}

theorem init (t : Int) : LeaseInv key P calls ⟨t, Kv.empty⟩ fun _ => .start :=
  ⟨Kv.linked_empty, nofun, nofun, nofun, nofun⟩

/-- A step that writes nothing. -/
theorem skip (h : LeaseInv key P calls w ph) {s : LeasePhase} (hs : s ≠ .done (some true)) :
    LeaseInv key P calls w (update ph i s) where
  linked := h.linked
  key := h.key
  justified := h.justified
  past := h.past
  wrote j hj := by
    by_cases hji : j = i
    · subst hji
      rw [update_self] at hj
      exact absurd hj hs
    · rw [update_of_ne hji] at hj
      exact h.wrote j hj

/-- A step that writes the record. -/
theorem write (h : LeaseInv key P calls w ph) {v : Lease} (s : LeasePhase)
    (hv : LeaseJustified P calls ⟨i, key, w.kv.val key, v, w.clock⟩) :
    LeaseInv key P calls { w with kv := w.kv.set i w.clock key v } (update ph i s) where
  linked := h.linked.set ..
  key := by simpa using h.key
  justified := by simpa using ⟨hv, h.justified⟩
  past := by simpa using h.past
  wrote j hj := by
    by_cases hji : j = i
    · exact ⟨_, .head _, hji.symm⟩
    · rw [update_of_ne hji] at hj
      obtain ⟨wr, hwr, rfl⟩ := h.wrote j hj
      exact ⟨wr, .tail _ hwr, rfl⟩

/-- The clock moves on. -/
theorem tick (h : LeaseInv key P calls w ph) (n : ℕ) :
    LeaseInv key P calls { w with clock := w.clock + n } ph :=
  ⟨h.linked, h.key, h.justified, fun wr hwr => by
    have hle := h.past wr hwr
    change wr.time ≤ w.clock + n
    omega, h.wrote⟩

/-- A write if nothing is there, however it is answered. -/
theorem claim (h : LeaseInv key P calls w ph) {v : Lease} (a : LeaseAnswer)
    (hv : w.kv.val key = none → LeaseJustified P calls ⟨i, key, none, v, w.clock⟩) :
    LeaseInv key P calls (leaseMachine.exec i a (.putIfAbsent key v) w).2
      (update ph i
        (.done (answerOf (leaseMachine.exec i a (.putIfAbsent key v) w).1))) := by
  by_cases hnone : w.kv.val key = none
  · have hwrite (s : LeasePhase) := h.write s (hnone ▸ hv hnone)
    match a with
    | .answers => simpa [leaseMachine, Kv.exec, hnone] using hwrite _
    | .fails => exact h.skip nofun
    | .failsAfter => simpa [leaseMachine, Kv.exec, hnone] using hwrite _
  · match a with
    | .answers => simpa [leaseMachine, Kv.exec, hnone, answerOf] using h.skip (by simp)
    | .fails => exact h.skip nofun
    | .failsAfter => simpa [leaseMachine, Kv.exec, hnone, answerOf] using h.skip (by simp)

/-- A write over the record that was read, however it is answered. -/
theorem swap (h : LeaseInv key P calls w ph) {cur v : Lease} (a : LeaseAnswer)
    (hv : w.kv.val key = some cur → LeaseJustified P calls ⟨i, key, some cur, v, w.clock⟩) :
    LeaseInv key P calls (leaseMachine.exec i a (.putIfMatch key cur v) w).2
      (update ph i
        (.done (answerOf (leaseMachine.exec i a (.putIfMatch key cur v) w).1))) := by
  by_cases hcur : w.kv.val key = some cur
  · have hwrite (s : LeasePhase) := h.write s (hcur ▸ hv hcur)
    match a with
    | .answers => simpa [leaseMachine, Kv.exec, hcur] using hwrite _
    | .fails => exact h.skip nofun
    | .failsAfter => simpa [leaseMachine, Kv.exec, hcur] using hwrite _
  · match a with
    | .answers => simpa [leaseMachine, Kv.exec, hcur, answerOf] using h.skip (by simp)
    | .fails => exact h.skip nofun
    | .failsAfter => simpa [leaseMachine, Kv.exec, hcur, answerOf] using h.skip (by simp)

/-- Every operation of the protocol keeps the invariant. -/
theorem exec (h : LeaseInv key P calls w ph) (a : LeaseAnswer) {o : KvOp JsString Lease}
    {s : LeasePhase} (hstep : (calls i).Step key (ph i) o (leaseMachine.exec i a o w).1 s)
    (hok : ∀ owner ttlMs now, calls i = .acquire owner ttlMs now → P now w.clock) :
    LeaseInv key P calls (leaseMachine.exec i a o w).2 (update ph i s) := by
  generalize hr : (leaseMachine.exec i a o w).1 = r at hstep
  generalize hc : calls i = c, hph : ph i = p at hstep
  match hstep with
  | .unread | .read =>
    match a with
    | .answers | .fails | .failsAfter => exact h.skip nofun
  | .claim _ =>
    rw [← hr]
    refine h.claim a fun _ => ?_
    rw [LeaseJustified, hc]
    exact ⟨hok _ _ _ hc, rfl, nofun⟩
  | .swap hblocks =>
    rw [← hr]
    refine h.swap a fun _ => ?_
    rw [LeaseJustified, hc]
    exact ⟨hok _ _ _ hc, rfl, fun cur hcur => Option.some.inj hcur ▸ hblocks⟩
  | .release =>
    rw [← hr]
    refine h.swap a fun _ => ?_
    rw [LeaseJustified, hc]
    exact ⟨rfl, _, rfl, rfl⟩

end LeaseInv

/-- Every run keeps it. -/
theorem play_leaseInv {P : Int → Int → Prop} {t : Int} {ms : List (Move LeaseAnswer ℕ)}
    (calls : ℕ → LeaseCall)
    (hms : leaseMachine.Meets (fun w i _ _ => ∀ owner ttlMs now,
      calls i = .acquire owner ttlMs now → P now w.clock) (leaseStart key calls t) ms) :
    ∃ ph, LeaseInv key P calls (leaseMachine.play (leaseStart key calls t) ms).world ph ∧
      ∀ i, ((leaseMachine.play (leaseStart key calls t) ms).procs i).Follows ((calls i).Step key) (ph i)
        LeaseCall.Replies :=
  Machine.play_follows (Q := fun _ => LeaseCall.Replies)
    (fun _ _ _ a _ _ h hs hok => h.exec a hs hok) (fun _ _ n h => h.tick n) (LeaseInv.init t)
    (fun i => leaseProg_follows (calls i)) hms

/-! ## Who is elected -/

/-- A write that puts an end to the lease of `owner` that goes on to `e`: one of this owner, or one of an
    acquisition whose time had reached the end. -/
def EndsLease (calls : ℕ → LeaseCall) (owner : JsString) (e : Int) (wr : Write JsString Lease) :
    Prop :=
  match calls wr.tid with
  | .acquire owner' _ now => owner' = owner ∨ e ≤ now
  | .release owner' => owner' = owner

/-- Until when an owner has the lease that it took last, unless it has released it since. -/
def leaseEnd (calls : ℕ → LeaseCall) (owner : JsString) : List (Write JsString Lease) → Option Int
  | [] => none
  | wr :: log =>
    match calls wr.tid with
    | .acquire owner' ttlMs now =>
      if owner' = owner then some (now + ttlMs) else leaseEnd calls owner log
    | .release owner' => if owner' = owner then none else leaseEnd calls owner log

/-- The acquisitions read clocks that go ahead of the journal's by the skew at most. -/
def WithinSkew (skew : Int) (calls : ℕ → LeaseCall) (w : LeaseWorld) (i : ℕ)
    (o : KvOp JsString Lease) (_ : LeaseRes o) : Prop :=
  ∀ owner ttlMs now, calls i = .acquire owner ttlMs now → now ≤ w.clock + skew

instance (skew : Int) (calls : ℕ → LeaseCall) (w : LeaseWorld) (i : ℕ) (o : KvOp JsString Lease)
    (r : LeaseRes o) : Decidable (WithinSkew skew calls w i o r) :=
  match hc : calls i with
  | .acquire _ _ now => decidable_of_iff (now ≤ w.clock + skew) (by simp [WithinSkew, hc])
  | .release _ => isTrue (by simp [WithinSkew, hc])

section History

variable {key} {P : Int → Int → Prop} {calls : ℕ → LeaseCall}
  {log later mid earlier : List (Write JsString Lease)} {wr wr' : Write JsString Lease}
  {owner owner' : JsString} {e : Int}

/-- What replaces a lease puts an end to it. -/
theorem LeaseJustified.ends (h : LeaseJustified P calls wr) (hold : wr.old = some ⟨owner, some e⟩) :
    EndsLease calls owner e wr := by
  rw [EndsLease]
  rw [LeaseJustified] at h
  match hc : calls wr.tid with
  | .acquire owner' ttlMs now =>
    rw [hc] at h
    by_contra hno
    obtain ⟨hne, hlt⟩ := not_or.1 hno
    exact h.2.2 _ hold ⟨Ne.symm hne, e, rfl, Int.not_le.1 hlt⟩
  | .release owner' =>
    rw [hc] at h
    obtain ⟨-, cur, hcur, hown⟩ := h
    rw [hold] at hcur
    exact hown ▸ congrArg Lease.owner (Option.some.inj hcur).symm

/-- The writes after a lease begin with one that puts an end to it. -/
theorem ends_of_after (hco : Kv.Coherent (mid ++ wr :: earlier))
    (hkey : ∀ w ∈ mid ++ wr :: earlier, w.key = key)
    (hj : ∀ w ∈ mid, LeaseJustified P calls w) (hnew : wr.new = ⟨owner, some e⟩) (hne : mid ≠ []) :
    ∃ w ∈ mid, EndsLease calls owner e w := by
  induction mid with
  | nil => exact absurd rfl hne
  | cons w mid ih =>
    by_cases hmid : mid = []
    · -- It is the next write: it replaced the lease.
      subst hmid
      refine ⟨w, List.mem_cons_self, (hj w List.mem_cons_self).ends ?_⟩
      have hold : w.old = Kv.valueOf (wr :: earlier) w.key := hco.1
      rw [hold, Kv.valueOf, hkey wr (by simp), hkey w (by simp), if_pos rfl, hnew]
    · obtain ⟨w', hw', hends⟩ := ih hco.2 (fun w' h => hkey w' (.tail _ h))
        (fun w' h => hj w' (.tail _ h)) hmid
      exact ⟨w', .tail _ hw', hends⟩

theorem coherent_append {log log' : List (Write JsString Lease)} (h : Kv.Coherent (log ++ log')) :
    Kv.Coherent log' := by
  induction log with
  | nil => exact h
  | cons w log ih => exact ih h.2

/-- A lease that is not the record's has ended, up to the skew. -/
theorem leaseEnd_cases {clock skew : Int} (hkey : ∀ w ∈ log, w.key = key) (hco : Kv.Coherent log)
    (hj : ∀ w ∈ log, LeaseJustified (fun now time => now ≤ time + skew) calls w)
    (hpast : ∀ w ∈ log, w.time ≤ clock) (he : leaseEnd calls owner log = some e) :
    Kv.valueOf log key = some ⟨owner, some e⟩ ∨ e ≤ clock + skew := by
  induction log with
  | nil => exact absurd he.symm (Option.some_ne_none _)
  | cons w log ih =>
    have ih := ih (fun w' h => hkey w' (.tail _ h)) hco.2 (fun w' h => hj w' (.tail _ h))
      fun w' h => hpast w' (.tail _ h)
    have hw := hj w List.mem_cons_self
    have hkw := hkey w List.mem_cons_self
    have hold := hco.1
    rw [hkw] at hold
    rw [Kv.valueOf, if_pos hkw]
    -- A lease of before is still the record's only if this write is its owner's.
    have hbefore (howner : ¬EndsLease calls owner e w) (hlog : leaseEnd calls owner log = some e) :
        e ≤ clock + skew := by
      refine (ih hlog).resolve_left fun hval => howner (hw.ends ?_)
      rw [hold, hval]
    rw [leaseEnd] at he
    rw [LeaseJustified] at hw
    rw [EndsLease] at hbefore
    have htime := hpast w List.mem_cons_self
    rcases hc : calls w.tid with ⟨owner', ttlMs, now⟩ | owner'
    · simp only [hc] at he hw hbefore
      split at he
      · next heq => exact .inl (by rw [hw.2.1, heq, Option.some.inj he])
      · next hne =>
        by_cases hend : e ≤ now
        · have hnow : now ≤ w.time + skew := hw.1
          exact .inr (by omega)
        · exact .inr (hbefore (not_or.2 ⟨hne, hend⟩) he)
    · simp only [hc] at he hw hbefore
      split at he
      · exact absurd he.symm (Option.some_ne_none _)
      · next hne => exact .inr (hbefore hne he)

end History

/-- Two owners do not have leases that both go on after the clock and the skew. -/
theorem lease_held_once {calls : ℕ → LeaseCall} {t skew : Int} {ms : List (Move LeaseAnswer ℕ)}
    (hms : leaseMachine.Meets (WithinSkew skew calls) (leaseStart key calls t) ms)
    {owner owner' : JsString} {e e' : Int}
    (he : leaseEnd calls owner
      (leaseMachine.play (leaseStart key calls t) ms).world.kv.log = some e)
    (he' : leaseEnd calls owner'
      (leaseMachine.play (leaseStart key calls t) ms).world.kv.log = some e')
    (hlt : (leaseMachine.play (leaseStart key calls t) ms).world.clock + skew < e)
    (hlt' : (leaseMachine.play (leaseStart key calls t) ms).world.clock + skew < e') :
    owner = owner' := by
  obtain ⟨ph, hinv, -⟩ := play_leaseInv key (P := fun now time => now ≤ time + skew) _ hms
  have hval := (leaseEnd_cases hinv.key hinv.linked.coherent hinv.justified hinv.past he).resolve_right
    (Int.not_le.2 hlt)
  have hval' := (leaseEnd_cases hinv.key hinv.linked.coherent hinv.justified hinv.past he').resolve_right
    (Int.not_le.2 hlt')
  rw [hval] at hval'
  exact congrArg Lease.owner (Option.some.inj hval')

/-- In every run, whatever times the acquisitions have read and whatever fails: an acquisition that has
    returned true has written the record. If after it an acquisition of another owner has written, whose
    time is before the end of the lease, then the lease was ended between them, by a release or an
    acquisition of its owner or by an acquisition whose time had reached the end. A release only
    replaces a record of its owner. And no two owners have leases that go on, up to the skew. -/
theorem lease_elected (calls : ℕ → LeaseCall) (t : Int) (ms : List (Move LeaseAnswer ℕ)) :
    (∀ i, (leaseMachine.play (leaseStart key calls t) ms).procs i = .pure (.ok (.acquired true)) →
      ∃ wr ∈ (leaseMachine.play (leaseStart key calls t) ms).world.kv.log, wr.tid = i) ∧
    (∀ later mid earlier wr wr' owner ttlMs now owner' ttlMs' now',
      (leaseMachine.play (leaseStart key calls t) ms).world.kv.log =
        later ++ wr' :: mid ++ wr :: earlier →
      calls wr.tid = .acquire owner ttlMs now → calls wr'.tid = .acquire owner' ttlMs' now' →
      owner' ≠ owner → now' < now + ttlMs → ∃ w ∈ mid, EndsLease calls owner (now + ttlMs) w) ∧
    (∀ wr ∈ (leaseMachine.play (leaseStart key calls t) ms).world.kv.log, ∀ owner,
      calls wr.tid = .release owner → ∃ cur, wr.old = some cur ∧ cur.owner = owner) ∧
    ∀ skew, leaseMachine.Meets (WithinSkew skew calls) (leaseStart key calls t) ms →
      ∀ owner owner' e e',
        leaseEnd calls owner (leaseMachine.play (leaseStart key calls t) ms).world.kv.log = some e →
        leaseEnd calls owner' (leaseMachine.play (leaseStart key calls t) ms).world.kv.log = some e' →
        (leaseMachine.play (leaseStart key calls t) ms).world.clock + skew < e →
        (leaseMachine.play (leaseStart key calls t) ms).world.clock + skew < e' → owner = owner' := by
  obtain ⟨ph, hinv, hf⟩ := play_leaseInv key (P := fun _ _ => True) calls
    (by simpa only [implies_true] using Machine.meets_true (leaseStart key calls t) ms)
  refine ⟨fun i hi => ?_, ?_, ?_, fun skew hms owner owner' e e' => lease_held_once key hms⟩
  · have hfi := hf i
    rw [hi] at hfi
    exact hinv.wrote i (hfi rfl)
  · intro later mid earlier wr wr' owner ttlMs now owner' ttlMs' now' hlog hc hc' hne hlt
    have hco := hinv.linked.coherent
    have hkey := hinv.key
    have hj := hinv.justified
    rw [hlog, List.append_assoc] at hco hkey hj
    have hwr := hj wr (by simp)
    rw [LeaseJustified, hc] at hwr
    obtain ⟨w, hw, hends⟩ := ends_of_after (coherent_append hco)
      (fun w h => hkey w (List.mem_append_right _ h))
      (fun w h => hj w (List.mem_append_right _ (List.mem_append_left _ h))) hwr.2.1 (by simp)
    obtain rfl | hmid := List.mem_cons.1 hw
    · -- It is not the other owner's write: that one is of no owner of the lease, and too early.
      rw [EndsLease, hc'] at hends
      exact absurd hends (by simp [hne, hlt])
    · exact ⟨w, hmid, hends⟩
  · intro wr hwr owner hc
    have hj := hinv.justified wr hwr
    rw [LeaseJustified, hc] at hj
    exact hj.2

/-! ## A take-over, and a late one -/

/-- `a` takes the lease at 0 for 10, `b` reads the time 9, `c` takes over at 10 and releases, and `b` goes
    on. -/
def lateCalls : ℕ → LeaseCall
  | 0 => .acquire (js "a") 10 0
  | 1 => .acquire (js "b") 10 9
  | 2 => .acquire (js "c") 10 10
  | _ => .release (js "c")

/-- The moves of the calls, while the clock goes to 10. -/
def lateMoves : List (Move LeaseAnswer ℕ) :=
  [.run 0 .answers, .run 0 .answers, .env 10, .run 2 .answers, .run 2 .answers, .run 3 .answers,
    .run 3 .answers, .run 1 .answers, .run 1 .answers]

/-- The writes of the run, the latest first. -/
def lateLog : List (Write JsString Lease) :=
  [⟨1, js "k", some ⟨js "c", some 0⟩, ⟨js "b", some 19⟩, 10⟩,
    ⟨3, js "k", some ⟨js "c", some 20⟩, ⟨js "c", some 0⟩, 10⟩,
    ⟨2, js "k", some ⟨js "a", some 10⟩, ⟨js "c", some 20⟩, 10⟩,
    ⟨0, js "k", none, ⟨js "a", some 10⟩, 0⟩]

theorem late_log :
    (leaseMachine.play (leaseStart (js "k") lateCalls 0) lateMoves).world.kv.log = lateLog := by
  decide

theorem lease_elected_late :
    ∃ w ∈ [lateLog[1], lateLog[2]], EndsLease lateCalls (js "a") (0 + 10) w :=
  (lease_elected (js "k") lateCalls 0 lateMoves).2.1 [] [lateLog[1], lateLog[2]] [] lateLog[3]
    lateLog[0] _ _ _ _ _ _ late_log rfl rfl (by decide) (by decide)

/-- A call whose time is before the end of a lease gets it, though its owner has not ended it: another one
    has taken it over in time, and released it. -/
theorem lease_taken_early :
    ¬∀ (calls : ℕ → LeaseCall) (ms : List (Move LeaseAnswer ℕ)),
      leaseMachine.Meets (WithinSkew 0 calls) (leaseStart (js "k") calls 0) ms →
      ∀ later mid earlier wr wr' owner ttlMs now owner' ttlMs' now',
        (leaseMachine.play (leaseStart (js "k") calls 0) ms).world.kv.log =
          later ++ wr' :: mid ++ wr :: earlier →
        calls wr.tid = .acquire owner ttlMs now → calls wr'.tid = .acquire owner' ttlMs' now' →
        owner' ≠ owner → now' < now + ttlMs →
        (leaseMachine.play (leaseStart (js "k") calls 0) ms).procs wr'.tid =
          .pure (.ok (.acquired true)) →
        ∃ w ∈ mid, calls w.tid = .release owner ∨ ∃ ttl t, calls w.tid = .acquire owner ttl t := by
  intro hall
  obtain ⟨w, hw, hends⟩ := hall lateCalls lateMoves (by decide) [] [lateLog[1], lateLog[2]] []
    lateLog[3] lateLog[0] _ _ _ _ _ _ late_log rfl rfl (by decide) (by decide) rfl
  have howner : (lateCalls w.tid).owner = js "a" := by
    obtain h | ⟨ttl, t, h⟩ := hends <;> rw [h] <;> rfl
  obtain rfl | rfl := List.mem_pair.1 hw
  · exact absurd howner (by decide)
  · exact absurd howner (by decide)

end Gnldev.Durable
