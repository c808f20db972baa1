import Gnldev.Durable.RunLock.Exclusion

/-!
# A released lock

A release moves the expiry of the record into the past, and leaves its token. A renewal looks at
the token alone: so it revives a lock that was released, unless another acquisition has put its own
token there.

* `ReleaseInv`: a record whose token was released is dead;
* `released_stays`: it stays so, and the renewals that begin after the release fail, as long as those
  of them that have read the dead record find that the lock has been acquired since (`Reacquired`);
* `renewal_revives`: one that does not.
-/

namespace Gnldev.Durable

open Function

variable (runId : JsString) (calls : ℕ → LockCall)

/-! ## Handles -/

/-- An acquisition has written the token. -/
def HasAcquired (token : JsString) (w : LockWorld) : Prop :=
  ∃ wr ∈ w.kv.log, ∃ owner ttlMs now, calls wr.tid = .acquire owner ttlMs now token

/-- A release of the handle with the token has written the dead record. -/
def HasReleased (token : JsString) (w : LockWorld) : Prop :=
  ∃ wr ∈ w.kv.log, ∃ owner, calls wr.tid = .release owner token

/-- Every acquisition draws a token of its own. -/
def FreshTokens : Prop :=
  ∀ i j owner owner' ttlMs ttlMs' now now' token, calls i = .acquire owner ttlMs now token →
    calls j = .acquire owner' ttlMs' now' token → i = j

/-- A renewal that has read the dead record of its released handle comes to write when another
    acquisition has taken the lock. -/
def Reacquired (w : LockWorld) (i : ℕ) : (o : LockOp) → o.Res → Prop
  | .kv (.putIfMatch _ cur _), _ => ∀ owner token ttlMs, calls i = .renew owner token ttlMs →
      cur.expires = 0 → HasReleased calls token w →
      ∀ rec_, w.kv.val (lockKey runId) = some rec_ → rec_.token ≠ token
  | _, _ => True

/-! ## What a renewal returns -/

/-- A renewal returns whether it has written. -/
def LockCall.Reports : LockCall → LockPhase → LockReply → Prop
  | renew .., ph, reply => ∃ ok, ph = .done ok ∧ reply = .renewed ok
  | _, _, _ => True

section Follows

open LockCall

variable {runId} {owner token : JsString} {ttlMs : Int}

theorem renew_reports :
    (RunLock.renew lockJournal ⟨runId, owner, token⟩ ttlMs).Follows
      ((renew owner token ttlMs).Step runId) .start fun ph ok => ph = .done ok := by
  rintro (_ | cur)
  · exact ⟨_, .stale, rfl⟩
  · by_cases hcur : cur.token = token
    · refine ⟨_, .ours (by simp [handle, hcur]), ?_⟩
      simp only [Prog.bind, hcur, ne_eq, not_true_eq_false, if_false]
      exact fun t => ⟨_, .renewAt, fun won => ⟨_, .renew hcur, rfl⟩⟩
    · refine ⟨_, .stale, ?_⟩
      simp [hcur]

/-- Every call follows its protocol, and reports what it has done. -/
theorem prog_reports (c : LockCall) : (c.prog runId).Follows (c.Step runId) c.phase c.Reports := by
  cases c with
  | acquire => exact (prog_follows _).mono fun _ _ _ => trivial
  | release => exact (prog_follows _).mono fun _ _ _ => trivial
  | renew owner token ttlMs =>
    exact renew_reports.bind fun ph ok h => ⟨ok, h, rfl⟩

end Follows

/-! ## The invariant -/

/-- The record of a released handle is dead, and nobody acquires the lock with its token again. -/
structure ReleaseInv (w : LockWorld) (ph : ℕ → LockPhase) : Prop where
  dead : ∀ token, HasReleased calls token w → ∀ cur, w.kv.val (lockKey runId) = some cur →
    cur.token = token → cur.expires = 0
  acquired : ∀ cur, w.kv.val (lockKey runId) = some cur → HasAcquired calls cur.token w
  released : ∀ token, HasReleased calls token w → HasAcquired calls token w
  wrote : ∀ wr ∈ w.kv.log, ph wr.tid = .done true

/-- What a handle has read. -/
def LockPhase.held : LockPhase → Option LockRecord
  | own cur => some cur
  | renewing cur _ => some cur
  | _ => none

/-- A renewal that began after the release has read the dead record, if it has read its token. -/
structure LateInv (token : JsString) (j : ℕ) (w : LockWorld) (ph : ℕ → LockPhase) : Prop
    extends ReleaseInv runId calls w ph where
  past : HasReleased calls token w
  silent : ph j ≠ .done true
  held : ∀ cur, (ph j).held = some cur → cur.expires = 0

variable {runId calls} {w : LockWorld} {ph : ℕ → LockPhase} {i : ℕ} {s : LockPhase}

theorem HasAcquired.set {token : JsString} (h : HasAcquired calls token w) (v : LockRecord) :
    HasAcquired calls token { w with kv := w.kv.set i w.clock (lockKey runId) v } := by
  obtain ⟨wr, hwr, hcall⟩ := h
  exact ⟨wr, .tail _ hwr, hcall⟩

theorem HasReleased.exec {token : JsString} {o : LockOp} (h : HasReleased calls token w) :
    HasReleased calls token (lockMachine.exec i () o w).2 := by
  obtain ⟨wr, hwr, hcall⟩ := h
  refine ⟨wr, ?_, hcall⟩
  rcases o with (_ | _ | _ | _) | _
  case kv.put => exact .tail _ hwr
  case kv.putIfAbsent | kv.putIfMatch =>
    simp only [lockMachine, Kv.exec]
    split
    · exact .tail _ hwr
    · exact hwr
  all_goals exact hwr

/-- What has been released after a write: the handle of the write, or one released before. -/
theorem hasReleased_set {token : JsString} {v : LockRecord}
    (h : HasReleased calls token { w with kv := w.kv.set i w.clock (lockKey runId) v }) :
    (∃ owner, calls i = .release owner token) ∨ HasReleased calls token w := by
  obtain ⟨wr, hwr, owner, hcall⟩ := h
  rcases List.mem_cons.1 hwr with rfl | hwr
  · exact .inl ⟨owner, hcall⟩
  · exact .inr ⟨wr, hwr, owner, hcall⟩

namespace ReleaseInv

theorem init (t : Int) : ReleaseInv runId calls ⟨t, Kv.empty⟩ fun i => (calls i).phase where
  dead _ h := nomatch h.choose_spec.1
  acquired _ h := nomatch h
  released _ h := nomatch h.choose_spec.1
  wrote _ h := nomatch h

/-- A step that writes nothing. -/
theorem skip (h : ReleaseInv runId calls w ph) (hold : ph i ≠ .done true) :
    ReleaseInv runId calls w (update ph i s) where
  dead := h.dead
  acquired := h.acquired
  released := h.released
  wrote wr hwr := by
    have hwrote := h.wrote wr hwr
    rw [update_of_ne]
    · exact hwrote
    · rintro rfl
      exact hold hwrote

/-- A step that writes the record. -/
theorem write (h : ReleaseInv runId calls w ph) (hold : ph i ≠ .done true) {v : LockRecord}
    (hacquired : (∃ owner ttlMs now, calls i = .acquire owner ttlMs now v.token) ∨
      HasAcquired calls v.token w)
    (hreleased : ∀ owner token, calls i = .release owner token → token = v.token)
    (hdead : (∃ owner, calls i = .release owner v.token) ∨ HasReleased calls v.token w →
      v.expires = 0) :
    ReleaseInv runId calls { w with kv := w.kv.set i w.clock (lockKey runId) v }
      (update ph i (.done true)) := by
  have hnow : HasAcquired calls v.token { w with kv := w.kv.set i w.clock (lockKey runId) v } := by
    rcases hacquired with hcall | h'
    · exact ⟨_, .head _, hcall⟩
    · exact h'.set v
  refine ⟨fun token hrel cur hcur htoken => ?_, fun cur hcur => ?_, fun token hrel => ?_,
    fun wr hwr => ?_⟩
  · obtain rfl : v = cur := Option.some.inj ((Kv.set_val_self ..).symm.trans hcur)
    subst htoken
    exact hdead (hasReleased_set hrel)
  · obtain rfl : v = cur := Option.some.inj ((Kv.set_val_self ..).symm.trans hcur)
    exact hnow
  · rcases hasReleased_set hrel with ⟨owner, hcall⟩ | h'
    · rw [hreleased owner token hcall]
      exact hnow
    · exact (h.released token h').set v
  · rcases List.mem_cons.1 hwr with rfl | hwr
    · exact update_self ..
    · exact (h.skip (s := .done true) hold).wrote wr hwr

/-- Nobody has acquired the lock with the token of an acquisition that has not written. -/
theorem not_hasAcquired (h : ReleaseInv runId calls w ph) (hfresh : FreshTokens calls)
    (hold : ph i ≠ .done true) {owner token : JsString} {ttlMs : Int} {now : Option Int}
    (hc : calls i = .acquire owner ttlMs now token) : ¬HasAcquired calls token w := by
  rintro ⟨wr, hwr, owner', ttlMs', now', hcall⟩
  obtain rfl := hfresh _ _ _ _ _ _ _ _ _ hc hcall
  exact hold (h.wrote wr hwr)

theorem acquire (h : ReleaseInv runId calls w ph) (hfresh : FreshTokens calls)
    (hold : ph i ≠ .done true) {owner token : JsString} {ttlMs : Int} {now : Option Int}
    (hc : calls i = .acquire owner ttlMs now token) (expires : Int) :
    ReleaseInv runId calls
      { w with kv := w.kv.set i w.clock (lockKey runId) ⟨owner, expires, token⟩ }
      (update ph i (.done true)) := by
  refine h.write hold (.inl ⟨owner, ttlMs, now, hc⟩) (fun _ _ hrel => ?_) ?_
  · rw [hc] at hrel
    contradiction
  · rintro (⟨_, hrel⟩ | hrel)
    · rw [hc] at hrel
      contradiction
    · exact absurd (h.released token hrel) (h.not_hasAcquired hfresh hold hc)

/-- A compare-and-swap of the record. -/
theorem putIfMatch (h : ReleaseInv runId calls w ph) (hold : ph i ≠ .done true)
    {cur v : LockRecord} {won : Bool}
    (hr : (lockMachine.exec i () (.kv (.putIfMatch (lockKey runId) cur v)) w).1 = won)
    (hv : w.kv.val (lockKey runId) = some cur →
      ReleaseInv runId calls { w with kv := w.kv.set i w.clock (lockKey runId) v }
        (update ph i (.done true)))
    (hs : won = true → s = .done true) :
    ReleaseInv runId calls (lockMachine.exec i () (.kv (.putIfMatch (lockKey runId) cur v)) w).2
      (update ph i s) := by
  by_cases hcur : w.kv.val (lockKey runId) = some cur
  · simp only [lockMachine, Kv.exec, hcur, if_true] at hr ⊢
    rw [hs hr.symm]
    exact hv hcur
  · simp only [lockMachine, Kv.exec, hcur, if_false] at hr ⊢
    exact h.skip hold

/-- Every step of the protocol keeps the invariant. -/
theorem step (hfresh : FreshTokens calls) (h : ReleaseInv runId calls w ph) {o : LockOp}
    (hs : (calls i).Step runId (ph i) o (lockMachine.exec i () o w).1 s)
    (hok : Reacquired runId calls w i o (lockMachine.exec i () o w).1) :
    ReleaseInv runId calls (lockMachine.exec i () o w).2 (update ph i s) := by
  generalize hr : (lockMachine.exec i () o w).1 = r at hs hok
  generalize hp : ph i = p at hs
  generalize hc : calls i = c at hs
  cases hs with
  | now | gone | live | expired | stale | ours | renewAt => exact h.skip (by simp [hp])
  | @claim owner ttlMs now token t =>
    by_cases hv : w.kv.val (lockKey runId) = none
    · simp only [lockMachine, Kv.exec, hv, if_true] at hr ⊢
      subst hr
      exact h.acquire hfresh (by simp [hp]) hc _
    · simp only [lockMachine, Kv.exec, hv, if_false] at hr ⊢
      subst hr
      exact h.skip (by simp [hp])
  | takeOver =>
    exact h.putIfMatch (by simp [hp]) hr (fun _ => h.acquire hfresh (by simp [hp]) hc _)
      fun hwon => by rw [hwon]
  | @renew owner token ttlMs cur t won htoken =>
    refine h.putIfMatch (by simp [hp]) hr (fun hcur => ?_) fun hwon => by rw [hwon]
    subst htoken
    refine h.write (by simp [hp]) (.inr (h.acquired cur hcur)) (fun _ _ hrel => ?_) ?_
    · rw [hc] at hrel
      contradiction
    · rintro (⟨_, hrel⟩ | hrel)
      · rw [hc] at hrel
        contradiction
      · -- The record is dead: it is not the one that has been put there since.
        have hzero := h.dead _ hrel cur hcur rfl
        exact absurd rfl (hok owner cur.token ttlMs hc hzero hrel cur hcur)
  | @release owner token cur won htoken =>
    refine h.putIfMatch (by simp [hp]) hr (fun hcur => ?_) fun hwon => by rw [hwon]; rfl
    subst htoken
    refine h.write (by simp [hp]) (.inr (h.acquired cur hcur)) (fun owner' token' hrel => ?_)
      fun _ => rfl
    rw [hc] at hrel
    exact (LockCall.release.inj hrel).2.symm

end ReleaseInv

/-! ## Renewals after the release -/

namespace LateInv

variable {token : JsString} {j : ℕ}

/-- What the renewal has read of the record is dead. -/
theorem step (hfresh : FreshTokens calls) {owner : JsString} {ttlMs : Int}
    (hj : calls j = .renew owner token ttlMs) (h : LateInv runId calls token j w ph) {o : LockOp}
    (hs : (calls i).Step runId (ph i) o (lockMachine.exec i () o w).1 s)
    (hok : Reacquired runId calls w i o (lockMachine.exec i () o w).1) :
    LateInv runId calls token j (lockMachine.exec i () o w).2 (update ph i s) := by
  have hinv := h.toReleaseInv.step hfresh hs hok
  by_cases hij : i = j
  swap
  · refine ⟨hinv, h.past.exec, ?_, fun cur hcur => ?_⟩
    · rw [update_of_ne (Ne.symm hij)]
      exact h.silent
    · rw [update_of_ne (Ne.symm hij)] at hcur
      exact h.held cur hcur
  subst hij
  refine ⟨hinv, h.past.exec, ?_, ?_⟩
  all_goals
    rw [update_self]
    generalize hr : (lockMachine.exec i () o w).1 = r at hs hok
    generalize hp : ph i = p at hs
    rw [hj] at hs
  · cases hs with
    | stale | ours | renewAt => rintro ⟨⟩
    | @renew _ _ _ cur t won htoken =>
      -- The record that it has read is dead, so another one is there.
      rintro hdone
      obtain rfl := LockPhase.done.inj hdone
      have hzero : cur.expires = 0 := h.held cur (by rw [hp]; rfl)
      simp only [lockMachine, Kv.exec] at hr
      split at hr
      · next hcur => exact hok _ _ _ hj hzero h.past cur hcur htoken
      · contradiction
  · cases hs with
    | stale | renew => rintro _ ⟨⟩
    | @renewAt _ _ _ cur t =>
      intro cur' hcur'
      exact h.held cur' (by rw [hp]; exact hcur')
    | @ours _ cur hhandle =>
      intro cur' hcur'
      obtain rfl := Option.some.inj hcur'
      exact h.dead token h.past cur hr (Option.some.inj hhandle).symm

end LateInv

/-! ## Runs -/

/-- What is promised of the handle with the token once it is released, after the moves `past`: its
    lock is dead, and the renewals that begin afterwards return `false` and write nothing. -/
structure StaysReleased (runId : JsString) (calls : ℕ → LockCall) (token : JsString) (t : Int)
    (past rest : List (Move Unit ℕ)) : Prop where
  dead : ∀ cur, (lockMachine.play (lockStart runId calls t) (past ++ rest)).world.kv.val
    (lockKey runId) = some cur → cur.token = token → cur.expires = 0
  returns : ∀ j owner ttlMs, calls j = .renew owner token ttlMs → (∀ a, .run j a ∉ past) →
    ∀ reply, (lockMachine.play (lockStart runId calls t) (past ++ rest)).procs j = .pure reply →
      reply = .renewed false
  silent : ∀ j owner ttlMs, calls j = .renew owner token ttlMs → (∀ a, .run j a ∉ past) →
    ∀ wr ∈ (lockMachine.play (lockStart runId calls t) (past ++ rest)).world.kv.log, wr.tid ≠ j

/-- A lock that was released is not revived, as long as each renewal of a released handle that has
    read the dead record comes too late to replace it: the lock has been acquired since. -/
theorem released_stays (hfresh : FreshTokens calls) {t : Int} {past rest : List (Move Unit ℕ)}
    (hms : lockMachine.Meets (Reacquired runId calls) (lockStart runId calls t) (past ++ rest))
    {token : JsString}
    (hpast : HasReleased calls token (lockMachine.play (lockStart runId calls t) past).world) :
    StaysReleased runId calls token t past rest := by
  obtain ⟨hpre, hpost⟩ := Machine.meets_append.1 hms
  obtain ⟨ph, hJ, hf⟩ := Machine.play_follows (M := lockMachine) (J := ReleaseInv runId calls)
    (fun w ph i _ o s' hJ hs hok => hJ.step hfresh hs hok) (fun w ph n hJ => { hJ with })
    (ReleaseInv.init t) (fun i => prog_reports (calls i)) hpre
  have hlate : ∀ j owner ttlMs, calls j = .renew owner token ttlMs → (∀ a, .run j a ∉ past) →
      ∃ ph', LateInv runId calls token j
          (lockMachine.play (lockStart runId calls t) (past ++ rest)).world ph' ∧
        ∀ i, ((lockMachine.play (lockStart runId calls t) (past ++ rest)).procs i).Follows
          ((calls i).Step runId) (ph' i) (calls i).Reports := by
    intro j owner ttlMs hj hnot
    have hprocs : (lockMachine.play (lockStart runId calls t) past).procs j =
        (calls j).prog runId :=
      (Machine.play_untouched (P := fun _ => True) (fun _ _ _ _ _ h => h) (fun _ _ h => h) trivial
        fun m hm => ?_).1
    · have hsilent : ph j ≠ .done true := fun hdone => by
        have hfj := hf j
        rw [hdone] at hfj
        obtain ⟨reply, hreply⟩ := pure_of_done hfj
        rw [hprocs, hj] at hreply
        contradiction
      have hstart : LateInv runId calls token j
          (lockMachine.play (lockStart runId calls t) past).world (update ph j .start) := by
        refine ⟨hJ.skip hsilent, hpast, ?_, ?_⟩
        all_goals rw [update_self]
        · rintro ⟨⟩
        · rintro _ ⟨⟩
      rw [Machine.play_append]
      refine Machine.play_follows (M := lockMachine) (J := LateInv runId calls token j)
        (fun w ph i _ o s' hJ hs hok => hJ.step hfresh hj hs hok) (fun w ph n hJ => { hJ with })
        hstart (fun i => ?_) hpost
      by_cases hij : i = j
      · subst hij
        rw [update_self, hprocs, hj]
        exact prog_reports (.renew owner token ttlMs)
      · rw [update_of_ne hij]
        exact hf i
    · rcases m with ⟨i, a⟩ | n
      · simp only [Move.isOf, decide_eq_true_eq]
        rintro rfl
        exact hnot a hm
      · rintro ⟨⟩
  refine ⟨?_, fun j owner ttlMs hj hnot reply hreply => ?_, fun j owner ttlMs hj hnot wr hwr => ?_⟩
  · obtain ⟨ph', hJ', -⟩ := Machine.play_follows (M := lockMachine)
      (J := fun w ph => ReleaseInv runId calls w ph ∧ HasReleased calls token w)
      (fun w ph i _ o s' hJ hs hok => ⟨hJ.1.step hfresh hs hok, hJ.2.exec⟩)
      (fun w ph n hJ => ⟨{ hJ.1 with }, hJ.2⟩) ⟨hJ, hpast⟩ hf hpost
    rw [Machine.play_append]
    exact hJ'.1.dead token hJ'.2
  · obtain ⟨ph', hJ', hf'⟩ := hlate j owner ttlMs hj hnot
    have hfj := hf' j
    rw [hreply, hj] at hfj
    obtain ⟨ok, hdone, rfl⟩ := hfj
    cases ok with
    | false => rfl
    | true => exact absurd hdone hJ'.silent
  · obtain ⟨ph', hJ', -⟩ := hlate j owner ttlMs hj hnot
    rintro rfl
    exact hJ'.silent (hJ'.wrote wr hwr)

/-! ## Two runs -/

instance (token : JsString) (c : LockCall) : Decidable (∃ owner, c = .release owner token) :=
  match c with
  | .release owner token' => decidable_of_iff (token' = token) (by simp)
  | .acquire .. | .renew .. => isFalse (by simp)

instance (calls : ℕ → LockCall) (token : JsString) (w : LockWorld) :
    Decidable (HasReleased calls token w) :=
  inferInstanceAs (Decidable (∃ wr ∈ w.kv.log, ∃ owner, calls wr.tid = .release owner token))

instance (runId : JsString) (calls : ℕ → LockCall) (w : LockWorld) (i : ℕ) (o : LockOp) (r : o.Res) :
    Decidable (Reacquired runId calls w i o r) :=
  match o with
  | .kv (.putIfMatch _ cur _) =>
    match h : calls i with
    | .renew _ token _ =>
      decidable_of_iff (cur.expires = 0 → HasReleased calls token w →
        ∀ rec_ ∈ w.kv.val (lockKey runId), rec_.token ≠ token)
        (by simp [Reacquired, h])
    | .acquire .. | .release .. => isTrue (by simp [Reacquired, h])
  | .kv (.get _) | .kv (.put ..) | .kv (.putIfAbsent ..) | .now => isTrue trivial

/-- The lock is acquired, released, and acquired by another owner; the others are the first one's
    heartbeats. -/
def heartbeats : ℕ → LockCall
  | 0 => .acquire (js "a") 10 none (js "1")
  | 1 => .release (js "a") (js "1")
  | 2 => .acquire (js "b") 10 none (js "2")
  | _ => .renew (js "a") (js "1") 10

theorem heartbeats_fresh : FreshTokens heartbeats := by
  intro i j owner owner' ttlMs ttlMs' now now' token hi hj
  rcases i with _ | _ | _ | i <;> rcases j with _ | _ | _ | j <;> try contradiction
  · rfl
  · obtain ⟨-, -, -, rfl⟩ := LockCall.acquire.inj hi
    exact absurd (LockCall.acquire.inj hj).2.2.2 (by decide)
  · obtain ⟨-, -, -, rfl⟩ := LockCall.acquire.inj hi
    exact absurd (LockCall.acquire.inj hj).2.2.2 (by decide)
  · rfl

/-- Acquired and released. -/
def acquiredAndReleased : List (Move Unit ℕ) := [.run 0 (), .run 0 (), .run 1 (), .run 1 ()]

/-- A heartbeat reads the dead record, and comes to write after the other acquisition. -/
theorem released_stays_reacquired :
    let rest : List (Move Unit ℕ) :=
      [.run 3 (), .run 2 (), .run 2 (), .run 2 (), .run 2 (), .run 3 (), .run 3 ()]
    (lockMachine.play (lockStart (js "r") heartbeats 5) (acquiredAndReleased ++ rest)).procs 3 =
        .pure (.renewed false) ∧
      StaysReleased (js "r") heartbeats (js "1") 5 acquiredAndReleased rest :=
  ⟨by rfl, released_stays heartbeats_fresh (by decide) (by decide)⟩

/-- Without it, the heartbeat revives the lock. -/
theorem renewal_revives :
    let ms : List (Move Unit ℕ) := acquiredAndReleased ++ [.run 3 (), .run 3 (), .run 3 ()]
    HasReleased heartbeats (js "1")
        (lockMachine.play (lockStart (js "r") heartbeats 5) acquiredAndReleased).world ∧
      (lockMachine.play (lockStart (js "r") heartbeats 5) ms).procs 3 = .pure (.renewed true) ∧
      (lockMachine.play (lockStart (js "r") heartbeats 5) ms).world.kv.val (lockKey (js "r")) =
        some ⟨js "a", 15, js "1"⟩ :=
  ⟨by decide, by rfl, by decide⟩

end Gnldev.Durable
