import Gnldev.Durable.Tool.Conforms

/-!
# What an operation of a call does

The journal answers an operation that the protocol allows: `Does` lists what can come of
it, for the records, the markers, the clock and what the call knows. An invariant over
many calls is shown by cases on `Does`, with the rule `toolMachine_invariant`; neither
the text of `execute` nor the machine is looked at again.
-/

namespace Gnldev.Durable

open Function

variable {V : Type}

/-- The key of a call, if it has one. -/
def ToolCall.keyOr (c : ToolCall) : JsString := c.key.toOption.getD []

variable {c : ToolCall}

theorem ToolCall.eq_keyOr (k : JsString) (h : c.key = .ok k) : k = c.keyOr := by
  rw [keyOr, h]
  rfl

/-- Where the call keeps its marker, if it gets so far. -/
def ToolCall.marker (c : ToolCall) : Option JsString := c.dupKey.toOption.join

theorem ToolCall.eq_marker (k : Option JsString) (h : c.dupKey = .ok k) :
    k = c.marker := by
  rw [marker, h]
  rfl

/-- The world after a put of the call `i`. -/
def ToolWorld.putRec (w : ToolWorld V) (i : ℕ) (k : JsString) (v : Stored V) : ToolWorld V :=
  { w with recs := w.recs.set i w.clock k v, trace := .wrote k i v.record :: w.trace }

/-- The world after a claim of the call `i`, of the time `t`. -/
def ToolWorld.claimRec (w : ToolWorld V) (i : ℕ) (k : JsString) (t : Int) (n : ℕ) : ToolWorld V :=
  { w with
    recs := w.recs.set i w.clock k (stampFormat (.running t (some n)))
    trace := .won k i t :: w.trace }

/-- The world after a write of a marker. -/
def ToolWorld.putDup (w : ToolWorld V) (i : ℕ) (k : JsString) (m : DupMarker) : ToolWorld V :=
  { w with dups := w.dups.set i w.clock k m }

/-- The world after the call `i` has won a marker. -/
def ToolWorld.claimDup (w : ToolWorld V) (i : ℕ) (k : JsString) (m : DupMarker) : ToolWorld V :=
  { w with
    dups := w.dups.set i w.clock k m
    trace := .marked k i m.at_ :: w.trace }

/-- The record under a key. -/
def ToolWorld.recordAt (w : ToolWorld V) (k : JsString) : Option (ToolRecord V) :=
  (w.recs.val k).map (·.record)

variable {w w' : ToolWorld V}

theorem recordAt_of_recs (h : w'.recs = w.recs) (k : JsString) :
    w'.recordAt k = w.recordAt k := by
  rw [ToolWorld.recordAt, ToolWorld.recordAt, h]

theorem recordAt_putRec (w : ToolWorld V) (i : ℕ) (k : JsString) (v : Stored V) :
    (w.putRec i k v).recordAt k = some v.record := by
  rw [ToolWorld.recordAt, ToolWorld.putRec, Kv.set_val_self, Option.map_some]

theorem recordAt_putRec_of_ne (w : ToolWorld V) (i : ℕ) {k k' : JsString} (v : Stored V)
    (h : k' ≠ k) : (w.putRec i k v).recordAt k' = w.recordAt k' := by
  rw [ToolWorld.recordAt, ToolWorld.putRec, Kv.set_val_of_ne _ _ _ _ h, ToolWorld.recordAt]

theorem recordAt_claimRec (w : ToolWorld V) (i : ℕ) (k : JsString) (t : Int) (n : ℕ) :
    (w.claimRec i k t n).recordAt k = some (.running t (some n)) := by
  rw [ToolWorld.recordAt, ToolWorld.claimRec, Kv.set_val_self, Option.map_some]
  rfl

/-- The operation wins no key. -/
def Loses : (o : ToolOp V) → o.Res → Prop
  | .rec_ _ (.putIfAbsent _ _), .ok won => won = false
  | .rec_ _ (.putIfMatch _ _ _), .ok won => won = false
  | _, _ => True

/-- What an operation of the call `i` does, which knows `s`: the answer, the world after
    it, and what the call knows then. -/
inductive Does (c : ToolCall) (key : JsString) (dupKey : Option JsString) (i : ℕ)
    (w : ToolWorld V) (s : Local V) : (o : ToolOp V) → o.Res → ToolWorld V → Local V → Prop
  /-- Nothing: it is rejected, a claim is lost, or it is about things outside. -/
  | idle (o : ToolOp V) (r : o.Res) (w' : ToolWorld V) (hlost : Loses o r)
    (hrecs : w'.recs = w.recs) (hdups : w'.dups = w.dups) (hclock : w'.clock = w.clock)
    (htrace : w'.trace = w.trace) :
    Does c key dupKey i w s o r w' s
  | now : Does c key dupKey i w s .now (.ok w.clock) w { s with time := some w.clock }
  | read (site : Site V) :
    Does c key dupKey i w s (.rec_ site (.get key)) (.ok (w.recs.val key)) w
      (s.learn c (.rec_ site (.get key)) (.ok (w.recs.val key)))
  /-- The first claim. -/
  | first (site : Site V) (t : Int) (hfree : w.recs.val key = none) (hs : s.claimed = none) :
    Does c key dupKey i w s (.rec_ site (.putIfAbsent key (stampFormat (.running t (some 1)))))
      (.ok true) (w.claimRec i key t 1) { s with claimed := some t }
  | takeover (site : Site V) (e : Stored V) (t : Int) (n : ℕ) (hval : w.recs.val key = some e)
    (hs : s.claimed = none) (hread : s.reread = some e) (hfinal : e.record.final = none)
    (hmay : MayTakeOver c s) :
    Does c key dupKey i w s (.rec_ site (.putIfMatch key e (stampFormat (.running t (some n)))))
      (.ok true) (w.claimRec i key t n) { s with claimed := some t }
  | put (site : Site V) (v : Stored V) (hsite : site ≠ .mirror)
    (hput : AllowedPut c key dupKey s key v site) :
    Does c key dupKey i w s (.rec_ site (.put key v)) (.ok ()) (w.putRec i key v)
      { s with known := v.record :: s.known, succeeded := s.succeeded || v.record.isSucceeded }
  | mirror (k : JsString) (v : Stored V) (hk : k ≠ key)
    (hkey : ¬key.startsWith (c.ctx.runId ++ js ":")) :
    Does c key dupKey i w s (.rec_ .mirror (.put k v)) (.ok ()) (w.putRec i k v) s
  | readMarker (k : JsString) (hk : dupKey = some k) :
    Does c key dupKey i w s (.dup (.get k)) (.ok (w.dups.val k)) w
      { s with marks := (w.dups.val k).toList ++ s.marks }
  /-- The marker is won, if it was free. -/
  | mark (k : JsString) (t : Int) (hk : dupKey = some k) (hfree : w.dups.val k = none)
    (hs : s.claimed.isSome) (hm : s.marked = none) :
    Does c key dupKey i w s (.dup (.putIfAbsent k ⟨c.toolCallId, t, false, true, false⟩))
      (.ok true) (w.claimDup i k ⟨c.toolCallId, t, false, true, false⟩) { s with marked := some t }
  /-- The marker is won, from another call. -/
  | remark (k : JsString) (e : DupMarker) (t : Int) (hk : dupKey = some k)
    (hval : w.dups.val k = some e) (hs : s.claimed.isSome) (hm : s.marked = none)
    (htake : Takeable c s e) :
    Does c key dupKey i w s (.dup (.putIfMatch k e ⟨c.toolCallId, t, false, true, false⟩))
      (.ok true) (w.claimDup i k ⟨c.toolCallId, t, false, true, false⟩) { s with marked := some t }
  /-- The marker is completed, after a success. -/
  | complete (k : JsString) (t : Int) (o : KvOp JsString DupMarker) (r : ToolOp.Res (V := V) (.dup o))
    (hk : dupKey = some k) (hs : s.succeeded = true)
    (hval : ∀ e, w.dups.val k = some e →
      e.released ∨ (e.inFlight ∧ e.firstToolCallId = c.toolCallId)) :
    Does c key dupKey i w s (.dup o) r
      (w.putDup i k ⟨c.toolCallId, t, false, false, false⟩) s
  | nudged (k : JsString) (m : DupMarker) (hk : dupKey = some k) (hm : m ∈ s.marks)
    (hdone : m.completed) :
    Does c key dupKey i w s (.dup (.put k { m with nudged := true })) (.ok ())
      (w.putDup i k { m with nudged := true }) s
  | release (k : JsString) (t : Int) (hk : dupKey = some k) (hm : s.marked.isSome) :
    Does c key dupKey i w s (.dup (.put k ⟨c.toolCallId, t, false, false, true⟩)) (.ok ())
      (w.putDup i k ⟨c.toolCallId, t, false, false, true⟩) { s with marked := none }
  | begin_ (r : ToolOp.Res (V := V) .start) (hs : s.claimed.isSome) (hb : s.began = false) :
    Does c key dupKey i w s .start r { w with trace := .began i :: w.trace } { s with began := true }
  | finish (r : ToolOp.Res (V := V) .finish) (hb : s.began = true) (he : s.ended = false) :
    Does c key dupKey i w s .finish r { w with trace := .ended i :: w.trace } { s with ended := true }

section Machine

variable [DecidableEq V] {c : ToolCall} {key : JsString} {dupKey : Option JsString} {i : ℕ}
  {w : ToolWorld V} {s : Local V}

/-- An operation on the records. -/
theorem does_rec {site : Site V} {o : KvOp JsString (Stored V)}
    (h : Allowed c key dupKey s (.rec_ site o)) :
    Does c key dupKey i w s (.rec_ site o) (.ok (w.recs.exec i w.clock o).1)
      { w with
        recs := (w.recs.exec i w.clock o).2
        trace := ToolOp.events i (.rec_ site o) (w.recs.exec i w.clock o).1 ++ w.trace }
      (s.learn c (.rec_ site o) (.ok (w.recs.exec i w.clock o).1)) := by
  rcases o with k | ⟨k, v⟩ | ⟨k, v⟩ | ⟨k, e, v⟩
  · obtain rfl : k = key := h
    exact .read site
  · have hput : AllowedPut c key dupKey s k v site := h
    cases site with
    | mirror => exact .mirror k v hput.1 hput.2
    | terminal =>
      obtain rfl := hput.1
      exact .put _ v (by simp) hput
    | recovered =>
      obtain rfl := hput.1
      exact .put _ v (by simp) hput
    | track base =>
      obtain rfl := hput.1
      exact .put _ v (by simp) hput
    | _ => exact hput.elim
  · obtain ⟨rfl, hs, t, rfl⟩ := h
    by_cases hfree : w.recs.val k = none
    · simp only [Kv.exec, hfree, if_true]
      cases site <;> exact .first _ t hfree hs
    · simp only [Kv.exec, hfree, if_false]
      cases site <;> exact .idle _ _ _ rfl rfl rfl rfl rfl
  · obtain ⟨rfl, hs, hread, hfinal, hmay, t, n, rfl⟩ := h
    by_cases hval : w.recs.val k = some e
    · simp only [Kv.exec, hval, if_true]
      cases site <;> exact .takeover _ e t n hval hs hread hfinal hmay
    · simp only [Kv.exec, hval, if_false]
      cases site <;> exact .idle _ _ _ rfl rfl rfl rfl rfl

omit [DecidableEq V] in
/-- An operation on the markers. -/
theorem does_dup {o : KvOp JsString DupMarker} (h : AllowedDup c dupKey s o) :
    Does c key dupKey i w s (.dup o) (.ok (w.dups.exec i w.clock o).1)
      { w with
        dups := (w.dups.exec i w.clock o).2
        trace := ToolOp.events (V := V) i (.dup o) (w.dups.exec i w.clock o).1 ++ w.trace }
      (s.learn c (.dup o) (.ok (w.dups.exec i w.clock o).1)) := by
  rcases o with k | ⟨k, m⟩ | ⟨k, m⟩ | ⟨k, e, m⟩
  · have hlearn : s.learn c (.dup (.get k)) (.ok (w.dups.val k)) =
        { s with marks := (w.dups.val k).toList ++ s.marks } := by
      cases w.dups.val k <;> rfl
    exact hlearn ▸ .readMarker k h
  · obtain ⟨hk, ⟨m₀, hm, hdone, rfl⟩ | ⟨hm, t, rfl⟩⟩ := h
    · have hheld : m₀.released = false := by
        rw [DupMarker.completed, Bool.and_eq_true, Bool.not_eq_true'] at hdone
        exact hdone.1
      simp only [Local.learn, hheld, Bool.false_eq_true, if_false]
      exact .nudged k m₀ hk hm hdone
    · exact .release k t hk hm
  · obtain ⟨hk, t, ⟨rfl, hs, hm⟩ | ⟨rfl, hs⟩⟩ := h
    · by_cases hfree : w.dups.val k = none
      · simp only [Kv.exec, hfree, if_true]
        exact .mark k t hk hfree hs hm
      · simp only [Kv.exec, hfree, if_false]
        exact .idle _ _ _ trivial rfl rfl rfl rfl
    · by_cases hfree : w.dups.val k = none
      · simp only [Kv.exec, hfree, if_true]
        exact .complete k t _ _ hk hs fun e he => by rw [hfree] at he; cases he
      · simp only [Kv.exec, hfree, if_false]
        exact .idle _ _ _ trivial rfl rfl rfl rfl
  · obtain ⟨hk, t, ⟨rfl, hs, hm, htake⟩ | ⟨rfl, hs, he⟩⟩ := h
    · by_cases hval : w.dups.val k = some e
      · simp only [Kv.exec, hval, if_true]
        exact .remark k e t hk hval hs hm htake
      · simp only [Kv.exec, hval, if_false]
        exact .idle _ _ _ trivial rfl rfl rfl rfl
    · by_cases hval : w.dups.val k = some e
      · simp only [Kv.exec, hval, if_true]
        refine .complete k t _ _ hk hs fun e' he' => ?_
        rw [hval] at he'
        cases he'
        exact he
      · simp only [Kv.exec, hval, if_false]
        exact .idle _ _ _ trivial rfl rfl rfl rfl

/-- Every operation that the protocol allows does one of these things. -/
theorem does_of_step {o : ToolOp V} {a : ToolAnswer V} {s' : Local V}
    (h : CallStep c key dupKey s o (toolMachine.exec i a o w).1 s') :
    Does c key dupKey i w s o (toolMachine.exec i a o w).1 (toolMachine.exec i a o w).2 s' := by
  obtain ⟨hallowed, rfl⟩ := h
  rcases hfault : a.fault with _ | e
  · rcases o with ⟨site, o⟩ | o | k | _ | q | _ | _ | _
    · simp only [toolMachine, hfault]
      exact does_rec hallowed
    · simp only [toolMachine, hfault]
      exact does_dup hallowed
    · simp only [toolMachine, hfault]
      exact .idle _ _ _ trivial rfl rfl rfl rfl
    · simp only [toolMachine, hfault]
      exact .now
    · simp only [toolMachine, hfault]
      exact .idle _ _ _ trivial rfl rfl rfl rfl
    · simp only [toolMachine, hfault]
      exact .idle _ _ _ trivial rfl rfl rfl rfl
    · exact .begin_ _ hallowed.1 hallowed.2
    · simp only [toolMachine, hfault]
      exact .finish _ hallowed.1 hallowed.2
  · -- A rejected operation has no effect, and the call learns nothing from it.
    rcases o with ⟨site, o⟩ | o | k | _ | q | _ | _ | _
    · simp only [toolMachine, hfault]
      cases site <;> cases o <;> exact .idle _ _ _ trivial rfl rfl rfl rfl
    · simp only [toolMachine, hfault]
      cases o <;> exact .idle _ _ _ trivial rfl rfl rfl rfl
    · simp only [toolMachine, hfault]
      exact .idle _ _ _ trivial rfl rfl rfl rfl
    · simp only [toolMachine, hfault]
      exact .idle _ _ _ trivial rfl rfl rfl rfl
    · simp only [toolMachine, hfault]
      exact .idle _ _ _ trivial rfl rfl rfl rfl
    · simp only [toolMachine, hfault]
      exact .idle _ _ _ trivial rfl rfl rfl rfl
    · exact .begin_ _ hallowed.1 hallowed.2
    · simp only [toolMachine, hfault]
      exact .finish _ hallowed.1 hallowed.2

end Machine

variable {dupKey : Option JsString} {i : ℕ} {s s' : Local V} {o : ToolOp V} {r : o.Res}

/-- What has happened stays. -/
theorem Does.mem_trace {key : JsString} (h : Does c key dupKey i w s o r w' s') {e : ToolEvent V}
    (he : e ∈ w.trace) :
    e ∈ w'.trace := by
  cases h with
  | idle _ _ _ _ _ _ _ htrace => rwa [htrace]
  | first => exact .tail _ he
  | takeover => exact .tail _ he
  | put => exact .tail _ he
  | mirror => exact .tail _ he
  | mark => exact .tail _ he
  | remark => exact .tail _ he
  | begin_ => exact .tail _ he
  | finish => exact .tail _ he
  | _ => exact he

theorem Does.linked {key : JsString} (h : Does c key dupKey i w s o r w' s') (hw : w.recs.Linked) :
    w'.recs.Linked := by
  cases h with
  | idle _ _ _ _ hrecs => rwa [hrecs]
  | first => exact hw.set _ _ _ _
  | takeover => exact hw.set _ _ _ _
  | put => exact hw.set _ _ _ _
  | mirror => exact hw.set _ _ _ _
  | _ => exact hw

/-! ## Runs of many calls -/

section Runs

open Prog

variable [DecidableEq V] {calls : ℕ → ToolCall} {key : ℕ → JsString}
  (hkey : ∀ i, (calls i).key = .ok (key i))
include hkey

omit [DecidableEq V] in
/-- The calls follow the protocol of their keys. -/
theorem start_follows (w : ToolWorld V) (i : ℕ) :
    ((toolStart calls w).procs i).Follows (CallStep (calls i) (key i) (calls i).marker) Local.init
      (Ends (Answers (calls i)) fun _ e => Refusal (calls i) e) := by
  refine execute_follows (fun k hk => ?_) fun k hk => ToolCall.eq_marker k hk
  rw [hkey i] at hk
  exact (Except.ok.inj hk).symm

variable {ok : ToolWorld V → ℕ → (o : ToolOp V) → o.Res → Prop}

section Invariant

variable {J : ToolWorld V → (ℕ → Local V) → Prop}
  (hop : ∀ w ph i o r w' s', J w ph → Does (calls i) (key i) (calls i).marker i w (ph i) o r w' s' →
    ok w i o r → J w' (update ph i s'))
  (henv : ∀ w ph (n : ℕ), J w ph → J { w with clock := w.clock + n } ph)
include hop henv

/-- An invariant between the world and what the calls know. -/
theorem toolMachine_invariant {w : ToolWorld V} (hJ : J w fun _ => Local.init)
    {ms : List (Move (ToolAnswer V) ℕ)} (hms : toolMachine.Meets ok (toolStart calls w) ms) :
    ∃ ph, J (toolMachine.play (toolStart calls w) ms).world ph ∧
      ∀ i, ((toolMachine.play (toolStart calls w) ms).procs i).Follows
        (CallStep (calls i) (key i) (calls i).marker) (ph i)
        (Ends (Answers (calls i)) fun _ e => Refusal (calls i) e) :=
  Machine.play_follows (fun w ph i _ o s' h hs hok => hop w ph i o _ _ s' h (does_of_step hs) hok)
    henv hJ (start_follows hkey w) hms

/-- What every operation meets under the invariant. -/
theorem toolMachine_meets {ok' : ToolWorld V → ℕ → (o : ToolOp V) → o.Res → Prop}
    (hok' : ∀ w ph i o r w' s', J w ph →
      Does (calls i) (key i) (calls i).marker i w (ph i) o r w' s' → ok w i o r → ok' w i o r)
    {w : ToolWorld V} (hJ : J w fun _ => Local.init) {ms : List (Move (ToolAnswer V) ℕ)}
    (hms : toolMachine.Meets ok (toolStart calls w) ms) :
    toolMachine.Meets ok' (toolStart calls w) ms :=
  Machine.meets_follows
    (fun w ph i _ o s' h hs hok => hop w ph i o _ _ s' h (does_of_step hs) hok) henv
    (fun w ph i _ o s' h hs hok => hok' w ph i o _ _ s' h (does_of_step hs) hok) hJ
    (start_follows hkey w) hms

end Invariant

/-- What every operation keeps, whatever its call knows. -/
theorem toolMachine_persists {P : ToolWorld V → Prop}
    (hop : ∀ w s i o r w' s', P w → Does (calls i) (key i) (calls i).marker i w s o r w' s' →
      ok w i o r → P w')
    (henv : ∀ w (n : ℕ), P w → P { w with clock := w.clock + n }) {w : ToolWorld V}
    {ms : List (Move (ToolAnswer V) ℕ)} (hms : toolMachine.Meets ok (toolStart calls w) ms)
    {n m : ℕ} (hnm : n ≤ m) (hP : P (toolMachine.play (toolStart calls w) (ms.take n)).world) :
    P (toolMachine.play (toolStart calls w) (ms.take m)).world :=
  Machine.persists_follows
    (fun w s i _ o s' h hs hok => hop w s i o _ _ s' h (does_of_step hs) hok) henv
    (start_follows hkey w) hms hnm hP

end Runs

/-! ## Tools run under claims -/

/-- What a call has claimed it has won, and a tool that has started was claimed. -/
structure BodyInv (K : JsString) (w : ToolWorld V) (ph : ℕ → Local V) : Prop where
  won : ∀ i t, (ph i).claimed = some t → .won K i t ∈ w.trace
  began : ∀ i, .began i ∈ w.trace → ∃ t, .won K i t ∈ w.trace

variable {K : JsString}

theorem BodyInv.init (hw : w.trace = []) :
    BodyInv K w fun _ => Local.init := by
  refine ⟨fun i t ht => ?_, fun i hi => ?_⟩
  · cases ht
  · rw [hw] at hi
    cases hi

variable {ph : ℕ → Local V}

theorem BodyInv.mono (h : BodyInv K w ph) (hmore : ∀ e ∈ w.trace, e ∈ w'.trace)
    (hwon : ∀ t, s.claimed = some t → .won K i t ∈ w'.trace)
    (hbegan : ∀ j, .began j ∈ w'.trace → .began j ∈ w.trace ∨ j = i ∧ (ph i).claimed.isSome) :
    BodyInv K w' (update ph i s) where
  won j t hj := by
    by_cases hji : j = i
    · subst hji
      rw [update_self] at hj
      exact hwon t hj
    · rw [update_of_ne hji] at hj
      exact hmore _ (h.won j t hj)
  began j hj := by
    rcases hbegan j hj with hold | ⟨rfl, hclaimed⟩
    · obtain ⟨t, ht⟩ := h.began j hold
      exact ⟨t, hmore _ ht⟩
    · obtain ⟨t, ht⟩ := Option.isSome_iff_exists.1 hclaimed
      exact ⟨t, hmore _ (h.won j t ht)⟩

/-- An operation that starts nothing, and claims nothing. -/
theorem BodyInv.quiet (h : BodyInv K w ph) {es : List (ToolEvent V)}
    (htrace : w'.trace = es ++ w.trace) (hes : ∀ j, .began j ∉ es) (hs : s.claimed = (ph i).claimed) :
    BodyInv K w' (update ph i s) := by
  have hmore : ∀ e ∈ w.trace, e ∈ w'.trace := fun e he => by
    rw [htrace]
    exact List.mem_append_right es he
  refine h.mono hmore (fun t ht => hmore _ (h.won i t (hs ▸ ht))) fun j hj => .inl ?_
  rw [htrace, List.mem_append] at hj
  exact hj.resolve_left (hes j)

theorem BodyInv.step (h : BodyInv K w ph) (hdoes : Does c K dupKey i w (ph i) o r w' s') :
    BodyInv K w' (update ph i s') := by
  have hnil : ∀ j, ToolEvent.began (V := V) j ∉ [] := fun _ => List.not_mem_nil
  have hcons : ∀ {e : ToolEvent V}, (∀ j, .began j ≠ e) → ∀ j, .began j ∉ [e] :=
    fun he j hj => he j (List.mem_singleton.1 hj)
  cases hdoes with
  | idle _ _ w' _ _ _ _ htrace =>
    have hsame : w'.trace = [] ++ w.trace := htrace
    exact h.quiet hsame hnil rfl
  | read site =>
    exact h.quiet rfl hnil (Local.grows_learn (o := .rec_ site (.get K)) trivial _).claimed
  | first site t =>
    refine h.mono (fun e he => .tail _ he) (fun u hu => ?_) fun j hj => .inl ?_
    · cases hu
      exact .head _
    · exact (List.mem_cons.1 hj).resolve_left fun he => by cases he
  | takeover site e t n =>
    refine h.mono (fun e he => .tail _ he) (fun u hu => ?_) fun j hj => .inl ?_
    · cases hu
      exact .head _
    · exact (List.mem_cons.1 hj).resolve_left fun he => by cases he
  | begin_ r hclaimed =>
    refine h.mono (fun e he => .tail _ he) (fun t ht => .tail _ (h.won i t ht)) fun j hj => ?_
    rcases List.mem_cons.1 hj with he | hj
    · cases he
      exact .inr ⟨rfl, hclaimed⟩
    · exact .inl hj
  | put site v => exact h.quiet rfl (hcons fun j he => by cases he) rfl
  | mirror k v => exact h.quiet rfl (hcons fun j he => by cases he) rfl
  | mark k t => exact h.quiet rfl (hcons fun j he => by cases he) rfl
  | remark k e t => exact h.quiet rfl (hcons fun j he => by cases he) rfl
  | finish r => exact h.quiet rfl (hcons fun j he => by cases he) rfl
  | _ => exact h.quiet rfl hnil rfl

end Gnldev.Durable
