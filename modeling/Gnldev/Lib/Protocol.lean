import Gnldev.Lib.Prog

/-!
# Protocols

A *protocol* is a labelled transition relation on phases: in a phase, which
operations a program may perform and, by the answer, in which phase it is then.
A program *follows* the protocol (`Prog.Follows`) when every operation it can
reach, whatever the answers, is one its phase allows. This is shown once for a
program, along its text, without looking at any other program.

What a run of many such programs keeps is then shown on the phases alone
(`Machine.play_follows`): an invariant between the world and the phase of every
program, kept by each operation the protocol allows. The text of the programs
has disappeared from that argument.
-/

namespace Gnldev

open Function

namespace Prog

variable {Op : Type} {Res : Op → Type} {α β σ : Type} {step : σ → (o : Op) → Res o → σ → Prop}

/-- The program follows the protocol `step` from the phase `s`, and returns in
    phases and with values related by `Q`. -/
def Follows (step : σ → (o : Op) → Res o → σ → Prop) :
    Prog Op Res α → σ → (σ → α → Prop) → Prop
  | pure a, s, Q => Q s a
  | op o k, s, Q => ∀ r, ∃ s', step s o r s' ∧ (k r).Follows step s' Q

variable {s : σ} {Q : σ → α → Prop}

@[simp] theorem follows_pure {a : α} :
    (Pure.pure a : Prog Op Res α).Follows step s Q ↔ Q s a := Iff.rfl

variable {p : Prog Op Res α}

theorem Follows.mono {Q' : σ → α → Prop} (h : p.Follows step s Q) (hQ : ∀ s a, Q s a → Q' s a) :
    p.Follows step s Q' := by
  induction p generalizing s with
  | pure a => exact hQ _ _ h
  | op o k ih =>
    intro r
    obtain ⟨s', hs, hk⟩ := h r
    exact ⟨s', hs, ih r hk⟩

theorem Follows.bind {f : α → Prog Op Res β} {R : σ → α → Prop} {Q : σ → β → Prop}
    (h : p.Follows step s R) (hf : ∀ s a, R s a → (f a).Follows step s Q) :
    (p >>= f).Follows step s Q := by
  induction p generalizing s with
  | pure a => exact hf _ _ h
  | op o k ih =>
    intro r
    obtain ⟨s', hs, hk⟩ := h r
    exact ⟨s', hs, ih r hk⟩

/-- A program of operations that the phases of `I` allow, and that stay in them. -/
theorem Follows.of_only {q : Op → Prop} {I : σ → Prop}
    (hstep : ∀ s o r, I s → q o → ∃ s', step s o r s' ∧ I s') (hp : p.Only q) (hs : I s) :
    p.Follows step s fun s _ => I s := by
  induction p generalizing s with
  | pure a => exact hs
  | op o k ih =>
    intro r
    obtain ⟨s', hstep', hs'⟩ := hstep s o r hs hp.1
    exact ⟨s', hstep', ih r (hp.2 r) hs'⟩

/-- A program that follows a protocol follows what it is mapped to. -/
theorem Follows.sim {τ : Type} {step' : τ → (o : Op) → Res o → τ → Prop} {Q' : τ → α → Prop}
    (h : p.Follows step s Q) (f : σ → τ)
    (hstep : ∀ s o r s', step s o r s' → step' (f s) o r (f s')) (hQ : ∀ s a, Q s a → Q' (f s) a) :
    p.Follows step' (f s) Q' := by
  induction p generalizing s with
  | pure a => exact hQ s a h
  | op o k ih =>
    intro r
    obtain ⟨s', hs, hk⟩ := h r
    exact ⟨f s', hstep _ _ _ _ hs, ih r hk⟩

/-- A program that follows two protocols follows them at once. -/
theorem Follows.prod {τ : Type} {step' : τ → (o : Op) → Res o → τ → Prop} {t : τ}
    {Q' : τ → α → Prop} (h : p.Follows step s Q) (h' : p.Follows step' t Q') :
    p.Follows (fun x o r y => step x.1 o r y.1 ∧ step' x.2 o r y.2) (s, t)
      fun x a => Q x.1 a ∧ Q' x.2 a := by
  induction p generalizing s t with
  | pure a => exact ⟨h, h'⟩
  | op o k ih =>
    intro r
    obtain ⟨s', hs, hk⟩ := h r
    obtain ⟨t', ht, hk'⟩ := h' r
    exact ⟨(s', t'), ⟨hs, ht⟩, ih r hk hk'⟩

/-- A program whose operations are done by other programs follows the protocol that these do. -/
theorem Follows.lift {Op' : Type} {Res' : Op' → Type} {step' : σ → (o : Op') → Res' o → σ → Prop}
    {f : ∀ o, Prog Op' Res' (Res o)} (h : p.Follows step s Q)
    (hf : ∀ s o (X : Res o → σ → Prop), (∀ r, ∃ s', step s o r s' ∧ X r s') →
      (f o).Follows step' s fun s' r => X r s') : (p.lift f).Follows step' s Q := by
  induction p generalizing s with
  | pure a => exact h
  | op o k ih =>
    refine (hf s o (fun r s' => (k r).Follows step s' Q) h).bind fun s' r hk => ?_
    exact ih r hk

end Prog

namespace Machine

variable {Op : Type} {Res : Op → Type} {α W A E σ : Type} {M : Machine Op Res W A E}
  {ok : W → ℕ → (o : Op) → Res o → Prop} {step : ℕ → σ → (o : Op) → Res o → σ → Prop}

/-- The programs after an operation of one of them, each in its phase. -/
theorem follows_update {Q : ℕ → σ → α → Prop} {c : Conf Op Res α W} {ph : ℕ → σ}
    (hf : ∀ i, (c.procs i).Follows (step i) (ph i) (Q i)) {i : ℕ} {o : Op}
    {k : Res o → Prog Op Res α} (hp : c.procs i = .op o k) (r : Res o) :
    ∃ s', step i (ph i) o r s' ∧ ∀ j, (update c.procs i (k r) j).Follows (step j)
      (update ph i s' j) (Q j) := by
  have hi := hf i
  rw [hp] at hi
  obtain ⟨s', hs, hk⟩ := hi r
  refine ⟨s', hs, fun j => ?_⟩
  by_cases hj : j = i
  · subst hj; simpa using hk
  · simpa [hj] using hf j

section Invariant

variable {J : W → (ℕ → σ) → Prop} {Q : ℕ → σ → α → Prop}
  (hop : ∀ w ph i a o s', J w ph → step i (ph i) o (M.exec i a o w).1 s' →
    ok w i o (M.exec i a o w).1 → J (M.exec i a o w).2 (update ph i s'))
include hop

variable {c : Conf Op Res α W} {ph : ℕ → σ}

/-- The invariant after an operation: the phase the protocol allows, and the
    programs following it from there. -/
theorem exec_follows (hJ : J c.world ph) (hf : ∀ i, (c.procs i).Follows (step i) (ph i) (Q i))
    {i : ℕ} (a : A) {o : Op} {k : Res o → Prog Op Res α} (hp : c.procs i = .op o k)
    (hok : ok c.world i o (M.exec i a o c.world).1) :
    ∃ s', step i (ph i) o (M.exec i a o c.world).1 s' ∧
      J (M.exec i a o c.world).2 (update ph i s') ∧
      ∀ j, (update c.procs i (k (M.exec i a o c.world).1) j).Follows (step j)
        (update ph i s' j) (Q j) := by
  obtain ⟨s', hs, hf'⟩ := follows_update hf hp (M.exec i a o c.world).1
  exact ⟨s', hs, hop _ _ _ _ _ _ hJ hs hok, hf'⟩

variable {ms : List (Move A E)}

/-- An invariant between the world and the phases of the programs, kept by every
    permitted operation the protocol allows and by the permitted moves of the world,
    holds after every run of programs that follow the protocol. -/
theorem heeds_follows {okE : W → E → Prop} (henv : ∀ w ph e, J w ph → okE w e → J (M.env e w) ph)
    (hJ : J c.world ph) (hf : ∀ i, (c.procs i).Follows (step i) (ph i) (Q i))
    (hms : M.Meets ok c ms) (hheeds : M.Heeds okE c ms) :
    ∃ ph', J (M.play c ms).world ph' ∧
      ∀ i, ((M.play c ms).procs i).Follows (step i) (ph' i) (Q i) := by
  induction ms generalizing c ph with
  | nil => exact ⟨ph, hJ, hf⟩
  | cons m ms ih =>
    obtain ⟨hm, hms⟩ := hms
    obtain ⟨he, hheeds⟩ := hheeds
    rcases m with ⟨i, a⟩ | e
    · cases hp : c.procs i with
      | pure x =>
        simp only [move, hp] at hms hheeds
        have hstay : M.play c (.run i a :: ms) = M.play c ms := by simp only [play, move, hp]
        rw [hstay]
        exact ih hJ hf hms hheeds
      | op o k =>
        simp only [Permits, hp] at hm
        obtain ⟨s', -, hJ', hf'⟩ := exec_follows hop hJ hf a hp hm
        rw [move_op hp] at hms hheeds
        have hnext := ih hJ' hf' hms hheeds
        rwa [play, move_op hp]
    · exact ih (henv _ _ e hJ (he e rfl)) hf hms hheeds

variable (henv : ∀ w ph e, J w ph → J (M.env e w) ph)
include henv

/-- The same, if the world may move as it does. -/
theorem play_follows (hJ : J c.world ph) (hf : ∀ i, (c.procs i).Follows (step i) (ph i) (Q i))
    (hms : M.Meets ok c ms) :
    ∃ ph', J (M.play c ms).world ph' ∧
      ∀ i, ((M.play c ms).procs i).Follows (step i) (ph' i) (Q i) :=
  heeds_follows hop (fun w ph e hJ _ => henv w ph e hJ) hJ hf hms (heeds_true c ms)

/-- What every permitted operation of the protocol keeps under the invariant holds
    from where it once holds in a run. -/
theorem keeps_follows {P : W → Prop}
    (hP : ∀ w ph i a o s', J w ph → P w → step i (ph i) o (M.exec i a o w).1 s' →
      ok w i o (M.exec i a o w).1 → P (M.exec i a o w).2)
    (hPenv : ∀ w ph e, J w ph → P w → P (M.env e w)) (hJ : J c.world ph)
    (hf : ∀ i, (c.procs i).Follows (step i) (ph i) (Q i)) (hms : M.Meets ok c ms) {n m : ℕ}
    (hnm : n ≤ m) (h : P (M.play c (ms.take n)).world) : P (M.play c (ms.take m)).world := by
  have hmeets := meets_take hms m
  rw [take_split hnm ms, meets_append] at hmeets
  -- The programs follow the protocol up to the world with `P`, and from there on.
  obtain ⟨ph', hJ', hf'⟩ := play_follows hop henv hJ hf hmeets.1
  obtain ⟨-, ⟨-, hend⟩, -⟩ := play_follows (J := fun w ph => J w ph ∧ P w)
    (fun w ph i a o s' hw hs hok =>
      ⟨hop w ph i a o s' hw.1 hs hok, hP w ph i a o s' hw.1 hw.2 hs hok⟩)
    (fun w ph e hw => ⟨henv w ph e hw.1, hPenv w ph e hw.1 hw.2⟩) ⟨hJ', h⟩ hf' hmeets.2
  rw [play_take hnm]
  exact hend

/-- What every permitted operation of the protocol meets under the invariant, every
    operation of the run meets. -/
theorem meets_follows {ok' : W → ℕ → (o : Op) → Res o → Prop}
    (hok' : ∀ w ph i a o s', J w ph → step i (ph i) o (M.exec i a o w).1 s' →
      ok w i o (M.exec i a o w).1 → ok' w i o (M.exec i a o w).1) (hJ : J c.world ph)
    (hf : ∀ i, (c.procs i).Follows (step i) (ph i) (Q i)) (hms : M.Meets ok c ms) :
    M.Meets ok' c ms := by
  induction ms generalizing c ph with
  | nil => trivial
  | cons m ms ih =>
    obtain ⟨hm, hms⟩ := hms
    cases m with
    | env e => exact ⟨trivial, ih (henv _ _ _ hJ) hf hms⟩
    | run i a =>
      cases hp : c.procs i with
      | pure x =>
        simp only [move, Permits, Meets, hp] at hms ⊢
        exact ⟨trivial, ih hJ hf hms⟩
      | op o k =>
        simp only [move, Permits, Meets, hp] at hm hms ⊢
        obtain ⟨s', hs, hJ', hf'⟩ := exec_follows hop hJ hf a hp hm
        exact ⟨hok' _ _ _ _ _ _ hJ hs hm, ih hJ' hf' hms⟩

end Invariant

section Conditions

variable {ok : Conf Op Res α W → ℕ → (o : Op) → Res o → Prop} {J : Conf Op Res α W → (ℕ → σ) → Prop}
  {Q : ℕ → σ → α → Prop}

/-- What is kept until something happens: at the end of a run it has happened, or the
    invariant holds. -/
theorem until_follows {P : Conf Op Res α W → Prop}
    (hop : ∀ c ph i a o k s', J c ph → (∀ j, (c.procs j).Follows (step j) (ph j) (Q j)) →
      c.procs i = .op o k → step i (ph i) o (M.exec i a o c.world).1 s' →
      ok c i o (M.exec i a o c.world).1 →
      P ⟨(M.exec i a o c.world).2, update c.procs i (k (M.exec i a o c.world).1)⟩ ∨
      J ⟨(M.exec i a o c.world).2, update c.procs i (k (M.exec i a o c.world).1)⟩
        (update ph i s'))
    (henv : ∀ c ph e, J c ph → J ⟨M.env e c.world, c.procs⟩ ph) {c : Conf Op Res α W} {ph : ℕ → σ}
    (hJ : J c ph) (hf : ∀ i, (c.procs i).Follows (step i) (ph i) (Q i)) {ms : List (Move A E)}
    (hms : M.Obeys ok c ms) :
    (∃ n ≤ ms.length, P (M.play c (ms.take n))) ∨ ∃ ph', J (M.play c ms) ph' ∧
      ∀ i, ((M.play c ms).procs i).Follows (step i) (ph' i) (Q i) := by
  induction ms generalizing c ph with
  | nil => exact .inr ⟨ph, hJ, hf⟩
  | cons m ms ih =>
    obtain ⟨hm, hms⟩ := hms
    have hnext : P (M.move c m) ∨ ∃ ph', J (M.move c m) ph' ∧
        ∀ i, ((M.move c m).procs i).Follows (step i) (ph' i) (Q i) := by
      rcases m with ⟨i, a⟩ | e
      · simp only [move, Permits] at hm ⊢
        split
        · exact .inr ⟨ph, hJ, hf⟩
        · next o k hp =>
          rw [hp] at hm
          obtain ⟨s', hs, hf'⟩ := follows_update hf hp (M.exec i a o c.world).1
          exact (hop c ph i a o k s' hJ hf hp hs hm).imp id fun hJ' => ⟨_, hJ', hf'⟩
      · exact .inr ⟨ph, henv c ph e hJ, hf⟩
    rcases hnext with hP | ⟨ph', hJ', hf'⟩
    · exact .inl ⟨1, Nat.succ_le_succ (Nat.zero_le _), hP⟩
    · refine (ih hJ' hf' hms).imp_left ?_
      rintro ⟨n, hn, hP⟩
      exact ⟨n + 1, Nat.succ_le_succ hn, hP⟩

/-- The rule for a condition that sees the programs, and an invariant that does. -/
theorem obeys_follows
    (hop : ∀ c ph i a o k s', J c ph → (∀ j, (c.procs j).Follows (step j) (ph j) (Q j)) →
      c.procs i = .op o k → step i (ph i) o (M.exec i a o c.world).1 s' →
      ok c i o (M.exec i a o c.world).1 →
      J ⟨(M.exec i a o c.world).2, update c.procs i (k (M.exec i a o c.world).1)⟩
        (update ph i s'))
    (henv : ∀ c ph e, J c ph → J ⟨M.env e c.world, c.procs⟩ ph) {c : Conf Op Res α W} {ph : ℕ → σ}
    (hJ : J c ph) (hf : ∀ i, (c.procs i).Follows (step i) (ph i) (Q i)) {ms : List (Move A E)}
    (hms : M.Obeys ok c ms) :
    ∃ ph', J (M.play c ms) ph' ∧
      ∀ i, ((M.play c ms).procs i).Follows (step i) (ph' i) (Q i) := by
  rcases until_follows (P := fun _ => False)
    (fun c ph i a o k s' hJ hf hp hs hok => .inr (hop c ph i a o k s' hJ hf hp hs hok)) henv hJ hf hms
    with ⟨_, _, hno⟩ | h
  · exact hno.elim
  · exact h

end Conditions

/-- What every permitted operation of the protocol keeps, in whatever phase, holds from
    where it once holds in a run. -/
theorem persists_follows {P : W → Prop} {Q : ℕ → σ → α → Prop}
    (hop : ∀ w s i a o s', P w → step i s o (M.exec i a o w).1 s' →
      ok w i o (M.exec i a o w).1 → P (M.exec i a o w).2)
    (henv : ∀ w e, P w → P (M.env e w)) {c : Conf Op Res α W} {ph : ℕ → σ}
    (hf : ∀ i, (c.procs i).Follows (step i) (ph i) (Q i)) {ms : List (Move A E)}
    (hms : M.Meets ok c ms) {n m : ℕ} (hnm : n ≤ m) (hP : P (M.play c (ms.take n)).world) :
    P (M.play c (ms.take m)).world :=
  keeps_follows (J := fun _ _ => True) (fun _ _ _ _ _ _ h _ _ => h) (fun _ _ _ h => h)
    (fun w ph i a o s' _ h hs hok => hop w (ph i) i a o s' h hs hok) (fun w _ e _ h => henv w e h)
    trivial hf hms hnm hP

end Machine

end Gnldev
