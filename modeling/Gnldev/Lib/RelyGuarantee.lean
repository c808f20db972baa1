import Gnldev.Lib.Prog

/-!
# Rely and guarantee

Assertions about the world along the text of one program, in the presence of the
others. The programs share an invariant `I` of the world, and every operation of
the program `i` makes a step of its guarantee `G i`. What the program `i` knows
between two operations must be *stable* under the guarantees of the others and
the world's own moves (`Stable`): typically facts that only become truer, such as
the presence of a marker nobody deletes.

Facts that no program's step invalidates, its own included, are *kept* (`Kept`);
they are carried along the text without being mentioned (`Prog.sat_perform`).

`Prog.Sat` is the triple of the program: from a world with `P`, every operation
keeps `I` and makes a `G i`-step, and the program returns with `Q`. The rules
follow the text; `Machine.play_sat` says that programs with such triples keep `I`
together, in every interleaving, and `Machine.play_returned` what holds when one of
them has returned.
-/

namespace Gnldev

variable {Op : Type} {Res : Op → Type} {α β W A E : Type}

/-- The setting of a rely-guarantee argument: the machine, the condition its
    operations meet, the invariant and the guarantees. -/
structure RG (Op : Type) (Res : Op → Type) (W A E : Type) where
  M : Machine Op Res W A E
  ok : W → ℕ → (o : Op) → Res o → Prop
  I : W → Prop
  G : ℕ → W → W → Prop

namespace RG

variable (S : RG Op Res W A E)

/-- What the program `i` may see happen between two of its operations. -/
def Rely (i : ℕ) (w w' : W) : Prop := (∃ j, j ≠ i ∧ S.G j w w') ∨ ∃ e, w' = S.M.env e w

/-- An assertion the others do not invalidate. -/
def Stable (i : ℕ) (P : W → Prop) : Prop :=
  ∀ w w', S.I w → S.I w' → S.Rely i w w' → P w → P w'

/-- An assertion no program and no move of the world invalidates. -/
structure Kept (P : W → Prop) : Prop where
  step : ∀ i w w', S.I w → S.I w' → S.G i w w' → P w → P w'
  env : ∀ e w, S.I w → P w → P (S.M.env e w)

/-- An operation of the program `i` from a world with `P` keeps the invariant,
    makes a step of the guarantee, and leads to a world with `P'`. -/
def OpSat (i : ℕ) (o : Op) (P : W → Prop) (P' : Res o → W → Prop) : Prop :=
  ∀ w a, S.I w → P w → S.ok w i o (S.M.exec i a o w).1 →
    S.I (S.M.exec i a o w).2 ∧ S.G i w (S.M.exec i a o w).2 ∧
      P' (S.M.exec i a o w).1 (S.M.exec i a o w).2

variable {S} {P Q : W → Prop}

theorem Kept.stable (h : S.Kept P) (i : ℕ) : S.Stable i P := by
  rintro w w' hI hI' (⟨j, _, hG⟩ | ⟨e, rfl⟩) hP
  · exact h.step j w w' hI hI' hG hP
  · exact h.env e w hI hP

theorem kept_const (p : Prop) : S.Kept fun _ => p := ⟨fun _ _ _ _ _ _ h => h, fun _ _ _ h => h⟩

theorem Kept.and (hP : S.Kept P) (hQ : S.Kept Q) : S.Kept fun w => P w ∧ Q w where
  step i w w' hI hI' hG h := ⟨hP.step i w w' hI hI' hG h.1, hQ.step i w w' hI hI' hG h.2⟩
  env e w hI h := ⟨hP.env e w hI h.1, hQ.env e w hI h.2⟩

theorem Kept.or (hP : S.Kept P) (hQ : S.Kept Q) : S.Kept fun w => P w ∨ Q w where
  step i w w' hI hI' hG h := h.imp (hP.step i w w' hI hI' hG) (hQ.step i w w' hI hI' hG)
  env e w hI h := h.imp (hP.env e w hI) (hQ.env e w hI)

theorem Kept.imp (p : Prop) (hP : S.Kept P) : S.Kept fun w => p → P w where
  step i w w' hI hI' hG h hp := hP.step i w w' hI hI' hG (h hp)
  env e w hI h hp := hP.env e w hI (h hp)

theorem Kept.forall {ι : Sort*} {P : ι → W → Prop} (hP : ∀ x, S.Kept (P x)) :
    S.Kept fun w => ∀ x, P x w where
  step i w w' hI hI' hG h x := (hP x).step i w w' hI hI' hG (h x)
  env e w hI h x := (hP x).env e w hI (h x)

end RG

namespace Prog

variable {S : RG Op Res W A E} {i : ℕ}

/-- The triple of a program. -/
def Sat (S : RG Op Res W A E) (i : ℕ) : Prog Op Res α → (W → Prop) → (α → W → Prop) → Prop
  | pure a, P, Q => ∀ w, S.I w → P w → Q a w
  | op o k, P, Q => ∃ P' : Res o → W → Prop,
      (∀ r, S.Stable i (P' r)) ∧ S.OpSat i o P P' ∧ ∀ r, (k r).Sat S i (P' r) Q

variable {P : W → Prop} {Q : α → W → Prop}

theorem Sat.op {o : Op} {k : Res o → Prog Op Res α} (P' : Res o → W → Prop)
    (hst : ∀ r, S.Stable i (P' r)) (ho : S.OpSat i o P P') (hk : ∀ r, (k r).Sat S i (P' r) Q) :
    (Prog.op o k).Sat S i P Q :=
  ⟨P', hst, ho, hk⟩

variable {p : Prog Op Res α}

theorem Sat.conseq {P' : W → Prop} {Q' : α → W → Prop} (h : p.Sat S i P Q)
    (hP : ∀ w, S.I w → P' w → P w) (hQ : ∀ a w, S.I w → Q a w → Q' a w) :
    p.Sat S i P' Q' := by
  induction p generalizing P P' with
  | pure a => exact fun w hI hw => hQ a w hI (h w hI (hP w hI hw))
  | op o k ih =>
    obtain ⟨R, hst, ho, hk⟩ := h
    exact ⟨R, hst, fun w a hI hw hok => ho w a hI (hP w hI hw) hok,
      fun r => ih r (hk r) fun _ _ h => h⟩

/-- A program that needs less. -/
theorem Sat.pre {P' : W → Prop} (h : p.Sat S i P Q) (hP : ∀ w, P' w → P w) : p.Sat S i P' Q :=
  h.conseq (fun w _ => hP w) fun _ _ _ h => h

theorem Sat.post {R : α → W → Prop} (h : p.Sat S i P Q) (hQ : ∀ a w, S.I w → Q a w → R a w) :
    p.Sat S i P R := h.conseq (fun _ _ h => h) hQ

theorem Sat.bind {f : α → Prog Op Res β} {R : α → W → Prop} {Q : β → W → Prop} (h : p.Sat S i P R)
    (hf : ∀ a, (f a).Sat S i (R a) Q) :
    (p >>= f).Sat S i P Q := by
  induction p generalizing P with
  | pure a => exact (hf a).conseq h fun _ _ _ h => h
  | op o k ih =>
    obtain ⟨P', hst, ho, hk⟩ := h
    exact ⟨P', hst, ho, fun r => ih r (hk r)⟩

variable {R : W → Prop}

/-- What is kept stays along the program. -/
theorem Sat.frame (hR : S.Kept R) (h : p.Sat S i P Q) :
    p.Sat S i (fun w => P w ∧ R w) fun a w => Q a w ∧ R w := by
  induction p generalizing P with
  | pure a => exact fun w hI hw => ⟨h w hI hw.1, hw.2⟩
  | op o k ih =>
    obtain ⟨P', hst, ho, hk⟩ := h
    refine ⟨fun r w => P' r w ∧ R w, fun r w w' hI hI' hrely hw => ?_, ?_, fun r => ih r (hk r)⟩
    · exact ⟨hst r w w' hI hI' hrely hw.1, hR.stable i w w' hI hI' hrely hw.2⟩
    · intro w a hI hw hok
      obtain ⟨hI', hG, hP'⟩ := ho w a hI hw.1 hok
      exact ⟨hI', hG, hP', hR.step i _ _ hI hI' hG hw.2⟩

/-- A program that is never reached. -/
theorem sat_of_false (h : ∀ w, ¬P w) :
    p.Sat S i P Q := by
  induction p generalizing P with
  | pure a => exact fun w _ hw => absurd hw (h w)
  | op o k ih =>
    exact ⟨fun _ _ => False, fun _ _ _ _ _ _ hf => hf, fun w _ _ hw _ => absurd hw (h w),
      fun r => ih r fun _ hf => hf⟩

/-- One operation: what is kept stays, and what it teaches is added. -/
theorem sat_perform {o : Op} {T : Res o → W → Prop} (hR : S.Kept R) (hT : ∀ r, S.Kept (T r))
    (ho : S.OpSat i o R T) :
    (perform o).Sat S i R fun r w => R w ∧ T r w := by
  refine ⟨fun r w => R w ∧ T r w, fun r => (hR.and (hT r)).stable i, ?_, fun r w _ h => h⟩
  intro w a hI hw hok
  obtain ⟨hI', hG, hT'⟩ := ho w a hI hw hok
  exact ⟨hI', hG, hR.step i _ _ hI hI' hG hw, hT'⟩

/-- An operation of which nothing is to be known. -/
theorem sat_kept {o : Op} (hR : S.Kept R) (ho : S.OpSat i o R fun _ _ => True) :
    (perform o).Sat S i R fun _ => R :=
  (sat_perform hR (fun _ => RG.kept_const True) ho).post fun _ _ _ h => h.1

end Prog

/-! ## Programs that throw -/

namespace Prog

variable {S : RG Op Res W A E} {i : ℕ} {ε : Type}

/-- The triple of a program that can throw: it returns with `Q`, or throws with `X`. -/
def Tries (S : RG Op Res W A E) (i : ℕ) (P : W → Prop) (p : ExceptT ε (Prog Op Res) α)
    (Q : α → W → Prop) (X : ε → W → Prop) : Prop :=
  p.run.Sat S i P fun r w => match r with
    | .ok a => Q a w
    | .error e => X e w

section Tries

variable {P R : W → Prop} {p : ExceptT ε (Prog Op Res) α} {Q T : α → W → Prop} {X Y : ε → W → Prop}

theorem tries_pure {a : α} (h : ∀ w, S.I w → P w → Q a w) :
    Tries S i P (Pure.pure a : ExceptT ε (Prog Op Res) α) Q X := h

theorem tries_throw {e : ε} (h : ∀ w, S.I w → P w → X e w) :
    Tries S i P (throw e : ExceptT ε (Prog Op Res) α) Q X := h

theorem Tries.conseq (h : Tries S i R p T Y) (hP : ∀ w, S.I w → P w → R w)
    (hQ : ∀ a w, S.I w → T a w → Q a w) (hX : ∀ e w, S.I w → Y e w → X e w) :
    Tries S i P p Q X := by
  refine Sat.conseq h hP fun r w hI hr => ?_
  cases r with
  | ok a => exact hQ a w hI hr
  | error e => exact hX e w hI hr

theorem Tries.pre (h : Tries S i R p Q X) (hP : ∀ w, P w → R w) : Tries S i P p Q X :=
  h.conseq (fun w _ => hP w) (fun _ _ _ h => h) fun _ _ _ h => h

theorem Tries.post (h : Tries S i P p T X) (hQ : ∀ a w, S.I w → T a w → Q a w) :
    Tries S i P p Q X := h.conseq (fun _ _ h => h) hQ fun _ _ _ h => h

theorem Tries.bind {f : α → ExceptT ε (Prog Op Res) β} {Q : β → W → Prop} (h : Tries S i P p T X)
    (hf : ∀ a, Tries S i (T a) (f a) Q X) : Tries S i P (p >>= f) Q X := by
  refine Sat.bind h fun r => ?_
  cases r with
  | ok a => exact hf a
  | error e => exact fun w _ hw => hw

theorem Tries.tryCatch {f : ε → ExceptT ε (Prog Op Res) α} (h : Tries S i P p Q Y)
    (hf : ∀ e, Tries S i (Y e) (f e) Q X) : Tries S i P (tryCatch p f) Q X := by
  refine Sat.bind h fun r => ?_
  cases r with
  | ok a => exact fun w _ hw => hw
  | error e => exact hf e

/-- An operation that does not throw, and what it does. -/
theorem tries_op {o : Op} {T : Res o → W → Prop} (hT : ∀ r, S.Stable i (T r))
    (ho : S.OpSat i o P T) :
    Tries S i P (liftM (perform o : Prog Op Res (Res o)) : ExceptT ε (Prog Op Res) (Res o)) T X :=
  Sat.op T hT ho fun _ _ _ hw => hw

/-- A program that is never reached. -/
theorem tries_of_false (h : ∀ w, ¬P w) : Tries S i P p Q X := sat_of_false h

/-- An operation that does not throw. -/
theorem tries_perform {o : Op} {T : Res o → W → Prop} (hR : S.Kept R) (hT : ∀ r, S.Kept (T r))
    (ho : S.OpSat i o R T) :
    Tries S i R (liftM (perform o : Prog Op Res (Res o)) : ExceptT ε (Prog Op Res) (Res o))
      (fun r w => R w ∧ T r w) X :=
  Sat.bind (sat_perform hR hT ho) fun _ _ _ h => h

end Tries

end Prog

namespace RG

variable (S : RG Op Res W A E)

/-- The setting with a stronger invariant. -/
def within (X : W → Prop) : RG Op Res W A E := { S with I := fun w => S.I w ∧ X w }

variable {S}

theorem Stable.within {i : ℕ} {P X : W → Prop} (h : S.Stable i P) : (S.within X).Stable i P :=
  fun w w' hI hI' hrely hP => h w w' hI.1 hI'.1 hrely hP

end RG

/-- What the steps of a program keep can be added to the invariant. -/
theorem Prog.Sat.within {S : RG Op Res W A E} {i : ℕ} {X : W → Prop}
    (hX : ∀ w w', S.I w → S.I w' → S.G i w w' → X w → X w') {p : Prog Op Res α} {P : W → Prop}
    {Q : α → W → Prop} (h : p.Sat S i P Q) : p.Sat (S.within X) i P Q := by
  induction p generalizing P with
  | pure a => exact fun w hI hw => h w hI.1 hw
  | op o k ih =>
    obtain ⟨P', hst, ho, hk⟩ := h
    refine ⟨P', fun r w w' hI hI' => hst r w w' hI.1 hI'.1, ?_, fun r => ih r (hk r)⟩
    intro w a hI hw hok
    obtain ⟨hI', hG, hP'⟩ := ho w a hI.1 hw hok
    exact ⟨⟨hI', hX _ _ hI.1 hI' hG hI.2⟩, hG, hP'⟩

namespace Machine

variable {S : RG Op Res W A E}

section Play

variable {c : Conf Op Res α W} {P : ℕ → W → Prop} {Q : ℕ → α → W → Prop}
  (henv : ∀ w e, S.I w → S.I (S.M.env e w)) (hI : S.I c.world)
  (hst : ∀ i, S.Stable i (P i)) (hP : ∀ i, P i c.world)
  (hsat : ∀ i, (c.procs i).Sat S i (P i) (Q i)) {ms : List (Move A E)}

include henv hI hst hP hsat

/-- Programs with stable preconditions and triples keep the invariant together, in every run whose
    operations meet a condition that, together with what the returned programs have promised, gives
    the setting's own. Each keeps a triple for what it still has to do. -/
theorem obeys_triples {ok : Conf Op Res α W → ℕ → (o : Op) → Res o → Prop}
    (hok : ∀ c i o r, S.I c.world → (∀ j x, c.procs j = .pure x → Q j x c.world) → ok c i o r →
      S.ok c.world i o r) (hms : S.M.Obeys ok c ms) :
    S.I (S.M.play c ms).world ∧ ∀ i, ∃ P, S.Stable i P ∧ P (S.M.play c ms).world ∧
      ((S.M.play c ms).procs i).Sat S i P (Q i) := by
  refine obeys_induction (fun c => S.I c.world ∧ ∀ i, ∃ P, S.Stable i P ∧ P c.world ∧
    (c.procs i).Sat S i P (Q i)) ?_ ?_ ⟨hI, fun i => ⟨P i, hst i, hP i, hsat i⟩⟩ hms
  · rintro c i a o k ⟨hI, hall⟩ hp hcok
    have hret (j : ℕ) (x : α) (hx : c.procs j = .pure x) : Q j x c.world := by
      obtain ⟨P, -, hPw, hs⟩ := hall j
      rw [hx] at hs
      exact hs _ hI hPw
    obtain ⟨P, _, hPw, hs⟩ := hall i
    rw [hp] at hs
    obtain ⟨P', hst', ho, hk⟩ := hs
    obtain ⟨hI', hG, hP'⟩ := ho _ a hI hPw (hok c i o _ hI hret hcok)
    refine ⟨hI', fun j => ?_⟩
    by_cases hj : j = i
    · subst hj
      exact ⟨_, hst' _, hP', by simpa using hk _⟩
    · obtain ⟨R, hR, hRw, hRs⟩ := hall j
      exact ⟨R, hR, hR _ _ hI hI' (.inl ⟨i, fun h => hj h.symm, hG⟩) hRw, by simpa [hj] using hRs⟩
  · rintro c e ⟨hI, hall⟩
    refine ⟨henv _ e hI, fun j => ?_⟩
    obtain ⟨R, hR, hRw, hRs⟩ := hall j
    exact ⟨R, hR, hR _ _ hI (henv _ e hI) (.inr ⟨e, rfl⟩) hRw, hRs⟩

variable (hms : S.M.Meets S.ok c ms)
include hms

/-- The same, in every run meeting the setting's condition. -/
theorem play_triples : S.I (S.M.play c ms).world ∧ ∀ i, ∃ P, S.Stable i P ∧
    P (S.M.play c ms).world ∧ ((S.M.play c ms).procs i).Sat S i P (Q i) :=
  obeys_triples henv hI hst hP hsat (fun _ _ _ _ _ _ h => h) hms.obeys

/-- Programs with triples keep the invariant. -/
theorem play_sat : S.I (S.M.play c ms).world := (play_triples henv hI hst hP hsat hms).1

/-- A program that has returned has what its triple promises. -/
theorem play_returned {i : ℕ} {a : α} (hret : (S.M.play c ms).procs i = .pure a) :
    Q i a (S.M.play c ms).world := by
  obtain ⟨hI', hall⟩ := play_triples henv hI hst hP hsat hms
  obtain ⟨R, -, hR, hs⟩ := hall i
  rw [hret] at hs
  exact hs _ hI' hR

end Play

end Machine

end Gnldev
