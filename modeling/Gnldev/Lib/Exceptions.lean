import Gnldev.Lib.Protocol

/-!
# Programs that throw

Triples for programs that can throw and catch, over a protocol (`Prog.Runs`): from the
phases of `P` the program follows the protocol, and it returns in phases and with
values of `Q`, or throws in phases and with errors of `X`. There is one rule for each
way to build a program, so that a triple is shown along the text.
-/

namespace Gnldev

namespace Prog

variable {Op : Type} {Res : Op → Type} {α β ε σ : Type} {step : σ → (o : Op) → Res o → σ → Prop}

/-- What holds when the program ends. -/
def Ends (Q : σ → α → Prop) (X : σ → ε → Prop) (s : σ) : Except ε α → Prop
  | .ok a => Q s a
  | .error e => X s e

/-- The triple. -/
def Runs (step : σ → (o : Op) → Res o → σ → Prop) (P : σ → Prop)
    (p : ExceptT ε (Prog Op Res) α) (Q : σ → α → Prop) (X : σ → ε → Prop) : Prop :=
  ∀ s, P s → Prog.Follows step p.run s (Ends Q X)

section Rules

variable {P J : σ → Prop} {Q T : σ → α → Prop} {R : σ → β → Prop} {X Y : σ → ε → Prop}
  {p : ExceptT ε (Prog Op Res) α}

theorem runs_pure {a : α} (h : ∀ s, P s → Q s a) :
    Runs step P (Pure.pure a : ExceptT ε (Prog Op Res) α) Q X := h

theorem runs_throw {e : ε} (h : ∀ s, P s → X s e) :
    Runs step P (throw e : ExceptT ε (Prog Op Res) α) Q X := h

theorem Runs.conseq (h : Runs step J p T Y) (hP : ∀ s, P s → J s)
    (hQ : ∀ s a, T s a → Q s a) (hX : ∀ s e, Y s e → X s e) : Runs step P p Q X := by
  refine fun s hs => (h s (hP s hs)).mono fun s r hr => ?_
  cases r with
  | ok a => exact hQ s a hr
  | error e => exact hX s e hr

theorem Runs.pre (h : Runs step J p Q X) (hP : ∀ s, P s → J s) : Runs step P p Q X :=
  h.conseq hP (fun _ _ h => h) fun _ _ h => h

theorem Runs.post (h : Runs step P p T X) (hQ : ∀ s a, T s a → Q s a) : Runs step P p Q X :=
  h.conseq (fun _ h => h) hQ fun _ _ h => h

/-- Nothing is said of what is thrown. -/
theorem Runs.drop (h : Runs step P p Q X) : Runs step P p Q fun _ _ => True :=
  h.conseq (fun _ h => h) (fun _ _ h => h) fun _ _ _ => trivial

/-- An operation that returns or throws. -/
theorem runs_perform {Ans : Op → Type} {step : σ → (o : Op) → Except ε (Ans o) → σ → Prop} {o : Op}
    {Q : σ → Ans o → Prop} (hok : ∀ s r, P s → ∃ s', step s o (.ok r) s' ∧ Q s' r)
    (herr : ∀ s e, P s → ∃ s', step s o (.error e) s' ∧ X s' e) :
    Runs step P (ExceptT.mk (Prog.perform o) : ExceptT ε (Prog Op fun o => Except ε (Ans o)) (Ans o))
      Q X := by
  intro s hs r
  rcases r with e | r
  · exact herr s e hs
  · exact hok s r hs

/-- A program that follows a protocol follows what it is mapped to. -/
theorem Runs.sim {τ : Type} {step' : τ → (o : Op) → Res o → τ → Prop} (h : Runs step P p Q X)
    (f : σ → τ) (hstep : ∀ s o r s', step s o r s' → step' (f s) o r (f s')) :
    Runs step' (fun t => ∃ s, f s = t ∧ P s) p (fun t a => ∃ s, f s = t ∧ Q s a)
      fun t e => ∃ s, f s = t ∧ X s e := by
  rintro _ ⟨s, rfl, hs⟩
  refine (h s hs).sim f hstep fun s r hr => ?_
  cases r with
  | ok a => exact ⟨s, rfl, hr⟩
  | error e => exact ⟨s, rfl, hr⟩

theorem Runs.bind {f : α → ExceptT ε (Prog Op Res) β} (h : Runs step P p Q X)
    (hf : ∀ a, Runs step (fun s => Q s a) (f a) R X) : Runs step P (p >>= f) R X := by
  refine fun s hs => (h s hs).bind fun s r hr => ?_
  cases r with
  | ok a => exact hf a s hr
  | error e => exact hr

/-- A step before the rest that is taken or not. -/
theorem Runs.when {b : Prop} [Decidable b] {m : ExceptT ε (Prog Op Res) β}
    (hm : Runs step P m (fun s _ => P s) X) (h : Runs step P p Q X) :
    Runs step P (if b then m >>= fun _ => p else p) Q X := by
  split
  · exact hm.bind fun _ => h
  · exact h

/-- The value of a program, or else one that there is already. -/
theorem Runs.orElse {b : Prop} [Decidable b] {f : α → ExceptT ε (Prog Op Res) β} (a : α)
    (h : Runs step P p Q X) (ha : ∀ s, P s → Q s a) (hf : ∀ a, Runs step (fun s => Q s a) (f a) R X) :
    Runs step P (if b then p >>= f else f a) R X := by
  split
  · exact h.bind hf
  · exact (hf a).pre ha

/-- A check before the rest, which throws. -/
theorem Runs.guard {b : Prop} [Decidable b] {e : ε} (he : ∀ s, P s → X s e)
    (h : Runs step P p Q X) :
    Runs step P (if b then throw e >>= fun _ : β => p else p) Q X := by
  split
  · exact he
  · exact h

theorem Runs.tryCatch {f : ε → ExceptT ε (Prog Op Res) α} (h : Runs step P p Q Y)
    (hf : ∀ e, Runs step (fun s => Y s e) (f e) Q X) :
    Runs step P (tryCatch p f) Q X := by
  refine fun s hs => (h s hs).bind fun s r hr => ?_
  cases r with
  | ok a => exact hr
  | error e => exact hf e s hr

end Rules

end Prog

namespace Machine

variable {Op : Type} {Res : Op → Type} {α β ε W A E : Type} {M : Machine Op Res W A E} {i : ℕ} {a : A}

theorem solo_tryBind (p : ExceptT ε (Prog Op Res) α) (f : α → ExceptT ε (Prog Op Res) β) (w : W) :
    M.solo i a (p >>= f).run w = match M.solo i a p.run w with
      | (.ok x, w') => M.solo i a (f x).run w'
      | (.error e, w') => (.error e, w') := by
  rw [ExceptT.run_bind, solo_bind]
  rcases M.solo i a p.run w with ⟨e | x, w'⟩ <;> rfl

theorem solo_tryCatch (p : ExceptT ε (Prog Op Res) α) (f : ε → ExceptT ε (Prog Op Res) α) (w : W) :
    M.solo i a (tryCatch p f).run w = match M.solo i a p.run w with
      | (.ok x, w') => (.ok x, w')
      | (.error e, w') => M.solo i a (f e).run w' := by
  change M.solo i a (Prog.bind _ _) w = _
  refine (M.solo_bind i a _ _ w).trans ?_
  have hrun : p.run = p := rfl
  rw [hrun]
  rcases M.solo i a p w with ⟨e | x, w'⟩ <;> rfl

end Machine

end Gnldev
