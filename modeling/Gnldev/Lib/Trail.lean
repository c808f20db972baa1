import Gnldev.Lib.Exceptions

/-!
# What a program performs

A program that runs alone leaves a *trail*: the operations it has performed, with their answers
(`Machine.Trail`). Statements about its trails are about all answers of the world and of the code
outside the model; a list of answers gives one of them (`Machine.script_trail`).

The rules take a trail apart along the text: `Trail.bind`, and `Trail.tryBind`, `Trail.tryCatch` for
programs that throw. `Trail.all` says what a trail is made of, `Trail.keeps` what it leaves as it was.
Where only the last part of a long program matters, `Trail.split` finds it, by what the program
performs up to there (`Prog.Until`).
-/

namespace Gnldev

namespace Prog

variable {Op : Type} {Res : Op → Type} {α β ε : Type} {q : Op → Prop} {R : Prog Op Res β → Prop}

/-- The program performs only operations of `q`, up to its end, or until it is a program of `R`. -/
inductive Until (q : Op → Prop) (R : Prog Op Res α → Prop) : Prog Op Res α → Prop
  | pure (x : α) : Until q R (.pure x)
  | op {o : Op} {k : Res o → Prog Op Res α} (ho : q o) (hk : ∀ r, Until q R (k r)) :
    Until q R (.op o k)
  | last {p : Prog Op Res α} (h : R p) : Until q R p

theorem Only.toUntil {p : Prog Op Res β} (h : p.Only q) : p.Until q R := by
  induction p with
  | pure x => exact .pure x
  | op o k ih => exact .op h.1 fun r => ih r (h.2 r)

theorem Only.then {p : Prog Op Res α} {f : α → Prog Op Res β} (h : p.Only q)
    (hf : ∀ a, (f a).Until q R) : (p >>= f).Until q R := by
  induction p with
  | pure a => exact hf a
  | op o k ih => exact .op h.1 fun r => ih r (h.2 r)

/-- The same, of programs that throw. -/
theorem Only.tryThen {R : Prog Op Res (Except ε β) → Prop} {p : ExceptT ε (Prog Op Res) α}
    {f : α → ExceptT ε (Prog Op Res) β} (h : p.run.Only q) (hf : ∀ a, (f a).run.Until q R) :
    (p >>= f).run.Until q R := by
  refine Only.then h fun r => ?_
  rcases r with e | a
  · exact .pure _
  · exact hf a

end Prog

namespace Machine

variable {Op : Type} {Res : Op → Type} {α β ε W A E : Type} (M : Machine Op Res W A E) (i : ℕ)

/-- The program `i` runs alone to its end: what it performs, what it returns, and the world it
    leaves. -/
inductive Trail : Prog Op Res α → W → List ((o : Op) × Res o) → α → W → Prop
  | pure (x : α) (w : W) : Trail (.pure x) w [] x w
  | op {o : Op} {k : Res o → Prog Op Res α} {w w' : W} {t : List ((o : Op) × Res o)} {x : α} (a : A)
    (h : Trail (k (M.exec i a o w).1) (M.exec i a o w).2 t x w') :
    Trail (.op o k) w (⟨o, (M.exec i a o w).1⟩ :: t) x w'

/-- The trail of a program for a list of answers, if it is long enough. -/
def script : List A → Prog Op Res α → W → Option (List ((o : Op) × Res o) × α × W)
  | _, .pure x, w => some ([], x, w)
  | [], .op _ _, _ => none
  | a :: as, .op o k, w =>
    (script as (k (M.exec i a o w).1) (M.exec i a o w).2).map fun (t, rest) =>
      (⟨o, (M.exec i a o w).1⟩ :: t, rest)

variable {M i}

theorem script_trail {as : List A} {p : Prog Op Res α} {w w' : W} {t : List ((o : Op) × Res o)}
    {x : α} (h : M.script i as p w = some (t, x, w')) : M.Trail i p w t x w' := by
  induction as generalizing p w t with
  | nil =>
    rcases p with x | ⟨o, k⟩
    · obtain ⟨rfl, rfl, rfl⟩ := by simpa [script] using h
      exact .pure _ _
    · contradiction
  | cons a as ih =>
    rcases p with x | ⟨o, k⟩
    · obtain ⟨rfl, rfl, rfl⟩ := by simpa [script] using h
      exact .pure _ _
    · obtain ⟨⟨t', x', w''⟩, hrest, heq⟩ := Option.map_eq_some_iff.1 h
      obtain ⟨rfl, rfl, rfl⟩ := by simpa using heq
      exact .op a (ih hrest)

namespace Trail

variable {w w' : W} {t : List ((o : Op) × Res o)}

variable {p : Prog Op Res α}

theorem bind {f : α → Prog Op Res β} {x : β} (h : M.Trail i (p >>= f) w t x w') :
    ∃ t₁ a w₁ t₂, t = t₁ ++ t₂ ∧ M.Trail i p w t₁ a w₁ ∧
      M.Trail i (f a) w₁ t₂ x w' := by
  induction p generalizing w t with
  | pure a => exact ⟨[], a, w, t, rfl, .pure a w, h⟩
  | op o k ih =>
    cases h with
    | op a h =>
      obtain ⟨t₁, b, w₁, t₂, rfl, h₁, h₂⟩ := ih _ h
      exact ⟨_ :: t₁, b, w₁, t₂, rfl, .op a h₁, h₂⟩

/-- A program that throws ends its continuation. -/
theorem tryBind {p : ExceptT ε (Prog Op Res) α} {f : α → ExceptT ε (Prog Op Res) β}
    {x : Except ε β} (h : M.Trail i (p >>= f).run w t x w') :
    (∃ e, x = .error e ∧ M.Trail i p.run w t (.error e) w') ∨
      ∃ t₁ a w₁ t₂, t = t₁ ++ t₂ ∧ M.Trail i p.run w t₁ (.ok a) w₁ ∧
        M.Trail i (f a).run w₁ t₂ x w' := by
  obtain ⟨t₁, r, w₁, t₂, rfl, h₁, h₂⟩ := bind h
  rcases r with e | a
  · cases h₂ with
    | pure =>
      refine .inl ⟨e, rfl, ?_⟩
      rwa [List.append_nil]
  · exact .inr ⟨t₁, a, w₁, t₂, rfl, h₁, h₂⟩

/-- A program that returns does not reach its handler. -/
theorem tryCatch {p : ExceptT ε (Prog Op Res) α} {f : ε → ExceptT ε (Prog Op Res) α}
    {x : Except ε α} (h : M.Trail i (tryCatch p f).run w t x w') :
    (∃ a, x = .ok a ∧ M.Trail i p.run w t (.ok a) w') ∨
      ∃ t₁ e w₁ t₂, t = t₁ ++ t₂ ∧ M.Trail i p.run w t₁ (.error e) w₁ ∧
        M.Trail i (f e).run w₁ t₂ x w' := by
  obtain ⟨t₁, r, w₁, t₂, rfl, h₁, h₂⟩ := bind h
  rcases r with e | a
  · exact .inr ⟨t₁, e, w₁, t₂, rfl, h₁, h₂⟩
  · cases h₂ with
    | pure =>
      refine .inl ⟨a, rfl, ?_⟩
      rwa [List.append_nil]

variable {x : α} {q : Op → Prop}

/-- What a program performs is what it can perform. -/
theorem all (h : M.Trail i p w t x w') (hp : p.Only q) :
    ∀ e ∈ t, q e.1 := by
  induction h with
  | pure x w => exact nofun
  | op a h ih =>
    rintro e he
    rcases List.mem_cons.1 he with rfl | he
    · exact hp.1
    · exact ih (hp.2 _) e he

/-- What no operation of the program changes. -/
theorem keeps {P : W → Prop} (hP : ∀ a o w, q o → P w → P (M.exec i a o w).2)
    (h : M.Trail i p w t x w') (hp : p.Only q) (hw : P w) : P w' := by
  induction h with
  | pure x w => exact hw
  | op a h ih => exact ih (hp.2 _) (hP a _ _ hp.1 hw)

/-- The last part of the program, if it is reached. -/
theorem split {R : Prog Op Res α → Prop} (h : M.Trail i p w t x w') (hp : p.Until q R) :
    (∀ e ∈ t, q e.1) ∨
      ∃ t₁ p' w₁ t₂, t = t₁ ++ t₂ ∧ (∀ e ∈ t₁, q e.1) ∧ R p' ∧ M.Trail i p' w₁ t₂ x w' := by
  induction hp generalizing w t with
  | pure x =>
    cases h with
    | pure => exact .inl nofun
  | op ho hk ih =>
    cases h with
    | op a h =>
      rcases ih _ h with hall | ⟨t₁, p', w₁, t₂, rfl, hall, hp', h'⟩
      · refine .inl fun e he => ?_
        rcases List.mem_cons.1 he with rfl | he
        · exact ho
        · exact hall e he
      · refine .inr ⟨_ :: t₁, p', w₁, t₂, rfl, fun e he => ?_, hp', h'⟩
        rcases List.mem_cons.1 he with rfl | he
        · exact ho
        · exact hall e he
  | last hp => exact .inr ⟨[], _, w, t, rfl, nofun, hp, h⟩

end Trail

end Machine

end Gnldev
