import Mathlib.Data.List.Basic

/-!
# Generators

A generator yields values until it returns or throws. It may keep a state, which is not lost when
it throws. One generator *encodes* another one if it yields, in its state, what the values of the
other one are converted to, and ends as the other one does. There is one rule for each way to build
a generator, so that two texts of one shape are compared along their text (`Encodes.bind`,
`Encodes.tryCatch`, `encodes_forM`).
-/

open List

namespace Gnldev

/-- A generator of values of `Y`, with a state of `σ`. -/
def Gen (σ Y ε α : Type) : Type := σ → List Y × σ × Except ε α

namespace Gen

variable {σ X Y ε α β : Type}

protected def bind (p : Gen σ Y ε α) (f : α → Gen σ Y ε β) : Gen σ Y ε β := fun s =>
  match p s with
  | (ys, s', .ok a) => (ys ++ (f a s').1, (f a s').2)
  | (ys, s', .error e) => (ys, s', .error e)

instance : Monad (Gen σ Y ε) where
  pure a := fun s => ([], s, .ok a)
  bind := Gen.bind

protected def tryCatch (p : Gen σ Y ε α) (h : ε → Gen σ Y ε α) : Gen σ Y ε α := fun s =>
  match p s with
  | (ys, s', .ok a) => (ys, s', .ok a)
  | (ys, s', .error e) => (ys ++ (h e s').1, (h e s').2)

instance : MonadExcept ε (Gen σ Y ε) where
  throw e := fun s => ([], s, .error e)
  tryCatch := Gen.tryCatch

instance : MonadLift (Except ε) (Gen σ Y ε) where
  monadLift r := fun s => ([], s, r)

def yield (y : Y) : Gen σ Y ε Unit := fun s => ([y], s, .ok ())

/-- Throw what there is. -/
def rethrow : Option ε → Gen σ Y ε Unit
  | some e => throw e
  | none => pure ()

/-- Yield what a value is converted to. -/
def convert (f : X → σ → Except ε (List Y × σ)) (x : X) : Gen σ Y ε Unit := fun s =>
  match f x s with
  | .ok (ys, s') => (ys, s', .ok ())
  | .error e => ([], s, .error e)

section Run

variable {p : Gen σ Y ε α} {f : α → Gen σ Y ε β} {h : ε → Gen σ Y ε α} {s s' : σ} {ys : List Y}

theorem bind_of_ok {a : α} (hp : p s = (ys, s', .ok a)) :
    (p >>= f) s = (ys ++ (f a s').1, (f a s').2) := by
  change Gen.bind p f s = _
  rw [Gen.bind, hp]

theorem bind_of_error {e : ε} (hp : p s = (ys, s', .error e)) :
    (p >>= f) s = (ys, s', .error e) := by
  change Gen.bind p f s = _
  rw [Gen.bind, hp]

theorem tryCatch_of_ok {a : α} (hp : p s = (ys, s', .ok a)) :
    (tryCatch p h) s = (ys, s', .ok a) := by
  change Gen.tryCatch p h s = _
  rw [Gen.tryCatch, hp]

theorem tryCatch_of_error {e : ε} (hp : p s = (ys, s', .error e)) :
    (tryCatch p h) s = (ys ++ (h e s').1, (h e s').2) := by
  change Gen.tryCatch p h s = _
  rw [Gen.tryCatch, hp]

theorem pure_bind (a : α) (f : α → Gen σ Y ε β) : (pure a >>= f) = f a := rfl

theorem bind_assoc {γ : Type} (p : Gen σ Y ε α) (f : α → Gen σ Y ε β) (g : β → Gen σ Y ε γ) :
    (p >>= f) >>= g = p >>= fun a => f a >>= g := by
  funext s
  rcases hp : p s with ⟨ys, s', e | a⟩
  · rw [bind_of_error hp, bind_of_error (bind_of_error hp)]
  · rcases hf : f a s' with ⟨ys', s'', e | b⟩
    · rw [bind_of_ok hp, bind_of_error hf, bind_of_error (by rw [bind_of_ok hp, hf])]
    · rw [bind_of_ok hp, bind_of_ok hf, bind_of_ok (by rw [bind_of_ok hp, hf]), append_assoc]

theorem lift_ok_bind (a : α) (f : α → Gen σ Y ε β) :
    ((liftM (Except.ok a : Except ε α) : Gen σ Y ε α) >>= f) = f a := by
  funext s
  have hlift : (liftM (Except.ok a : Except ε α) : Gen σ Y ε α) s = ([], s, .ok a) := rfl
  rw [bind_of_ok hlift]
  rfl

theorem lift_error_bind (e : ε) (f : α → Gen σ Y ε β) :
    ((liftM (Except.error e : Except ε α) : Gen σ Y ε α) >>= f) = throw e := by
  funext s
  have hlift : (liftM (Except.error e : Except ε α) : Gen σ Y ε α) s = ([], s, .error e) := rfl
  rw [bind_of_error hlift]
  rfl

end Run

/-! ## Endings -/

/-- There is one value of `T`, and it is the last one. -/
def EndsOnce (T : Y → Prop) (ys : List Y) : Prop :=
  ∃ init last, ys = init ++ [last] ∧ T last ∧ ∀ y ∈ init, ¬T y

theorem EndsOnce.append {T : Y → Prop} {xs ys : List Y} (hxs : ∀ x ∈ xs, ¬T x)
    (h : EndsOnce T ys) : EndsOnce T (xs ++ ys) := by
  obtain ⟨init, last, rfl, hlast, hinit⟩ := h
  refine ⟨xs ++ init, last, (append_assoc ..).symm, hlast, fun y hy => ?_⟩
  exact (mem_append.1 hy).elim (hxs y) (hinit y)

/-- What is not last is not of `T`. -/
theorem EndsOnce.not_mem {T : Y → Prop} {xs ys : List Y} (h : EndsOnce T (xs ++ ys))
    (hys : ys ≠ []) : ∀ x ∈ xs, ¬T x := by
  obtain ⟨init, last, heq, -, hinit⟩ := h
  obtain ⟨ys, y, rfl⟩ := (eq_nil_or_concat ys).resolve_left hys
  rw [concat_eq_append, ← append_assoc] at heq
  obtain ⟨rfl, -⟩ := append_inj' heq rfl
  exact fun x hx => hinit x (mem_append_left ys hx)

theorem endsOnce_singleton {T : Y → Prop} {y : Y} (h : T y) : EndsOnce T [y] :=
  ⟨[], y, rfl, h, nofun⟩

/-! ## Encoding -/

/-- What values are converted to, one after the other. -/
def encode (f : X → σ → Except ε (List Y × σ)) : List X → σ → Except ε (List Y × σ)
  | [], s => .ok ([], s)
  | x :: xs, s => do
    let (ys, s') ← f x s
    let (ys', s'') ← encode f xs s'
    return (ys ++ ys', s'')

variable {f : X → σ → Except ε (List Y × σ)}

theorem encode_append_ok {xs xs' : List X} {s s' : σ} {ys : List Y}
    (h : encode f (xs ++ xs') s = .ok (ys, s')) :
    ∃ ys₁ s₁ ys₂, encode f xs s = .ok (ys₁, s₁) ∧ encode f xs' s₁ = .ok (ys₂, s') ∧
      ys = ys₁ ++ ys₂ := by
  induction xs generalizing s ys with
  | nil => exact ⟨[], s, ys, rfl, h, rfl⟩
  | cons x xs ih =>
    rw [cons_append, encode] at h
    rcases hx : f x s with e | ⟨ys₀, s₀⟩
    · rw [hx] at h
      contradiction
    · rw [hx] at h
      rcases hxs : encode f (xs ++ xs') s₀ with e | ⟨ys₁, s₁⟩
      · simp only [bind, Except.bind, hxs] at h
        contradiction
      · simp only [bind, Except.bind, hxs, pure, Except.pure, Except.ok.injEq, Prod.mk.injEq] at h
        obtain ⟨rfl, rfl⟩ := h
        obtain ⟨ys₁, s₂, ys₂, h₁, h₂, rfl⟩ := ih hxs
        refine ⟨ys₀ ++ ys₁, s₂, ys₂, ?_, h₂, (append_assoc ..).symm⟩
        simp only [encode, hx, h₁, bind, Except.bind, pure, Except.pure]

/-- One value is converted alone. -/
theorem encode_singleton {x : X} {s s' : σ} {ys : List Y}
    (h : encode f [x] s = .ok (ys, s')) : f x s = .ok (ys, s') := by
  rcases hx : f x s with e | ⟨ys₀, s₀⟩
  · rw [encode, hx] at h
    contradiction
  · rw [encode, hx] at h
    simp only [encode, bind, Except.bind, pure, Except.pure, append_nil] at h
    exact h

/-- Values are converted if each one is, in any state. -/
theorem encode_isOk_iff {C : X → Prop} (hC : ∀ x s, (∃ r, f x s = .ok r) ↔ C x) {xs : List X}
    {s : σ} : (∃ r, encode f xs s = .ok r) ↔ ∀ x ∈ xs, C x := by
  induction xs generalizing s with
  | nil => simp [encode]
  | cons x xs ih =>
    rw [forall_mem_cons, ← hC x s]
    constructor
    · rintro ⟨⟨ys, s'⟩, h⟩
      obtain ⟨ys₁, s₁, ys₂, h₁, h₂, -⟩ := @encode_append_ok _ _ _ _ _ [x] xs _ _ _ h
      refine ⟨?_, ih.1 ⟨_, h₂⟩⟩
      rcases hx : f x s with e | r
      · simp only [encode, hx, bind, Except.bind] at h₁
        contradiction
      · exact ⟨r, rfl⟩
    · rintro ⟨⟨⟨ys, s'⟩, hx⟩, hxs⟩
      obtain ⟨⟨ys', s''⟩, h⟩ := (ih (s := s')).2 hxs
      exact ⟨(ys ++ ys', s''), by simp only [encode, hx, h, bind, Except.bind, pure, Except.pure]⟩

section Endings

variable {T : X → Prop} {U : Y → Prop} {xs : List X} {ys : List Y} {s s' : σ}

/-- What is not of `T` is converted to nothing of `U`. -/
theorem not_of_encode
    (hnot : ∀ x s ys s', ¬T x → f x s = .ok (ys, s') → ∀ y ∈ ys, ¬U y) (hxs : ∀ x ∈ xs, ¬T x)
    (h : encode f xs s = .ok (ys, s')) : ∀ y ∈ ys, ¬U y := by
  induction xs generalizing s ys with
  | nil =>
    obtain ⟨rfl, -⟩ := Prod.mk.inj (Except.ok.inj h)
    exact nofun
  | cons x xs ih =>
    obtain ⟨ys₁, s₁, ys₂, h₁, h₂, rfl⟩ := @encode_append_ok _ _ _ _ _ [x] _ _ _ _ h
    intro y hy
    rcases mem_append.1 hy with hy | hy
    · exact hnot x s ys₁ s₁ (hxs x (.head _)) (encode_singleton h₁) y hy
    · exact ih (fun x hx => hxs x (.tail _ hx)) h₂ y hy

/-- Values that end once are converted to such. -/
theorem EndsOnce.encode
    (hof : ∀ x s ys s', T x → f x s = .ok (ys, s') → EndsOnce U ys)
    (hnot : ∀ x s ys s', ¬T x → f x s = .ok (ys, s') → ∀ y ∈ ys, ¬U y) (hxs : EndsOnce T xs)
    (h : encode f xs s = .ok (ys, s')) : EndsOnce U ys := by
  obtain ⟨init, last, rfl, hlast, hinit⟩ := hxs
  obtain ⟨ys₁, s₁, ys₂, h₁, h₂, rfl⟩ := encode_append_ok h
  exact (hof last s₁ ys₂ s' hlast (encode_singleton h₂)).append (not_of_encode hnot hinit h₁)

end Endings

/-- The second generator yields what the values of the first one are converted to. -/
def Encodes (f : X → σ → Except ε (List Y × σ)) (p : Gen Unit X ε α) (q : Gen σ Y ε α) : Prop :=
  ∀ s ys s', encode f (p ()).1 s = .ok (ys, s') → q s = (ys, s', (p ()).2.2)

theorem encodes_pure (a : α) : Encodes f (pure a) (pure a) := by
  rintro s ys s' h
  obtain ⟨rfl, rfl⟩ := Prod.mk.inj (Except.ok.inj h)
  rfl

theorem encodes_throw (e : ε) : Encodes f (throw e : Gen Unit X ε α) (throw e) := by
  rintro s ys s' h
  obtain ⟨rfl, rfl⟩ := Prod.mk.inj (Except.ok.inj h)
  rfl

theorem encodes_rethrow (e : Option ε) : Encodes f (rethrow e) (rethrow e) := by
  cases e with
  | none => exact encodes_pure ()
  | some e => exact encodes_throw e

theorem encodes_lift (r : Except ε α) :
    Encodes f (liftM r : Gen Unit X ε α) (liftM r : Gen σ Y ε α) := by
  rintro s ys s' h
  obtain ⟨rfl, rfl⟩ := Prod.mk.inj (Except.ok.inj h)
  rfl

theorem encodes_yield (x : X) : Encodes f (yield x) (convert f x) := by
  rintro s ys s' h
  change (do let (ys, s') ← f x s; let (ys', s'') ← encode f [] s'; return (ys ++ ys', s'')) = _ at h
  rcases hx : f x s with e | ⟨ys₀, s₀⟩
  · rw [hx] at h
    contradiction
  · rw [hx] at h
    simp only [encode, bind, Except.bind, pure, Except.pure, Except.ok.injEq, Prod.mk.injEq,
      append_nil] at h
    obtain ⟨rfl, rfl⟩ := h
    rw [convert, hx]
    rfl

theorem Encodes.bind {p : Gen Unit X ε α} {q : Gen σ Y ε α} {g : α → Gen Unit X ε β}
    {k : α → Gen σ Y ε β} (h : Encodes f p q) (hg : ∀ a, Encodes f (g a) (k a)) :
    Encodes f (p >>= g) (q >>= k) := by
  rintro s ys s' henc
  rcases hp : p () with ⟨xs, u, e | a⟩
  · rw [bind_of_error hp] at henc ⊢
    have hq := h s ys s'
    rw [hp] at hq
    rw [bind_of_error (hq henc)]
  · rw [bind_of_ok hp] at henc ⊢
    obtain ⟨ys₁, s₁, ys₂, h₁, h₂, rfl⟩ := encode_append_ok henc
    have hq := h s ys₁ s₁
    rw [hp] at hq
    rw [bind_of_ok (hq h₁), hg a s₁ ys₂ s' h₂]

theorem Encodes.tryCatch {p : Gen Unit X ε α} {q : Gen σ Y ε α} {g : ε → Gen Unit X ε α}
    {k : ε → Gen σ Y ε α} (h : Encodes f p q) (hg : ∀ e, Encodes f (g e) (k e)) :
    Encodes f (tryCatch p g) (tryCatch q k) := by
  rintro s ys s' henc
  rcases hp : p () with ⟨xs, u, e | a⟩
  · rw [tryCatch_of_error hp] at henc ⊢
    obtain ⟨ys₁, s₁, ys₂, h₁, h₂, rfl⟩ := encode_append_ok henc
    have hq := h s ys₁ s₁
    rw [hp] at hq
    rw [tryCatch_of_error (hq h₁), hg e s₁ ys₂ s' h₂]
  · rw [tryCatch_of_ok hp] at henc ⊢
    have hq := h s ys s'
    rw [hp] at hq
    rw [tryCatch_of_ok (hq henc)]

/-- Of a loop. -/
theorem encodes_forM {γ : Type} {l : List γ} {p : γ → Gen Unit X ε PUnit} {q : γ → Gen σ Y ε PUnit}
    (h : ∀ c, Encodes f (p c) (q c)) : Encodes f (l.forM p) (l.forM q) := by
  induction l with
  | nil => exact encodes_pure _
  | cons c l ih => exact (h c).bind fun _ => ih

end Gen

end Gnldev
