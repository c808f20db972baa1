import Mathlib.Logic.Function.Basic
import Mathlib.Data.List.Basic

/-!
# Programs of atomic operations

An asynchronous function is a *program*: at every `await` of a shared resource
it performs one atomic operation and continues with the answer (`Prog`). Between
two operations it only computes, so that nothing another program does can come
in between; around an operation everything can.

Programs run together on a *machine* (`Machine`), which says how the shared
world answers an operation and what the world can do by itself (let time pass).
A configuration (`Conf`) is the world and the rest of every program, numbered by
`ℕ`: a program that is never run has not been called yet, one that is not run
any more has crashed. A run is the list of its moves (`Move`), so that a
statement about every list of moves is about every number of callers, every
interleaving of their operations, and every crash point.

* `Machine.play`: the configuration a list of moves leads to;
* `Machine.solo`: a program that runs alone;
* `Machine.Meets`: every operation of a run meets a condition on the world
  before it;
* `Machine.Obeys`: the same, of a condition that sees also the programs;
* `Machine.play_induction`: the invariant rule.
-/

namespace Gnldev

open Function

/-- A program: it returns a value, or performs an operation and continues with
    the answer. -/
inductive Prog (Op : Type) (Res : Op → Type) (α : Type) where
  | pure (a : α)
  | op (o : Op) (k : Res o → Prog Op Res α)

namespace Prog

variable {Op : Type} {Res : Op → Type} {α β γ : Type}

/-- Sequencing. -/
@[simp] def bind : Prog Op Res α → (α → Prog Op Res β) → Prog Op Res β
  | pure a, f => f a
  | op o k, f => op o fun r => (k r).bind f

instance : Monad (Prog Op Res) where
  pure := pure
  bind := bind

/-- The program performing one operation. -/
def perform (o : Op) : Prog Op Res (Res o) := op o pure

/-- The program with every operation replaced by one of another signature. -/
def lift {Op' : Type} {Res' : Op' → Type} (f : ∀ o, Prog Op' Res' (Res o)) :
    Prog Op Res α → Prog Op' Res' α
  | pure a => pure a
  | op o k => f o >>= fun r => (k r).lift f

/-- The program performs only such operations, whatever the answers. -/
def Only (q : Op → Prop) : Prog Op Res α → Prop
  | pure _ => True
  | op o k => q o ∧ ∀ r, (k r).Only q

variable {p : Prog Op Res α}

theorem Only.bind {q : Op → Prop} {f : α → Prog Op Res β} (h : p.Only q) (hf : ∀ a, (f a).Only q) :
    (p >>= f).Only q := by
  induction p with
  | pure a => exact hf a
  | op o k ih => exact ⟨h.1, fun r => ih r (h.2 r)⟩

/-- The same, of programs that throw. -/
theorem Only.tryBind {ε : Type} {q : Op → Prop} {p : ExceptT ε (Prog Op Res) α}
    {f : α → ExceptT ε (Prog Op Res) β} (h : p.run.Only q) (hf : ∀ a, (f a).run.Only q) :
    (p >>= f).run.Only q := by
  refine Only.bind h fun r => ?_
  cases r with
  | ok a => exact hf a
  | error e => trivial

/-- The program performs at most `n` operations, whatever the answers. -/
def Within : Prog Op Res α → ℕ → Prop
  | pure _, _ => True
  | op _ _, 0 => False
  | op _ k, n + 1 => ∀ r, (k r).Within n

variable {m n : ℕ}

theorem Within.mono (h : p.Within m) (hmn : m ≤ n) : p.Within n := by
  induction p generalizing m n with
  | pure a => trivial
  | op o k ih =>
    cases m with
    | zero => exact h.elim
    | succ m =>
      cases n with
      | zero => omega
      | succ n => exact fun r => ih r (h r) (Nat.le_of_succ_le_succ hmn)

theorem Within.bind {f : α → Prog Op Res β} (h : p.Within m) (hf : ∀ a, (f a).Within n) :
    (p >>= f).Within (m + n) := by
  induction p generalizing m with
  | pure a => exact (hf a).mono (Nat.le_add_left n m)
  | op o k ih =>
    cases m with
    | zero => exact h.elim
    | succ m =>
      rw [Nat.succ_add]
      exact fun r => ih r (h r)

/-- The same, of programs that throw. -/
theorem Within.tryBind {ε : Type} {p : ExceptT ε (Prog Op Res) α}
    {f : α → ExceptT ε (Prog Op Res) β} (h : p.run.Within m) (hf : ∀ a, (f a).run.Within n) :
    (p >>= f).run.Within (m + n) := by
  refine Within.bind h fun r => ?_
  cases r with
  | ok a => exact hf a
  | error e => trivial

end Prog

/-- A machine: how the world answers an operation of the program `i`, given what
    the code outside the model answers (`A`), and how it moves by itself. -/
structure Machine (Op : Type) (Res : Op → Type) (W A E : Type) where
  exec : ℕ → A → (o : Op) → W → Res o × W
  env : E → W → W

/-- A configuration: the world, and what every program still has to do. -/
structure Conf (Op : Type) (Res : Op → Type) (α W : Type) where
  world : W
  procs : ℕ → Prog Op Res α

/-- The configuration with the list of what the programs have performed, nothing so far. -/
def Conf.logged {Op : Type} {Res : Op → Type} {α W : Type} (c : Conf Op Res α W) :
    Conf Op Res α (W × List (ℕ × Σ o, Res o)) := ⟨(c.world, []), c.procs⟩

/-- A move of a run: the program `i` performs its next operation, or the world
    moves by itself. -/
inductive Move (A E : Type) where
  | run (i : ℕ) (a : A)
  | env (e : E)

/-- The move is one of the program `i`. -/
def Move.isOf {A E : Type} (i : ℕ) : Move A E → Bool
  | .run j _ => j = i
  | .env _ => false

namespace Machine

variable {Op : Type} {Res : Op → Type} {α W A E : Type} (M : Machine Op Res W A E)

/-- The configuration after a move (a program that has returned stays as it is). -/
def move (c : Conf Op Res α W) : Move A E → Conf Op Res α W
  | .run i a =>
    match c.procs i with
    | .pure _ => c
    | .op o k =>
      let (r, w) := M.exec i a o c.world
      ⟨w, update c.procs i (k r)⟩
  | .env e => ⟨M.env e c.world, c.procs⟩

/-- The configuration after a list of moves. -/
def play (c : Conf Op Res α W) : List (Move A E) → Conf Op Res α W
  | [] => c
  | m :: ms => play (M.move c m) ms

/-- What the program `i` returns when it runs alone, the code outside the model
    always answering `a`, and the world it leaves. -/
def solo (i : ℕ) (a : A) : Prog Op Res α → W → α × W
  | .pure x, w => (x, w)
  | .op o k, w => solo i a (k (M.exec i a o w).1) (M.exec i a o w).2

theorem solo_bind {β : Type} (i : ℕ) (a : A) (p : Prog Op Res α) (f : α → Prog Op Res β) (w : W) :
    M.solo i a (p >>= f) w = M.solo i a (f (M.solo i a p w).1) (M.solo i a p w).2 := by
  induction p generalizing w with
  | pure x => rfl
  | op o k ih => exact ih _ _

/-- The machine whose world keeps also what the programs have performed, with the answers. -/
def logged : Machine Op Res (W × List (ℕ × Σ o, Res o)) A E where
  exec i a o x :=
    let (r, w) := M.exec i a o x.1
    (r, w, x.2 ++ [(i, ⟨o, r⟩)])
  env e x := (M.env e x.1, x.2)

/-- The operation a move performs meets the condition `ok`. -/
def Permits (ok : W → ℕ → (o : Op) → Res o → Prop) (c : Conf Op Res α W) : Move A E → Prop
  | .run i a =>
    match c.procs i with
    | .pure _ => True
    | .op o _ => ok c.world i o (M.exec i a o c.world).1
  | .env _ => True

/-- Every operation of the run meets the condition `ok`, on the world before it,
    the program, the operation and its answer. -/
def Meets (ok : W → ℕ → (o : Op) → Res o → Prop) (c : Conf Op Res α W) :
    List (Move A E) → Prop
  | [] => True
  | m :: ms => M.Permits ok c m ∧ Meets ok (M.move c m) ms

instance (ok : W → ℕ → (o : Op) → Res o → Prop) [∀ w i o r, Decidable (ok w i o r)]
    (c : Conf Op Res α W) (m : Move A E) : Decidable (M.Permits ok c m) :=
  match m with
  | .run i a =>
    match h : c.procs i with
    | .pure _ => isTrue (by simp [Permits, h])
    | .op o _ => decidable_of_iff (ok c.world i o (M.exec i a o c.world).1) (by simp [Permits, h])
  | .env _ => isTrue trivial

instance decidableMeets (ok : W → ℕ → (o : Op) → Res o → Prop) [∀ w i o r, Decidable (ok w i o r)]
    (c : Conf Op Res α W) : (ms : List (Move A E)) → Decidable (M.Meets ok c ms)
  | [] => isTrue trivial
  | m :: ms => have := decidableMeets ok (M.move c m) ms; inferInstanceAs (Decidable (_ ∧ _))

variable {M}

variable {c : Conf Op Res α W} {i : ℕ}

theorem move_op {o : Op} {k : Res o → Prog Op Res α} (h : c.procs i = .op o k) (a : A) : M.move c
    (.run i a) =
      ⟨(M.exec i a o c.world).2, update c.procs i (k (M.exec i a o c.world).1)⟩ := by
  simp only [move, h]

theorem meets_true (c : Conf Op Res α W) (ms : List (Move A E)) :
    M.Meets (fun _ _ _ _ => True) c ms := by
  induction ms generalizing c with
  | nil => trivial
  | cons m ms ih =>
    refine ⟨?_, ih _⟩
    cases m with
    | run i a => simp only [Permits]; split <;> trivial
    | env e => trivial

variable {ok : W → ℕ → (o : Op) → Res o → Prop} {ms : List (Move A E)}

/-- A condition that does not look at the list of what has been performed. -/
theorem meets_of_logged {log : List (ℕ × Σ o, Res o)}
    (h : M.logged.Meets (fun x => ok x.1) ⟨(c.world, log), c.procs⟩ ms) : M.Meets ok c ms := by
  induction ms generalizing c log with
  | nil => trivial
  | cons m ms ih =>
    obtain ⟨hm, hms⟩ := h
    rcases m with ⟨i, a⟩ | e
    · cases hp : c.procs i with
      | pure x =>
        simp only [Permits, Meets, move, hp] at hms ⊢
        exact ⟨trivial, ih hms⟩
      | op o k =>
        simp only [Permits, Meets, move, hp] at hm hms ⊢
        exact ⟨hm, ih hms⟩
    · exact ⟨trivial, ih hms⟩

theorem meets_take (h : M.Meets ok c ms) (n : ℕ) : M.Meets ok c (ms.take n) := by
  induction ms generalizing c n with
  | nil => simpa using h
  | cons m ms ih =>
    cases n with
    | zero => trivial
    | succ n => exact ⟨h.1, ih h.2 n⟩

theorem play_append (c : Conf Op Res α W) (ms ms' : List (Move A E)) :
    M.play c (ms ++ ms') = M.play (M.play c ms) ms' := by
  induction ms generalizing c with
  | nil => rfl
  | cons m ms ih => exact ih _

theorem meets_append {ms' : List (Move A E)} :
    M.Meets ok c (ms ++ ms') ↔ M.Meets ok c ms ∧ M.Meets ok (M.play c ms) ms' := by
  induction ms generalizing c with
  | nil => exact ⟨fun h => ⟨trivial, h⟩, And.right⟩
  | cons m ms ih =>
    rw [List.cons_append, Meets, Meets, ih, and_assoc]
    rfl

/-- A condition that every move leading to a good world meets, in a run whose
    worlds are all good. -/
theorem meets_of_always (Inv : W → Prop)
    (hok : ∀ (c : Conf Op Res α W) m, Inv (M.move c m).world → M.Permits ok c m)
    (h : ∀ n, Inv (M.play c (ms.take n)).world) :
    M.Meets ok c ms := by
  induction ms generalizing c with
  | nil => trivial
  | cons m ms ih => exact ⟨hok c m (h 1), ih fun n => h (n + 1)⟩

variable (M) in
/-- Every operation of the run meets the condition `ok`, on the configuration before it,
    the program, the operation and its answer. -/
def Obeys (ok : Conf Op Res α W → ℕ → (o : Op) → Res o → Prop) (c : Conf Op Res α W) :
    List (Move A E) → Prop
  | [] => True
  | m :: ms => M.Permits (fun _ => ok c) c m ∧ Obeys ok (M.move c m) ms

instance decidableObeys (ok : Conf Op Res α W → ℕ → (o : Op) → Res o → Prop)
    [∀ c i o r, Decidable (ok c i o r)] (c : Conf Op Res α W) :
    (ms : List (Move A E)) → Decidable (M.Obeys ok c ms)
  | [] => isTrue trivial
  | m :: ms => have := decidableObeys ok (M.move c m) ms; inferInstanceAs (Decidable (_ ∧ _))

theorem Meets.obeys (h : M.Meets ok c ms) : M.Obeys (fun c => ok c.world) c ms := by
  induction ms generalizing c with
  | nil => trivial
  | cons m ms ih =>
    refine ⟨?_, ih h.2⟩
    rcases m with ⟨i, a⟩ | e
    · exact h.1
    · trivial

theorem Obeys.mono {ok ok' : Conf Op Res α W → ℕ → (o : Op) → Res o → Prop} (h : M.Obeys ok c ms)
    (hok : ∀ c i o r, ok c i o r → ok' c i o r) : M.Obeys ok' c ms := by
  induction ms generalizing c with
  | nil => trivial
  | cons m ms ih =>
    refine ⟨?_, ih h.2⟩
    rcases m with ⟨i, a⟩ | e
    · have hm := h.1
      simp only [Permits] at hm ⊢
      split
      · trivial
      · next o k hp =>
        rw [hp] at hm
        exact hok _ _ _ _ hm
    · trivial

theorem obeys_append {ok : Conf Op Res α W → ℕ → (o : Op) → Res o → Prop} {ms' : List (Move A E)} :
    M.Obeys ok c (ms ++ ms') ↔ M.Obeys ok c ms ∧ M.Obeys ok (M.play c ms) ms' := by
  induction ms generalizing c with
  | nil => exact ⟨fun h => ⟨trivial, h⟩, And.right⟩
  | cons m ms ih =>
    rw [List.cons_append, Obeys, Obeys, ih, and_assoc]
    rfl

theorem Obeys.take {ok : Conf Op Res α W → ℕ → (o : Op) → Res o → Prop} (h : M.Obeys ok c ms)
    (n : ℕ) : M.Obeys ok c (ms.take n) := by
  induction ms generalizing c n with
  | nil => simpa using h
  | cons m ms ih =>
    cases n with
    | zero => trivial
    | succ n => exact ⟨h.1, ih h.2 n⟩

variable (M) in
/-- The world moves by itself only where the condition `okE` says. -/
def Heeds (okE : W → E → Prop) (c : Conf Op Res α W) : List (Move A E) → Prop
  | [] => True
  | m :: ms => (∀ e, m = .env e → okE c.world e) ∧ Heeds okE (M.move c m) ms

theorem heeds_true (c : Conf Op Res α W) (ms : List (Move A E)) :
    M.Heeds (fun _ _ => True) c ms := by
  induction ms generalizing c with
  | nil => trivial
  | cons m ms ih => exact ⟨fun _ _ => trivial, ih _⟩

/-- A program that has returned stays so. -/
theorem play_pure {x : α} (h : c.procs i = .pure x) (ms : List (Move A E)) :
    (M.play c ms).procs i = .pure x := by
  induction ms generalizing c with
  | nil => exact h
  | cons m ms ih =>
    refine ih ?_
    rcases m with ⟨j, a⟩ | e
    · simp only [move]
      split
      · exact h
      · next o k hp =>
        have hji : i ≠ j := by
          rintro rfl
          rw [h] at hp
          contradiction
        exact (update_of_ne hji _ _).trans h
    · exact h

variable {n : ℕ}

/-- A program that has made all its moves has returned. -/
theorem play_within (h : (c.procs i).Within n) (hn : n ≤ ms.countP (Move.isOf i)) :
    ∃ x, (M.play c ms).procs i = .pure x := by
  induction ms generalizing c n with
  | nil =>
    obtain rfl : n = 0 := Nat.le_zero.1 hn
    cases hp : c.procs i with
    | pure x => exact ⟨x, hp⟩
    | op o k =>
      rw [hp] at h
      exact h.elim
  | cons m ms ih =>
    cases hp : c.procs i with
    | pure x => exact ⟨x, play_pure hp _⟩
    | op o k =>
      rw [hp] at h
      cases n with
      | zero => exact h.elim
      | succ n =>
        rcases m with ⟨j, a⟩ | e
        · by_cases hj : j = i
          · subst hj
            refine ih (n := n) ?_ ?_
            · rw [move_op hp]
              simpa using h _
            · rw [List.countP_cons_of_pos (by simp [Move.isOf])] at hn
              exact Nat.le_of_succ_le_succ hn
          · refine ih (n := n + 1) ?_ ?_
            · have hsame : (M.move c (.run j a)).procs i = c.procs i := by
                simp only [move]
                split
                · rfl
                · exact update_of_ne (Ne.symm hj) _ _
              rw [hsame, hp]
              exact h
            · rwa [List.countP_cons_of_neg (by simp [Move.isOf, hj])] at hn
        · refine ih (n := n + 1) ?_ ?_
          · change (c.procs i).Within (n + 1)
            rw [hp]
            exact h
          · rwa [List.countP_cons_of_neg (by simp [Move.isOf])] at hn

/-- What only the program `i` can change is as it was, if the program has not moved, and so is what
    it has to do. -/
theorem play_untouched {P : W → Prop} (hop : ∀ j a o w, j ≠ i → P w → P (M.exec j a o w).2)
    (henv : ∀ e w, P w → P (M.env e w)) (hP : P c.world) (h : ∀ m ∈ ms, ¬m.isOf i) :
    (M.play c ms).procs i = c.procs i ∧ P (M.play c ms).world := by
  induction ms generalizing c with
  | nil => exact ⟨rfl, hP⟩
  | cons m ms ih =>
    have hmove : (M.move c m).procs i = c.procs i ∧ P (M.move c m).world := by
      rcases m with ⟨j, a⟩ | e
      · have hji : j ≠ i := by simpa [Move.isOf] using h _ List.mem_cons_self
        simp only [move]
        split
        · exact ⟨rfl, hP⟩
        · exact ⟨update_of_ne hji.symm _ _, hop j a _ _ hji hP⟩
      · exact ⟨rfl, henv e _ hP⟩
    have hrest := ih hmove.2 fun m hm => h m (List.mem_cons_of_mem _ hm)
    exact ⟨hrest.1.trans hmove.1, hrest.2⟩

variable {m : ℕ}

/-- A run up to a move, as the run up to an earlier one and what follows. -/
theorem take_split (hnm : n ≤ m) (ms : List (Move A E)) :
    ms.take m = ms.take n ++ (ms.take m).drop n := by
  conv_lhs => rw [← List.take_append_drop n (ms.take m)]
  rw [List.take_take, Nat.min_eq_left hnm]

theorem play_take (hnm : n ≤ m) (c : Conf Op Res α W) (ms : List (Move A E)) :
    M.play c (ms.take m) = M.play (M.play c (ms.take n)) ((ms.take m).drop n) := by
  conv_lhs => rw [take_split hnm ms]
  exact play_append _ _ _

/-- What has returned early in a run has returned later. -/
theorem play_take_pure (hnm : n ≤ m) {x : α} (h : (M.play c (ms.take n)).procs i = .pure x) :
    (M.play c (ms.take m)).procs i = .pure x := by
  rw [play_take hnm]
  exact play_pure h _

/-- The invariant rule: what holds at first, and is kept by every permitted
    operation and by the world's own moves, holds after every run. -/
theorem obeys_induction {ok : Conf Op Res α W → ℕ → (o : Op) → Res o → Prop}
    (Inv : Conf Op Res α W → Prop)
    (hop : ∀ c i a o k, Inv c → c.procs i = .op o k → ok c i o (M.exec i a o c.world).1 →
      Inv ⟨(M.exec i a o c.world).2, update c.procs i (k (M.exec i a o c.world).1)⟩)
    (henv : ∀ c e, Inv c → Inv ⟨M.env e c.world, c.procs⟩) (hc : Inv c) (hms : M.Obeys ok c ms) :
    Inv (M.play c ms) := by
  induction ms generalizing c with
  | nil => exact hc
  | cons m ms ih =>
    obtain ⟨hm, hms⟩ := hms
    refine ih ?_ hms
    cases m with
    | run i a =>
      simp only [move, Permits] at hm ⊢
      split
      · exact hc
      · next o k hp =>
        rw [hp] at hm
        exact hop c i a o k hc hp hm
    | env e => exact henv c e hc

/-- The invariant rule, for a condition on the world. -/
theorem play_induction (Inv : Conf Op Res α W → Prop)
    (hop : ∀ c i a o k, Inv c → c.procs i = .op o k → ok c.world i o (M.exec i a o c.world).1 →
      Inv ⟨(M.exec i a o c.world).2, update c.procs i (k (M.exec i a o c.world).1)⟩)
    (henv : ∀ c e, Inv c → Inv ⟨M.env e c.world, c.procs⟩) (hc : Inv c) (hms : M.Meets ok c ms) :
    Inv (M.play c ms) := obeys_induction Inv hop henv hc hms.obeys

end Machine

end Gnldev
