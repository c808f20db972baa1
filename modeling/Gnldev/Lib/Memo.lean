import Gnldev.Lib.Prog
import Mathlib.Data.List.Infix

/-!
# Recorded answers

A program that asks a changing world records each answer before it goes on, under a key of its own,
and looks there before it asks (`memo`). It can stop at any operation, and be executed again on the
records that it has left (`Lives`): what has been answered is not asked again.

* `Memoized.again`: a second execution goes the way of the first one, and as far as it likes;
* `Lives.one`: the executions of a life are one execution that nothing stops, as far as each of them
  comes.
-/

open List

namespace Gnldev

variable {K : Type} {Ask Ans : K → Type} {α β : Type}

inductive MemoOp (Ask Ans : K → Type) where
  /-- The record of the key. The question is not sent: it is the one that is asked if there is none.
      -/
  | get (key : K) (q : Ask key)
  | ask (key : K) (q : Ask key)
  | put (key : K) (a : Ans key)

abbrev MemoOp.Res : MemoOp Ask Ans → Type
  | get key _ => Option (Ans key)
  | ask key _ => Ans key
  | put _ _ => Unit

abbrev MemoProg (Ask Ans : K → Type) (α : Type) := Prog (MemoOp Ask Ans) MemoOp.Res α

/-- The recorded answer, or the answer of the world, which is recorded first. -/
def memo (key : K) (q : Ask key) : MemoProg Ask Ans (Ans key) :=
  .op (.get key q) fun
    | some a => .pure a
    | none => .op (.ask key q) fun a => .op (.put key a) fun _ => .pure a

/-- The program goes on with recorded answers only. -/
inductive Memoized : MemoProg Ask Ans α → Prop
  | pure (x : α) : Memoized (.pure x)
  | memo {key : K} {q : Ask key} {k : Ans key → MemoProg Ask Ans α} (h : ∀ a, Memoized (k a)) :
    Memoized (memo key q >>= k)

theorem memo_bind (key : K) (q : Ask key) (k : Ans key → MemoProg Ask Ans α) :
    (memo key q >>= k) = .op (.get key q) fun
      | some a => k a
      | none => .op (.ask key q) fun a => .op (.put key a) fun _ => k a := by
  refine congrArg (Prog.op _) (funext fun r => ?_)
  rcases r with - | a <;> rfl

variable {p : MemoProg Ask Ans α}

theorem Memoized.bind {f : α → MemoProg Ask Ans β} (hp : Memoized p) (hf : ∀ a, Memoized (f a)) :
    Memoized (p >>= f) := by
  induction hp with
  | pure x => exact hf x
  | @memo key q k h ih =>
    have hassoc : (Gnldev.memo key q >>= k) >>= f = Gnldev.memo key q >>= fun a => k a >>= f := by
      rw [memo_bind, memo_bind]
      refine congrArg (Prog.op _) (funext fun r => ?_)
      rcases r with - | a <;> rfl
    rw [hassoc]
    exact .memo ih

/-! ## Executions -/

variable [DecidableEq K]

/-- What is recorded. -/
abbrev Records (Ans : K → Type) := ∀ key, Option (Ans key)

def Records.set (r : Records Ans) (key : K) (a : Ans key) : Records Ans :=
  Function.update r key (some a)

@[simp] theorem Records.set_self (r : Records Ans) (key : K) (a : Ans key) :
    r.set key a key = some a := Function.update_self ..

variable {key key' : K}

theorem Records.set_of_ne (r : Records Ans) (a : Ans key) (h : key' ≠ key) :
    r.set key a key' = r key' := Function.update_of_ne h ..

/-- An execution of the program: the questions it has looked up, what it returns, if it does not stop
    before, and the records it leaves. -/
inductive Executes (Live : ∀ key, Ask key → Ans key → Prop) :
    MemoProg Ask Ans α → Records Ans → List ((key : K) × Ask key) → Option α → Records Ans → Prop
  | returns (x : α) (r : Records Ans) : Executes Live (.pure x) r [] (some x) r
  | stops (p : MemoProg Ask Ans α) (r : Records Ans) : Executes Live p r [] none r
  | get {key : K} {q : Ask key} {k r t x r'} (h : Executes Live (k (r key)) r t x r') :
    Executes Live (.op (.get key q) k) r (⟨key, q⟩ :: t) x r'
  | ask {key : K} {q : Ask key} {k a r t x r'} (ha : Live key q a)
    (h : Executes Live (k a) r t x r') : Executes Live (.op (.ask key q) k) r t x r'
  | put {key : K} {a : Ans key} {k r t x r'} (h : Executes Live (k ()) (r.set key a) t x r') :
    Executes Live (.op (.put key a) k) r t x r'

/-- The question has the answer, which is recorded then. -/
inductive Answers (Live : ∀ key, Ask key → Ans key → Prop) (key : K) (q : Ask key) (a : Ans key)
    (r : Records Ans) : Records Ans → Prop
  | recorded (h : r key = some a) : Answers Live key q a r r
  | asked (h : r key = none) (ha : Live key q a) : Answers Live key q a r (r.set key a)

variable {Live : ∀ key, Ask key → Ans key → Prop} {r r' r₁ : Records Ans}
  {t t' : List ((key : K) × Ask key)}

variable {q : Ask key} {a : Ans key}

theorem Answers.self (h : Answers Live key q a r r') :
    r' key = some a := by
  cases h with
  | recorded h => exact h
  | asked h ha => exact Records.set_self ..

theorem Answers.keeps {a' : Ans key'} (h : Answers Live key q a r r') (hr : r key' = some a') :
    r' key' = some a' := by
  cases h with
  | recorded h => exact hr
  | asked h ha =>
    have hne : key' ≠ key := by
      rintro rfl
      rw [h] at hr
      contradiction
    rwa [Records.set_of_ne _ _ hne]

theorem Answers.of_ne (h : Answers Live key q a r r') (hne : key' ≠ key) : r' key' = r key' := by
  cases h with
  | recorded h => rfl
  | asked h ha => exact Records.set_of_ne _ _ hne

namespace Executes

variable {key : K} {x : Option α}

theorem memo {q : Ask key} {a : Ans key} {k : Ans key → MemoProg Ask Ans α}
    (ha : Answers Live key q a r r₁) (h : Executes Live (k a) r₁ t x r') :
    Executes Live (memo key q >>= k) r (⟨key, q⟩ :: t) x r' := by
  rw [memo_bind]
  refine .get ?_
  cases ha with
  | recorded hr =>
    rw [hr]
    exact h
  | asked hr hlive =>
    rw [hr]
    exact .ask hlive (.put h)

/-- An execution stops before the answer is recorded, or goes on with it. -/
theorem of_memo {q : Ask key} {k : Ans key → MemoProg Ask Ans α}
    (h : Executes Live (Gnldev.memo key q >>= k) r t x r') :
    (x = none ∧ r' = r ∧ (t = [] ∨ t = [⟨key, q⟩])) ∨
      ∃ a r₁ t₁, t = ⟨key, q⟩ :: t₁ ∧ Answers Live key q a r r₁ ∧ Executes Live (k a) r₁ t₁ x r' := by
  rw [memo_bind] at h
  cases h with
  | stops => exact .inl ⟨rfl, rfl, .inl rfl⟩
  | @get _ _ _ _ t₁ _ _ h =>
    rcases hr : r key with - | a
    · rw [hr] at h
      cases h with
      | stops => exact .inl ⟨rfl, rfl, .inr rfl⟩
      | @ask _ _ _ a _ _ _ _ ha h =>
        cases h with
        | stops => exact .inl ⟨rfl, rfl, .inr rfl⟩
        | put h => exact .inr ⟨a, _, t₁, rfl, .asked hr ha, h⟩
    · rw [hr] at h
      exact .inr ⟨a, r, t₁, rfl, .recorded hr, h⟩

/-- An execution stops in the first part, or goes on with what it has returned. -/
theorem bind {p : MemoProg Ask Ans α} {f : α → MemoProg Ask Ans β} {x : Option β}
    (h : Executes Live (p >>= f) r t x r') : (x = none ∧ Executes Live p r t none r') ∨
      ∃ y r₁ t₁ t₂, t = t₁ ++ t₂ ∧ Executes Live p r t₁ (some y) r₁ ∧
        Executes Live (f y) r₁ t₂ x r' := by
  induction p generalizing r t with
  | pure y => exact .inr ⟨y, r, [], t, rfl, .returns y r, h⟩
  | op o k ih =>
    cases h with
    | stops => exact .inl ⟨rfl, .stops ..⟩
    | get h =>
      rcases ih _ h with ⟨hx, h⟩ | ⟨y, r₁, t₁, t₂, rfl, h, hrest⟩
      · exact .inl ⟨hx, .get h⟩
      · exact .inr ⟨y, r₁, _ :: t₁, t₂, rfl, .get h, hrest⟩
    | ask ha h =>
      rcases ih _ h with ⟨hx, h⟩ | ⟨y, r₁, t₁, t₂, rfl, h, hrest⟩
      · exact .inl ⟨hx, .ask ha h⟩
      · exact .inr ⟨y, r₁, t₁, t₂, rfl, .ask ha h, hrest⟩
    | put h =>
      rcases ih _ h with ⟨hx, h⟩ | ⟨y, r₁, t₁, t₂, rfl, h, hrest⟩
      · exact .inl ⟨hx, .put h⟩
      · exact .inr ⟨y, r₁, t₁, t₂, rfl, .put h, hrest⟩

theorem of_pure {y : α} (h : Executes Live (.pure y) r t x r') :
    t = [] ∧ r' = r ∧ (x = none ∨ x = some y) := by
  cases h with
  | returns => exact ⟨rfl, rfl, .inr rfl⟩
  | stops => exact ⟨rfl, rfl, .inl rfl⟩

/-- What is recorded stays. -/
theorem keeps {p : MemoProg Ask Ans α} (hp : Memoized p) (h : Executes Live p r t x r')
    {a : Ans key} (hr : r key = some a) :
    r' key = some a := by
  induction hp generalizing r t with
  | pure y =>
    obtain ⟨-, rfl, -⟩ := h.of_pure
    exact hr
  | memo _ ih =>
    rcases h.of_memo with ⟨-, rfl, -⟩ | ⟨b, r₁, t₁, -, hb, h⟩
    · exact hr
    · exact ih b h (hb.keeps hr)

end Executes

/-- After an execution, another one either goes on where the first one has stopped, and is one with
    it, or does not come further, and returns the same if it returns. -/
theorem Memoized.again (hp : Memoized p) {x x' : Option α} (h : Executes Live p r t x r₁)
    (h' : Executes Live p r₁ t' x' r') :
    (x = none ∧ Executes Live p r t' x' r' ∧ t <+: t') ∨
      (r' = r₁ ∧ t' <+: t ∧ (x' = none ∨ (x' = x ∧ t' = t))) := by
  induction hp generalizing r t t' with
  | pure y =>
    obtain ⟨rfl, rfl, hx⟩ := h.of_pure
    obtain ⟨rfl, rfl, hx'⟩ := h'.of_pure
    rcases hx with rfl | rfl
    · exact .inl ⟨rfl, h', prefix_refl _⟩
    · exact .inr ⟨rfl, prefix_refl _, hx'.imp id fun hx' => ⟨hx', rfl⟩⟩
  | @memo key q k hk ih =>
    rcases h.of_memo with ⟨rfl, rfl, ht⟩ | ⟨a, r₂, t₁, rfl, ha, hrest⟩
    · -- The first one has recorded nothing: the second one begins anew.
      rcases ht with rfl | rfl
      · exact .inl ⟨rfl, h', nil_prefix⟩
      · rcases h'.of_memo with ⟨rfl, rfl, rfl | rfl⟩ | ⟨a, r₂, t₁, rfl, ha, hrest⟩
        · exact .inr ⟨rfl, nil_prefix, .inl rfl⟩
        · exact .inl ⟨rfl, h', prefix_refl _⟩
        · exact .inl ⟨rfl, h', prefix_append [_] t₁⟩
    · have hkept : r₁ key = some a := hrest.keeps (hk a) ha.self
      rcases h'.of_memo with ⟨rfl, rfl, rfl | rfl⟩ | ⟨a', r₃, t₂, rfl, ha', hrest'⟩
      · exact .inr ⟨rfl, nil_prefix, .inl rfl⟩
      · exact .inr ⟨rfl, prefix_append [_] t₁, .inl rfl⟩
      · -- The second one finds the answer of the first one.
        cases ha' with
        | asked hnone _ =>
          rw [hkept] at hnone
          contradiction
        | recorded hsome =>
          obtain rfl : a = a' := Option.some_inj.1 (hkept.symm.trans hsome)
          rcases ih a hrest hrest' with ⟨rfl, hone, hpre⟩ | ⟨rfl, hpre, hx'⟩
          · exact .inl ⟨rfl, .memo ha hone, cons_prefix_cons.2 ⟨rfl, hpre⟩⟩
          · refine .inr ⟨rfl, cons_prefix_cons.2 ⟨rfl, hpre⟩, ?_⟩
            exact hx'.imp id fun ⟨hx', ht⟩ => ⟨hx', congrArg (List.cons _) ht⟩

/-! ## Lives -/

/-- What is seen of an execution. -/
structure Execution (Ask : K → Type) (α : Type) where
  asked : List ((key : K) × Ask key)
  result : Option α

/-- Executions one after the other, from no records on. The last one is the first of the list. -/
inductive Lives (Live : ∀ key, Ask key → Ans key → Prop) (p : MemoProg Ask Ans α) :
    List (Execution Ask α) → Records Ans → Prop
  | nil : Lives Live p [] fun _ => none
  | next {es r e r'} (hes : Lives Live p es r) (he : Executes Live p r e.asked e.result r') :
    Lives Live p (e :: es) r'

/-- The executions of a life are one. -/
theorem Lives.one (hp : Memoized p) {es : List (Execution Ask α)} (h : Lives Live p es r) :
    ∃ whole : Execution Ask α,
      Executes Live p (fun _ => none) whole.asked whole.result r ∧
        ∀ e ∈ es, e.asked <+: whole.asked ∧ (e.result = none ∨ e = whole) := by
  induction h with
  | nil => exact ⟨⟨[], none⟩, .stops .., nofun⟩
  | @next es r e r' hes he ih =>
    obtain ⟨whole, hwhole, hall⟩ := ih
    rcases hp.again hwhole he with ⟨hnone, hone, hpre⟩ | ⟨rfl, hpre, hsame⟩
    · refine ⟨e, hone, forall_mem_cons.2 ⟨⟨prefix_refl _, .inr rfl⟩, fun e' he' => ?_⟩⟩
      refine ⟨(hall e' he').1.trans hpre, .inl ?_⟩
      rcases (hall e' he').2 with hstopped | rfl
      · exact hstopped
      · exact hnone
    · refine ⟨whole, hwhole, forall_mem_cons.2 ⟨⟨hpre, hsame.imp id ?_⟩, hall⟩⟩
      rintro ⟨hresult, hasked⟩
      rcases e with ⟨t, x⟩
      rcases whole with ⟨t', x'⟩
      obtain rfl := hresult
      obtain rfl := hasked
      rfl

end Gnldev
