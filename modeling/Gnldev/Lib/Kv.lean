import Mathlib.Data.Nat.Notation
import Mathlib.Logic.Function.Basic

/-!
# Key-value stores with conditional writes

A store of values under keys, whose four operations are each atomic: `get`,
`put`, `putIfAbsent` (write if the key is absent) and `putIfMatch` (replace the
value if it is the expected one). None of them deletes; an operator can (`delete`).

The store keeps, as a history no operation reads, the writes that took effect,
the latest first (`Kv.log`): by whom, over which value, and when. Statements
about who wrote last, or what was ever written, are about this history; that the
store is what its history says (`Kv.Linked`) is kept by every operation.
-/

namespace Gnldev

variable {K V : Type}

/-- A write that took effect. -/
structure Write (K V : Type) where
  /-- The program that made it. -/
  tid : ℕ
  key : K
  /-- The value it replaced. -/
  old : Option V
  new : V
  /-- The clock when it was made. -/
  time : Int
  deriving DecidableEq

/-- A store: its values, and the writes that led to them. -/
structure Kv (K V : Type) where
  val : K → Option V
  log : List (Write K V)

/-- The operations. -/
inductive KvOp (K V : Type) where
  | get (k : K)
  | put (k : K) (v : V)
  | putIfAbsent (k : K) (v : V)
  | putIfMatch (k : K) (expected v : V)

/-- Their answers. -/
abbrev KvOp.Res : KvOp K V → Type
  | get _ => Option V
  | put _ _ => Unit
  | putIfAbsent _ _ => Bool
  | putIfMatch _ _ _ => Bool

namespace Kv

variable [DecidableEq K]

/-- The store without any key. -/
def empty : Kv K V := ⟨fun _ => none, []⟩

/-- The store after a write by the program `i` at the time `t`. -/
def set (s : Kv K V) (i : ℕ) (t : Int) (k : K) (v : V) : Kv K V :=
  ⟨Function.update s.val k (some v), ⟨i, k, s.val k, v, t⟩ :: s.log⟩

/-- The store without the keys a predicate picks. -/
def delete (s : Kv K V) (gone : K → Bool) : Kv K V :=
  { s with val := fun k => if gone k then none else s.val k }

omit [DecidableEq K] in
theorem isSome_of_delete {s : Kv K V} {gone : K → Bool} {k : K}
    (h : ((s.delete gone).val k).isSome) : (s.val k).isSome := by
  simp only [delete] at h
  split at h
  · cases h
  · exact h

@[simp] theorem set_log (s : Kv K V) (i : ℕ) (t : Int) (k : K) (v : V) :
    (s.set i t k v).log = ⟨i, k, s.val k, v, t⟩ :: s.log := rfl

@[simp] theorem set_val_self (s : Kv K V) (i : ℕ) (t : Int) (k : K) (v : V) :
    (s.set i t k v).val k = some v := by simp [set]

theorem set_val_of_ne (s : Kv K V) (i : ℕ) (t : Int) {k k' : K} (v : V) (h : k' ≠ k) :
    (s.set i t k v).val k' = s.val k' := by simp [set, h]

variable [DecidableEq V]

/-- An operation of the program `i` at the time `t`. -/
def exec (i : ℕ) (t : Int) : (o : KvOp K V) → Kv K V → o.Res × Kv K V
  | .get k, s => (s.val k, s)
  | .put k v, s => ((), s.set i t k v)
  | .putIfAbsent k v, s => if s.val k = none then (true, s.set i t k v) else (false, s)
  | .putIfMatch k e v, s => if s.val k = some e then (true, s.set i t k v) else (false, s)

/-! ## Stores and their histories -/

/-- The value the writes leave under a key. -/
def valueOf : List (Write K V) → K → Option V
  | [], _ => none
  | wr :: log, k => if wr.key = k then some wr.new else valueOf log k

/-- Every write replaced what the writes before it had left. -/
def Coherent : List (Write K V) → Prop
  | [] => True
  | wr :: log => wr.old = valueOf log wr.key ∧ Coherent log

/-- The values are those the history leaves, and the history is coherent. -/
structure Linked (s : Kv K V) : Prop where
  val : s.val = valueOf s.log
  coherent : Coherent s.log

omit [DecidableEq V]

theorem mem_log_of_valueOf {log : List (Write K V)} {k : K} {v : V} (h : valueOf log k = some v) :
    ∃ wr ∈ log, wr.key = k ∧ wr.new = v := by
  induction log with
  | nil => contradiction
  | cons wr log ih =>
    rw [valueOf] at h
    split at h
    · next hkey => exact ⟨wr, .head _, hkey, Option.some.inj h⟩
    · obtain ⟨wr', hmem, hwr⟩ := ih h
      exact ⟨wr', .tail _ hmem, hwr⟩

theorem linked_empty : (empty : Kv K V).Linked := ⟨rfl, trivial⟩

theorem Linked.set {s : Kv K V} (h : s.Linked) (i : ℕ) (t : Int) (k : K) (v : V) :
    (s.set i t k v).Linked := by
  refine ⟨funext fun k' => ?_, congrFun h.val k, h.coherent⟩
  by_cases hk : k' = k
  · subst hk
    rw [set_val_self, set_log, valueOf, if_pos rfl]
  · rw [set_val_of_ne _ _ _ _ hk, set_log, valueOf, if_neg (Ne.symm hk), h.val]

end Kv

end Gnldev
