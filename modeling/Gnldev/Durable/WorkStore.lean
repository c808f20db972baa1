import Gnldev.Lib.Kv
import Gnldev.Lib.JsString
import Gnldev.Lib.Prog
import Mathlib.Data.List.Infix
import Mathlib.Data.List.Nodup

/-!
# The work store

The substrate of the queue and of the event bus (`storage.ts`, with the in-memory
store of `in-memory-storage.ts`): append-only logs, listed page by page with
offset cursors, and a key-value store. As with the journal, `putIfMatch` is an
optional member.

* `WorkStore`: the interface, over the monad of the programs using it;
* `WorkState`, `WorkOp.exec`: the store, each of whose operations is atomic;
* `WorkState.Extends`: what every operation does: logs only grow at their end, and
  no key disappears;
* `IdsUnique`: no two records of a log have the same id, whatever is appended;
* `exists_mem_drop_filter`: where a record goes when others are deleted.
-/

open List

namespace Gnldev.Durable

variable {P V : Type}

/-- A record of an append log. -/
structure LogRecord (P : Type) where
  id : JsString
  payload : P
  deriving DecidableEq

/-- A page of a log. A cursor is an offset, which the source writes in decimal. -/
structure Page (P : Type) where
  items : List (LogRecord P)
  nextCursor : Option ℕ

/-- The page of at most `limit` records from the cursor on. -/
def paginate (items : List (LogRecord P)) (cursor : Option ℕ) (limit : ℕ) : Page P :=
  let start := cursor.getD 0
  let next := start + limit
  ⟨(items.drop start).take limit, if next < items.length then some next else none⟩

/-- The work store as a program sees it. -/
structure WorkStore (m : Type → Type) (P V : Type) where
  append : JsString → P → Option JsString → m JsString
  list : JsString → Option ℕ → m (Page P)
  get : JsString → m (Option V)
  put : JsString → V → m Unit
  ackOnce : JsString → m Bool
  putIfMatch : Option (JsString → V → V → m Bool)

section Source

variable {m : Type → Type} [Monad m] (work : WorkStore m P V)

/-- Count the records from the cursor on, reading at most `fuel` pages. -/
def countFrom (ns : JsString) (limit : ℕ) : ℕ → ℕ → Option ℕ → m ℕ
  | 0, count, _ => return count
  | fuel + 1, count, cursor => do
    let page ← work.list ns cursor
    let count := count + page.items.length
    if count ≥ limit then return count
    match page.nextCursor with
    | none => return count
    | some cursor => countFrom ns limit fuel count (some cursor)

/-- Count the records of a log up to `limit`, with an early exit. Every page with
    a next one has a record, so that `limit` pages are enough. -/
def countUpTo (ns : JsString) (limit : ℕ) : m ℕ := countFrom work ns limit (limit + 1) 0 none

end Source

/-! ## The store -/

/-- The operations of a work store. -/
inductive WorkOp (P V : Type) where
  | append (ns : JsString) (payload : P) (id : Option JsString)
  | list (ns : JsString) (cursor : Option ℕ)
  | get (key : JsString)
  | put (key : JsString) (value : V)
  | ackOnce (key : JsString)
  | putIfMatch (key : JsString) (expected value : V)

/-- Their answers. -/
abbrev WorkOp.Res : WorkOp P V → Type
  | append .. => JsString
  | list .. => Page P
  | get _ => Option V
  | put .. => Unit
  | ackOnce _ => Bool
  | putIfMatch .. => Bool

/-- The logs and the keys of a work store. -/
structure WorkState (P V : Type) where
  logs : JsString → List (LogRecord P)
  kv : Kv JsString V

namespace WorkState

/-- Append a record, unless the log has one with its id. -/
def append (s : WorkState P V) (ns : JsString) (rec_ : LogRecord P) : WorkState P V :=
  if (s.logs ns).any (·.id = rec_.id) then s
  else { s with logs := Function.update s.logs ns (s.logs ns ++ [rec_]) }

/-- Delete the records whose id starts with a prefix, in every log. -/
def deleteIdPrefix (s : WorkState P V) (p : JsString) : WorkState P V :=
  { s with logs := fun ns => (s.logs ns).filter fun r => !r.id.startsWith p }

/-- Delete the logs and the keys whose name starts with a prefix. -/
def deletePrefix (s : WorkState P V) (p : JsString) : WorkState P V where
  logs ns := if ns.startsWith p then [] else s.logs ns
  kv := s.kv.delete (·.startsWith p)

/-- Logs only grow at their end, and no key disappears. -/
structure Extends (s s' : WorkState P V) : Prop where
  logs : ∀ ns, s.logs ns <+: s'.logs ns
  keys : ∀ k, (s.kv.val k).isSome → (s'.kv.val k).isSome

theorem Extends.refl (s : WorkState P V) : s.Extends s := ⟨fun _ => prefix_rfl, fun _ h => h⟩

theorem extends_append (s : WorkState P V) (ns : JsString) (rec_ : LogRecord P) :
    s.Extends (s.append ns rec_) := by
  unfold append
  split
  · exact .refl s
  · refine ⟨fun ns' => ?_, fun _ h => h⟩
    by_cases hns : ns' = ns
    · subst hns
      simp
    · simp [hns]

theorem extends_set (s : WorkState P V) (i : ℕ) (t : Int) (k : JsString) (v : V) :
    s.Extends { s with kv := s.kv.set i t k v } := by
  refine ⟨fun _ => prefix_rfl, fun k' h => ?_⟩
  by_cases hk : k' = k
  · subst hk
    simp
  · rwa [Kv.set_val_of_ne _ _ _ _ hk]

end WorkState

section Exec

variable [DecidableEq V] (limit : ℕ) (ack : V)

/-- An operation of the program `i` at the time `t`. Pages have `limit` records,
    `ack` is the value of a marker, and `genId` the id of a record appended without one. -/
def WorkOp.exec (i : ℕ) (t : Int) (genId : JsString) :
    (o : WorkOp P V) → WorkState P V → o.Res × WorkState P V
  | .append ns payload id, s => (id.getD genId, s.append ns ⟨id.getD genId, payload⟩)
  | .list ns cursor, s => (paginate (s.logs ns) cursor limit, s)
  | .get k, s => (s.kv.val k, s)
  | .put k v, s => ((), { s with kv := s.kv.set i t k v })
  | .ackOnce k, s =>
    if s.kv.val k = none then (true, { s with kv := s.kv.set i t k ack }) else (false, s)
  | .putIfMatch k e v, s =>
    if s.kv.val k = some e then (true, { s with kv := s.kv.set i t k v }) else (false, s)

/-- What an operation writes if it takes effect, and where. -/
def WorkOp.writes : WorkOp P V → Option (JsString × V)
  | .put k v => some (k, v)
  | .ackOnce k => some (k, ack)
  | .putIfMatch k _ v => some (k, v)
  | _ => none

variable {limit ack} {i : ℕ} {t : Int} {genId : JsString}

theorem WorkOp.exec_extends (o : WorkOp P V) (s : WorkState P V) :
    s.Extends (o.exec limit ack i t genId s).2 := by
  cases o with
  | append ns payload id => exact s.extends_append _ _
  | list ns cursor => exact .refl s
  | get k => exact .refl s
  | put k v => exact s.extends_set i t k v
  | ackOnce k =>
    simp only [exec]
    split
    · exact s.extends_set i t k ack
    · exact .refl s
  | putIfMatch k e v =>
    simp only [exec]
    split
    · exact s.extends_set i t k v
    · exact .refl s

/-- A key keeps its value, or has the value the operation writes there. -/
theorem WorkOp.exec_val (o : WorkOp P V) (s : WorkState P V) (k : JsString) :
    (o.exec limit ack i t genId s).2.kv.val k = s.kv.val k ∨
      ∃ v, o.writes ack = some (k, v) ∧ (o.exec limit ack i t genId s).2.kv.val k = some v := by
  have hset : ∀ k' v, (s.kv.set i t k' v).val k = s.kv.val k ∨
      ∃ v', some (k', v) = some (k, v') ∧ (s.kv.set i t k' v).val k = some v' := by
    intro k' v
    by_cases hk : k = k'
    · subst hk
      exact .inr ⟨v, rfl, Kv.set_val_self ..⟩
    · exact .inl (Kv.set_val_of_ne _ _ _ _ hk)
  cases o with
  | append ns payload id =>
    left
    simp only [exec, WorkState.append]
    split <;> rfl
  | list ns cursor => exact .inl rfl
  | get k => exact .inl rfl
  | put k' v => exact hset k' v
  | ackOnce k' =>
    simp only [exec]
    split
    · exact hset k' ack
    · exact .inl rfl
  | putIfMatch k' e v =>
    simp only [exec]
    split
    · exact hset k' v
    · exact .inl rfl

end Exec

/-! ## Pages -/

/-- A page with a next one ends where the next one starts. -/
theorem take_nextCursor {items : List (LogRecord P)} {cursor : Option ℕ} {limit next : ℕ}
    (h : (paginate items cursor limit).nextCursor = some next) :
    next = cursor.getD 0 + limit ∧ next ≤ items.length ∧
      items.take next = items.take (cursor.getD 0) ++ (paginate items cursor limit).items := by
  simp only [paginate] at h ⊢
  split at h
  · next hlt =>
    cases h
    exact ⟨rfl, hlt.le, take_add⟩
  · cases h

/-! ## Ids are unique -/

/-- No two records of a log have the same id. -/
def IdsUnique (s : WorkState P V) : Prop :=
  ∀ ns, ((s.logs ns).map (·.id)).Nodup

variable {s : WorkState P V}

theorem IdsUnique.append (h : IdsUnique s) (ns : JsString) (rec_ : LogRecord P) :
    IdsUnique (s.append ns rec_) := by
  intro ns'
  unfold WorkState.append
  split
  · exact h ns'
  · next hnew =>
    by_cases hns : ns' = ns
    · subst hns
      have hnotin : rec_.id ∉ (s.logs ns').map (·.id) := by
        rintro hin
        obtain ⟨r, hr, he⟩ := mem_map.1 hin
        exact hnew (any_eq_true.2 ⟨r, hr, by simpa using he⟩)
      simp only [Function.update_self, map_append, map_cons, map_nil]
      exact (nodup_append.2 ⟨h ns', nodup_singleton _, by
        rintro x hx y hy rfl
        rw [mem_singleton] at hy
        exact hnotin (hy ▸ hx)⟩)
    · simpa only [Function.update_of_ne hns] using h ns'

theorem IdsUnique.exec [DecidableEq V] {limit i : ℕ} {ack : V} {t : Int} {genId : JsString}
    (h : IdsUnique s) (o : WorkOp P V) :
    IdsUnique (o.exec limit ack i t genId s).2 := by
  cases o with
  | append ns payload id => exact h.append ns _
  | list ns cursor => exact h
  | get k => exact h
  | put k v => exact h
  | ackOnce k =>
    simp only [WorkOp.exec]
    split <;> exact h
  | putIfMatch k e v =>
    simp only [WorkOp.exec]
    split <;> exact h

theorem IdsUnique.deleteIdPrefix (h : IdsUnique s) (p : JsString) :
    IdsUnique (s.deleteIdPrefix p) :=
  fun ns => (h ns).sublist (filter_sublist.map _)

theorem IdsUnique.deletePrefix (h : IdsUnique s) (p : JsString) :
    IdsUnique (s.deletePrefix p) := by
  intro ns
  unfold WorkState.deletePrefix
  dsimp only
  split
  · exact nodup_nil
  · exact h ns

/-- Where a record that is kept goes when others are deleted. -/
theorem exists_mem_drop_filter {log : List (LogRecord P)} {p n : ℕ} {rec_ : LogRecord P}
    {gone : LogRecord P → Bool} (huniq : (log.map (·.id)).Nodup) (hrec : log[p]? = some rec_)
    (hkeep : gone rec_ = false) :
    (∃ r ∈ (log.filter fun r => !gone r).drop n, r.id = rec_.id) ↔
      n + (log.take p).countP gone ≤ p := by
  obtain ⟨hp, rfl⟩ := List.getElem?_eq_some_iff.1 hrec
  set before := (log.take p).filter fun r => !gone r with hbefore
  set after := (log.drop (p + 1)).filter fun r => !gone r with hafter
  have hsplit : log = log.take p ++ log[p] :: log.drop (p + 1) := by
    rw [← drop_eq_getElem_cons hp, take_append_drop]
  have hfilter : (log.filter fun r => !gone r) = before ++ log[p] :: after := by
    conv_lhs => rw [hsplit]
    rw [filter_append, filter_cons_of_pos (by rw [hkeep]; rfl)]
  have hlen : before.length + (log.take p).countP gone = p := by
    have hcount := length_eq_countP_add_countP (p := gone) (l := log.take p)
    rw [length_take, Nat.min_eq_left hp.le] at hcount
    rw [hbefore, ← countP_eq_length_filter, Nat.add_comm]
    simpa using hcount.symm
  rw [hfilter]
  constructor
  · rintro ⟨r, hr, he⟩
    by_contra hlt
    -- The record is dropped, and no other has its id.
    have hr' : r ∈ after := by
      rw [drop_append, mem_append, drop_eq_nil_of_le (by omega)] at hr
      obtain ⟨m, hm⟩ : ∃ m, n - before.length = m + 1 := ⟨n - before.length - 1, by omega⟩
      rw [hm, drop_succ_cons] at hr
      exact mem_of_mem_drop (hr.resolve_left not_mem_nil)
    rw [hsplit, map_append, map_cons, nodup_append] at huniq
    refine (nodup_cons.1 huniq.2.1).1 (mem_map.2 ⟨r, ?_, he⟩)
    exact (mem_filter.1 hr').1
  · intro hle
    refine ⟨log[p], ?_, rfl⟩
    rw [drop_append_of_le_length (by omega)]
    exact mem_append_right _ (.head _)

end Gnldev.Durable
