import Mathlib.Data.List.Nodup

/-!
# Insertion-ordered maps

A map that remembers the order in which its keys came: a new key goes to the end, and
one that is written again stays where it is (`put`). What is read (`get`) is that of a
map (`get_put_self`, `get_put_of_ne`); what the order adds is that the entries, of
pairwise different keys, can be gone through (`mem_entries_iff`).

A part of a map, under other names for its keys, is a map again (`restrict`). What is put
is put there, or does not show (`restrict_put_of_some`, `restrict_put_of_none`).
-/

open List

namespace Gnldev

/-- Going through a list, if what some of its elements do does not show. -/
theorem foldl_filter {E S T : Type} {q : E → Bool} {step : S → E → S} (π : S → T)
    (hcongr : ∀ s s' e, π s = π s' → π (step s e) = π (step s' e))
    (hskip : ∀ s e, ¬q e → π (step s e) = π s) (l : List E) (s : S) :
    π (l.foldl step s) = π ((l.filter q).foldl step s) := by
  have hstart (l : List E) (s s' : S) (h : π s = π s') :
      π (l.foldl step s) = π (l.foldl step s') := by
    induction l generalizing s s' with
    | nil => exact h
    | cons e l ih => exact ih _ _ (hcongr s s' e h)
  induction l generalizing s with
  | nil => rfl
  | cons e l ih =>
    rw [foldl_cons, ih, filter_cons]
    split
    · rfl
    · next he => exact hstart _ _ _ (hskip s e he)

/-- A map with the order of its keys. -/
structure OrderedMap (K V : Type) where
  entries : List (K × V)
  nodup : (entries.map Prod.fst).Nodup

namespace OrderedMap

variable {K V : Type} [DecidableEq K]

/-- The entries with a value under a key. -/
def putEntry (k : K) (v : V) : List (K × V) → List (K × V)
  | [] => [(k, v)]
  | (k', v') :: l => if k' = k then (k, v) :: l else (k', v') :: putEntry k v l

theorem keys_putEntry (k : K) (v : V) (l : List (K × V)) :
    (putEntry k v l).map Prod.fst =
      if k ∈ l.map Prod.fst then l.map Prod.fst else l.map Prod.fst ++ [k] := by
  induction l with
  | nil => rfl
  | cons e l ih =>
    obtain ⟨k', v'⟩ := e
    by_cases hk : k' = k
    · simp [putEntry, hk]
    · have hk' : k ≠ k' := fun h => hk h.symm
      by_cases hmem : k ∈ l.map Prod.fst
      · rw [if_pos hmem] at ih
        simp [putEntry, hk, ih, mem_cons_of_mem _ hmem]
      · rw [if_neg hmem] at ih
        rw [if_neg (by simpa [hk'] using hmem)]
        simp [putEntry, hk, ih]

def empty : OrderedMap K V := ⟨[], nodup_nil⟩

/-- The map with a value under a key. -/
def put (m : OrderedMap K V) (k : K) (v : V) : OrderedMap K V where
  entries := putEntry k v m.entries
  nodup := by
    rw [keys_putEntry]
    split
    · exact m.nodup
    · next h =>
      refine nodup_append.2 ⟨m.nodup, nodup_singleton k, fun a ha b hb => ?_⟩
      rw [mem_singleton.1 hb]
      exact fun he => h (he ▸ ha)

/-- The value under a key. -/
def get (m : OrderedMap K V) (k : K) : Option V := m.entries.lookup k

theorem lookup_cons_self (k : K) (v : V) (l : List (K × V)) :
    ((k, v) :: l).lookup k = some v := by
  rw [lookup_cons, beq_self_eq_true]

variable {k k' : K}

theorem lookup_cons_of_ne (h : k' ≠ k) (v : V) (l : List (K × V)) :
    ((k, v) :: l).lookup k' = l.lookup k' := by
  rw [lookup_cons, beq_eq_false_iff_ne.2 h]

theorem lookup_putEntry_self (k : K) (v : V) (l : List (K × V)) :
    (putEntry k v l).lookup k = some v := by
  induction l with
  | nil => exact lookup_cons_self k v []
  | cons e l ih =>
    obtain ⟨k', v'⟩ := e
    by_cases hk : k' = k
    · rw [putEntry, if_pos hk, lookup_cons_self]
    · rw [putEntry, if_neg hk, lookup_cons_of_ne (Ne.symm hk), ih]

theorem lookup_putEntry_of_ne (h : k' ≠ k) (v : V) (l : List (K × V)) :
    (putEntry k v l).lookup k' = l.lookup k' := by
  induction l with
  | nil => exact lookup_cons_of_ne h v []
  | cons e l ih =>
    obtain ⟨j, w⟩ := e
    by_cases hk : j = k
    · subst hk
      rw [putEntry, if_pos rfl, lookup_cons_of_ne h, lookup_cons_of_ne h]
    · rw [putEntry, if_neg hk, lookup_cons, lookup_cons, ih]

@[simp] theorem get_put_self (m : OrderedMap K V) (k : K) (v : V) : (m.put k v).get k = some v :=
  lookup_putEntry_self k v m.entries

theorem get_put_of_ne (m : OrderedMap K V) (h : k' ≠ k) (v : V) :
    (m.put k v).get k' = m.get k' :=
  lookup_putEntry_of_ne h v m.entries

/-- What is kept of the entries does not change with a key that is not kept. -/
theorem filterMap_entries_put {W : Type} {f : K × V → Option W} (m : OrderedMap K V)
    (hf : ∀ v, f (k, v) = none) (v : V) :
    (m.put k v).entries.filterMap f = m.entries.filterMap f := by
  suffices ∀ l, (putEntry k v l).filterMap f = l.filterMap f from this m.entries
  intro l
  induction l with
  | nil => rw [putEntry, filterMap_cons_none (hf v)]
  | cons e l ih =>
    obtain ⟨j, w⟩ := e
    by_cases hk : j = k
    · subst hk
      rw [putEntry, if_pos rfl, filterMap_cons_none (hf v), filterMap_cons_none (hf w)]
    · rw [putEntry, if_neg hk, filterMap_cons, filterMap_cons, ih]

variable {v : V}

theorem lookup_eq_some_iff {l : List (K × V)} (hl : (l.map Prod.fst).Nodup) :
    l.lookup k = some v ↔ (k, v) ∈ l := by
  induction l with
  | nil => simp
  | cons e l ih =>
    obtain ⟨k', v'⟩ := e
    obtain ⟨hnew, hl⟩ := nodup_cons.1 hl
    by_cases hk : k = k'
    · subst hk
      rw [lookup_cons_self, mem_cons, Prod.mk.injEq]
      refine ⟨fun h => .inl ⟨rfl, (Option.some.inj h).symm⟩, ?_⟩
      rintro (⟨-, rfl⟩ | h)
      · rfl
      · exact absurd (mem_map_of_mem h) hnew
    · rw [lookup_cons_of_ne hk, ih hl, mem_cons, Prod.mk.injEq]
      exact ⟨.inr, fun h => h.resolve_left fun h => hk h.1⟩

variable {m : OrderedMap K V}

/-- The entries are the values under the keys. -/
theorem mem_entries_iff :
    (k, v) ∈ m.entries ↔ m.get k = some v :=
  (lookup_eq_some_iff m.nodup).symm

/-- What holds of the entries, and of the new one. -/
theorem forall_put {Q : K × V → Prop} (h : ∀ e ∈ m.entries, Q e) (hv : Q (k, v)) :
    ∀ e ∈ (m.put k v).entries, Q e := by
  rintro ⟨k', v'⟩ he
  have hget := mem_entries_iff.1 he
  by_cases hk : k' = k
  · subst hk
    rw [get_put_self] at hget
    obtain rfl := Option.some.inj hget
    exact hv
  · rw [get_put_of_ne _ hk] at hget
    exact h _ (mem_entries_iff.2 hget)

omit [DecidableEq K] in
theorem ext {n : OrderedMap K V} (h : m.entries = n.entries) : m = n := by
  obtain ⟨l, hl⟩ := m
  obtain rfl : l = n.entries := h
  rfl

/-- The entries with the keys that are kept. -/
def filterKeys (m : OrderedMap K V) (q : K → Bool) : OrderedMap K V where
  entries := m.entries.filter fun e => q e.1
  nodup := m.nodup.sublist (filter_sublist.map Prod.fst)

/-- The entries that are kept. -/
def filterEntries (m : OrderedMap K V) (q : K × V → Bool) : OrderedMap K V where
  entries := m.entries.filter q
  nodup := m.nodup.sublist (filter_sublist.map Prod.fst)

variable {q : K × V → Bool}

theorem get_filterEntries_eq_some :
    (m.filterEntries q).get k = some v ↔ m.get k = some v ∧ q (k, v) := by
  rw [← mem_entries_iff, ← mem_entries_iff]
  exact mem_filter

omit [DecidableEq K] in
theorem filterEntries_eq_self (h : ∀ e ∈ m.entries, q e) :
    m.filterEntries q = m :=
  ext (filter_eq_self.2 h)

omit [DecidableEq K] in
/-- An entry is picked by its key as by itself. -/
theorem mem_keys_filter_iff {e : K × V} (he : e ∈ m.entries) :
    e.1 ∈ (m.entries.filter q).map Prod.fst ↔ q e := by
  refine ⟨fun h => ?_, fun h => mem_map_of_mem (mem_filter.2 ⟨he, h⟩)⟩
  obtain ⟨e', hmem, hkey⟩ := mem_map.1 h
  rw [mem_filter] at hmem
  rw [← inj_on_of_nodup_map m.nodup hmem.1 he hkey]
  exact hmem.2

/-! ## Counting -/

/-- How many entries are counted after a value is put under a key. -/
theorem countP_put (q : K × V → Bool) (m : OrderedMap K V) (k : K) (v : V) :
    (m.put k v).entries.countP q + (if (m.get k).any fun v => q (k, v) then 1 else 0) =
      m.entries.countP q + if q (k, v) then 1 else 0 := by
  suffices ∀ l, (putEntry k v l).countP q + (if (l.lookup k).any fun v => q (k, v) then 1 else 0) =
        l.countP q + if q (k, v) then 1 else 0 from this m.entries
  intro l
  induction l with
  | nil => rw [putEntry, countP_cons, lookup_nil, Option.any_none, if_neg Bool.false_ne_true,
      Nat.add_zero]
  | cons e l ih =>
    obtain ⟨k', v'⟩ := e
    rw [putEntry]
    split
    · next h =>
      subst h
      rw [lookup_cons_self, countP_cons, countP_cons, Option.any_some]
      omega
    · next h =>
      rw [lookup_cons_of_ne (Ne.symm h), countP_cons, countP_cons]
      omega

omit [DecidableEq K] in
/-- Entries that are not counted may go. -/
theorem countP_filterKeys {q' : K → Bool} (h : ∀ e ∈ m.entries, q e → q' e.1) :
    (m.filterKeys q').entries.countP q = m.entries.countP q := by
  change (m.entries.filter fun e => q' e.1).countP q = _
  rw [countP_filter]
  refine countP_congr fun e he => ?_
  rw [Bool.and_eq_true, and_iff_left_of_imp (h e he)]

/-- Two maps with the same under each key have the same entries. -/
theorem perm_of_get {W X : Type} {n : OrderedMap K W} {f : K → V → X} {g : K → W → X}
    (h : ∀ k, (m.get k).map (f k) = (n.get k).map (g k)) :
    (m.entries.map fun e => f e.1 e.2).Perm (n.entries.map fun e => g e.1 e.2) := by
  have hpairs : (m.entries.map fun e => (e.1, f e.1 e.2)).Perm
      (n.entries.map fun e => (e.1, g e.1 e.2)) := by
    have hnodup {V : Type} (m : OrderedMap K V) (f : K → V → X) :
        (m.entries.map fun e => (e.1, f e.1 e.2)).Nodup := by
      refine List.Nodup.of_map Prod.fst ?_
      rw [map_map]
      exact m.nodup
    refine (perm_ext_iff_of_nodup (hnodup m f) (hnodup n g)).2 ?_
    rintro ⟨k, x⟩
    have hmem {V : Type} (m : OrderedMap K V) (f : K → V → X) :
        (k, x) ∈ (m.entries.map fun e => (e.1, f e.1 e.2)) ↔ (m.get k).map (f k) = some x := by
      rw [mem_map, Option.map_eq_some_iff]
      constructor
      · rintro ⟨⟨k', v⟩, he, heq⟩
        obtain ⟨rfl, rfl⟩ := Prod.mk.inj heq
        exact ⟨v, mem_entries_iff.1 he, rfl⟩
      · rintro ⟨v, hget, rfl⟩
        exact ⟨(k, v), mem_entries_iff.2 hget, rfl⟩
    rw [hmem m f, hmem n g, h k]
  have hsnd := hpairs.map Prod.snd
  rwa [map_map, map_map] at hsnd

/-! ## Other values -/

/-- The map with a function on its values. -/
def mapValues {W : Type} (m : OrderedMap K V) (f : V → W) : OrderedMap K W where
  entries := m.entries.map fun e => (e.1, f e.2)
  nodup := by
    rw [map_map]
    exact m.nodup

section MapValues

variable {W : Type} (m : OrderedMap K V) (f : V → W)

theorem get_mapValues (k : K) : (m.mapValues f).get k = (m.get k).map f := by
  suffices ∀ l : List (K × V), (l.map fun e => (e.1, f e.2)).lookup k = (l.lookup k).map f from
    this m.entries
  intro l
  induction l with
  | nil => rfl
  | cons e l ih =>
    obtain ⟨k', v⟩ := e
    rw [map_cons]
    by_cases h : k = k'
    · subst h
      rw [lookup_cons_self, lookup_cons_self, Option.map_some]
    · rw [lookup_cons_of_ne h, lookup_cons_of_ne h, ih]

theorem mapValues_put (k : K) (v : V) :
    (m.put k v).mapValues f = (m.mapValues f).put k (f v) := by
  refine ext ?_
  suffices ∀ l : List (K × V), (putEntry k v l).map (fun e => (e.1, f e.2)) =
      putEntry k (f v) (l.map fun e => (e.1, f e.2)) from this m.entries
  intro l
  induction l with
  | nil => rfl
  | cons e l ih =>
    obtain ⟨k', v'⟩ := e
    rw [putEntry, map_cons, putEntry]
    split
    · rfl
    · rw [map_cons, ih]

omit [DecidableEq K] in
theorem mapValues_filterKeys (q : K → Bool) :
    (m.filterKeys q).mapValues f = (m.mapValues f).filterKeys q := by
  refine ext ?_
  change (m.entries.filter _).map _ = (m.entries.map _).filter _
  rw [filter_map]
  rfl

omit [DecidableEq K] in
variable {m f} in
theorem mapValues_filterEntries {q : K × V → Bool} {q' : K × W → Bool}
    (h : ∀ e ∈ m.entries, q' (e.1, f e.2) = q e) :
    (m.filterEntries q).mapValues f = (m.mapValues f).filterEntries q' := by
  refine ext ?_
  change (m.entries.filter _).map _ = (m.entries.map _).filter _
  rw [filter_map]
  exact congrArg _ (filter_congr fun e he => (h e he).symm)

end MapValues

/-! ## A part, under other names -/

section Restrict

variable {L : Type} {f : K → Option L}

/-- No two keys have the same name. -/
def Naming (f : K → Option L) : Prop := ∀ a b c, c ∈ f a → c ∈ f b → a = b

/-- The entries whose keys have a name. -/
def pick (f : K → Option L) (l : List (K × V)) : List (L × V) :=
  l.filterMap fun e => (f e.1).map (·, e.2)

variable {k : K} {k' : L}

omit [DecidableEq K] in
theorem pick_cons_some (h : f k = some k') (v : V) (l : List (K × V)) :
    pick f ((k, v) :: l) = (k', v) :: pick f l :=
  filterMap_cons_some (by rw [h, Option.map_some])

omit [DecidableEq K] in
theorem pick_cons_none (h : f k = none) (v : V) (l : List (K × V)) :
    pick f ((k, v) :: l) = pick f l :=
  filterMap_cons_none (by rw [h, Option.map_none])

omit [DecidableEq K] in
theorem keys_pick (f : K → Option L) (l : List (K × V)) :
    (pick f l).map Prod.fst = (l.map Prod.fst).filterMap f := by
  rw [pick, map_filterMap, filterMap_map]
  congr 1
  funext e
  rw [Option.map_map, Function.comp_apply]
  exact Option.map_id'

omit [DecidableEq K] in
/-- Going through the entries, if only those with a name count. -/
theorem foldl_pick {S T : Type} {step : S → K × V → S} {step' : T → L × V → T} (π : S → T)
    {l : List (K × V)} (hsome : ∀ s k k' v, (k, v) ∈ l → f k = some k' →
      π (step s (k, v)) = step' (π s) (k', v))
    (hnone : ∀ s k v, (k, v) ∈ l → f k = none → π (step s (k, v)) = π s) (s : S) :
    π (l.foldl step s) = (pick f l).foldl step' (π s) := by
  induction l generalizing s with
  | nil => rfl
  | cons e l ih =>
    obtain ⟨k, v⟩ := e
    have hrest := ih (fun s k k' v h => hsome s k k' v (.tail _ h))
      (fun s k v h => hnone s k v (.tail _ h)) (step s (k, v))
    rw [foldl_cons, hrest]
    rcases hk : f k with _ | k'
    · rw [hnone s k v (.head _) hk, pick_cons_none hk]
    · rw [hsome s k k' v (.head _) hk, pick_cons_some hk, foldl_cons]

/-- The part of a map whose keys have a name. -/
def restrict (m : OrderedMap K V) (f : K → Option L) (hf : Naming f) : OrderedMap L V where
  entries := pick f m.entries
  nodup := by
    rw [keys_pick]
    exact m.nodup.filterMap hf

theorem pick_putEntry_of_none (h : f k = none) (v : V) (l : List (K × V)) :
    pick f (putEntry k v l) = pick f l := by
  induction l with
  | nil => exact pick_cons_none h v []
  | cons e l ih =>
    obtain ⟨j, w⟩ := e
    by_cases hk : j = k
    · subst hk
      rw [putEntry, if_pos rfl, pick_cons_none h, pick_cons_none h]
    · rw [putEntry, if_neg hk]
      rcases hj : f j with _ | j'
      · rw [pick_cons_none hj, pick_cons_none hj, ih]
      · rw [pick_cons_some hj, pick_cons_some hj, ih]

theorem restrict_put_of_none (hf : Naming f) (m : OrderedMap K V) (h : f k = none) (v : V) :
    (m.put k v).restrict f hf = m.restrict f hf :=
  ext (pick_putEntry_of_none h v m.entries)

variable [DecidableEq L]

theorem pick_putEntry_of_some (hf : Naming f) (h : f k = some k') (v : V) (l : List (K × V)) :
    pick f (putEntry k v l) = putEntry k' v (pick f l) := by
  induction l with
  | nil => exact pick_cons_some h v []
  | cons e l ih =>
    obtain ⟨j, w⟩ := e
    by_cases hk : j = k
    · subst hk
      rw [putEntry, if_pos rfl, pick_cons_some h, pick_cons_some h, putEntry, if_pos rfl]
    · rw [putEntry, if_neg hk]
      rcases hj : f j with _ | j'
      · rw [pick_cons_none hj, pick_cons_none hj, ih]
      · have hne : j' ≠ k' := fun he => hk (hf j k k' (he ▸ hj) h)
        rw [pick_cons_some hj, pick_cons_some hj, putEntry, if_neg hne, ih]

theorem lookup_pick (hf : Naming f) (h : f k = some k') (l : List (K × V)) :
    (pick f l).lookup k' = l.lookup k := by
  induction l with
  | nil => rfl
  | cons e l ih =>
    obtain ⟨j, w⟩ := e
    by_cases hk : k = j
    · subst hk
      rw [pick_cons_some h, lookup_cons_self, lookup_cons_self]
    · rw [lookup_cons_of_ne hk]
      rcases hj : f j with _ | j'
      · rw [pick_cons_none hj, ih]
      · have hne : k' ≠ j' := fun he => hk (hf k j k' h (he ▸ hj))
        rw [pick_cons_some hj, lookup_cons_of_ne hne, ih]

theorem restrict_put_of_some (hf : Naming f) (m : OrderedMap K V) (h : f k = some k') (v : V) :
    (m.put k v).restrict f hf = (m.restrict f hf).put k' v :=
  ext (pick_putEntry_of_some hf h v m.entries)

theorem get_restrict (hf : Naming f) (m : OrderedMap K V) (h : f k = some k') :
    (m.restrict f hf).get k' = m.get k :=
  lookup_pick hf h m.entries

omit [DecidableEq K] [DecidableEq L] in
/-- Keys are kept or not, by their names. -/
theorem restrict_filterKeys (hf : Naming f) (m : OrderedMap K V) {q : K → Bool} {q' : L → Bool}
    (h : ∀ k k', f k = some k' → q k = q' k') :
    (m.filterKeys q).restrict f hf = (m.restrict f hf).filterKeys q' := by
  refine ext ?_
  change pick f (m.entries.filter fun e => q e.1) = (pick f m.entries).filter fun e => q' e.1
  rw [pick, pick, filterMap_filter, filter_filterMap]
  congr 1
  funext e
  rcases he : f e.1 with _ | k'
  · rw [Option.map_none, Option.filter_none, ite_self]
  · rw [Option.map_some, h _ _ he, Option.filter_some]

end Restrict

/-! ## A part, under the same names -/

section Filter

variable {q : K → Bool} {k : K}

omit [DecidableEq K] in
theorem naming_guard (q : K → Bool) : Naming (Option.guard q) := by
  intro a b c ha hb
  obtain ⟨rfl, -⟩ := Option.guard_eq_some_iff.1 ha
  obtain ⟨rfl, -⟩ := Option.guard_eq_some_iff.1 hb
  rfl

omit [DecidableEq K] in
theorem filterKeys_eq_restrict (m : OrderedMap K V) (q : K → Bool) :
    m.filterKeys q = m.restrict (Option.guard q) (naming_guard q) := by
  refine ext ?_
  change m.entries.filter (fun e => q e.1) = pick (Option.guard q) m.entries
  rw [← filterMap_eq_filter, pick]
  congr 1
  funext e
  by_cases he : q e.1
  · rw [Option.guard_pos he, Option.map_some]
    exact Option.guard_eq_some_iff.2 ⟨rfl, he⟩
  · have hnone : Option.guard q e.1 = none := Option.guard_eq_none_iff.2 (Bool.of_not_eq_true he)
    rw [hnone, Option.map_none]
    exact Option.guard_eq_none_iff.2 (Bool.of_not_eq_true he)

theorem filterKeys_put_of_pos (m : OrderedMap K V) (hk : q k) (v : V) :
    (m.put k v).filterKeys q = (m.filterKeys q).put k v := by
  rw [filterKeys_eq_restrict, filterKeys_eq_restrict]
  exact restrict_put_of_some _ m (Option.guard_eq_some_iff.2 ⟨rfl, hk⟩) v

theorem filterKeys_put_of_neg (m : OrderedMap K V) (hk : ¬q k) (v : V) :
    (m.put k v).filterKeys q = m.filterKeys q := by
  rw [filterKeys_eq_restrict, filterKeys_eq_restrict]
  exact restrict_put_of_none _ m (Option.guard_eq_none_iff.2 (Bool.of_not_eq_true hk)) v

theorem get_filterKeys (m : OrderedMap K V) (hk : q k) : (m.filterKeys q).get k = m.get k := by
  rw [filterKeys_eq_restrict]
  exact get_restrict _ m (Option.guard_eq_some_iff.2 ⟨rfl, hk⟩)

theorem get_filterKeys_of_neg (m : OrderedMap K V) (hk : ¬q k) : (m.filterKeys q).get k = none := by
  rw [Option.eq_none_iff_forall_ne_some]
  intro v hv
  exact hk (mem_filter.1 (mem_entries_iff.2 hv)).2

end Filter

/-! ## New names -/

section Rekey

variable {K V : Type} [DecidableEq K]

variable {f : K → Option K}

section Free

variable {m : OrderedMap K V} (hf : Naming f)
  (hfree : ∀ k k', f k = some k' → k' ∉ m.entries.map Prod.fst)

include hf hfree

end Free

end Rekey

end OrderedMap

end Gnldev
