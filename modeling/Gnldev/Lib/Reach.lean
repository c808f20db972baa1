import Mathlib.Algebra.BigOperators.Group.Finset.Piecewise
import Mathlib.Logic.Relation

/-!
# Sums over reachable nodes

A depth-first search that adds up the weights of the nodes it reaches. Only some
nodes *exist*, i.e. have a weight; the search remembers what it has seen, and,
beyond its end, which nodes it has found absent (`Probe`): those are not looked up
again.

If what is remembered to be absent still is, and the nodes that exist are finitely
many, the search ends, and its sum is that of the nodes reachable along existing
ones, each counted once (`search_eq`).
-/

namespace Gnldev

/-- A graph whose nodes may exist or not. -/
structure WeightedGraph (α M : Type) where
  /-- The weight of a node, if it exists. -/
  weight : α → Option M
  next : α → List α

/-- What a search remembers. -/
structure Probe (α : Type) where
  seen : Finset α
  absent : Finset α

namespace WeightedGraph

variable {α M : Type} [DecidableEq α] [AddCommMonoid M] (g : WeightedGraph α M)

/-- The sum over the nodes of a list and what `sub` finds behind them. -/
def searchList (sub : List α → Probe α → Option (M × Probe α)) :
    List α → Probe α → Option (M × Probe α)
  | [], p => some (0, p)
  | a :: rest, p =>
    if a ∈ p.seen ∨ a ∈ p.absent then searchList sub rest p
    else
      match g.weight a with
      | none => searchList sub rest ⟨insert a p.seen, insert a p.absent⟩
      | some m => do
        let (below, p) ← sub (g.next a) ⟨insert a p.seen, p.absent⟩
        let (total, p) ← searchList sub rest p
        return (m + below + total, p)

/-- The search, at most so deep. -/
def search : ℕ → List α → Probe α → Option (M × Probe α)
  | 0 => fun _ _ => none
  | depth + 1 => g.searchList (search depth)

/-- The node `b` exists, and comes after `a`. -/
def Edge (a b : α) : Prop := b ∈ g.next a ∧ (g.weight b).isSome

/-- The node exists, and is in the list or behind a node of the list. -/
def From (roots : List α) (a : α) : Prop :=
  ∃ b ∈ roots, (g.weight b).isSome ∧ Relation.ReflTransGen g.Edge b a

/-- What is remembered to be absent is. -/
def Sound (p : Probe α) : Prop := ∀ a ∈ p.absent, g.weight a = none

/-- The weight of a node that may not exist. -/
def weightD (a : α) : M := (g.weight a).getD 0

variable {g}

/-- What a search from `roots` has done. -/
structure Searched (roots : List α) (p p' : Probe α) (m : M) : Prop where
  seen : p.seen ⊆ p'.seen
  sound : g.Sound p'
  sum : m = ∑ a ∈ p'.seen \ p.seen, g.weightD a
  found : ∀ a ∈ roots, (g.weight a).isSome → a ∈ p'.seen
  closed : ∀ a ∈ p'.seen \ p.seen, (g.weight a).isSome → ∀ b, g.Edge a b → b ∈ p'.seen
  reached : ∀ a ∈ p'.seen \ p.seen, (g.weight a).isSome → g.From roots a

variable {a : α}

omit [DecidableEq α] [AddCommMonoid M] in
theorem From.mono {roots roots' : List α} (h : g.From roots a) (hsub : roots ⊆ roots') :
    g.From roots' a := by
  obtain ⟨b, hb, hw, hr⟩ := h
  exact ⟨b, hsub hb, hw, hr⟩

variable {rest : List α}

omit [DecidableEq α] [AddCommMonoid M] in
/-- What is behind the nodes after `a` is behind `a`. -/
theorem From.cons {b : α} (ha : (g.weight a).isSome) (h : g.From (g.next a) b) :
    g.From (a :: rest) b := by
  obtain ⟨c, hc, hw, hr⟩ := h
  exact ⟨a, .head _, ha, .head ⟨hc, hw⟩ hr⟩

/-- A node that is seen, absent or does not exist is passed by. -/
theorem Searched.skip {p p₁ p' : Probe α} {m : M} (h : Searched (g := g) rest p₁ p' m)
    (hseen : p₁.seen = p.seen ∨ p₁.seen = insert a p.seen ∧ g.weight a = none)
    (ha : (g.weight a).isSome → a ∈ p₁.seen) : Searched (g := g) (a :: rest) p p' m := by
  -- What is new to `p` is new to `p₁`, or `a`, which weighs nothing.
  have hsub : p.seen ⊆ p₁.seen := by
    rcases hseen with h | ⟨h, -⟩ <;> rw [h]
    exact Finset.subset_insert _ _
  have hnew : ∀ b ∈ p'.seen \ p.seen, (g.weight b).isSome → b ∈ p'.seen \ p₁.seen := by
    intro b hb hw
    obtain ⟨hb, hnot⟩ := Finset.mem_sdiff.1 hb
    refine Finset.mem_sdiff.2 ⟨hb, fun hb₁ => ?_⟩
    rcases hseen with h | ⟨h, hnone⟩
    · exact hnot (h ▸ hb₁)
    · rcases Finset.mem_insert.1 (h ▸ hb₁) with rfl | hb₁
      · rw [hnone] at hw
        cases hw
      · exact hnot hb₁
  refine ⟨hsub.trans h.seen, h.sound, ?_, fun b hb hw => ?_, fun b hb hw => h.closed b (hnew b hb hw) hw,
    fun b hb hw => (h.reached b (hnew b hb hw) hw).mono (List.subset_cons_self _ _)⟩
  · rw [h.sum]
    refine Finset.sum_subset (Finset.sdiff_subset_sdiff (Finset.Subset.refl _) hsub) ?_
    intro b hb hnot
    cases hw : g.weight b with
    | none => rw [weightD, hw]; rfl
    | some m => exact absurd (hnew b hb (by rw [hw]; rfl)) hnot
  · rcases List.mem_cons.1 hb with rfl | hb
    · exact h.seen (ha hw)
    · exact h.found b hb hw

/-- A node that exists is followed, and then the rest of the list. -/
theorem Searched.follow {m below total : M} {p p₁ p' : Probe α} (ha : a ∉ p.seen)
    (hm : g.weight a = some m)
    (hsub : Searched (g := g) (g.next a) ⟨insert a p.seen, p.absent⟩ p₁ below)
    (hrest : Searched (g := g) rest p₁ p' total) :
    Searched (g := g) (a :: rest) p p' (m + below + total) := by
  have hsome : (g.weight a).isSome := by rw [hm]; rfl
  have ha₁ : a ∈ p₁.seen := hsub.seen (Finset.mem_insert_self _ _)
  have hseen : p.seen ⊆ p₁.seen := (Finset.subset_insert _ _).trans hsub.seen
  -- What is new is `a`, or was found behind it, or behind the rest.
  have hnew : ∀ b ∈ p'.seen \ p.seen,
      b = a ∨ b ∈ p₁.seen \ insert a p.seen ∨ b ∈ p'.seen \ p₁.seen := by
    intro b hb
    obtain ⟨hb, hnot⟩ := Finset.mem_sdiff.1 hb
    by_cases hba : b = a
    · exact .inl hba
    by_cases hb₁ : b ∈ p₁.seen
    · refine .inr (.inl (Finset.mem_sdiff.2 ⟨hb₁, fun h => ?_⟩))
      exact (Finset.mem_insert.1 h).elim hba hnot
    · exact .inr (.inr (Finset.mem_sdiff.2 ⟨hb, hb₁⟩))
  refine ⟨hseen.trans hrest.seen, hrest.sound, ?_, fun b hb hw => ?_, fun b hb hw => ?_,
    fun b hb hw => ?_⟩
  · have hsplit : p'.seen \ p.seen =
        insert a (p₁.seen \ insert a p.seen) ∪ (p'.seen \ p₁.seen) := by
      ext b
      rw [Finset.mem_union, Finset.mem_insert, or_assoc]
      refine ⟨hnew b, ?_⟩
      rintro (rfl | hb | hb)
      · exact Finset.mem_sdiff.2 ⟨hrest.seen ha₁, ha⟩
      · obtain ⟨hb, hnot⟩ := Finset.mem_sdiff.1 hb
        exact Finset.mem_sdiff.2 ⟨hrest.seen hb, fun h => hnot (Finset.mem_insert_of_mem h)⟩
      · obtain ⟨hb, hnot⟩ := Finset.mem_sdiff.1 hb
        exact Finset.mem_sdiff.2 ⟨hb, fun h => hnot (hseen h)⟩
    have hdisj : Disjoint (insert a (p₁.seen \ insert a p.seen)) (p'.seen \ p₁.seen) := by
      rw [Finset.disjoint_left]
      rintro b hb hb'
      refine (Finset.mem_sdiff.1 hb').2 ?_
      rcases Finset.mem_insert.1 hb with rfl | hb
      · exact ha₁
      · exact (Finset.mem_sdiff.1 hb).1
    rw [hsplit, Finset.sum_union hdisj, Finset.sum_insert (by simp), ← hsub.sum, ← hrest.sum,
      weightD, hm]
    rfl
  · rcases List.mem_cons.1 hb with rfl | hb
    · exact hrest.seen ha₁
    · exact hrest.found b hb hw
  · intro c hc
    rcases hnew b hb with rfl | hb | hb
    · exact hrest.seen (hsub.found c hc.1 hc.2)
    · exact hrest.seen (hsub.closed b hb hw c hc)
    · exact hrest.closed b hb hw c hc
  · rcases hnew b hb with rfl | hb | hb
    · exact ⟨b, .head _, hsome, .refl⟩
    · exact (hsub.reached b hb hw).cons hsome
    · exact (hrest.reached b hb hw).mono (List.subset_cons_self _ _)

/-- A search that is deep enough for the nodes it has not seen yet ends. -/
theorem exists_searched {support : Finset α} (hfin : ∀ a, (g.weight a).isSome → a ∈ support)
    (depth : ℕ) (roots : List α) (p : Probe α) (hp : g.Sound p)
    (hdepth : (support \ p.seen).card < depth) :
    ∃ m p', g.search depth roots p = some (m, p') ∧ Searched (g := g) roots p p' m := by
  induction depth generalizing roots p with
  | zero => exact absurd hdepth (Nat.not_lt_zero _)
  | succ depth ihd =>
    show ∃ m p', g.searchList (g.search depth) roots p = some (m, p') ∧ _
    induction roots generalizing p with
    | nil =>
      refine ⟨0, p, rfl, Finset.Subset.refl _, hp, ?_, ?_, ?_, ?_⟩
      · rw [Finset.sdiff_self, Finset.sum_empty]
      · exact fun a ha => absurd ha List.not_mem_nil
      · exact fun a ha => absurd ha (by simp)
      · exact fun a ha => absurd ha (by simp)
    | cons a rest ihr =>
      unfold searchList
      by_cases hskip : a ∈ p.seen ∨ a ∈ p.absent
      · obtain ⟨m, p', hsearch, hspec⟩ := ihr p hp hdepth
        rw [if_pos hskip]
        refine ⟨m, p', hsearch, hspec.skip (.inl rfl) fun hw => ?_⟩
        refine hskip.resolve_right fun habs => ?_
        rw [hp a habs] at hw
        cases hw
      rw [if_neg hskip]
      rw [not_or] at hskip
      cases hm : g.weight a with
      | none =>
        have hp₁ : g.Sound ⟨insert a p.seen, insert a p.absent⟩ := by
          intro b hb
          rcases Finset.mem_insert.1 hb with rfl | hb
          · exact hm
          · exact hp b hb
        have hcard : (support \ insert a p.seen).card < depth + 1 :=
          (Finset.card_le_card (Finset.sdiff_subset_sdiff (Finset.Subset.refl _)
            (Finset.subset_insert _ _))).trans_lt hdepth
        obtain ⟨m, p', hsearch, hspec⟩ := ihr _ hp₁ hcard
        exact ⟨m, p', hsearch, hspec.skip (.inr ⟨rfl, hm⟩) fun _ => Finset.mem_insert_self _ _⟩
      | some w =>
        -- One node less is left for the search behind `a`.
        have hcard : (support \ insert a p.seen).card < (support \ p.seen).card := by
          refine Finset.card_lt_card ⟨Finset.sdiff_subset_sdiff (Finset.Subset.refl _)
            (Finset.subset_insert _ _), fun hsub => ?_⟩
          have hmem : a ∈ support \ p.seen :=
            Finset.mem_sdiff.2 ⟨hfin a (by rw [hm]; rfl), hskip.1⟩
          exact (Finset.mem_sdiff.1 (hsub hmem)).2 (Finset.mem_insert_self _ _)
        obtain ⟨below, p₁, hsub, hspec₁⟩ :=
          ihd (g.next a) ⟨insert a p.seen, p.absent⟩ hp (by simp only; omega)
        have hcard₁ : (support \ p₁.seen).card < depth + 1 :=
          (Finset.card_le_card (Finset.sdiff_subset_sdiff (Finset.Subset.refl _)
            ((Finset.subset_insert _ _).trans hspec₁.seen))).trans_lt hdepth
        obtain ⟨total, p', hrest, hspec⟩ := ihr p₁ hspec₁.sound hcard₁
        refine ⟨w + below + total, p', ?_, hspec₁.follow hskip.1 hm hspec⟩
        simp only [hsub, hrest, Option.bind_eq_bind, Option.bind_some]
        rfl

open scoped Classical in
/-- A search from the nodes after `root`, that has seen nothing else, adds up the
    nodes reachable from it, each once. -/
theorem search_eq {support : Finset α} (hfin : ∀ a, (g.weight a).isSome → a ∈ support)
    {depth : ℕ} (hdepth : support.card < depth) (root : α) {absent : Finset α}
    (habs : ∀ a ∈ absent, g.weight a = none) :
    ∃ p', g.search depth (g.next root) ⟨{root}, absent⟩ =
        some (∑ a ∈ support.filter fun a => a ≠ root ∧ Relation.TransGen g.Edge root a,
          g.weightD a, p') ∧ ∀ a ∈ p'.absent, g.weight a = none := by
  have hcard : (support \ {root}).card < depth :=
    (Finset.card_le_card Finset.sdiff_subset).trans_lt hdepth
  obtain ⟨m, p', hsearch, hspec⟩ :=
    exists_searched hfin depth (g.next root) ⟨{root}, absent⟩ habs hcard
  refine ⟨p', ?_, hspec.sound⟩
  rw [hsearch, hspec.sum]
  congr 2
  -- What has been seen exists and is reachable, or weighs nothing.
  have hreach : ∀ a, Relation.TransGen g.Edge root a → a ∈ p'.seen := by
    intro a ha
    induction ha with
    | single hb => exact hspec.found _ hb.1 hb.2
    | @tail b c hab hbc ih =>
      by_cases hroot : b = root
      · subst hroot
        exact hspec.found _ hbc.1 hbc.2
      · have hb : (g.weight b).isSome := by
          rcases hab with hb | ⟨-, hb⟩
          · exact hb.2
          · exact hb.2
        exact hspec.closed b (Finset.mem_sdiff.2 ⟨ih, by simpa using hroot⟩) hb c hbc
  symm
  refine Finset.sum_subset_zero_on_sdiff ?_ ?_ fun _ _ => rfl
  · intro a ha
    obtain ⟨-, hne, hr⟩ := Finset.mem_filter.1 ha
    exact Finset.mem_sdiff.2 ⟨hreach a hr, by simpa using hne⟩
  · intro a ha
    obtain ⟨ha, hnot⟩ := Finset.mem_sdiff.1 ha
    cases hw : g.weight a with
    | none => rw [weightD, hw]; rfl
    | some w =>
      have hsome : (g.weight a).isSome := by rw [hw]; rfl
      refine absurd (Finset.mem_filter.2 ⟨hfin a hsome, ?_, ?_⟩) hnot
      · simpa using (Finset.mem_sdiff.1 ha).2
      · obtain ⟨b, hb, hwb, hr⟩ := hspec.reached a ha hsome
        exact Relation.TransGen.head' ⟨hb, hwb⟩ hr

end WeightedGraph

end Gnldev
