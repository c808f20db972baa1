import Gnldev.Durable.Org.Storage

/-!
# A walk through the lists of an organization

A page of an organization is drawn from pages of the source (`drainOwned`), and what it hands back
is where the source goes on. With a limit, the last page that is drawn may have more items of the
organization than there is room for. Those are cut off, and the walk goes on behind them.

* `NeverOver`: the items of the organization, counted from page to page of the source, never step
  over the limit;
* `walk_complete`: a walk gives all items of the organization, each once and in the order of the
  store, exactly then, or without a limit.
-/

open List

namespace Gnldev.Durable

variable {A : Type}

/-! ## Walks -/

/-- A full walk: the first page, and then each from where the one before says. -/
def fullWalk (page : Option ℕ → ListPage A) (fuel : ℕ) : Option (List A) :=
  match page none with
  | (items, none) => some items
  | (items, some next) => (walk (fun pos => page (some pos)) fuel next).map (items ++ ·)

/-- The walk ends, and has given just these items. -/
def WalksTo (page : Option ℕ → ListPage A) (all : List A) : Prop :=
  ∃ fuel, fullWalk page fuel = some all

/-- The first page is the one at the position 0. -/
theorem fullWalk_eq {page : Option ℕ → ListPage A} (h : page none = page (some 0)) (fuel : ℕ) :
    fullWalk page fuel = walk (fun pos => page (some pos)) (fuel + 1) 0 := by
  rcases hpage : page (some 0) with ⟨items, _ | next⟩ <;> simp [fullWalk, walk, h, hpage]

/-! ## Counting -/

/-- How many items of the organization a page of the source has. -/
def ownIn (l : List A) (own : A → Option A) (limit i : ℕ) : ℕ :=
  (((l.drop (i * limit)).take limit).filterMap own).length

/-- How many each of them has. -/
def ownCounts (l : List A) (own : A → Option A) (limit : ℕ) : List ℕ :=
  (List.range ((l.length + limit - 1) / limit)).map (ownIn l own limit)

/-- The count goes on from page to page, as long as it is below the limit and pages may be drawn;
    then it begins again. It is never over the limit. -/
def NeverOver (limit : ℕ) : (draws count : ℕ) → List ℕ → Prop
  | _, _, [] => True
  | draws, count, c :: cs => count + c ≤ limit ∧
    if limit ≤ count + c ∨ draws = 1 then NeverOver limit MAX_DRAW 0 cs
    else NeverOver limit (draws - 1) (count + c) cs

/-- There is no limit, or the count is never over it. -/
def LimitFits (l : List A) (own : A → Option A) : Option ℕ → Prop
  | none => True
  | some 0 => l = []
  | some limit => NeverOver limit MAX_DRAW 0 (ownCounts l own limit)

section Pages

variable {l : List A} {own : A → Option A}

/-- What the organization has from a position on, up to where it ends. -/
def Drawn (l : List A) (own : A → Option A) (pos : ℕ) (items : List A) : Option ℕ → Prop
  | none => items = (l.drop pos).filterMap own
  | some next => pos < next ∧ next ≤ l.length ∧
    items = ((l.drop pos).take (next - pos)).filterMap own

theorem filterMap_split {pos next : ℕ} (h : pos ≤ next) : (l.drop pos).filterMap own =
    ((l.drop pos).take (next - pos)).filterMap own ++ (l.drop next).filterMap own := by
  rw [← filterMap_append, ← Nat.add_sub_cancel' h, ← drop_drop, Nat.add_sub_cancel_left,
    take_append_drop]

theorem Drawn.append {pos p : ℕ} {a b : List A} {next : Option ℕ} (h : Drawn l own pos a (some p))
    (h' : Drawn l own p b next) : Drawn l own pos (a ++ b) next := by
  obtain ⟨hlt, hle, rfl⟩ := h
  rcases next with _ | next
  · rw [Drawn] at h' ⊢
    rw [h', ← filterMap_split hlt.le]
  · obtain ⟨hlt', hle', rfl⟩ := h'
    refine ⟨hlt.trans hlt', hle', ?_⟩
    have htake : (l.drop pos).take (next - pos) =
        (l.drop pos).take (p - pos) ++ (l.drop p).take (next - p) := by
      have hnext : next - pos = p - pos + (next - p) := by omega
      rw [hnext, take_add, drop_drop, Nat.add_sub_cancel' hlt.le]
    rw [htake, filterMap_append]

theorem drawn_slicePage {lim : ℕ} (hlim : 0 < lim) (pos : ℕ) :
    Drawn l own pos ((slicePage l lim pos).1.filterMap own) (slicePage l lim pos).2 := by
  obtain ⟨hlast, hmore⟩ := slicePage_cuts l hlim
  simp only [filterMap_some] at hlast hmore
  rcases hpage : slicePage l lim pos with ⟨items, _ | next⟩
  · exact congrArg _ (hlast pos items hpage)
  · obtain ⟨hlt, hle, hitems⟩ := hmore pos items next hpage
    exact ⟨hlt, hle, congrArg _ hitems⟩

section Draws

variable {limit : Option ℕ} {draws : ℕ} {items : List A}

/-- A page of the source is drawn, and then others, if there are any and they are needed. -/
theorem drawOwned_succ (fetch : Option ℕ → ListPage A) (cursor : Option ℕ) :
    drawOwned fetch own limit (draws + 1) cursor items =
      if (fetch cursor).2 = none ∨
          limit.any (· ≤ (items ++ (fetch cursor).1.filterMap own).length) then
        (items ++ (fetch cursor).1.filterMap own, (fetch cursor).2)
      else drawOwned fetch own limit draws (fetch cursor).2
        (items ++ (fetch cursor).1.filterMap own) := rfl

/-- Whatever is drawn, nothing of the organization is passed over. -/
theorem drawOwned_drawn {lim : ℕ} (hlim : 0 < lim) (cursor : Option ℕ) :
    ∃ drawn, (drawOwned (fun c => slicePage l lim (c.getD 0)) own limit (draws + 1) cursor items).1 =
        items ++ drawn ∧ Drawn l own (cursor.getD 0) drawn
      (drawOwned (fun c => slicePage l lim (c.getD 0)) own limit (draws + 1) cursor items).2 := by
  induction draws generalizing cursor items with
  | zero =>
    rw [drawOwned_succ, drawOwned, ite_self]
    exact ⟨_, rfl, drawn_slicePage hlim _⟩
  | succ draws ih =>
    rw [drawOwned_succ]
    split
    · exact ⟨_, rfl, drawn_slicePage hlim _⟩
    · next hgo =>
      rw [not_or] at hgo
      obtain ⟨next, hnext⟩ := Option.ne_none_iff_exists'.1 hgo.1
      have hfirst : Drawn l own (cursor.getD 0) _ _ := drawn_slicePage hlim _
      simp only [hnext] at hfirst ⊢
      obtain ⟨drawn, hitems, hdrawn⟩ := ih (some next)
      exact ⟨_, hitems.trans (append_assoc _ _ _), hfirst.append hdrawn⟩

end Draws

/-! ## Pages of the organization -/

/-- The page at a position. -/
def ownPage (l : List A) (own : A → Option A) (limit : Option ℕ) (pos : ℕ) : ListPage A :=
  drainOwned l own ⟨limit, some pos⟩

theorem drawOwned_first {fetch : Option ℕ → ListPage A} (h : fetch none = fetch (some 0))
    (limit : Option ℕ) (draws : ℕ) : drawOwned fetch own limit (draws + 1) none [] =
      drawOwned fetch own limit (draws + 1) (some 0) [] := by
  rw [drawOwned_succ, drawOwned_succ, h]

theorem drainOwned_first (limit : Option ℕ) :
    drainOwned l own ⟨limit, none⟩ = drainOwned l own ⟨limit, some 0⟩ := by
  rw [drainOwned, drainOwned, MAX_DRAW]
  dsimp only
  rw [drawOwned_first (by rfl) limit 49]

/-- What is drawn for a page, before it is cut to the limit. -/
def drawnPage (l : List A) (own : A → Option A) (limit : Option ℕ) (pos : ℕ) : ListPage A :=
  drawOwned (fun c => slicePage l (limit.getD 50) (c.getD 0)) own limit MAX_DRAW (some pos) []

theorem drawnPage_drawn {limit : Option ℕ} (hlim : 0 < limit.getD 50) (pos : ℕ) :
    Drawn l own pos (drawnPage l own limit pos).1 (drawnPage l own limit pos).2 := by
  have h : ∃ drawn, (drawnPage l own limit pos).1 = [] ++ drawn ∧
      Drawn l own pos drawn (drawnPage l own limit pos).2 := drawOwned_drawn hlim (some pos)
  obtain ⟨drawn, hitems, hdrawn⟩ := h
  exact hitems ▸ hdrawn

theorem ownPage_eq (limit : Option ℕ) (pos : ℕ) : ownPage l own limit pos =
    (limit.elim id List.take (drawnPage l own limit pos).1, (drawnPage l own limit pos).2) := by
  rcases limit with _ | limit <;> rfl

/-- Without a limit, a walk gives everything. -/
theorem walksTo_unlimited : WalksTo (fun cursor => drainOwned l own ⟨none, cursor⟩)
    (l.filterMap own) := by
  have hcuts : Cuts (ownPage l own none) l own := by
    refine ⟨fun pos items hpage => ?_, fun pos items next hpage => ?_⟩
    all_goals
      have hlim : 0 < (none : Option ℕ).getD 50 := Nat.succ_pos _
      have h := @drawnPage_drawn A l own _ hlim pos
      rwa [show drawnPage l own none pos = _ from hpage] at h
  refine ⟨l.length, ?_⟩
  rw [fullWalk_eq (drainOwned_first none)]
  exact walk_eq hcuts (Nat.lt_succ_of_le (Nat.sub_le _ _))

/-- With the limit 0, no page gets on. -/
theorem walksTo_zero : WalksTo (fun cursor => drainOwned l own ⟨some 0, cursor⟩)
    (l.filterMap own) ↔ l = [] := by
  have hpage (pos : ℕ) : drainOwned l own ⟨some 0, some pos⟩ =
      ([], if pos < l.length then some pos else none) := by
    rw [drainOwned, MAX_DRAW]
    dsimp only [ListQuery.paginate]
    rw [drawOwned_succ, if_pos (.inr (by rfl))]
    rfl
  constructor
  · rintro ⟨fuel, hwalk⟩
    by_contra hne
    have hstay : drainOwned l own ⟨some 0, some 0⟩ = ([], some 0) := by
      rw [hpage, if_pos (length_pos_iff.2 hne)]
    rw [fullWalk_eq (drainOwned_first _)] at hwalk
    have hnone (fuel : ℕ) : walk (fun pos => drainOwned l own ⟨some 0, some pos⟩) fuel 0 = none := by
      induction fuel with
      | zero => rfl
      | succ fuel ih =>
        rw [walk, hstay]
        simp only [ih, Option.map_none]
    rw [hnone] at hwalk
    contradiction
  · rintro rfl
    refine ⟨0, ?_⟩
    rw [fullWalk_eq (drainOwned_first _), walk, hpage]
    rfl

/-! ## A limit -/

section Limit

variable {limit : ℕ} (hlimit : 0 < limit)
include hlimit

theorem ownPage_within : Within (ownPage l own (some limit)) l own := by
  have hsub (pos : ℕ) : (ownPage l own (some limit) pos).1.Sublist
      (drawnPage l own (some limit) pos).1 := by
    rw [ownPage_eq]
    exact take_sublist _ _
  refine ⟨fun pos items hpage => ?_, fun pos items next hpage => ?_⟩
  all_goals
    have hlim : 0 < (some limit).getD 50 := hlimit
    have h := @drawnPage_drawn A l own _ hlim pos
    have hitems := hsub pos
    rw [ownPage_eq] at hpage
    obtain ⟨hpart, hnext⟩ := Prod.mk.inj hpage
    rw [ownPage_eq, hpart] at hitems
    rw [hnext] at h
  · exact h ▸ hitems
  · exact ⟨h.1.le, h.2.2 ▸ hitems⟩

/-- The walk from the midst of a page of the organization. -/
def resume (l : List A) (own : A → Option A) (limit fuel draws pos : ℕ) (items : List A) :
    Option (List A) :=
  match drawOwned (fun c => slicePage l limit (c.getD 0)) own (some limit) draws (some pos) items with
  | (its, none) => some (its.take limit)
  | (its, some next) => (walk (ownPage l own (some limit)) fuel next).map (its.take limit ++ ·)

omit hlimit in
theorem walk_ownPage (fuel pos : ℕ) : walk (ownPage l own (some limit)) (fuel + 1) pos =
    resume l own limit fuel MAX_DRAW pos [] := by
  have hdrawn : drawnPage l own (some limit) pos =
    drawOwned (fun c => slicePage l limit (c.getD 0)) own (some limit) MAX_DRAW (some pos) [] := rfl
  rw [walk, resume, ownPage_eq, ← hdrawn]
  generalize drawnPage l own (some limit) pos = page
  rcases page with ⟨its, _ | next⟩ <;> rfl

/-- What is cut off at the end of a page does not come again. -/
theorem restart_iff {fuel pos : ℕ} {its : List A} {P : Prop}
    (h : resume l own limit fuel MAX_DRAW pos [] = some ((l.drop pos).filterMap own) ↔ P) :
    (walk (ownPage l own (some limit)) (fuel + 1) pos).map (its.take limit ++ ·) =
      some (its ++ (l.drop pos).filterMap own) ↔ its.length ≤ limit ∧ P := by
  rw [← h, ← walk_ownPage, Option.map_eq_some_iff]
  constructor
  · rintro ⟨rest, hrest, heq⟩
    have hsub := (walk_sublist (ownPage_within hlimit) hrest).length_le
    have hlength := congrArg List.length heq
    rw [length_append, length_append, length_take] at hlength
    have hle : its.length ≤ limit := by omega
    rw [take_of_length_le hle, append_cancel_left_eq] at heq
    exact ⟨hle, heq ▸ hrest⟩
  · rintro ⟨hle, hrest⟩
    exact ⟨_, hrest, by rw [take_of_length_le hle]⟩

/-- From the midst of a page on, the walk gives all the rest just when the count, which goes on from
    the items there are, is never over the limit. -/
theorem resume_iff {n i draws fuel : ℕ} {items : List A} (hfirst : l.length ≤ (i + (n + 1)) * limit)
    (hlast : n = 0 ∨ (i + n) * limit < l.length) (hfuel : n ≤ fuel) :
    resume l own limit fuel (draws + 1) (i * limit) items =
        some (items ++ (l.drop (i * limit)).filterMap own) ↔
      NeverOver limit (draws + 1) items.length
        ((List.range' i (n + 1)).map (ownIn l own limit)) := by
  induction n generalizing i draws fuel items with
  | zero =>
    -- The last page of the source.
    have hnext : (slicePage l limit (i * limit)).2 = none := by
      rw [Nat.zero_add, Nat.add_mul, Nat.one_mul] at hfirst
      exact if_neg (Nat.not_lt.2 hfirst)
    have hrest : (slicePage l limit (i * limit)).1 = l.drop (i * limit) := by
      refine take_of_length_le ?_
      rw [Nat.zero_add, Nat.add_mul, Nat.one_mul] at hfirst
      rw [length_drop]
      omega
    have hin : ownIn l own limit i = ((l.drop (i * limit)).filterMap own).length :=
      congrArg (fun part => (part.filterMap own).length) hrest
    rw [resume, drawOwned_succ]
    simp only [Option.getD_some, hnext, hrest, true_or, if_true, Option.some.injEq,
      take_eq_self_iff, length_append, Nat.zero_add, range'_one, map_cons,
      map_nil, hin, NeverOver, ite_self, and_true]
  | succ n ih =>
    have hsucc : (i + 1) * limit = i * limit + limit := Nat.succ_mul i limit
    have hmore : (i + 1) * limit < l.length := by
      have hlt := hlast.resolve_left (Nat.succ_ne_zero n)
      exact (Nat.mul_le_mul_right limit (by omega)).trans_lt hlt
    have hnext : (slicePage l limit (i * limit)).2 = some ((i + 1) * limit) := by
      rw [hsucc] at hmore ⊢
      exact if_pos hmore
    have hsplit : items ++ (l.drop (i * limit)).filterMap own =
        items ++ (slicePage l limit (i * limit)).1.filterMap own ++
          (l.drop ((i + 1) * limit)).filterMap own := by
      rw [append_assoc, hsucc, filterMap_split (Nat.le_add_right (i * limit) limit),
        Nat.add_sub_cancel_left]
      rfl
    have hfirst' : l.length ≤ (i + 1 + (n + 1)) * limit := by rwa [Nat.add_right_comm, Nat.add_assoc]
    have hlast' : n = 0 ∨ (i + 1 + n) * limit < l.length :=
      .inr (by rw [Nat.add_right_comm]; exact hlast.resolve_left (Nat.succ_ne_zero n))
    obtain ⟨fuel, rfl⟩ := Nat.exists_eq_add_of_le' (Nat.zero_lt_of_lt hfuel)
    have hnew : resume l own limit fuel MAX_DRAW ((i + 1) * limit) [] =
        some ((l.drop ((i + 1) * limit)).filterMap own) ↔
          NeverOver limit MAX_DRAW 0 ((List.range' (i + 1) (n + 1)).map (ownIn l own limit)) :=
      ih hfirst' hlast' (Nat.le_of_succ_le_succ hfuel)
    have hrestart (its : List A) :
        (walk (ownPage l own (some limit)) (fuel + 1) ((i + 1) * limit)).map
            (its.take limit ++ ·) =
          some (its ++ (l.drop ((i + 1) * limit)).filterMap own) ↔
        its.length ≤ limit ∧
          NeverOver limit MAX_DRAW 0 ((List.range' (i + 1) (n + 1)).map (ownIn l own limit)) :=
      restart_iff hlimit hnew
    rw [resume, drawOwned_succ, hsplit, range'_succ, map_cons, NeverOver]
    have hcount : items.length + ownIn l own limit i =
        (items ++ (slicePage l limit (i * limit)).1.filterMap own).length := by
      rw [length_append]
      rfl
    rw [hcount]
    simp only [Option.getD_some, hnext, reduceCtorEq, false_or, Option.any_some, decide_eq_true_eq]
    generalize items ++ (slicePage l limit (i * limit)).1.filterMap own = its
    by_cases hfull : limit ≤ its.length
    · simp only [hfull, true_or, if_true]
      exact hrestart its
    · rw [and_iff_right (not_le.1 hfull).le]
      simp only [if_neg hfull]
      rcases draws with _ | draws
      · -- No more pages may be drawn, and the page ends short of the limit.
        have hstop := hrestart its
        rw [and_iff_right (not_le.1 hfull).le] at hstop
        simp only [drawOwned, Nat.zero_add, or_true, if_true]
        exact hstop
      · rw [if_neg (by omega)]
        exact ih hfirst' hlast' (Nat.le_of_succ_le hfuel)

/-- With a limit, a walk gives everything just when the count is never over it. -/
theorem walksTo_limit : WalksTo (fun cursor => drainOwned l own ⟨some limit, cursor⟩)
    (l.filterMap own) ↔ NeverOver limit MAX_DRAW 0 (ownCounts l own limit) := by
  have hwalk (fuel : ℕ) : fullWalk (fun cursor => drainOwned l own ⟨some limit, cursor⟩) fuel =
      resume l own limit fuel MAX_DRAW 0 [] := by
    rw [fullWalk_eq (drainOwned_first _)]
    exact walk_ownPage fuel 0
  have hblocks : (l.length + limit - 1) / limit * limit ≤ l.length + limit - 1 :=
    Nat.div_mul_le_self _ _
  have hover : l.length + limit - 1 < ((l.length + limit - 1) / limit + 1) * limit :=
    (Nat.div_lt_iff_lt_mul hlimit).1 (Nat.lt_succ_self _)
  rw [ownCounts]
  generalize (l.length + limit - 1) / limit = blocks at hblocks hover
  rw [Nat.add_mul, Nat.one_mul] at hover
  rcases blocks with _ | n
  · -- There is nothing in the list.
    rw [Nat.zero_mul] at hover
    obtain rfl : l = [] := eq_nil_of_length_eq_zero (by omega)
    refine iff_of_true ⟨0, (hwalk 0).trans ?_⟩ trivial
    rw [resume, MAX_DRAW, drawOwned_succ]
    simp only [slicePage, Option.getD_some, drop_nil, take_nil, filterMap_nil,
      length_nil, Nat.not_lt_zero, if_false, true_or, if_true, append_nil]
  · rw [Nat.add_mul, Nat.one_mul] at hblocks hover
    have hiff (fuel : ℕ) (hfuel : n ≤ fuel) : resume l own limit fuel MAX_DRAW (0 * limit) [] =
        some ([] ++ (l.drop (0 * limit)).filterMap own) ↔
          NeverOver limit MAX_DRAW 0 ((List.range' 0 (n + 1)).map (ownIn l own limit)) :=
      resume_iff hlimit (by rw [Nat.zero_add, Nat.add_mul, Nat.one_mul]; omega)
        (by rw [Nat.zero_add]; exact .inr (by omega)) hfuel
    rw [Nat.zero_mul, ← range_eq_range'] at hiff
    constructor
    · rintro ⟨fuel, h⟩
      refine (hiff (max fuel n) (le_max_right _ _)).1 ?_
      rw [fullWalk_eq (drainOwned_first _)] at h
      exact (walk_ownPage _ 0).symm.trans (walk_mono h (Nat.succ_le_succ (le_max_left _ _)))
    · exact fun h => ⟨n, (hwalk n).trans ((hiff n le_rfl).2 h)⟩

end Limit

/-- A walk gives everything just when the limit fits. -/
theorem walksTo_iff (limit : Option ℕ) : WalksTo (fun cursor => drainOwned l own ⟨limit, cursor⟩)
    (l.filterMap own) ↔ LimitFits l own limit := by
  rcases limit with _ | _ | limit
  · exact iff_of_true walksTo_unlimited trivial
  · exact walksTo_zero
  · exact walksTo_limit (Nat.succ_pos limit)

end Pages

/-! ## The lists of an organization -/

section Lists

variable {D S : Type} (s : Storage D S) (o : OrgId)

/-- The runs that are asked for, in the order of the store. -/
def Storage.askedRuns (q : RunFilter) : List ListedRun := (listRuns s.runs.store).filter q.keeps

/-- A page of the runs of an organization. -/
def Storage.runsPage (q : RunFilter) (page : ListQuery) : ListPage ListedRun :=
  drainOwned (s.askedRuns q) (·.own o.pre) page

/-- A page of its threads. -/
def Storage.threadsPage (resourceId : Option JsString) (page : ListQuery) :
    ListPage (ThreadRecord D) :=
  drainOwned (s.listThreads resourceId) (·.out o.pre) page

/-- A walk through the runs of an organization, or through its threads, gives each that is asked for
    once, in the order of the store, just when the limit fits the layout of the store. -/
theorem walk_complete (q : RunFilter) (resourceId : Option JsString) (limit : Option ℕ) :
    (WalksTo (fun cursor => s.runsPage o q ⟨limit, cursor⟩)
        ((s.askedRuns q).filterMap (·.own o.pre)) ↔
      LimitFits (s.askedRuns q) (·.own o.pre) limit) ∧
    (WalksTo (fun cursor => s.threadsPage o resourceId ⟨limit, cursor⟩)
        ((s.listThreads resourceId).filterMap (·.out o.pre)) ↔
      LimitFits (s.listThreads resourceId) (·.out o.pre) limit) :=
  ⟨walksTo_iff limit, walksTo_iff limit⟩

end Lists

/-- A thread of another organization, and three of this one. -/
def fourThreads : Storage Unit ℤ where
  runs := .empty
  threads := [js "org:b:t", js "org:a:t1", js "org:a:t2", js "org:a:t3"].foldl
    (fun m id => m.put id ⟨id, js "u", none, 0, none, ()⟩) .empty
  messages := .empty
  wm := .empty
  obs := .empty
  vectors := []
  logs := .empty
  kv := .empty
  cache := .empty
  metas := .empty

/-- Two at a time, the first page is drawn from the first and the second two threads. It gives the
    second and the third, and the walk is at its end. -/
theorem walk_skips : ¬∀ (s : Storage Unit ℤ) (o : OrgId) (limit : Option ℕ),
    WalksTo (fun cursor => s.threadsPage o none ⟨limit, cursor⟩)
      ((s.listThreads none).filterMap (·.out o.pre)) := by
  intro h
  have hfits := walksTo_limit Nat.two_pos |>.1
    (h fourThreads ⟨js "a", by decide, by decide⟩ (some 2))
  have hcounts : ownCounts (fourThreads.listThreads none) (·.out (js "org:a:")) 2 = [1, 2] := by
    decide +kernel
  have hover : ¬NeverOver 2 MAX_DRAW 0 [1, 2] := by
    simp [NeverOver, MAX_DRAW]
  exact hover (hcounts ▸ hfits)

end Gnldev.Durable
