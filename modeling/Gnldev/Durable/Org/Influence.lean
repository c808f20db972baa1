import Gnldev.Durable.Messages
import Gnldev.Durable.Org.Private
import Gnldev.Durable.Org.Storage
import Gnldev.Lib.Sorting

/-!
# Influence between organizations

What an organization is told should not depend on what the others have. It does where rows are
counted before those of others are left out: a page of a list ends where it ends in the shared list,
and `recall` takes the best messages of all organizations that have the resource
(`recall_influenced`).

* `Same`: two storages have the same of an organization;
* `Clear`: what is asked for is not cut off by the rows of others;
* `no_influence`: then the organization is told the same.
-/

open List

namespace Gnldev.Durable

variable {P D S : Type}

/-! ## The same of an organization -/

/-- Is a key under a prefix? -/
def under (p k : JsString) : Bool := k.startsWith p

@[simp] theorem under_append (p k : JsString) : under p (p ++ k) = true :=
  JsString.startsWith_iff.2 (prefix_append p k)

theorem afterPrefix_of_not_under {p k : JsString} (h : ¬under p k) : afterPrefix p k = none :=
  afterPrefix_eq_none_iff.2 fun hp => h (JsString.startsWith_iff.2 hp)

/-- Two journals have the same under a prefix. -/
structure SameRuns (p : JsString) (w w' : MemoryJournal P) : Prop where
  store : w.store.filterKeys (under p) = w'.store.filterKeys (under p)
  times : ∀ k, w.times (p ++ k) = w'.times (p ++ k)
  counters : w.counters.filterKeys (under p) = w'.counters.filterKeys (under p)

/-- Two storages have the same of an organization. -/
structure Same (o : OrgId) (s s' : Storage D S) : Prop where
  runs : SameRuns o.pre s.runs s'.runs
  threads : s.threads.filterKeys (under o.pre) = s'.threads.filterKeys (under o.pre)
  messages : s.messages.filterKeys (under o.pre) = s'.messages.filterKeys (under o.pre)
  wm : s.wm.filterKeys (under o.pre) = s'.wm.filterKeys (under o.pre)
  obs : s.obs.filterKeys (under o.pre) = s'.obs.filterKeys (under o.pre)
  vectors : s.vectors.filter (·.namespaceOf = some o.ns) =
    s'.vectors.filter (·.namespaceOf = some o.ns)
  logs : s.logs.filterKeys (under o.pre) = s'.logs.filterKeys (under o.pre)
  kv : s.kv.filterKeys (under o.pre) = s'.kv.filterKeys (under o.pre)
  cache : s.cache.filterKeys (under o.pre) = s'.cache.filterKeys (under o.pre)
  metas : s.metas.filterKeys (under o.pre) = s'.metas.filterKeys (under o.pre)

section Maps

variable {V : Type} {m m' : OrderedMap JsString V} {p : JsString}

theorem get_of_same (h : m.filterKeys (under p) = m'.filterKeys (under p)) (k : JsString) :
    m.get (p ++ k) = m'.get (p ++ k) := by
  rw [← m.get_filterKeys (under_append p k), h, m'.get_filterKeys (under_append p k)]

theorem restrict_of_same (h : m.filterKeys (under p) = m'.filterKeys (under p)) :
    m.restrict (afterPrefix p) (naming_afterPrefix p) =
      m'.restrict (afterPrefix p) (naming_afterPrefix p) := by
  have hkeep (m : OrderedMap JsString V) : (m.filterKeys (under p)).restrict (afterPrefix p)
      (naming_afterPrefix p) = m.restrict (afterPrefix p) (naming_afterPrefix p) := by
    have hunder : ∀ k k', afterPrefix p k = some k' → under p k = (fun _ => true) k' := by
      intro k k' hk
      rw [afterPrefix_eq_some_iff.1 hk, under_append]
    rw [OrderedMap.restrict_filterKeys (naming_afterPrefix p) m hunder]
    exact OrderedMap.ext (filter_true _)
  rw [← hkeep m, h, hkeep m']

end Maps

/-! ## Runs -/

namespace SameRuns

variable {w w' : MemoryJournal P} {p : JsString}

theorem only (h : SameRuns p w w') : w.only p = w'.only p := by
  ext1
  · exact restrict_of_same h.store
  · funext k
    exact h.times k
  · exact restrict_of_same h.counters

/-- A run is put under a key, seen from the organization. -/
theorem put_congr {V : Type} {m m' : OrderedMap JsString V} {R : JsString}
    (h : m.restrict (afterPrefix p) (naming_afterPrefix p) =
      m'.restrict (afterPrefix p) (naming_afterPrefix p))
    {v : Option V → V} :
    (m.put R (v (m.get R))).restrict (afterPrefix p) (naming_afterPrefix p) =
      (m'.put R (v (m'.get R))).restrict (afterPrefix p) (naming_afterPrefix p) := by
  rcases hR : afterPrefix p R with _ | r
  · rw [OrderedMap.restrict_put_of_none _ _ hR, OrderedMap.restrict_put_of_none _ _ hR, h]
  · rw [OrderedMap.restrict_put_of_some _ _ hR, OrderedMap.restrict_put_of_some _ _ hR,
      ← OrderedMap.get_restrict (naming_afterPrefix p) m hR,
      ← OrderedMap.get_restrict (naming_afterPrefix p) m' hR, h]

theorem register_congr {m m' : RunsOf P} (h : m.only p = m'.only p) (R : JsString) :
    (m.register R).only p = (m'.register R).only p := by
  rcases hR : afterPrefix p R with _ | r
  · rw [register_other m hR, register_other m' hR, h]
  · obtain rfl := afterPrefix_eq_some_iff.1 hR
    rw [register_only, register_only, h]

theorem add_congr {m m' : RunsOf P} (h : m.only p = m'.only p) (e : JsString × JournalValue P) :
    (m.add e).only p = (m'.add e).only p := by
  obtain ⟨K, v⟩ := e
  have howner : (m.registerOwner K v).only p = (m'.registerOwner K v).only p := by
    rw [RunsOf.registerOwner, RunsOf.registerOwner]
    split
    · split
      · exact h
      · exact register_congr h _
    · exact h
  rw [RunsOf.add, RunsOf.add]
  split
  · exact put_congr (v := fun es => es.getD [] ++ [_]) h
  · rw [RunsOf.registerOutcome, RunsOf.registerOutcome]
    split
    · exact register_congr howner _
    · exact howner

theorem byRun (h : SameRuns p w w') :
    (Durable.byRun w.store).only p = (Durable.byRun w'.store).only p := by
  have hfilter (w : MemoryJournal P) : (Durable.byRun w.store).only p =
      ((w.store.filterKeys (under p)).entries.foldl RunsOf.add .empty).only p := by
    refine foldl_filter (RunsOf.only · p) (fun m m' e hm => add_congr hm e) ?_ _ _
    intro m e he
    exact add_other (afterPrefix_of_not_under he) e.2 m
  rw [hfilter w, h.store, ← hfilter w']

theorem listRuns (h : SameRuns p w w') :
    (Durable.listRuns w.store).filterMap (·.own p) =
      (Durable.listRuns w'.store).filterMap (·.own p) := by
  rw [listRuns_own, listRuns_own, h.byRun, h.only]

theorem readRun (h : SameRuns p w w') (r : JsString) : w.readRun (p ++ r) = w'.readRun (p ++ r) := by
  have hfilter (w : MemoryJournal P) : w.store.entries.filterMap (recordOf (p ++ r)) =
      (w.store.filterKeys (under p)).entries.filterMap (recordOf (p ++ r)) := by
    change _ = (w.store.entries.filter fun e => under p e.1).filterMap _
    rw [filterMap_filter]
    refine filterMap_congr fun e _ => ?_
    split
    · rfl
    · next he => exact recordOf_other (afterPrefix_of_not_under he) e.2 r
  rw [MemoryJournal.readRun, MemoryJournal.readRun, hfilter w, h.store, ← hfilter w']
  refine ext_getElem? fun i => ?_
  rw [getElem?_mapIdx, getElem?_mapIdx]
  rcases hi : (w'.store.entries.filterMap (recordOf (p ++ r)))[i]? with _ | ⟨key, kind, v⟩
  · rfl
  · -- The key of a record begins with the id of its run.
    obtain ⟨⟨K, v'⟩, -, hrecord⟩ := mem_filterMap.1 (mem_of_getElem? hi)
    rcases hK : afterPrefix p K with _ | k
    · rw [recordOf_other hK] at hrecord
      contradiction
    · obtain rfl := afterPrefix_eq_some_iff.1 hK
      obtain rfl : p ++ k = key := by
        rw [recordOf] at hrecord
        split at hrecord
        · split at hrecord
          · exact congrArg Prod.fst (Option.some.inj hrecord)
          · contradiction
        · contradiction
      simp only [Option.map_some, h.times k]

theorem ages_congr {last last' : OrderedMap JsString RunAge} (h : agesOnly last p = agesOnly last' p)
    (e : JsString × JournalValue P) :
    agesOnly (w.addAge last e) p = agesOnly (w.addAge last' e) p := by
  obtain ⟨K, v⟩ := e
  rw [MemoryJournal.addAge, MemoryJournal.addAge]
  split
  · exact h
  · split
    · exact h
    · exact put_congr (v := fun age => ⟨max (age.getD ⟨0, false⟩).ts _,
        (age.getD ⟨0, false⟩).suspended || _⟩) h

theorem ages (h : SameRuns p w w') :
    agesOnly (w.store.entries.foldl w.addAge .empty) p =
      agesOnly (w'.store.entries.foldl w'.addAge .empty) p := by
  have hfilter (w : MemoryJournal P) : agesOnly (w.store.entries.foldl w.addAge .empty) p =
      agesOnly ((w.store.filterKeys (under p)).entries.foldl w.addAge .empty) p := by
    refine foldl_filter (agesOnly · p) (fun _ _ e hm => ages_congr hm e) ?_ _ _
    intro last e he
    exact addAge_other (afterPrefix_of_not_under he) e.2 last
  rw [hfilter w, hfilter w', h.store]
  congr 1
  refine foldl_ext _ _ _ fun last e he => ?_
  obtain ⟨K, v⟩ := e
  have hK := (mem_filter.1 he).2
  obtain ⟨k, rfl⟩ := JsString.startsWith_iff.1 hK
  rw [MemoryJournal.addAge, MemoryJournal.addAge, h.times k]

theorem listStaleRuns (h : SameRuns p w w') (cutoff : ℕ) (incl : Bool) :
    (w.listStaleRuns cutoff incl).filterMap (afterPrefix p) =
      (w'.listStaleRuns cutoff incl).filterMap (afterPrefix p) := by
  rw [listStaleRuns_own, listStaleRuns_own, h.ages]

/-- What is asked of the view of a journal. -/
theorem viewPerform [DecidableEq P] {o : OrgId} (h : SameRuns o.pre w w') (now : ℕ)
    (op : JournalOp P) :
    (Durable.viewPerform o.pre w now op).1 = (Durable.viewPerform o.pre w' now op).1 := by
  by_cases hop : op.ReadsRuns
  · cases op with
    | readRun runId =>
      exact congrArg (fun es => JournalAnswer.entries (es.map (·.stripped o.pre))) (h.readRun runId)
    | listRuns => exact congrArg (JournalAnswer.runs ∘ some) h.listRuns
    | listStaleRuns cutoff incl => exact congrArg JournalAnswer.runIds (h.listStaleRuns cutoff incl)
    | walkRuns q limit =>
      refine congrArg JournalAnswer.runs ?_
      rw [walk_viewListRunsPaged _ _ _ limit.pos, walk_viewListRunsPaged _ _ _ limit.pos, h.listRuns]
    | _ => exact hop.elim
  · rw [(viewPerform_eq now op fun h => absurd h hop).1,
      (viewPerform_eq now op fun h => absurd h hop).1, h.only]

end SameRuns

/-! ## Pages -/

section Pages

variable {A : Type} {own : A → Option A}

/-- The list is asked for from its start, and has fewer items of the organization than are asked
    for; and it is not too long to be gone through. -/
def PageClear (l : List A) (own : A → Option A) (q : ListQuery) : Prop :=
  q.cursor = none ∧ (∀ limit ∈ q.limit, (l.filterMap own).length < limit) ∧
    l.length ≤ MAX_DRAW * q.limit.getD 50

theorem drawOwned_all {l : List A} {limit : Option ℕ} {lim draws pos : ℕ} (hlim : 0 < lim)
    (hdraws : 0 < draws) (hlen : l.length ≤ pos + draws * lim) {cursor : Option ℕ}
    (hcursor : cursor.getD 0 = pos) {items : List A}
    (hlimit : ∀ b ∈ limit, (items ++ (l.drop pos).filterMap own).length < b) :
    drawOwned (fun cursor => slicePage l lim (cursor.getD 0)) own limit draws cursor items =
      (items ++ (l.drop pos).filterMap own, none) := by
  induction draws generalizing cursor items pos with
  | zero => exact absurd hdraws (lt_irrefl 0)
  | succ draws ih =>
    subst hcursor
    rw [drawOwned, slicePage]
    by_cases hmore : cursor.getD 0 + lim < l.length
    · have hsplit : (l.drop (cursor.getD 0)).filterMap own =
          ((l.drop (cursor.getD 0)).take lim).filterMap own ++
            (l.drop (cursor.getD 0 + lim)).filterMap own := by
        rw [← drop_drop, ← filterMap_append, take_append_drop]
      rw [hsplit, ← append_assoc] at hlimit ⊢
      have hnot : ¬(some (cursor.getD 0 + lim) = none ∨ limit.any (· ≤ (items ++
          ((l.drop (cursor.getD 0)).take lim).filterMap own).length)) := by
        rintro (h | h)
        · contradiction
        · rcases limit with _ | b
          · contradiction
          · have hb := hlimit b rfl
            rw [length_append] at hb
            have hle := of_decide_eq_true h
            omega
      simp only [if_pos hmore, if_neg hnot]
      rw [Nat.succ_mul] at hlen
      have hrest : l.length ≤ cursor.getD 0 + lim + draws * lim := by omega
      refine ih ?_ hrest rfl hlimit
      by_contra hzero
      obtain rfl : draws = 0 := by omega
      omega
    · rw [take_of_length_le (by rw [length_drop]; omega)]
      simp only [if_neg hmore, true_or, if_true]

/-- A page that is clear has all, and is the last one. -/
theorem drainOwned_clear {l : List A} {q : ListQuery} (h : PageClear l own q) :
    drainOwned l own q = (l.filterMap own, none) := by
  obtain ⟨limit, cursor⟩ := q
  obtain ⟨rfl, hlimit, hlen⟩ := h
  have hlim : 0 < limit.getD 50 := by
    rcases limit with _ | b
    · exact Nat.succ_pos _
    · exact (Nat.zero_le _).trans_lt (hlimit b rfl)
  have hall : l.length ≤ 0 + MAX_DRAW * limit.getD 50 := by rwa [Nat.zero_add]
  have hdraw : drawOwned (fun cursor => slicePage l (limit.getD 50) (cursor.getD 0)) own limit
      MAX_DRAW none [] = (l.filterMap own, none) :=
    drawOwned_all hlim (Nat.succ_pos _) hall rfl hlimit
  rw [drainOwned]
  simp only [ListQuery.paginate, hdraw]
  rcases limit with _ | b
  · rfl
  · exact congrArg (·, none) (take_of_length_le (hlimit b rfl).le)

end Pages

/-! ## Threads -/

/-- The threads and messages that are the organization's by their ids are under its prefix. -/
structure Consistent (o : OrgId) (s : Storage D S) : Prop where
  threads : ∀ e ∈ s.threads.entries, under o.pre e.2.id → under o.pre e.1
  messages : ∀ e ∈ s.messages.entries, ∀ m ∈ e.2, under o.pre m.threadId → under o.pre e.1

theorem listThreads_same {o : OrgId} {s s' : Storage D S} (h : Same o s s') (hs : Consistent o s)
    (hs' : Consistent o s') (resourceId : Option JsString) :
    (s.listThreads resourceId).filterMap (·.out o.pre) =
      (s'.listThreads resourceId).filterMap (·.out o.pre) := by
  have hown (s : Storage D S) (hs : Consistent o s) :
      (s.listThreads resourceId).filterMap (·.out o.pre) =
        ((((s.threads.filterKeys (under o.pre)).entries.map Prod.snd).filter fun t =>
          t.live && resourceId.all (t.resourceId = ·)).filterMap (·.out o.pre)).insertionSort
            fun a b => b.updatedAt ≤ a.updatedAt := by
    have htrans : IsTrans (ThreadRecord D) fun a b => b.updatedAt ≤ a.updatedAt :=
      ⟨fun _ _ _ h h' => h'.trans h⟩
    have htotal : Std.Total fun a b : ThreadRecord D => b.updatedAt ≤ a.updatedAt :=
      ⟨fun a b => le_total b.updatedAt a.updatedAt⟩
    have horder : ∀ a b a' b' : ThreadRecord D, a.out o.pre = some a' → b.out o.pre = some b' →
        (b.updatedAt ≤ a.updatedAt ↔ b'.updatedAt ≤ a'.updatedAt) := by
      intro a b a' b' ha hb
      obtain ⟨id, -, rfl⟩ := Option.map_eq_some_iff.1 ha
      obtain ⟨id', -, rfl⟩ := Option.map_eq_some_iff.1 hb
      rfl
    rw [Storage.listThreads, filterMap_insertionSort horder]
    congr 1
    change _ = (((s.threads.entries.filter fun e => under o.pre e.1).map Prod.snd).filter
      _).filterMap _
    rw [filter_map, filter_map, filterMap_map, filterMap_map,
      filterMap_filter, filterMap_filter, filterMap_filter]
    refine filterMap_congr fun e he => ?_
    by_cases hunder : under o.pre e.1
    · rw [if_pos hunder]
    · -- What is not under the prefix is not shown.
      have hout : e.2.out o.pre = none := by
        rw [ThreadRecord.out, afterPrefix_of_not_under fun h => hunder (hs.threads e he h),
          Option.map_none]
      simp only [Function.comp_apply, hout, ite_self]
  rw [hown s hs, h.threads, ← hown s' hs']

/-! ## Recall -/

section Recall

variable [LinearOrder S] [Zero S] {p : JsString} {cosine : List S → List S → Option S}
  {query : List S} {opts : RecallOptions D S}

/-- The candidate is a message of the organization. -/
def Candidate.own (p : JsString) (c : Candidate D S) : Bool := under p c.tid

/-- A candidate that is the organization's by its messages is so by its thread. -/
structure Candidate.Ok (p : JsString) (c : Candidate D S) : Prop where
  m : under p c.m.threadId → under p c.tid
  rows : ∀ m ∈ c.rows, under p m.threadId → under p c.tid

/-- Nothing of others is among the best, or nothing of the organization is beyond. -/
def RankClear (p : JsString) (n : ℕ) (l : List (Candidate D S)) : Prop :=
  (∀ c ∈ l.take n, c.own p) ∨ ∀ c ∈ l.drop n, ¬c.own p

theorem mem_candidatesIn {threshold : S} {e : JsString × List (MessageRecord D S)}
    {c : Candidate D S} (h : c ∈ candidatesIn cosine query threshold e) :
    c.tid = e.1 ∧ c.rows = e.2 ∧ c.m ∈ e.2 := by
  obtain ⟨tid, rows⟩ := e
  obtain ⟨⟨m, idx⟩, hmem, hc⟩ := mem_filterMap.1 h
  obtain ⟨emb, -, hc⟩ := Option.bind_eq_some_iff.1 hc
  obtain ⟨score, -, hc⟩ := Option.bind_eq_some_iff.1 hc
  split at hc
  · obtain rfl := Option.some.inj hc
    exact ⟨rfl, rfl, fst_mem_of_mem_zipIdx hmem⟩
  · contradiction

/-- The candidates of an organization are those of its threads. -/
theorem filter_candidates (threshold : S) (l : List (JsString × List (MessageRecord D S))) :
    (l.flatMap (candidatesIn cosine query threshold)).filter (·.own p) =
      (l.filter fun e => under p e.1).flatMap (candidatesIn cosine query threshold) := by
  induction l with
  | nil => rfl
  | cons e l ih =>
    rw [flatMap_cons, filter_append, ih, filter_cons]
    split
    · next he =>
      rw [flatMap_cons, filter_eq_self.2 fun c hc => ?_]
      rwa [Candidate.own, (mem_candidatesIn hc).1]
    · next he =>
      rw [filter_eq_nil_iff.2 fun c hc => ?_, nil_append]
      rwa [Candidate.own, (mem_candidatesIn hc).1]

omit [LinearOrder S] [Zero S] in
/-- The threads of the organization that are searched are the same. -/
theorem searched_same {o : OrgId} {s s' : Storage D S} (h : Same o s s') (threadId : JsString)
    {resourceId : Option JsString} (hres : resourceId.isSome) :
    (s.searched threadId resourceId).filter (fun e => under o.pre e.1) =
      (s'.searched threadId resourceId).filter fun e => under o.pre e.1 := by
  obtain ⟨resourceId, rfl⟩ := Option.isSome_iff_exists.1 hres
  have hown (s : Storage D S) :
      (s.searched threadId (some resourceId)).filter (fun e => under o.pre e.1) =
        (s.messages.filterKeys (under o.pre)).entries.filter fun e =>
          (s.threads.get e.1).any fun t => t.live && t.resourceId = resourceId := by
    rw [Storage.searched, filter_comm]
    rfl
  rw [hown s, hown s', h.messages]
  refine filter_congr fun e he => ?_
  obtain ⟨k, hk⟩ := JsString.startsWith_iff.1 (mem_filter.1 he).2
  rw [← hk, get_of_same h.threads k]

theorem ranked_same {o : OrgId} {s s' : Storage D S} (h : Same o s s') (threadId : JsString)
    (hres : opts.resourceId.isSome) :
    (s.ranked cosine threadId query opts).filter (·.own o.pre) =
      (s'.ranked cosine threadId query opts).filter (·.own o.pre) := by
  have htrans : IsTrans (Candidate D S) fun a b => b.score ≤ a.score :=
    ⟨fun _ _ _ h h' => h'.trans h⟩
  have htotal : Std.Total fun a b : Candidate D S => b.score ≤ a.score :=
    ⟨fun a b => le_total b.score a.score⟩
  rw [Storage.ranked, Storage.ranked, filter_insertionSort, filter_insertionSort, filter_comm,
    filter_candidates, searched_same h threadId hres, ← filter_candidates, filter_comm]

/-- No message of the threads makes a comparison throw. -/
def AllComparable (cosine : List S → List S → Option S) (query : List S)
    (searched : List (JsString × List (MessageRecord D S))) : Prop :=
  ∀ e ∈ searched, ∀ m ∈ e.2, m.comparable cosine query

instance (cosine : List S → List S → Option S) (query : List S)
    (searched : List (JsString × List (MessageRecord D S))) :
    Decidable (AllComparable cosine query searched) :=
  inferInstanceAs (Decidable (∀ e ∈ searched, ∀ m ∈ e.2, m.comparable cosine query))

/-- What is recalled at the scope of a resource is not cut off by messages of others: one of the
    organization's own makes a comparison throw; or none at all does, and of the best messages those
    of the organization are the best of its own. -/
def RecallClear (s : Storage D S) (cosine : List S → List S → Option S) (p : JsString)
    (threadId : JsString) (query : List S) (opts : RecallOptions D S) : Prop :=
  let searched := s.searched threadId opts.resourceId
  ¬AllComparable cosine query (searched.filter fun e => under p e.1) ∨
    AllComparable cosine query searched ∧
      RankClear p (opts.topK.getD 3) (s.ranked cosine threadId query opts)

end Recall

section Picks

variable {p : JsString} {opts : RecallOptions D S}

/-- What is picked of the organization. -/
def Picked.of (p : JsString) (picked : Picked D S) : Picked D S :=
  picked.filterKeys fun k => under p k.1

/-- What is the organization's is picked from its threads. -/
def Picked.Ok (p : JsString) (picked : Picked D S) : Prop :=
  ∀ e ∈ picked.entries, under p e.2.threadId → under p e.1.1

variable {picked : Picked D S}

theorem Picked.put_ok (h : picked.Ok p) {m : MessageRecord D S} {tid : JsString}
    (hm : under p m.threadId → under p tid) (seq : ℤ) :
    Picked.Ok p (picked.put (tid, seq) m) :=
  OrderedMap.forall_put h hm

theorem Picked.put_congr {picked' : Picked D S} (h : picked.of p = picked'.of p) (k : JsString × ℤ)
    (m : MessageRecord D S) :
    Picked.of p (picked.put k m) = Picked.of p (picked'.put k m) := by
  unfold Picked.of at h ⊢
  by_cases hk : under p k.1
  · rw [OrderedMap.filterKeys_put_of_pos picked hk, OrderedMap.filterKeys_put_of_pos picked' hk, h]
  · rw [OrderedMap.filterKeys_put_of_neg picked hk, OrderedMap.filterKeys_put_of_neg picked' hk, h]

theorem Picked.put_other (picked : Picked D S) {tid : JsString} (h : ¬under p tid) (seq : ℤ)
    (m : MessageRecord D S) : Picked.of p (picked.put (tid, seq) m) = picked.of p :=
  OrderedMap.filterKeys_put_of_neg picked h m

theorem Picked.hit_congr {picked' : Picked D S} (h : picked.of p = picked'.of p)
    (c : Candidate D S) : (picked.hit c).of p = (picked'.hit c).of p :=
  Picked.put_congr h _ _

theorem Picked.hit_other (picked : Picked D S) {c : Candidate D S} (h : ¬c.own p) :
    (picked.hit c).of p = picked.of p :=
  Picked.put_other picked h _ _

theorem Picked.hit_ok (h : picked.Ok p) {c : Candidate D S} (hc : c.Ok p) :
    (picked.hit c).Ok p :=
  Picked.put_ok (m := { c.m with score := some c.score }) h hc.m c.m.seq

section Around

variable {before after : ℕ}

theorem Picked.around_congr {picked picked' : Picked D S} (h : picked.of p = picked'.of p)
    (c : Candidate D S) :
    (Picked.around before after picked c).of p = (Picked.around before after picked' c).of p := by
  rw [Picked.around, Picked.around]
  generalize (c.rows.take (c.idx + after + 1)).drop (c.idx - before) = rows
  induction rows generalizing picked picked' with
  | nil => exact h
  | cons m rows ih => exact ih (Picked.put_congr h _ m)

theorem Picked.around_other (picked : Picked D S) {c : Candidate D S} (h : ¬c.own p) :
    (Picked.around before after picked c).of p = picked.of p := by
  rw [Picked.around]
  generalize (c.rows.take (c.idx + after + 1)).drop (c.idx - before) = rows
  induction rows generalizing picked with
  | nil => rfl
  | cons m rows ih =>
    rw [foldl_cons, ih]
    exact Picked.put_other picked h m.seq m

theorem Picked.around_ok {picked : Picked D S} (h : picked.Ok p) {c : Candidate D S}
    (hc : c.Ok p) : (Picked.around before after picked c).Ok p := by
  rw [Picked.around]
  have hrows : ∀ m ∈ (c.rows.take (c.idx + after + 1)).drop (c.idx - before),
      under p m.threadId → under p c.tid :=
    fun m hm => hc.rows m (mem_of_mem_take (mem_of_mem_drop hm))
  revert hrows
  generalize (c.rows.take (c.idx + after + 1)).drop (c.idx - before) = rows
  intro hrows
  induction rows generalizing picked with
  | nil => exact h
  | cons m rows ih =>
    obtain ⟨hm, hrows⟩ := forall_mem_cons.1 hrows
    exact ih (Picked.put_ok h hm m.seq) hrows

end Around

/-- The messages that are picked for hits. -/
def pickedFor (opts : RecallOptions D S) (hits : List (Candidate D S)) : Picked D S :=
  hits.foldl Picked.hit (hits.foldl (Picked.around opts.before opts.after) .empty)

theorem pickedFor_of (opts : RecallOptions D S) (hits : List (Candidate D S)) :
    (pickedFor opts hits).of p = (pickedFor opts (hits.filter (·.own p))).of p := by
  have haround : (hits.foldl (Picked.around opts.before opts.after) .empty).of p =
      ((hits.filter (·.own p)).foldl (Picked.around opts.before opts.after) .empty).of p := by
    refine foldl_filter (Picked.of p) (fun _ _ c h => Picked.around_congr h c) ?_ hits _
    exact fun picked c hc => Picked.around_other picked hc
  have hcongr : ∀ (hits : List (Candidate D S)) (picked picked' : Picked D S),
      picked.of p = picked'.of p → (hits.foldl Picked.hit picked).of p =
        (hits.foldl Picked.hit picked').of p := by
    intro hits
    induction hits with
    | nil => exact fun _ _ h => h
    | cons c hits ih => exact fun _ _ h => ih _ _ (Picked.hit_congr h c)
  rw [pickedFor, pickedFor, ← hcongr _ _ _ haround]
  refine foldl_filter (Picked.of p) (fun _ _ c h => Picked.hit_congr h c) ?_ hits _
  exact fun picked c hc => Picked.hit_other picked hc

theorem pickedFor_ok {hits : List (Candidate D S)} (h : ∀ c ∈ hits, c.Ok p) :
    (pickedFor opts hits).Ok p := by
  have haround : (hits.foldl (Picked.around opts.before opts.after) .empty).Ok p := by
    refine List.foldlRecOn hits _ (fun _ he => absurd he not_mem_nil) ?_
    exact fun picked hpicked c hc => Picked.around_ok hpicked (h c hc)
  refine List.foldlRecOn hits _ haround ?_
  exact fun picked hpicked c hc => Picked.hit_ok hpicked (h c hc)

/-- What an organization gets of the hits is what it gets of its own. -/
theorem recalled_own {hits : List (Candidate D S)} (h : ∀ c ∈ hits, c.Ok p) :
    (recalled opts hits).filterMap (·.out p) =
      (recalled opts (hits.filter (·.own p))).filterMap (·.out p) := by
  have htrans : IsTrans (MessageRecord D S) MessageRecord.earlier := by
    refine ⟨fun a b c hab hbc => ?_⟩
    unfold MessageRecord.earlier at *
    omega
  have htotal : Std.Total (MessageRecord.earlier (D := D) (S := S)) := by
    refine ⟨fun a b => ?_⟩
    unfold MessageRecord.earlier
    omega
  have horder : ∀ a b a' b' : MessageRecord D S, a.out p = some a' → b.out p = some b' →
      (a.earlier b ↔ a'.earlier b') := by
    intro a b a' b' ha hb
    obtain ⟨threadId, -, rfl⟩ := Option.map_eq_some_iff.1 ha
    obtain ⟨threadId', -, rfl⟩ := Option.map_eq_some_iff.1 hb
    rfl
  have hof {hits : List (Candidate D S)} (h : ∀ c ∈ hits, c.Ok p) :
      (recalled opts hits).filterMap (·.out p) =
        ((((pickedFor opts hits).of p).entries.map Prod.snd).filterMap (·.out p)).insertionSort
          MessageRecord.earlier := by
    change (((pickedFor opts hits).entries.map Prod.snd).insertionSort
      MessageRecord.earlier).filterMap _ = _
    rw [filterMap_insertionSort horder]
    congr 1
    change _ = (((pickedFor opts hits).entries.filter fun e => under p e.1.1).map
      Prod.snd).filterMap _
    rw [filterMap_map, filterMap_map, filterMap_filter]
    refine filterMap_congr fun e he => ?_
    split
    · rfl
    · next hunder =>
      rw [Function.comp_apply, MessageRecord.out,
        afterPrefix_of_not_under fun hm => hunder (pickedFor_ok h e he hm), Option.map_none]
  rw [hof h, hof fun c hc => h c (mem_of_mem_filter hc), pickedFor_of]

end Picks

section Recalled

variable [LinearOrder S] [Zero S] {cosine : List S → List S → Option S} {o : OrgId}
  {s s' : Storage D S} {threadId : JsString} {query : List S} {opts : RecallOptions D S}

theorem recall_eq (hnorm : hasNorm query) :
    (AllComparable cosine query (s.searched threadId opts.resourceId) →
      s.recall cosine threadId query opts =
        some (recalled opts ((s.ranked cosine threadId query opts).take (opts.topK.getD 3)))) ∧
    (¬AllComparable cosine query (s.searched threadId opts.resourceId) →
      s.recall cosine threadId query opts = none) := by
  have hall : ((s.searched threadId opts.resourceId).all fun e =>
      e.2.all (·.comparable cosine query)) = true ↔
        AllComparable cosine query (s.searched threadId opts.resourceId) := by
    simp only [all_eq_true, AllComparable]
  rw [Storage.recall, if_pos hnorm, ← hall]
  exact ⟨fun h => if_pos h, fun h => if_neg h⟩

theorem recall_same (h : Same o s s') (hs : Consistent o s) (hs' : Consistent o s')
    (hclear : hasNorm query → opts.resourceId.isSome →
      RecallClear s cosine o.pre (o.pre ++ threadId) query opts)
    (hclear' : hasNorm query → opts.resourceId.isSome →
      RecallClear s' cosine o.pre (o.pre ++ threadId) query opts) :
    ((s.recall cosine (o.pre ++ threadId) query opts).map fun ms => ms.filterMap (·.out o.pre)) =
      (s'.recall cosine (o.pre ++ threadId) query opts).map fun ms =>
        ms.filterMap (·.out o.pre) := by
  by_cases hnorm : hasNorm query
  · rcases hres : opts.resourceId with _ | resourceId
    · -- One thread is searched, and it is the organization's.
      rw [Storage.recall, Storage.recall, Storage.ranked, Storage.ranked, hres, Storage.searched,
        Storage.searched, get_of_same h.messages]
    · have hsome : opts.resourceId.isSome := by
        rw [hres]
        rfl
      have hown := searched_same h (o.pre ++ threadId) hsome
      have hthrows {s : Storage D S} (hnot : ¬AllComparable cosine query
          ((s.searched (o.pre ++ threadId) opts.resourceId).filter fun e => under o.pre e.1)) :
          s.recall cosine (o.pre ++ threadId) query opts = none :=
        (recall_eq hnorm).2 fun hall => hnot fun e he => hall e (mem_of_mem_filter he)
      have hok {s : Storage D S} (hs : Consistent o s) :
          ∀ c ∈ (s.ranked cosine (o.pre ++ threadId) query opts).take (opts.topK.getD 3),
            c.Ok o.pre := by
        intro c hc
        have hc := mem_of_mem_filter ((mem_insertionSort _).1 (mem_of_mem_take hc))
        obtain ⟨⟨tid, rows⟩, he, hc⟩ := mem_flatMap.1 hc
        rw [hres] at he
        have he := mem_of_mem_filter he
        obtain ⟨rfl, rfl, hm⟩ := mem_candidatesIn hc
        exact ⟨hs.messages _ he _ hm, hs.messages _ he⟩
      rcases hclear hnorm hsome with hnot | ⟨hall, hrank⟩
      · rw [hthrows hnot, hthrows (hown ▸ hnot)]
      · rcases hclear' hnorm hsome with hnot | ⟨hall', hrank'⟩
        · rw [hthrows hnot, hthrows (hown ▸ hnot)]
        · rw [(recall_eq hnorm).1 hall, (recall_eq hnorm).1 hall', Option.map_some, Option.map_some,
            recalled_own (hok hs), recalled_own (hok hs'), filter_take hrank, filter_take hrank',
            ranked_same h _ hsome]
  · rw [Storage.recall, Storage.recall, if_neg hnorm, if_neg hnorm]

end Recalled

/-! ## What an organization is told -/

/-- The documents of an organization. -/
theorem queryVectors_same [LinearOrder S] [Zero S] {cosine : List S → List S → Option S}
    {items items' : List (VectorItem D S)} {ns : JsString}
    (h : items.filter (·.namespaceOf = some ns) = items'.filter (·.namespaceOf = some ns))
    (embedding : List S) (topK : ℕ) (visibleTo : Option JsString) (keeps : D → Bool) :
    queryVectors cosine items ns embedding topK visibleTo keeps =
      queryVectors cosine items' ns embedding topK visibleTo keeps := by
  have hfilter (items : List (VectorItem D S)) : items.filter (fun it => it.namespaceOf = some ns &&
        visibleToSubject it (visibleScope visibleTo) && keeps it.rest) =
      (items.filter (·.namespaceOf = some ns)).filter fun it =>
        visibleToSubject it (visibleScope visibleTo) && keeps it.rest := by
    rw [filter_filter]
    refine filter_congr fun it _ => ?_
    rw [Bool.and_assoc, Bool.and_comm]
  rw [queryVectors, queryVectors, hfilter items, h, ← hfilter items']

section Told

variable [DecidableEq D] [LinearOrder S] [Zero S] {cosine : List S → List S → Option S} {o : OrgId}
  {s s' : Storage D S}

/-- What is asked for is not cut off by the rows of others: a page has all there is, and so do the
    best messages of a resource. -/
def Clear (s : Storage D S) (cosine : List S → List S → Option S) (o : OrgId) : StorageRead D S → Prop
  | .listRuns q page => PageClear ((listRuns s.runs.store).filter q.keeps) (·.own o.pre) page
  | .listThreads resourceId page => PageClear (s.listThreads resourceId) (·.out o.pre) page
  | .recall threadId query opts => hasNorm query → opts.resourceId.isSome →
      RecallClear s cosine o.pre (o.pre ++ threadId) query opts
  | _ => True

/-- What an organization is told does not depend on what the others have. -/
theorem no_influence (h : Same o s s') (hs : Consistent o s) (hs' : Consistent o s')
    (r : StorageRead D S) (hclear : Clear s cosine o r) (hclear' : Clear s' cosine o r) :
    s.read cosine o r = s'.read cosine o r := by
  cases r with
  | journal op now => exact congrArg StorageAnswer.journal (h.runs.viewPerform now op)
  | readRun runId => exact congrArg StorageAnswer.entries (h.runs.readRun runId)
  | listRuns q page =>
    refine congrArg StorageAnswer.runs ?_
    rw [drainOwned_clear hclear, drainOwned_clear hclear', filterMap_own_filter,
      filterMap_own_filter, h.runs.listRuns]
  | getThread id => rw [Storage.read, Storage.read, get_of_same h.threads]
  | listThreads resourceId page =>
    refine congrArg StorageAnswer.threads ?_
    rw [drainOwned_clear hclear, drainOwned_clear hclear', listThreads_same h hs hs']
  | getMessages threadId page => rw [Storage.read, Storage.read, get_of_same h.messages]
  | «recall» threadId query opts =>
    exact congrArg StorageAnswer.recalled (recall_same h hs hs' hclear hclear')
  | getWorkingMemory scopeId => rw [Storage.read, Storage.read, get_of_same h.wm]
  | getObservations threadId => rw [Storage.read, Storage.read, get_of_same h.obs]
  | workList ns page => rw [Storage.read, Storage.read, get_of_same h.logs]
  | workGet key => rw [Storage.read, Storage.read, get_of_same h.kv]
  | cacheGet key now => rw [Storage.read, Storage.read, get_of_same h.cache]
  | queryVectors embedding topK visibleTo keeps =>
    rw [Storage.read, Storage.read, queryVectors_same h.vectors]
  | metaGet key => rw [Storage.read, Storage.read, get_of_same h.metas]

end Told

/-! ## Writes -/

/-- What comes with a message. -/
structure MessageData (D S : Type) where
  ts : ℤ
  embedding : Option (List S)
  rest : D

/-- The rows one by one, from the position `next` on. A row whose position is taken is passed
    over. -/
def appendRows (threadId : JsString) : List (MessageAppend (MessageData D S)) → (next : ℤ) →
    List (MessageRecord D S) → List (MessageRecord D S)
  | [], _, log => log
  | ⟨seq, m⟩ :: rows, next, log =>
    let next' := if seq.isSome then next else next + 1
    if log.any (·.seq = seq.getD next) then appendRows threadId rows next' log
    else appendRows threadId rows next'
      (log ++ [⟨threadId, seq.getD next, m.ts, m.embedding, m.rest, none⟩])

/-- A thread id, without the prefix of an organization. -/
def bareThreadId (threadId : JsString) : JsString :=
  match afterPrefix (js "org:") threadId with
  | none => threadId
  | some rest =>
    match rest.span (· ≠ sep) with
    | ([], _) | (_, []) => threadId
    | (_ :: _, _ :: bare) => bare

/-- Where the working memory of a thread was in an earlier version. -/
def legacyWorkingMemoryScope (threadId : JsString) : Option JsString :=
  let bare := bareThreadId threadId
  if bare.startsWith (js "thread:") || bare.startsWith (js "resource:") ||
      bare.startsWith (js "res:") then none
  else some threadId

/-- What is written to the threads and messages. A port of an organization does the same, with its
    prefix before the ids. -/
inductive MemoryWrite (D S : Type) where
  | upsertThread (rec : ThreadRecord D)
  | deleteThread (id : JsString) (now : ℤ)
  | appendMessages (threadId : JsString) (rows : List (MessageAppend (MessageData D S)))
  | deleteMessagesAfter (threadId : JsString) (afterSeq : ℤ)

def Storage.write (s : Storage D S) : MemoryWrite D S → Storage D S
  | .upsertThread rec => { s with threads := s.threads.put rec.id rec }
  | .deleteThread id now =>
    { s with
      threads := match s.threads.get id with
        | some t => s.threads.put id { t with deletedAt := some now }
        | none => s.threads
      messages := s.messages.filterKeys (· ≠ id)
      wm := s.wm.filterKeys fun k => k ≠ js "thread:" ++ id && legacyWorkingMemoryScope id ≠ some k
      obs := s.obs.filterKeys (· ≠ id) }
  | .appendMessages threadId rows =>
    match assertUniformSeq rows with
    | .error _ => s
    | .ok _ =>
      let log := (s.messages.get threadId).getD []
      let next := log.foldl (fun n m => max n (m.seq + 1)) 0
      let log := (appendRows threadId rows next log).insertionSort fun a b => a.seq ≤ b.seq
      { s with messages := s.messages.put threadId log }
  | .deleteMessagesAfter threadId afterSeq =>
    match s.messages.get threadId with
    | none => s
    | some log => { s with messages := s.messages.put threadId (log.filter (·.seq ≤ afterSeq)) }

section Kept

variable {o : OrgId} {s : Storage D S}

theorem Consistent.put_thread (h : Consistent o s) {k : JsString} {t : ThreadRecord D}
    (ht : under o.pre t.id → under o.pre k) : Consistent o { s with threads := s.threads.put k t } :=
  ⟨OrderedMap.forall_put h.threads ht, h.messages⟩

theorem Consistent.put_messages (h : Consistent o s) {k : JsString} {rows : List (MessageRecord D S)}
    (hrows : ∀ m ∈ rows, under o.pre m.threadId → under o.pre k) :
    Consistent o { s with messages := s.messages.put k rows } :=
  ⟨h.threads, OrderedMap.forall_put h.messages hrows⟩

theorem Consistent.log (h : Consistent o s) (k : JsString) :
    ∀ m ∈ (s.messages.get k).getD [], under o.pre m.threadId → under o.pre k := by
  rcases hget : s.messages.get k with _ | log
  · exact fun m hm => absurd hm not_mem_nil
  · exact h.messages _ (OrderedMap.mem_entries_iff.2 hget)

theorem mem_appendRows {threadId : JsString} {rows : List (MessageAppend (MessageData D S))}
    {next : ℤ} {log : List (MessageRecord D S)} {m : MessageRecord D S}
    (hm : m ∈ appendRows threadId rows next log) : m ∈ log ∨ m.threadId = threadId := by
  induction rows generalizing next log with
  | nil => exact .inl hm
  | cons row rows ih =>
    rw [appendRows] at hm
    split at hm
    · exact ih hm
    · rcases ih hm with hm | hm
      · rcases mem_append.1 hm with hm | hm
        · exact .inl hm
        · rw [mem_singleton.1 hm]
          exact .inr rfl
      · exact .inr hm

/-- A write keeps threads and messages under the prefix of their organization. -/
theorem Consistent.write (h : Consistent o s) (w : MemoryWrite D S) : Consistent o (s.write w) := by
  cases w with
  | upsertThread rec => exact h.put_thread id
  | deleteThread id now =>
    have hthreads : Consistent o { s with threads := match s.threads.get id with
        | some t => s.threads.put id { t with deletedAt := some now }
        | none => s.threads } := by
      rcases hget : s.threads.get id with _ | t
      · exact h
      · exact h.put_thread (h.threads _ (OrderedMap.mem_entries_iff.2 hget))
    exact ⟨hthreads.threads, fun e he => h.messages e (mem_of_mem_filter he)⟩
  | appendMessages threadId rows =>
    rw [Storage.write]
    split
    · exact h
    · refine h.put_messages fun m hm => ?_
      rcases mem_appendRows ((mem_insertionSort _).1 hm) with hm | rfl
      · exact h.log threadId m hm
      · exact id
  | deleteMessagesAfter threadId afterSeq =>
    rw [Storage.write]
    split
    · exact h
    · next log hget =>
      refine h.put_messages fun m hm => ?_
      exact h.messages _ (OrderedMap.mem_entries_iff.2 hget) m (mem_of_mem_filter hm)

/-- So they are in every storage that is written to from the beginning. -/
theorem consistent_writes (hthreads : s.threads = .empty) (hmessages : s.messages = .empty)
    (ws : List (MemoryWrite D S)) : Consistent o (ws.foldl Storage.write s) := by
  have hempty : Consistent o s := by
    refine ⟨fun e he => ?_, fun e he => ?_⟩
    · rw [hthreads] at he
      exact absurd he not_mem_nil
    · rw [hmessages] at he
      exact absurd he not_mem_nil
  exact List.foldlRecOn ws _ hempty fun _ hs w _ => hs.write w

end Kept

/-! ## Two storages -/

/-- A thread of a user, with one message. -/
def writeThread (id : JsString) (embedding : List ℤ) : List (MemoryWrite Unit ℤ) :=
  [.upsertThread ⟨id, js "u", none, 0, none, ()⟩,
    .appendMessages id [⟨none, ⟨0, some embedding, ()⟩⟩]]

def emptyStorage : Storage Unit ℤ :=
  ⟨.empty, .empty, .empty, .empty, .empty, [], .empty, .empty, .empty, .empty⟩

/-- Only one organization has a thread of the user. -/
def alone : Storage Unit ℤ := (writeThread (js "org:acme:t") [1]).foldl Storage.write emptyStorage

/-- Another one has, too. -/
def shared (embedding : List ℤ) : Storage Unit ℤ :=
  (writeThread (js "org:acme2:t") embedding ++ writeThread (js "org:acme:t") [1]).foldl
    Storage.write emptyStorage

/-- The similarity of vectors of norm 1. -/
def dot (v w : List ℤ) : Option ℤ :=
  if v.length = w.length then some (List.zipWith (· * ·) v w).sum else none

/-- The messages of the user that are most similar. -/
def recallUser (topK : ℕ) : StorageRead Unit ℤ :=
  .recall (js "t") [1] ⟨some topK, none, 0, 0, fun _ => true, some (js "u")⟩

theorem same_alone_shared (embedding : List ℤ) : Same acme alone (shared embedding) where
  runs := ⟨rfl, fun _ => rfl, rfl⟩
  threads := OrderedMap.ext rfl
  messages := OrderedMap.ext rfl
  wm := OrderedMap.ext rfl
  obs := OrderedMap.ext rfl
  vectors := rfl
  logs := OrderedMap.ext rfl
  kv := OrderedMap.ext rfl
  cache := OrderedMap.ext rfl
  metas := OrderedMap.ext rfl

theorem no_influence_two :
    Clear alone dot acme (recallUser 2) ∧ Clear (shared [1]) dot acme (recallUser 2) ∧
      alone.read dot acme (recallUser 2) = (shared [1]).read dot acme (recallUser 2) := by
  have halone : Clear alone dot acme (recallUser 2) := fun _ _ =>
    .inr ⟨by decide +kernel, .inr (by decide)⟩
  have hshared : Clear (shared [1]) dot acme (recallUser 2) := fun _ _ =>
    .inr ⟨by decide +kernel, .inr (by decide)⟩
  exact ⟨halone, hshared, no_influence (same_alone_shared _) (consistent_writes rfl rfl _)
    (consistent_writes rfl rfl _) (recallUser 2) halone hshared⟩

/-- The best message is the one of the other organization, which is left out then; and one with a
    longer embedding makes the call of the organization throw. -/
theorem recall_influenced :
    (∀ e, Same acme alone (shared e) ∧ Consistent acme alone ∧ Consistent acme (shared e)) ∧
      alone.read dot acme (recallUser 1) ≠ (shared [1]).read dot acme (recallUser 1) ∧
      alone.read dot acme (recallUser 2) ≠ (shared [1, 0]).read dot acme (recallUser 2) := by
  refine ⟨fun e => ⟨same_alone_shared e, consistent_writes rfl rfl _, consistent_writes rfl rfl _⟩,
    fun h => ?_, fun h => ?_⟩
  · have hrecalled := StorageAnswer.recalled.inj h
    revert hrecalled
    decide
  · have hrecalled := StorageAnswer.recalled.inj h
    revert hrecalled
    decide

end Gnldev.Durable
