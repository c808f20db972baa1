import Gnldev.Lib.JsString
import Gnldev.Lib.OrderedMap
import Mathlib.Algebra.Order.Field.Rat
import Mathlib.Algebra.BigOperators.Group.List.Basic
import Mathlib.Algebra.Order.BigOperators.Group.List

/-!
# The comparison of two experiments

An experiment (`dataset.ts`) has the scores of each case, none if the case has failed, and
the averages of the scorers, a missing score counted as 0. The comparison
(`datasets-manager.ts`) goes through the scores that the candidate's case *has*: what the
baseline scored and the candidate did not is no change of it. `compare_reports_iff` says
when nothing is missed that way; then the changes of a scorer add up to its average's.

Scores are exact. The order of the changes of one delta is that in which scores were set.
-/

open List

namespace Gnldev.Evals

/-! ## Experiments -/

/-- A case with its scores. -/
structure EvalCaseResult where
  caseId : JsString
  scores : OrderedMap JsString ℚ

/-- `c.scores[scorer]?.score ?? 0`. -/
def EvalCaseResult.score (c : EvalCaseResult) (scorer : JsString) : ℚ := (c.scores.get scorer).getD 0

structure EvalDatasetResult where
  cases : List EvalCaseResult
  aggregate : OrderedMap JsString ℚ

/-- A scorer, of samples in `X`; it may throw. -/
structure Scorer (X : Type) where
  name : JsString
  score : X → Option ℚ

/-- What an experiment is run with: the ids of its cases, and what an attempt to run one gives. -/
structure EvalDatasetOptions (X : Type) where
  cases : List JsString
  run : JsString → ℕ → Option X
  scorers : List (Scorer X)
  maxRetries : ℕ

variable {X Y : Type}

/-- `o[name] = v`, where that of `__proto__` makes no key. -/
def setKey {V : Type} (o : OrderedMap JsString V) (name : JsString) (v : V) : OrderedMap JsString V :=
  if name = js "__proto__" then o else o.put name v

/-- An attempt fails, or gives every score. -/
def attemptCase (o : EvalDatasetOptions X) (id : JsString) (attempt : ℕ) :
    Option (OrderedMap JsString ℚ) :=
  (o.run id attempt).bind fun x =>
    o.scorers.foldlM (fun scores s => (s.score x).map (setKey scores s.name)) OrderedMap.empty

/-- The first attempt that succeeds. A case that the journal holds was evaluated so before. -/
def evalCase (o : EvalDatasetOptions X) (id : JsString) : EvalCaseResult :=
  ⟨id, ((List.range (1 + o.maxRetries)).findSome? (attemptCase o id)).getD OrderedMap.empty⟩

/-- The average of a scorer; that of no cases is 0. -/
def average (cases : List EvalCaseResult) (scorer : JsString) : ℚ :=
  (cases.map (·.score scorer)).sum / cases.length

def evalDataset (o : EvalDatasetOptions X) : EvalDatasetResult :=
  let cases := o.cases.map (evalCase o)
  ⟨cases, o.scorers.foldl (fun m s => setKey m s.name (average cases s.name)) OrderedMap.empty⟩

/-! ## The comparison -/

/-- What every object has, unless it has its own. -/
def OBJECT_PROTOTYPE : List JsString :=
  [js "constructor", js "__defineGetter__", js "__defineSetter__", js "hasOwnProperty",
    js "__lookupGetter__", js "__lookupSetter__", js "isPrototypeOf", js "propertyIsEnumerable",
    js "toString", js "valueOf", js "__proto__", js "toLocaleString"]

/-- `aggregate[name] ?? 0`, if that is a number. -/
def readNumber (m : OrderedMap JsString ℚ) (name : JsString) : Option ℚ :=
  match m.get name with
  | some v => some v
  | none => if name ∈ OBJECT_PROTOTYPE then none else some 0

/-- The difference of two averages; `none` is no number. -/
structure AggregateDiff where
  baseline : Option ℚ
  candidate : Option ℚ
  delta : Option ℚ

/-- A score that has changed. -/
structure Change where
  caseId : JsString
  scorer : JsString
  baseline : ℚ
  candidate : ℚ
  delta : ℚ

structure ExperimentDiff where
  aggregate : OrderedMap JsString AggregateDiff
  changes : List Change
  regressions : ℕ
  improvements : ℕ

/-- The difference of the averages of a scorer. -/
def diffOf (base cand : EvalDatasetResult) (name : JsString) : AggregateDiff :=
  let b := readNumber base.aggregate name
  let c := readNumber cand.aggregate name
  ⟨b, c, c.bind fun c => b.map (c - ·)⟩

/-- `baseCases.get(id)`. -/
def baseCase (base : EvalDatasetResult) (id : JsString) : Option EvalCaseResult :=
  base.cases.reverse.find? (·.caseId = id)

/-- The change of a score, if there is one. -/
def changeOf (bc cc : EvalCaseResult) (scorer : JsString) : Option Change :=
  if bc.score scorer ≠ cc.score scorer then
    some ⟨cc.caseId, scorer, bc.score scorer, cc.score scorer, cc.score scorer - bc.score scorer⟩
  else none

/-- The changes of a case of the candidate: of the scores it has. -/
def changesOf (base : EvalDatasetResult) (cc : EvalCaseResult) : List Change :=
  match baseCase base cc.caseId with
  | none => []
  | some bc => (cc.scores.entries.map Prod.fst).filterMap (changeOf bc cc)

def compare (base cand : EvalDatasetResult) : ExperimentDiff :=
  let names := (base.aggregate.entries ++ cand.aggregate.entries).map Prod.fst
  let changes := (cand.cases.flatMap (changesOf base)).mergeSort (·.delta ≤ ·.delta)
  { aggregate := names.foldl (fun m name => setKey m name (diffOf base cand name)) OrderedMap.empty
    changes
    regressions := changes.countP (·.delta < 0)
    improvements := changes.countP (0 < ·.delta) }

/-! ## What a recorded experiment is -/

section Recorded

/-- The averages are those of the cases, and every score has its average; `__proto__` has none. -/
structure EvalDatasetResult.Recorded (e : EvalDatasetResult) : Prop where
  aggregate_eq {s : JsString} {v : ℚ} (h : e.aggregate.get s = some v) : v = average e.cases s
  named {c : EvalCaseResult} (hc : c ∈ e.cases) {s : JsString} (h : (c.scores.get s).isSome) :
    (e.aggregate.get s).isSome
  no_proto : e.aggregate.get (js "__proto__") = none

theorem get_setKey {V : Type} (m : OrderedMap JsString V) (name s : JsString) (v : V) :
    (setKey m name v).get s = if s = name ∧ s ≠ js "__proto__" then some v else m.get s := by
  rw [setKey]
  by_cases hproto : name = js "__proto__"
  · rw [if_pos hproto, if_neg fun h => h.2 (h.1.trans hproto)]
  rw [if_neg hproto]
  by_cases hs : s = name
  · rw [hs, OrderedMap.get_put_self, if_pos ⟨rfl, hproto⟩]
  · rw [OrderedMap.get_put_of_ne _ hs, if_neg fun h => hs h.1]

theorem get_foldl_setKey {A : Type} (name : A → JsString) {V : Type} (f : JsString → V) (l : List A)
    (m : OrderedMap JsString V) (s : JsString) :
    (l.foldl (fun m a => setKey m (name a) (f (name a))) m).get s =
      if s ∈ l.map name ∧ s ≠ js "__proto__" then some (f s) else m.get s := by
  induction l generalizing m with
  | nil => simp
  | cons a l ih =>
    rw [foldl_cons, ih, get_setKey, map_cons]
    by_cases ha : s = name a
    · subst ha
      by_cases hproto : name a = js "__proto__" <;> simp [hproto]
    · simp [ha]

theorem mem_names_of_foldlM {x : X} {l : List (Scorer X)} {m m' : OrderedMap JsString ℚ}
    (h : l.foldlM (fun scores s => (s.score x).map (setKey scores s.name)) m = some m')
    {s : JsString} (hs : (m'.get s).isSome) :
    s ∈ l.map Scorer.name ∧ s ≠ js "__proto__" ∨ (m.get s).isSome := by
  induction l generalizing m with
  | nil =>
    obtain rfl := Option.some.inj h
    exact .inr hs
  | cons a l ih =>
    rw [foldlM_cons, Option.bind_eq_bind, Option.bind_eq_some_iff] at h
    obtain ⟨m₁, hm₁, hrest⟩ := h
    obtain ⟨v, -, rfl⟩ := Option.map_eq_some_iff.1 hm₁
    rcases ih hrest with ⟨hmem, hproto⟩ | hmem
    · exact .inl ⟨.tail _ hmem, hproto⟩
    rw [get_setKey] at hmem
    split at hmem
    · next ha => exact .inl ⟨ha.1 ▸ mem_cons_self .., ha.2⟩
    · exact .inr hmem

theorem recorded_evalDataset (o : EvalDatasetOptions X) : (evalDataset o).Recorded where
  aggregate_eq {s v} h := by
    rw [evalDataset, get_foldl_setKey Scorer.name (average _)] at h
    split at h
    · exact (Option.some.inj h).symm
    · cases h
  no_proto := by
    rw [evalDataset, get_foldl_setKey Scorer.name (average _), if_neg fun h => h.2 rfl]
    rfl
  named {c} hc {s} h := by
    obtain ⟨id, -, rfl⟩ := mem_map.1 hc
    rw [evalDataset, get_foldl_setKey Scorer.name (average _)]
    dsimp only [evalCase] at h
    rcases hattempt : (List.range (1 + o.maxRetries)).findSome? (attemptCase o id) with _ | scores
    · rw [hattempt] at h
      cases h
    · obtain ⟨n, -, hn⟩ := exists_of_findSome?_eq_some hattempt
      obtain ⟨x, -, hx⟩ := Option.bind_eq_some_iff.1 hn
      rw [hattempt] at h
      rw [if_pos ((mem_names_of_foldlM hx h).resolve_right (by simp [OrderedMap.get, OrderedMap.empty]))]
      rfl

end Recorded

/-! ## What is reported -/

section Compare

variable (base cand : EvalDatasetResult)

/-- A scorer of one of the experiments. -/
def Named (s : JsString) : Prop := (base.aggregate.get s).isSome ∨ (cand.aggregate.get s).isSome

/-- Both ran the same cases. -/
def SameCases : Prop :=
  ∀ id, id ∈ base.cases.map EvalCaseResult.caseId ↔ id ∈ cand.cases.map EvalCaseResult.caseId

/-- For every case of both, the changes are exactly the scores that differ. -/
def ListsChanges : Prop :=
  ∀ bc ∈ base.cases, ∀ cc ∈ cand.cases, bc.caseId = cc.caseId → ∀ s, Named base cand s →
    ((∃ ch ∈ (compare base cand).changes, ch.caseId = cc.caseId ∧ ch.scorer = s) ↔
      bc.score s ≠ cc.score s)

/-- The changes of a scorer add up, and one that fell is among the regressions. -/
def AddsUp : Prop :=
  SameCases base cand → ∀ s, Named base cand s → ∃ e d,
    (compare base cand).aggregate.get s = some e ∧ e.delta = some d ∧
      d = ((((compare base cand).changes.filter (·.scorer = s)).map (·.delta)).sum /
        cand.cases.length) ∧
      (d < 0 → 0 < (compare base cand).regressions ∧
        ∃ ch ∈ (compare base cand).changes, ch.scorer = s ∧ ch.delta < 0)

/-- What the candidate has not scored was 0, or was not scored by the baseline either. -/
def Seen : Prop :=
  ∀ bc ∈ base.cases, ∀ cc ∈ cand.cases, bc.caseId = cc.caseId → ∀ s, Named base cand s →
    cc.scores.get s = none → bc.score s = 0

/-- A scorer with the name of something that every object has is one of both. -/
def NotInherited : Prop :=
  ∀ s ∈ OBJECT_PROTOTYPE, Named base cand s →
    (base.aggregate.get s).isSome ∧ (cand.aggregate.get s).isSome

variable {base cand}

variable {bc : EvalCaseResult}

theorem baseCase_of_mem (hb : (base.cases.map EvalCaseResult.caseId).Nodup) (h : bc ∈ base.cases) :
    baseCase base bc.caseId = some bc := by
  rcases hfind : baseCase base bc.caseId with _ | c
  · have hno := find?_eq_none.1 hfind bc (mem_reverse.2 h)
    simp at hno
  · have hc := mem_reverse.1 (mem_of_find?_eq_some hfind)
    have hid : c.caseId = bc.caseId := by simpa using find?_some hfind
    rw [inj_on_of_nodup_map hb hc h hid]

theorem mem_changes {ch : Change} : ch ∈ (compare base cand).changes ↔
    ∃ cc ∈ cand.cases, ∃ bc, baseCase base cc.caseId = some bc ∧
      ∃ s, (cc.scores.get s).isSome ∧ changeOf bc cc s = some ch := by
  have hkey (cc : EvalCaseResult) (s : JsString) :
      s ∈ cc.scores.entries.map Prod.fst ↔ (cc.scores.get s).isSome := by
    rw [mem_map, Option.isSome_iff_exists]
    constructor
    · rintro ⟨⟨s, v⟩, hmem, rfl⟩
      exact ⟨v, OrderedMap.mem_entries_iff.1 hmem⟩
    · rintro ⟨v, hv⟩
      exact ⟨(s, v), OrderedMap.mem_entries_iff.2 hv, rfl⟩
  unfold compare
  dsimp only
  rw [List.mem_mergeSort, mem_flatMap]
  refine exists_congr fun cc => and_congr_right fun _ => ?_
  rw [changesOf]
  rcases baseCase base cc.caseId with _ | bc
  · simp
  · dsimp only
    simp only [mem_filterMap, hkey, Option.some.injEq, exists_eq_left']

variable {s : JsString}

theorem changeOf_eq_some {cc : EvalCaseResult} {ch : Change} (h : changeOf bc cc s = some ch) : ch.caseId = cc.caseId ∧ ch.scorer = s ∧
      bc.score s ≠ cc.score s := by
  unfold changeOf at h
  split at h
  · next hne =>
    obtain rfl := Option.some.inj h
    exact ⟨rfl, rfl, hne⟩
  · cases h

/-- A change is listed if the candidate's case has the score. -/
theorem listed_iff (hb : (base.cases.map EvalCaseResult.caseId).Nodup)
    (hc : (cand.cases.map EvalCaseResult.caseId).Nodup) {cc : EvalCaseResult}
    (hbc : bc ∈ base.cases) (hcc : cc ∈ cand.cases) (hid : bc.caseId = cc.caseId) (s : JsString) :
    (∃ ch ∈ (compare base cand).changes, ch.caseId = cc.caseId ∧ ch.scorer = s) ↔
      (cc.scores.get s).isSome ∧ bc.score s ≠ cc.score s := by
  constructor
  · rintro ⟨ch, hch, hcase, rfl⟩
    obtain ⟨cc', hcc', bc', hbc', s, hs, hchange⟩ := mem_changes.1 hch
    obtain ⟨hcase', rfl, hne⟩ := changeOf_eq_some hchange
    obtain rfl := inj_on_of_nodup_map hc hcc' hcc (hcase'.symm.trans hcase)
    rw [← hid, baseCase_of_mem hb hbc] at hbc'
    obtain rfl := Option.some.inj hbc'
    exact ⟨hs, hne⟩
  · rintro ⟨hs, hne⟩
    refine ⟨_, mem_changes.2 ⟨cc, hcc, bc, hid ▸ baseCase_of_mem hb hbc, s, hs, if_pos hne⟩, rfl, rfl⟩

/-- The changes of a scorer among those of the scores of a case. -/
theorem sum_changeOf (bc cc : EvalCaseResult) (s : JsString) {l : List JsString} (hl : l.Nodup) :
    (((l.filterMap (changeOf bc cc)).filter (·.scorer = s)).map (·.delta)).sum =
      if s ∈ l then cc.score s - bc.score s else 0 := by
  induction l with
  | nil => rfl
  | cons t l ih =>
    obtain ⟨ht, hl⟩ := nodup_cons.1 hl
    rw [filterMap_cons]
    by_cases hts : t = s
    · subst hts
      rw [if_neg ht] at ih
      rw [if_pos (mem_cons_self ..), changeOf]
      split
      · next h =>
        split at h
        · cases h
        · next heq => rw [ih hl, not_not.1 heq, sub_self]
      · next h =>
        split at h
        · obtain rfl := Option.some.inj h
          simp [ih hl]
        · cases h
    · have hmem : s ∈ t :: l ↔ s ∈ l := by simp [Ne.symm hts]
      simp only [hmem]
      split
      · exact ih hl
      · next h =>
        rw [filter_cons_of_neg (by simpa [(changeOf_eq_some h).2.1] using hts)]
        exact ih hl

theorem sum_flatMap_changes (s : JsString) (g : EvalCaseResult → List Change)
    (f f' : EvalCaseResult → ℚ) {l : List EvalCaseResult}
    (h : ∀ c ∈ l, (((g c).filter (·.scorer = s)).map (·.delta)).sum = f c - f' c) :
    (((l.flatMap g).filter (·.scorer = s)).map (·.delta)).sum =
      (l.map f).sum - (l.map f').sum := by
  induction l with
  | nil => exact (sub_self 0).symm
  | cons c l ih =>
    rw [flatMap_cons, filter_append, map_append, List.sum_append,
      h c (mem_cons_self ..), ih fun c hc => h c (.tail _ hc), map_cons, map_cons,
      sum_cons, sum_cons, add_sub_add_comm]

/-- The score of a case, by its id. -/
def scoreById (e : EvalDatasetResult) (s id : JsString) : ℚ :=
  ((baseCase e id).map (·.score s)).getD 0

theorem sum_scoreById (hb : (base.cases.map EvalCaseResult.caseId).Nodup) (s : JsString) :
    ((base.cases.map EvalCaseResult.caseId).map (scoreById base s)).sum =
      (base.cases.map (·.score s)).sum := by
  rw [map_map]
  refine congrArg List.sum (map_congr_left fun c hc => ?_)
  rw [Function.comp_apply, scoreById, baseCase_of_mem hb hc]
  rfl

/-- Where nothing is missed, the changes of a scorer add up to the difference of the sums. -/
theorem sum_changes (hb : (base.cases.map EvalCaseResult.caseId).Nodup)
    (hc : (cand.cases.map EvalCaseResult.caseId).Nodup) (hsame : SameCases base cand)
    (hseen : Seen base cand) (hs : Named base cand s) :
    (((compare base cand).changes.filter (·.scorer = s)).map (·.delta)).sum =
      (cand.cases.map (·.score s)).sum - (base.cases.map (·.score s)).sum ∧
    base.cases.length = cand.cases.length := by
  have hperm := (perm_ext_iff_of_nodup hb hc).2 hsame
  have hlength := hperm.length_eq
  rw [length_map, length_map] at hlength
  refine ⟨?_, hlength⟩
  have hsort : (((compare base cand).changes.filter (·.scorer = s)).map (·.delta)).sum =
      (((cand.cases.flatMap (changesOf base)).filter (·.scorer = s)).map (·.delta)).sum :=
    (((List.mergeSort_perm _ _).filter _).map _).sum_eq
  have hbase : (base.cases.map (·.score s)).sum =
      (cand.cases.map fun cc => scoreById base s cc.caseId).sum := by
    rw [← sum_scoreById hb, (hperm.map _).sum_eq, map_map]
    rfl
  rw [hsort, hbase]
  refine sum_flatMap_changes s _ _ _ fun cc hcc => ?_
  obtain ⟨bc, hbc, hid⟩ := mem_map.1 ((hsame _).2 (mem_map_of_mem hcc))
  have hfound := baseCase_of_mem hb hbc
  rw [changesOf, scoreById, ← hid, hfound]
  dsimp only [Option.map_some, Option.getD_some]
  rw [sum_changeOf bc cc s cc.scores.nodup]
  split
  · rfl
  · next hmissing =>
    have hnone : cc.scores.get s = none := by
      rcases hget : cc.scores.get s with _ | v
      · rfl
      · exact absurd (mem_map_of_mem (OrderedMap.mem_entries_iff.2 hget)) hmissing
    rw [hseen bc hbc cc hcc hid s hs hnone, EvalCaseResult.score, hnone]
    exact (sub_self 0).symm

theorem aggregate_compare (hb : base.Recorded) (hc : cand.Recorded) (hs : Named base cand s) :
    (compare base cand).aggregate.get s = some (diffOf base cand s) := by
  have hkey {m : OrderedMap JsString ℚ} (h : (m.get s).isSome) : s ∈ m.entries.map Prod.fst := by
    obtain ⟨v, hv⟩ := Option.isSome_iff_exists.1 h
    exact mem_map_of_mem (f := Prod.fst) (OrderedMap.mem_entries_iff.2 hv)
  have hmem : s ∈ ((base.aggregate.entries ++ cand.aggregate.entries).map Prod.fst).map id := by
    rw [map_id, map_append, mem_append]
    exact hs.imp hkey hkey
  have hproto : s ≠ js "__proto__" := by
    rintro rfl
    rcases hs with hs | hs
    · rw [hb.no_proto] at hs
      cases hs
    · rw [hc.no_proto] at hs
      cases hs
  exact (get_foldl_setKey id (diffOf base cand) _ _ s).trans (if_pos ⟨hmem, hproto⟩)

/-- Where a number is read for a scorer, it is its average. -/
theorem readNumber_eq {e : EvalDatasetResult} (he : e.Recorded)
    (h : s ∈ OBJECT_PROTOTYPE → (e.aggregate.get s).isSome) :
    readNumber e.aggregate s = some (average e.cases s) := by
  rw [readNumber]
  rcases hget : e.aggregate.get s with _ | v
  · have hzero : (e.cases.map (·.score s)).sum = 0 := by
      refine List.sum_eq_zero fun x hx => ?_
      obtain ⟨c, hc, rfl⟩ := mem_map.1 hx
      rcases hscore : c.scores.get s with _ | v
      · rw [EvalCaseResult.score, hscore]
        rfl
      · have hsome := he.named hc (s := s) (by rw [hscore]; rfl)
        rw [hget] at hsome
        cases hsome
    rw [if_neg fun hmem => by simpa [hget] using h hmem, average, hzero, zero_div]
  · rw [he.aggregate_eq hget]

/-- What the comparison misses: what the candidate has not scored. And it cannot compare the
    averages of a scorer that one experiment has, if every object has something of its name. -/
theorem compare_reports_iff (o : EvalDatasetOptions X) (o' : EvalDatasetOptions Y)
    (hb : o.cases.Nodup) (hc : o'.cases.Nodup) :
    ListsChanges (evalDataset o) (evalDataset o') ∧ AddsUp (evalDataset o) (evalDataset o') ↔
      Seen (evalDataset o) (evalDataset o') ∧
      (SameCases (evalDataset o) (evalDataset o') →
        NotInherited (evalDataset o) (evalDataset o')) := by
  have hids {Z : Type} (o : EvalDatasetOptions Z) :
      (evalDataset o).cases.map EvalCaseResult.caseId = o.cases := by
    rw [evalDataset, List.map_map]
    exact List.map_id _
  have hbase := recorded_evalDataset o
  have hcand := recorded_evalDataset o'
  rw [← hids o] at hb
  rw [← hids o'] at hc
  generalize evalDataset o = base at *
  generalize evalDataset o' = cand at *
  constructor
  · rintro ⟨hlists, hadds⟩
    refine ⟨fun bc hbc cc hcc hid s hs hnone => ?_, fun hsame s hproto hs => ?_⟩
    · by_contra hne
      have hscore : cc.score s = 0 := by
        rw [EvalCaseResult.score, hnone]
        rfl
      have hlisted := (hlists bc hbc cc hcc hid s hs).2 (by rw [hscore]; exact hne)
      rw [listed_iff hb hc hbc hcc hid s, hnone] at hlisted
      cases hlisted.1
    · obtain ⟨e, d, he, hd, -⟩ := hadds hsame s hs
      obtain rfl := Option.some.inj ((aggregate_compare hbase hcand hs).symm.trans he)
      rw [diffOf] at hd
      dsimp only at hd
      obtain ⟨c, hcnum, hd⟩ := Option.bind_eq_some_iff.1 hd
      obtain ⟨b, hbnum, -⟩ := Option.map_eq_some_iff.1 hd
      have hown {m : OrderedMap JsString ℚ} {v : ℚ} (h : readNumber m s = some v) :
          (m.get s).isSome := by
        rw [readNumber] at h
        rcases hm : m.get s with _ | w
        · rw [hm] at h
          dsimp only at h
          rw [if_pos hproto] at h
          cases h
        · rfl
      exact ⟨hown hbnum, hown hcnum⟩
  · rintro ⟨hseen, hinherited⟩
    refine ⟨fun bc hbc cc hcc hid s hs => ?_, fun hsame s hs => ?_⟩
    · rw [listed_iff hb hc hbc hcc hid s]
      refine and_iff_right_of_imp fun hne => ?_
      rcases hget : cc.scores.get s with _ | v
      · refine absurd ?_ hne
        rw [hseen bc hbc cc hcc hid s hs hget, EvalCaseResult.score, hget]
        rfl
      · rfl
    · obtain ⟨hsum, hlength⟩ := sum_changes hb hc hsame hseen hs
      have hdelta : (diffOf base cand s).delta =
          some (average cand.cases s - average base.cases s) := by
        rw [diffOf]
        dsimp only
        rw [readNumber_eq hbase fun hp => (hinherited hsame s hp hs).1,
          readNumber_eq hcand fun hp => (hinherited hsame s hp hs).2]
        rfl
      have heq : average cand.cases s - average base.cases s =
          (((compare base cand).changes.filter (·.scorer = s)).map (·.delta)).sum /
            cand.cases.length := by
        rw [hsum, average, average, hlength, sub_div]
      refine ⟨_, _, aggregate_compare hbase hcand hs, hdelta, heq, fun hfell => ?_⟩
      -- A sum that is negative has a negative term.
      have hnegative : ∃ ch ∈ (compare base cand).changes, ch.scorer = s ∧ ch.delta < 0 := by
        by_contra hall
        have hnonneg : 0 ≤ (((compare base cand).changes.filter (·.scorer = s)).map (·.delta)).sum := by
          refine List.sum_nonneg fun x hx => ?_
          obtain ⟨ch, hch, rfl⟩ := List.mem_map.1 hx
          obtain ⟨hmem, hscorer⟩ := List.mem_filter.1 hch
          exact not_lt.1 fun hlt => hall ⟨ch, hmem, by simpa using hscorer, hlt⟩
        rw [heq] at hfell
        exact absurd hfell (not_lt.2 (div_nonneg hnonneg (Nat.cast_nonneg _)))
      obtain ⟨ch, hch, hscorer, hlt⟩ := hnegative
      exact ⟨List.countP_pos_iff.2 ⟨ch, hch, by simpa using hlt⟩, ch, hch, hscorer, hlt⟩

end Compare

/-- An experiment of one case with one scorer, that fails if there is no score. -/
def oneCase (score : Option ℚ) : EvalDatasetOptions Unit :=
  ⟨[js "case"], fun _ _ => some (), [⟨js "exact", fun _ => score⟩], 0⟩

theorem compare_reports_half :
    ListsChanges (evalDataset (oneCase (some 1))) (evalDataset (oneCase (some (1 / 2)))) ∧
      AddsUp (evalDataset (oneCase (some 1))) (evalDataset (oneCase (some (1 / 2)))) := by
  have hnamed {s : JsString}
      (hs : Named (evalDataset (oneCase (some 1))) (evalDataset (oneCase (some (1 / 2)))) s) :
      s = js "exact" := by
    by_contra hne
    rcases hs with hs | hs <;>
    · rw [evalDataset, get_foldl_setKey Scorer.name (average _), if_neg (by simp [oneCase, hne])] at hs
      cases hs
  refine (compare_reports_iff (oneCase (some 1)) (oneCase (some (1 / 2))) (by decide)
    (by decide)).2 ⟨fun bc _ cc hcc _ s hs hnone => ?_, fun _ s hmem hs => ?_⟩
  · obtain rfl := List.mem_singleton.1 hcc
    rw [hnamed hs] at hnone
    cases hnone
  · rw [hnamed hs] at hmem
    exact absurd hmem (by decide)

/-- A candidate that failed: its score fell, and there is neither a change nor a regression. -/
theorem compare_misses_failed :
    let base := evalDataset (oneCase (some 1))
    let cand := evalDataset (oneCase none)
    ¬ListsChanges base cand ∧ (compare base cand).regressions = 0 ∧
      ((compare base cand).aggregate.get (js "exact")).bind (·.delta) = some (-1) := by
  refine ⟨fun h => ?_, by decide +kernel, by decide +kernel⟩
  obtain ⟨ch, hch, -⟩ := (h _ (List.mem_singleton_self _) _ (List.mem_singleton_self _) rfl
    (js "exact") (.inl (by decide +kernel))).2 (by decide +kernel)
  have hnone : (compare (evalDataset (oneCase (some 1))) (evalDataset (oneCase none))).changes.length
    = 0 := by decide +kernel
  rw [List.length_eq_zero_iff] at hnone
  rw [hnone] at hch
  cases hch

end Gnldev.Evals
