import Gnldev.Durable.RunIndex

/-!
# The index is exact

The index should tell what the journal in memory finds in its keys. Its rows are brought up to date
by what a write brings, and not by what it takes away: where a value takes the place of the only one
that has listed a run, or of an outcome, the row stays as it was. And a conditional write never looks
for the input of a run (`index_misses_run`).

* `Listed`, `rowIn`: the runs that are found in the keys, with the rows they should have;
* `IndexAgrees`: what is promised of the index;
* `CleanOp`: the operation leaves no row behind;
* `run_index_exact`: the index agrees after every run of clean operations.
-/

open List

namespace Gnldev.Durable

variable {P : Type} {store : JournalStore P} {runId key : JsString} {value : JournalValue P}

/-! ## The runs of the keys -/

/-- A key lists a run: as a record, as its input, or as its outcome. -/
def Lists (runId key : JsString) (value : JournalValue P) : Prop :=
  match parseJournalKey key with
  | some (owner, _) => owner = runId
  | none => runIdOfKey key value = some runId ∧ runId ≠ [] ∨
      ∃ status, outcomeOfKey key value = some (runId, status)

/-- A run is listed by a key. -/
def Listed (store : JournalStore P) (runId : JsString) : Prop :=
  ∃ key value, store.get key = some value ∧ Lists runId key value

def isRecord (runId : JsString) (kind : EntryKind) (e : JsString × JournalValue P) : Bool :=
  parseJournalKey e.1 = some (runId, kind)

/-- The record is a tool call that waits for a human. -/
def isWaiting (runId : JsString) (e : JsString × JournalValue P) : Bool :=
  isRecord runId .tool e && e.2.suspended

/-- What the outcome of a run says. -/
def outcomeIn (store : JournalStore P) (runId : JsString) : Option OutcomeStatus :=
  (store.get (runId ++ js ":outcome")).bind (·.outcomeStatus)

/-- A row, by what is counted. -/
def countedRow (m t n : ℕ) (outcome : Option OutcomeStatus) : RunRow :=
  (⟨m, t, 0 < n, n, false, false, false⟩ : RunRow).withOutcome outcome

/-- The row with what is counted in the keys. -/
def rowWith (store : JournalStore P) (runId : JsString) (outcome : Option OutcomeStatus) : RunRow :=
  countedRow (store.entries.countP (isRecord runId .model))
    (store.entries.countP (isRecord runId .tool)) (store.entries.countP (isWaiting runId)) outcome

/-- The row a run should have. -/
def rowIn (store : JournalStore P) (runId : JsString) : RunRow :=
  rowWith store runId (outcomeIn store runId)

/-! ### What is listed -/

theorem get_register (byRun : RunsOf P) (r : JsString) :
    (byRun.register r).get runId =
      if runId = r then some ((byRun.get r).getD []) else byRun.get runId := by
  rw [RunsOf.register]
  rcases hget : byRun.get r with _ | es
  · dsimp only
    split
    · next h => rw [h, OrderedMap.get_put_self, Option.getD_none]
    · next h => rw [OrderedMap.get_put_of_ne _ h]
  · dsimp only
    split
    · next h => rw [h, hget, Option.getD_some]
    · rfl

/-- What a record adds to its run. -/
theorem get_add_record {owner : JsString} {kind : EntryKind} (byRun : RunsOf P)
    (hparse : parseJournalKey key = some (owner, kind)) :
    (byRun.add (key, value)).get runId =
      if runId = owner then some ((byRun.get owner).getD [] ++ [(kind, value)])
      else byRun.get runId := by
  have hadd : byRun.add (key, value) =
      byRun.put owner ((byRun.get owner).getD [] ++ [(kind, value)]) := by
    rw [RunsOf.add, hparse]
  rw [hadd]
  by_cases h : runId = owner
  · rw [if_pos h, h, OrderedMap.get_put_self]
  · rw [if_neg h, OrderedMap.get_put_of_ne _ h]

/-- An input or an outcome adds no record. -/
theorem get_add_other (byRun : RunsOf P) (runId : JsString) (value : JournalValue P)
    (hparse : parseJournalKey key = none) :
    (Lists runId key value → (byRun.add (key, value)).get runId = some ((byRun.get runId).getD [])) ∧
      (¬Lists runId key value → (byRun.add (key, value)).get runId = byRun.get runId) := by
  have howner : (byRun.registerOwner key value).get runId =
      if runIdOfKey key value = some runId ∧ runId ≠ [] then some ((byRun.get runId).getD [])
      else byRun.get runId := by
    rw [RunsOf.registerOwner]
    split
    · next owner hkey =>
      by_cases h : runId = owner
      · subst h
        split
        · next hnil => rw [if_neg fun h => h.2 hnil]
        · next hne => rw [get_register, if_pos rfl, if_pos ⟨hkey, hne⟩]
      · have hne : ¬(runIdOfKey key value = some runId ∧ runId ≠ []) := by
          rw [hkey]
          exact fun h' => h (Option.some.inj h'.1).symm
        rw [if_neg hne]
        split
        · rfl
        · rw [get_register, if_neg h]
    · next hkey =>
      rw [if_neg]
      rintro ⟨h, -⟩
      rw [hkey] at h
      contradiction
  have hadd : byRun.add (key, value) =
      (byRun.registerOwner key value).registerOutcome key value := by
    rw [RunsOf.add, hparse]
  rw [hadd, RunsOf.registerOutcome, Lists, hparse]
  constructor
  · rintro (h | ⟨status, h⟩)
    · rw [if_pos h] at howner
      split
      · rw [get_register]
        split
        · next heq => rw [← heq, howner, Option.getD_some]
        · exact howner
      · exact howner
    · rw [h]
      dsimp only
      rw [get_register, if_pos rfl, howner]
      split <;> rfl
  · intro h
    rw [not_or] at h
    rw [if_neg h.1] at howner
    split
    · next r status hkey =>
      rw [get_register, if_neg, howner]
      rintro rfl
      exact h.2 ⟨status, hkey⟩
    · exact howner

/-- The record of a run that an entry is. -/
def listedRecord (runId : JsString) (e : JsString × JournalValue P) : Option (ListedEntry P) :=
  match parseJournalKey e.1 with
  | some (owner, kind) => if owner = runId then some (kind, e.2) else none
  | none => none

/-- The runs that are found in a list of entries, with their records. -/
theorem get_foldl_add (runId : JsString) (l : List (JsString × JournalValue P)) :
    ((∃ e ∈ l, Lists runId e.1 e.2) →
      (l.foldl RunsOf.add .empty).get runId = some (l.filterMap (listedRecord runId))) ∧
    ((∀ e ∈ l, ¬Lists runId e.1 e.2) → (l.foldl RunsOf.add .empty).get runId = none ∧
      l.filterMap (listedRecord runId) = []) := by
  induction l using List.reverseRecOn with
  | nil => exact ⟨fun ⟨e, he, _⟩ => absurd he not_mem_nil, fun _ => ⟨rfl, rfl⟩⟩
  | append_singleton l e ih =>
    obtain ⟨key, value⟩ := e
    -- Before the entry, the records are those of the list, whether the run is listed or not.
    have hbefore : ((l.foldl RunsOf.add .empty).get runId).getD [] =
        l.filterMap (listedRecord runId) := by
      by_cases h : ∃ e ∈ l, Lists runId e.1 e.2
      · rw [ih.1 h, Option.getD_some]
      · obtain ⟨hnone, hnil⟩ := ih.2 fun e he hl => h ⟨e, he, hl⟩
        rw [hnone, hnil, Option.getD_none]
    rw [foldl_append, foldl_cons, foldl_nil, filterMap_append,
      filterMap_cons, filterMap_nil]
    rcases hparse : parseJournalKey key with _ | ⟨owner, kind⟩
    · have hrecord : listedRecord runId (key, value) = none := by rw [listedRecord, hparse]
      obtain ⟨hlists, hnot⟩ := get_add_other (l.foldl RunsOf.add .empty) runId value hparse
      simp only [hrecord, append_nil]
      by_cases h : Lists runId key value
      · refine ⟨fun _ => by rw [hlists h, hbefore], fun hall => ?_⟩
        exact absurd h (hall (key, value) (mem_append_right _ mem_cons_self))
      · rw [hnot h]
        refine ⟨fun ⟨e, he, hl⟩ => ih.1 ?_, fun hall => ih.2 fun e he =>
          hall e (mem_append_left _ he)⟩
        rcases mem_append.1 he with he | he
        · exact ⟨e, he, hl⟩
        · obtain rfl := mem_singleton.1 he
          exact absurd hl h
    · rw [get_add_record _ hparse]
      by_cases h : runId = owner
      · subst h
        have hrecord : listedRecord runId (key, value) = some (kind, value) := by
          rw [listedRecord, hparse]
          exact if_pos rfl
        have hlists : Lists runId key value := by
          rw [Lists, hparse]
        rw [if_pos rfl, hbefore]
        simp only [hrecord]
        refine ⟨fun _ => trivial, fun hall => ?_⟩
        exact absurd hlists (hall (key, value) (mem_append_right _ mem_cons_self))
      · have hrecord : listedRecord runId (key, value) = none := by
          rw [listedRecord, hparse]
          exact if_neg (Ne.symm h)
        rw [if_neg h]
        simp only [hrecord, append_nil]
        refine ⟨fun ⟨e, he, hl⟩ => ih.1 ?_, fun hall => ih.2 fun e he =>
          hall e (mem_append_left _ he)⟩
        rcases mem_append.1 he with he | he
        · exact ⟨e, he, hl⟩
        · obtain rfl := mem_singleton.1 he
          rw [Lists, hparse] at hl
          exact absurd hl.symm h

theorem listed_iff : Listed store runId ↔ ∃ e ∈ store.entries, Lists runId e.1 e.2 := by
  constructor
  · rintro ⟨key, value, hget, h⟩
    exact ⟨(key, value), OrderedMap.mem_entries_iff.2 hget, h⟩
  · rintro ⟨⟨key, value⟩, he, h⟩
    exact ⟨key, value, OrderedMap.mem_entries_iff.1 he, h⟩

theorem byRun_of_listed (h : Listed store runId) :
    (byRun store).get runId = some (store.entries.filterMap (listedRecord runId)) :=
  (get_foldl_add runId store.entries).1 (listed_iff.1 h)

theorem byRun_of_not_listed (h : ¬Listed store runId) : (byRun store).get runId = none := by
  refine ((get_foldl_add runId store.entries).2 fun e he hl => ?_).1
  exact h (listed_iff.2 ⟨e, he, hl⟩)

/-- A run that is not listed has no records. -/
theorem count_of_not_listed (h : ¬Listed store runId) :
    (∀ kind, store.entries.countP (isRecord runId kind) = 0) ∧
      store.entries.countP (isWaiting runId) = 0 := by
  have hrecord : ∀ kind, ∀ e ∈ store.entries, ¬isRecord runId kind e := by
    intro kind e he hr
    refine h (listed_iff.2 ⟨e, he, ?_⟩)
    rw [Lists, of_decide_eq_true hr]
  refine ⟨fun kind => countP_eq_zero.2 (hrecord kind), countP_eq_zero.2 fun e he hw => ?_⟩
  exact hrecord .tool e he (Bool.and_eq_true_iff.1 hw).1

/-! ### Summaries -/

theorem countP_listedRecord (kind : EntryKind) (l : List (JsString × JournalValue P)) :
    (l.filterMap (listedRecord runId)).countP (·.1 = kind) = l.countP (isRecord runId kind) := by
  rw [countP_filterMap]
  refine countP_congr fun e _ => ?_
  rw [listedRecord, isRecord]
  rcases parseJournalKey e.1 with _ | ⟨owner, kind'⟩
  · simp
  · by_cases h : owner = runId
    · simp [h]
    · simp [h]

theorem any_listedRecord (l : List (JsString × JournalValue P)) :
    (l.filterMap (listedRecord runId)).any ListedEntry.suspended =
      decide (0 < l.countP (isWaiting runId)) := by
  rw [any_filterMap, Bool.eq_iff_iff, decide_eq_true_iff, countP_pos_iff, any_eq_true]
  refine exists_congr fun e => and_congr_right fun _ => ?_
  rw [listedRecord, isWaiting, isRecord]
  rcases parseJournalKey e.1 with _ | ⟨owner, kind'⟩
  · simp
  · by_cases h : owner = runId
    · simp [h, ListedEntry.suspended]
    · simp [h]

/-- The flags of a row tell the status. -/
theorem deriveRunStatus_withOutcome (suspended : Bool) (r : RunRow)
    (outcome : Option OutcomeStatus) :
    deriveRunStatus suspended (outcomeOfRow (r.withOutcome outcome)) =
      deriveRunStatus suspended outcome := by
  rcases outcome with _ | _ | _ | _ | _ <;> rfl

/-- The row a run should have tells what is found in the keys. -/
theorem toSummary_rowIn (s : SqliteJournal P) (runId : JsString) :
    s.toSummary runId (rowIn s.contents runId) =
      summaryOf s.contents runId (s.contents.entries.filterMap (listedRecord runId)) := by
  have hinput : (s.journal.get (runId ++ js ":input")).map (·.value) =
      s.contents.get (runId ++ js ":input") := (s.journal.get_mapValues _ _).symm
  rw [SqliteJournal.toSummary, summaryOf, hinput, any_listedRecord, countP_listedRecord,
    countP_listedRecord, rowIn, rowWith, countedRow, deriveRunStatus_withOutcome]
  rfl

/-- The condition on the columns is the status. -/
theorem statusWhere_eq (r : RunRow) (status : RunStatus) :
    r.statusWhere status = decide (deriveRunStatus r.suspended (outcomeOfRow r) = status) := by
  obtain ⟨m, t, suspended, n, failed, running, canceled⟩ := r
  cases status <;> cases canceled <;> cases suspended <;> cases failed <;> cases running <;> rfl

theorem statusCase_eq (r : RunRow) :
    r.statusCase = deriveRunStatus r.suspended (outcomeOfRow r) := by
  obtain ⟨m, t, suspended, n, failed, running, canceled⟩ := r
  cases canceled <;> cases suspended <;> cases failed <;> cases running <;> rfl

/-! ## What is promised -/

/-- The index tells what the journal in memory finds in the same keys. -/
structure IndexAgrees (s : SqliteJournal P) : Prop where
  rows : ∀ runId, (s.runs.get runId).map (s.toSummary runId) =
    ((byRun s.contents).get runId).map (summaryOf s.contents runId)
  listRuns : ∀ q, (s.listRuns q).Perm ((Durable.listRuns s.contents).filter q.keeps)
  counts : ∀ status, s.countRunsByStatus status =
    (Durable.listRuns s.contents).countP (·.status = status)

/-- The columns of a key are those it was written with, and each run that is listed has its row. -/
structure Exact (s : SqliteJournal P) : Prop where
  columns : ∀ key row, s.journal.get key = some row → row = rowFor key row.value
  listed : ∀ runId, Listed s.contents runId → s.runs.get runId = some (rowIn s.contents runId)
  unlisted : ∀ runId, ¬Listed s.contents runId → s.runs.get runId = none

theorem Exact.indexAgrees {s : SqliteJournal P} (h : Exact s) : IndexAgrees s := by
  have hrows : ∀ runId, (s.runs.get runId).map (s.toSummary runId) =
      ((byRun s.contents).get runId).map (summaryOf s.contents runId) := by
    intro runId
    by_cases hl : Listed s.contents runId
    · rw [h.listed runId hl, byRun_of_listed hl, Option.map_some, Option.map_some, toSummary_rowIn]
    · rw [h.unlisted runId hl, byRun_of_not_listed hl, Option.map_none, Option.map_none]
  have hperm : (s.runs.entries.map fun e => s.toSummary e.1 e.2).Perm (Durable.listRuns s.contents) :=
    OrderedMap.perm_of_get hrows
  refine ⟨hrows, fun q => ?_, fun status => ?_⟩
  · have hlist : s.listRuns q =
        (s.runs.entries.map fun e => s.toSummary e.1 e.2).filter q.keeps := by
      rw [SqliteJournal.listRuns, filter_map, filter_map, filter_filter]
      congr 1
      refine filter_congr fun e _ => ?_
      have hstatus : q.status.all e.2.statusWhere =
          q.status.all ((s.toSummary e.1 e.2).status = ·) := by
        rcases q.status with _ | status
        · rfl
        · exact statusWhere_eq e.2 status
      rw [hstatus, Function.comp_apply, Function.comp_apply, RunFilter.keeps, Bool.and_comm,
        Bool.and_assoc, Bool.and_assoc, Bool.and_assoc]
    rw [hlist]
    exact hperm.filter _
  · rw [← hperm.countP_eq, countP_map, SqliteJournal.countRunsByStatus]
    refine countP_congr fun e _ => ?_
    rw [statusCase_eq]
    rfl

/-! ## Clean operations -/

/-- What the flags of a row tell of an outcome. -/
def told (outcome : Option OutcomeStatus) : Option OutcomeStatus := outcome.filter (· ≠ .completed)

theorem countedRow_told {outcome outcome' : Option OutcomeStatus} (h : told outcome = told outcome')
    (m t n : ℕ) : countedRow m t n outcome = countedRow m t n outcome' := by
  have hrow : ∀ outcome, countedRow m t n outcome = countedRow m t n (told outcome) := by
    intro outcome
    rcases outcome with _ | _ | _ | _ | _ <;> rfl
  rw [hrow outcome, h, ← hrow outcome']

/-- The outcome of the run is written. -/
def SetsOutcome (runId key : JsString) (value : JournalValue P) : Prop :=
  parseJournalKey key = none ∧ ∃ status, outcomeOfKey key value = some (runId, status)

/-- A write takes nothing away: a run that is listed stays listed, and what its outcome says changes
    only where the outcome is written. -/
structure CleanWrite (store : JournalStore P) (key : JsString) (value : JournalValue P) : Prop where
  listed : ∀ runId, Listed store runId → Listed (store.put key value) runId
  outcome : ∀ runId, Listed (store.put key value) runId → ¬SetsOutcome runId key value →
    (Listed store runId →
      told (outcomeIn (store.put key value) runId) = told (outcomeIn store runId)) ∧
    (¬Listed store runId → told (outcomeIn (store.put key value) runId) = none)

/-- Writes that are clean, one after the other. -/
def CleanPuts : JournalStore P → List (JsString × JournalValue P) → Prop
  | _, [] => True
  | store, (key, value) :: rest => CleanWrite store key value ∧ CleanPuts (store.put key value) rest

/-- An operation leaves no row behind. A conditional write brings no input of a run that is not
    listed, and with the keys of a run there go no records of others. -/
def CleanOp (store : JournalStore P) : IndexOp P → Prop
  | .put key value => CleanWrite store key value
  | .putIfAbsent key value => store.get key = none → CleanWrite store key value
  | .putIfMatch key expected value => store.get key = some expected →
      CleanWrite store key value ∧ (parseJournalKey key = none → ∀ runId,
        runIdOfKey key value = some runId → runId ≠ [] → Listed store runId)
  | .applyBatch batch =>
    match batch.claim with
    | none => CleanPuts store batch.puts
    | some (key, value) => store.get key = none →
        CleanPuts store ((key, value) :: batch.puts)
  | .deleteRun id => ∀ key value, store.get key = some value → key.startsWith (id ++ [sep]) →
      ∀ runId kind, parseJournalKey key = some (runId, kind) →
        runId = id ∨ runId.startsWith (id ++ [sep])

/-- Every operation is clean, in the state it comes to. -/
def CleanRun [DecidableEq P] : SqliteJournal P → List (IndexOp P) → Prop
  | _, [] => True
  | s, op :: ops => CleanOp s.contents op ∧ CleanRun (s.apply op) ops

/-! ### What a write changes -/

theorem listed_put_of_lists (h : Lists runId key value) : Listed (store.put key value) runId :=
  ⟨key, value, store.get_put_self key value, h⟩

/-- A run that a write does not list is listed by another key. -/
theorem listed_of_put (h : Listed (store.put key value) runId) (hnot : ¬Lists runId key value) :
    Listed store runId := by
  obtain ⟨key', value', hget, hl⟩ := h
  by_cases hkey : key' = key
  · subst hkey
    rw [OrderedMap.get_put_self] at hget
    obtain rfl := Option.some.inj hget
    exact absurd hl hnot
  · rw [OrderedMap.get_put_of_ne _ hkey] at hget
    exact ⟨key', value', hget, hl⟩

theorem parse_ne_of_not_lists (hnot : ¬Lists runId key value) (kind : EntryKind) :
    parseJournalKey key ≠ some (runId, kind) := by
  intro h
  refine hnot ?_
  rw [Lists, h]

/-- Of a run that a key is no record of, what is counted is what was. -/
theorem rowWith_put_other (hparse : ∀ kind, parseJournalKey key ≠ some (runId, kind))
    (outcome : Option OutcomeStatus) :
    rowWith (store.put key value) runId outcome = rowWith store runId outcome := by
  have hrecord (kind : EntryKind) (value : JournalValue P) : isRecord runId kind (key, value) = false :=
    decide_eq_false (hparse kind)
  have hwaiting (value : JournalValue P) : isWaiting runId (key, value) = false := by
    rw [isWaiting, hrecord, Bool.false_and]
  have hcount {q : JsString × JournalValue P → Bool} (hq : ∀ value, q (key, value) = false) :
      (store.put key value).entries.countP q = store.entries.countP q := by
    have h := OrderedMap.countP_put q store key value
    have hany : (store.get key).any (fun v => q (key, v)) = false := by
      rw [Option.any_eq_false]
      exact fun v _ => hq v
    rwa [hq, hany, if_neg Bool.false_ne_true] at h
  rw [rowWith, rowWith, hcount (hrecord _), hcount (hrecord _), hcount hwaiting]

theorem rowWith_put_of_parse_none (hparse : parseJournalKey key = none) :
    rowWith (store.put key value) runId = rowWith store runId := by
  funext outcome
  refine rowWith_put_other (fun kind hk => ?_) outcome
  rw [hparse] at hk
  contradiction

theorem outcomeIn_put {status : OutcomeStatus} (h : outcomeOfKey key value = some (runId, status)) :
    outcomeIn (store.put key value) runId = some status := by
  rw [outcomeOfKey] at h
  split at h
  · next r status' hend hstatus =>
    obtain ⟨rfl, rfl⟩ := by simpa using h
    rw [outcomeIn, ← beforeEnd_eq_some_iff.1 hend, OrderedMap.get_put_self, Option.bind_some, hstatus]
  · contradiction

section Write

variable {s s' : SqliteJournal P}

theorem upsert_eq (h : Exact s) (key : JsString) (value : JournalValue P) :
    s.upsert key value = s.journal.put key (rowFor key value) := by
  rw [SqliteJournal.upsert]
  split
  · rfl
  · next r hget =>
    rw [h.columns key r hget]
    rfl

theorem contents_upsert (h : Exact s) (key : JsString) (value : JournalValue P) :
    (s.upsert key value).mapValues (·.value) = s.contents.put key value := by
  rw [upsert_eq h, OrderedMap.mapValues_put]
  rfl

theorem columns_upsert (h : Exact s) (key : JsString) (value : JournalValue P) :
    ∀ key' row, (s.upsert key value).get key' = some row → row = rowFor key' row.value := by
  intro key' row hget
  rw [upsert_eq h] at hget
  by_cases hkey : key' = key
  · subst hkey
    rw [OrderedMap.get_put_self] at hget
    rw [← Option.some.inj hget]
    rfl
  · rw [OrderedMap.get_put_of_ne _ hkey] at hget
    exact h.columns key' row hget

/-- What is in the index of a run, and nothing if it is not there. -/
theorem Exact.row (h : Exact s) (runId : JsString) :
    ∃ outcome, (s.runs.get runId).getD (countedRow 0 0 0 none) = rowWith s.contents runId outcome ∧
      (Listed s.contents runId → outcome = outcomeIn s.contents runId) ∧
      (¬Listed s.contents runId → outcome = none) := by
  by_cases hl : Listed s.contents runId
  · refine ⟨_, ?_, fun _ => rfl, fun h => absurd hl h⟩
    rw [h.listed runId hl, Option.getD_some, rowIn]
  · refine ⟨none, ?_, fun h => absurd h hl, fun _ => rfl⟩
    obtain ⟨hrecord, hwaiting⟩ := count_of_not_listed hl
    rw [h.unlisted runId hl, Option.getD_none, rowWith, hrecord, hrecord, hwaiting]

/-- The index stays exact if the runs that are listed by the write are counted, and their outcome is
    told if it is written. -/
theorem Exact.write (h : Exact s) (hclean : CleanWrite s.contents key value)
    (hjournal : s'.journal = s.upsert key value)
    (hlists : ∀ runId outcome, Lists runId key value →
      (s.runs.get runId).getD (countedRow 0 0 0 none) = rowWith s.contents runId outcome →
      ∃ outcome', s'.runs.get runId = some (rowWith (s.contents.put key value) runId outcome') ∧
        (¬SetsOutcome runId key value → outcome' = outcome) ∧
        ∀ status, parseJournalKey key = none → outcomeOfKey key value = some (runId, status) →
          outcome' = some status)
    (hother : ∀ runId, ¬Lists runId key value → s'.runs.get runId = s.runs.get runId) :
    Exact s' := by
  have hcontents : s'.contents = s.contents.put key value := by
    rw [SqliteJournal.contents, hjournal, contents_upsert h]
  refine ⟨?_, fun runId hl => ?_, fun runId hl => ?_⟩
  · rw [hjournal]
    exact columns_upsert h key value
  · rw [hcontents] at hl ⊢
    by_cases hlist : Lists runId key value
    · obtain ⟨outcome, hrow, hold, hnew⟩ := h.row runId
      obtain ⟨outcome', hget, hkept, hset⟩ := hlists runId outcome hlist hrow
      rw [hget, rowIn]
      by_cases hsets : SetsOutcome runId key value
      · obtain ⟨hparse, status, hkey⟩ := hsets
        rw [hset status hparse hkey, outcomeIn_put hkey]
      · obtain ⟨htold, hnone⟩ := hclean.outcome runId hl hsets
        refine congrArg some (countedRow_told ?_ _ _ _)
        rw [hkept hsets]
        by_cases hbefore : Listed s.contents runId
        · rw [hold hbefore, htold hbefore]
        · rw [hnew hbefore, hnone hbefore]
          rfl
    · -- The run is listed by another key, and its row is as it was.
      have hbefore := listed_of_put hl hlist
      have hsets : ¬SetsOutcome runId key value := by
        rintro ⟨hparse, status, hkey⟩
        refine hlist ?_
        rw [Lists, hparse]
        exact .inr ⟨status, hkey⟩
      rw [hother runId hlist, h.listed runId hbefore, rowIn, rowIn,
        rowWith_put_other (parse_ne_of_not_lists hlist)]
      refine congrArg some (countedRow_told ?_ _ _ _)
      exact ((hclean.outcome runId hl hsets).1 hbefore).symm
  · rw [hcontents] at hl
    rw [hother runId fun hlist => hl (listed_put_of_lists hlist)]
    exact h.unlisted runId fun hbefore => hl (hclean.listed runId hbefore)

/-! ### The rows that are touched -/

section Touch

variable {runs : RunIndex} {m t n : ℕ} {outcome : Option OutcomeStatus}

theorem get_touchRunDelta_of_ne {owner : JsString} (h : runId ≠ owner) (kind : Option EntryKind)
    (isInsert : Bool) (delta : ℤ) :
    (touchRunDelta runs owner kind isInsert delta).get runId = runs.get runId :=
  OrderedMap.get_put_of_ne _ h _

theorem get_touchRunDelta_self (hrow : (runs.get runId).getD (countedRow 0 0 0 none) =
    countedRow m t n outcome) (kind : Option EntryKind) (isInsert : Bool) {delta : ℤ} {n' : ℕ}
    (hnew : runs.get runId = none → 0 ≤ delta) (hn : (n' : ℤ) = n + delta) :
    (touchRunDelta runs runId kind isInsert delta).get runId =
      some (countedRow (m + if isInsert ∧ kind = some .model then 1 else 0)
        (t + if isInsert ∧ kind = some .tool then 1 else 0) n' outcome) := by
  rw [touchRunDelta, OrderedMap.get_put_self]
  rcases hget : runs.get runId with _ | r
  · -- The row is new: nothing was counted before.
    rw [hget, Option.getD_none] at hrow
    obtain rfl : m = 0 := (congrArg RunRow.modelSteps hrow).symm
    obtain rfl : t = 0 := (congrArg RunRow.toolCalls hrow).symm
    have hzero : (0 : ℤ) = n := congrArg RunRow.suspendedCount hrow
    have hdelta : max 0 delta = n' := by
      rw [max_eq_right (hnew hget), hn, ← hzero, zero_add]
    have hpos : (0 < delta) ↔ 0 < n' := by omega
    simp only [hdelta, hpos, Nat.zero_add]
    exact congrArg (fun r : RunRow => some { (⟨_, _, 0 < n', n', false, false, false⟩ : RunRow) with
      failed := r.failed, running := r.running, canceled := r.canceled }) hrow
  · rw [hget, Option.getD_some] at hrow
    subst hrow
    simp only [countedRow, RunRow.withOutcome, ← hn, Int.natCast_pos]

/-- A touch that counts nothing makes a row, if there is none. -/
theorem get_touchRunDelta_zero (hrow : (runs.get runId).getD (countedRow 0 0 0 none) =
    countedRow m t n outcome) :
    (touchRunDelta runs runId none false 0).get runId = some (countedRow m t n outcome) :=
  get_touchRunDelta_self hrow none false (fun _ => le_refl 0) (add_zero _).symm

theorem get_touchOwner (hrow : (runs.get runId).getD (countedRow 0 0 0 none) =
    countedRow m t n outcome) (key : JsString) (value : JournalValue P) :
    (touchOwner runs key value).get runId =
      if runIdOfKey key value = some runId ∧ runId ≠ [] then some (countedRow m t n outcome)
      else runs.get runId := by
  rw [touchOwner]
  split
  · next owner hkey =>
    by_cases h : runId = owner
    · subst h
      split
      · next hnil => rw [if_neg fun h => h.2 hnil]
      · next hne => rw [get_touchRunDelta_zero hrow, if_pos ⟨hkey, hne⟩]
    · have hne : ¬(runIdOfKey key value = some runId ∧ runId ≠ []) := by
        rw [hkey]
        exact fun h' => h (Option.some.inj h'.1).symm
      rw [if_neg hne]
      split
      · rfl
      · exact get_touchRunDelta_of_ne h _ _ _
  · next hkey =>
    rw [if_neg]
    rintro ⟨h, -⟩
    rw [hkey] at h
    contradiction

theorem get_touchOutcome_self {status : OutcomeStatus}
    (hrow : (runs.get runId).getD (countedRow 0 0 0 none) = countedRow m t n outcome)
    (hkey : outcomeOfKey key value = some (runId, status)) :
    (touchOutcome runs key value).get runId = some (countedRow m t n (some status)) := by
  rw [touchOutcome, hkey]
  dsimp only
  rw [setOutcome, get_touchRunDelta_zero hrow]
  dsimp only
  rw [OrderedMap.get_put_self]
  rfl

theorem get_touchOutcome_other (hkey : ∀ status, outcomeOfKey key value ≠ some (runId, status)) :
    (touchOutcome runs key value).get runId = runs.get runId := by
  rw [touchOutcome]
  split
  · next r status h =>
    have hne : runId ≠ r := by
      rintro rfl
      exact hkey status h
    rw [setOutcome]
    split
    · exact get_touchRunDelta_of_ne hne _ _ _
    · rw [OrderedMap.get_put_of_ne _ hne]
      exact get_touchRunDelta_of_ne hne _ _ _
  · rfl

end Touch

/-! ### Writes -/

theorem isRecord_of_parse {kind : EntryKind} (hparse : parseJournalKey key = some (runId, kind))
    (kind' : EntryKind) (value : JournalValue P) :
    isRecord runId kind' (key, value) = decide (kind = kind') := by
  rw [isRecord, hparse]
  simp

theorem isWaiting_of_parse {kind : EntryKind} (hparse : parseJournalKey key = some (runId, kind))
    (value : JournalValue P) : isWaiting runId (key, value) = suspendedOf key value := by
  rw [isWaiting, isRecord_of_parse hparse, suspendedOf, hparse, Option.any_some]

/-- What is counted of a run after a record of it is written. -/
theorem count_put_record {kind : EntryKind} (h : Exact s)
    (hparse : parseJournalKey key = some (runId, kind)) (value : JournalValue P) :
    (∀ kind', (s.contents.put key value).entries.countP (isRecord runId kind') =
      s.contents.entries.countP (isRecord runId kind') +
        if (s.journal.get key).isNone ∧ some kind = some kind' then 1 else 0) ∧
    ((s.contents.put key value).entries.countP (isWaiting runId) : ℤ) =
      s.contents.entries.countP (isWaiting runId) + s.suspendedDelta key value := by
  have hget : s.contents.get key = (s.journal.get key).map (·.value) :=
    s.journal.get_mapValues _ key
  constructor
  · intro kind'
    have hcount := OrderedMap.countP_put (isRecord runId kind') s.contents key value
    simp only [isRecord_of_parse hparse, hget] at hcount
    rcases hrow : s.journal.get key with _ | r
    · simpa [hrow] using hcount
    · simpa [hrow] using hcount
  · have hcount := OrderedMap.countP_put (isWaiting runId) s.contents key value
    simp only [isWaiting_of_parse hparse, hget] at hcount
    have hcolumn : (s.journal.get key).any (·.suspended) =
        ((s.journal.get key).map (·.value)).any (suspendedOf key) := by
      rcases hrow : s.journal.get key with _ | r
      · rfl
      · exact congrArg JournalRow.suspended (h.columns key r hrow)
    rw [SqliteJournal.suspendedDelta, hcolumn]
    split_ifs at hcount ⊢ <;> omega

theorem Exact.putCore (h : Exact s) (hclean : CleanWrite s.contents key value) :
    Exact (s.putCore key value) := by
  refine h.write hclean rfl ?_ ?_
  · intro runId outcome hlists hrow
    rw [SqliteJournal.putCore]
    rcases hparse : parseJournalKey key with _ | ⟨owner, kind⟩
    · dsimp only
      rw [rowWith_put_of_parse_none hparse]
      have howner := get_touchOwner hrow key value
      by_cases hkey : ∃ status, outcomeOfKey key value = some (runId, status)
      · obtain ⟨status, hkey⟩ := hkey
        have htouched : ((touchOwner s.runs key value).get runId).getD (countedRow 0 0 0 none) =
            rowWith s.contents runId outcome := by
          rw [howner]
          split
          · rfl
          · exact hrow
        refine ⟨some status, get_touchOutcome_self htouched hkey,
          fun hnot => absurd ⟨hparse, status, hkey⟩ hnot, ?_⟩
        · intro status' _ hkey'
          rw [hkey] at hkey'
          rw [(Prod.mk.inj (Option.some.inj hkey')).2]
      · refine ⟨outcome, ?_, fun _ => rfl, fun status _ hkey' => absurd ⟨status, hkey'⟩ hkey⟩
        rw [Lists, hparse] at hlists
        rw [get_touchOutcome_other fun status h => hkey ⟨status, h⟩, howner,
          if_pos (hlists.resolve_right hkey)]
        rfl
    · obtain rfl : owner = runId := by rwa [Lists, hparse] at hlists
      refine ⟨outcome, ?_, fun _ => rfl, fun _ hnone => by contradiction⟩
      obtain ⟨hrecord, hwaiting⟩ := count_put_record h hparse value
      dsimp only
      rw [get_touchRunDelta_self hrow (some kind) _ ?_ hwaiting, rowWith, hrecord, hrecord]
      -- Without a row there is no value under the key, and none that waits is taken away.
      intro hnone
      have hkey : s.journal.get key = none := by
        by_contra hsome
        obtain ⟨r, hr⟩ := Option.ne_none_iff_exists'.1 hsome
        have hlisted : Listed s.contents owner := by
          refine ⟨key, r.value, ?_, ?_⟩
          · rw [SqliteJournal.contents, OrderedMap.get_mapValues, hr, Option.map_some]
          · rw [Lists, hparse]
        rw [h.listed owner hlisted] at hnone
        contradiction
      rw [SqliteJournal.suspendedDelta, hkey, Option.any_none, if_neg Bool.false_ne_true, sub_zero]
      split <;> decide
  · intro runId hnot
    rw [SqliteJournal.putCore]
    dsimp only
    split
    · next hparse =>
      rw [Lists, hparse, not_or] at hnot
      obtain ⟨outcome, hrow, -⟩ := h.row runId
      rw [get_touchOutcome_other fun status h => hnot.2 ⟨status, h⟩, get_touchOwner hrow,
        if_neg hnot.1]
    · next owner kind hparse =>
      refine get_touchRunDelta_of_ne ?_ _ _ _
      rintro rfl
      exact parse_ne_of_not_lists hnot kind hparse

theorem putIfAbsentCore_eq (hget : s.journal.get key = none) (value : JournalValue P) :
    s.putIfAbsentCore key value = (true, s.putCore key value) := by
  rw [SqliteJournal.putIfAbsentCore, hget, SqliteJournal.putCore, SqliteJournal.upsert,
    SqliteJournal.suspendedDelta, hget, Option.isNone_none, Option.any_none,
    if_neg Bool.false_ne_true, sub_zero]

section Recount

variable {journal : OrderedMap JsString (JournalRow P)}
  (h : ∀ key row, journal.get key = some row → row = rowFor key row.value)

include h

/-- What is counted by the columns is what is counted by the keys. -/
theorem countKind_eq (runId : JsString) (kind : EntryKind) :
    countKind journal runId kind =
      (journal.mapValues (·.value)).entries.countP (isRecord runId kind) := by
  change _ = (journal.entries.map _).countP _
  rw [countKind, countP_map]
  refine countP_congr ?_
  rintro ⟨key, row⟩ he
  dsimp only
  rw [h key row (OrderedMap.mem_entries_iff.1 he), Function.comp_apply, isRecord, rowFor]
  rcases parseJournalKey key with _ | ⟨owner, kind'⟩
  · simp
  · simp

theorem countSuspended_eq (runId : JsString) :
    countSuspended journal runId =
      (journal.mapValues (·.value)).entries.countP (isWaiting runId) := by
  change _ = (journal.entries.map _).countP _
  rw [countSuspended, countP_map]
  refine countP_congr ?_
  rintro ⟨key, row⟩ he
  dsimp only
  rw [h key row (OrderedMap.mem_entries_iff.1 he), Function.comp_apply, isWaiting, isRecord, rowFor,
    suspendedOf]
  rcases parseJournalKey key with _ | ⟨owner, kind'⟩
  · simp
  · simp [and_assoc]

end Recount

theorem Exact.putIfMatch [DecidableEq P] (h : Exact s) {expected : JournalValue P}
    (hget : s.contents.get key = some expected) (hclean : CleanWrite s.contents key value)
    (hinput : parseJournalKey key = none → ∀ runId, runIdOfKey key value = some runId →
      runId ≠ [] → Listed s.contents runId) :
    Exact (s.putIfMatch key expected value).2 := by
  rw [SqliteJournal.contents, OrderedMap.get_mapValues] at hget
  rw [SqliteJournal.putIfMatch, if_pos hget]
  refine h.write hclean rfl ?_ ?_
  · intro runId outcome hlists hrow
    dsimp only
    rcases hparse : parseJournalKey key with _ | ⟨owner, kind⟩
    · dsimp only
      rw [rowWith_put_of_parse_none hparse]
      by_cases hkey : ∃ status, outcomeOfKey key value = some (runId, status)
      · obtain ⟨status, hkey⟩ := hkey
        refine ⟨some status, get_touchOutcome_self hrow hkey,
          fun hnot => absurd ⟨hparse, status, hkey⟩ hnot, ?_⟩
        intro status' _ hkey'
        rw [hkey] at hkey'
        rw [(Prod.mk.inj (Option.some.inj hkey')).2]
      · refine ⟨outcome, ?_, fun _ => rfl, fun status _ hkey' => absurd ⟨status, hkey'⟩ hkey⟩
        rw [Lists, hparse] at hlists
        obtain ⟨howner, hne⟩ := hlists.resolve_right hkey
        -- The run of the input is listed by another key, and has a row.
        have hlisted := h.listed runId (hinput hparse runId howner hne)
        rw [hlisted, Option.getD_some] at hrow
        rw [get_touchOutcome_other fun status h => hkey ⟨status, h⟩, hlisted, hrow]
    · obtain rfl : owner = runId := by rwa [Lists, hparse] at hlists
      refine ⟨outcome, ?_, fun _ => rfl, fun _ hnone => by contradiction⟩
      have hcolumns := columns_upsert h key value
      have hzero : (⟨0, 0, false, 0, false, false, false⟩ : RunRow) = countedRow 0 0 0 none := rfl
      dsimp only
      rw [recountRun, OrderedMap.get_put_self, countKind_eq hcolumns, countKind_eq hcolumns,
        countSuspended_eq hcolumns, contents_upsert h, hzero, hrow]
      simp only [rowWith, countedRow, RunRow.withOutcome, Int.natCast_pos]
  · intro runId hnot
    dsimp only
    split
    · next hparse =>
      rw [Lists, hparse, not_or] at hnot
      exact get_touchOutcome_other fun status h => hnot.2 ⟨status, h⟩
    · next owner kind hparse =>
      refine OrderedMap.get_put_of_ne _ ?_ _
      rintro rfl
      exact parse_ne_of_not_lists hnot kind hparse

theorem Exact.putAll (puts : List (JsString × JournalValue P)) (h : Exact s)
    (hclean : CleanPuts s.contents puts) : Exact (puts.foldl (fun s (k, v) => s.putCore k v) s) := by
  induction puts generalizing s with
  | nil => exact h
  | cons e puts ih =>
    obtain ⟨key, value⟩ := e
    refine ih (h.putCore hclean.1) ?_
    change CleanPuts ((s.upsert key value).mapValues (·.value)) puts
    rw [contents_upsert h]
    exact hclean.2

/-- Counters are not in the index. -/
theorem Exact.incrs (incrs : List (JsString × List (JsString × ℤ))) (h : Exact s) :
    Exact (incrs.foldl (fun s (k, fields) => s.incrByCore k fields) s) ∧
      (incrs.foldl (fun s (k, fields) => s.incrByCore k fields) s).contents = s.contents := by
  induction incrs generalizing s with
  | nil => exact ⟨h, rfl⟩
  | cons e incrs ih => exact ih (s := s.incrByCore e.1 e.2) ⟨h.columns, h.listed, h.unlisted⟩

theorem Exact.applyWrites {batch : JournalBatch P} (h : Exact s)
    (hclean : CleanPuts s.contents batch.puts) : Exact (s.applyWrites batch) := by
  obtain ⟨hincrs, hcontents⟩ := h.incrs batch.incrs
  refine hincrs.putAll batch.puts ?_
  rwa [hcontents]

end Write

/-! ### Deleting a run -/

/-- A prefix that ends with a separator is in what is before the next one. -/
theorem prefix_or_eq {id word : JsString} (hword : sep ∉ word)
    (h : id ++ [sep] <+: runId ++ sep :: word) : id ++ [sep] <+: runId ∨ id = runId := by
  induction runId generalizing id with
  | nil =>
    rcases id with _ | ⟨u, id⟩
    · exact .inr rfl
    · obtain ⟨-, h⟩ := cons_prefix_cons.1 h
      exact absurd (h.subset (mem_append_right _ mem_cons_self)) hword
  | cons r runId ih =>
    rcases id with _ | ⟨u, id⟩
    · obtain ⟨rfl, -⟩ := cons_prefix_cons.1 h
      exact .inl (prefix_append [sep] runId)
    · obtain ⟨rfl, hrest⟩ := cons_prefix_cons.1 h
      rcases ih hrest with h | h
      · exact .inl (cons_prefix_cons.2 ⟨rfl, h⟩)
      · exact .inr (congrArg _ h)

/-- What a key that lists a run is, if it is no record: its input, or its outcome. -/
theorem eq_of_lists (hparse : parseJournalKey key = none) (h : Lists runId key value) :
    ∃ word, sep ∉ word ∧ key = runId ++ sep :: word := by
  rw [Lists, hparse] at h
  rcases h with ⟨h, -⟩ | ⟨status, h⟩
  · rw [runIdOfKey, hparse] at h
    dsimp only at h
    split at h
    · contradiction
    · exact ⟨js "input", by decide, beforeEnd_eq_some_iff.1 h⟩
  · rw [outcomeOfKey] at h
    split at h
    · next r status' hend _ =>
      obtain ⟨rfl, -⟩ := by simpa using h
      exact ⟨js "outcome", by decide, beforeEnd_eq_some_iff.1 hend⟩
    · contradiction

/-- The keys of a run begin with its id. -/
theorem prefix_of_lists (h : Lists runId key value) : runId ++ [sep] <+: key := by
  rcases hparse : parseJournalKey key with _ | ⟨owner, kind⟩
  · obtain ⟨word, -, rfl⟩ := eq_of_lists hparse h
    exact (prefix_append_right_inj runId).2 (prefix_append [sep] word)
  · rw [Lists, hparse] at h
    subst h
    obtain ⟨t, -, rfl⟩ := eq_of_parseJournalKey hparse
    refine (prefix_append_right_inj owner).2 ?_
    exact prefix_append [sep] (kind.word ++ [sep] ++ t)

theorem Exact.deleteRun {s : SqliteJournal P} (h : Exact s) {id : JsString}
    (hclean : ∀ key value, s.contents.get key = some value → key.startsWith (id ++ [sep]) →
      ∀ runId kind, parseJournalKey key = some (runId, kind) →
        runId = id ∨ runId.startsWith (id ++ [sep])) :
    Exact (s.deletePrefix (id ++ [sep])).2 := by
  have hrid : (if (id ++ [sep]).getLast? = some sep then (id ++ [sep]).dropLast else id ++ [sep]) = id := by
    rw [getLast?_concat, if_pos rfl, dropLast_concat]
  have hcontents : (s.deletePrefix (id ++ [sep])).2.contents =
      s.contents.filterKeys (!·.startsWith (id ++ [sep])) :=
    s.journal.mapValues_filterKeys _ _
  -- A run that stays keeps its keys.
  have hkept : ∀ {runId key : JsString} {value : JournalValue P},
      ¬(runId = id ∨ runId.startsWith (id ++ [sep])) → s.contents.get key = some value →
        Lists runId key value → ¬key.startsWith (id ++ [sep]) := by
    intro runId key value hstays hget hlists hstart
    rcases hparse : parseJournalKey key with _ | ⟨owner, kind⟩
    · obtain ⟨word, hword, rfl⟩ := eq_of_lists hparse hlists
      rcases prefix_or_eq hword (JsString.startsWith_iff.1 hstart) with h | h
      · exact hstays (.inr (JsString.startsWith_iff.2 h))
      · exact hstays (.inl h.symm)
    · obtain rfl : owner = runId := by rwa [Lists, hparse] at hlists
      exact hstays (hclean key value hget hstart owner kind hparse)
  have hruns (runId : JsString) : (s.deletePrefix (id ++ [sep])).2.runs.get runId =
      if runId = id ∨ runId.startsWith (id ++ [sep]) then none else s.runs.get runId := by
    rw [SqliteJournal.deletePrefix]
    dsimp only
    rw [hrid]
    split
    · next hgoes => exact OrderedMap.get_filterKeys_of_neg _ (by
        simpa [or_iff_not_imp_left] using hgoes)
    · next hstays => exact OrderedMap.get_filterKeys _ (by simpa using hstays)
  have hget {key : JsString} (hkey : ¬key.startsWith (id ++ [sep])) :
      (s.contents.filterKeys (!·.startsWith (id ++ [sep]))).get key = s.contents.get key :=
    OrderedMap.get_filterKeys _ (by simpa using hkey)
  refine ⟨fun key row hrow => ?_, fun runId hl => ?_, fun runId hl => ?_⟩
  · refine h.columns key row (OrderedMap.mem_entries_iff.1 ?_)
    exact mem_of_mem_filter (OrderedMap.mem_entries_iff.2 hrow)
  · rw [hcontents] at hl ⊢
    obtain ⟨⟨key, value⟩, he, hlists⟩ := listed_iff.1 hl
    obtain ⟨he, hkey⟩ := mem_filter.1 he
    have hstays : ¬(runId = id ∨ runId.startsWith (id ++ [sep])) := by
      -- The keys of a run that goes begin with the prefix.
      have hstart := prefix_of_lists hlists
      rintro (rfl | hr)
      · simp [JsString.startsWith_iff.2 hstart] at hkey
      · have hpre := (JsString.startsWith_iff.1 hr).trans ((prefix_append _ _).trans hstart)
        simp [JsString.startsWith_iff.2 hpre] at hkey
    have hlisted : Listed s.contents runId := listed_iff.2 ⟨_, he, hlists⟩
    rw [hruns, if_neg hstays, h.listed runId hlisted, rowIn, rowIn]
    have hrecord (kind : EntryKind) : ∀ e ∈ s.contents.entries, isRecord runId kind e →
        !e.1.startsWith (id ++ [sep]) := by
      intro e he hr
      have hlists : Lists runId e.1 e.2 := by rw [Lists, of_decide_eq_true hr]
      simpa using hkept hstays (OrderedMap.mem_entries_iff.1 he) hlists
    have hwaiting : ∀ e ∈ s.contents.entries, isWaiting runId e →
        !e.1.startsWith (id ++ [sep]) :=
      fun e he hw => hrecord .tool e he (Bool.and_eq_true_iff.1 hw).1
    have houtcome : ¬(runId ++ js ":outcome").startsWith (id ++ [sep]) := by
      intro hstart
      have hword : sep ∉ js "outcome" := by decide
      rcases prefix_or_eq hword (JsString.startsWith_iff.1 hstart) with h | h
      · exact hstays (.inr (JsString.startsWith_iff.2 h))
      · exact hstays (.inl h.symm)
    rw [rowWith, rowWith, OrderedMap.countP_filterKeys (hrecord .model),
      OrderedMap.countP_filterKeys (hrecord .tool), OrderedMap.countP_filterKeys hwaiting,
      outcomeIn, outcomeIn, hget houtcome]
  · rw [hcontents] at hl
    rw [hruns]
    split
    · rfl
    · next hstays =>
      refine h.unlisted runId fun hlisted => hl ?_
      obtain ⟨key, value, hkey, hlists⟩ := hlisted
      exact ⟨key, value, (hget (hkept hstays hkey hlists)).trans hkey, hlists⟩

/-! ## Runs -/

theorem exact_empty : Exact (SqliteJournal.empty : SqliteJournal P) := by
  refine ⟨fun key row h => by contradiction, fun runId h => ?_, fun _ _ => rfl⟩
  obtain ⟨key, value, hget, -⟩ := h
  contradiction

section Runs

variable [DecidableEq P]

/-- One operation. -/
theorem Exact.apply {s : SqliteJournal P} (h : Exact s) {op : IndexOp P}
    (hclean : CleanOp s.contents op) : Exact (s.apply op) := by
  have hnone {key : JsString} : s.contents.get key = none ↔ s.journal.get key = none := by
    rw [SqliteJournal.contents, OrderedMap.get_mapValues, Option.map_eq_none_iff]
  cases op with
  | put key value => exact h.putCore hclean
  | putIfAbsent key value =>
    rw [SqliteJournal.apply]
    rcases hget : s.journal.get key with _ | r
    · rw [putIfAbsentCore_eq hget]
      exact h.putCore (hclean (hnone.2 hget))
    · rw [SqliteJournal.putIfAbsentCore, hget]
      exact h
  | putIfMatch key expected value =>
    by_cases hget : s.contents.get key = some expected
    · exact h.putIfMatch hget (hclean hget).1 (hclean hget).2
    · rw [SqliteJournal.apply, SqliteJournal.putIfMatch, if_neg]
      · exact h
      · rwa [SqliteJournal.contents, OrderedMap.get_mapValues] at hget
  | applyBatch batch =>
    rw [SqliteJournal.apply, SqliteJournal.applyBatch]
    rw [CleanOp] at hclean
    rcases hclaim : batch.claim with _ | ⟨key, value⟩
    · rw [hclaim] at hclean
      exact h.applyWrites hclean
    · rw [hclaim] at hclean
      dsimp only at hclean ⊢
      rcases hget : s.journal.get key with _ | r
      · obtain ⟨hwrite, hputs⟩ := hclean (hnone.2 hget)
        rw [putIfAbsentCore_eq hget]
        refine (h.putCore hwrite).applyWrites ?_
        change CleanPuts ((s.upsert key value).mapValues (·.value)) batch.puts
        rwa [contents_upsert h]
      · rw [SqliteJournal.putIfAbsentCore, hget]
        exact h
  | deleteRun id => exact h.deleteRun hclean

/-- All operations, one after the other. -/
theorem Exact.run {s : SqliteJournal P} (h : Exact s) {ops : List (IndexOp P)}
    (hclean : CleanRun s ops) : Exact (ops.foldl SqliteJournal.apply s) := by
  induction ops generalizing s with
  | nil => exact h
  | cons op ops ih => exact ih (h.apply hclean.1) hclean.2

/-- The index tells what the journal in memory finds, in every state that clean operations lead
    to. -/
theorem run_index_exact (ops : List (IndexOp P)) (hclean : CleanRun SqliteJournal.empty ops) :
    IndexAgrees (ops.foldl SqliteJournal.apply SqliteJournal.empty) :=
  (exact_empty.run hclean).indexAgrees

end Runs

/-! ## Inputs of a run -/

/-- No value is an outcome. -/
def NoOutcome (store : JournalStore P) : Prop := ∀ e ∈ store.entries, e.2.outcomeStatus = none

theorem NoOutcome.outcomeIn (h : NoOutcome store) (runId : JsString) :
    outcomeIn store runId = none := by
  rw [Durable.outcomeIn, Option.bind_eq_none_iff]
  intro value hget
  exact h _ (OrderedMap.mem_entries_iff.2 hget)

/-- A write under a new key is clean where no value is an outcome. -/
theorem cleanWrite_new (hget : store.get key = none) (hstore : NoOutcome store)
    (hnew : NoOutcome (store.put key value)) : CleanWrite store key value := by
  refine ⟨fun runId h => ?_, fun runId _ _ => ⟨fun _ => ?_, fun _ => ?_⟩⟩
  · obtain ⟨key', value', h, hlists⟩ := h
    have hne : key' ≠ key := by
      rintro rfl
      rw [hget] at h
      contradiction
    exact ⟨key', value', (OrderedMap.get_put_of_ne _ hne _).trans h, hlists⟩
  · rw [hnew.outcomeIn, hstore.outcomeIn]
  · rw [hnew.outcomeIn]
    rfl

/-- A value, with the mark of a record of the journal or without it. -/
def indexValue (versioned : Bool) : JournalValue Unit := ⟨versioned, none, none, none, none, none, ()⟩

/-- A run with an input and a model step. -/
def beginIndexed : List (IndexOp Unit) :=
  [.put (js "r:input") (indexValue true), .put (js "r:model:1") (indexValue true)]

theorem run_index_exact_begin : CleanRun SqliteJournal.empty beginIndexed ∧
    IndexAgrees (beginIndexed.foldl SqliteJournal.apply SqliteJournal.empty) := by
  have hempty : NoOutcome (OrderedMap.empty : JournalStore Unit) :=
    fun e he => absurd he not_mem_nil
  have hinput : NoOutcome (OrderedMap.put .empty (js "r:input") (indexValue true)) :=
    OrderedMap.forall_put hempty rfl
  have hclean : CleanRun SqliteJournal.empty beginIndexed :=
    ⟨cleanWrite_new rfl hempty hinput,
      cleanWrite_new (by decide) hinput (OrderedMap.forall_put hinput rfl), trivial⟩
  exact ⟨hclean, run_index_exact beginIndexed hclean⟩

/-- An input that is marked by a conditional write: the run is in the keys, and not in the index. -/
theorem index_misses_run :
    ¬IndexAgrees ((([.put (js "r:input") (indexValue false),
      .putIfMatch (js "r:input") (indexValue false) (indexValue true)] : List (IndexOp Unit)).foldl
        SqliteJournal.apply SqliteJournal.empty)) := by
  intro h
  have hrow := h.rows (js "r")
  revert hrow
  decide

-- An outcome that is overwritten by a value that is none: the row still says that the run failed.
example : ¬IndexAgrees ((([.put (js "r:outcome") { indexValue false with status := some (js "failed") },
      .put (js "r:input") (indexValue true), .put (js "r:outcome") (indexValue false)] :
        List (IndexOp Unit)).foldl SqliteJournal.apply SqliteJournal.empty)) := by
  intro h
  have hrow := h.rows (js "r")
  revert hrow
  decide

end Gnldev.Durable
