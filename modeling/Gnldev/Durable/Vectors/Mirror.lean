import Gnldev.Durable.Vectors.Stores

/-!
# The database holds what memory holds

The rows of the SQLite store are those of the documents in memory (`Mirrors`). A batch that both
write keeps it so (`insertAll_eq`), and the SQL conditions of a delete and of a query take the rows
of the documents that the code takes in memory (`holds_deleteConds`, `holds_queryConds`): a condition
is on a text that a document can carry, and what NULL would hide is spelled out.
-/

open List

namespace Gnldev.Durable.Vectors

section Mirror

variable {sj : Superjson} {maxVariables : ℕ}

/-! ## Documents as rows -/

/-- Both stores keep the fields as they are. -/
def Kept (sj : Superjson) (m : Fields) : Prop :=
  clonableFields m = true ∧
    ∃ text, sj.stringify m = some text ∧ (bind text).val ≠ [] ∧ sj.parse (bind text).val = m

def VectorDoc.Kept (sj : Superjson) (d : VectorDoc) : Prop := ∀ m ∈ d.metadata, Vectors.Kept sj m

/-- The row of a document. -/
def VectorDoc.row (sj : Superjson) (d : VectorDoc) : VectorRow where
  text := bind d.text
  metadata := d.metadata.bind fun m => (sj.stringify m).map bind
  namespaceOf := d.namespaceOf
  owner := d.owner
  shared := if d.shared = some true then some 1 else none

theorem labels_row (d : VectorDoc) : (d.row sj).labels = d.labels := by
  rw [VectorRow.labels, VectorDoc.row, VectorDoc.labels, VectorLabels.mk.injEq]
  refine ⟨rfl, rfl, ?_⟩
  by_cases h : d.shared = some true <;> simp [h]

theorem structuredClone_eq {m : Fields} (h : clonableFields m) : structuredClone m = .ok m := if_pos h

section Kept

variable {d : VectorDoc} (h : d.Kept sj)

include h

theorem vectorItemCopy_eq : vectorItemCopy d = .ok d := by
  obtain ⟨text, metadata, namespaceOf, owner, shared, owner_ne⟩ := d
  rcases metadata with _ | m
  · rfl
  · rw [vectorItemCopy]
    dsimp only
    rw [structuredClone_eq (h m rfl).1]
    rfl

theorem metadataColumn_eq :
    SqliteVectorStore.metadataColumn sj d.metadata = .ok (d.row sj).metadata := by
  rw [VectorDoc.row]
  rcases hm : d.metadata with _ | m
  · rfl
  · obtain ⟨-, text, htext, -⟩ := h m hm
    rw [SqliteVectorStore.metadataColumn, htext, Option.bind_some, htext]
    rfl

theorem readMetadata_row : SqliteVectorStore.readMetadata sj (d.row sj).metadata = d.metadata := by
  rw [VectorDoc.row, SqliteVectorStore.readMetadata]
  rcases hm : d.metadata with _ | m
  · rfl
  · obtain ⟨-, text, htext, hne, hparse⟩ := h m hm
    rw [Option.bind_some, htext]
    have hread : (some (bind text)).filter (fun text => decide (text.val ≠ [])) = some (bind text) :=
      Option.filter_some_pos (decide_eq_true hne)
    exact (congrArg _ hread).trans (congrArg some hparse)

end Kept

/-- The database holds what memory holds. -/
structure Mirrors (sj : Superjson) (s : InMemoryVectorStore) (t : SqliteVectorStore) : Prop where
  rows : t = s.mapValues (·.row sj)
  kept : ∀ e ∈ s.entries, e.2.Kept sj

variable {s : InMemoryVectorStore} {t : SqliteVectorStore}

theorem Mirrors.get (h : Mirrors sj s t) (id : Text) : t.get id = (s.get id).map (·.row sj) := by
  rw [h.rows, OrderedMap.get_mapValues]

theorem Mirrors.labelsOf (h : Mirrors sj s t) : t.labelsOf = s.labelsOf := by
  funext id
  rw [SqliteVectorStore.labelsOf, InMemoryVectorStore.labelsOf, bind_val, h.get, Option.map_map]
  exact congrArg (Option.map · _) (funext labels_row)

/-! ## Writing -/

/-- A batch that may be written over what is stored. -/
def SameOwners (stored : Text → Option VectorLabels) (batch : List (Text × VectorDoc)) : Prop :=
  ∀ e ∈ batch, ∀ l ∈ stored e.1, l = e.2.labels

variable {batch : List (Text × VectorDoc)}

theorem assertSameOwners_eq_ok {stored : Text → Option VectorLabels} :
    assertSameOwners stored batch = .ok () ↔ SameOwners stored batch := by
  rw [assertSameOwners]
  induction batch with
  | nil => exact iff_of_true rfl nofun
  | cons e batch ih =>
    rw [SameOwners, forall_mem_cons, ← @assertSameVectorOwner_eq_ok _ e.1]
    change (assertSameVectorOwner (stored e.1) e.1 e.2.labels >>= fun _ => _) = _ ↔ _
    rcases assertSameVectorOwner (stored e.1) e.1 e.2.labels with err | u
    · exact iff_of_false nofun fun h => by cases h.1
    · exact ih.trans (and_iff_right rfl).symm

/-- What is stored after a batch. -/
def putAll (s : InMemoryVectorStore) (batch : List (Text × VectorDoc)) : InMemoryVectorStore :=
  batch.foldl (fun s e => s.put e.1 e.2) s

theorem writeAll_eq (h : ∀ e ∈ batch, e.2.Kept sj) :
    s.writeAll batch = (.written, putAll s batch) := by
  induction batch generalizing s with
  | nil => rfl
  | cons e batch ih =>
    obtain ⟨id, it⟩ := e
    rw [forall_mem_cons] at h
    rw [InMemoryVectorStore.writeAll, vectorItemCopy_eq h.1]
    exact ih h.2

theorem putAll_kept (h : ∀ e ∈ batch, e.2.Kept sj) (hs : ∀ e ∈ s.entries, e.2.Kept sj) :
    ∀ e ∈ (putAll s batch).entries, e.2.Kept sj := by
  induction batch generalizing s with
  | nil => exact hs
  | cons e batch ih =>
    rw [forall_mem_cons] at h
    exact ih h.2 (OrderedMap.forall_put hs h.1)

/-- A document that is stored before and after stays whose it was. -/
theorem putAll_labels (h : SameOwners s.labelsOf batch) (hnodup : (batch.map Prod.fst).Nodup)
    {id : Text} {d d' : VectorDoc} (hd : s.get id = some d)
    (hd' : (putAll s batch).get id = some d') : d'.labels = d.labels := by
  induction batch generalizing s d with
  | nil => rw [Option.some.inj (hd.symm.trans hd')]
  | cons e batch ih =>
    obtain ⟨id', it⟩ := e
    rw [SameOwners, forall_mem_cons] at h
    rw [map_cons, nodup_cons] at hnodup
    have hrest : SameOwners (InMemoryVectorStore.labelsOf (s.put id' it)) batch := by
      intro e he l hl
      have hne : e.1 ≠ id' := fun heq => hnodup.1 (mem_map.2 ⟨e, he, heq⟩)
      rw [InMemoryVectorStore.labelsOf, OrderedMap.get_put_of_ne _ hne] at hl
      exact h.2 e he l hl
    by_cases heq : id = id'
    · subst heq
      have hlabels : d.labels = it.labels :=
        h.1 _ (by rw [InMemoryVectorStore.labelsOf, hd]; rfl)
      rw [hlabels]
      exact ih hrest hnodup.2 (OrderedMap.get_put_self s id it) hd'
    · exact ih hrest hnodup.2 ((OrderedMap.get_put_of_ne s heq it).trans hd) hd'

theorem insert_eq {id : Text} {it : VectorDoc} (hit : it.Kept sj)
    (hsame : ∀ d ∈ s.get id, d.labels = it.labels) :
    SqliteVectorStore.insert sj (s.mapValues (·.row sj)) id it =
      .ok ((s.put id it).mapValues (·.row sj)) := by
  rw [SqliteVectorStore.insert, metadataColumn_eq hit, bind_val, OrderedMap.get_mapValues,
    OrderedMap.mapValues_put]
  rcases hget : s.get id with _ | d
  · refine congrArg (fun r => Except.ok ((s.mapValues (·.row sj)).put id r)) ?_
    rw [VectorDoc.row, VectorRow.mk.injEq]
    exact ⟨rfl, rfl, by simp, by simp, rfl⟩
  · -- The labels of the row are the document's: the update leaves them.
    have hlabels := hsame d hget
    rw [VectorDoc.labels, VectorDoc.labels, VectorLabels.mk.injEq, decide_eq_decide] at hlabels
    refine congrArg (fun r => Except.ok ((s.mapValues (·.row sj)).put id r)) ?_
    rw [VectorDoc.row, VectorRow.mk.injEq]
    exact ⟨rfl, rfl, hlabels.1, hlabels.2.1, if_congr hlabels.2.2 rfl rfl⟩

theorem insertAll_eq (hkept : ∀ e ∈ batch, e.2.Kept sj) (hnodup : (batch.map Prod.fst).Nodup)
    (hsame : SameOwners s.labelsOf batch) :
    batch.foldlM (fun t (id, it) => SqliteVectorStore.insert sj t id it)
      (s.mapValues (·.row sj)) = .ok ((putAll s batch).mapValues (·.row sj)) := by
  induction batch generalizing s with
  | nil => rfl
  | cons e batch ih =>
    obtain ⟨id, it⟩ := e
    rw [forall_mem_cons] at hkept
    rw [SameOwners, forall_mem_cons] at hsame
    rw [map_cons, nodup_cons] at hnodup
    have hput : SqliteVectorStore.insert sj (s.mapValues (·.row sj)) id it = _ :=
      insert_eq hkept.1 fun d hd => hsame.1 _ (Option.mem_map_of_mem _ hd)
    rw [foldlM_cons]
    dsimp only
    rw [hput]
    refine ih hkept.2 hnodup.2 fun e he l hl => ?_
    have hne : e.1 ≠ id := fun heq => hnodup.1 (mem_map.2 ⟨e, he, heq⟩)
    rw [InMemoryVectorStore.labelsOf, OrderedMap.get_put_of_ne _ hne] at hl
    exact hsame.2 e he l hl

/-! ## Deleting -/

theorem Text.eq_bind_iff {a : Text} {s : JsString} (hs : isWellFormed s) : a = bind s ↔ a.val = s :=
  ⟨fun h => by rw [h, val_bind hs], fun h => by rw [← h, bind_val]⟩

theorem map_val_eq_iff {a : Option Text} {s : JsString} (hs : isWellFormed s) :
    a = some (bind s) ↔ a.map (·.val) = some s := by
  rcases a with _ | a
  · exact iff_of_false nofun nofun
  · rw [Option.some.injEq, Option.map_some, Option.some.injEq, Text.eq_bind_iff hs]

/-- The conditions are on texts that a document can carry, and there are some. -/
structure VectorDeleteWhere.Plain (p : VectorDeleteWhere) : Prop where
  selecting : p.Selecting
  ids : ∀ ids ∈ p.ids, ∀ s ∈ ids, isWellFormed s
  owner : ∀ o ∈ p.owner, isWellFormed o
  namespaceOf : ∀ ns ∈ p.namespaceOf, isWellFormed ns

variable {p : VectorDeleteWhere}

theorem plain_of_vectorDeletePlan {w : VectorDeleteWhere} (h : vectorDeletePlan w = some p) :
    p.Plain := by
  obtain ⟨hw, rfl⟩ := vectorDeletePlan_eq_some.1 h
  refine ⟨?_, fun ids hids s hs => ?_, hw.owner, hw.namespaceOf⟩
  · rcases hw.selecting with h | h | h | ⟨f, hf, hne⟩
    · exact .inl (by simpa [VectorDeleteWhere.planned] using h)
    · exact .inr (.inl h)
    · exact .inr (.inr (.inl h))
    · refine .inr (.inr (.inr ⟨f, ?_, hne⟩))
      rw [VectorDeleteWhere.planned, Option.mem_def.1 hf]
      rw [Option.filter_some, if_pos (by simpa using hne)]
      rfl
  · obtain ⟨ids, -, rfl⟩ := Option.mem_map.1 hids
    exact (mem_filter.1 hs).2

theorem holds_outsideOrganizationsSql (id : Text) (d : VectorDoc) :
    Sql.holds (SqliteVectorStore.outsideOrganizationsSql (id, d.row sj)) =
      !vectorInOrganization (d.namespaceOf.map (·.val)) := by
  rw [SqliteVectorStore.outsideOrganizationsSql, Sql.holds_or, Sql.holds_is, Sql.holds_differs,
    VectorDoc.row]
  rcases d.namespaceOf with _ | ns
  · rfl
  · have hall : ORG_NAMESPACE.all (isHigh · == false) = true := by decide
    have hplain : ∀ u ∈ ORG_NAMESPACE, isHigh u = false := fun u hu =>
      eq_of_beq (all_eq_true.1 hall u hu)
    have hstart : decide (substring ORG_NAMESPACE.length ns.val = ORG_NAMESPACE) =
        ns.val.startsWith ORG_NAMESPACE := by
      rw [Bool.eq_iff_iff, decide_eq_true_eq, substring_eq_iff hplain, JsString.startsWith_iff]
    simp [vectorInOrganization, hstart]

/-- The database reads the conditions of a plan as memory does. -/
theorem holds_deleteConds (hp : p.Plain) (id : Text) {d : VectorDoc} (hd : d.Kept sj) :
    (Sql.holds (Sql.conj (SqliteVectorStore.deleteConds p) (id, d.row sj)) &&
      vectorMetadataMatches (SqliteVectorStore.readMetadata sj (d.row sj).metadata) p.filter) =
      vectorDeleteMatcher p id d := by
  have hids (ids) (hmem : p.ids = some ids) :
      Sql.holds (Sql.inList (some id) (ids.map bind)) = decide (id.val ∈ ids) := by
    rw [Sql.holds_inList_some, decide_eq_decide, mem_map]
    constructor
    · rintro ⟨s, hs, heq⟩
      rwa [(Text.eq_bind_iff (hp.ids ids hmem s hs)).1 heq.symm]
    · exact fun hmem => ⟨id.val, hmem, bind_val id⟩
  have howner (o) (hmem : p.owner = some o) :
      Sql.holds (Sql.equals (d.row sj).owner (some (bind o))) =
        decide (d.owner.map (·.val) = some o) := by
    rw [Sql.holds_equals, decide_eq_decide]
    exact map_val_eq_iff (hp.owner o hmem)
  have hns (ns) (hmem : p.namespaceOf = some ns) :
      Sql.holds (Sql.equals (d.row sj).namespaceOf (some (bind ns))) =
        decide (d.namespaceOf.map (·.val) = some ns) := by
    rw [Sql.holds_equals, decide_eq_decide]
    exact map_val_eq_iff (hp.namespaceOf ns hmem)
  rw [readMetadata_row hd, vectorDeleteMatcher, Sql.holds_conj, SqliteVectorStore.deleteConds,
    all_append, all_append, all_append]
  refine congrArg (· && _) (congrArg₂ _ (congrArg₂ _ (congrArg₂ _ ?_ ?_) ?_) ?_)
  · rcases h : p.ids with _ | ids
    · rfl
    · simp [hids ids h]
  · rcases h : p.owner with _ | o
    · rfl
    · simp [howner o h]
  · rcases h : p.namespaceOf with _ | ns
    · rfl
    · simp [hns ns h]
  · rcases p.outsideOrganizations with _ | _
    · rfl
    · simp [holds_outsideOrganizationsSql]

theorem deleteRows_eq {gone : Text × VectorRow → Bool} {gone' : Text × VectorDoc → Bool}
    (h : ∀ e ∈ s.entries, gone (e.1, e.2.row sj) = gone' e) :
    SqliteVectorStore.deleteRows (s.mapValues (·.row sj)) gone =
      (s.entries.countP gone', (s.filterEntries fun e => !gone' e).mapValues (·.row sj)) := by
  have hkept : (s.filterEntries fun e => !gone' e).mapValues (·.row sj) =
      (s.mapValues (·.row sj)).filterEntries fun r => !gone r :=
    OrderedMap.mapValues_filterEntries fun e he => congrArg not (h e he)
  rw [SqliteVectorStore.deleteRows, hkept]
  refine congrArg (·, _) ?_
  change (s.entries.map _).countP gone = _
  rw [countP_map]
  exact countP_congr fun e he => by rw [← h e he]; rfl

/-- What a delete may be given: so many parameters, and so many documents behind a filter. -/
structure WithinLimit (maxVariables : ℕ) (s : InMemoryVectorStore) (p : VectorDeleteWhere) :
    Prop where
  params : SqliteVectorStore.deleteParams p ≤ maxVariables
  filtered : p.filter ≠ none →
    (s.entries.countP fun e => vectorDeleteMatcher p e.1 e.2) ≤ maxVariables

theorem deletePlanned_eq (hp : p.Plain) (hkept : ∀ e ∈ s.entries, e.2.Kept sj)
    (hlimit : WithinLimit maxVariables s p) :
    SqliteVectorStore.deletePlanned sj maxVariables (s.mapValues (·.row sj)) p =
      .ok (s.entries.countP fun e => vectorDeleteMatcher p e.1 e.2,
        (s.filterEntries fun e => !vectorDeleteMatcher p e.1 e.2).mapValues (·.row sj)) := by
  have hprepare :
      SqliteVectorStore.prepare maxVariables (SqliteVectorStore.deleteParams p) = .ok () :=
    if_pos hlimit.params
  have hmatch (e) (he : e ∈ s.entries) := holds_deleteConds hp e.1 (hkept e he)
  rw [SqliteVectorStore.deletePlanned]
  rcases hfilter : p.filter with _ | filter
  · -- Without a filter one of the conditions selects.
    have hconds : (SqliteVectorStore.deleteConds p).isEmpty = false := by
      rw [SqliteVectorStore.deleteConds]
      rcases hp.selecting with h | h | h | ⟨f, hf, -⟩
      · obtain ⟨ids, hids⟩ := Option.ne_none_iff_exists'.1 h
        simp [hids]
      · obtain ⟨o, ho⟩ := Option.ne_none_iff_exists'.1 h
        simp [ho]
      · obtain ⟨ns, hns⟩ := Option.ne_none_iff_exists'.1 h
        simp [hns]
      · exact absurd (hfilter.symm.trans hf).symm (Option.some_ne_none _)
    dsimp only
    rw [hconds, if_neg Bool.false_ne_true, hprepare]
    refine congrArg Except.ok (deleteRows_eq fun e he => ?_)
    rw [← hmatch e he, hfilter, vectorMetadataMatches, Bool.and_true]
  · -- With one, the rows are deleted by their ids.
    let q (r : Text × VectorRow) :=
      Sql.holds (Sql.conj (SqliteVectorStore.deleteConds p) r) &&
        vectorMetadataMatches (SqliteVectorStore.readMetadata sj r.2.metadata) p.filter
    have hids : ((((s.mapValues (·.row sj)).entries.filter fun r =>
        Sql.holds (Sql.conj (SqliteVectorStore.deleteConds p) r)).filter fun r =>
          vectorMetadataMatches (SqliteVectorStore.readMetadata sj r.2.metadata) (some filter)).map
            Prod.fst) = ((s.mapValues (·.row sj)).entries.filter q).map Prod.fst := by
      rw [filter_filter, ← hfilter]
      exact congrArg _ (filter_congr fun r _ => Bool.and_comm _ _)
    have hcount : (((s.mapValues (·.row sj)).entries.filter q).map Prod.fst).length =
        s.entries.countP fun e => vectorDeleteMatcher p e.1 e.2 := by
      rw [length_map, ← countP_eq_length_filter]
      exact congrArg Prod.fst (deleteRows_eq hmatch)
    dsimp only
    rw [hprepare, hids]
    change (if _ then _ else _) = _
    split
    · next hempty =>
      rw [isEmpty_iff_length_eq_zero, hcount] at hempty
      have hnone (e) (he : e ∈ s.entries) : vectorDeleteMatcher p e.1 e.2 = false :=
        Bool.eq_false_iff.2 (countP_eq_zero.1 hempty e he)
      rw [hempty, OrderedMap.filterEntries_eq_self fun e he => by rw [hnone e he]; rfl]
      rfl
    · have hmany : SqliteVectorStore.prepare maxVariables
          (((s.mapValues (·.row sj)).entries.filter q).map Prod.fst).length = .ok () := by
        rw [hcount]
        exact if_pos (hlimit.filtered (by simp [hfilter]))
      rw [hmany]
      refine congrArg Except.ok (deleteRows_eq fun e he => ?_)
      have hrow : (e.1, e.2.row sj) ∈ (s.mapValues (·.row sj)).entries :=
        mem_map.2 ⟨e, he, rfl⟩
      rw [← hmatch e he, Sql.holds_inList_some, Bool.eq_iff_iff, decide_eq_true_eq]
      exact OrderedMap.mem_keys_filter_iff (q := q) hrow

/-! ## Asking -/

theorem holds_queryConds {scope : VectorQueryScope} (hns : ∀ ns ∈ scope.namespaceOf, isWellFormed ns)
    (hvisible : ∀ u ∈ scope.visibleTo, isWellFormed u) (id : Text) (d : VectorDoc) :
    Sql.holds (Sql.conj (SqliteVectorStore.queryConds scope) (id, d.row sj)) =
      ((scope.namespaceOf = none || d.namespaceOf.map (·.val) = scope.namespaceOf) &&
        visibleToSubject d scope.visibleTo) := by
  rw [Sql.holds_conj, SqliteVectorStore.queryConds, all_append]
  refine congrArg₂ _ ?_ ?_
  · rcases h : scope.namespaceOf with _ | ns
    · rfl
    · have hval : d.namespaceOf = some (bind ns) ↔ _ := map_val_eq_iff (hns ns h)
      simp [VectorDoc.row, hval]
  · rcases h : scope.visibleTo with _ | u
    · rfl
    · have hval : d.owner = some (bind u) ↔ _ := map_val_eq_iff (hvisible u h)
      have howner : d.owner ≠ none ∧ d.owner.map (·.val) = some u ↔ d.owner = some (bind u) := by
        rw [hval]
        exact and_iff_right_of_imp fun heq hnone => by rw [hnone] at heq; cases heq
      simp [visibleToSubject, ← howner, VectorDoc.row]

/-- A document as the database returns it. -/
def VectorMatch.stored (m : VectorMatch) : VectorMatch := { m with text := (bind m.text).val }

theorem wellFormed_vectorQueryScope {opts : VectorQueryOptions}
    (h : (vectorQueryScope opts).isNone = false) :
    (∀ ns ∈ (vectorQueryScope opts).namespaceOf, isWellFormed ns) ∧
      ∀ u ∈ (vectorQueryScope opts).visibleTo, isWellFormed u := by
  constructor
  · intro ns hns
    simpa using (Option.any_eq_false _ _).1 h ns hns
  · intro u hu
    obtain ⟨v, -, rfl⟩ := Option.mem_map.1 hu
    split
    · next hv => exact hv
    · rfl

/-- The stores answer a query from the same documents. -/
theorem Mirrors.query (h : Mirrors sj s t) (opts : VectorQueryOptions) :
    t.query sj opts = (s.query opts).map VectorMatch.stored := by
  rw [SqliteVectorStore.query, InMemoryVectorStore.query]
  rcases hnone : (vectorQueryScope opts).isNone with _ | _
  · obtain ⟨hns, hvisible⟩ := wellFormed_vectorQueryScope hnone
    have hrows : (s.mapValues (·.row sj)).entries = s.entries.map fun e => (e.1, e.2.row sj) := rfl
    dsimp only
    rw [if_neg Bool.false_ne_true, if_neg Bool.false_ne_true, h.rows, hrows, filter_map,
      filter_filter, filter_map, map_map, map_map]
    have hfilter : s.entries.filter (fun e =>
        vectorMetadataMatches (SqliteVectorStore.readMetadata sj (e.2.row sj).metadata) opts.filter &&
          Sql.holds (Sql.conj (SqliteVectorStore.queryConds (vectorQueryScope opts))
            (e.1, e.2.row sj))) = s.entries.filter (fun e =>
        ((vectorQueryScope opts).namespaceOf = none ||
            e.2.namespaceOf.map (·.val) = (vectorQueryScope opts).namespaceOf)
          && visibleToSubject e.2 (vectorQueryScope opts).visibleTo
          && vectorMetadataMatches e.2.metadata opts.filter) := by
      refine filter_congr fun e he => ?_
      rw [readMetadata_row (h.kept e he), holds_queryConds hns hvisible, Bool.and_comm]
    refine (congrArg (List.map _) hfilter).trans (map_congr_left fun e he => ?_)
    have hkept := h.kept e (mem_of_mem_filter he)
    change VectorMatch.mk _ _ _ _ = VectorMatch.mk _ _ _ _
    rw [readMetadata_row hkept, labels_row]
    rfl
  · rfl

end Mirror

end Gnldev.Durable.Vectors
