import Gnldev.Durable.Vectors.Mirror

/-!
# The vector stores agree

The store in memory and the one in SQLite, called alike. If the stores keep the metadata they are
given and the database takes the parameters of a delete (`VectorCall.Fits`), they answer alike, no
document changes hands, and a delete takes what its conditions name (`Mirrors.upheld`); and so in
every run of such calls (`stores_agree`).

What they are not to be given is a function in the metadata: its copy is refused when the documents
before it in the batch are written (`half_written`).
-/

namespace Gnldev.Durable.Vectors

/-- The two stores. -/
structure VectorStores where
  memory : InMemoryVectorStore
  table : SqliteVectorStore

section Agree

variable {sj : Superjson} {maxVariables : ℕ}

/-- The stores after a call. -/
def VectorStores.call (sj : Superjson) (maxVariables : ℕ) (s : VectorStores) (c : VectorCall) :
    VectorStores :=
  ⟨(s.memory.call c).2, (s.table.call sj maxVariables c).2⟩

/-- A call after which the stores can agree: of a batch that passes the checks, both keep the
    metadata; of a delete, the database takes the parameters. -/
def VectorCall.Fits (sj : Superjson) (maxVariables : ℕ) (s : VectorStores) : VectorCall → Prop
  | .upsert items => ∀ batch, vectorWriteBatch items = .ok batch →
    SameOwners s.memory.labelsOf batch.entries → ∀ e ∈ batch.entries, e.2.Kept sj
  | .delete w => ∀ p ∈ vectorDeletePlan w, WithinLimit maxVariables s.memory p

/-- What is promised of a call. -/
structure Upheld (sj : Superjson) (maxVariables : ℕ) (s : VectorStores) (c : VectorCall) : Prop where
  answer : (s.table.call sj maxVariables c).1 = (s.memory.call c).1
  /-- A refused call changes nothing. -/
  refused : ∀ e, (s.memory.call c).1 = .thrown e → s.call sj maxVariables c = s
  /-- A document that stays is whose it was. -/
  memoryLabels : ∀ id l l', s.memory.labelsOf id = some l →
    (s.call sj maxVariables c).memory.labelsOf id = some l' → l' = l
  tableLabels : ∀ id l l', s.table.labelsOf id = some l →
    (s.call sj maxVariables c).table.labelsOf id = some l' → l' = l
  /-- A delete removes the documents that meet all its conditions, and no others. -/
  deleted : ∀ w, c = .delete w → ∀ id d, (s.call sj maxVariables c).memory.get id = some d ↔
    s.memory.get id = some d ∧ ¬w.Names id d
  rowsDeleted : ∀ w, c = .delete w → ∀ id d, s.memory.get id = some d →
    (((s.call sj maxVariables c).table.get id).isSome ↔ ¬w.Names id d)
  nothing : ∀ w, c = .delete w → ¬w.Selecting → s.call sj maxVariables c = s
  organizations : ∀ w, c = .delete w → w.outsideOrganizations → ∀ id d ns,
    s.memory.get id = some d → ns ∈ d.namespaceOf → ORG_NAMESPACE <+: ns.val →
      (s.call sj maxVariables c).memory.get id = some d

/-- What is promised of a query: both stores answer from the same documents, and on behalf of a user
    from those that are shared or the user's. -/
structure AnswersAlike (sj : Superjson) (s : VectorStores) : Prop where
  same : ∀ opts, s.table.query sj opts = (s.memory.query opts).map VectorMatch.stored
  visible : ∀ opts u, opts.visibleTo = some u → ∀ m ∈ s.memory.query opts,
    m.labels.shared = true ∨ ∃ o ∈ m.labels.owner, o.val = u

/-! ## One call -/

variable {s : VectorStores}

theorem Mirrors.upsert (h : Mirrors sj s.memory s.table) {items : List VectorItem}
    (hfits : (VectorCall.upsert items).Fits sj maxVariables s) :
    (∃ e, s.memory.upsert items = (.thrown e, s.memory) ∧
      s.table.upsert sj items = (.thrown e, s.table)) ∨
    ∃ batch : OrderedMap Text VectorDoc, SameOwners s.memory.labelsOf batch.entries ∧
      (∀ e ∈ batch.entries, e.2.Kept sj) ∧
      s.memory.upsert items = (.written, putAll s.memory batch.entries) ∧
      s.table.upsert sj items = (.written, (putAll s.memory batch.entries).mapValues (·.row sj)) := by
  rw [InMemoryVectorStore.upsert, SqliteVectorStore.upsert]
  rcases hbatch : vectorWriteBatch items with e | batch
  · exact .inl ⟨e, rfl, rfl⟩
  · dsimp only
    rw [SqliteVectorStore.transact, h.labelsOf]
    rcases hsame : assertSameOwners s.memory.labelsOf batch.entries with e | _
    · exact .inl ⟨e, rfl, rfl⟩
    · have howners := assertSameOwners_eq_ok.1 hsame
      have hkept := hfits batch hbatch howners
      have hrows := insertAll_eq hkept batch.nodup howners
      rw [← h.rows] at hrows
      refine .inr ⟨batch, howners, hkept, writeAll_eq hkept, ?_⟩
      rw [hrows]
      rfl

/-- The documents a delete takes. -/
def taken (w : VectorDeleteWhere) (e : Text × VectorDoc) : Bool :=
  (vectorDeletePlan w).any fun p => vectorDeleteMatcher p e.1 e.2

theorem Mirrors.delete (h : Mirrors sj s.memory s.table) {w : VectorDeleteWhere}
    (hfits : (VectorCall.delete w).Fits sj maxVariables s) :
    s.memory.delete w = (.deleted (s.memory.entries.countP (taken w)),
        s.memory.filterEntries fun e => !taken w e) ∧
      s.table.delete sj maxVariables w = (.deleted (s.memory.entries.countP (taken w)),
        (s.memory.filterEntries fun e => !taken w e).mapValues (·.row sj)) := by
  rw [InMemoryVectorStore.delete, SqliteVectorStore.delete]
  rcases hplan : vectorDeletePlan w with _ | p
  · have hnone (e : Text × VectorDoc) : taken w e = false := by rw [taken, hplan]; rfl
    have hcount : s.memory.entries.countP (taken w) = 0 :=
      List.countP_eq_zero.2 fun e _ => by rw [hnone e]; exact Bool.false_ne_true
    have hkept : s.memory.filterEntries (fun e => !taken w e) = s.memory :=
      OrderedMap.filterEntries_eq_self fun e _ => by rw [hnone e]; rfl
    rw [hcount, hkept, ← h.rows]
    exact ⟨rfl, rfl⟩
  · have htaken : taken w = fun e => vectorDeleteMatcher p e.1 e.2 := by
      funext e
      rw [taken, hplan]
      rfl
    rw [htaken]
    constructor
    · refine Prod.ext (congrArg VectorAnswer.deleted ?_) rfl
      change s.memory.entries.length - (s.memory.entries.filter _).length = _
      have hlength := List.length_eq_length_filter_add (l := s.memory.entries)
        fun e => vectorDeleteMatcher p e.1 e.2
      rw [List.countP_eq_length_filter]
      dsimp only
      omega
    · have hdelete := deletePlanned_eq (plain_of_vectorDeletePlan hplan) h.kept (hfits p hplan)
      rw [← h.rows] at hdelete
      dsimp only
      rw [hdelete]

variable {c : VectorCall}

/-- A call keeps the rows those of the documents. -/
theorem Mirrors.call (h : Mirrors sj s.memory s.table) (hfits : c.Fits sj maxVariables s) :
    Mirrors sj (s.call sj maxVariables c).memory (s.call sj maxVariables c).table := by
  rw [VectorStores.call]
  cases c with
  | upsert items =>
    rw [InMemoryVectorStore.call, SqliteVectorStore.call]
    rcases h.upsert hfits with ⟨e, hm, ht⟩ | ⟨batch, -, hkept, hm, ht⟩
    · rw [hm, ht]
      exact h
    · rw [hm, ht]
      exact ⟨rfl, putAll_kept hkept h.kept⟩
  | delete w =>
    obtain ⟨hm, ht⟩ := h.delete hfits
    rw [InMemoryVectorStore.call, SqliteVectorStore.call, hm, ht]
    exact ⟨rfl, fun e he => h.kept e (List.mem_of_mem_filter he)⟩

theorem Mirrors.memoryLabels (h : Mirrors sj s.memory s.table) (hfits : c.Fits sj maxVariables s)
    {id : Text} {l l' : VectorLabels} (hl : s.memory.labelsOf id = some l)
    (hl' : (s.call sj maxVariables c).memory.labelsOf id = some l') : l' = l := by
  obtain ⟨d, hd, rfl⟩ := Option.map_eq_some_iff.1 hl
  obtain ⟨d', hd', rfl⟩ := Option.map_eq_some_iff.1 hl'
  rw [VectorStores.call] at hd'
  cases c with
  | upsert items =>
    rw [InMemoryVectorStore.call] at hd'
    rcases h.upsert hfits with ⟨e, hm, -⟩ | ⟨batch, hsame, -, hm, -⟩
    · rw [hm] at hd'
      rw [Option.some.inj (hd'.symm.trans hd)]
    · rw [hm] at hd'
      exact putAll_labels hsame batch.nodup hd hd'
  | delete w =>
    rw [InMemoryVectorStore.call, (h.delete hfits).1] at hd'
    rw [Option.some.inj ((OrderedMap.get_filterEntries_eq_some.1 hd').1.symm.trans hd)]

theorem Mirrors.deleted (h : Mirrors sj s.memory s.table) {w : VectorDeleteWhere}
    (hfits : (VectorCall.delete w).Fits sj maxVariables s) (id : Text) (d : VectorDoc) :
    (s.call sj maxVariables (.delete w)).memory.get id = some d ↔
      s.memory.get id = some d ∧ ¬w.Names id d := by
  rw [VectorStores.call, InMemoryVectorStore.call, (h.delete hfits).1]
  refine OrderedMap.get_filterEntries_eq_some.trans (and_congr_right fun _ => ?_)
  rw [← taken_iff, Bool.not_eq_true', Bool.not_eq_true]
  rfl

/-- A call that fits does what is promised. -/
theorem Mirrors.upheld (h : Mirrors sj s.memory s.table) (hfits : c.Fits sj maxVariables s) :
    Upheld sj maxVariables s c where
  answer := by
    cases c with
    | upsert items =>
      rw [InMemoryVectorStore.call, SqliteVectorStore.call]
      rcases h.upsert hfits with ⟨e, hm, ht⟩ | ⟨batch, -, -, hm, ht⟩ <;> rw [hm, ht]
    | delete w =>
      rw [InMemoryVectorStore.call, SqliteVectorStore.call, (h.delete hfits).1, (h.delete hfits).2]
  refused := by
    intro e he
    rw [VectorStores.call]
    cases c with
    | upsert items =>
      rw [InMemoryVectorStore.call, SqliteVectorStore.call] at *
      rcases h.upsert hfits with ⟨e, hm, ht⟩ | ⟨batch, -, -, hm, -⟩
      · rw [hm, ht]
      · rw [hm] at he
        cases he
    | delete w =>
      rw [InMemoryVectorStore.call, (h.delete hfits).1] at he
      cases he
  memoryLabels := fun id l l' hl hl' => h.memoryLabels hfits hl hl'
  tableLabels := by
    intro id l l' hl hl'
    rw [h.labelsOf] at hl
    rw [(h.call hfits).labelsOf] at hl'
    exact h.memoryLabels hfits hl hl'
  deleted := by
    rintro w rfl
    exact h.deleted hfits
  rowsDeleted := by
    rintro w rfl id d hd
    rw [(h.call hfits).get, Option.isSome_map, Option.isSome_iff_exists]
    constructor
    · rintro ⟨d', hd'⟩
      obtain ⟨hget, hnot⟩ := (h.deleted hfits id d').1 hd'
      rwa [Option.some.inj (hd.symm.trans hget)]
    · exact fun hnot => ⟨d, (h.deleted hfits id d).2 ⟨hd, hnot⟩⟩
  nothing := by
    rintro w rfl hw
    rw [VectorStores.call, InMemoryVectorStore.call, SqliteVectorStore.call,
      InMemoryVectorStore.delete, SqliteVectorStore.delete, vectorDeletePlan_eq_none hw]
  organizations := by
    rintro w rfl hout id d ns hd hns hstart
    exact (h.deleted hfits id d).2 ⟨hd, fun hnames => hnames.outside hout ns hns hstart⟩

theorem Mirrors.answersAlike (h : Mirrors sj s.memory s.table) : AnswersAlike sj s where
  same := h.query
  visible := by
    intro opts u hu m hm
    rw [InMemoryVectorStore.query] at hm
    dsimp only at hm
    split at hm
    · exact absurd hm List.not_mem_nil
    · obtain ⟨⟨id, d⟩, hmem, rfl⟩ := List.mem_map.1 hm
      have hvisible := (List.mem_filter.1 hmem).2
      rw [Bool.and_eq_true, Bool.and_eq_true] at hvisible
      have hscope : (vectorQueryScope opts).visibleTo =
          some (if isWellFormed u then u else SHARED_ONLY) := by
        rw [vectorQueryScope, hu]
        rfl
      have hsubject := hvisible.1.2
      rw [visibleToSubject, hscope, Bool.or_eq_true, Bool.or_eq_true] at hsubject
      rcases hsubject with (hnone | hshared) | howner
      · exact absurd (of_decide_eq_true hnone) (Option.some_ne_none _)
      · exact .inl hshared
      · rw [Bool.and_eq_true] at howner
        obtain ⟨o, ho, hval⟩ := Option.map_eq_some_iff.1 (of_decide_eq_true howner.2)
        refine .inr ⟨o, ho, ?_⟩
        -- No document is owned by the empty string that stands for an ill-formed user.
        split at hval
        · exact hval
        · exact absurd hval (d.owner_ne o ho)

/-! ## Every run -/

/-- The stores after calls. -/
def VectorStores.run (sj : Superjson) (maxVariables : ℕ) (s : VectorStores)
    (calls : List VectorCall) : VectorStores :=
  calls.foldl (VectorStores.call sj maxVariables) s

/-- Every call fits when it is made. -/
def FitsAll (sj : Superjson) (maxVariables : ℕ) : VectorStores → List VectorCall → Prop
  | _, [] => True
  | s, c :: calls =>
    c.Fits sj maxVariables s ∧ FitsAll sj maxVariables (s.call sj maxVariables c) calls

variable {calls : List VectorCall}

theorem Mirrors.run (h : Mirrors sj s.memory s.table) {rest : List VectorCall}
    (hfits : FitsAll sj maxVariables s (calls ++ rest)) :
    Mirrors sj (s.run sj maxVariables calls).memory (s.run sj maxVariables calls).table ∧
      FitsAll sj maxVariables (s.run sj maxVariables calls) rest := by
  induction calls generalizing s with
  | nil => exact ⟨h, hfits⟩
  | cons c calls ih => exact ih (h.call hfits.1) hfits.2

theorem FitsAll.of_append {rest : List VectorCall} (h : FitsAll sj maxVariables s (calls ++ rest)) :
    FitsAll sj maxVariables s calls := by
  induction calls generalizing s with
  | nil => trivial
  | cons c calls ih => exact ⟨h.1, ih h.2⟩

/-- A document that is stored all along stays whose it was. -/
theorem Mirrors.labels_run (h : Mirrors sj s.memory s.table)
    (hfits : FitsAll sj maxVariables s calls) {id : Text} {l l' : VectorLabels}
    (hl : s.memory.labelsOf id = some l) (hstored : ∀ done, done <+: calls →
      ((s.run sj maxVariables done).memory.labelsOf id).isSome)
    (hl' : (s.run sj maxVariables calls).memory.labelsOf id = some l') : l' = l := by
  induction calls generalizing s l with
  | nil => exact Option.some.inj (hl'.symm.trans hl)
  | cons c calls ih =>
    obtain ⟨l₁, hl₁⟩ := Option.isSome_iff_exists.1 (hstored [c] ⟨calls, rfl⟩)
    have hstep : l₁ = l := h.memoryLabels hfits.1 hl hl₁
    rw [← hstep]
    exact ih (h.call hfits.1) hfits.2 hl₁ (fun done hdone =>
      hstored (c :: done) (List.cons_prefix_cons.2 ⟨rfl, hdone⟩)) hl'

/-- Whatever is stored, in a run of calls that fit the stores answer alike before each call, the call
    does what is promised, and a document that is stored all along stays whose it was. -/
theorem stores_agree (h : Mirrors sj s.memory s.table) {calls : List VectorCall}
    (hfits : FitsAll sj maxVariables s calls) :
    ∀ done rest, calls = done ++ rest →
      AnswersAlike sj (s.run sj maxVariables done) ∧
      (∀ c ∈ rest.head?, Upheld sj maxVariables (s.run sj maxVariables done) c) ∧
      ∀ id l l', s.memory.labelsOf id = some l →
        (∀ before, before <+: done →
          ((s.run sj maxVariables before).memory.labelsOf id).isSome) →
        (s.run sj maxVariables done).memory.labelsOf id = some l' →
        (s.run sj maxVariables done).table.labelsOf id = some l' ∧ l' = l := by
  rintro done rest rfl
  obtain ⟨hrun, hrest⟩ := h.run hfits
  refine ⟨hrun.answersAlike, fun c hc => ?_, fun id l l' hl hstored hl' => ⟨?_, ?_⟩⟩
  · cases rest with
    | nil => cases hc
    | cons c' rest =>
      obtain rfl := Option.some.inj hc
      exact hrun.upheld hrest.1
  · rw [hrun.labelsOf, hl']
  · exact h.labels_run hfits.of_append hl hstored hl'

end Agree

/-- A note of `alice` is written, and erased with what is hers. -/
theorem note_erased :
    let note : Fields := [(js "kind", .str (js "note"))]
    let sj : Superjson := ⟨fun
        | [(_, .str _)] => some (js "\x7b\"json\":\x7b\"kind\":\"note\"\x7d\x7d")
        | _ => none, fun _ => note⟩
    let write : VectorCall :=
      .upsert [⟨.str (js "a"), js "text", some note, .undefined, .str (js "alice"), .undefined⟩]
    let erase : VectorCall := .delete ⟨none, some (js "alice"), none, false, none⟩
    AnswersAlike sj (VectorStores.run sj 32766 ⟨.empty, .empty⟩ [write]) ∧
      Upheld sj 32766 (VectorStores.run sj 32766 ⟨.empty, .empty⟩ [write]) erase := by
  intro note sj write erase
  have hmirrors : Mirrors sj OrderedMap.empty OrderedMap.empty := ⟨rfl, nofun⟩
  have hkept : Kept sj note := ⟨rfl, _, rfl, by decide, rfl⟩
  have hwrite : write.Fits sj 32766 ⟨.empty, .empty⟩ := by
    intro batch hbatch _ e he m hm
    obtain rfl : _ = batch := Except.ok.inj hbatch
    obtain rfl := List.mem_singleton.1 he
    obtain rfl := Option.some.inj hm
    exact hkept
  have herase : erase.Fits sj 32766 (VectorStores.call sj 32766 ⟨.empty, .empty⟩ write) := by
    intro p hp
    obtain rfl : _ = p := Option.some.inj hp
    exact ⟨by decide, fun h => absurd rfl h⟩
  have hfits : FitsAll sj 32766 ⟨.empty, .empty⟩ [write, erase] := ⟨hwrite, herase, trivial⟩
  have hrun := stores_agree hmirrors hfits [write] [erase] rfl
  exact ⟨hrun.1, hrun.2.1 erase rfl⟩

/-- The second document holds a function: the batch is refused, and the first is written. -/
theorem half_written :
    let items : List VectorItem :=
      [⟨.str (js "a"), js "a", none, .undefined, .undefined, .undefined⟩,
        ⟨.str (js "b"), js "b", some [(js "f", .func)], .undefined, .undefined, .undefined⟩]
    (InMemoryVectorStore.upsert .empty items).1 = .thrown .dataClone ∧
      (InMemoryVectorStore.upsert .empty items).2.entries.map (·.1.val) = [js "a"] := by
  decide

end Gnldev.Durable.Vectors
