import Gnldev.Durable.Vectors
import Gnldev.Lib.Sql

/-!
# Two vector stores

The store in memory (`in-memory-storage.ts`) and the one in SQLite (`sqlite-storage.ts`), as far as
their documents go. In memory a document is a copy of what was given, and a batch is written one
copy after the other; in the database it is a row, whose metadata is a text, and a batch is one
transaction. A document is found by its id, which no two have.
-/

namespace Gnldev.Durable.Vectors

open JsValue

/-- What a call comes to. -/
inductive VectorAnswer where
  | written
  | deleted (count : ℕ)
  | thrown (e : VectorError)
  deriving DecidableEq

/-- A call that changes a store. -/
inductive VectorCall where
  | upsert (items : List VectorItem)
  | delete (w : VectorDeleteWhere)

/-- A document as a query returns it, but for its score. -/
structure VectorMatch where
  id : Text
  text : JsString
  metadata : Option Fields
  labels : VectorLabels

/-- The whole batch is checked against what is stored before anything is written. -/
def assertSameOwners (stored : Text → Option VectorLabels) (batch : List (Text × VectorDoc)) :
    Except VectorError Unit :=
  batch.forM fun (id, it) => assertSameVectorOwner (stored id) id it.labels

/-! ## In memory -/

mutual

/-- There is no function in a value. -/
def clonable : JsValue → Bool
  | .func => false
  | .arr elems => clonableElems elems
  | .obj fields => clonableFields fields
  | _ => true

def clonableElems : List JsValue → Bool
  | [] => true
  | v :: vs => clonable v && clonableElems vs

def clonableFields : List (JsString × JsValue) → Bool
  | [] => true
  | (_, v) :: fields => clonable v && clonableFields fields

end

/-- `structuredClone(fields)`. -/
def structuredClone (fields : Fields) : Except VectorError Fields :=
  if clonableFields fields then .ok fields else .error .dataClone

/-- What a store in memory keeps. -/
def vectorItemCopy (it : VectorDoc) : Except VectorError VectorDoc :=
  match it.metadata with
  | none => .ok it
  | some metadata => do return { it with metadata := some (← structuredClone metadata) }

abbrev InMemoryVectorStore := OrderedMap Text VectorDoc

namespace InMemoryVectorStore

def labelsOf (s : InMemoryVectorStore) (id : Text) : Option VectorLabels := (s.get id).map (·.labels)

/-- One document after the other, until one is refused. -/
def writeAll (s : InMemoryVectorStore) :
    List (Text × VectorDoc) → VectorAnswer × InMemoryVectorStore
  | [] => (.written, s)
  | (id, it) :: batch =>
    match vectorItemCopy it with
    | .error e => (.thrown e, s)
    | .ok own => writeAll (s.put id own) batch

def upsert (s : InMemoryVectorStore) (items : List VectorItem) : VectorAnswer × InMemoryVectorStore :=
  match vectorWriteBatch items with
  | .error e => (.thrown e, s)
  | .ok batch =>
    match assertSameOwners s.labelsOf batch.entries with
    | .error e => (.thrown e, s)
    | .ok _ => writeAll s batch.entries

def delete (s : InMemoryVectorStore) (w : VectorDeleteWhere) : VectorAnswer × InMemoryVectorStore :=
  match vectorDeletePlan w with
  | none => (.deleted 0, s)
  | some w =>
    let gone (e : Text × VectorDoc) := vectorDeleteMatcher w e.1 e.2
    let kept := s.filterEntries fun e => !gone e
    (.deleted (s.entries.length - kept.entries.length), kept)

def call (s : InMemoryVectorStore) : VectorCall → VectorAnswer × InMemoryVectorStore
  | .upsert items => s.upsert items
  | .delete w => s.delete w

/-- The documents a query is answered from. -/
def query (s : InMemoryVectorStore) (opts : VectorQueryOptions) : List VectorMatch :=
  let scope := vectorQueryScope opts
  if scope.isNone then []
  else (s.entries.filter fun (_, it) =>
    (scope.namespaceOf = none || it.namespaceOf.map (·.val) = scope.namespaceOf)
      && visibleToSubject it scope.visibleTo && vectorMetadataMatches it.metadata opts.filter).map
    fun (id, it) => ⟨id, it.text, it.metadata, it.labels⟩

end InMemoryVectorStore

/-! ## In SQLite -/

/-- The texts of values. -/
structure Superjson where
  /-- Nothing for a value without one. -/
  stringify : Fields → Option JsString
  parse : JsString → Fields

/-- A row of `gnl_vectors`, but for its id. -/
structure VectorRow where
  text : Text
  metadata : Option Text
  namespaceOf : Option Text
  owner : Option Text
  shared : Option ℕ

def VectorRow.labels (r : VectorRow) : VectorLabels :=
  ⟨r.namespaceOf, r.owner, r.shared.any (· ≠ 0)⟩

/-- The table, whose primary key is the id. -/
abbrev SqliteVectorStore := OrderedMap Text VectorRow

namespace SqliteVectorStore

/-- `it.metadata ? serialize(it.metadata) : null`. -/
def metadataColumn (sj : Superjson) : Option Fields → Except VectorError (Option Text)
  | none => .ok none
  | some metadata =>
    match sj.stringify metadata with
    | none => .error .serialize
    | some text => .ok (some (bind text))

/-- `r.metadata ? deserialize(r.metadata) : undefined`. -/
def readMetadata (sj : Superjson) (metadata : Option Text) : Option Fields :=
  (metadata.filter fun text => text.val ≠ []).map fun text => sj.parse text.val

/-- `INSERT`, or on a conflict the update of all but the labels. -/
def insert (sj : Superjson) (t : SqliteVectorStore) (id : Text) (it : VectorDoc) :
    Except VectorError SqliteVectorStore := do
  let metadata ← metadataColumn sj it.metadata
  match t.get (bind id.val) with
  | some r => return t.put (bind id.val) { r with text := bind it.text, metadata }
  | none =>
    return t.put (bind id.val) {
      text := bind it.text
      metadata
      namespaceOf := it.namespaceOf.map fun ns => bind ns.val
      owner := it.owner.map fun o => bind o.val
      shared := if it.shared = some true then some 1 else none }

def labelsOf (t : SqliteVectorStore) (id : Text) : Option VectorLabels :=
  (t.get (bind id.val)).map (·.labels)

/-- What is between `BEGIN IMMEDIATE` and `COMMIT`. -/
def transact (sj : Superjson) (t : SqliteVectorStore) (batch : List (Text × VectorDoc)) :
    Except VectorError SqliteVectorStore := do
  assertSameOwners t.labelsOf batch
  batch.foldlM (fun t (id, it) => insert sj t id it) t

/-- The transaction is rolled back when anything is refused. -/
def upsert (sj : Superjson) (t : SqliteVectorStore) (items : List VectorItem) :
    VectorAnswer × SqliteVectorStore :=
  match vectorWriteBatch items with
  | .error e => (.thrown e, t)
  | .ok batch =>
    match t.transact sj batch.entries with
    | .error e => (.thrown e, t)
    | .ok t' => (.written, t')

/-- `VECTOR_OUTSIDE_ORGANIZATIONS_SQL`. -/
def outsideOrganizationsSql (r : Text × VectorRow) : Truth :=
  Sql.or (Sql.is (r.2.namespaceOf.map (·.val)) none)
    (Sql.differs (r.2.namespaceOf.map fun ns => substring ORG_NAMESPACE.length ns.val)
      (some ORG_NAMESPACE))

/-- The conditions of a delete. -/
def deleteConds (w : VectorDeleteWhere) : List (Text × VectorRow → Truth) :=
  (w.ids.map fun ids (r : Text × VectorRow) => Sql.inList (some r.1) (ids.map bind)).toList
    ++ (w.owner.map fun o (r : Text × VectorRow) => Sql.equals r.2.owner (some (bind o))).toList
    ++ (w.namespaceOf.map fun ns (r : Text × VectorRow) =>
      Sql.equals r.2.namespaceOf (some (bind ns))).toList
    ++ if w.outsideOrganizations then [outsideOrganizationsSql] else []

/-- How many parameters the conditions have. -/
def deleteParams (w : VectorDeleteWhere) : ℕ :=
  (w.ids.elim 0 List.length) + w.owner.toList.length + w.namespaceOf.toList.length

/-- A statement with at most so many parameters. -/
def prepare (maxVariables params : ℕ) : Except VectorError Unit :=
  if params ≤ maxVariables then .ok () else .error .tooManyVariables

/-- `DELETE FROM gnl_vectors WHERE`, and how many rows it removed. -/
def deleteRows (t : SqliteVectorStore) (gone : Text × VectorRow → Bool) : ℕ × SqliteVectorStore :=
  (t.entries.countP gone, t.filterEntries fun r => !gone r)

def deletePlanned (sj : Superjson) (maxVariables : ℕ) (t : SqliteVectorStore)
    (w : VectorDeleteWhere) : Except VectorError (ℕ × SqliteVectorStore) := do
  let conds := deleteConds w
  match w.filter with
  | some filter =>
    prepare maxVariables (deleteParams w)
    let rows := t.entries.filter fun r => Sql.holds (Sql.conj conds r)
    let ids := (rows.filter fun r =>
      vectorMetadataMatches (readMetadata sj r.2.metadata) (some filter)).map Prod.fst
    if ids.isEmpty then return (0, t)
    prepare maxVariables ids.length
    return t.deleteRows fun r => Sql.holds (Sql.inList (some r.1) ids)
  | none =>
    if conds.isEmpty then throw .sqlSyntax
    prepare maxVariables (deleteParams w)
    return t.deleteRows fun r => Sql.holds (Sql.conj conds r)

def delete (sj : Superjson) (maxVariables : ℕ) (t : SqliteVectorStore) (w : VectorDeleteWhere) :
    VectorAnswer × SqliteVectorStore :=
  match vectorDeletePlan w with
  | none => (.deleted 0, t)
  | some w =>
    match t.deletePlanned sj maxVariables w with
    | .error e => (.thrown e, t)
    | .ok (count, t') => (.deleted count, t')

def call (sj : Superjson) (maxVariables : ℕ) (t : SqliteVectorStore) :
    VectorCall → VectorAnswer × SqliteVectorStore
  | .upsert items => t.upsert sj items
  | .delete w => t.delete sj maxVariables w

/-- The conditions of a query. -/
def queryConds (scope : VectorQueryScope) : List (Text × VectorRow → Truth) :=
  (scope.namespaceOf.map fun ns (r : Text × VectorRow) =>
      Sql.is r.2.namespaceOf (some (bind ns))).toList
    ++ (scope.visibleTo.map fun u (r : Text × VectorRow) =>
      Sql.or (Sql.equals r.2.shared (some 1)) (Sql.equals r.2.owner (some (bind u)))).toList

/-- The documents a query is answered from. -/
def query (sj : Superjson) (t : SqliteVectorStore) (opts : VectorQueryOptions) : List VectorMatch :=
  let scope := vectorQueryScope opts
  if scope.isNone then []
  else ((t.entries.filter fun r => Sql.holds (Sql.conj (queryConds scope) r)).map fun (id, r) =>
      (⟨id, r.text.val, readMetadata sj r.metadata, r.labels⟩ : VectorMatch)).filter
    fun m => vectorMetadataMatches m.metadata opts.filter

end SqliteVectorStore

end Gnldev.Durable.Vectors
