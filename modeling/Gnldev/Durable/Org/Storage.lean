import Gnldev.Durable.OwnedName
import Gnldev.Durable.Org.View
import Mathlib.Data.List.Sort

/-!
# The storage of an organization

A storage has more than runs: threads and messages, working memory, observations, documents with
embeddings, logs and values of the workers, a cache. The one in memory (`in-memory-storage.ts`) is
the reference for the others. `withOrgStorage` (`org-storage.ts`) confines all of it to an
organization, port by port, as `withOrg` does for the journal.

* `Storage`: what is kept in memory;
* `StorageRead`, `Storage.read`: what can be asked of the ports of an organization, each as in the
  source. Lists are drawn page by page (`drainOwned`); `recall` ranks messages, and keeps the best.

Similarity is computed outside of the repository: `cosine` is a parameter.
-/

namespace Gnldev.Durable

/-! ## What is kept -/

structure ThreadRecord (D : Type) where
  id : JsString
  resourceId : JsString
  parentThreadId : Option JsString
  updatedAt : ℤ
  deletedAt : Option ℤ
  rest : D
  deriving DecidableEq

/-- It is not deleted. -/
def ThreadRecord.live {D : Type} (t : ThreadRecord D) : Bool := t.deletedAt.all (· = 0)

structure MessageRecord (D S : Type) where
  threadId : JsString
  seq : ℤ
  ts : ℤ
  embedding : Option (List S)
  rest : D
  /-- Only of what is recalled. -/
  score : Option S
  deriving DecidableEq

/-- A document with an embedding. -/
structure VectorItem (D S : Type) where
  id : JsString
  namespaceOf : Option JsString
  owner : Option JsString
  shared : Bool
  embedding : List S
  rest : D
  deriving DecidableEq

structure CacheEntry (D : Type) where
  value : D
  exp : Option ℤ
  deriving DecidableEq

/-- A storage, with scores in `S` and other data in `D`. -/
structure Storage (D S : Type) where
  runs : MemoryJournal D
  threads : OrderedMap JsString (ThreadRecord D)
  messages : OrderedMap JsString (List (MessageRecord D S))
  wm : OrderedMap JsString D
  obs : OrderedMap JsString (List D)
  vectors : List (VectorItem D S)
  logs : OrderedMap JsString (List D)
  kv : OrderedMap JsString D
  cache : OrderedMap JsString (CacheEntry D)
  metas : OrderedMap JsString JsString

variable {D S A : Type}

/-! ## Pages -/

/-- What a list is asked for: how many, and from where on. -/
structure ListQuery where
  limit : Option ℕ
  cursor : Option ℕ

/-- A page of a list. -/
def ListQuery.paginate (q : ListQuery) (l : List A) : ListPage A :=
  slicePage l (q.limit.getD 50) (q.cursor.getD 0)

def MAX_DRAW : ℕ := 50

/-- Pages of the source, until there are enough items of the organization. -/
def drawOwned (fetch : Option ℕ → ListPage A) (own : A → Option A) (limit : Option ℕ) :
    (draws : ℕ) → (cursor : Option ℕ) → (items : List A) → ListPage A
  | 0, cursor, items => (items, cursor)
  | draws + 1, cursor, items =>
    let (page, next) := fetch cursor
    let items := items ++ page.filterMap own
    if next = none ∨ limit.any (· ≤ items.length) then (items, next)
    else drawOwned fetch own limit draws next items

def drainOwned (l : List A) (own : A → Option A) (q : ListQuery) : ListPage A :=
  let (items, cursor) :=
    drawOwned (fun cursor => ListQuery.paginate { q with cursor } l) own q.limit MAX_DRAW q.cursor []
  (match q.limit with
    | none => items
    | some limit => items.take limit, cursor)

/-! ## Memory -/

/-- A row of the organization, in its own terms. -/
def MessageRecord.out (p : JsString) (m : MessageRecord D S) : Option (MessageRecord D S) :=
  (afterPrefix p m.threadId).map fun threadId => { m with threadId }

/-- A thread of the organization, in its own terms. -/
def ThreadRecord.out (p : JsString) (t : ThreadRecord D) : Option (ThreadRecord D) :=
  (afterPrefix p t.id).map fun id =>
    { t with id, parentThreadId := t.parentThreadId.map fun parent => (afterPrefix p parent).getD parent }

/-- The most recent threads first. -/
def Storage.listThreads (s : Storage D S) (resourceId : Option JsString) : List (ThreadRecord D) :=
  ((s.threads.entries.map Prod.snd).filter fun t =>
    t.live && resourceId.all (t.resourceId = ·)).insertionSort fun a b => b.updatedAt ≤ a.updatedAt

section Recall

variable [LinearOrder S] [Zero S]

def hasNorm (v : List S) : Bool := v.any (· ≠ 0)

structure RecallOptions (D S : Type) where
  topK : Option ℕ
  threshold : Option S
  /-- How many messages before and after a hit come with it. -/
  before : ℕ
  after : ℕ
  /-- The filter on the data of a message. -/
  keeps : D → Bool
  /-- All threads of a resource, and not one: a text that is not empty. -/
  resourceId : Option JsString

/-- A message that may be recalled, in its thread. -/
structure Candidate (D S : Type) where
  m : MessageRecord D S
  tid : JsString
  rows : List (MessageRecord D S)
  idx : ℕ
  score : S

/-- The message is not compared with the query, or `cosineSimilarity` does not throw: it does on
    vectors of different lengths. -/
def MessageRecord.comparable (cosine : List S → List S → Option S) (query : List S)
    (m : MessageRecord D S) : Bool :=
  m.embedding.all fun e => !hasNorm e || (cosine query e).isSome

/-- The messages of a thread that are similar to the query. -/
def candidatesIn (cosine : List S → List S → Option S) (query : List S) (threshold : S) :
    JsString × List (MessageRecord D S) → List (Candidate D S)
  | (tid, rows) => rows.zipIdx.filterMap fun (m, idx) =>
    m.embedding.bind fun e => (cosine query e).bind fun score =>
      if hasNorm e ∧ 0 < score ∧ threshold ≤ score then some ⟨m, tid, rows, idx, score⟩ else none

/-- The threads that are searched. -/
def Storage.searched (s : Storage D S) (threadId : JsString) (resourceId : Option JsString) :
    List (JsString × List (MessageRecord D S)) :=
  match resourceId with
  | none => [(threadId, (s.messages.get threadId).getD [])]
  | some resourceId => s.messages.entries.filter fun (tid, _) =>
      (s.threads.get tid).any fun t => t.live && t.resourceId = resourceId

/-- The candidates, the best first. -/
def Storage.ranked (s : Storage D S) (cosine : List S → List S → Option S) (threadId : JsString)
    (query : List S) (opts : RecallOptions D S) : List (Candidate D S) :=
  (((s.searched threadId opts.resourceId).flatMap
    (candidatesIn cosine query (opts.threshold.getD 0))).filter
      (opts.keeps ·.m.rest)).insertionSort fun a b => b.score ≤ a.score

/-- The messages that are picked: hits with those around them, by thread and position. -/
abbrev Picked (D S : Type) := OrderedMap (JsString × ℤ) (MessageRecord D S)

def Picked.around (before after : ℕ) (picked : Picked D S) (h : Candidate D S) : Picked D S :=
  ((h.rows.take (h.idx + after + 1)).drop (h.idx - before)).foldl
    (fun picked m => picked.put (h.tid, m.seq) m) picked

def Picked.hit (picked : Picked D S) (h : Candidate D S) : Picked D S :=
  picked.put (h.tid, h.m.seq) { h.m with score := some h.score }

/-- By time, and by position at the same time. -/
def MessageRecord.earlier (a b : MessageRecord D S) : Prop :=
  a.ts < b.ts ∨ a.ts = b.ts ∧ a.seq ≤ b.seq

instance : DecidableRel (MessageRecord.earlier (D := D) (S := S)) := fun _ _ => instDecidableOr

/-- What is returned of the hits. -/
def recalled (opts : RecallOptions D S) (hits : List (Candidate D S)) : List (MessageRecord D S) :=
  let picked := hits.foldl (Picked.around opts.before opts.after) .empty
  (((hits.foldl Picked.hit picked).entries.map Prod.snd).insertionSort MessageRecord.earlier)

/-- The messages recalled; none, if a comparison throws. -/
def Storage.recall (s : Storage D S) (cosine : List S → List S → Option S) (threadId : JsString)
    (query : List S) (opts : RecallOptions D S) : Option (List (MessageRecord D S)) :=
  if hasNorm query then
    if (s.searched threadId opts.resourceId).all fun e => e.2.all (·.comparable cosine query) then
      some (recalled opts ((s.ranked cosine threadId query opts).take (opts.topK.getD 3)))
    else none
  else some []

/-! ## Documents -/

/-- On whose behalf documents are asked for. -/
inductive VisibleTo where
  | anyone
  | sharedOnly
  | subject (id : JsString)

/-- The subject of a query. -/
def visibleScope : Option JsString → VisibleTo
  | none => .anyone
  | some id => if isWellFormed id then .subject id else .sharedOnly

def visibleToSubject (it : VectorItem D S) : VisibleTo → Bool
  | .anyone => true
  | .sharedOnly => it.shared
  | .subject id => it.shared || it.owner = some id

structure VectorMatch (D S : Type) where
  id : JsString
  owner : Option JsString
  shared : Bool
  rest : D
  score : S
  deriving DecidableEq

/-- The namespace of an organization: its prefix, without the last colon. -/
def OrgId.ns (o : OrgId) : JsString := js "org:" ++ o.id

/-- The documents of a namespace that are most similar; none, if a comparison throws. -/
def queryVectors (cosine : List S → List S → Option S) (items : List (VectorItem D S)) (ns : JsString)
    (embedding : List S) (topK : ℕ) (visibleTo : Option JsString) (keeps : D → Bool) :
    Option (List (VectorMatch D S)) :=
  if isWellFormed ns then
    ((items.filter fun it => it.namespaceOf = some ns && visibleToSubject it (visibleScope visibleTo)
      && keeps it.rest).mapM fun it => (cosine embedding it.embedding).map fun score =>
        (⟨it.id, it.owner, it.shared, it.rest, score⟩ : VectorMatch D S)).map fun ms =>
          (ms.insertionSort fun a b => b.score ≤ a.score).take topK
  else some []

end Recall

/-! ## The ports of an organization -/

/-- What can be asked of the ports. -/
inductive StorageRead (D S : Type) where
  /-- An operation of the journal that `withOrg` bridges. -/
  | journal (op : JournalOp D) (now : ℕ)
  | readRun (runId : JsString)
  | listRuns (q : RunFilter) (page : ListQuery)
  | getThread (id : JsString)
  | listThreads (resourceId : Option JsString) (page : ListQuery)
  | getMessages (threadId : JsString) (page : ListQuery)
  | recall (threadId : JsString) (query : List S) (opts : RecallOptions D S)
  | getWorkingMemory (scopeId : JsString)
  | getObservations (threadId : JsString)
  | workList (ns : JsString) (page : ListQuery)
  | workGet (key : JsString)
  | cacheGet (key : JsString) (now : ℤ)
  | queryVectors (embedding : List S) (topK : ℕ) (visibleTo : Option JsString) (keeps : D → Bool)
  | metaGet (key : JsString)

inductive StorageAnswer (D S : Type) where
  | journal (answer : JournalAnswer D)
  | entries (es : List (ReadEntry D))
  | runs (page : ListPage ListedRun)
  | thread (t : Option (ThreadRecord D))
  | threads (page : ListPage (ThreadRecord D))
  | messages (page : ListPage (MessageRecord D S))
  /-- Nothing is a call that is rejected. -/
  | recalled (ms : Option (List (MessageRecord D S)))
  | data (d : Option D)
  | list (ds : List D)
  | log (page : ListPage D)
  | matches (ms : Option (List (VectorMatch D S)))
  | text (t : Option JsString)

/-- What an organization is answered. -/
def Storage.read [DecidableEq D] [LinearOrder S] [Zero S] (s : Storage D S)
    (cosine : List S → List S → Option S) (o : OrgId) : StorageRead D S → StorageAnswer D S
  | .journal op now => .journal (viewPerform o.pre s.runs now op).1
  | .readRun runId => .entries (s.runs.readRun (o.pre ++ runId))
  | .listRuns q page => .runs (drainOwned ((listRuns s.runs.store).filter q.keeps) (·.own o.pre) page)
  | .getThread id =>
    .thread (((s.threads.get (o.pre ++ id)).filter (·.live)).bind (·.out o.pre))
  | .listThreads resourceId page =>
    .threads (drainOwned (s.listThreads resourceId) (·.out o.pre) page)
  | .getMessages threadId page =>
    .messages (drainOwned ((s.messages.get (o.pre ++ threadId)).getD []) (·.out o.pre) page)
  | .recall threadId query opts =>
    .recalled ((s.recall cosine (o.pre ++ threadId) query opts).map fun ms =>
      ms.filterMap (·.out o.pre))
  | .getWorkingMemory scopeId => .data (s.wm.get (o.pre ++ scopeId))
  | .getObservations threadId => .list ((s.obs.get (o.pre ++ threadId)).getD [])
  | .workList ns page => .log (page.paginate ((s.logs.get (o.pre ++ ns)).getD []))
  | .workGet key => .data (s.kv.get (o.pre ++ key))
  | .cacheGet key now =>
    .data (((s.cache.get (o.pre ++ key)).filter fun e => !e.exp.any (· ≤ now)).map (·.value))
  | .queryVectors embedding topK visibleTo keeps =>
    .matches ((Durable.queryVectors cosine s.vectors o.ns embedding topK visibleTo keeps).map
      fun ms => ms.map fun m => { m with id := dropPrefix o.pre m.id })
  | .metaGet key => .text (s.metas.get (o.pre ++ key))

end Gnldev.Durable
