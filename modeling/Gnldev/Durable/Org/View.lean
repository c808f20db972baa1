import Gnldev.Durable.MemoryJournal

/-!
# The view of an organization

Organizations share a journal: `withOrg` (`organization.ts`) puts a prefix before every key an
organization writes or asks for, and takes it off what it gets back. The runs of others are left
out of the lists (`ListedRun.own`), page by page where there are pages (`viewPage`).

* `OrgId`: an id that has a prefix;
* `viewPerform`: the operations of a view, each as in the source.

What a view is, is said in `Gnldev.Durable.Org.Private`.
-/

namespace Gnldev.Durable

variable {P : Type}

/-! ## Organizations -/

/-- The prefix of an organization, unless its id is refused. -/
def orgPrefix (orgId : JsString) : Option JsString :=
  if orgId = [] ∨ sep ∈ orgId then none else some (js "org:" ++ orgId ++ [sep])

/-- An id that is not refused. -/
structure OrgId where
  id : JsString
  nonempty : id ≠ []
  notMem : sep ∉ id
  deriving DecidableEq

namespace OrgId

/-- Its prefix. -/
def pre (o : OrgId) : JsString := js "org:" ++ o.id ++ [sep]

end OrgId

/-! ## Views -/

/-- A part of the prefix of an entry goes, if it is there. -/
def dropPrefix (p s : JsString) : JsString := if s.startsWith p then s.drop p.length else s

def ReadEntry.stripped (p : JsString) (e : ReadEntry P) : ReadEntry P :=
  { e with key := dropPrefix p e.key, runId := dropPrefix p e.runId }

/-- A run of the organization, under its own id. -/
def ListedRun.own (p : JsString) (r : ListedRun) : Option ListedRun :=
  (afterPrefix p r.runId).map fun runId => { r with runId }

/-- The runs of a page that are the organization's, until there are enough: where the last of
    them is, if there are. -/
def takeOwn (p : JsString) (limit : ℕ) : (pos : ℕ) → (rows items : List ListedRun) →
    List ListedRun × Option ℕ
  | _, [], items => (items, none)
  | pos, r :: rows, items =>
    match r.own p with
    | none => takeOwn p limit (pos + 1) rows items
    | some r =>
      if limit ≤ items.length + 1 then (items ++ [r], some (pos + 1))
      else takeOwn p limit (pos + 1) rows (items ++ [r])

/-- A page of the runs of the organization: pages of the store, one after another. -/
def viewPage (p : JsString) (page : ℕ → ListPage ListedRun) (limit : ℕ) :
    (fuel pos : ℕ) → (items : List ListedRun) → ListPage ListedRun
  | 0, _, items => (items, none)
  | fuel + 1, pos, items =>
    let (rows, next) := page pos
    match takeOwn p limit pos rows items with
    | (items, some cursor) => (items, some cursor)
    | (items, none) =>
      if limit ≤ items.length then (items, none)
      else match next with
        | none => (items, none)
        | some _ => viewPage p page limit fuel (pos + rows.length) items

def viewListRunsPaged (p : JsString) (store : JournalStore P) (q : RunFilter) (limit pos : ℕ) :
    ListPage ListedRun :=
  viewPage p (listRunsPaged store q (max limit 50)) limit ((listRuns store).length + 1) pos []

def JournalBatch.prefixed (p : JsString) (batch : JournalBatch P) : JournalBatch P where
  claim := batch.claim.map fun (k, v) => (p ++ k, v)
  incrs := batch.incrs.map fun (k, fields) => (p ++ k, fields)
  puts := batch.puts.map fun (k, v) => (p ++ k, v)

/-- What a view answers, and what becomes of the journal behind it. -/
def viewPerform [DecidableEq P] (p : JsString) (w : MemoryJournal P) (now : ℕ) :
    JournalOp P → JournalAnswer P × MemoryJournal P
  | .get key => (.value (w.get (p ++ key)), w)
  | .put key value => (.done, w.put now (p ++ key) value)
  | .putIfAbsent key value => (w.putIfAbsent now (p ++ key) value).map .flag id
  | .putIfMatch key expected value => (w.putIfMatch (p ++ key) expected value).map .flag id
  | .incrBy key fields => (.done, w.incrBy (p ++ key) fields)
  | .getCounters key => (.counters (w.getCounters (p ++ key)), w)
  | .applyBatch batch => (w.applyBatch now (batch.prefixed p)).map .flag id
  | .getMany keys => (.values (w.getMany (keys.map (p ++ ·))), w)
  | .listKeys start limit => (.keys ((w.listKeys (p ++ start) limit).map (·.drop p.length)), w)
  | .deletePrefix start => (w.deletePrefix (p ++ start)).map .count id
  | .readRun runId => (.entries ((w.readRun (p ++ runId)).map (·.stripped p)), w)
  | .listRuns => (.runs (some ((listRuns w.store).filterMap (·.own p))), w)
  | .listStaleRuns cutoff incl =>
    (.runIds ((w.listStaleRuns cutoff incl).filterMap (afterPrefix p)), w)
  | .walkRuns q limit =>
    (.runs (walk (viewListRunsPaged p w.store q limit) ((listRuns w.store).length + 1) 0), w)

end Gnldev.Durable
