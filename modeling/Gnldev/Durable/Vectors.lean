import Gnldev.Durable.OwnedName
import Gnldev.Durable.Org.Storage
import Gnldev.Lib.JsValue

/-!
# Documents and their labels

The rules every vector store runs (`storage.ts`): which batch may be written (`vectorWriteBatch`),
whom a document stays with (`assertSameVectorOwner`), what a query may be answered from
(`vectorQueryScope`, `visibleToSubject`) and what a delete takes (`vectorDeletePlan`,
`vectorDeleteMatcher`). Embeddings and the ranking by them are left out.

A label or an id is a well-formed text (`Text`), which every store holds unchanged; so a condition
with a lone surrogate names no document, and the plan of a delete, which drops it, takes exactly the
documents that meet the conditions given (`taken_iff`).
-/

open List

namespace Gnldev.Durable.Vectors

open JsValue

/-! ## Texts -/

/-- A text without lone surrogates: what a database holds. -/
structure Text where
  val : JsString
  wellFormed : isWellFormed val
  deriving DecidableEq

theorem Text.ext {a b : Text} (h : a.val = b.val) : a = b := by
  obtain ⟨s, hs⟩ := a
  obtain rfl : s = b.val := h
  rfl

/-- A lone surrogate, written as U+FFFD. -/
def replaceLone (prev : Option UInt16) (u : UInt16) (next : Option UInt16) : UInt16 :=
  if loneSurrogate prev u next then 0xFFFD else u

/-- The text of a string, after the code unit `prev`. -/
def toWellFormedFrom : Option UInt16 → JsString → JsString
  | _, [] => []
  | prev, u :: s => replaceLone prev u s.head? :: toWellFormedFrom (some u) s

variable {s : JsString}

theorem wellFormedFrom_toWellFormedFrom {prev prev' : Option UInt16}
    (h : s.head?.any isLow → prev.any isHigh → prev'.any isHigh) :
    wellFormedFrom prev' (toWellFormedFrom prev s) := by
  induction s generalizing prev prev' with
  | nil => rfl
  | cons u s ih =>
    rw [toWellFormedFrom, wellFormedFrom, Bool.and_eq_true]
    have hkept : ∀ v ∈ s.head?, isHigh u → isLow v → replaceLone (some u) v s.tail.head? = v := by
      intro v _ hu hv
      have hnot : isHigh v = false := by
        rw [isLow, Bool.and_eq_true, decide_eq_true_eq, decide_eq_true_eq] at hv
        rw [isHigh, Bool.and_eq_false_iff, decide_eq_false_iff_not, decide_eq_false_iff_not]
        exact .inr fun hle => absurd (UInt16.le_trans hv.1 hle) (by decide)
      simp [replaceLone, loneSurrogate, hu, hv, hnot]
    have hhead : (toWellFormedFrom (some u) s).head? =
        s.head?.map fun v => replaceLone (some u) v s.tail.head? := by
      cases s <;> rfl
    constructor
    · -- What is kept of a pair has the other half beside it still.
      rw [hhead, replaceLone]
      by_cases hlone : loneSurrogate prev u s.head?
      · rw [if_pos hlone]
        rfl
      · rw [if_neg hlone, Bool.not_eq_true']
        rw [loneSurrogate, Bool.or_eq_true, Bool.and_eq_true, Bool.and_eq_true, not_or, not_and,
          not_and, Bool.not_eq_true', Bool.not_eq_false, Bool.not_eq_true',
          Bool.not_eq_false] at hlone
        rw [loneSurrogate, Bool.or_eq_false_iff, Bool.and_eq_false_imp, Bool.and_eq_false_imp]
        refine ⟨fun hu => ?_, fun hu => ?_⟩
        · obtain ⟨v, hv, hlow⟩ := (Option.any_eq_true _ _).1 (hlone.1 hu)
          rw [hv, Option.map_some, hkept v hv hu hlow, Option.any_some, hlow]
          rfl
        · rw [h hu (hlone.2 hu)]
          rfl
    · refine ih fun hlow hhigh => ?_
      rw [Option.any_some] at hhigh ⊢
      rw [replaceLone, if_neg]
      · exact hhigh
      · have hnot : isLow u = false := by
          rw [isHigh, Bool.and_eq_true, decide_eq_true_eq, decide_eq_true_eq] at hhigh
          rw [isLow, Bool.and_eq_false_iff, decide_eq_false_iff_not, decide_eq_false_iff_not]
          exact .inl fun hle => absurd (UInt16.le_trans hle hhigh.2) (by decide)
        simp [loneSurrogate, hlow, hnot]

theorem toWellFormedFrom_eq {prev : Option UInt16} (h : wellFormedFrom prev s) :
    toWellFormedFrom prev s = s := by
  induction s generalizing prev with
  | nil => rfl
  | cons u s ih =>
    rw [wellFormedFrom, Bool.and_eq_true, Bool.not_eq_true'] at h
    rw [toWellFormedFrom, replaceLone, if_neg (by simp [h.1]), ih h.2]

/-- A string as the database gets it. -/
def bind (s : JsString) : Text :=
  ⟨toWellFormedFrom none s, wellFormedFrom_toWellFormedFrom fun _ h => h⟩

@[simp] theorem bind_val (t : Text) : bind t.val = t := Text.ext (toWellFormedFrom_eq t.wellFormed)

theorem val_bind (h : isWellFormed s) : (bind s).val = s := toWellFormedFrom_eq h

/-- `substring(s, 1, n)`, by characters: a pair of surrogates is one. -/
def substring : ℕ → JsString → JsString
  | 0, _ => []
  | _ + 1, [] => []
  | _ + 1, [u] => [u]
  | n + 1, u :: v :: s =>
    if isHigh u && isLow v then u :: v :: substring n s else u :: substring n (v :: s)

theorem substring_eq_iff {p : JsString} (hp : ∀ u ∈ p, isHigh u = false) :
    substring p.length s = p ↔ p <+: s := by
  induction p generalizing s with
  | nil => simp [substring]
  | cons x p ih =>
    have ih {s} := ih (s := s) fun u hu => hp u (mem_cons_of_mem _ hu)
    have hx := hp x mem_cons_self
    rcases s with _ | ⟨u, _ | ⟨v, s⟩⟩
    · simp [substring]
    · rw [length_cons, substring, List.cons.injEq, cons_prefix_cons, prefix_nil,
        eq_comm, eq_comm (b := p)]
    · rw [length_cons, substring, cons_prefix_cons, ← ih]
      split
      · next h =>
        rw [Bool.and_eq_true] at h
        have hne : u ≠ x := fun he => by rw [he, hx] at h; exact Bool.false_ne_true h.1
        simp [hne, hne.symm]
      · rw [List.cons.injEq, eq_comm]

/-! ## Documents -/

/-- An object of a document, by its fields. -/
abbrev Fields := List (JsString × JsValue)

/-- A document as a caller gives it: its labels can be anything. -/
structure VectorItem where
  id : JsValue
  text : JsString
  metadata : Option Fields
  namespaceOf : JsValue
  owner : JsValue
  shared : JsValue

/-- What decides who may see a document. -/
structure VectorLabels where
  namespaceOf : Option Text
  owner : Option Text
  shared : Bool
  deriving DecidableEq

/-- A document that may be written, but for its id. -/
structure VectorDoc where
  text : JsString
  metadata : Option Fields
  namespaceOf : Option Text
  owner : Option Text
  shared : Option Bool
  /-- No document is owned by `''`, which stands for the shared ones alone. -/
  owner_ne : ∀ o ∈ owner, o.val ≠ []

/-- `shared: false` and no `shared` are one label. -/
def VectorDoc.labels (d : VectorDoc) : VectorLabels := ⟨d.namespaceOf, d.owner, d.shared = some true⟩

/-- `a === b`. No object of a caller is one that a store keeps. -/
def strictEquals : JsValue → JsValue → Bool
  | .num t, .num t' => t = t' && t ≠ js "NaN"
  | v, w => sameValueZero v w

/-- Every field of the filter equals the one of the document. -/
def vectorMetadataMatches (metadata filter : Option Fields) : Bool :=
  match filter with
  | none => true
  | some filter =>
    let m := metadata.getD []
    filter.all fun (k, v) => strictEquals ((m.lookup k).getD .undefined) v

/-! ## What may be written -/

inductive OwnerLabelProblem where
  | notAString
  | ofId (problem : OwnerIdProblem)
  | loneSurrogate
  deriving DecidableEq

/-- Why a call is refused. -/
inductive VectorError where
  /-- `TypeError`. -/
  | type (message : JsString)
  /-- `OwnerIdError`. -/
  | ownerId (problem : OwnerLabelProblem) (field : JsString)
  /-- `VectorOwnerConflictError`. -/
  | ownerConflict (message id : JsString)
  /-- `structuredClone` of a function. -/
  | dataClone
  /-- A value the database cannot be given. -/
  | serialize
  | tooManyVariables
  | sqlSyntax
  deriving DecidableEq

/-- `JSON.stringify(v)` in a message. -/
def shown (v : JsValue) : JsString := (stringify v).getD (js "undefined")

/-- The refusal of an id. -/
def idError (v : JsValue) : VectorError :=
  .type (js "@gnldev/durable: a document id must be a non-empty, well-formed string — got " ++
    shown v)

def documentId : JsValue → Except VectorError Text
  | .str s => if h : s ≠ [] ∧ isWellFormed s then .ok ⟨s, h.2⟩ else .error (idError (.str s))
  | v => .error (idError v)

def sharedLabel (id : Text) : JsValue → Except VectorError (Option Bool)
  | .undefined => .ok none
  | .bool b => .ok (some b)
  | v => .error (.type (js "@gnldev/durable: document '" ++ id.val ++
      js "': 'shared' must be true, false or absent — got " ++ shown v))

theorem ne_nil_of_ownerIdProblem (h : ownerIdProblem s = none) : s ≠ [] := by
  rintro rfl
  exact absurd h (by decide)

/-- The refusal of an owner. -/
def ownerError (id : Text) (problem : OwnerLabelProblem) : VectorError :=
  .ownerId problem (js "document '" ++ id.val ++ js "': 'owner'")

def ownerLabel (id : Text) :
    JsValue → Except VectorError {o : Option Text // ∀ t ∈ o, t.val ≠ []}
  | .undefined => .ok ⟨none, nofun⟩
  | .str s =>
    match hp : ownerIdProblem s with
    | some problem => .error (ownerError id (.ofId problem))
    | none =>
      if h : isWellFormed s then
        .ok ⟨some ⟨s, h⟩, fun t ht => by
          obtain rfl := Option.some.inj ht
          exact ne_nil_of_ownerIdProblem hp⟩
      else .error (ownerError id .loneSurrogate)
  | _ => .error (ownerError id .notAString)

/-- The refusal of a namespace. -/
def namespaceError (id : Text) (v : JsValue) : VectorError :=
  .type (js "@gnldev/durable: document '" ++ id.val ++
    js "': 'namespace' must be a non-empty, well-formed string or absent — got " ++ shown v)

def namespaceLabel (id : Text) : JsValue → Except VectorError (Option Text)
  | .undefined => .ok none
  | .str s =>
    if h : s ≠ [] ∧ isWellFormed s then .ok (some ⟨s, h.2⟩) else .error (namespaceError id (.str s))
  | v => .error (namespaceError id v)

/-- The checks of one document. -/
def checkLabels (it : VectorItem) : Except VectorError (Text × VectorDoc) := do
  let id ← documentId it.id
  let shared ← sharedLabel id it.shared
  let owner ← ownerLabel id it.owner
  let namespaceOf ← namespaceLabel id it.namespaceOf
  return (id, ⟨it.text, it.metadata, namespaceOf, owner.1, shared, owner.2⟩)

/-- An upsert does not move a document to another owner, label or partition. -/
def assertSameVectorOwner (existing : Option VectorLabels) (id : Text) (incoming : VectorLabels) :
    Except VectorError Unit :=
  if ∀ l ∈ existing, l = incoming then .ok ()
  else .error (.ownerConflict (js "@gnldev/durable: document '" ++ id.val ++
    js ("' already exists with a different owner or label — an upsert updates a " ++
      "document, it does not hand it to someone else. Use another id, or delete the document first."))
    id.val)

theorem assertSameVectorOwner_eq_ok {existing : Option VectorLabels} {id : Text}
    {incoming : VectorLabels} :
    assertSameVectorOwner existing id incoming = .ok () ↔ ∀ l ∈ existing, l = incoming := by
  rw [assertSameVectorOwner]
  split
  · next h => exact iff_of_true rfl h
  · next h => exact iff_of_false nofun h

/-- A document joins the batch: the last copy of an id stands where it was given. -/
def vectorWriteItem (byId : OrderedMap Text VectorDoc) (it : VectorItem) :
    Except VectorError (OrderedMap Text VectorDoc) := do
  let (id, doc) ← checkLabels it
  assertSameVectorOwner ((byId.get id).map (·.labels)) id doc.labels
  return (byId.filterKeys (· ≠ id)).put id doc

/-- The batch a store may write. -/
def vectorWriteBatch (items : List VectorItem) : Except VectorError (OrderedMap Text VectorDoc) :=
  items.foldlM vectorWriteItem .empty

/-! ## What is asked for -/

/-- What narrows a query. -/
structure VectorQueryOptions where
  namespaceOf : Option JsString
  visibleTo : Option JsString
  filter : Option Fields

/-- The shared documents alone. -/
def SHARED_ONLY : JsString := []

structure VectorQueryScope where
  namespaceOf : Option JsString
  visibleTo : Option JsString
  /-- Nothing can match. -/
  isNone : Bool

def vectorQueryScope (opts : VectorQueryOptions) : VectorQueryScope where
  namespaceOf := opts.namespaceOf
  visibleTo := opts.visibleTo.map fun u => if isWellFormed u then u else SHARED_ONLY
  isNone := opts.namespaceOf.any fun ns => !isWellFormed ns

def visibleToSubject (d : VectorDoc) (visibleTo : Option JsString) : Bool :=
  visibleTo = none || d.shared = some true || (d.owner ≠ none && d.owner.map (·.val) = visibleTo)

/-! ## What is deleted -/

/-- What a delete removes: every condition given must hold. -/
structure VectorDeleteWhere where
  ids : Option (List JsString)
  owner : Option JsString
  namespaceOf : Option JsString
  outsideOrganizations : Bool
  filter : Option Fields

/-- How the namespace of an organization starts. -/
def ORG_NAMESPACE : JsString := js "org:"

def vectorInOrganization (namespaceOf : Option JsString) : Bool :=
  namespaceOf.any fun ns => ns.startsWith ORG_NAMESPACE

/-- The conditions of a delete without those that say nothing. -/
def VectorDeleteWhere.planned (w : VectorDeleteWhere) : VectorDeleteWhere where
  ids := w.ids.map fun ids => ids.filter isWellFormed
  owner := w.owner
  namespaceOf := w.namespaceOf
  outsideOrganizations := w.outsideOrganizations && w.namespaceOf.isNone
  filter := w.filter.filter fun f => !f.isEmpty

/-- What a delete may touch, unless it touches nothing. -/
def vectorDeletePlan (w : VectorDeleteWhere) : Option VectorDeleteWhere :=
  let ids := w.ids.map fun ids => ids.filter isWellFormed
  if ids = some [] then none
  else if w.owner.any fun o => !isWellFormed o then none
  else if w.namespaceOf.any fun ns => !isWellFormed ns then none
  else if w.outsideOrganizations && vectorInOrganization w.namespaceOf then none
  else
    let filter := w.filter.filter fun f => !f.isEmpty
    if ids.isNone && w.owner.isNone && w.namespaceOf.isNone && filter.isNone then none
    else some w.planned

/-- Which documents a plan takes. -/
def vectorDeleteMatcher (w : VectorDeleteWhere) (id : Text) (d : VectorDoc) : Bool :=
  (w.ids.all fun ids => id.val ∈ ids)
    && (w.owner = none || d.owner.map (·.val) = w.owner)
    && (w.namespaceOf = none || d.namespaceOf.map (·.val) = w.namespaceOf)
    && (!w.outsideOrganizations || !vectorInOrganization (d.namespaceOf.map (·.val)))
    && vectorMetadataMatches d.metadata w.filter

/-- A condition is given that selects documents. -/
def VectorDeleteWhere.Selecting (w : VectorDeleteWhere) : Prop :=
  w.ids ≠ none ∨ w.owner ≠ none ∨ w.namespaceOf ≠ none ∨ ∃ f ∈ w.filter, f ≠ []

/-- What is asked to be removed: the documents that meet all the conditions given, if one selects. -/
structure VectorDeleteWhere.Names (w : VectorDeleteWhere) (id : Text) (d : VectorDoc) : Prop where
  selecting : w.Selecting
  ids : ∀ ids ∈ w.ids, id.val ∈ ids
  owner : ∀ o ∈ w.owner, ∃ t ∈ d.owner, t.val = o
  namespaceOf : ∀ ns ∈ w.namespaceOf, ∃ t ∈ d.namespaceOf, t.val = ns
  outside : w.outsideOrganizations → ∀ t ∈ d.namespaceOf, ¬ORG_NAMESPACE <+: t.val
  filter : ∀ f ∈ w.filter, ∀ e ∈ f,
    strictEquals (((d.metadata.getD []).lookup e.1).getD .undefined) e.2 = true

theorem not_vectorInOrganization_iff {ns : Option JsString} :
    vectorInOrganization ns = false ↔ ∀ s ∈ ns, ¬ORG_NAMESPACE <+: s := by
  rw [vectorInOrganization, Option.any_eq_false]
  refine forall₂_congr fun s _ => ?_
  rw [← JsString.startsWith_iff, Bool.not_eq_true]

/-- A delete that touches something. -/
structure VectorDeleteWhere.Plannable (w : VectorDeleteWhere) : Prop where
  selecting : w.Selecting
  ids : ∀ ids ∈ w.ids, ∃ s ∈ ids, isWellFormed s
  owner : ∀ o ∈ w.owner, isWellFormed o
  namespaceOf : ∀ ns ∈ w.namespaceOf, isWellFormed ns
  outside : w.outsideOrganizations → ∀ ns ∈ w.namespaceOf, ¬ORG_NAMESPACE <+: ns

theorem vectorDeletePlan_eq_some {w p : VectorDeleteWhere} :
    vectorDeletePlan w = some p ↔ w.Plannable ∧ w.planned = p := by
  have hids : w.ids.map (fun ids => ids.filter isWellFormed) ≠ some [] ↔
      ∀ ids ∈ w.ids, ∃ s ∈ ids, isWellFormed s := by
    cases w.ids <;> simp
  have hselecting : (((w.ids.map fun ids => ids.filter isWellFormed).isNone && w.owner.isNone
      && w.namespaceOf.isNone && (w.filter.filter fun f => !f.isEmpty).isNone) = false) ↔
      w.Selecting := by
    rw [VectorDeleteWhere.Selecting]
    rcases w.ids with _ | _ <;> rcases w.owner with _ | _ <;> rcases w.namespaceOf with _ | _ <;>
      rcases w.filter with _ | _ | _ <;> simp [Option.filter]
  rw [vectorDeletePlan]
  split
  · next h => exact iff_of_false nofun fun hw => hids.2 hw.1.ids h
  next h₁ =>
  split
  · next h =>
    obtain ⟨o, ho, hnot⟩ := (Option.any_eq_true _ _).1 h
    exact iff_of_false nofun fun hw => by simp [hw.1.owner o ho] at hnot
  next h₂ =>
  split
  · next h =>
    obtain ⟨ns, hns, hnot⟩ := (Option.any_eq_true _ _).1 h
    exact iff_of_false nofun fun hw => by simp [hw.1.namespaceOf ns hns] at hnot
  next h₃ =>
  split
  · next h =>
    rw [Bool.and_eq_true] at h
    refine iff_of_false nofun fun hw => ?_
    rw [not_vectorInOrganization_iff.2 (hw.1.outside h.1)] at h
    exact Bool.false_ne_true h.2
  next h₄ =>
  dsimp only
  split
  · next h =>
    refine iff_of_false nofun fun hw => ?_
    rw [hselecting.2 hw.1.selecting] at h
    exact Bool.false_ne_true h
  next h₅ =>
  rw [Option.some.injEq, iff_and_self]
  rintro -
  refine ⟨hselecting.1 (Bool.eq_false_iff.2 h₅), hids.1 h₁, fun o ho => ?_, fun ns hns => ?_,
    fun hout => not_vectorInOrganization_iff.1 ?_⟩
  · simpa using (Option.any_eq_false _ _).1 (Bool.eq_false_iff.2 h₂) o ho
  · simpa using (Option.any_eq_false _ _).1 (Bool.eq_false_iff.2 h₃) ns hns
  · simpa [hout] using h₄

section Taken

variable {w : VectorDeleteWhere} {id : Text} {d : VectorDoc}

theorem vectorDeleteMatcher_iff : vectorDeleteMatcher w id d ↔
    (∀ ids ∈ w.ids, id.val ∈ ids) ∧ (∀ o ∈ w.owner, d.owner.map (·.val) = some o) ∧
      (∀ ns ∈ w.namespaceOf, d.namespaceOf.map (·.val) = some ns) ∧
      (w.outsideOrganizations → ∀ ns ∈ d.namespaceOf.map (·.val), ¬ORG_NAMESPACE <+: ns) ∧
      vectorMetadataMatches d.metadata w.filter := by
  rw [vectorDeleteMatcher, Bool.and_eq_true, Bool.and_eq_true, Bool.and_eq_true, Bool.and_eq_true,
    and_assoc, and_assoc, and_assoc, ← not_vectorInOrganization_iff]
  refine and_congr ?_ (and_congr ?_ (and_congr ?_ (and_congr_left fun _ => ?_)))
  · cases w.ids <;> simp
  · cases w.owner <;> simp
  · cases w.namespaceOf <;> simp
  · cases w.outsideOrganizations <;> simp

theorem VectorDeleteWhere.Names.plannable (h : w.Names id d) : w.Plannable where
  selecting := h.selecting
  ids := fun ids hids => ⟨id.val, h.ids ids hids, id.wellFormed⟩
  owner := fun o ho => by
    obtain ⟨t, _, rfl⟩ := h.owner o ho
    exact t.wellFormed
  namespaceOf := fun ns hns => by
    obtain ⟨t, _, rfl⟩ := h.namespaceOf ns hns
    exact t.wellFormed
  outside := fun hout ns hns => by
    obtain ⟨t, ht, rfl⟩ := h.namespaceOf ns hns
    exact h.outside hout t ht

theorem vectorMetadataMatches_planned :
    vectorMetadataMatches d.metadata w.planned.filter ↔ ∀ f ∈ w.filter, ∀ e ∈ f,
      strictEquals (((d.metadata.getD []).lookup e.1).getD .undefined) e.2 = true := by
  rw [VectorDeleteWhere.planned]
  rcases w.filter with _ | f
  · exact iff_of_true rfl nofun
  · rcases f with _ | ⟨e, f⟩
    · exact iff_of_true rfl fun f hf e he => by
        obtain rfl := Option.some.inj hf
        exact absurd he not_mem_nil
    · rw [Option.filter_some_pos rfl, vectorMetadataMatches, all_eq_true]
      exact ⟨fun h f hf => by obtain rfl := Option.some.inj hf; exact h, fun h => h _ rfl⟩

theorem VectorDeleteWhere.Plannable.taken_iff (h : w.Plannable) :
    vectorDeleteMatcher w.planned id d ↔ w.Names id d := by
  rw [vectorDeleteMatcher_iff, vectorMetadataMatches_planned]
  constructor
  · rintro ⟨hids, howner, hns, hout, hfilter⟩
    refine ⟨h.selecting, fun ids hmem => ?_, fun o ho => ?_, fun ns hmem => ?_,
      fun hflag t ht hpre => ?_, hfilter⟩
    · exact mem_of_mem_filter (hids _ (Option.mem_map_of_mem _ hmem))
    · exact Option.map_eq_some_iff.1 (howner o ho)
    · exact Option.map_eq_some_iff.1 (hns ns hmem)
    · -- A namespace given is not an organization's; without one, the plan keeps the flag.
      rcases hgiven : w.namespaceOf with _ | ns
      · refine hout ?_ t.val (Option.mem_map_of_mem _ ht) hpre
        rw [VectorDeleteWhere.planned, hflag, hgiven]
        rfl
      · have hval := hns ns hgiven
        rw [Option.mem_def.1 ht, Option.map_some, Option.some.injEq] at hval
        exact h.outside hflag ns hgiven (hval ▸ hpre)
  · intro hnames
    refine ⟨fun ids hmem => ?_, fun o ho => ?_, fun ns hmem => ?_, fun hflag ns hmem => ?_,
      hnames.filter⟩
    · obtain ⟨ids, hids, rfl⟩ := Option.mem_map.1 hmem
      exact mem_filter.2 ⟨hnames.ids ids hids, id.wellFormed⟩
    · exact Option.map_eq_some_iff.2 (hnames.owner o ho)
    · exact Option.map_eq_some_iff.2 (hnames.namespaceOf ns hmem)
    · obtain ⟨t, ht, rfl⟩ := Option.mem_map.1 hmem
      exact hnames.outside (Bool.and_eq_true_iff.1 hflag).1 t ht

/-- A delete takes the documents that meet its conditions. -/
theorem taken_iff :
    ((vectorDeletePlan w).any fun p => vectorDeleteMatcher p id d) = true ↔ w.Names id d := by
  rw [Option.any_eq_true]
  constructor
  · rintro ⟨p, hp, hmatch⟩
    obtain ⟨hw, rfl⟩ := vectorDeletePlan_eq_some.1 hp
    exact hw.taken_iff.1 hmatch
  · intro h
    exact ⟨w.planned, vectorDeletePlan_eq_some.2 ⟨h.plannable, rfl⟩, h.plannable.taken_iff.2 h⟩

/-- Nothing is taken without a condition that selects. -/
theorem vectorDeletePlan_eq_none (h : ¬w.Selecting) : vectorDeletePlan w = none := by
  rcases hp : vectorDeletePlan w with _ | p
  · rfl
  · exact absurd (vectorDeletePlan_eq_some.1 hp).1.selecting h

end Taken

end Gnldev.Durable.Vectors
