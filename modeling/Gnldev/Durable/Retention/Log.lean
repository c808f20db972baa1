import Gnldev.Lib.JsString
import Gnldev.Lib.Prefixes
import Mathlib.Data.Rat.Defs
import Mathlib.Data.UInt

/-!
# What the sweep of a log leaves

A log is what is under the keys that begin with its namespace (`durable-log.ts`). Its entries that
are too old are deleted by `sweepLog`, with their markers, which are where `markerFor` says. A key
is deleted with all that it begins: an entry is kept if one that extends it is, and those that
extend a deleted one are gone before the loop reaches them. Then their own markers are not looked
for; and what begins with a marker is gone with it, whatever it is.

* `sweepLog`: the sweep;
* `Swept`: the expired entries are gone with their markers, and what is kept keeps its value;
* `Separate`: where the markers have to be for that;
* `swept_iff`: a sweep does what it says exactly if they are there.
-/

open List

namespace Gnldev.Durable

variable {P : Type}

/-! ## The sweep -/

structure LogEntry (P : Type) where
  id : Option JsString
  payload : P
  /-- When it was written, if this is a finite number. -/
  at_ : Option ℚ
  deriving DecidableEq

structure LogItem (P : Type) where
  id : JsString
  key : JsString
  payload : P
  at_ : Option ℚ

/-- What `markerFor` returns. -/
inductive Markers where
  | undefined
  | one (m : JsString)
  | many (ms : List JsString)

/-- An empty text is none. -/
def Markers.toList : Markers → List JsString
  | .undefined => []
  | .one m => if m = [] then [] else [m]
  | .many ms => ms

structure LogSweepOptions (P : Type) where
  olderThanMs : ℚ
  markerFor : Option (LogItem P → Markers)
  now : ℚ

structure LogSweepResult where
  scanned : ℕ
  deleted : ℕ
  keptNoTs : ℕ
  deletedMarkers : ℕ

/-- The values of a journal. -/
abbrev LogJournal (P : Type) := OrderedMap JsString (LogEntry P)

def LogJournal.listKeys (w : LogJournal P) (start : JsString) : List JsString :=
  (w.entries.map Prod.fst).filter (·.startsWith start)

def LogJournal.deletePrefix (w : LogJournal P) (start : JsString) : ℕ × LogJournal P :=
  (w.entries.countP (·.1.startsWith start), w.filterKeys (!·.startsWith start))

/-- The keys of a log begin so. -/
def logStart (ns : JsString) : JsString := ns ++ js ":"

section Sweep

variable (w : LogJournal P) (ns : JsString) (opts : LogSweepOptions P)

/-- What is decided of an entry, before any is deleted: its record, and if it is too old. -/
def recordOf? (key : JsString) : Option (LogEntry P × Bool) := do
  let record ← w.get key
  let at_ ← record.at_
  some (record, opts.olderThanMs < opts.now - at_)

def expired (key : JsString) : Bool := (recordOf? w opts key).any (·.2)

def itemOf (key : JsString) (record : LogEntry P) : LogItem P :=
  ⟨record.id.getD (key.drop (logStart ns).length), key, record.payload, record.at_⟩

def markersOf (key : JsString) (record : LogEntry P) : List JsString :=
  match opts.markerFor with
  | some markerFor => (markerFor (itemOf ns key record)).toList
  | none => []

/-- The loop that deletes: the journal, and how many are deleted. -/
structure Sweeping (P : Type) where
  journal : LogJournal P
  deleted : ℕ
  deletedMarkers : ℕ

def sweepMarker (s : Sweeping P) (m : JsString) : Sweeping P :=
  let (n, journal) := s.journal.deletePrefix m
  { s with journal, deletedMarkers := s.deletedMarkers + n }

/-- Delete an entry, and its markers if there was something to delete. -/
def sweepEntry (s : Sweeping P) (key : JsString) (markers : List JsString) : Sweeping P :=
  let (n, journal) := s.journal.deletePrefix key
  let s := { s with journal, deleted := s.deleted + n }
  if 0 < n then markers.foldl sweepMarker s else s

/-- The neighbours that extend a key come right after it. -/
def sweepKeys : List JsString → Sweeping P → Sweeping P
  | [], s => s
  | key :: rest, s =>
    match recordOf? w opts key with
    | some (record, true) =>
      if (rest.takeWhile (·.startsWith key)).all (expired w opts) then
        sweepKeys rest (sweepEntry s key (markersOf ns opts key record))
      else sweepKeys rest s
    | _ => sweepKeys rest s

def logKeys : List JsString := (w.listKeys (logStart ns)).insertionSort (· ≤ ·)

def sweepLog : LogSweepResult × LogJournal P :=
  let keys := logKeys w ns
  let s := sweepKeys w ns opts keys ⟨w, 0, 0⟩
  (⟨keys.length, s.deleted, keys.countP fun key => (w.get key).any (·.at_.isNone),
    s.deletedMarkers⟩, s.journal)

/-! ## What it is for -/

def isEntry (key : JsString) : Bool := (w.get key).isSome && key.startsWith (logStart ns)

/-- The markers of an entry. -/
def markersAt (key : JsString) : List JsString :=
  match w.get key with
  | some record => markersOf ns opts key record
  | none => []

/-- The key is a marker of an entry. -/
def isMarker (key : JsString) : Bool := (logKeys w ns).any (key ∈ markersAt w ns opts ·)

/-- The entry is expired, and none of its extensions is kept. -/
def doomed (key : JsString) : Bool :=
  isEntry w ns key && (logKeys w ns).all fun k => !k.startsWith key || expired w opts k

/-- A marker is one of one entry. -/
def OwnMarkers : Prop :=
  ∀ k k' m, isEntry w ns k → isEntry w ns k' → m ∈ markersAt w ns opts k →
    m ∈ markersAt w ns opts k' → k = k'

/-- Exactly the expired entries are removed. -/
structure Swept (r : LogSweepResult × LogJournal P) : Prop where
  gone : ∀ k, doomed w ns opts k → r.2.get k = none ∧ ∀ m ∈ markersAt w ns opts k, r.2.get m = none
  kept : ∀ k, isEntry w ns k → ¬expired w opts k → r.2.get k = w.get k
  keptMarkers : ∀ k, isEntry w ns k → ¬doomed w ns opts k →
    ∀ m ∈ markersAt w ns opts k, r.2.get m = w.get m
  deleted : r.1.deleted = w.entries.countP fun e => isEntry w ns e.1 && (r.2.get e.1).isNone
  deletedMarkers : r.1.deletedMarkers = w.entries.countP fun e =>
    !isEntry w ns e.1 && isMarker w ns opts e.1 && (r.2.get e.1).isNone

/-! ## Where the markers have to be -/

/-- The entry extends no other one that is deleted. -/
def Topmost (key : JsString) : Prop :=
  doomed w ns opts key ∧ ∀ k, doomed w ns opts k → k <+: key → k = key

structure Separate : Prop where
  /-- The markers of a deleted entry that extends another one are gone with others. -/
  beneath : ∀ k, doomed w ns opts k → ¬Topmost w ns opts k → ∀ m ∈ markersAt w ns opts k,
    (w.get m).isSome → doomed w ns opts m ∨
      ∃ t, Topmost w ns opts t ∧ ∃ m' ∈ markersAt w ns opts t, m' <+: m
  /-- What begins with a marker is a marker of a deleted entry, or was deleted with an entry. -/
  alone : ∀ t, Topmost w ns opts t → ∀ m ∈ markersAt w ns opts t, ∀ k, (w.get k).isSome →
    m <+: k → (¬isEntry w ns k ∧ ∃ d, doomed w ns opts d ∧ k ∈ markersAt w ns opts d) ∨
      ∃ t', Topmost w ns opts t' ∧ t' ≤ t ∧ t' <+: k
  /-- No marker of an entry that is kept is an entry that is deleted. -/
  apart : ∀ k, isEntry w ns k → ¬doomed w ns opts k → ∀ m ∈ markersAt w ns opts k,
    ¬doomed w ns opts m

end Sweep

/-! ## The loop as a list of deletions -/

inductive Removal where
  | entry
  | marker
  deriving DecidableEq

section Strokes

variable (w : LogJournal P) (ns : JsString) (opts : LogSweepOptions P)

/-- The journal and the numbers are what the deletions leave. -/
structure Tracks (strokes : List (Removal × JsString)) (s : Sweeping P) : Prop where
  journal : s.journal = remaining w strokes
  deleted : s.deleted = countTaken w strokes .entry
  deletedMarkers : s.deletedMarkers = countTaken w strokes .marker

/-- An entry is deleted, and its markers if something of it was there. -/
def strike (strokes : List (Removal × JsString)) (key : JsString) : List (Removal × JsString) :=
  strokes ++ [(.entry, key)] ++
    if 0 < (remaining w strokes).entries.countP (key.isPrefixOf ·.1) then
      (markersAt w ns opts key).map (.marker, ·)
    else []

variable {w} {strokes : List (Removal × JsString)} {s : Sweeping P}

theorem Tracks.sweepMarker (h : Tracks w strokes s) (m : JsString) :
    Tracks w (strokes ++ [(.marker, m)]) (sweepMarker s m) := by
  refine ⟨?_, ?_, ?_⟩
  · rw [remaining_append, ← h.journal]
    rfl
  · rw [countTaken_append, if_neg (by decide), ← h.deleted]
    rfl
  · rw [countTaken_append, if_pos rfl, ← h.deletedMarkers, ← h.journal]
    rfl

theorem Tracks.sweepMarkers (h : Tracks w strokes s) (ms : List JsString) :
    Tracks w (strokes ++ ms.map (.marker, ·)) (ms.foldl Durable.sweepMarker s) := by
  induction ms generalizing strokes s with
  | nil => simpa using h
  | cons m ms ih =>
    have hrest := ih (h.sweepMarker m)
    rwa [append_assoc, singleton_append] at hrest

theorem Tracks.sweepEntry (h : Tracks w strokes s) (key : JsString) :
    Tracks w (strike w ns opts strokes key) (sweepEntry s key (markersAt w ns opts key)) := by
  have hone : Tracks w (strokes ++ [(.entry, key)])
      { journal := s.journal.filterKeys (!key.isPrefixOf ·)
        deleted := s.deleted + s.journal.entries.countP (key.isPrefixOf ·.1)
        deletedMarkers := s.deletedMarkers } := by
    refine ⟨?_, ?_, ?_⟩
    · rw [remaining_append, ← h.journal]
    · rw [countTaken_append, if_pos rfl, ← h.deleted, ← h.journal]
    · rw [countTaken_append, if_neg (by decide), ← h.deletedMarkers]
      rfl
  rw [strike, ← h.journal]
  change Tracks w _ (if 0 < s.journal.entries.countP (key.isPrefixOf ·.1) then _ else _)
  split
  · exact hone.sweepMarkers _
  · rwa [append_nil]

end Strokes

section Loop

variable {w : LogJournal P} {ns : JsString} {opts : LogSweepOptions P}

variable {k : JsString}

theorem mem_logKeys : k ∈ logKeys w ns ↔ isEntry w ns k := by
  rw [logKeys, mem_insertionSort, LogJournal.listKeys, mem_filter, isEntry,
    Bool.and_eq_true, Option.isSome_iff_exists, mem_map]
  refine and_congr_left fun _ => ⟨?_, ?_⟩
  · rintro ⟨⟨k, v⟩, he, rfl⟩
    exact ⟨v, OrderedMap.mem_entries_iff.1 he⟩
  · rintro ⟨v, hv⟩
    exact ⟨(k, v), OrderedMap.mem_entries_iff.2 hv, rfl⟩

theorem sorted_logKeys : (logKeys w ns).Pairwise (· ≤ ·) := pairwise_insertionSort _ _

theorem nodup_logKeys : (logKeys w ns).Nodup :=
  (perm_insertionSort _ _).nodup_iff.2 (w.nodup.filter _)

theorem doomed_iff : doomed w ns opts k ↔
    isEntry w ns k ∧ ∀ x, isEntry w ns x → k <+: x → expired w opts x := by
  rw [doomed, Bool.and_eq_true, all_eq_true]
  simp only [mem_logKeys, Bool.or_eq_true, Bool.not_eq_true', JsString.startsWith,
    ← Bool.not_eq_true, isPrefixOf_iff_prefix, ← imp_iff_not_or]

theorem expired_of_doomed (h : doomed w ns opts k) : expired w opts k :=
  (doomed_iff.1 h).2 k (doomed_iff.1 h).1 prefix_rfl

/-- What a deleted entry begins is deleted, too. -/
theorem doomed_of_isPrefix {x : JsString} (h : doomed w ns opts k) (hx : (w.get x).isSome)
    (hkx : k <+: x) : doomed w ns opts x := by
  obtain ⟨hk, hall⟩ := doomed_iff.1 h
  have hentry : isEntry w ns x := by
    rw [isEntry, Bool.and_eq_true] at hk ⊢
    exact ⟨hx, JsString.startsWith_iff.2 ((JsString.startsWith_iff.1 hk.2).trans hkx)⟩
  exact doomed_iff.2 ⟨hentry, fun y hy hxy => hall y hy (hkx.trans hxy)⟩

variable (w ns opts)

/-- The entries that are deleted. -/
def doomedKeys : List JsString := (logKeys w ns).filter (doomed w ns opts)

variable {w ns opts}

theorem mem_doomedKeys : k ∈ doomedKeys w ns opts ↔ doomed w ns opts k := by
  rw [doomedKeys, mem_filter, mem_logKeys, and_iff_right_of_imp]
  exact fun h => (doomed_iff.1 h).1

theorem sorted_doomedKeys : (doomedKeys w ns opts).Pairwise (· ≤ ·) := sorted_logKeys.filter _

theorem nodup_doomedKeys : (doomedKeys w ns opts).Nodup := nodup_logKeys.filter _

/-- The neighbours that come after an expired key say if it may be deleted. -/
theorem guard_iff {done rest : List JsString} {key : JsString}
    (hkeys : logKeys w ns = done ++ key :: rest) (hexpired : expired w opts key) :
    (rest.takeWhile (·.startsWith key)).all (expired w opts) = doomed w ns opts key := by
  have hsorted : (logKeys w ns).Pairwise (· ≤ ·) := sorted_logKeys
  rw [hkeys] at hsorted
  obtain ⟨-, hlater, hbefore⟩ := pairwise_append.1 hsorted
  have hkey : key ∈ logKeys w ns := by simp [hkeys]
  rw [Bool.eq_iff_iff, all_eq_true, doomed_iff]
  constructor
  · refine fun hall => ⟨mem_logKeys.1 hkey, fun x hx hkx => ?_⟩
    have hmem := mem_logKeys.2 hx
    rw [hkeys, mem_append, mem_cons] at hmem
    rcases hmem with hx | rfl | hx
    · -- What comes before it can only be the key itself.
      have hle := hbefore x hx key (.head _)
      rwa [List.le_antisymm hle (le_of_isPrefix hkx)]
    · exact hexpired
    · exact hall x ((mem_takeWhile_iff hlater).2 ⟨hx, hkx⟩)
  · rintro ⟨-, hall⟩ x hx
    obtain ⟨hx, hkx⟩ := (mem_takeWhile_iff hlater).1 hx
    exact hall x (mem_logKeys.1 (by simp [hkeys, hx])) hkx

theorem sweepKeys_eq (done rest : List JsString) (hkeys : logKeys w ns = done ++ rest)
    (s : Sweeping P) : sweepKeys w ns opts rest s =
      (rest.filter (doomed w ns opts)).foldl
        (fun s key => sweepEntry s key (markersAt w ns opts key)) s := by
  induction rest generalizing done s with
  | nil => rfl
  | cons key rest ih =>
    have hnext := ih (done ++ [key]) (by rw [hkeys, append_assoc, singleton_append])
    have hspare : ¬expired w opts key → ¬doomed w ns opts key := mt expired_of_doomed
    rw [sweepKeys]
    split
    · next record hrecord =>
      have hexpired : expired w opts key := by rw [expired, hrecord]; rfl
      have hmarkers : markersOf ns opts key record = markersAt w ns opts key := by
        obtain ⟨r, hget, hr⟩ := Option.bind_eq_some_iff.1 hrecord
        obtain ⟨t, -, hr⟩ := Option.bind_eq_some_iff.1 hr
        rw [markersAt, hget, (Prod.mk.inj (Option.some.inj hr)).1]
      rw [guard_iff hkeys hexpired, filter_cons, hmarkers]
      split
      · rw [hnext, foldl_cons]
      · exact hnext s
    · next hrecord =>
      rw [hnext, filter_cons_of_neg]
      refine hspare fun h => ?_
      obtain ⟨⟨record, b⟩, hb, hb'⟩ := (Option.any_eq_true _ _).1 h
      obtain rfl : b = true := hb'
      exact hrecord record hb

/-- The deletions of the sweep. -/
def strikes (w : LogJournal P) (ns : JsString) (opts : LogSweepOptions P) (keys : List JsString) :
    List (Removal × JsString) :=
  keys.foldl (strike w ns opts) []

theorem strikes_concat (keys : List JsString) (key : JsString) :
    strikes w ns opts (keys ++ [key]) = strike w ns opts (strikes w ns opts keys) key :=
  foldl_concat _ _ _ _

theorem tracks_sweep : Tracks w (strikes w ns opts (doomedKeys w ns opts))
    (sweepKeys w ns opts (logKeys w ns) ⟨w, 0, 0⟩) := by
  rw [sweepKeys_eq [] (logKeys w ns) rfl, strikes]
  have hstart : Tracks w [] (⟨w, 0, 0⟩ : Sweeping P) := by
    refine ⟨OrderedMap.ext (filter_eq_self.2 fun _ _ => rfl).symm, ?_, ?_⟩
    all_goals exact (countP_eq_zero.2 fun _ _ => by simp [takenBy]).symm
  change Tracks w ((doomedKeys w ns opts).foldl _ _) ((doomedKeys w ns opts).foldl _ _)
  generalize doomedKeys w ns opts = keys, ([] : List (Removal × JsString)) = strokes,
    (⟨w, 0, 0⟩ : Sweeping P) = s at hstart
  induction keys generalizing strokes s with
  | nil => exact hstart
  | cons key keys ih => exact ih _ _ (hstart.sweepEntry ns opts key)

end Loop

/-! ## The deletions, if no entry is taken for a marker -/

section Plan

variable (w : LogJournal P) (ns : JsString) (opts : LogSweepOptions P)

open Classical in
/-- The deletions for an entry: its markers are looked for if nothing took it before. -/
noncomputable def planOf (key : JsString) : List (Removal × JsString) :=
  [(.entry, key)] ++
    if Topmost w ns opts key then (markersAt w ns opts key).map (.marker, ·) else []

noncomputable def plan (keys : List JsString) : List (Removal × JsString) :=
  keys.flatMap (planOf w ns opts)

variable {w ns opts} {keys : List JsString} {k p : JsString}

theorem entry_mem_plan : (.entry, p) ∈ plan w ns opts keys ↔ p ∈ keys := by
  rw [plan, mem_flatMap]
  constructor
  · rintro ⟨key, hkey, h⟩
    rcases mem_append.1 h with h | h
    · rwa [(Prod.mk.inj (mem_singleton.1 h)).2]
    · split at h <;> simp at h
  · exact fun hp => ⟨p, hp, mem_append_left _ (mem_singleton_self _)⟩

theorem marker_mem_plan : (.marker, p) ∈ plan w ns opts keys ↔
    ∃ t ∈ keys, Topmost w ns opts t ∧ p ∈ markersAt w ns opts t := by
  rw [plan, mem_flatMap]
  refine exists_congr fun t => and_congr_right fun _ => ?_
  rw [planOf, mem_append, or_iff_right (by simp)]
  split
  · next ht => simp [ht]
  · next ht => simp [ht]

theorem plan_append (keys' : List JsString) :
    plan w ns opts (keys ++ keys') = plan w ns opts keys ++ plan w ns opts keys' :=
  flatMap_append

theorem topmost_unique {t t' : JsString} (ht : Topmost w ns opts t) (ht' : Topmost w ns opts t')
    (h : t <+: k) (h' : t' <+: k) : t = t' := by
  rcases prefix_or_prefix_of_prefix h h' with hp | hp
  · exact ht'.2 t ht.1 hp
  · exact (ht.2 t' ht'.1 hp).symm

/-- A deleted entry begins with one that extends no other. -/
theorem exists_topmost (h : doomed w ns opts k) : ∃ t, Topmost w ns opts t ∧ t <+: k := by
  induction hn : k.length using Nat.strong_induction_on generalizing k with
  | _ n ih =>
    by_cases htop : Topmost w ns opts k
    · exact ⟨k, htop, prefix_rfl⟩
    · obtain ⟨d, hd, hdk, hne⟩ : ∃ d, doomed w ns opts d ∧ d <+: k ∧ d ≠ k := by
        by_contra hnone
        push Not at hnone
        exact htop ⟨h, hnone⟩
      have hlt : d.length < n := by
        rw [← hn]
        exact lt_of_le_of_ne hdk.length_le fun he => hne (hdk.eq_of_length he)
      obtain ⟨t, ht, htd⟩ := ih d.length hlt hd rfl
      exact ⟨t, ht, htd.trans hdk⟩

variable {done rest : List JsString} {key : JsString}

/-- What is deleted with a key is deleted before it, if it is not after it. -/
theorem mem_before {d : JsString} (hkeys : doomedKeys w ns opts = done ++ key :: rest)
    (hd : doomed w ns opts d) (hle : d ≤ key) (hne : d ≠ key) : d ∈ done := by
  have hsorted : (doomedKeys w ns opts).Pairwise (· ≤ ·) := sorted_doomedKeys
  rw [hkeys] at hsorted
  obtain ⟨-, hlater, -⟩ := pairwise_append.1 hsorted
  have hmem := mem_doomedKeys.2 hd
  rw [hkeys, mem_append, mem_cons] at hmem
  rcases hmem with h | h | h
  · exact h
  · exact absurd h hne
  · exact absurd (List.le_antisymm hle ((pairwise_cons.1 hlater).1 d h)) hne

theorem le_of_mem_before {d : JsString} (hkeys : doomedKeys w ns opts = done ++ key :: rest)
    (hd : d ∈ done) : d ≤ key ∧ d ≠ key := by
  have hsorted : (doomedKeys w ns opts).Pairwise (· ≤ ·) := sorted_doomedKeys
  have hnodup : (doomedKeys w ns opts).Nodup := nodup_doomedKeys
  rw [hkeys] at hsorted hnodup
  refine ⟨(pairwise_append.1 hsorted).2.2 d hd key (.head _), ?_⟩
  rintro rfl
  exact disjoint_of_nodup_append hnodup hd (.head _)

theorem isSome_of_doomed (h : doomed w ns opts k) : (w.get k).isSome := by
  have hentry := (doomed_iff.1 h).1
  rw [isEntry, Bool.and_eq_true] at hentry
  exact hentry.1

/-- What a list of deletions leaves begins with a key exactly if one is there to be found. -/
theorem countP_remaining_pos {s : List (Removal × JsString)} :
    0 < (remaining w s).entries.countP (k.isPrefixOf ·.1) ↔
      ∃ x, (w.get x).isSome ∧ takenBy s x = none ∧ k <+: x := by
  rw [countP_pos_iff]
  constructor
  · rintro ⟨⟨x, v⟩, he, hkx⟩
    obtain ⟨he, hnone⟩ := mem_filter.1 he
    rw [OrderedMap.mem_entries_iff] at he
    exact ⟨x, by rw [he]; rfl, Option.isNone_iff_eq_none.1 hnone,
      isPrefixOf_iff_prefix.1 hkx⟩
  · rintro ⟨x, hx, hnone, hkx⟩
    obtain ⟨v, hv⟩ := Option.isSome_iff_exists.1 hx
    refine ⟨(x, v), mem_filter.2 ⟨OrderedMap.mem_entries_iff.2 hv, ?_⟩,
      isPrefixOf_iff_prefix.2 hkx⟩
    exact Option.isNone_iff_eq_none.2 hnone

/-- A step of the loop is that of the plan. -/
theorem strike_plan (hkeys : doomedKeys w ns opts = done ++ key :: rest)
    (hfree : Topmost w ns opts key → takenBy (plan w ns opts done) key ≠ some .marker) :
    strike w ns opts (plan w ns opts done) key = plan w ns opts (done ++ [key]) := by
  have hkey : doomed w ns opts key := mem_doomedKeys.1 (by simp [hkeys])
  have hsame : 0 < (remaining w (plan w ns opts done)).entries.countP (key.isPrefixOf ·.1) ↔
      Topmost w ns opts key := by
    rw [countP_remaining_pos]
    constructor
    · rintro ⟨x, -, hnone, hkx⟩
      refine ⟨hkey, fun d hd hdk => ?_⟩
      by_contra hne
      have hdone := mem_before hkeys hd (le_of_isPrefix hdk) hne
      exact takenBy_eq_none_iff.1 hnone (.entry, d) (entry_mem_plan.2 hdone) (hdk.trans hkx)
    · refine fun htop => ⟨key, isSome_of_doomed hkey, ?_, prefix_rfl⟩
      rcases htaken : takenBy (plan w ns opts done) key with _ | _ | _
      · rfl
      · obtain ⟨d, hmem, hdk⟩ := mem_of_takenBy htaken
        obtain ⟨-, hne⟩ := le_of_mem_before hkeys (entry_mem_plan.1 hmem)
        have hd : d ∈ doomedKeys w ns opts := by
          rw [hkeys]
          exact mem_append_left _ (entry_mem_plan.1 hmem)
        exact absurd (htop.2 d (mem_doomedKeys.1 hd) hdk) hne
      · exact absurd htaken (hfree htop)
  have hone : plan w ns opts [key] = planOf w ns opts key := append_nil _
  rw [strike, plan_append, hone, planOf, append_assoc]
  by_cases htop : Topmost w ns opts key
  · rw [if_pos (hsame.2 htop), if_pos htop]
  · rw [if_neg fun h => htop (hsame.1 h), if_neg htop]

/-- If no entry is taken for a marker, the loop goes as planned. -/
theorem strikes_eq_plan (hfree : ∀ done, done <+: doomedKeys w ns opts →
      strikes w ns opts done = plan w ns opts done → ∀ t, Topmost w ns opts t →
      takenBy (plan w ns opts done) t ≠ some .marker) :
    strikes w ns opts (doomedKeys w ns opts) =
      plan w ns opts (doomedKeys w ns opts) := by
  suffices ∀ done, done <+: doomedKeys w ns opts →
      strikes w ns opts done = plan w ns opts done from this _ prefix_rfl
  intro done
  induction done using List.reverseRecOn with
  | nil => exact fun _ => rfl
  | append_singleton done key ih =>
    rintro ⟨rest, hrest⟩
    rw [append_assoc, singleton_append] at hrest
    have hdone : done <+: doomedKeys w ns opts := ⟨_, hrest⟩
    have hplan := ih hdone
    rw [strikes_concat, hplan]
    exact strike_plan hrest.symm (hfree done hdone hplan key)

/-! ## When the sweep does what it says -/

/-- What is taken with an entry is deleted as an entry. -/
theorem doomed_of_taken (hk : (w.get k).isSome)
    (h : takenBy (plan w ns opts (doomedKeys w ns opts)) k = some .entry) :
    doomed w ns opts k := by
  obtain ⟨d, hmem, hdk⟩ := mem_of_takenBy h
  exact doomed_of_isPrefix (mem_doomedKeys.1 (entry_mem_plan.1 hmem)) hk hdk

theorem taken_ne_none (h : doomed w ns opts k) :
    takenBy (plan w ns opts (doomedKeys w ns opts)) k ≠ none :=
  fun hnone => takenBy_eq_none_iff.1 hnone (.entry, k) (entry_mem_plan.2 (mem_doomedKeys.2 h))
    prefix_rfl

theorem taken_of_marker (h : takenBy (plan w ns opts (doomedKeys w ns opts)) k = some .marker) :
    ∃ t, Topmost w ns opts t ∧ ∃ m ∈ markersAt w ns opts t, m <+: k := by
  obtain ⟨m, hmem, hmk⟩ := mem_of_takenBy h
  obtain ⟨t, -, ht, hm⟩ := marker_mem_plan.1 hmem
  exact ⟨t, ht, m, hm, hmk⟩

theorem taken_marker_ne_none {t : JsString} (ht : Topmost w ns opts t)
    (hm : p ∈ markersAt w ns opts t) (hpk : p <+: k) :
    takenBy (plan w ns opts (doomedKeys w ns opts)) k ≠ none := by
  intro hnone
  have hmem := marker_mem_plan.2 ⟨t, mem_doomedKeys.2 ht.1, ht, hm⟩
  exact takenBy_eq_none_iff.1 hnone (.marker, p) hmem hpk

namespace Separate

variable (h : Separate w ns opts)

include h

/-- A deleted entry is taken as an entry. -/
theorem taken_of_doomed (hk : doomed w ns opts k) :
    takenBy (plan w ns opts (doomedKeys w ns opts)) k = some .entry := by
  obtain ⟨t, ht, htk⟩ := exists_topmost hk
  obtain ⟨done, rest, hkeys⟩ := append_of_mem (mem_doomedKeys.2 ht.1)
  have hnone : takenBy (plan w ns opts done) k = none := by
    rcases htaken : takenBy (plan w ns opts done) k with _ | _ | _
    · rfl
    · -- An entry that comes before, and that the key begins with.
      obtain ⟨d, hmem, hdk⟩ := mem_of_takenBy htaken
      have hd := entry_mem_plan.1 hmem
      obtain ⟨hle, hne⟩ := le_of_mem_before hkeys hd
      have hdoomed : doomed w ns opts d := mem_doomedKeys.1 (by
        rw [hkeys]
        exact mem_append_left _ hd)
      rcases prefix_or_prefix_of_prefix hdk htk with hp | hp
      · exact absurd (ht.2 d hdoomed hp) hne
      · exact absurd (List.le_antisymm hle (le_of_isPrefix hp)) hne
    · -- A marker that is looked for before: its entry comes before what took the key.
      obtain ⟨m, hmem, hmk⟩ := mem_of_takenBy htaken
      obtain ⟨t₁, ht₁, htop₁, hm⟩ := marker_mem_plan.1 hmem
      obtain ⟨hle, hne⟩ := le_of_mem_before hkeys ht₁
      rcases h.alone t₁ htop₁ m hm k (isSome_of_doomed hk) hmk with ⟨hno, -⟩ | ⟨t₂, ht₂, hle₂, hk₂⟩
      · exact absurd (doomed_iff.1 hk).1 hno
      · obtain rfl := topmost_unique ht₂ ht hk₂ htk
        exact absurd (List.le_antisymm hle hle₂) hne
  have hsplit : plan w ns opts (doomedKeys w ns opts) =
      plan w ns opts done ++ plan w ns opts (t :: rest) := by
    rw [hkeys, plan_append]
  rw [hsplit, takenBy_append, hnone, Option.none_or, plan, flatMap_cons, planOf,
    append_assoc, singleton_append, takenBy_cons_of_prefix htk]

theorem strikes_eq : strikes w ns opts (doomedKeys w ns opts) =
    plan w ns opts (doomedKeys w ns opts) := by
  refine strikes_eq_plan ?_
  rintro done ⟨rest, hrest⟩ - t ht htaken
  have hall := h.taken_of_doomed ht.1
  rw [← hrest, plan_append, takenBy_append, htaken] at hall
  simp at hall

/-- An entry that is kept is not taken. -/
theorem taken_of_entry (hk : isEntry w ns k) (hkept : ¬doomed w ns opts k) :
    takenBy (plan w ns opts (doomedKeys w ns opts)) k = none := by
  have hsome : (w.get k).isSome := by
    rw [isEntry, Bool.and_eq_true] at hk
    exact hk.1
  rcases htaken : takenBy (plan w ns opts (doomedKeys w ns opts)) k with _ | _ | _
  · rfl
  · exact absurd (doomed_of_taken hsome htaken) hkept
  · obtain ⟨t, ht, m, hm, hmk⟩ := taken_of_marker htaken
    rcases h.alone t ht m hm k hsome hmk with ⟨hno, -⟩ | ⟨t', ht', -, hk'⟩
    · exact absurd hk hno
    · exact absurd (doomed_of_isPrefix ht'.1 hsome hk') hkept

/-- A key that is taken with a marker is a marker of a deleted entry. -/
theorem marker_of_taken (hk : (w.get k).isSome)
    (htaken : takenBy (plan w ns opts (doomedKeys w ns opts)) k = some .marker) :
    ¬isEntry w ns k ∧ ∃ d, doomed w ns opts d ∧ k ∈ markersAt w ns opts d := by
  obtain ⟨t, ht, m, hm, hmk⟩ := taken_of_marker htaken
  refine (h.alone t ht m hm k hk hmk).resolve_right ?_
  rintro ⟨t', ht', -, hk'⟩
  rw [h.taken_of_doomed (doomed_of_isPrefix ht'.1 hk hk')] at htaken
  simp at htaken

end Separate

theorem isSome_of_mem {e : JsString × LogEntry P} (he : e ∈ w.entries) : (w.get e.1).isSome := by
  rw [OrderedMap.mem_entries_iff.1 (show (e.1, e.2) ∈ w.entries from he)]
  rfl

/-- Two counts are equal, and what one counts the other does. -/
theorem of_countP_eq {A : Type} {l : List A} {p q : A → Bool} (h : l.countP p = l.countP q)
    (hpq : ∀ a ∈ l, p a → q a) : ∀ a ∈ l, q a → p a := by
  intro a ha hq
  have hsub : l.filter p = (l.filter q).filter p := by
    rw [filter_filter]
    refine filter_congr fun b hb => ?_
    rw [Bool.eq_iff_iff, Bool.and_eq_true, and_iff_left_of_imp (hpq b hb)]
  have hlength : ((l.filter q).filter p).length = (l.filter q).length := by
    rw [← hsub, ← countP_eq_length_filter, ← countP_eq_length_filter, h]
  exact length_filter_eq_length_iff.1 hlength a (mem_filter.2 ⟨ha, hq⟩)

/-! ### What is read after the sweep -/

theorem get_sweep (k : JsString) : (sweepLog w ns opts).2.get k =
    if takenBy (strikes w ns opts (doomedKeys w ns opts)) k = none then w.get k else none := by
  rw [← get_remaining, ← tracks_sweep.journal]
  rfl

theorem gone_iff (hk : (w.get k).isSome) : (sweepLog w ns opts).2.get k = none ↔
    takenBy (strikes w ns opts (doomedKeys w ns opts)) k ≠ none := by
  rw [get_sweep]
  split
  · next hnone =>
    rw [Option.isSome_iff_ne_none] at hk
    exact ⟨fun h => absurd h hk, fun h => absurd hnone h⟩
  · next hnone => exact ⟨fun _ => hnone, fun _ => rfl⟩

theorem taken_of_kept (hk : (w.get k).isSome) (h : (sweepLog w ns opts).2.get k = w.get k) :
    takenBy (strikes w ns opts (doomedKeys w ns opts)) k = none := by
  by_contra hne
  rw [(gone_iff hk).2 hne] at h
  rw [← h] at hk
  exact Bool.false_ne_true hk

theorem deleted_eq : (sweepLog w ns opts).1.deleted =
    countTaken w (strikes w ns opts (doomedKeys w ns opts)) .entry := tracks_sweep.deleted

theorem deletedMarkers_eq : (sweepLog w ns opts).1.deletedMarkers =
    countTaken w (strikes w ns opts (doomedKeys w ns opts)) .marker := tracks_sweep.deletedMarkers

theorem strikes_append (keys' : List JsString) :
    strikes w ns opts keys <+: strikes w ns opts (keys ++ keys') := by
  induction keys' using List.reverseRecOn with
  | nil => rw [append_nil]
  | append_singleton keys' key ih =>
    refine ih.trans ?_
    rw [← append_assoc, strikes_concat, strike, append_assoc]
    exact prefix_append _ _

theorem mem_of_entry_mem_strikes (h : (.entry, p) ∈ strikes w ns opts keys) : p ∈ keys := by
  induction keys using List.reverseRecOn with
  | nil => exact absurd h not_mem_nil
  | append_singleton keys key ih =>
    rw [strikes_concat, strike, mem_append, mem_append] at h
    rw [mem_append]
    rcases h with (h | h) | h
    · exact .inl (ih h)
    · exact .inr (mem_singleton.2 (Prod.mk.inj (mem_singleton.1 h)).2)
    · split at h <;> simp at h

namespace Swept

variable (h : Swept w ns opts (sweepLog w ns opts))

include h

/-- The number of the deleted entries says that none is taken for a marker. -/
theorem taken_of_entry (hk : isEntry w ns k) :
    takenBy (strikes w ns opts (doomedKeys w ns opts)) k ≠ some .marker := by
  intro htaken
  have hsome : (w.get k).isSome := by
    rw [isEntry, Bool.and_eq_true] at hk
    exact hk.1
  obtain ⟨v, hv⟩ := Option.isSome_iff_exists.1 hsome
  have hall := of_countP_eq (deleted_eq.symm.trans h.deleted) ?_ (k, v)
    (OrderedMap.mem_entries_iff.2 hv) ?_
  · rw [decide_eq_true_iff, htaken] at hall
    simp at hall
  · intro e he htaken
    rw [decide_eq_true_iff] at htaken
    obtain ⟨d, hmem, hdk⟩ := mem_of_takenBy htaken
    have hd := mem_doomedKeys.1 (mem_of_entry_mem_strikes hmem)
    rw [Bool.and_eq_true, Option.isNone_iff_eq_none, gone_iff (isSome_of_mem he), htaken]
    exact ⟨(doomed_iff.1 (doomed_of_isPrefix hd (isSome_of_mem he) hdk)).1, by simp⟩
  · rw [Bool.and_eq_true, Option.isNone_iff_eq_none, gone_iff hsome, htaken]
    exact ⟨hk, by simp⟩

theorem strikes_eq : strikes w ns opts (doomedKeys w ns opts) =
    plan w ns opts (doomedKeys w ns opts) := by
  refine strikes_eq_plan ?_
  rintro done ⟨rest, hrest⟩ hdone t ht htaken
  have hstart : strikes w ns opts done <+: strikes w ns opts (done ++ rest) := strikes_append rest
  rw [hrest, hdone] at hstart
  exact h.taken_of_entry (doomed_iff.1 ht.1).1 (takenBy_of_isPrefix hstart htaken)

/-- The number of the deleted markers says that only markers are taken with markers. -/
theorem marker_of_taken (hk : (w.get k).isSome)
    (htaken : takenBy (plan w ns opts (doomedKeys w ns opts)) k = some .marker) :
    ¬isEntry w ns k ∧ ∃ d, doomed w ns opts d ∧ k ∈ markersAt w ns opts d := by
  rw [← h.strikes_eq] at htaken
  obtain ⟨v, hv⟩ := Option.isSome_iff_exists.1 hk
  have hall := of_countP_eq (h.deletedMarkers.symm.trans deletedMarkers_eq) ?_ (k, v)
    (OrderedMap.mem_entries_iff.2 hv) (decide_eq_true htaken)
  · rw [Bool.and_eq_true, Bool.and_eq_true, Bool.not_eq_true', ← Bool.not_eq_true, isMarker,
      any_eq_true] at hall
    obtain ⟨⟨hno, d, hd, hm⟩, -⟩ := hall
    rw [decide_eq_true_iff] at hm
    refine ⟨hno, d, ?_, hm⟩
    by_contra hkept
    have hnone := taken_of_kept hk (h.keptMarkers d (mem_logKeys.1 hd) hkept k hm)
    rw [hnone] at htaken
    simp at htaken
  · intro e he hp
    rw [Bool.and_eq_true, Bool.and_eq_true, Option.isNone_iff_eq_none, Bool.not_eq_true',
      ← Bool.not_eq_true, gone_iff (isSome_of_mem he), h.strikes_eq] at hp
    obtain ⟨⟨hno, -⟩, hgone⟩ := hp
    rw [decide_eq_true_iff, h.strikes_eq]
    rcases htaken : takenBy (plan w ns opts (doomedKeys w ns opts)) e.1 with _ | _ | _
    · exact absurd htaken hgone
    · exact absurd (doomed_iff.1 (doomed_of_taken (isSome_of_mem he) htaken)).1 hno
    · rfl

theorem beneath (hk : doomed w ns opts k) (hm : p ∈ markersAt w ns opts k)
    (hsome : (w.get p).isSome) : doomed w ns opts p ∨
      ∃ t, Topmost w ns opts t ∧ ∃ m' ∈ markersAt w ns opts t, m' <+: p := by
  have htaken := (gone_iff hsome).1 ((h.gone k hk).2 p hm)
  rw [h.strikes_eq] at htaken
  rcases hp : takenBy (plan w ns opts (doomedKeys w ns opts)) p with _ | _ | _
  · exact absurd hp htaken
  · exact .inl (doomed_of_taken hsome hp)
  · exact .inr (taken_of_marker hp)

theorem alone {t : JsString} (ht : Topmost w ns opts t) (hm : p ∈ markersAt w ns opts t)
    (hk : (w.get k).isSome) (hpk : p <+: k) :
    (¬isEntry w ns k ∧ ∃ d, doomed w ns opts d ∧ k ∈ markersAt w ns opts d) ∨
      ∃ t', Topmost w ns opts t' ∧ t' ≤ t ∧ t' <+: k := by
  obtain ⟨done, rest, hkeys⟩ := append_of_mem (mem_doomedKeys.2 ht.1)
  have hsplit : plan w ns opts (doomedKeys w ns opts) =
      plan w ns opts (done ++ [t]) ++ plan w ns opts rest := by
    rw [hkeys, ← plan_append, append_assoc, singleton_append]
  -- What takes the key is before the marker, or the marker itself.
  rcases htaken : takenBy (plan w ns opts (done ++ [t])) k with _ | _ | _
  · have hmem : (.marker, p) ∈ plan w ns opts (done ++ [t]) :=
      marker_mem_plan.2 ⟨t, by simp, ht, hm⟩
    exact absurd hpk (takenBy_eq_none_iff.1 htaken _ hmem)
  · obtain ⟨d, hmem, hdk⟩ := mem_of_takenBy htaken
    have hd := entry_mem_plan.1 hmem
    have hdoomed : doomed w ns opts d := by
      rw [← mem_doomedKeys, hkeys, append_cons]
      exact mem_append_left _ hd
    have hle : d ≤ t := by
      rcases mem_append.1 hd with hd | hd
      · exact (le_of_mem_before hkeys hd).1
      · rw [mem_singleton.1 hd]
        exact List.le_refl t
    obtain ⟨t', ht', htd⟩ := exists_topmost hdoomed
    exact .inr ⟨t', ht', List.le_trans (le_of_isPrefix htd) hle, htd.trans hdk⟩
  · refine .inl (h.marker_of_taken hk ?_)
    rw [hsplit]
    exact takenBy_of_isPrefix (prefix_append _ _) htaken

theorem separate : Separate w ns opts where
  beneath _ hk _ _ hm hsome := h.beneath hk hm hsome
  alone _ ht _ hm _ hk hmk := h.alone ht hm hk hmk
  apart k hk hkept m hm hdoomed := by
    have hnone := taken_of_kept (isSome_of_doomed hdoomed) (h.keptMarkers k hk hkept m hm)
    rw [h.strikes_eq] at hnone
    exact taken_ne_none hdoomed hnone

end Swept

theorem Separate.swept (h : Separate w ns opts) (hown : OwnMarkers w ns opts) :
    Swept w ns opts (sweepLog w ns opts) := by
  have hgone {k : JsString} (hk : (w.get k).isSome) : (sweepLog w ns opts).2.get k = none ↔
      takenBy (plan w ns opts (doomedKeys w ns opts)) k ≠ none := by
    rw [gone_iff hk, h.strikes_eq]
  have hnone {k : JsString} (hk : takenBy (plan w ns opts (doomedKeys w ns opts)) k = none) :
      (sweepLog w ns opts).2.get k = w.get k := by rw [get_sweep, h.strikes_eq, if_pos hk]
  refine ⟨?_, ?_, ?_, ?_, ?_⟩
  · intro k hk
    refine ⟨(hgone (isSome_of_doomed hk)).2 (taken_ne_none hk), fun m hm => ?_⟩
    by_cases hsome : (w.get m).isSome
    · refine (hgone hsome).2 ?_
      by_cases htop : Topmost w ns opts k
      · exact taken_marker_ne_none htop hm prefix_rfl
      · rcases h.beneath k hk htop m hm hsome with hd | ⟨t, ht, m', hm', hp⟩
        · exact taken_ne_none hd
        · exact taken_marker_ne_none ht hm' hp
    · rw [get_sweep, Option.not_isSome_iff_eq_none.1 hsome, ite_self]
  · exact fun k hk hlate => hnone (h.taken_of_entry hk fun hd => hlate (expired_of_doomed hd))
  · intro k hk hkept m hm
    by_cases hsome : (w.get m).isSome
    · refine hnone ?_
      rcases htaken : takenBy (plan w ns opts (doomedKeys w ns opts)) m with _ | _ | _
      · rfl
      · exact absurd (doomed_of_taken hsome htaken) (h.apart k hk hkept m hm)
      · obtain ⟨-, d, hd, hmd⟩ := h.marker_of_taken hsome htaken
        exact absurd (hown k d m hk (doomed_iff.1 hd).1 hm hmd ▸ hd) hkept
    · rw [get_sweep, Option.not_isSome_iff_eq_none.1 hsome, ite_self]
  · rw [deleted_eq, h.strikes_eq]
    refine countP_congr fun e he => ?_
    have hsome := isSome_of_mem he
    rw [Bool.and_eq_true, Option.isNone_iff_eq_none, hgone hsome, decide_eq_true_iff]
    constructor
    · intro htaken
      exact ⟨(doomed_iff.1 (doomed_of_taken hsome htaken)).1, by rw [htaken]; simp⟩
    · rintro ⟨hentry, htaken⟩
      by_cases hd : doomed w ns opts e.1
      · exact h.taken_of_doomed hd
      · exact absurd (h.taken_of_entry hentry hd) htaken
  · rw [deletedMarkers_eq, h.strikes_eq]
    refine countP_congr fun e he => ?_
    have hsome := isSome_of_mem he
    rw [Bool.and_eq_true, Bool.and_eq_true, Option.isNone_iff_eq_none, hgone hsome,
      decide_eq_true_iff, Bool.not_eq_true', ← Bool.not_eq_true]
    constructor
    · intro htaken
      obtain ⟨hno, d, hd, hm⟩ := h.marker_of_taken hsome htaken
      refine ⟨⟨hno, any_eq_true.2 ⟨d, mem_logKeys.2 (doomed_iff.1 hd).1, ?_⟩⟩, ?_⟩
      · exact decide_eq_true hm
      · rw [htaken]
        simp
    · rintro ⟨⟨hno, -⟩, htaken⟩
      rcases htaken' : takenBy (plan w ns opts (doomedKeys w ns opts)) e.1 with _ | _ | _
      · exact absurd htaken' htaken
      · exact absurd (doomed_iff.1 (doomed_of_taken hsome htaken')).1 hno
      · rfl

/-- A sweep removes exactly the expired entries, and their markers, if and only if the markers are
    where they do not come in the way of others, and can be found. -/
theorem swept_iff (hown : OwnMarkers w ns opts) :
    Swept w ns opts (sweepLog w ns opts) ↔ Separate w ns opts :=
  ⟨Swept.separate, fun h => h.swept hown⟩

end Plan

/-! ## A log whose entries extend one another -/

section Jobs

theorem ownMarkers_iff {w : LogJournal P} {ns : JsString} {opts : LogSweepOptions P} :
    OwnMarkers w ns opts ↔ ∀ k ∈ logKeys w ns, ∀ k' ∈ logKeys w ns,
      ∀ m ∈ markersAt w ns opts k, m ∈ markersAt w ns opts k' → k = k' := by
  simp only [OwnMarkers, mem_logKeys]
  exact ⟨fun h k hk k' hk' m => h k k' m hk hk', fun h k k' m hk hk' => h k hk k' hk' m⟩

/-- A job and its retry, both done long ago, with the markers of their consumption. -/
def oldJobs : LogJournal Unit :=
  (((OrderedMap.empty.put (js "q:job") ⟨some (js "job"), (), some 0⟩).put (js "q:job:retry")
    ⟨some (js "job:retry"), (), some 0⟩).put (js "job:ack") ⟨none, (), none⟩).put
      (js "job:retry:ack") ⟨none, (), none⟩

/-- The marker of an item is `<id>:ack`. -/
def ackedFor (olderThanMs : ℚ) : LogSweepOptions Unit :=
  ⟨olderThanMs, some fun item => .one (item.id ++ js ":ack"), 10⟩

theorem swept_iff_oldJobs :
    Swept oldJobs (js "q") (ackedFor 5) (sweepLog oldJobs (js "q") (ackedFor 5)) ↔
      Separate oldJobs (js "q") (ackedFor 5) :=
  swept_iff (ownMarkers_iff.2 (by decide +kernel))

/-- Both are deleted at once, and the marker of the retry is not looked for. -/
theorem sweep_forgets_marker : OwnMarkers oldJobs (js "q") (ackedFor 5) ∧
    ¬Swept oldJobs (js "q") (ackedFor 5) (sweepLog oldJobs (js "q") (ackedFor 5)) := by
  refine ⟨ownMarkers_iff.2 (by decide +kernel), fun h => ?_⟩
  have hgone := (h.gone (js "q:job:retry") (by decide +kernel)).2 (js "job:retry:ack")
    (by decide +kernel)
  have hthere : ((sweepLog oldJobs (js "q") (ackedFor 5)).2.get (js "job:retry:ack")).isSome := by
    decide +kernel
  rw [hgone] at hthere
  exact Bool.false_ne_true hthere

end Jobs

end Gnldev.Durable
