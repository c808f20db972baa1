import Gnldev.Lib.Utf8
import Mathlib.Data.List.Sort

/-!
# The range of a prefix

The stores on SQL find the keys under a prefix by a range of their bytes, up to
`prefixUpperBound`: the prefix with the next character in place of its last one. Nothing
that is no key under the prefix is in the range, and nothing under it is missed unless
the prefix ends in the last character there is (`mem_range_iff`, `listKeys_deletePrefix`).
-/

namespace Gnldev.Durable.Org

/-! ## The bound -/

/-- The next code point. -/
def nextCodePoint (last : ℕ) : ℕ :=
  let next := last + 1
  -- Surrogates do not survive UTF-8.
  if 0xD800 ≤ next ∧ next ≤ 0xDFFF then 0xE000 else next

/-- The bound of what begins with a string. -/
def prefixUpperBound (p : JsString) : Option JsString :=
  match (codePoints p).getLast? with
  | none => none
  | some last =>
    let next := nextCodePoint last
    if next > 0x10FFFF then some (p ++ fromCodePoint 0x10FFFF)
    else some (fromCodePoints (codePoints p).dropLast ++ fromCodePoint next)

/-- The condition of `range`, on the bytes of a column. -/
def inRange (p key : JsString) : Bool :=
  !(utf8 key < utf8 p) && (prefixUpperBound p).all fun upper => utf8 key < utf8 upper

/-- Whether a string ends in the last character there is. -/
def EndsAtTop (p : JsString) : Prop := (codePoints p).getLast? = some 0x10FFFF

theorem isScalar_nextCodePoint {c : ℕ} (h : IsScalar c) (hc : c ≠ 0x10FFFF) :
    IsScalar (nextCodePoint c) := by
  simp only [IsScalar, isSurrogate, Bool.and_eq_false_iff, decide_eq_false_iff_not] at h ⊢
  unfold nextCodePoint
  dsimp only
  split <;> omega

/-- There is no character in between. -/
theorem le_of_lt_nextCodePoint {c x : ℕ} (hx : isSurrogate x = false) (h : x < nextCodePoint c) :
    x ≤ c := by
  simp only [isSurrogate, Bool.and_eq_false_iff, decide_eq_false_iff_not] at hx
  unfold nextCodePoint at h
  dsimp only at h
  split at h <;> omega

theorem lt_nextCodePoint (c : ℕ) : c < nextCodePoint c := by
  unfold nextCodePoint
  dsimp only
  split <;> omega

theorem wellFormed_fromCodePoints {l : List ℕ} (h : ∀ c ∈ l, IsScalar c) :
    WellFormed (fromCodePoints l) := by
  intro c hc
  rw [codePoints_fromCodePoints h] at hc
  exact (h c hc).2

/-- What is in the range of a prefix: what begins with it, if it is not at the top. -/
theorem mem_range_iff {p k : JsString} (hp : WellFormed p) (hne : p ≠ []) (hk : WellFormed k) :
    ∃ upper, prefixUpperBound p = some upper ∧
      (¬EndsAtTop p → (¬utf8 k < utf8 p ∧ utf8 k < utf8 upper ↔ p <+: k)) ∧
      (EndsAtTop p → ¬utf8 k < utf8 p ∧ utf8 k < utf8 upper → p <+: k) := by
  have hcps : codePoints p ≠ [] := fun h =>
    hne (by rw [← fromCodePoints_codePoints p, h]; rfl)
  have hlast : (codePoints p).getLast? = some ((codePoints p).getLast hcps) :=
    List.getLast?_eq_some_getLast hcps
  set last := (codePoints p).getLast hcps with hdef
  have hcut : (codePoints p).dropLast ++ [last] = codePoints p := List.dropLast_append_getLast hcps
  have hscalar : IsScalar last := hp.isScalar (List.getLast_mem hcps)
  rw [← hp.codePoints_isPrefix_iff, utf8_lt_utf8_iff hk hp]
  unfold prefixUpperBound EndsAtTop
  rw [hlast]
  dsimp only
  by_cases htop : last = 0x10FFFF
  · refine ⟨_, by rw [if_pos (by rw [htop]; decide)], fun h => absurd (by rw [htop]) h, fun _ h => ?_⟩
    -- What is above the prefix and does not begin with it is above all that does.
    have hupper : codePoints (p ++ fromCodePoint 0x10FFFF) = codePoints p ++ [0x10FFFF] :=
      hp.codePoints_append _
    have hwf : WellFormed (p ++ fromCodePoint 0x10FFFF) := by
      intro c hc
      rw [hupper, List.mem_append, List.mem_singleton] at hc
      rcases hc with hc | rfl
      · exact hp c hc
      · rfl
    rw [utf8_lt_utf8_iff hk hwf, hupper] at h
    exact prefix_of_le_of_le (List.not_lt.1 h.1) (List.le_iff_lt_or_eq.2 (.inl h.2))
  · have hnext : IsScalar (nextCodePoint last) := isScalar_nextCodePoint hscalar htop
    have hchars : ∀ c ∈ (codePoints p).dropLast ++ [nextCodePoint last], IsScalar c := by
      intro c hc
      rcases List.mem_append.1 hc with hc | hc
      · exact hp.isScalar (List.dropLast_subset _ hc)
      · rw [List.mem_singleton.1 hc]
        exact hnext
    have hupper : fromCodePoints (codePoints p).dropLast ++ fromCodePoint (nextCodePoint last) =
        fromCodePoints ((codePoints p).dropLast ++ [nextCodePoint last]) := by
      simp [fromCodePoints]
    refine ⟨_, by rw [if_neg (Nat.not_lt.2 hnext.1), hupper], fun _ => ?_,
      fun h => absurd (Option.some.inj h) htop⟩
    rw [utf8_lt_utf8_iff hk (wellFormed_fromCodePoints hchars), codePoints_fromCodePoints hchars,
      ← hcut]
    rw [List.dropLast_concat]
    exact prefix_range_iff (lt_nextCodePoint last) fun x hx => le_of_lt_nextCodePoint (hk x hx)

theorem isPrefix_of_inRange {p k : JsString} (hp : WellFormed p) (hk : WellFormed k)
    (h : inRange p k = true) : p <+: k := by
  by_cases hne : p = []
  · exact hne ▸ List.nil_prefix
  · obtain ⟨upper, hupper, hiff, htop⟩ := mem_range_iff hp hne hk
    rw [inRange, hupper] at h
    have hrange : ¬utf8 k < utf8 p ∧ utf8 k < utf8 upper := by simpa using h
    exact (em (EndsAtTop p)).elim (htop · hrange) fun hlow => (hiff hlow).1 hrange

theorem inRange_eq_startsWith {p k : JsString} (hp : WellFormed p) (htop : ¬EndsAtTop p)
    (hk : WellFormed k) : inRange p k = k.startsWith p := by
  rw [Bool.eq_iff_iff, JsString.startsWith_iff]
  by_cases hne : p = []
  · simp [hne, inRange, prefixUpperBound, codePoints, utf8]
  · obtain ⟨upper, hupper, hiff, -⟩ := mem_range_iff hp hne hk
    rw [← hiff htop, inRange, hupper]
    simp

/-! ## The store -/

/-- A record of the journal, as far as it is listed and deleted. -/
structure Row where
  key : JsString
  createdAt : ℕ

/-- The tables that keys are in. -/
structure Tables where
  journal : List Row
  runs : List JsString
  counters : List JsString

/-- `ORDER BY created_at, key`. -/
def Row.before (r r' : Row) : Bool :=
  r.createdAt < r'.createdAt || (r.createdAt == r'.createdAt && !(utf8 r'.key < utf8 r.key))

/-- The keys that satisfy a condition, in order. -/
def Tables.selectWhere (db : Tables) (cond : JsString → Bool) : List JsString :=
  ((db.journal.filter (cond ·.key)).mergeSort Row.before).map Row.key

/-- The records whose key satisfies a condition are gone, and the run of that id. -/
def Tables.deleteWhere (db : Tables) (rid : JsString) (cond : JsString → Bool) : Tables × ℕ :=
  (⟨db.journal.filter (!cond ·.key), db.runs.filter fun run => !(run == rid || cond run),
    db.counters.filter (!cond ·)⟩, db.journal.countP (cond ·.key))

/-- `listKeys(prefix)`, without a limit. -/
def Tables.listKeys (db : Tables) (p : JsString) : List JsString := db.selectWhere (inRange p)

/-- `prefix.endsWith(':') ? prefix.slice(0, -1) : prefix`. -/
def runOfPrefix (p : JsString) : JsString := if p.getLast? = some 0x3A then p.dropLast else p

/-- `deletePrefix(prefix)`. -/
def Tables.deletePrefix (db : Tables) (p : JsString) : Tables × ℕ :=
  db.deleteWhere (runOfPrefix p) (inRange p)

/-- Every key of a store is well-formed. -/
def Tables.WellFormed (db : Tables) : Prop :=
  ∀ k ∈ db.journal.map Row.key ++ (db.runs ++ db.counters), Gnldev.WellFormed k

/-- What a store lists and deletes by a prefix is what satisfies a condition: its keys are listed, the
    rest is left, and the records deleted are counted. -/
structure Tables.CutBy (db : Tables) (p : JsString) (under : JsString → Prop) : Prop where
  listed : ∀ k, k ∈ db.listKeys p ↔ k ∈ db.journal.map Row.key ∧ under k
  journal : ∀ r, r ∈ (db.deletePrefix p).1.journal ↔ r ∈ db.journal ∧ ¬under r.key
  counters : ∀ k, k ∈ (db.deletePrefix p).1.counters ↔ k ∈ db.counters ∧ ¬under k
  runs : ∀ k, k ∈ (db.deletePrefix p).1.runs ↔ k ∈ db.runs ∧ k ≠ runOfPrefix p ∧ ¬under k
  counted : (db.deletePrefix p).2 = (db.listKeys p).length
  left : (db.deletePrefix p).2 + (db.deletePrefix p).1.journal.length = db.journal.length

theorem Tables.cutBy_inRange (db : Tables) (p : JsString) : db.CutBy p (inRange p · = true) where
  listed k := by
    simp only [listKeys, selectWhere, List.mem_map, List.mem_mergeSort, List.mem_filter]
    constructor
    · rintro ⟨r, ⟨hr, hk⟩, rfl⟩
      exact ⟨⟨r, hr, rfl⟩, hk⟩
    · rintro ⟨⟨r, hr, rfl⟩, hk⟩
      exact ⟨r, ⟨hr, hk⟩, rfl⟩
  journal r := by simp [deletePrefix, deleteWhere]
  counters k := by simp [deletePrefix, deleteWhere]
  runs k := by simp [deletePrefix, deleteWhere]
  counted := by
    simp [deletePrefix, deleteWhere, listKeys, selectWhere, List.countP_eq_length_filter]
  left := by
    rw [deletePrefix, deleteWhere, List.length_eq_countP_add_countP (inRange p ·.key) (l := db.journal),
      ← List.countP_eq_length_filter]
    simp

/-- The condition is asked of the keys of the store only. -/
theorem Tables.CutBy.congr {db : Tables} {p : JsString} {under under' : JsString → Prop}
    (h : db.CutBy p under)
    (hkeys : ∀ k ∈ db.journal.map Row.key ++ (db.runs ++ db.counters), under k ↔ under' k) :
    db.CutBy p under' where
  listed k := (h.listed k).trans (and_congr_right fun hk => hkeys k (List.mem_append_left _ hk))
  journal r := (h.journal r).trans (and_congr_right fun hr =>
    not_congr (hkeys _ (List.mem_append_left _ (List.mem_map_of_mem hr))))
  counters k := (h.counters k).trans (and_congr_right fun hk =>
    not_congr (hkeys k (List.mem_append_right _ (List.mem_append_right _ hk))))
  runs k := (h.runs k).trans (and_congr_right fun hk => and_congr_right fun _ =>
    not_congr (hkeys k (List.mem_append_right _ (List.mem_append_left _ hk))))
  counted := h.counted
  left := h.left

/-- The range of a prefix is exact, and never too wide. So `listKeys` returns and `deletePrefix`
    deletes the keys under the prefix, and never another one. -/
theorem listKeys_deletePrefix (p : JsString) (hp : WellFormed p) :
    (p ≠ [] → ∀ k, WellFormed k → ∃ upper, prefixUpperBound p = some upper ∧
      (¬EndsAtTop p → (¬utf8 k < utf8 p ∧ utf8 k < utf8 upper ↔ p <+: k)) ∧
      (EndsAtTop p → ¬utf8 k < utf8 p ∧ utf8 k < utf8 upper → p <+: k)) ∧
    ∀ db : Tables, db.WellFormed → (¬EndsAtTop p → db.CutBy p (p <+: ·)) ∧
      ∃ under, (∀ k, under k → p <+: k) ∧ db.CutBy p under := by
  refine ⟨fun hne k hk => mem_range_iff hp hne hk, fun db hdb => ⟨fun htop => ?_,
    fun k => inRange p k = true ∧ p <+: k, fun k hk => hk.2, ?_⟩⟩
  · refine (db.cutBy_inRange p).congr fun k hk => ?_
    rw [inRange_eq_startsWith hp htop (hdb k hk), JsString.startsWith_iff]
  · exact (db.cutBy_inRange p).congr fun k hk =>
      (and_iff_left_of_imp (isPrefix_of_inRange hp (hdb k hk))).symm

/-- A purge of an organization: its keys go, that of another one stays. -/
theorem listKeys_deletePrefix_org :
    Tables.CutBy ⟨[⟨js "org:a:😀", 1⟩, ⟨js "org:b:x", 0⟩], [js "org:a"], [js "org:a:n"]⟩
      (js "org:a:") (js "org:a:" <+: ·) :=
  ((listKeys_deletePrefix _ (by unfold WellFormed; decide)).2 _
    (by unfold Tables.WellFormed WellFormed; decide)).1 (by unfold EndsAtTop; decide)

end Gnldev.Durable.Org
