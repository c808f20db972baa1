import Gnldev.Durable.Retention

/-!
# The keys of a thread

All keys that a thread has have its id between a beginning and an end that the kind of key gives
(`ThreadKey.key`). Whose a key is, is read at a known end, or at the last known family in it: the id
is found whatever is in it, but not if it is empty (`threadIdOfMemKey_key`, `threadIdOfOmKey_key`,
`threadIdOfXthrKey_key`), nor if a family is in the name of the tool as well
(`threadIdOfXthrKey_of_family`).
-/

open List

namespace Gnldev.Durable

/-! ## Kinds of keys -/

/-- A memoized step of observational memory. -/
inductive OmStep where
  | observe (seq : ℕ)
  | reflect (seq : ℕ)
  | vec (level seqKey : ℕ)

def OmStep.name : OmStep → JsString
  | observe seq => js "observe:" ++ decimal seq
  | reflect seq => js "reflect:" ++ decimal seq
  | vec level seqKey => js "vec:" ++ decimal level ++ js ":" ++ decimal seqKey

/-- A key that a thread can have. -/
inductive ThreadKey where
  /-- Its messages, and its working memory. -/
  | memory (suffix : JsString) (h : suffix ∈ MEM_SUFFIXES)
  /-- Records of tool calls: the name of the tool, and digests of what it was called with. -/
  | dedup (family : JsString) (h : family ∈ XTHR_FAMILIES) (tail : JsString)
  /-- The counters of observational memory. -/
  | counter (suffix : JsString) (h : suffix ∈ OM_SUFFIXES)
  | proc (step : OmStep)
  | owner
  /-- The trace that a person has the thread. -/
  | trace (resourceId : JsString)

namespace ThreadKey

/-- What is before the id. -/
def start : ThreadKey → JsString
  | memory .. => MEM_PREFIX
  | dedup .. => XTHR_PREFIX
  | counter .. => OM_PREFIX
  | proc .. => OM_PREFIX
  | owner => js "thread:"
  | trace resourceId => RESTHR_PREFIX ++ escOwnerPart resourceId ++ js ":"

/-- What is after the id. -/
def leaf : ThreadKey → JsString
  | memory suffix _ => suffix
  | dedup family _ tail => family ++ tail
  | counter suffix _ => suffix
  | proc step => js ":proc:" ++ step.name
  | owner => js ":owner"
  | trace _ => []

def key (threadId : JsString) (k : ThreadKey) : JsString := k.start ++ threadId ++ k.leaf

theorem key_owner (threadId : JsString) : owner.key threadId = threadOwnerKey threadId := rfl

theorem key_trace (resourceId threadId : JsString) :
    (trace resourceId).key threadId = ownershipTraceKey resourceId threadId :=
  append_nil _

end ThreadKey

/-! ## Ends -/

/-- The id that is found, if there is something to be found. -/
def nonempty (threadId : JsString) : Option JsString := if threadId = [] then none else some threadId

theorem beforeEnd_append (e s : JsString) : beforeEnd e (s ++ e) = some s :=
  beforeEnd_eq_some_iff.2 rfl

theorem beforeEnd_eq_none {e s : JsString} (h : ¬e <:+ s) : beforeEnd e s = none := by
  refine Option.eq_none_iff_forall_ne_some.2 fun r hr => h ?_
  exact ⟨r, (beforeEnd_eq_some_iff.1 hr).symm⟩

variable {suffix : JsString}

/-- No text ends in two of the ends. -/
theorem beforeSuffix_append {suffixes : List JsString}
    (hapart : ∀ s ∈ suffixes, s <:+ suffix ∨ suffix <:+ s → s = suffix) (h : suffix ∈ suffixes)
    (threadId : JsString) : beforeSuffix suffixes (threadId ++ suffix) = nonempty threadId := by
  have hread (s : JsString) (hs : s ∈ suffixes) :
      (beforeEnd s (threadId ++ suffix)).filter (· ≠ []) =
        if s = suffix then nonempty threadId else none := by
    split
    · next hs => rw [hs, beforeEnd_append, nonempty, Option.filter_some]; split <;> simp_all
    · next hne =>
      rw [beforeEnd_eq_none fun hend => hne (hapart s hs ?_), Option.filter_none]
      exact suffix_or_suffix_of_suffix hend (suffix_append ..)
  rw [beforeSuffix]
  by_cases hid : threadId = []
  · rw [nonempty, if_pos hid, findSome?_eq_none_iff]
    intro s hs
    rw [hread s hs, nonempty, if_pos hid, ite_self]
  · rw [nonempty, if_neg hid] at *
    clear hapart
    induction suffixes with
    | nil => contradiction
    | cons a suffixes ih =>
      rw [findSome?_cons, hread a mem_cons_self]
      split
      · next hs => exact hs ▸ by split <;> simp_all
      · next hs =>
        split at hs
        · contradiction
        · next hne =>
          refine ih ((mem_cons.1 h).resolve_left fun h => hne h.symm) fun s hs => ?_
          exact hread s (mem_cons_of_mem _ hs)

theorem threadIdOfMemKey_key (h : suffix ∈ MEM_SUFFIXES) (threadId : JsString) :
    threadIdOfMemKey (MEM_PREFIX ++ (threadId ++ suffix)) = nonempty threadId := by
  rw [threadIdOfMemKey, drop_left]
  refine beforeSuffix_append ?_ h threadId
  revert suffix
  decide

/-! ## Steps -/

/-- Counters do not end as numbers do. -/
theorem beforeSuffix_decimal (s : JsString) (n : ℕ) :
    beforeSuffix OM_SUFFIXES (s ++ decimal n) = none := by
  refine findSome?_eq_none_iff.2 fun suffix hsuffix => ?_
  rw [beforeEnd_eq_none, Option.filter_none]
  have hq : suffix.getLast? = some 0x71 := by
    revert suffix
    decide
  rintro ⟨r, hr⟩
  have hlast := congrArg List.getLast? hr
  rw [getLast?_append_of_ne_nil _ (decimal_ne_nil n), getLast?_append, hq] at hlast
  exact absurd (isDigit_of_mem_decimal (mem_of_getLast? hlast.symm)) (by decide)

/-- A segment is not where a step begins. -/
theorem not_proc_infix {u : UInt16} {s t : JsString} (hu : u ≠ 0x70) (hs : sep ∉ u :: s)
    (ht : ¬js ":proc:" <:+: t) : ¬js ":proc:" <:+: sep :: u :: s ++ t := by
  intro h
  rcases infix_cons_iff.1 h with hp | hp
  · exact hu (cons_prefix_cons.1 (cons_prefix_cons.1 hp).2).1.symm
  · exact ht (List.infix_of_notMem hs hp)

theorem not_proc_infix_decimal {t : JsString} (n : ℕ) (ht : ¬js ":proc:" <:+: t) :
    ¬js ":proc:" <:+: sep :: decimal n ++ t := by
  obtain ⟨u, s, hn⟩ := exists_cons_of_ne_nil (decimal_ne_nil n)
  have hdigit (v : UInt16) (hv : v ∈ decimal n) : isDigit v := isDigit_of_mem_decimal hv
  rw [hn] at hdigit ⊢
  refine not_proc_infix ?_ (fun h => absurd (hdigit _ h) (by decide)) ht
  rintro rfl
  exact absurd (hdigit _ mem_cons_self) (by decide)

/-- The name of a step has no step in it. -/
theorem OmStep.not_infix (step : OmStep) : ¬js ":proc:" <:+: js "proc:" ++ step.name := by
  have hnil : ¬js ":proc:" <:+: [] := by decide
  have hproc : sep ∉ js "proc" := by decide
  intro h
  rcases step with seq | seq | ⟨level, seqKey⟩
  · refine not_proc_infix (u := 0x6F) (s := js "bserve") (by decide) (by decide)
      (not_proc_infix_decimal seq hnil) (List.infix_of_notMem hproc ?_)
    rw [append_nil]
    exact h
  · refine not_proc_infix (u := 0x72) (s := js "eflect") (by decide) (by decide)
      (not_proc_infix_decimal seq hnil) (List.infix_of_notMem hproc ?_)
    rw [append_nil]
    exact h
  · refine not_proc_infix (u := 0x76) (s := js "ec") (by decide) (by decide)
      (not_proc_infix_decimal level (not_proc_infix_decimal seqKey hnil))
      (List.infix_of_notMem hproc ?_)
    rw [append_nil]
    rw [OmStep.name, append_assoc, append_assoc] at h
    exact h

theorem threadIdOfOmKey_counter (h : suffix ∈ OM_SUFFIXES) (threadId : JsString) :
    threadIdOfOmKey (OM_PREFIX ++ (threadId ++ suffix)) = nonempty threadId := by
  have hread : beforeSuffix OM_SUFFIXES (threadId ++ suffix) = nonempty threadId := by
    refine beforeSuffix_append ?_ h threadId
    revert suffix
    decide
  rw [threadIdOfOmKey, drop_left, hread, nonempty]
  by_cases hid : threadId = []
  · -- A counter without an id has no step in it.
    have hno : ∀ s ∈ OM_SUFFIXES, ¬js ":proc:" <:+: s := by decide
    rw [if_pos hid, hid, nil_append, List.lastIndexOf_eq_none_iff.2 (hno suffix h)]
  · rw [if_neg hid]

theorem threadIdOfOmKey_proc (step : OmStep) (threadId : JsString) :
    threadIdOfOmKey (OM_PREFIX ++ (threadId ++ (js ":proc:" ++ step.name))) = nonempty threadId := by
  have hnone : beforeSuffix OM_SUFFIXES (threadId ++ (js ":proc:" ++ step.name)) = none := by
    rcases step with seq | seq | ⟨level, seqKey⟩
    · simpa only [OmStep.name, append_assoc] using beforeSuffix_decimal
        (threadId ++ js ":proc:" ++ js "observe:") seq
    · simpa only [OmStep.name, append_assoc] using beforeSuffix_decimal
        (threadId ++ js ":proc:" ++ js "reflect:") seq
    · simpa only [OmStep.name, append_assoc] using beforeSuffix_decimal
        (threadId ++ js ":proc:" ++ js "vec:" ++ decimal level ++ js ":") seqKey
  have hcut : List.lastIndexOf (js ":proc:") (threadId ++ (js ":proc:" ++ step.name)) =
      some threadId.length := by
    rw [← append_assoc]
    exact List.lastIndexOf_append threadId step.not_infix
  rw [threadIdOfOmKey, drop_left]
  rw [hnone, hcut, nonempty]
  rcases threadId with _ | ⟨u, s⟩
  · rfl
  · exact congrArg some (@take_left _ (u :: s) _)

/-! ## Families -/

theorem lastFamily_eq_some_iff {rest : JsString} {cut : ℕ} :
    lastFamily rest = some cut ↔
      (∃ f ∈ XTHR_FAMILIES, List.lastIndexOf f rest = some cut) ∧
        ∀ f ∈ XTHR_FAMILIES, ∀ i, List.lastIndexOf f rest = some i → i ≤ cut := by
  rw [lastFamily, max?_eq_some_iff, mem_filterMap]
  refine and_congr_right' ⟨fun h f hf i hi => h i (mem_filterMap.2 ⟨f, hf, hi⟩), ?_⟩
  intro h i hi
  obtain ⟨f, hf, hi⟩ := mem_filterMap.1 hi
  exact h f hf i hi

variable {family : JsString}

/-- A family is one segment. -/
theorem eq_cons_of_mem_families (h : family ∈ XTHR_FAMILIES) :
    ∃ word, family = sep :: word ∧ sep ∉ word := by
  have hall : ∀ f ∈ XTHR_FAMILIES, f.head? = some sep ∧ sep ∉ f.tail := by decide
  obtain ⟨hhead, htail⟩ := hall family h
  exact ⟨family.tail, (eq_cons_of_mem_head? hhead), htail⟩

variable {tail : JsString}

/-- A family that is not in what follows another one begins before it, at most. -/
theorem lastIndexOf_family {f threadId : JsString} {i : ℕ} (h : family ∈ XTHR_FAMILIES)
    (hf : f ∈ XTHR_FAMILIES) (htail : ¬f <:+: tail)
    (hi : List.lastIndexOf f (threadId ++ (family ++ tail)) = some i) : i ≤ threadId.length := by
  obtain ⟨word, rfl, hword⟩ := eq_cons_of_mem_families h
  obtain ⟨word', rfl, -⟩ := eq_cons_of_mem_families hf
  exact List.lastIndexOf_le (fun h => htail (List.infix_of_notMem hword h)) hi

/-- The id is read, if the tool is not named as a family is. -/
theorem threadIdOfXthrKey_key (h : family ∈ XTHR_FAMILIES)
    (htail : ∀ f ∈ XTHR_FAMILIES, ¬f <:+: tail) (threadId : JsString) :
    threadIdOfXthrKey (XTHR_PREFIX ++ (threadId ++ (family ++ tail))) = nonempty threadId := by
  have hself : List.lastIndexOf family (threadId ++ (family ++ tail)) = some threadId.length := by
    have hno := htail family h
    obtain ⟨word, rfl, hword⟩ := eq_cons_of_mem_families h
    rw [← append_assoc]
    exact List.lastIndexOf_append threadId fun h => hno (List.infix_of_notMem hword h)
  have hcut : lastFamily (threadId ++ (family ++ tail)) = some threadId.length :=
    lastFamily_eq_some_iff.2 ⟨⟨family, h, hself⟩, fun f hf i hi =>
      lastIndexOf_family h hf (htail f hf) hi⟩
  rw [threadIdOfXthrKey, drop_left]
  rw [hcut, nonempty]
  rcases threadId with _ | ⟨u, s⟩
  · rfl
  · exact congrArg some (@take_left _ (u :: s) _)

/-- If it is, a longer id is read. -/
theorem threadIdOfXthrKey_of_family {f : JsString} (h : family ∈ XTHR_FAMILIES)
    (hf : f ∈ XTHR_FAMILIES) (htail : f <:+: tail) (threadId : JsString) :
    ∃ owner rest, threadIdOfXthrKey (XTHR_PREFIX ++ (threadId ++ (family ++ tail))) = some owner ∧
      threadId ++ (family ++ tail) = owner ++ sep :: rest ∧ owner ≠ threadId := by
  obtain ⟨word, rfl, -⟩ := eq_cons_of_mem_families h
  generalize hrest : threadId ++ (sep :: word ++ tail) = rest
  have hdrop : rest.drop (threadId.length + 1) = word ++ tail := by
    rw [← hrest, ← drop_drop, drop_left]
    rfl
  -- The family is found in the tail, or later.
  obtain ⟨i, hi⟩ := Option.ne_none_iff_exists'.1 fun hnone : List.lastIndexOf f rest = none =>
    List.lastIndexOf_eq_none_iff.1 hnone (htail.trans ⟨threadId ++ sep :: word, [], by
      rw [← hrest]
      simp⟩)
  have hlt : threadId.length < i := by
    by_contra hle
    refine (List.lastIndexOf_eq_some_iff.1 hi).2.2 ?_ (htail.trans ?_)
    · rw [← hrest]
      simp
      omega
    · have hsuffix := drop_suffix (threadId.length - i) (rest.drop (i + 1))
      rw [drop_drop, show i + 1 + (threadId.length - i) = threadId.length + 1 by omega,
        hdrop] at hsuffix
      exact (suffix_append word tail).isInfix.trans hsuffix.isInfix
  obtain ⟨cut, hcut⟩ := Option.ne_none_iff_exists'.1 fun hnone : lastFamily rest = none => by
    rw [lastFamily, max?_eq_none_iff] at hnone
    exact not_mem_nil (hnone ▸ mem_filterMap.2 ⟨f, hf, hi⟩)
  obtain ⟨⟨f', hf', hcut'⟩, hmax⟩ := lastFamily_eq_some_iff.1 hcut
  obtain ⟨hle, hf'', -⟩ := List.lastIndexOf_eq_some_iff.1 hcut'
  have hlt := hlt.trans_le (hmax f hf i hi)
  obtain ⟨word', rfl, -⟩ := eq_cons_of_mem_families hf'
  obtain ⟨s, hs⟩ := hf''
  refine ⟨rest.take cut, word' ++ s, ?_, ?_, fun he => ?_⟩
  · obtain ⟨n, rfl⟩ := Nat.exists_eq_add_of_lt hlt
    rw [threadIdOfXthrKey, drop_left, hcut]
  · rw [← cons_append, hs, take_append_drop]
  · have hlen := congrArg List.length he
    rw [length_take, Nat.min_eq_left hle] at hlen
    omega

end Gnldev.Durable
