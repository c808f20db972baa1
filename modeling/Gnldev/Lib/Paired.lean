import Mathlib.Data.List.Nodup
import Mathlib.Data.Set.Basic

/-!
# Calls and their results

Items in a row make calls and bring results, both by name. The row is *paired* (`Paired`) if no name
is called twice and none has two results, every call has its result in a later item, and every
result its call in an earlier one.

The last two are checked along the row, with what is known before it (`Called`) and with what is
still to come after it (`Answered`); so both go through an append.
-/

open List

namespace Gnldev

variable {α β ι : Type} {calls results : α → List ι} {known known' later later' : Set ι}
  {l l' : List α}

/-- The names called in a row. -/
abbrev namesOf (calls : α → List ι) (l : List α) : List ι := l.flatMap calls

/-- Every result is of a call that is known, or that an earlier item makes. -/
def Called (calls results : α → List ι) : Set ι → List α → Prop
  | _, [] => True
  | known, m :: l =>
    (∀ id ∈ results m, id ∈ known) ∧ Called calls results {id | id ∈ known ∨ id ∈ calls m} l

/-- Every call has its result in a later item, or it is still to come. -/
def Answered (calls results : α → List ι) (later : Set ι) : List α → Prop
  | [] => True
  | m :: l => (∀ id ∈ calls m, id ∈ namesOf results l ∨ id ∈ later) ∧ Answered calls results later l

/-- No name is called twice or has two results, every call is answered later, and every result has its
    call before it. -/
structure Paired (calls results : α → List ι) (l : List α) : Prop where
  calls_once : (namesOf calls l).Nodup
  results_once : (namesOf results l).Nodup
  answered : Answered calls results ∅ l
  called : Called calls results ∅ l

/-! ## What is known before -/

theorem Called.mono (h : Called calls results known l) (hle : known ⊆ known') :
    Called calls results known' l := by
  induction l generalizing known known' with
  | nil => trivial
  | cons m l ih =>
    refine ⟨fun id hid => hle (h.1 id hid), ih h.2 ?_⟩
    rintro id (hid | hid)
    · exact .inl (hle hid)
    · exact .inr hid

theorem called_append : Called calls results known (l ++ l') ↔ Called calls results known l ∧
    Called calls results {id | id ∈ known ∨ id ∈ namesOf calls l} l' := by
  induction l generalizing known with
  | nil => simp [Called]
  | cons m l ih =>
    simp only [cons_append, Called, ih, and_assoc, Set.mem_ofPred_eq, or_assoc,
      flatMap_cons, mem_append]

/-- The results of a row are of calls before it or in it. -/
theorem Called.subset (h : Called calls results known l) {id : ι} (hid : id ∈ namesOf results l) :
    id ∈ known ∨ id ∈ namesOf calls l := by
  induction l generalizing known with
  | nil => exact absurd hid not_mem_nil
  | cons m l ih =>
    rcases mem_append.1 hid with hid | hid
    · exact .inl (h.1 id hid)
    · rcases ih h.2 hid with (hknown | hm) | hl
      · exact .inl hknown
      · exact .inr (mem_append_left _ hm)
      · exact .inr (mem_append_right _ hl)

theorem called_of_known (h : ∀ id ∈ namesOf results l, id ∈ known) :
    Called calls results known l := by
  induction l generalizing known with
  | nil => trivial
  | cons m l ih =>
    refine ⟨fun id hid => h id (mem_append_left _ hid), ih fun id hid => ?_⟩
    exact .inl (h id (mem_append_right _ hid))

/-! ## What is still to come -/

theorem Answered.mono (h : Answered calls results later l) (hle : later ⊆ later') :
    Answered calls results later' l := by
  induction l with
  | nil => trivial
  | cons m l ih => exact ⟨fun id hid => (h.1 id hid).imp_right (hle ·), ih h.2⟩

theorem answered_append : Answered calls results later (l ++ l') ↔
    Answered calls results {id | id ∈ namesOf results l' ∨ id ∈ later} l ∧
      Answered calls results later l' := by
  induction l with
  | nil => simp [Answered]
  | cons m l ih =>
    simp only [cons_append, Answered, ih, and_assoc, Set.mem_ofPred_eq, or_assoc,
      flatMap_append, mem_append]

theorem answered_of_no_calls (h : ∀ m ∈ l, calls m = []) : Answered calls results later l := by
  induction l with
  | nil => trivial
  | cons m l ih =>
    refine ⟨?_, ih fun m hm => h m (.tail _ hm)⟩
    rw [h m (.head _)]
    exact nofun

/-- Rows that are answered each for itself. -/
theorem answered_flatMap {f : β → List α} {ls : List β}
    (h : ∀ b ∈ ls, Answered calls results later (f b)) :
    Answered calls results later (ls.flatMap f) := by
  induction ls with
  | nil => trivial
  | cons b ls ih =>
    rw [flatMap_cons, answered_append]
    refine ⟨(h b (.head _)).mono fun _ => .inr, ih fun b hb => h b (.tail _ hb)⟩

/-! ## Maps -/

theorem called_map {f : β → α} {l : List β} :
    Called calls results known (l.map f) ↔ Called (calls ∘ f) (results ∘ f) known l := by
  induction l generalizing known with
  | nil => rfl
  | cons m l ih => simp only [map_cons, Called, ih, Function.comp_apply]

theorem answered_map {f : β → α} {l : List β} :
    Answered calls results later (l.map f) ↔ Answered (calls ∘ f) (results ∘ f) later l := by
  induction l with
  | nil => rfl
  | cons m l ih =>
    simp only [map_cons, Answered, ih, Function.comp_apply, namesOf, flatMap_map]
    rfl

theorem paired_map {f : β → α} {l : List β} :
    Paired calls results (l.map f) ↔ Paired (calls ∘ f) (results ∘ f) l := by
  have hcalls : namesOf calls (l.map f) = namesOf (calls ∘ f) l := flatMap_map ..
  have hresults : namesOf results (l.map f) = namesOf (results ∘ f) l := flatMap_map ..
  refine ⟨fun h => ⟨?_, ?_, answered_map.1 h.answered, called_map.1 h.called⟩,
    fun h => ⟨?_, ?_, answered_map.2 h.answered, called_map.2 h.called⟩⟩
  · exact hcalls ▸ h.calls_once
  · exact hresults ▸ h.results_once
  · exact hcalls ▸ h.calls_once
  · exact hresults ▸ h.results_once

/-! ## Parts of a row -/

section Filter

variable {p : α → Bool}

/-- A part of a row is called as the row is, in which the other items have no names. -/
theorem called_filter : Called calls results known (l.filter p) ↔
    Called (fun m => if p m then calls m else []) (fun m => if p m then results m else [])
      known l := by
  induction l generalizing known with
  | nil => rfl
  | cons m l ih =>
    by_cases hm : p m
    · simp only [filter_cons, hm, if_true, Called, ih]
    · simp [hm, Called, ih]

theorem answered_filter : Answered calls results later (l.filter p) ↔
    Answered (fun m => if p m then calls m else []) (fun m => if p m then results m else [])
      later l := by
  have hnames (l : List α) : namesOf results (l.filter p) =
      namesOf (fun m => if p m then results m else []) l := by
    induction l with
    | nil => rfl
    | cons m l ih =>
      by_cases hm : p m
      · simp [namesOf, hm, ← ih]
      · simpa [namesOf, hm] using ih
  induction l with
  | nil => rfl
  | cons m l ih =>
    by_cases hm : p m
    · simp only [filter_cons, hm, if_true, Answered, ih, hnames]
    · simp [hm, Answered, ih]

end Filter

/-! ## By position -/

/-- The calls of the results stand before them. -/
theorem called_iff_getElem : Called calls results known l ↔
    ∀ (j : Nat) m, l[j]? = some m → ∀ id ∈ results m,
      id ∈ known ∨ ∃ i < j, ∃ m', l[i]? = some m' ∧ id ∈ calls m' := by
  induction l generalizing known with
  | nil => simp [Called]
  | cons m l ih =>
    rw [Called, ih]
    constructor
    · intro ⟨hm, hl⟩ j m' hj id hid
      match j with
      | 0 =>
        obtain rfl := Option.some.inj hj
        exact .inl (hm id hid)
      | j + 1 =>
        obtain (hknown | hcalls) | ⟨i, hi, m'', hm'', hid'⟩ := hl j m' hj id hid
        · exact .inl hknown
        · exact .inr ⟨0, Nat.succ_pos j, m, rfl, hcalls⟩
        · exact .inr ⟨i + 1, Nat.succ_lt_succ hi, m'', hm'', hid'⟩
    · intro h
      refine ⟨fun id hid => (h 0 m rfl id hid).resolve_right (by simp), fun j m' hj id hid => ?_⟩
      obtain hknown | ⟨i, hi, m'', hm'', hid'⟩ := h (j + 1) m' hj id hid
      · exact .inl (.inl hknown)
      · match i with
        | 0 =>
          obtain rfl := Option.some.inj hm''
          exact .inl (.inr hid')
        | i + 1 => exact .inr ⟨i, Nat.lt_of_succ_lt_succ hi, m'', hm'', hid'⟩

/-- The results of the calls stand behind them. -/
theorem answered_iff_getElem : Answered calls results later l ↔
    ∀ (i : Nat) m, l[i]? = some m → ∀ id ∈ calls m,
      id ∈ later ∨ ∃ j > i, ∃ m', l[j]? = some m' ∧ id ∈ results m' := by
  induction l with
  | nil => simp [Answered]
  | cons m l ih =>
    rw [Answered, ih]
    constructor
    · intro ⟨hm, hl⟩ i m' hi id hid
      match i with
      | 0 =>
        obtain rfl := Option.some.inj hi
        obtain hnames | hlater := hm id hid
        · obtain ⟨m', hm', hid'⟩ := mem_flatMap.1 hnames
          obtain ⟨j, hj⟩ := mem_iff_getElem?.1 hm'
          exact .inr ⟨j + 1, Nat.succ_pos j, m', hj, hid'⟩
        · exact .inl hlater
      | i + 1 =>
        refine (hl i m' hi id hid).imp_right ?_
        intro ⟨j, hj, m'', hm'', hid'⟩
        exact ⟨j + 1, Nat.succ_lt_succ hj, m'', hm'', hid'⟩
    · intro h
      refine ⟨fun id hid => ?_, fun i m' hi id hid => ?_⟩
      · obtain hlater | ⟨j, hj, m', hm', hid'⟩ := h 0 m rfl id hid
        · exact .inr hlater
        · obtain ⟨j, rfl⟩ := Nat.exists_eq_add_of_lt hj
          rw [Nat.zero_add] at hm'
          exact .inl (mem_flatMap.2 ⟨m', mem_of_getElem? hm', hid'⟩)
      · refine (h (i + 1) m' hi id hid).imp_right ?_
        intro ⟨j, hj, m'', hm'', hid'⟩
        obtain ⟨j, rfl⟩ := Nat.exists_eq_add_of_lt hj
        refine ⟨i + 1 + j, by omega, m'', ?_, hid'⟩
        simpa using hm''

/-- A part of a row has the calls of its results before them, if these are parts of it, too. -/
theorem called_filter_iff {p : α → Bool} : Called calls results ∅ (l.filter p) ↔
    ∀ (j : Nat) m, l[j]? = some m → p m → ∀ id ∈ results m,
      ∃ i < j, ∃ m', l[i]? = some m' ∧ p m' ∧ id ∈ calls m' := by
  rw [called_filter, called_iff_getElem]
  refine forall_congr' fun j => forall_congr' fun m => forall_congr' fun hm => ?_
  by_cases hp : p m
  · simp only [hp, if_true, forall_const, Set.mem_empty_iff_false, false_or]
    refine forall_congr' fun id => forall_congr' fun hid => exists_congr fun i => ?_
    refine and_congr_right fun _ => exists_congr fun m' => and_congr_right fun _ => ?_
    split
    · next hp' => simp [hp']
    · next hp' => simp [hp']
  · simp [hp]

theorem answered_filter_iff {p : α → Bool} : Answered calls results ∅ (l.filter p) ↔
    ∀ (i : Nat) m, l[i]? = some m → p m → ∀ id ∈ calls m,
      ∃ j > i, ∃ m', l[j]? = some m' ∧ p m' ∧ id ∈ results m' := by
  rw [answered_filter, answered_iff_getElem]
  refine forall_congr' fun i => forall_congr' fun m => forall_congr' fun hm => ?_
  by_cases hp : p m
  · simp only [hp, if_true, forall_const, Set.mem_empty_iff_false, false_or]
    refine forall_congr' fun id => forall_congr' fun hid => exists_congr fun j => ?_
    refine and_congr_right fun _ => exists_congr fun m' => and_congr_right fun _ => ?_
    split
    · next hp' => simp [hp']
    · next hp' => simp [hp']
  · simp [hp]

/-! ## Appends -/

theorem names_append (f : α → List ι) : namesOf f (l ++ l') = namesOf f l ++ namesOf f l' :=
  flatMap_append

theorem names_cons (f : α → List ι) (m : α) :
    namesOf f (l ++ m :: l') = namesOf f l ++ (f m ++ namesOf f l') := by
  simp [namesOf]

theorem mem_names_concat {f : α → List ι} {m : α} {id : ι} :
    id ∈ namesOf f (l ++ [m]) ↔ id ∈ namesOf f l ∨ id ∈ f m := by
  simp [namesOf]

theorem mem_names_cons {f : α → List ι} {m : α} {id : ι} :
    id ∈ namesOf f (l ++ m :: l') ↔ id ∈ namesOf f l ∨ id ∈ f m ∨ id ∈ namesOf f l' := by
  rw [names_cons, mem_append, mem_append]

/-- A row before another one: the names are apart, and what the first calls may be answered by the
    second, which may answer what the first calls. -/
theorem paired_append_iff : Paired calls results (l ++ l') ↔
    (namesOf calls l ++ namesOf calls l').Nodup ∧ (namesOf results l ++ namesOf results l').Nodup ∧
      Answered calls results {id | id ∈ namesOf results l'} l ∧ Answered calls results ∅ l' ∧
        Called calls results ∅ l ∧ Called calls results {id | id ∈ namesOf calls l} l' := by
  have hlater : {id | id ∈ namesOf results l' ∨ id ∈ (∅ : Set ι)} =
      {id | id ∈ namesOf results l'} := by simp
  have hknown : {id | id ∈ (∅ : Set ι) ∨ id ∈ namesOf calls l} = {id | id ∈ namesOf calls l} := by
    simp
  constructor
  · rintro ⟨hcalls, hresults, hanswered, hcalled⟩
    rw [answered_append, hlater] at hanswered
    rw [called_append, hknown] at hcalled
    rw [names_append] at hcalls hresults
    exact ⟨hcalls, hresults, hanswered.1, hanswered.2, hcalled⟩
  · rintro ⟨hcalls, hresults, hbefore, hafter, hcalled⟩
    refine ⟨?_, ?_, ?_, ?_⟩
    · rwa [names_append]
    · rwa [names_append]
    · rw [answered_append, hlater]
      exact ⟨hbefore, hafter⟩
    · rw [called_append, hknown]
      exact hcalled

end Gnldev
