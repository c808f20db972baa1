import Gnldev.Lib.JsString
import Mathlib.Data.List.FinRange
import Mathlib.Logic.Function.Basic

/-!
# One model for a run

A run has several models to try (`model-router.ts`). The one that answers first is recorded, and
from then on it is the only one: each instance of the chain looks for the record, and keeps in
memory what it has found, or what has answered it. It keeps the latter before it has recorded it,
and without looking at what was recorded instead.

* `FallbackState.step`: any number of instances on one run, each with any number of calls;
* `one_model`: the record is honoured as long as no two models answer, and no longer.
-/

open List

namespace Gnldev.Durable

open Function

/-- The models to try, by their specs. One alone is called without any of this. -/
structure Candidates where
  specs : List JsString
  nodup : specs.Nodup
  two_le : 2 ≤ specs.length

namespace Candidates

variable (C : Candidates)

abbrev Index := Fin C.specs.length

def spec (i : C.Index) : JsString := C.specs.get i

def all : List C.Index := List.finRange C.specs.length

/-- The first candidate with the spec. -/
def findIndex (spec : JsString) : Option C.Index := C.all.find? fun i => C.spec i = spec

variable {C}

theorem spec_inj {i j : C.Index} (h : C.spec i = C.spec j) : i = j :=
  nodup_iff_injective_get.1 C.nodup h

theorem findIndex_spec (i : C.Index) : C.findIndex (C.spec i) = some i := by
  rcases h : C.findIndex (C.spec i) with _ | j
  · rw [findIndex, find?_eq_none] at h
    simpa using h i (mem_finRange i)
  · have hj := find?_some h
    rw [decide_eq_true_eq] at hj
    rw [spec_inj hj]

end Candidates

variable (C : Candidates)

/-- How far a call is. -/
inductive FallbackPhase where
  /-- The record is being read. -/
  | ordering
  | read (record : Option JsString)
  /-- A candidate has been called; these are left. -/
  | trying (i : C.Index) (rest : List C.Index)
  /-- The candidate has answered, and is being recorded. -/
  | recording (i : C.Index)
  | ended
  deriving DecidableEq

/-- A call of `doGenerate` or `doStream`. -/
structure FallbackCall where
  /-- The instance of the chain. -/
  chain : ℕ
  /-- What was recorded when the call began. -/
  since : Option JsString
  /-- The candidates that it has called. -/
  invoked : List C.Index
  phase : FallbackPhase C

structure FallbackState where
  /-- `<runId>:cfg:model`. -/
  record : Option JsString
  /-- What an instance keeps in memory. -/
  sticky : ℕ → Option C.Index
  /-- The instance has crashed. -/
  down : ℕ → Bool
  calls : List (FallbackCall C)

/-- What happens. -/
inductive FallbackEvent where
  | call (chain : ℕ)
  /-- The record is read for the call. -/
  | read (n : ℕ)
  /-- The call goes on with what was read. -/
  | order (n : ℕ)
  /-- The candidate that was called succeeds, or fails. -/
  | answer (n : ℕ) (succeeds : Bool)
  /-- The record is claimed. -/
  | claim (n : ℕ)
  | crash (chain : ℕ)

variable {C}

/-- Call the first of these candidates. -/
def FallbackCall.attempt (c : FallbackCall C) : List C.Index → FallbackCall C
  | [] => { c with phase := .ended }
  | i :: rest => { c with invoked := c.invoked ++ [i], phase := .trying i rest }

namespace FallbackState

def init : FallbackState C := ⟨none, fun _ => none, fun _ => false, []⟩

/-- A call goes on, if its instance has not crashed. -/
def onCall (s : FallbackState C) (n : ℕ)
    (f : FallbackCall C → Option (FallbackState C × FallbackCall C)) : Option (FallbackState C) :=
  match s.calls[n]? with
  | none => none
  | some c =>
    if s.down c.chain then none
    else (f c).map fun (s', c') => { s' with calls := s.calls.set n c' }

/-- The instance keeps the candidate. -/
def keep (s : FallbackState C) (chain : ℕ) (i : C.Index) : FallbackState C :=
  { s with sticky := update s.sticky chain (some i) }

@[simp] theorem keep_sticky (s : FallbackState C) (chain k : ℕ) (i : C.Index) :
    (s.keep chain i).sticky k = if k = chain then some i else s.sticky k := update_apply ..

/-- What an event does, if it can happen. -/
def step (s : FallbackState C) : FallbackEvent → Option (FallbackState C)
  | .call chain =>
    if s.down chain then none
    else
      let c : FallbackCall C := ⟨chain, s.record, [], .ordering⟩
      some { s with calls := s.calls ++ [match s.sticky chain with
        | some i => c.attempt [i]
        | none => c] }
  | .read n => s.onCall n fun c => match c.phase with
    | .ordering => some (s, { c with phase := .read s.record })
    | _ => none
  | .order n => s.onCall n fun c => match c.phase with
    | .read record => some (match record.bind C.findIndex with
      | some i => (s.keep c.chain i, c.attempt [i])
      | none => (s, c.attempt C.all))
    | _ => none
  | .answer n succeeds => s.onCall n fun c => match c.phase with
    | .trying i rest =>
      some (if succeeds then
        if s.sticky c.chain = some i then (s, { c with phase := .ended })
        else (s.keep c.chain i, { c with phase := .recording i })
      else (s, c.attempt rest))
    | _ => none
  | .claim n => s.onCall n fun c => match c.phase with
    | .recording i =>
      some ({ s with record := s.record.or (some (C.spec i)) }, { c with phase := .ended })
    | _ => none
  | .crash chain => some { s with down := update s.down chain true }

def run (s : FallbackState C) : List FallbackEvent → Option (FallbackState C)
  | [] => some s
  | e :: events => (s.step e).bind (·.run events)

/-- A call that began after the model had been recorded has called no other. -/
def Honoured (s : FallbackState C) : Prop :=
  ∀ c ∈ s.calls, ∀ spec, c.since = some spec → ∀ i ∈ c.invoked, C.spec i = spec

/-- A candidate that answers, if it is not the one that the instance keeps, is not another one than
    was recorded, and no instance that is up keeps another one. -/
def Agrees (s : FallbackState C) : FallbackEvent → Prop
  | .answer n true => ∀ c, s.calls[n]? = some c → ∀ i rest, c.phase = .trying i rest →
    s.sticky c.chain ≠ some i →
      (∀ spec, s.record = some spec → spec = C.spec i) ∧
        ∀ chain, s.down chain = false → ∀ j, s.sticky chain = some j → j = i
  | _ => True

/-! ## Steps -/

variable {s t : FallbackState C} {n : ℕ}
  {f : FallbackCall C → Option (FallbackState C × FallbackCall C)}

theorem onCall_eq_some (h : s.onCall n f = some t) : ∃ c s' c', s.calls[n]? = some c ∧
    s.down c.chain = false ∧ f c = some (s', c') ∧ t = { s' with calls := s.calls.set n c' } := by
  rw [onCall] at h
  split at h
  · contradiction
  · next c hc =>
    split at h
    · contradiction
    · next hup =>
      obtain ⟨⟨s', c'⟩, hf, rfl⟩ := Option.map_eq_some_iff.1 h
      exact ⟨c, s', c', hc, Bool.not_eq_true _ ▸ hup, hf, rfl⟩

/-- The call becomes another one. -/
def become (s : FallbackState C) (n : ℕ) (c : FallbackCall C) : FallbackState C :=
  { s with calls := s.calls.set n c }

/-- The call is one of an instance that is up. -/
structure Goes (s : FallbackState C) (n : ℕ) (c : FallbackCall C) : Prop where
  called : s.calls[n]? = some c
  up : s.down c.chain = false

/-- What an event can do. -/
inductive Next (s : FallbackState C) : FallbackEvent → FallbackState C → Prop
  | kept {chain i} : s.down chain = false → s.sticky chain = some i →
      Next s (.call chain) { s with calls := s.calls ++ [⟨chain, s.record, [i], .trying i []⟩] }
  | fresh {chain} : s.down chain = false → s.sticky chain = none →
      Next s (.call chain) { s with calls := s.calls ++ [⟨chain, s.record, [], .ordering⟩] }
  | read {n c} : s.Goes n c → c.phase = .ordering →
      Next s (.read n) (s.become n { c with phase := .read s.record })
  | found {n c record i} : s.Goes n c → c.phase = .read record → record.bind C.findIndex = some i →
      Next s (.order n) ((s.keep c.chain i).become n (c.attempt [i]))
  | unfound {n c record} : s.Goes n c → c.phase = .read record → record.bind C.findIndex = none →
      Next s (.order n) (s.become n (c.attempt C.all))
  | again {n c i rest} : s.Goes n c → c.phase = .trying i rest → s.sticky c.chain = some i →
      Next s (.answer n true) (s.become n { c with phase := .ended })
  | first {n c i rest} : s.Goes n c → c.phase = .trying i rest → s.sticky c.chain ≠ some i →
      Next s (.answer n true) ((s.keep c.chain i).become n { c with phase := .recording i })
  | failed {n c i rest} : s.Goes n c → c.phase = .trying i rest →
      Next s (.answer n false) (s.become n (c.attempt rest))
  | claim {n c i} : s.Goes n c → c.phase = .recording i →
      Next s (.claim n) { s.become n { c with phase := .ended } with
        record := s.record.or (some (C.spec i)) }
  | crash {chain} : Next s (.crash chain) { s with down := update s.down chain true }

variable {e : FallbackEvent}

theorem step_next (h : s.step e = some t) : s.Next e t := by
  cases e with
  | call chain =>
    rw [step] at h
    split at h
    · contradiction
    · next hup =>
      rw [Bool.not_eq_true] at hup
      obtain rfl := Option.some.inj h
      split
      · next i hi => exact .kept hup hi
      · next hno => exact .fresh hup hno
  | crash chain =>
    obtain rfl := Option.some.inj h
    exact .crash
  | read n =>
    obtain ⟨c, s', c', hc, hup, hf, rfl⟩ := onCall_eq_some h
    split at hf
    · next hphase =>
      obtain ⟨rfl, rfl⟩ := Prod.mk.inj (Option.some.inj hf)
      exact .read ⟨hc, hup⟩ hphase
    · contradiction
  | order n =>
    obtain ⟨c, s', c', hc, hup, hf, rfl⟩ := onCall_eq_some h
    split at hf
    · next record hphase =>
      split at hf
      · next i hi =>
        obtain ⟨rfl, rfl⟩ := Prod.mk.inj (Option.some.inj hf)
        exact .found ⟨hc, hup⟩ hphase hi
      · next hno =>
        obtain ⟨rfl, rfl⟩ := Prod.mk.inj (Option.some.inj hf)
        exact .unfound ⟨hc, hup⟩ hphase hno
    · contradiction
  | answer n succeeds =>
    obtain ⟨c, s', c', hc, hup, hf, rfl⟩ := onCall_eq_some h
    split at hf
    · next i rest hphase =>
      cases succeeds with
      | false =>
        obtain ⟨rfl, rfl⟩ := Prod.mk.inj (Option.some.inj hf)
        exact .failed ⟨hc, hup⟩ hphase
      | true =>
        rw [if_pos rfl] at hf
        split at hf
        · next hsticky =>
          obtain ⟨rfl, rfl⟩ := Prod.mk.inj (Option.some.inj hf)
          exact .again ⟨hc, hup⟩ hphase hsticky
        · next hsticky =>
          obtain ⟨rfl, rfl⟩ := Prod.mk.inj (Option.some.inj hf)
          exact .first ⟨hc, hup⟩ hphase hsticky
    · contradiction
  | claim n =>
    obtain ⟨c, s', c', hc, hup, hf, rfl⟩ := onCall_eq_some h
    split at hf
    · next i hphase =>
      obtain ⟨rfl, rfl⟩ := Prod.mk.inj (Option.some.inj hf)
      exact .claim ⟨hc, hup⟩ hphase
    · contradiction

/-- The record never changes. -/
theorem record_step (h : s.step e = some t) {spec : JsString} (hrecord : s.record = some spec) :
    t.record = some spec := by
  cases step_next h with
  | claim =>
    change s.record.or _ = _
    rw [hrecord]
    rfl
  | _ => exact hrecord

variable {events : List FallbackEvent}

theorem record_run (h : s.run events = some t) {spec : JsString} (hrecord : s.record = some spec) :
    t.record = some spec := by
  induction events generalizing s with
  | nil =>
    obtain rfl := Option.some.inj h
    exact hrecord
  | cons e events ih =>
    obtain ⟨s', hstep, hrest⟩ := Option.bind_eq_some_iff.1 h
    exact ih hrest (record_step hstep hrecord)

/-! ## Agreement -/

/-- What is known of a call. -/
structure CallInv (s : FallbackState C) (c : FallbackCall C) : Prop where
  honoured : ∀ spec, c.since = some spec → ∀ i ∈ c.invoked, C.spec i = spec
  since : ∀ spec, c.since = some spec → s.record = some spec
  read : ∀ record, c.phase = .read record →
    (∀ spec, record = some spec → s.record = some spec) ∧
      ∀ spec, c.since = some spec → record = some spec
  trying : ∀ i rest, c.phase = .trying i rest → ∀ spec, c.since = some spec → rest = []
  recording : ∀ i, c.phase = .recording i → s.down c.chain = false → s.sticky c.chain = some i

/-- All that is recorded or kept is one candidate. -/
structure FallbackInv (s : FallbackState C) : Prop where
  agree : ∀ k k' i j, s.down k = false → s.down k' = false → s.sticky k = some i →
    s.sticky k' = some j → i = j
  recorded : ∀ k i spec, s.down k = false → s.sticky k = some i → s.record = some spec →
    C.spec i = spec
  named : ∀ spec, s.record = some spec → ∃ i, C.spec i = spec
  calls : ∀ c ∈ s.calls, s.CallInv c

variable {c : FallbackCall C}

/-- What is known of a call is still known, when the record stands, and its instance keeps what it
    has kept, if it is up. -/
theorem CallInv.mono (h : s.CallInv c)
    (hrecord : ∀ spec, s.record = some spec → t.record = some spec)
    (hup : t.down c.chain = false → s.down c.chain = false)
    (hsticky : ∀ i, s.down c.chain = false → s.sticky c.chain = some i → t.sticky c.chain = some i) :
    t.CallInv c where
  honoured := h.honoured
  since spec hspec := hrecord spec (h.since spec hspec)
  read record hphase :=
    ⟨fun spec hspec => hrecord spec ((h.read record hphase).1 spec hspec), (h.read record hphase).2⟩
  trying := h.trying
  recording i hphase hdown := hsticky i (hup hdown) (h.recording i hphase (hup hdown))

/-- A call that is over. -/
theorem CallInv.ended (h : t.CallInv c) :
    t.CallInv { c with phase := .ended } where
  honoured := h.honoured
  since := h.since
  read := nofun
  trying := nofun
  recording := nofun

/-- A call that began before anything was recorded. -/
theorem callInv_attempt (h : c.since = none) (is : List C.Index) :
    t.CallInv (c.attempt is) := by
  have hsince (spec : JsString) : (c.attempt is).since ≠ some spec := by
    cases is <;> simp [FallbackCall.attempt, h]
  refine ⟨fun spec hspec => absurd hspec (hsince spec), fun spec hspec => absurd hspec (hsince spec),
    fun record hphase => ?_, fun i rest _ spec hspec => absurd hspec (hsince spec),
    fun i hphase => ?_⟩
  · cases is <;> exact nomatch hphase
  · cases is <;> exact nomatch hphase

theorem forall_set {P : FallbackCall C → Prop} {calls : List (FallbackCall C)}
    (h : ∀ d ∈ calls, P d) (hc : P c) : ∀ d ∈ calls.set n c, P d := by
  intro d hd
  rcases mem_or_eq_of_mem_set hd with hd | rfl
  · exact h d hd
  · exact hc

/-- An instance keeps what all the others keep, and what is recorded. -/
theorem FallbackInv.keep (h : s.FallbackInv) {chain : ℕ} {i : C.Index}
    (hagree : ∀ k, s.down k = false → ∀ j, s.sticky k = some j → j = i)
    (hrecorded : ∀ spec, s.record = some spec → C.spec i = spec) :
    (s.keep chain i).FallbackInv := by
  have hone (k j) (hup : s.down k = false) (hj : (s.keep chain i).sticky k = some j) : j = i := by
    rw [keep_sticky] at hj
    split at hj
    · exact (Option.some.inj hj).symm
    · exact hagree k hup j hj
  refine ⟨fun k k' j j' hup hup' hj hj' => (hone k j hup hj).trans (hone k' j' hup' hj').symm,
    fun k j spec hup hj hspec => hone k j hup hj ▸ hrecorded spec hspec, h.named, fun c hc => ?_⟩
  refine (h.calls c hc).mono (fun _ => id) id fun j hup hj => ?_
  rw [keep_sticky]
  split
  · rw [hagree _ hup j hj]
  · exact hj

theorem FallbackInv.become (h : s.FallbackInv) (hc : s.CallInv c) :
    (s.become n c).FallbackInv :=
  ⟨h.agree, h.recorded, h.named, forall_set (fun d hd => (h.calls d hd).mono (fun _ => id) id
    fun _ _ => id) (hc.mono (fun _ => id) id fun _ _ => id)⟩

theorem Goes.inv (hgoes : s.Goes n c) (h : s.FallbackInv) : s.CallInv c :=
  h.calls c (mem_of_getElem? hgoes.called)

theorem FallbackInv.begin (h : s.FallbackInv) (hc : s.CallInv c) :
    FallbackInv { s with calls := s.calls ++ [c] } := by
  refine ⟨h.agree, h.recorded, h.named, forall_mem_append.2 ⟨fun d hd => ?_,
    forall_mem_singleton.2 ?_⟩⟩
  · exact (h.calls d hd).mono (fun _ => id) id fun _ _ => id
  · exact hc.mono (fun _ => id) id fun _ _ => id

/-- What was read is the spec of the candidate that is found. -/
theorem FallbackInv.found (h : s.FallbackInv) {record : Option JsString} (hc : s.CallInv c)
    (hphase : c.phase = .read record) {i : C.Index} (hi : record.bind C.findIndex = some i) :
    s.record = some (C.spec i) := by
  obtain ⟨spec, rfl, hfind⟩ := Option.bind_eq_some_iff.1 hi
  have hrecord := (hc.read _ hphase).1 spec rfl
  obtain ⟨j, rfl⟩ := h.named spec hrecord
  rw [Candidates.findIndex_spec] at hfind
  rw [← Option.some.inj hfind, hrecord]

theorem FallbackInv.step (h : s.FallbackInv) (hagrees : s.Agrees e) (hstep : s.step e = some t) :
    t.FallbackInv := by
  cases step_next hstep with
  | @kept chain i hup hi =>
    refine h.begin ⟨fun spec hspec j hj => ?_, fun _ => id, nofun, ?_, nofun⟩
    · rw [mem_singleton.1 hj]
      exact h.recorded chain i spec hup hi hspec
    · rintro _ _ ⟨⟩ _ _
      rfl
  | fresh => exact h.begin ⟨nofun, fun _ => id, nofun, nofun, nofun⟩
  | read hgoes hphase =>
    have hc := hgoes.inv h
    refine h.become ⟨hc.honoured, hc.since, ?_, nofun, nofun⟩
    rintro _ ⟨⟩
    exact ⟨fun _ => id, hc.since⟩
  | @found n c record i hgoes hphase hi =>
    have hc := hgoes.inv h
    have hrecord := h.found hc hphase hi
    have hrecorded (spec : JsString) (hspec : s.record = some spec) : C.spec i = spec :=
      Option.some.inj (hrecord.symm.trans hspec)
    have hkeep : (s.keep c.chain i).FallbackInv := h.keep
      (fun k hup j hj => Candidates.spec_inj (h.recorded k j _ hup hj hrecord)) hrecorded
    refine hkeep.become ⟨fun spec hspec j hj => ?_, hc.since, nofun, ?_, nofun⟩
    · rcases mem_append.1 hj with hj | hj
      · exact hc.honoured spec hspec j hj
      · rw [mem_singleton.1 hj]
        exact hrecorded spec (hc.since spec hspec)
    · rintro _ _ ⟨⟩ _ _
      rfl
  | @unfound n c record hgoes hphase hno =>
    have hc := hgoes.inv h
    refine h.become (callInv_attempt ?_ _)
    by_contra hsome
    obtain ⟨spec, hspec⟩ := Option.ne_none_iff_exists'.1 hsome
    obtain ⟨i, rfl⟩ := h.named spec (hc.since spec hspec)
    rw [(hc.read record hphase).2 _ hspec, Option.bind_some, Candidates.findIndex_spec] at hno
    contradiction
  | again hgoes => exact h.become (hgoes.inv h).ended
  | @first n c i rest hgoes hphase hsticky =>
    have hc := hgoes.inv h
    obtain ⟨hrecorded, hagree⟩ := hagrees c hgoes.called i rest hphase hsticky
    have hkeep : (s.keep c.chain i).FallbackInv :=
      h.keep hagree fun spec hspec => (hrecorded spec hspec).symm
    refine hkeep.become ⟨hc.honoured, hc.since, nofun, nofun, ?_⟩
    rintro _ ⟨⟩ _
    exact update_self ..
  | @failed n c i rest hgoes hphase =>
    have hc := hgoes.inv h
    rcases hsince : c.since with _ | spec
    · exact h.become (callInv_attempt hsince rest)
    · rw [hc.trying i rest hphase spec hsince]
      exact h.become hc.ended
  | @claim n c i hgoes hphase =>
    have hc := hgoes.inv h
    have hsticky := hc.recording i hphase hgoes.up
    rcases hnone : s.record with _ | spec
    · have hspec (spec : JsString) : s.record ≠ some spec := by simp [hnone]
      refine ⟨h.agree, ?_, ?_, ?_⟩
      · rintro k j spec hup hj ⟨⟩
        rw [h.agree k c.chain j i hup hgoes.up hj hsticky]
      · rintro spec ⟨⟩
        exact ⟨i, rfl⟩
      · refine forall_set (fun d hd => (h.calls d hd).mono (fun spec hs => absurd hs (hspec spec)) id
          fun _ _ => id) ?_
        exact hc.ended.mono (fun spec hs => absurd hs (hspec spec)) id fun _ _ => id
    · change FallbackInv { s.become n { c with phase := .ended } with record := some spec }
      rw [← hnone]
      exact h.become hc.ended
  | @crash chain =>
    have hup (k : ℕ) (hk : update s.down chain true k = false) : s.down k = false := by
      rw [update_apply] at hk
      split at hk
      · contradiction
      · exact hk
    exact ⟨fun k k' i j hk hk' => h.agree k k' i j (hup k hk) (hup k' hk'),
      fun k i spec hk => h.recorded k i spec (hup k hk), h.named,
      fun c hc => (h.calls c hc).mono (fun _ => id) (hup _) fun _ _ => id⟩

/-- Every step of the run agrees. -/
def AllAgree (s : FallbackState C) : List FallbackEvent → Prop
  | [] => True
  | e :: events => s.Agrees e ∧ ∀ s', s.step e = some s' → s'.AllAgree events

theorem AllAgree.cons (h : s.Agrees e) (hstep : s.step e = some t) (ht : t.AllAgree events) :
    s.AllAgree (e :: events) := by
  refine ⟨h, fun s' hs' => ?_⟩
  obtain rfl := Option.some.inj (hstep.symm.trans hs')
  exact ht

theorem fallbackInv_init : (init : FallbackState C).FallbackInv :=
  ⟨nofun, nofun, nofun, nofun⟩

theorem FallbackInv.run (h : s.FallbackInv) (hagree : s.AllAgree events)
    (hrun : s.run events = some t) : t.FallbackInv := by
  induction events generalizing s with
  | nil =>
    obtain rfl := Option.some.inj hrun
    exact h
  | cons e events ih =>
    obtain ⟨s', hstep, hrest⟩ := Option.bind_eq_some_iff.1 hrun
    exact ih (h.step hagree.1 hstep) (hagree.2 s' hstep) hrest

theorem FallbackInv.toHonoured (h : s.FallbackInv) : s.Honoured :=
  fun c hc => (h.calls c hc).honoured

end FallbackState

/-! ## What a run promises -/

open FallbackState

/-- Whatever the instances do, what is recorded stays. As long as each candidate that answers is the
    one that is recorded and that the others keep, the calls that begin after the record call it
    alone. -/
theorem one_model (C : Candidates) (events : List FallbackEvent) (s : FallbackState C)
    (hrun : FallbackState.init.run events = some s) :
    (∀ later t spec, s.run later = some t → s.record = some spec → t.record = some spec) ∧
      (FallbackState.init.AllAgree (C := C) events → s.Honoured) :=
  ⟨fun _ _ _ hlater hrecord => record_run hlater hrecord,
    fun hagree => (fallbackInv_init.run hagree hrun).toHonoured⟩

/-- Two candidates. -/
def twoCandidates : Candidates := ⟨[[97], [98]], by decide, by decide⟩

def second : twoCandidates.Index := ⟨1, by decide⟩

/-- The first candidate fails and the second answers; another instance then calls the second alone. -/
def failover : List FallbackEvent :=
  [.call 0, .read 0, .order 0, .answer 0 false, .answer 0 true, .claim 0, .call 1, .read 1, .order 1]

theorem one_model_failover : ∃ s : FallbackState twoCandidates,
    FallbackState.init.run failover = some s ∧ s.record = some [98] ∧ s.Honoured := by
  refine ⟨_, rfl, rfl, (one_model twoCandidates failover _ rfl).2 ?_⟩
  have hnone (j : twoCandidates.Index) (h : none = some j) : j = second := nomatch h
  refine .cons trivial rfl <| .cons trivial rfl <| .cons trivial rfl <| .cons trivial rfl <|
    .cons ?_ rfl <| .cons trivial rfl <| .cons trivial rfl <| .cons trivial rfl <|
    .cons trivial rfl trivial
  rintro _ ⟨⟩ _ _ ⟨⟩ _
  exact ⟨nofun, fun _ _ j => hnone j⟩

/-- Two instances begin before anything is recorded. The first model answers the one and fails the
    other, which keeps the second model, and calls it again after the first has been recorded. -/
def divided : List FallbackEvent :=
  [.call 0, .call 1, .read 0, .read 1, .order 0, .order 1, .answer 0 true, .claim 0,
    .answer 1 false, .answer 1 true, .claim 1, .call 1]

theorem divided_not_honoured : ∃ s : FallbackState twoCandidates,
    FallbackState.init.run divided = some s ∧ s.record = some [97] ∧ ¬s.Honoured := by
  refine ⟨_, rfl, rfl, fun h => ?_⟩
  have hagain := h ⟨1, some [97], [second], .trying second []⟩
    (List.mem_of_getElem? (i := 2) rfl) [97] rfl second (List.mem_singleton_self _)
  exact absurd hagain (by decide)

end Gnldev.Durable
