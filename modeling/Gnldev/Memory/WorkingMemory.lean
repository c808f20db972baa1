import Gnldev.Memory.DeepMerge
import Mathlib.Data.Nat.Find
import Mathlib.Logic.Function.Basic

/-!
# Updates of the working memory

An update (`agent-memory.ts`) reads the memory of a scope, merges its patch into it and writes it
back. Calls may come at any time, so each waits for the last one before it on its scope
(`withWmLock`), until the promise of that one settles, whether it failed or not. A scope whose last
call has settled is forgotten, also while others join.

A state is what the store holds and how far every call is, in the order in which they came
(`WmState`). What it holds is the fold of the patches that were written, in this order, no patch is
lost, and there is always a call that can go on (`working_memory_merges`).
-/

open List

namespace Gnldev.Memory

open JsValue Function

/-! ## The calls -/

/-- The scope of a thread, or of a person. -/
def wmKey (resourceScope : Bool) (threadId : JsString) (resourceId : Option JsString) : JsString :=
  match resourceScope, resourceId.filter (· ≠ []) with
  | true, some resourceId => js "resource:" ++ resourceId
  | _, _ => js "thread:" ++ threadId

/-- The memory as it is read. -/
def readWM : Option JsValue → JsValue
  | some (obj fs) => obj fs
  | some (arr elems) => arr elems
  | _ => obj []

/-- How far a call is. -/
inductive WmPhase where
  | waiting
  /-- It has read the memory and merged its patch. -/
  | merged (value : JsValue)
  /-- It is over, with or without a result. -/
  | settled (result : Option JsValue) (written : Bool)

structure WmCall where
  key : JsString
  patch : JsValue
  /-- The call that it waits for. -/
  prior : Option ℕ
  phase : WmPhase

namespace WmCall

def settled (c : WmCall) : Bool :=
  match c.phase with
  | .settled .. => true
  | _ => false

def written (c : WmCall) : Bool :=
  match c.phase with
  | .settled _ written => written
  | _ => false

def result (c : WmCall) : Option JsValue :=
  match c.phase with
  | .settled result _ => result
  | _ => none

end WmCall

structure WmState where
  store : JsString → Option JsValue
  /-- The last call on a scope, while it is remembered. -/
  wmLocks : JsString → Option ℕ
  calls : List WmCall

/-- What happens. -/
inductive WmEvent where
  /-- `applyWorkingMemoryUpdate` is called. -/
  | apply (threadId : JsString) (patch : JsValue) (resourceId : Option JsString)
  /-- The call reads the memory, or fails to. -/
  | read (i : ℕ) (fails : Bool)
  /-- The call writes the memory. If it fails, it may have. -/
  | write (i : ℕ) (fails written : Bool)
  /-- The call that has settled is forgotten, if it is the last. -/
  | forget (i : ℕ)

namespace WmState

/-- The call that is waited for has settled. -/
def isSettled (s : WmState) : Option ℕ → Bool
  | none => true
  | some i => (s.calls[i]?).any WmCall.settled

/-- The call is so far. -/
def goTo (s : WmState) (i : ℕ) (c : WmCall) (phase : WmPhase) : WmState :=
  { s with calls := s.calls.set i { c with phase } }

/-- What an event does, if it can happen. -/
def step (resourceScope : Bool) (s : WmState) : WmEvent → Option WmState
  | .apply threadId patch resourceId =>
    let key := wmKey resourceScope threadId resourceId
    some { s with
      wmLocks := update s.wmLocks key (some s.calls.length)
      calls := s.calls ++ [⟨key, patch, s.wmLocks key, .waiting⟩] }
  | .read i fails =>
    match s.calls[i]? with
    | some ⟨key, patch, prior, .waiting⟩ =>
      if s.isSettled prior then
        let c : WmCall := ⟨key, patch, prior, .waiting⟩
        if fails then some (s.goTo i c (.settled none false))
        else some (s.goTo i c (.merged (deepMerge (readWM (s.store key)) patch)))
      else none
    | _ => none
  | .write i fails written =>
    match s.calls[i]? with
    | some ⟨key, patch, prior, .merged value⟩ =>
      let c : WmCall := ⟨key, patch, prior, .merged value⟩
      if fails && !written then some (s.goTo i c (.settled none false))
      else
        let result := if fails then none else some value
        some { s.goTo i c (.settled result true) with
          store := update s.store key (some value) }
    | _ => none
  | .forget i =>
    match s.calls[i]? with
    | some c =>
      if c.settled then
        if s.wmLocks c.key = some i then
          some { s with wmLocks := update s.wmLocks c.key none }
        else some s
      else none
    | none => none

/-- What a run of events leads to, if all of them can happen. -/
def run (resourceScope : Bool) (s : WmState) (events : List WmEvent) : Option WmState :=
  events.foldlM (step resourceScope) s

/-- Nothing has been called. -/
def init (store : JsString → Option JsValue) : WmState := ⟨store, fun _ => none, []⟩

/-- The memory after the patches that were written. -/
def folded (memory : Option JsValue) (key : JsString) (calls : List WmCall) : Option JsValue :=
  (calls.filter fun c => c.key = key && c.written).foldl
    (fun memory c => some (deepMerge (readWM memory) c.patch)) memory

end WmState

/-! ## What holds in every run -/

/-- All calls on the scope before the `i`th have settled. -/
def DoneBefore (calls : List WmCall) (key : JsString) (i : ℕ) : Prop :=
  ∀ (j : ℕ) (d : WmCall), j < i → calls[j]? = some d → d.key = key → d.settled

/-- No call between the two is on the scope. -/
def NoneBetween (calls : List WmCall) (key : JsString) (m i : ℕ) : Prop :=
  ∀ (j : ℕ) (d : WmCall), m < j → j < i → calls[j]? = some d → d.key ≠ key

/-- The call `m` is on the scope, and the last one on it before the `i`th. -/
structure LastBefore (calls : List WmCall) (key : JsString) (m i : ℕ) : Prop where
  lt : m < i
  there : ∃ d, calls[m]? = some d ∧ d.key = key
  last : NoneBetween calls key m i

/-- Whoever comes next, or came as the `i`th, waits for all calls before. -/
def WaitsFor (calls : List WmCall) (key : JsString) (i : ℕ) : Option ℕ → Prop
  | none => DoneBefore calls key i
  | some m => LastBefore calls key m i

/-- What holds in a run that began with `store`. -/
structure WmInv (store : JsString → Option JsValue) (s : WmState) : Prop where
  locks : ∀ key, WaitsFor s.calls key s.calls.length (s.wmLocks key)
  prior : ∀ (i : ℕ) (c : WmCall), s.calls[i]? = some c → WaitsFor s.calls c.key i c.prior
  begun : ∀ (i : ℕ) (c : WmCall), s.calls[i]? = some c → c.phase ≠ .waiting →
    DoneBefore s.calls c.key i
  read : ∀ (i : ℕ) (c : WmCall) (value : JsValue), s.calls[i]? = some c → c.phase = .merged value →
    value = deepMerge (readWM (s.store c.key)) c.patch
  store : ∀ key, s.store key = WmState.folded (store key) key s.calls
  result : ∀ (i : ℕ) (c : WmCall), s.calls[i]? = some c → c.result.isSome → c.written

section Calls

variable {s : WmState} {c d : WmCall} {calls : List WmCall} {key : JsString} {i j m : ℕ}
  {phase : WmPhase} {store st : JsString → Option JsValue}

theorem getElem?_goTo (hc : calls[i]? = some c) : (calls.set i { c with phase })[j]? =
    if i = j then some { c with phase } else calls[j]? := by
  obtain ⟨hi, -⟩ := List.getElem?_eq_some_iff.1 hc
  rw [getElem?_set, if_pos hi]

/-- What is at an index parts the list. -/
theorem exists_parts (hc : calls[i]? = some c) :
    ∃ before after, calls = before ++ c :: after ∧ before.length = i := by
  obtain ⟨hi, rfl⟩ := List.getElem?_eq_some_iff.1 hc
  refine ⟨calls.take i, calls.drop (i + 1), ?_, length_take_of_le (Nat.le_of_lt hi)⟩
  rw [getElem_cons_drop, take_append_drop]

/-- A patch that is written comes last, if no later call on its scope has written. -/
theorem folded_set {memory : Option JsValue} {c' : WmCall} (hc : calls[i]? = some c)
    (hnot : c.written = false)
    (hlater : ∀ j d, i < j → calls[j]? = some d → d.key = key → d.written = false) :
    WmState.folded memory key (calls.set i c') =
      if c'.key = key && c'.written then
        some (deepMerge (readWM (WmState.folded memory key calls)) c'.patch)
      else WmState.folded memory key calls := by
  obtain ⟨before, after, rfl, rfl⟩ := exists_parts hc
  have hafter : (after.filter fun d => d.key = key && d.written) = [] := by
    rw [filter_eq_nil_iff]
    intro d hd
    obtain ⟨n, hn⟩ := mem_iff_getElem?.1 hd
    have hwritten := hlater (before.length + 1 + n) d (by omega) (by
      rw [getElem?_append_right (by omega)]
      simpa [Nat.add_assoc, Nat.add_sub_cancel_left, Nat.add_comm 1 n] using hn)
    simpa using hwritten
  have hset : (before ++ c :: after).set before.length c' = before ++ c' :: after := by simp
  rw [hset, WmState.folded, WmState.folded]
  simp only [filter_append, filter_cons, hafter, hnot, Bool.and_false, Bool.false_eq_true,
    if_false, append_nil]
  split
  · rw [foldl_append]
    rfl
  · rw [append_nil]

theorem folded_set_of_ne {memory : Option JsValue} (hc : calls[i]? = some c) (hkey : c.key ≠ key) :
    WmState.folded memory key (calls.set i { c with phase }) = WmState.folded memory key calls := by
  obtain ⟨before, after, rfl, rfl⟩ := exists_parts hc
  simp [WmState.folded, hkey]

/-- A call goes on: whoever has settled has. -/
theorem DoneBefore.goTo (h : DoneBefore calls key j) (hc : calls[i]? = some c)
    (hnot : c.settled = false) : DoneBefore (calls.set i { c with phase }) key j := by
  intro k d hk hd hkey
  rw [getElem?_goTo hc] at hd
  split at hd
  · next heq =>
    subst heq
    obtain rfl := Option.some.inj hd
    rw [h i c hk hc hkey] at hnot
    contradiction
  · exact h k d hk hd hkey

theorem LastBefore.goTo (h : LastBefore calls key m j) (hc : calls[i]? = some c) :
    LastBefore (calls.set i { c with phase }) key m j := by
  refine ⟨h.lt, ?_, fun k d hmk hkj hd => ?_⟩
  · obtain ⟨d, hd, hkey⟩ := h.there
    rw [getElem?_goTo hc]
    by_cases hi : i = m
    · subst hi
      obtain rfl := Option.some.inj (hc.symm.trans hd)
      exact ⟨_, if_pos rfl, hkey⟩
    · exact ⟨d, by rw [if_neg hi, hd], hkey⟩
  · rw [getElem?_goTo hc] at hd
    split at hd
    · next heq =>
      subst heq
      obtain rfl := Option.some.inj hd
      exact h.last i c hmk hkj hc
    · exact h.last k d hmk hkj hd

theorem WaitsFor.goTo {prior : Option ℕ} (h : WaitsFor calls key j prior)
    (hc : calls[i]? = some c) (hnot : c.settled = false) :
    WaitsFor (calls.set i { c with phase }) key j prior := by
  cases prior with
  | none => exact DoneBefore.goTo h hc hnot
  | some m => exact LastBefore.goTo h hc

theorem begun_of_settled (h : c.settled) : c.phase ≠ .waiting := by
  intro hphase
  rw [WmCall.settled, hphase] at h
  contradiction

theorem settled_of_written (h : c.written) : c.settled := by
  unfold WmCall.written at h
  split at h
  · next hphase => rw [WmCall.settled, hphase]
  · contradiction

/-- When the call that it waits for has settled, all before have. -/
theorem WmInv.done (h : WmInv store s) (hc : s.calls[i]? = some c)
    (hprior : s.isSettled c.prior) : DoneBefore s.calls c.key i := by
  have hwaits := h.prior i c hc
  cases hp : c.prior with
  | none =>
    rw [hp] at hwaits
    exact hwaits
  | some m =>
    rw [hp] at hwaits hprior
    obtain ⟨d, hd, hkey⟩ := hwaits.there
    have hsettled : d.settled := by simpa [WmState.isSettled, hd] using hprior
    have hbefore := h.begun m d hd (begun_of_settled hsettled)
    intro j e hj he hekey
    rcases Nat.lt_trichotomy j m with hlt | rfl | hgt
    · exact hbefore j e hlt he (hekey.trans hkey.symm)
    · obtain rfl := Option.some.inj (hd.symm.trans he)
      exact hsettled
    · exact absurd hekey (hwaits.last j e hgt hj he)

/-- A call that may, goes on. -/
theorem WmInv.goTo (h : WmInv store s) (hc : s.calls[i]? = some c) (hnot : c.settled = false)
    (hdone : DoneBefore s.calls c.key i)
    (hread : ∀ value, phase = .merged value → value = deepMerge (readWM (st c.key)) c.patch)
    (hresult : ({ c with phase } : WmCall).result.isSome → ({ c with phase } : WmCall).written)
    (hother : ∀ key, key ≠ c.key → st key = s.store key)
    (hself : st c.key = if ({ c with phase } : WmCall).written then
      some (deepMerge (readWM (s.store c.key)) c.patch) else s.store c.key) :
    WmInv store { s.goTo i c phase with store := st } := by
  -- No later call on the scope has begun.
  have hlater (j : ℕ) (d : WmCall) (hj : i < j) (hd : s.calls[j]? = some d) (hkey : d.key = c.key) :
      d.phase = .waiting := by
    by_contra hphase
    rw [h.begun j d hd hphase i c hj hc hkey.symm] at hnot
    contradiction
  refine ⟨fun key => ?_, fun j d hd => ?_, fun j d hd hphase => ?_, fun j d value hd hphase => ?_,
    fun key => ?_, fun j d hd hres => ?_⟩
  · change WaitsFor (s.calls.set i { c with phase }) key (s.calls.set i { c with phase }).length
      (s.wmLocks key)
    rw [length_set]
    exact (h.locks key).goTo hc hnot
  · change (s.calls.set i { c with phase })[j]? = some d at hd
    change WaitsFor (s.calls.set i { c with phase }) d.key j d.prior
    rw [getElem?_goTo hc] at hd
    split at hd
    · next heq =>
      subst heq
      obtain rfl := Option.some.inj hd
      exact (h.prior i c hc).goTo hc hnot
    · exact (h.prior j d hd).goTo hc hnot
  · change (s.calls.set i { c with phase })[j]? = some d at hd
    change DoneBefore (s.calls.set i { c with phase }) d.key j
    rw [getElem?_goTo hc] at hd
    split at hd
    · next heq =>
      subst heq
      obtain rfl := Option.some.inj hd
      exact hdone.goTo hc hnot
    · exact (h.begun j d hd hphase).goTo hc hnot
  · change (s.calls.set i { c with phase })[j]? = some d at hd
    rw [getElem?_goTo hc] at hd
    split at hd
    · next heq =>
      subst heq
      obtain rfl := Option.some.inj hd
      exact hread value hphase
    · next hij =>
      have hkey : d.key ≠ c.key := by
        intro hkey
        rcases Nat.lt_or_gt_of_ne hij with hlt | hgt
        · rw [hlater j d hlt hd hkey] at hphase
          contradiction
        · have hsettled := hdone j d hgt hd hkey
          rw [WmCall.settled, hphase] at hsettled
          contradiction
      rw [h.read j d value hd hphase]
      exact congrArg (fun memory => deepMerge (readWM memory) d.patch) (hother _ hkey).symm
  · have hwritten : c.written = false := by
      by_contra hw
      rw [settled_of_written (by simpa using hw)] at hnot
      contradiction
    change st key = WmState.folded (store key) key (s.calls.set i { c with phase })
    by_cases hkey : c.key = key
    · subst hkey
      rw [hself, folded_set hc hwritten fun j d hj hd hkey => ?_, ← h.store]
      · simp
      · rw [WmCall.written, hlater j d hj hd hkey]
    · rw [hother key (Ne.symm hkey), h.store, folded_set_of_ne hc hkey]
  · change (s.calls.set i { c with phase })[j]? = some d at hd
    rw [getElem?_goTo hc] at hd
    split at hd
    · next heq =>
      obtain rfl := Option.some.inj hd
      exact hresult hres
    · exact h.result j d hd hres

/-- A call comes, and waits for those before it on its scope. -/
theorem WmInv.apply (h : WmInv store s) (patch : JsValue) :
    WmInv store { s with
      wmLocks := update s.wmLocks key (some s.calls.length)
      calls := s.calls ++ [⟨key, patch, s.wmLocks key, .waiting⟩] } := by
  have hold {j : ℕ} (hj : j < s.calls.length) :
      (s.calls ++ [⟨key, patch, s.wmLocks key, .waiting⟩])[j]? = s.calls[j]? :=
    getElem?_append_left hj
  have hnew : (s.calls ++ [⟨key, patch, s.wmLocks key, .waiting⟩])[s.calls.length]? =
      some ⟨key, patch, s.wmLocks key, .waiting⟩ := getElem?_concat_length
  -- What is at an index was there, or is the new call.
  have hget {j : ℕ} {d : WmCall}
      (hd : (s.calls ++ [⟨key, patch, s.wmLocks key, .waiting⟩])[j]? = some d) :
      s.calls[j]? = some d ∨ j = s.calls.length ∧ d = ⟨key, patch, s.wmLocks key, .waiting⟩ := by
    rcases Nat.lt_trichotomy j s.calls.length with hlt | rfl | hgt
    · exact .inl (hold hlt ▸ hd)
    · exact .inr ⟨rfl, Option.some.inj (hd.symm.trans hnew)⟩
    · rw [getElem?_eq_none (by simpa [Nat.succ_le_iff] using hgt)] at hd
      contradiction
  have hdone {k : JsString} {i : ℕ} (hi : i ≤ s.calls.length) (hdone : DoneBefore s.calls k i) :
      DoneBefore (s.calls ++ [⟨key, patch, s.wmLocks key, .waiting⟩]) k i := by
    intro j d hj hd
    rw [hold (Nat.lt_of_lt_of_le hj hi)] at hd
    exact hdone j d hj hd
  have hwaits {k : JsString} {i : ℕ} {prior : Option ℕ} (hi : i ≤ s.calls.length)
      (hwaits : WaitsFor s.calls k i prior) :
      WaitsFor (s.calls ++ [⟨key, patch, s.wmLocks key, .waiting⟩]) k i prior := by
    cases prior with
    | none => exact hdone hi hwaits
    | some m =>
      obtain ⟨hlt, ⟨d, hd, hkey⟩, hlast⟩ := hwaits
      refine ⟨hlt, ⟨d, by rw [hold (Nat.lt_of_lt_of_le hlt hi), hd], hkey⟩, fun j e hmj hj he => ?_⟩
      rw [hold (Nat.lt_of_lt_of_le hj hi)] at he
      exact hlast j e hmj hj he
  have hlt {j : ℕ} {d : WmCall} (hd : s.calls[j]? = some d) : j ≤ s.calls.length :=
    Nat.le_of_lt (List.getElem?_eq_some_iff.1 hd).1
  refine ⟨fun k => ?_, fun j d hd => ?_, fun j d hd hphase => ?_, fun j d value hd hphase => ?_,
    fun k => ?_, fun j d hd hres => ?_⟩
  · dsimp only
    rw [length_append, length_singleton]
    by_cases hk : k = key
    · subst hk
      rw [update_self]
      refine ⟨Nat.lt_succ_self _, ⟨_, hnew, rfl⟩, fun j d hmj hj _ => ?_⟩
      omega
    · -- The new call is on another scope.
      rw [update_of_ne hk]
      have hlocks := h.locks k
      cases hl : s.wmLocks k with
      | none =>
        rw [hl] at hlocks
        intro j d hj hd hkey
        rcases hget hd with hd | ⟨rfl, rfl⟩
        · exact hlocks j d (List.getElem?_eq_some_iff.1 hd).1 hd hkey
        · exact absurd hkey.symm hk
      | some m =>
        rw [hl] at hlocks
        obtain ⟨hmlt, ⟨d, hd, hkey⟩, hlast⟩ := hlocks
        refine ⟨Nat.lt_succ_of_lt hmlt, ⟨d, by rw [hold hmlt, hd], hkey⟩, fun j e hmj hj he => ?_⟩
        rcases hget he with he | ⟨rfl, rfl⟩
        · exact hlast j e hmj (List.getElem?_eq_some_iff.1 he).1 he
        · exact Ne.symm hk
  · rcases hget hd with hd | ⟨rfl, rfl⟩
    · exact hwaits (hlt hd) (h.prior j d hd)
    · exact hwaits (Nat.le_refl _) (h.locks key)
  · rcases hget hd with hd | ⟨rfl, rfl⟩
    · exact hdone (hlt hd) (h.begun j d hd hphase)
    · exact absurd rfl hphase
  · rcases hget hd with hd | ⟨rfl, rfl⟩
    · exact h.read j d value hd hphase
    · contradiction
  · dsimp only
    rw [h.store, WmState.folded, WmState.folded, filter_append]
    simp [WmCall.written]
  · rcases hget hd with hd | ⟨rfl, rfl⟩
    · exact h.result j d hd hres
    · contradiction

/-- A scope whose last call has settled is forgotten. -/
theorem WmInv.forget (h : WmInv store s) (hc : s.calls[i]? = some c) (hsettled : c.settled)
    (hlast : s.wmLocks c.key = some i) :
    WmInv store { s with wmLocks := update s.wmLocks c.key none } := by
  refine { h with locks := fun key => ?_ }
  dsimp only
  by_cases hkey : key = c.key
  · subst hkey
    rw [update_self]
    have hlocks := h.locks c.key
    rw [hlast] at hlocks
    intro j d hj hd hdkey
    rcases Nat.lt_trichotomy j i with hlt | rfl | hgt
    · exact h.begun i c hc (begun_of_settled hsettled) j d hlt hd hdkey
    · obtain rfl := Option.some.inj (hc.symm.trans hd)
      exact hsettled
    · exact absurd hdkey (hlocks.last j d hgt hj hd)
  · rw [update_of_ne hkey]
    exact h.locks key

/-- Every event keeps it. -/
theorem WmInv.step {resourceScope : Bool} {s' : WmState} {e : WmEvent} (h : WmInv store s)
    (he : s.step resourceScope e = some s') : WmInv store s' := by
  cases e with
  | apply threadId patch resourceId =>
    obtain rfl := Option.some.inj he
    exact h.apply patch
  | read i fails =>
    rw [WmState.step] at he
    split at he
    · next key patch prior hc =>
      split at he
      · next hprior =>
        have hdone := h.done hc hprior
        cases fails with
        | true =>
          obtain rfl := Option.some.inj he
          exact h.goTo hc rfl hdone nofun (fun h => h) (fun _ _ => rfl) rfl
        | false =>
          obtain rfl := Option.some.inj he
          refine h.goTo hc rfl hdone (fun value hvalue => ?_) (fun h => h) (fun _ _ => rfl) rfl
          cases hvalue
          rfl
      · contradiction
    · contradiction
  | write i fails written =>
    rw [WmState.step] at he
    split at he
    · next key patch prior value hc =>
      have hdone := h.begun i _ hc nofun
      have hvalue := h.read i _ value hc rfl
      dsimp only at he
      split at he
      · obtain rfl := Option.some.inj he
        exact h.goTo hc rfl hdone nofun (fun h => h) (fun _ _ => rfl) rfl
      · obtain rfl := Option.some.inj he
        refine h.goTo hc rfl hdone nofun (fun _ => rfl)
          (fun _ hkey => update_of_ne hkey _ _) ?_
        rw [hvalue]
        exact update_self ..
    · contradiction
  | forget i =>
    rw [WmState.step] at he
    split at he
    · next c hc =>
      split at he
      · next hsettled =>
        split at he
        · next hlast =>
          obtain rfl := Option.some.inj he
          exact h.forget hc hsettled hlast
        · obtain rfl := Option.some.inj he
          exact h
      · contradiction
    · contradiction

theorem WmInv.init (store : JsString → Option JsValue) : WmInv store (WmState.init store) :=
  have hnone (i : ℕ) (c : WmCall) (hc : (WmState.init store).calls[i]? = some c) : False :=
    nomatch (getElem?_nil : ([] : List WmCall)[i]? = none).symm.trans hc
  ⟨fun _ i c _ hc => (hnone i c hc).elim, fun i c hc => (hnone i c hc).elim,
    fun i c hc => (hnone i c hc).elim, fun i c _ hc => (hnone i c hc).elim, fun _ => rfl,
    fun i c hc => (hnone i c hc).elim⟩

theorem WmInv.run {resourceScope : Bool} {s' : WmState} {events : List WmEvent}
    (h : WmInv store s) (hrun : s.run resourceScope events = some s') : WmInv store s' := by
  induction events generalizing s with
  | nil =>
    obtain rfl := Option.some.inj hrun
    exact h
  | cons e events ih =>
    rw [WmState.run, foldlM_cons] at hrun
    obtain ⟨s₁, hstep, hrun⟩ := Option.bind_eq_some_iff.1 hrun
    exact ih (h.step hstep) hrun

/-- The first call that has not settled can go on. -/
theorem WmInv.goes_on (h : WmInv store s) (resourceScope : Bool) (hc : s.calls[i]? = some c)
    (hnot : c.settled = false)
    (hfirst : ∀ j d, j < i → s.calls[j]? = some d → d.settled) :
    (s.step resourceScope (.read i false)).isSome ∨
      (s.step resourceScope (.write i false true)).isSome := by
  obtain ⟨key, patch, prior, phase⟩ := c
  cases phase with
  | waiting =>
    left
    have hprior : s.isSettled prior := by
      have hwaits := h.prior i _ hc
      cases prior with
      | none => rfl
      | some m =>
        obtain ⟨d, hd, -⟩ := hwaits.there
        simp [WmState.isSettled, hd, hfirst m d hwaits.lt hd]
    simp [WmState.step, hc, hprior]
  | merged value =>
    right
    simp [WmState.step, hc]
  | settled _ _ => contradiction

end Calls

/-- Updates of the working memory: a patch says what becomes of the memory if and only if it fits.
    And in every run, with any number of calls on any scopes, some of which fail, the memory of a
    scope is the fold of the patches on it that were written, in the order of the calls; every call
    that returns a memory has written its patch; and while a call has not settled, one of them can
    go on. -/
theorem working_memory_merges {es us : List (JsString × JsValue)} (hu : (obj us).Distinct)
    (he : (obj es).NullFree) {resourceScope : Bool} {store : JsString → Option JsValue}
    {events : List WmEvent} {s : WmState}
    (hrun : (WmState.init store).run resourceScope events = some s) :
    (((deepMerge (obj es) (obj us)).Same (mergePatch (obj es) (obj us)) ∧
        (deepMerge (obj es) (obj us)).NullFree ∧
        (deepMerge (deepMerge (obj es) (obj us)) (obj us)).Same (deepMerge (obj es) (obj us))) ↔
      PatchFits (obj es) (obj us)) ∧
    (∀ key, s.store key = WmState.folded (store key) key s.calls) ∧
    (∀ c ∈ s.calls, c.result.isSome → c.written) ∧
    ((∃ c ∈ s.calls, c.settled = false) → ∃ i,
      (s.step resourceScope (.read i false)).isSome ∨
        (s.step resourceScope (.write i false true)).isSome) := by
  have hinv := (WmInv.init store).run hrun
  refine ⟨deepMerge_iff hu he, hinv.store, fun c hc => ?_, fun ⟨c, hc, hnot⟩ => ?_⟩
  · obtain ⟨i, hi⟩ := List.mem_iff_getElem?.1 hc
    exact hinv.result i c hi
  · -- The first one.
    have hex : ∃ (i : ℕ) (d : WmCall), s.calls[i]? = some d ∧ d.settled = false := by
      obtain ⟨i, hi⟩ := List.mem_iff_getElem?.1 hc
      exact ⟨i, c, hi, hnot⟩
    classical
    obtain ⟨d, hd, hdnot⟩ := Nat.find_spec hex
    refine ⟨Nat.find hex, hinv.goes_on resourceScope hd hdnot fun j e hj he => ?_⟩
    by_contra he'
    exact Nat.find_min hex hj ⟨e, he, by simpa using he'⟩

/-- The memory `{a: {b: 1}}`. -/
def notes : JsValue := object [("a", object [("b", num (js "1"))])]

/-- `{a: {b: null, c: 2}}`, which fits it. -/
def notesPatch : JsValue := object [("a", object [("b", null), ("c", num (js "2"))])]

/-- Two calls on one thread; the second comes while the first reads, and fails to write. -/
def notesRun : List WmEvent :=
  [.apply (js "t") notesPatch none, .read 0 false, .apply (js "t") notes none, .write 0 false true,
    .forget 0, .read 1 false, .write 1 true false]

theorem notes_merged :
    (deepMerge notes notesPatch).Same (mergePatch notes notesPatch) ∧
    ∃ s, (WmState.init fun _ => some notes).run false notesRun = some s ∧
      s.store (js "thread:t") = some (deepMerge notes notesPatch) := by
  have hinner : (object [("b", null), ("c", num (js "2"))]).Distinct :=
    .of_mem (by decide) (by simpa using ⟨.leaf rfl, .leaf rfl⟩)
  have hdistinct : notesPatch.Distinct := .of_mem (by decide) (by simpa using hinner)
  have hleaf : (object [("b", num (js "1"))]).NullFree :=
    nullFree_of_mem (by simp) (by simpa using nullFree_leaf rfl)
  have hfree : notes.NullFree := nullFree_of_mem (by simp [object]) (by simpa using hleaf)
  have hfits : PatchFits notes notesPatch := by
    refine .of_mem (by decide) ?_
    simp only [List.map_cons, List.map_nil, List.forall_mem_cons]
    refine ⟨.of_mem (by decide) ?_, List.forall_mem_nil _⟩
    simpa using ⟨.leaf rfl, .leaf rfl⟩
  have hmerges {s} (hrun : (WmState.init fun _ => some notes).run false notesRun = some s) :=
    working_memory_merges hdistinct hfree hrun
  exact ⟨((hmerges rfl).1.2 hfits).1, _, rfl, (hmerges rfl).2.1 (js "thread:t")⟩

/-- A null that meets no object is stored, and removed when the same patch comes again. -/
theorem null_stored :
    (object [("a", object [("b", null)])]).Distinct ∧ (object []).NullFree ∧
    let merged := deepMerge (object []) (object [("a", object [("b", null)])])
    merged.readAt [js "a", js "b"] = some null ∧
      (mergePatch (object []) (object [("a", object [("b", null)])])).readAt [js "a", js "b"] = none ∧
      (deepMerge merged (object [("a", object [("b", null)])])).readAt [js "a", js "b"] = none := by
  refine ⟨.of_mem (by decide) ?_, nullFree_of_mem (by simp) (by simp), rfl, ?_, rfl⟩
  · simpa using .of_mem (by decide) (by simpa using .leaf rfl)
  · simp [object, mergePatch, patchFields, patchField]
    rfl

end Gnldev.Memory
