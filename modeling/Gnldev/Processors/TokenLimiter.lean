import Gnldev.Lib.ModelMessage
import Gnldev.Lib.Paired
import Mathlib.Algebra.BigOperators.Group.List.Basic
import Mathlib.Algebra.Order.Ring.Int

/-!
# The token limiter

Before the model is asked, messages are dropped from the front until the rest fits a budget
(`token-limiter.ts`). The last message of the user stays, and so do system messages. A message is
dropped by its size alone: that it calls a tool, or answers a call, is not looked at. So of a call and
its result one may be dropped and the other one stay.

The numbers of the source are doubles: of the type of the counts only its operations are used, in
the order of the source. What is proved is about counts that are whole numbers, which doubles add and
subtract exactly.

* `TrimmedWell`: what a provider accepts of a trimmed list;
* `trimmed_well_iff`: that is so just when no call and result are parted by the sizes (`PartsNoPair`).
-/

open List

namespace Gnldev.Processors

/-! ## The source -/

structure ProcessorInput where
  system : Option JsString
  prompt : Option JsString
  messages : Option (List ModelMessage)
  deriving DecidableEq

/-- A token for every four characters. -/
def approxTokens (s : JsString) : ℕ := (s.length + 3) / 4

inductive Strategy where
  | trimOldest | error
  deriving DecidableEq

structure TokenLimiterOptions (τ : Type) where
  maxInputTokens : τ
  countTokens : Option (JsString → τ) := none
  strategy : Option Strategy := none
  keepSystem : Option Bool := none

/-- What stops the run. -/
structure ProcessorTripwire (τ : Type) where
  processor : JsString
  totalTokens : τ
  maxInputTokens : τ
  deriving DecidableEq

def msgText (m : ModelMessage) : JsString :=
  match m.content with
  | .text s => s
  | .parts ps => (js " ").intercalate (ps.filterMap (·.text))
  | .none => []

def lastUserIndex (messages : List ModelMessage) : Option ℕ :=
  ((List.range messages.length).filter fun i =>
    (messages[i]?).any (·.role = some (js "user"))).getLast?

section Source

variable {τ : Type} [Zero τ] [NatCast τ] [Add τ] [Sub τ] [LE τ] [DecidableLE τ]
  (opts : TokenLimiterOptions τ)

def TokenLimiterOptions.count (s : JsString) : τ :=
  match opts.countTokens with
  | some countTokens => countTokens s
  | none => (approxTokens s : τ)

/-- Is the message never dropped? -/
def protectedIdx (messages : List ModelMessage) (i : ℕ) : Bool :=
  lastUserIndex messages = some i ||
    opts.keepSystem.getD true && (messages[i]?).any (·.role = some (js "system"))

def msgTokens (messages : List ModelMessage) : List τ := messages.map fun m => opts.count (msgText m)

/-- The tokens of the system prompt and of all messages. -/
def totalTokens (input : ProcessorInput) : τ :=
  (input.system.elim 0 opts.count) + (msgTokens opts (input.messages.getD [])).foldl (· + ·) 0

/-- Which messages are kept: from the front one after the other is dropped, until the rest fits. -/
def keepFlags (isProtected : ℕ → Bool) (maxInputTokens : τ) : ℕ → τ → List τ → List Bool
  | _, _, [] => []
  | i, remaining, tokens :: rest =>
    if remaining ≤ maxInputTokens then true :: rest.map fun _ => true
    else if isProtected i then true :: keepFlags isProtected maxInputTokens (i + 1) remaining rest
    else false :: keepFlags isProtected maxInputTokens (i + 1) (remaining - tokens) rest

/-- The messages whose flag is set. -/
def kept (messages : List ModelMessage) (keep : List Bool) : List ModelMessage :=
  ((messages.zip keep).filter (·.2)).map (·.1)

def tokenLimiter (input : ProcessorInput) : Except (ProcessorTripwire τ) ProcessorInput :=
  let messages := input.messages.getD []
  let total := totalTokens opts input
  if total ≤ opts.maxInputTokens then .ok input
  else
    match opts.strategy.getD .trimOldest with
    | .error => .error ⟨js "token-limiter", total, opts.maxInputTokens⟩
    | .trimOldest =>
      if messages = [] then .ok input
      else
        let keep := keepFlags (protectedIdx opts messages) opts.maxInputTokens 0 total
          (msgTokens opts messages)
        if false ∉ keep then .ok input
        else .ok { input with messages := some (kept messages keep) }

end Source

/-! ## What is asked of a trimmed list -/

section Spec

variable (opts : TokenLimiterOptions ℤ) (input : ProcessorInput)

/-- Every tool result comes after its call, and every call is answered. -/
def ValidMessages (messages : List ModelMessage) : Prop :=
  Called ModelMessage.calls ModelMessage.results ∅ messages ∧
    Answered ModelMessage.calls ModelMessage.results ∅ messages

/-- A subsequence with every protected message, valid, and within the budget unless nothing but protected
    messages is left. -/
structure TrimmedWell (out : ProcessorInput) : Prop where
  subsequence : ∃ keep : List Bool, keep.length = (input.messages.getD []).length ∧
    out.messages.getD [] = kept (input.messages.getD []) keep ∧
    (∀ i < keep.length, protectedIdx opts (input.messages.getD []) i → keep[i]? = some true) ∧
    (totalTokens opts out ≤ opts.maxInputTokens ∨
      ∀ i, keep[i]? = some true → protectedIdx opts (input.messages.getD []) i)
  valid : ValidMessages (out.messages.getD [])

/-- The tokens of the messages before the index that are not protected. -/
def freedTokens (i : ℕ) : ℤ :=
  (((msgTokens opts (input.messages.getD [])).take i).zipIdx.map fun (tokens, k) =>
    if protectedIdx opts (input.messages.getD []) k then 0 else tokens).sum

/-- The message is not protected, and dropping those before it is never enough. -/
def TooOld (i : ℕ) : Prop :=
  ¬protectedIdx opts (input.messages.getD []) i ∧
    ∀ k ≤ i, opts.maxInputTokens < totalTokens opts input - freedTokens opts input k

instance (i : ℕ) : Decidable (TooOld opts input i) := inferInstanceAs (Decidable (_ ∧ _))

/-- A call of a result that is not too old is not too old, and neither is a result of such a call. -/
structure PartsNoPair : Prop where
  call : ∀ (j : ℕ) m, (input.messages.getD [])[j]? = some m → ¬TooOld opts input j →
    ∀ id ∈ m.results, ∃ i < j, ∃ m', (input.messages.getD [])[i]? = some m' ∧ id ∈ m'.calls ∧
      ¬TooOld opts input i
  result : ∀ (i : ℕ) m, (input.messages.getD [])[i]? = some m → ¬TooOld opts input i →
    ∀ id ∈ m.calls, ∃ j > i, ∃ m', (input.messages.getD [])[j]? = some m' ∧ id ∈ m'.results ∧
      ¬TooOld opts input j

end Spec

/-! ## Which messages are kept -/

section Keep

variable {isProtected : ℕ → Bool} {maxInputTokens remaining : ℤ} {tokens : List ℤ} {i₀ i : ℕ}

/-- What dropping the messages before the index frees, if the first one has the index `i₀`. -/
def freed (isProtected : ℕ → Bool) (i₀ : ℕ) (tokens : List ℤ) (k : ℕ) : ℤ :=
  (((tokens.take k).zipIdx i₀).map fun (t, j) => if isProtected j then 0 else t).sum

theorem freed_cons (t : ℤ) (k : ℕ) : freed isProtected i₀ (t :: tokens) (k + 1) =
    (if isProtected i₀ then 0 else t) + freed isProtected (i₀ + 1) tokens k := by
  simp [freed]

theorem length_keepFlags :
    (keepFlags isProtected maxInputTokens i₀ remaining tokens).length = tokens.length := by
  induction tokens generalizing i₀ remaining with
  | nil => rfl
  | cons t tokens ih =>
    rw [keepFlags]
    split_ifs <;> simp [ih]

/-- A message is kept if it is protected, or dropping some of those before it is enough. -/
theorem keepFlags_getElem (hi : i < tokens.length) :
    (keepFlags isProtected maxInputTokens i₀ remaining tokens)[i]? = some true ↔
      isProtected (i₀ + i) ∨
        ∃ k ≤ i, remaining - freed isProtected i₀ tokens k ≤ maxInputTokens := by
  induction tokens generalizing i₀ i remaining with
  | nil => exact absurd hi (Nat.not_lt_zero i)
  | cons t tokens ih =>
    rw [keepFlags]
    by_cases hfits : remaining ≤ maxInputTokens
    · rw [if_pos hfits]
      refine iff_of_true ?_ (.inr ⟨0, Nat.zero_le i, by simpa [freed] using hfits⟩)
      match i with
      | 0 => rfl
      | i + 1 => simpa [getElem?_replicate] using hi
    rw [if_neg hfits]
    -- The first message is looked at, and the others are as in the rest of the list.
    have hfirst : ¬remaining - freed isProtected i₀ (t :: tokens) 0 ≤ maxInputTokens := by
      simpa [freed] using hfits
    have hrest (i : ℕ) (d : ℤ) (hd : d = if isProtected i₀ then 0 else t) :
        (∃ k ≤ i + 1, remaining - freed isProtected i₀ (t :: tokens) k ≤ maxInputTokens) ↔
          ∃ k ≤ i, remaining - d - freed isProtected (i₀ + 1) tokens k ≤ maxInputTokens := by
      constructor
      · intro ⟨k, hk, hle⟩
        match k with
        | 0 => exact absurd hle hfirst
        | k + 1 =>
          rw [freed_cons, ← hd, ← sub_sub] at hle
          exact ⟨k, Nat.le_of_succ_le_succ hk, hle⟩
      · intro ⟨k, hk, hle⟩
        refine ⟨k + 1, Nat.succ_le_succ hk, ?_⟩
        rwa [freed_cons, ← hd, ← sub_sub]
    by_cases hprot : isProtected i₀
    · rw [if_pos hprot]
      match i with
      | 0 => simp [hprot]
      | i + 1 =>
        rw [getElem?_cons_succ, ih (Nat.lt_of_succ_lt_succ hi), hrest i 0 (if_pos hprot).symm,
          sub_zero, Nat.add_assoc, Nat.add_comm 1 i]
    · rw [if_neg hprot]
      match i with
      | 0 => simpa [hprot, freed] using hfits
      | i + 1 =>
        rw [getElem?_cons_succ, ih (Nat.lt_of_succ_lt_succ hi), hrest i t (if_neg hprot).symm,
          Nat.add_assoc, Nat.add_comm 1 i]

/-- What is kept fits, or it is protected. -/
theorem keepFlags_fits :
    remaining - tokens.sum + (((tokens.zip
        (keepFlags isProtected maxInputTokens i₀ remaining tokens)).filter (·.2)).map (·.1)).sum ≤
      maxInputTokens ∨
    ∀ i, (keepFlags isProtected maxInputTokens i₀ remaining tokens)[i]? = some true →
      isProtected (i₀ + i) := by
  induction tokens generalizing i₀ remaining with
  | nil => exact .inr nofun
  | cons t tokens ih =>
    rw [keepFlags]
    by_cases hfits : remaining ≤ maxInputTokens
    · refine .inl ?_
      have hall : ((tokens.zip (tokens.map fun _ => true)).filter (·.2)).map (·.1) = tokens := by
        clear ih
        induction tokens with
        | nil => rfl
        | cons t tokens ih => simpa using ih
      simp only [if_pos hfits, zip_cons_cons, filter_cons, if_true, map_cons, hall]
      simpa using hfits
    rw [if_neg hfits]
    by_cases hprot : isProtected i₀
    · rw [if_pos hprot]
      refine (@ih remaining (i₀ + 1)).imp (fun h => ?_) fun h i hi => ?_
      · simp only [zip_cons_cons, filter_cons, if_true, map_cons, sum_cons]
        omega
      · match i with
        | 0 => exact hprot
        | i + 1 =>
          have := h i hi
          rwa [Nat.add_assoc, Nat.add_comm 1 i] at this
    · rw [if_neg hprot]
      refine (@ih (remaining - t) (i₀ + 1)).imp (fun h => ?_) fun h i hi => ?_
      · simp only [zip_cons_cons, filter_cons, sum_cons]
        rwa [← sub_sub]
      · match i with
        | 0 => exact absurd hi (by simp)
        | i + 1 =>
          have := h i hi
          rwa [Nat.add_assoc, Nat.add_comm 1 i] at this

end Keep

/-! ## What is returned -/

section Returned

variable (opts : TokenLimiterOptions ℤ) (input : ProcessorInput)

/-- The flags of the messages. -/
def flags : List Bool :=
  keepFlags (protectedIdx opts (input.messages.getD [])) opts.maxInputTokens 0
    (totalTokens opts input) (msgTokens opts (input.messages.getD []))

theorem length_flags : (flags opts input).length = (input.messages.getD []).length := by
  rw [flags, length_keepFlags, msgTokens, length_map]

variable {opts input} in
/-- A message is kept if it is not too old. -/
theorem flags_getElem {i : ℕ} (hi : i < (input.messages.getD []).length) :
    (flags opts input)[i]? = some true ↔ ¬TooOld opts input i := by
  rw [flags, keepFlags_getElem (by rwa [msgTokens, length_map]), Nat.zero_add, TooOld, not_and_or,
    not_not]
  refine or_congr_right ?_
  simp only [not_forall, not_lt, exists_prop]
  rfl

theorem kept_of_all {messages : List ModelMessage} {keep : List Bool}
    (hlen : keep.length = messages.length) (h : false ∉ keep) : kept messages keep = messages := by
  induction messages generalizing keep with
  | nil => simp [kept]
  | cons m messages ih =>
    match keep with
    | true :: keep =>
      have hrest := ih (Nat.succ.inj hlen) fun hmem => h (.tail _ hmem)
      simpa [kept] using hrest
    | false :: keep => exact absurd mem_cons_self h

/-- The messages whose flags are set are returned. -/
theorem tokenLimiter_ok (hstrategy : opts.strategy.getD .trimOldest = .trimOldest) :
    ∃ out, tokenLimiter opts input = .ok out ∧ out.system = input.system ∧
      out.messages.getD [] = kept (input.messages.getD []) (flags opts input) := by
  have hinput (h : false ∉ flags opts input) :
      input.messages.getD [] = kept (input.messages.getD []) (flags opts input) :=
    (kept_of_all (length_flags opts input) h).symm
  rw [tokenLimiter]
  by_cases hfits : totalTokens opts input ≤ opts.maxInputTokens
  · refine ⟨input, if_pos hfits, rfl, hinput fun hmem => ?_⟩
    obtain ⟨i, hi⟩ := mem_iff_getElem?.1 hmem
    have hlt := (List.getElem?_eq_some_iff.1 hi).1
    rw [length_flags] at hlt
    have hyoung : ¬TooOld opts input i := fun hold => by
      have hzero := hold.2 0 (Nat.zero_le i)
      simp only [freedTokens, take_zero, zipIdx_nil, map_nil, sum_nil, sub_zero]
        at hzero
      exact absurd hfits (not_le.2 hzero)
    exact absurd (hi.symm.trans ((flags_getElem hlt).2 hyoung)) nofun
  · simp only [if_neg hfits, hstrategy]
    by_cases hnil : input.messages.getD [] = []
    · refine ⟨input, if_pos hnil, rfl, ?_⟩
      simp [kept, hnil]
    · by_cases hall : false ∉ flags opts input
      · exact ⟨input, (if_neg hnil).trans (if_pos hall), rfl, hinput hall⟩
      · exact ⟨_, (if_neg hnil).trans (if_neg hall), rfl, rfl⟩

theorem msgTokens_kept (messages : List ModelMessage) (keep : List Bool) :
    msgTokens opts (kept messages keep) =
      (((msgTokens opts messages).zip keep).filter (·.2)).map (·.1) := by
  induction messages generalizing keep with
  | nil => simp [msgTokens, kept]
  | cons m messages ih =>
    match keep with
    | [] => simp [msgTokens, kept]
    | b :: keep =>
      have hrest := ih keep
      cases b <;> simpa [msgTokens, kept] using hrest

/-- What is kept is valid if no pair is parted. -/
theorem valid_kept_iff : ValidMessages (kept (input.messages.getD []) (flags opts input)) ↔
    PartsNoPair opts input := by
  have hzip {i : ℕ} {m : ModelMessage} {b : Bool} :
      ((input.messages.getD []).zip (flags opts input))[i]? = some (m, b) ∧ b = true ↔
        (input.messages.getD [])[i]? = some m ∧ ¬TooOld opts input i ∧ b = true := by
    rw [getElem?_zip_eq_some, and_assoc]
    refine and_congr_right fun hm => and_congr_left fun hb => ?_
    rw [hb]
    exact flags_getElem (List.getElem?_eq_some_iff.1 hm).1
  rw [ValidMessages, kept, called_map, answered_map, called_filter_iff, answered_filter_iff]
  constructor
  · intro ⟨hcalled, hanswered⟩
    refine ⟨fun j m hm hyoung id hid => ?_, fun i m hm hyoung id hid => ?_⟩
    · obtain ⟨i, hi, ⟨m', b⟩, hm', hb, hid'⟩ :=
        hcalled j (m, true) (hzip.2 ⟨hm, hyoung, rfl⟩).1 rfl id hid
      obtain ⟨hm', hyoung', -⟩ := hzip.1 ⟨hm', hb⟩
      exact ⟨i, hi, m', hm', hid', hyoung'⟩
    · obtain ⟨j, hj, ⟨m', b⟩, hm', hb, hid'⟩ :=
        hanswered i (m, true) (hzip.2 ⟨hm, hyoung, rfl⟩).1 rfl id hid
      obtain ⟨hm', hyoung', -⟩ := hzip.1 ⟨hm', hb⟩
      exact ⟨j, hj, m', hm', hid', hyoung'⟩
  · intro hpair
    refine ⟨fun j ⟨m, b⟩ hm hb id hid => ?_, fun i ⟨m, b⟩ hm hb id hid => ?_⟩
    · obtain ⟨hm, hyoung, -⟩ := hzip.1 ⟨hm, hb⟩
      obtain ⟨i, hi, m', hm', hid', hyoung'⟩ := hpair.call j m hm hyoung id hid
      exact ⟨i, hi, (m', true), (hzip.2 ⟨hm', hyoung', rfl⟩).1, rfl, hid'⟩
    · obtain ⟨hm, hyoung, -⟩ := hzip.1 ⟨hm, hb⟩
      obtain ⟨j, hj, m', hm', hid', hyoung'⟩ := hpair.result i m hm hyoung id hid
      exact ⟨j, hj, (m', true), (hzip.2 ⟨hm', hyoung', rfl⟩).1, rfl, hid'⟩

/-- A list is returned that a provider accepts, just when the sizes part no call and result. -/
theorem trimmed_well_iff (hstrategy : opts.strategy.getD .trimOldest = .trimOldest) :
    (∃ out, tokenLimiter opts input = .ok out ∧ TrimmedWell opts input out) ↔
      PartsNoPair opts input := by
  obtain ⟨out, hout, hsystem, hkept⟩ := tokenLimiter_ok opts input hstrategy
  rw [← valid_kept_iff, ← hkept]
  constructor
  · intro ⟨out', hout', htrimmed⟩
    obtain rfl := Except.ok.inj (hout.symm.trans hout')
    exact htrimmed.valid
  · intro hnopair
    refine ⟨out, hout, ⟨flags opts input, length_flags opts input, hkept, fun i hi hprot => ?_, ?_⟩, hnopair⟩
    · exact (flags_getElem (length_flags opts input ▸ hi)).2 fun hold => hold.1 hprot
    · have hfits : totalTokens opts out = totalTokens opts input -
          (msgTokens opts (input.messages.getD [])).sum +
          (((msgTokens opts (input.messages.getD [])).zip (flags opts input)).filter (·.2)
            |>.map (·.1)).sum := by
        rw [totalTokens, totalTokens, hsystem, hkept, msgTokens_kept, ← sum_eq_foldl, ← sum_eq_foldl,
          add_sub_cancel_right]
      rw [hfits]
      exact keepFlags_fits.imp id fun hprot i hi => by simpa using hprot i hi

end Returned

/-! ## A call that is too big, and one that is dropped with its result -/

/-- A call with some text, its result, and a question. -/
def callRows (result : String) : List ModelMessage :=
  [⟨some (js "assistant"), .parts [⟨.other, [], some (js "let me see")⟩, ⟨.toolCall, js "c", none⟩]⟩,
    ⟨some (js "tool"), .parts [⟨.toolResult, js "c", some (js result)⟩]⟩,
    ⟨some (js "user"), .text (js "go")⟩]

def callInput (result : String) : ProcessorInput := ⟨none, none, some (callRows result)⟩

theorem trimmed_well_both : ∃ out, tokenLimiter ⟨(1 : ℤ), none, none, none⟩ (callInput "four") =
    .ok out ∧ TrimmedWell ⟨1, none, none, none⟩ (callInput "four") out := by
  refine (trimmed_well_iff ⟨1, none, none, none⟩ (callInput "four") rfl).2
    ⟨fun j m hm hyoung id hid => ?_, fun i m hm hyoung id hid => ?_⟩
  · match j with
    | 0 => exact absurd (by decide) hyoung
    | 1 => exact absurd (by decide) hyoung
    | 2 =>
      obtain rfl := Option.some.inj hm
      exact absurd hid List.not_mem_nil
  · match i with
    | 0 => exact absurd (by decide) hyoung
    | 1 => exact absurd (by decide) hyoung
    | 2 =>
      obtain rfl := Option.some.inj hm
      exact absurd hid List.not_mem_nil

/-- With the call alone the budget is met, and its result stays. -/
theorem result_orphaned : ¬∀ (opts : TokenLimiterOptions ℤ) (input : ProcessorInput),
    opts.strategy.getD .trimOldest = .trimOldest → ValidMessages (input.messages.getD []) →
      ∃ out, tokenLimiter opts input = .ok out ∧ TrimmedWell opts input out := by
  intro hall
  have hvalid : ValidMessages (callRows "") := by
    refine ⟨?_, ?_⟩
    · simp [callRows, Called, ModelMessage.calls, ModelMessage.results, ModelMessage.idsIn]
    · simp [callRows, Answered, ModelMessage.calls, ModelMessage.results, ModelMessage.idsIn]
  obtain ⟨out, hout, htrimmed⟩ := hall ⟨1, none, none, none⟩ (callInput "") rfl hvalid
  have hrows : out.messages.getD [] = (callRows "").drop 1 := by
    have heq : tokenLimiter ⟨(1 : ℤ), none, none, none⟩ (callInput "") =
        .ok { callInput "" with messages := some ((callRows "").drop 1) } := by decide
    exact congrArg (fun i => i.messages.getD []) (Except.ok.inj (hout.symm.trans heq))
  have hcalled := htrimmed.valid.1
  rw [hrows] at hcalled
  exact absurd (hcalled.1 (js "c") List.mem_cons_self) (Set.notMem_empty _)

end Gnldev.Processors
