import Mathlib.Algebra.Order.Ring.Int
import Gnldev.Lib.Results
import Mathlib.Data.List.Infix
import Mathlib.Data.List.Nodup
import Gnldev.Lib.JsString

/-!
# Batches of messages

The messages of a thread are rows with a position; a batch of them is written under a key,
once (`sqlite-storage.ts`, `appendMessagesOnce`). Its marker has the half-open range of the
positions the store gave to its rows. When a thread is cut after a position
(`deleteMessagesAfter`), the rows after it go, and so do the markers that end after it.

A batch that ends at the cut ends after it, by that range: its rows stay and its marker goes
(`batch_written_twice`). And a batch that brings its own positions has the empty range at 0.

* `ThreadRows.appendMessagesOnce` and its siblings: as in the source, each one transaction;
* `BatchesExact`: what is promised of a history;
* `batches_exact`: it is so as long as every operation is `Clean`: no batch ends at a cut, and
  those without positions of the store are not cut in two.
-/

open List

namespace Gnldev.Durable

open Function

variable {M : Type}

/-! ## Rows and markers -/

/-- A message on its way in, with a position or without one. -/
structure MessageAppend (M : Type) where
  seq : Option ℤ
  message : M

/-- A row of `gnl_messages`. The batch that has written it is not in the table. -/
structure MessageRow (M : Type) where
  seq : ℤ
  message : M
  batch : Option JsString

/-- A row of `gnl_message_batches`. -/
structure BatchRow where
  key : JsString
  seqFrom : ℤ
  seqTo : ℤ
  deriving DecidableEq

/-- What is kept of a thread. -/
structure ThreadRows (M : Type) where
  rows : List (MessageRow M)
  batches : List BatchRow

inductive AppendError where
  /-- Some rows have positions, and some have none. -/
  | mixed (explicit total : ℕ)
  /-- A position the store has given is taken. -/
  | conflict (seq : ℤ)
  deriving DecidableEq

/-- Must the store give the positions? -/
def assertUniformSeq (rows : List (MessageAppend M)) : Except AppendError Bool :=
  let explicit := rows.countP (·.seq.isSome)
  if explicit ≠ 0 ∧ explicit ≠ rows.length then throw (.mixed explicit rows.length)
  else return explicit = 0

/-- The position after the last one. -/
def tailOf (rows : List (MessageRow M)) : ℤ := (rows.map (·.seq)).max?.getD (-1) + 1

/-- The rows one by one, from the position `next` on. A row whose own position is taken is
    passed over. -/
def insertAll (batch : Option JsString) :
    List (MessageAppend M) → ℤ → List (MessageRow M) → Except AppendError (List (MessageRow M) × ℤ)
  | [], next, rows => return (rows, next)
  | ⟨some seq, message⟩ :: rest, next, rows =>
    if rows.any (·.seq = seq) then insertAll batch rest next rows
    else insertAll batch rest next (rows ++ [⟨seq, message, batch⟩])
  | ⟨none, message⟩ :: rest, next, rows =>
    if rows.any (·.seq = next) then throw (.conflict next)
    else insertAll batch rest (next + 1) (rows ++ [⟨next, message, batch⟩])

namespace ThreadRows

variable (th : ThreadRows M)

def appendMessages (rows : List (MessageAppend M)) : Except AppendError (ThreadRows M) :=
  if rows = [] then return th
  else do
    let assign ← assertUniformSeq rows
    let (rows, _) ← insertAll none rows (if assign then tailOf th.rows else 0) th.rows
    return { th with rows }

/-- The rows, under a key. The answer is whether they were written. -/
def appendMessagesOnce (rows : List (MessageAppend M)) (key : JsString) :
    Except AppendError (Bool × ThreadRows M) := do
  let assign ← assertUniformSeq rows
  if th.batches.any (·.key = key) then return (false, th)
  else
    let seqFrom := if assign then tailOf th.rows else 0
    let (rows, seqTo) ← insertAll (some key) rows seqFrom th.rows
    return (true, ⟨rows, th.batches ++ [⟨key, seqFrom, seqTo⟩]⟩)

/-- The rows after a position go, and the markers that end after it. -/
def deleteMessagesAfter (afterSeq : ℤ) : ThreadRows M :=
  ⟨th.rows.filter (·.seq ≤ afterSeq), th.batches.filter (·.seqTo ≤ afterSeq)⟩

end ThreadRows

/-! ## Histories -/

/-- The threads. -/
abbrev MessageStore (M : Type) := JsString → ThreadRows M

inductive MessageOp (M : Type) where
  | appendMessages (threadId : JsString) (rows : List (MessageAppend M))
  | appendMessagesOnce (threadId : JsString) (rows : List (MessageAppend M)) (key : JsString)
  | deleteMessagesAfter (threadId : JsString) (afterSeq : ℤ)
  | deleteThread (threadId : JsString)

def MessageOp.threadId : MessageOp M → JsString
  | .appendMessages t _ | .appendMessagesOnce t _ _ | .deleteMessagesAfter t _
  | .deleteThread t => t

/-- The thread after an operation on it: what throws is rolled back. -/
def ThreadRows.apply (th : ThreadRows M) : MessageOp M → ThreadRows M
  | .appendMessages _ rows =>
    match th.appendMessages rows with
    | .ok th' => th'
    | .error _ => th
  | .appendMessagesOnce _ rows key =>
    match th.appendMessagesOnce rows key with
    | .ok (_, th') => th'
    | .error _ => th
  | .deleteMessagesAfter _ s => th.deleteMessagesAfter s
  | .deleteThread _ => ⟨[], []⟩

def MessageStore.apply (w : MessageStore M) (op : MessageOp M) : MessageStore M :=
  update w op.threadId ((w op.threadId).apply op)

/-- The store after a history, from the beginning. -/
def messagesAfter (ops : List (MessageOp M)) : MessageStore M :=
  ops.foldl MessageStore.apply fun _ => ⟨[], []⟩

/-- The batch is written by the next operation. -/
def Writes (ops : List (MessageOp M)) (t : JsString) (rows : List (MessageAppend M))
    (key : JsString) : Prop :=
  ∃ th, (messagesAfter ops t).appendMessagesOnce rows key = .ok (true, th)

/-- The batch has a row after the position. -/
def ThreadRows.HasAfter (th : ThreadRows M) (key : JsString) (s : ℤ) : Prop :=
  ∃ r ∈ th.rows, r.batch = some key ∧ s < r.seq

/-- Rows of the batch are removed by the operation. -/
def Removes (w : MessageStore M) (t key : JsString) : MessageOp M → Prop
  | .deleteMessagesAfter t' s => t' = t ∧ (w t).HasAfter key s
  | .deleteThread t' => t' = t
  | _ => False

/-- What is promised of a history. -/
structure BatchesExact (ops : List (MessageOp M)) : Prop where
  /-- The positions of a thread are different. -/
  unique : ∀ t, ((messagesAfter ops t).rows.map (·.seq)).Nodup
  /-- The rows of a batch are written together, or not at all. -/
  together : ∀ pre t rows key, pre ++ [.appendMessagesOnce t rows key] <+: ops →
    ∃ news : List (MessageRow M),
      (messagesAfter (pre ++ [.appendMessagesOnce t rows key]) t).rows =
        (messagesAfter pre t).rows ++ news ∧
      (Writes pre t rows key → news.map (·.message) = rows.map (·.message)) ∧
      (¬Writes pre t rows key → news = [])
  /-- Between two times a batch is written, rows of it are removed. -/
  once : ∀ pre t rows rows' key mid,
    pre ++ .appendMessagesOnce t rows key :: mid ++ [.appendMessagesOnce t rows' key] <+: ops →
    Writes pre t rows key → Writes (pre ++ .appendMessagesOnce t rows key :: mid) t rows' key →
    ∃ mid₁ op mid₂, mid = mid₁ ++ op :: mid₂ ∧
      Removes (messagesAfter (pre ++ .appendMessagesOnce t rows key :: mid₁)) t key op
  /-- A cut removes the marker of a batch exactly if it removes a row of it. -/
  cut : ∀ pre t s, pre ++ [.deleteMessagesAfter t s] <+: ops →
    ∀ b ∈ (messagesAfter pre t).batches,
      b ∉ (messagesAfter (pre ++ [.deleteMessagesAfter t s]) t).batches ↔
        (messagesAfter pre t).HasAfter b.key s

/-- If a batch with its own positions is new, they are different, and free. No batch with
    positions of the store ends at a cut; and one with an empty range has rows after the cut
    exactly if the cut is before that. -/
def Clean (w : MessageStore M) : MessageOp M → Prop
  | .appendMessagesOnce t rows key =>
    (∀ b ∈ (w t).batches, b.key ≠ key) → (∀ a ∈ rows, a.seq.isSome) →
      (rows.filterMap (·.seq)).Nodup ∧
        ∀ seq ∈ rows.filterMap (·.seq), seq ∉ (w t).rows.map (·.seq)
  | .deleteMessagesAfter t s => ∀ b ∈ (w t).batches,
    if b.seqFrom < b.seqTo then b.seqTo ≠ s + 1 else (w t).HasAfter b.key s ↔ s < b.seqTo
  | _ => True

/-- Every operation of the history is clean. -/
def CleanHistory (ops : List (MessageOp M)) : Prop :=
  ∀ pre op, pre ++ [op] <+: ops → Clean (messagesAfter pre) op

/-! ## Inserting -/

section Insert

variable {batch : Option JsString} {rows rows' : List (MessageRow M)}
  {appends : List (MessageAppend M)} {next next' : ℤ}

/-- What is inserted comes to the end, and keeps the positions different. -/
theorem insertAll_ok (h : insertAll batch appends next rows = .ok (rows', next'))
    (hrows : (rows.map (·.seq)).Nodup) :
    (rows'.map (·.seq)).Nodup ∧ ∃ news, rows' = rows ++ news ∧ ∀ r ∈ news, r.batch = batch := by
  induction appends generalizing next rows with
  | nil =>
    obtain ⟨rfl, -⟩ := Prod.mk.inj (Except.ok.inj h)
    exact ⟨hrows, [], (append_nil _).symm, nofun⟩
  | cons a rest ih =>
    -- A free position, whoever has chosen it.
    have hone (seq : ℤ) (next : ℤ) (hfree : ¬rows.any (·.seq = seq))
        (h : insertAll batch rest next (rows ++ [⟨seq, a.message, batch⟩]) = .ok (rows', next')) :
        (rows'.map (·.seq)).Nodup ∧
          ∃ news, rows' = rows ++ news ∧ ∀ r ∈ news, r.batch = batch := by
      have hnew : ((rows ++ [(⟨seq, a.message, batch⟩ : MessageRow M)]).map (·.seq)).Nodup := by
        rw [map_append, map_singleton, nodup_append]
        refine ⟨hrows, nodup_singleton _, fun p hp q hq hpq => hfree ?_⟩
        obtain ⟨r, hr, rfl⟩ := mem_map.1 hp
        rw [mem_singleton] at hq
        exact any_eq_true.2 ⟨r, hr, by simpa [hpq] using hq⟩
      obtain ⟨hnodup, news, rfl, hbatch⟩ := ih h hnew
      refine ⟨hnodup, ⟨seq, a.message, batch⟩ :: news, by simp, fun r hr => ?_⟩
      rcases mem_cons.1 hr with rfl | hr
      · rfl
      · exact hbatch r hr
    obtain ⟨_ | seq, message⟩ := a
    all_goals
      rw [insertAll] at h
      split at h
    · cases h
    · next hfree => exact hone _ _ hfree h
    · exact ih h hrows
    · next hfree => exact hone _ _ hfree h

/-- The rows the store gives positions to, from `next` on. -/
def placed (batch : Option JsString) : List (MessageAppend M) → ℤ → List (MessageRow M)
  | [], _ => []
  | a :: rest, next => ⟨next, a.message, batch⟩ :: placed batch rest (next + 1)

theorem insertAll_assigned (ha : ∀ a ∈ appends, a.seq = none) (hrows : ∀ r ∈ rows, r.seq < next) :
    insertAll batch appends next rows =
      .ok (rows ++ placed batch appends next, next + appends.length) := by
  induction appends generalizing next rows with
  | nil => simp [insertAll, placed, pure, Except.pure]
  | cons a rest ih =>
    obtain ⟨seq, message⟩ := a
    obtain rfl : seq = none := ha _ (.head _)
    have hfree : ¬rows.any (·.seq = next) := by
      rw [any_eq_true]
      rintro ⟨r, hr, hseq⟩
      exact absurd (hrows r hr) (by simpa using (of_decide_eq_true hseq).ge)
    rw [insertAll, if_neg hfree, ih (fun a ha' => ha a (.tail _ ha')), placed]
    · simp only [append_assoc, singleton_append, length_cons, Nat.cast_add,
        Nat.cast_one, Except.ok.injEq, Prod.mk.injEq, true_and]
      omega
    · intro r hr
      rcases mem_append.1 hr with hr | hr
      · exact (hrows r hr).trans (by omega)
      · rw [mem_singleton.1 hr]
        exact lt_add_one next

/-- The rows with their own positions: all of them come in if these are different, and free. -/
theorem insertAll_explicit (ha : ∀ a ∈ appends, a.seq.isSome) :
    ∃ news, insertAll batch appends next rows = .ok (rows ++ news, next) ∧
      ((appends.filterMap (·.seq)).Nodup →
        (∀ seq ∈ appends.filterMap (·.seq), seq ∉ rows.map (·.seq)) →
        news.map (·.message) = appends.map (·.message)) := by
  induction appends generalizing rows with
  | nil => exact ⟨[], by simp [insertAll, pure, Except.pure], fun _ _ => rfl⟩
  | cons a rest ih =>
    obtain ⟨_ | seq, message⟩ := a
    · exact absurd (ha _ (.head _)) Bool.false_ne_true
    have ha' : ∀ a ∈ rest, a.seq.isSome := fun a h => ha a (.tail _ h)
    rw [insertAll]
    split
    · next htaken =>
      -- The position is taken, so it was not free.
      obtain ⟨news, hins, -⟩ := ih ha'
      refine ⟨news, hins, fun _ hfree => absurd ?_ (hfree seq (.head _))⟩
      obtain ⟨r, hr, hseq⟩ := any_eq_true.1 htaken
      exact mem_map.2 ⟨r, hr, of_decide_eq_true hseq⟩
    · obtain ⟨news, hins, hall⟩ := ih ha'
      refine ⟨⟨seq, message, batch⟩ :: news, by rw [hins]; simp, fun hnodup hfree => ?_⟩
      obtain ⟨hnew, hnodup⟩ := nodup_cons.1 hnodup
      rw [map_cons, map_cons, hall hnodup]
      intro p hp hmem
      rw [map_append, mem_append] at hmem
      rcases hmem with hmem | hmem
      · exact hfree p (.tail _ hp) hmem
      · rw [map_singleton, mem_singleton] at hmem
        rw [show p = seq from hmem] at hp
        exact hnew hp

end Insert

/-! ## A thread -/

/-- The positions are different, and the rows of a batch with positions of the store are where
    its marker says. -/
structure ThreadInv (th : ThreadRows M) : Prop where
  unique : (th.rows.map (·.seq)).Nodup
  full : ∀ b ∈ th.batches, ∀ seq, b.seqFrom ≤ seq → seq < b.seqTo →
    ∃ r ∈ th.rows, r.batch = some b.key ∧ r.seq = seq
  below : ∀ b ∈ th.batches, b.seqFrom < b.seqTo → ∀ r ∈ th.rows, r.batch = some b.key →
    r.seq < b.seqTo

section Thread

variable {th : ThreadRows M} {appends : List (MessageAppend M)} {key : JsString} {s : ℤ}

/-- Either the store gives all the positions, or none. -/
theorem assertUniformSeq_ok {assign : Bool} (h : assertUniformSeq appends = .ok assign) :
    if assign then ∀ a ∈ appends, a.seq = none else ∀ a ∈ appends, a.seq.isSome := by
  rw [assertUniformSeq] at h
  split at h
  · cases h
  · next hmixed =>
    obtain rfl := Except.ok.inj h
    split
    · next hzero =>
      intro a ha
      have hnone := countP_eq_zero.1 (of_decide_eq_true hzero) a ha
      rwa [Bool.not_eq_true, Option.isSome_eq_false_iff, Option.isNone_iff_eq_none] at hnone
    · next hzero =>
      rw [decide_eq_true_eq] at hzero
      exact countP_eq_length.1 (not_not.1 fun hne => hmixed ⟨hzero, hne⟩)

theorem lt_tailOf {rows : List (MessageRow M)} {r : MessageRow M} (hr : r ∈ rows) :
    r.seq < tailOf rows := by
  have hmem := mem_map_of_mem (f := fun r : MessageRow M => r.seq) hr
  obtain ⟨top, htop⟩ := Option.ne_none_iff_exists'.1
    (fun hnone => ne_nil_of_mem hmem (max?_eq_none_iff.1 hnone))
  rw [tailOf, htop, Option.getD_some, Int.lt_add_one_iff]
  exact (max?_le_iff htop).1 le_rfl _ hmem

theorem placed_message (batch : Option JsString) (appends : List (MessageAppend M)) (next : ℤ) :
    (placed batch appends next).map (·.message) = appends.map (·.message) := by
  induction appends generalizing next with
  | nil => rfl
  | cons a rest ih => rw [placed, map_cons, map_cons, ih]

theorem mem_placed {batch : Option JsString} {next : ℤ} {r : MessageRow M}
    (h : r ∈ placed batch appends next) : r.batch = batch ∧ r.seq < next + appends.length := by
  induction appends generalizing next with
  | nil => cases h
  | cons a rest ih =>
    rw [length_cons]
    rcases mem_cons.1 h with rfl | h
    · exact ⟨rfl, by push_cast; omega⟩
    · obtain ⟨hb, hlt⟩ := ih h
      exact ⟨hb, by push_cast; omega⟩

theorem exists_placed {batch : Option JsString} {next seq : ℤ} (hle : next ≤ seq)
    (hlt : seq < next + appends.length) :
    ∃ r ∈ placed batch appends next, r.batch = batch ∧ r.seq = seq := by
  induction appends generalizing next with
  | nil =>
    simp at hlt
    omega
  | cons a rest ih =>
    rcases hle.eq_or_lt with rfl | hlt'
    · exact ⟨_, .head _, rfl, rfl⟩
    · rw [length_cons] at hlt
      have hnext : next + 1 ≤ seq := hlt'
      obtain ⟨r, hr, hrest⟩ := ih hnext (by push_cast at hlt; omega)
      exact ⟨r, .tail _ hr, hrest⟩

namespace ThreadInv

/-- Rows of no batch that is marked. -/
theorem extend (h : ThreadInv th) {news : List (MessageRow M)}
    (hunique : ((th.rows ++ news).map (·.seq)).Nodup)
    (hnews : ∀ r ∈ news, ∀ b ∈ th.batches, r.batch ≠ some b.key) :
    ThreadInv ⟨th.rows ++ news, th.batches⟩ where
  unique := hunique
  full b hb seq hle hlt := by
    obtain ⟨r, hr, hrest⟩ := h.full b hb seq hle hlt
    exact ⟨r, mem_append_left _ hr, hrest⟩
  below b hb hne r hr hbatch := by
    rcases mem_append.1 hr with hr | hr
    · exact h.below b hb hne r hr hbatch
    · exact absurd hbatch (hnews r hr b hb)

/-- A marker for rows that are there. -/
theorem mark (h : ThreadInv th) {b : BatchRow}
    (hfull : ∀ seq, b.seqFrom ≤ seq → seq < b.seqTo →
      ∃ r ∈ th.rows, r.batch = some b.key ∧ r.seq = seq)
    (hbelow : b.seqFrom < b.seqTo → ∀ r ∈ th.rows, r.batch = some b.key → r.seq < b.seqTo) :
    ThreadInv ⟨th.rows, th.batches ++ [b]⟩ where
  unique := h.unique
  full c hc := by
    rcases mem_append.1 hc with hc | hc
    · exact h.full c hc
    · rwa [mem_singleton.1 hc]
  below c hc := by
    rcases mem_append.1 hc with hc | hc
    · exact h.below c hc
    · rwa [mem_singleton.1 hc]

theorem appendMessages (h : ThreadInv th) {th' : ThreadRows M}
    (hok : th.appendMessages appends = .ok th') : ThreadInv th' ∧ th'.batches = th.batches := by
  rw [ThreadRows.appendMessages] at hok
  split at hok
  · obtain rfl := Except.ok.inj hok
    exact ⟨h, rfl⟩
  · obtain ⟨assign, -, hok⟩ := bind_eq_ok.1 hok
    obtain ⟨⟨rows, next⟩, hins, hok⟩ := bind_eq_ok.1 hok
    obtain rfl := Except.ok.inj hok
    obtain ⟨hunique, news, rfl, hbatch⟩ := insertAll_ok hins h.unique
    refine ⟨h.extend hunique fun r hr b _ => ?_, rfl⟩
    rw [hbatch r hr]
    exact Option.some_ne_none _ |>.symm

/-- A batch is known, and then nothing happens, or it comes in with its marker. -/
theorem appendMessagesOnce (h : ThreadInv th) {wrote : Bool} {th' : ThreadRows M}
    (hok : th.appendMessagesOnce appends key = .ok (wrote, th')) :
    (wrote = false ∧ th' = th) ∨
      wrote = true ∧ (∀ b ∈ th.batches, b.key ≠ key) ∧ ThreadInv th' ∧
        ∃ news b, th' = ⟨th.rows ++ news, th.batches ++ [b]⟩ ∧ b.key = key ∧
          (((∀ a ∈ appends, a.seq.isSome) → (appends.filterMap (·.seq)).Nodup ∧
            ∀ seq ∈ appends.filterMap (·.seq), seq ∉ th.rows.map (·.seq)) →
          news.map (·.message) = appends.map (·.message)) := by
  obtain ⟨assign, hassign, hok⟩ := bind_eq_ok.1 hok
  have huniform := assertUniformSeq_ok hassign
  split at hok
  · obtain ⟨rfl, rfl⟩ := Prod.mk.inj (Except.ok.inj hok)
    exact .inl ⟨rfl, rfl⟩
  next hnone =>
  have hkey : ∀ b ∈ th.batches, b.key ≠ key := fun b hb heq =>
    hnone (any_eq_true.2 ⟨b, hb, decide_eq_true heq⟩)
  obtain ⟨⟨rows, seqTo⟩, hins, hok⟩ := bind_eq_ok.1 hok
  obtain ⟨rfl, rfl⟩ := Prod.mk.inj (Except.ok.inj hok)
  obtain ⟨hunique, news, rfl, hbatch⟩ := insertAll_ok hins h.unique
  have hext : ThreadInv ⟨th.rows ++ news, th.batches⟩ := by
    refine h.extend hunique fun r hr b hb heq => hkey b hb ?_
    exact (Option.some.inj ((hbatch r hr).symm.trans heq)).symm
  obtain _ | _ := assign
  · -- Its own positions: the range of the marker is empty.
    obtain ⟨news', hins', hall⟩ := insertAll_explicit huniform
    obtain ⟨hnews, rfl⟩ := Prod.mk.inj (Except.ok.inj (hins.symm.trans hins'))
    obtain rfl := append_cancel_left hnews
    refine .inr ⟨rfl, hkey, ?_, news, _, rfl, rfl, fun hclean => ?_⟩
    · exact hext.mark (fun seq hle hlt => absurd hlt hle.not_gt) fun hlt => absurd hlt (lt_irrefl _)
    · obtain ⟨hnodup, hfree⟩ := hclean huniform
      exact hall hnodup hfree
  · -- Positions of the store: the range is what the rows have.
    have htail : ∀ r ∈ th.rows, r.seq < tailOf th.rows := fun r hr => lt_tailOf hr
    have hins' : insertAll (some key) appends (tailOf th.rows) th.rows = .ok (_, _) :=
      insertAll_assigned huniform htail
    obtain ⟨hnews, rfl⟩ := Prod.mk.inj (Except.ok.inj (hins.symm.trans hins'))
    obtain rfl := append_cancel_left hnews
    refine .inr ⟨rfl, hkey, hext.mark ?_ ?_, _, _, rfl, rfl, fun _ => placed_message ..⟩
    · intro seq hle hlt
      obtain ⟨r, hr, hrest⟩ := exists_placed hle hlt
      exact ⟨r, mem_append_right _ hr, hrest⟩
    · intro hlt r hr _
      rcases mem_append.1 hr with hr | hr
      · exact (lt_tailOf hr).trans hlt
      · exact (mem_placed hr).2

theorem deleteMessagesAfter (h : ThreadInv th) : ThreadInv (th.deleteMessagesAfter s) where
  unique := h.unique.sublist (filter_sublist.map _)
  full b hb seq hle hlt := by
    obtain ⟨hb, hs⟩ := mem_filter.1 hb
    obtain ⟨r, hr, hbatch, rfl⟩ := h.full b hb seq hle hlt
    refine ⟨r, mem_filter.2 ⟨hr, decide_eq_true ?_⟩, hbatch, rfl⟩
    exact hlt.le.trans (of_decide_eq_true hs)
  below b hb hne r hr :=
    h.below b (mem_of_mem_filter hb) hne r (mem_of_mem_filter hr)

/-- A clean cut: the marker goes exactly if a row of the batch does. -/
theorem cut (h : ThreadInv th) {b : BatchRow} (hb : b ∈ th.batches)
    (hclean : if b.seqFrom < b.seqTo then b.seqTo ≠ s + 1 else th.HasAfter b.key s ↔ s < b.seqTo) :
    b ∉ (th.deleteMessagesAfter s).batches ↔ th.HasAfter b.key s := by
  have hgone : b ∉ (th.deleteMessagesAfter s).batches ↔ s < b.seqTo := by
    rw [ThreadRows.deleteMessagesAfter, mem_filter, decide_eq_true_eq, not_and, not_le]
    exact ⟨fun h => h hb, fun h _ => h⟩
  rw [hgone]
  split at hclean
  · next hne =>
    refine ⟨fun hlt => ?_, ?_⟩
    · -- The last row of the batch is after the cut.
      obtain ⟨r, hr, hbatch, hseq⟩ := h.full b hb (b.seqTo - 1) (by omega) (by omega)
      exact ⟨r, hr, hbatch, by omega⟩
    · rintro ⟨r, hr, hbatch, hlt⟩
      exact hlt.trans (h.below b hb hne r hr hbatch)
  · exact hclean.symm

end ThreadInv

end Thread

/-! ## All histories -/

section History

variable {w : MessageStore M} {pre mid ops : List (MessageOp M)} {op : MessageOp M}
  {t key : JsString} {rows : List (MessageAppend M)}

theorem messagesAfter_snoc (pre : List (MessageOp M)) (op : MessageOp M) :
    messagesAfter (pre ++ [op]) = (messagesAfter pre).apply op := by
  rw [messagesAfter, foldl_append]
  rfl

theorem ThreadInv.apply {th : ThreadRows M} (h : ThreadInv th) (op : MessageOp M) :
    ThreadInv (th.apply op) := by
  cases op with
  | appendMessages t rows =>
    rw [ThreadRows.apply]
    split
    · next hok => exact (h.appendMessages hok).1
    · exact h
  | appendMessagesOnce t rows key =>
    rw [ThreadRows.apply]
    split
    · next hok =>
      rcases h.appendMessagesOnce hok with ⟨-, rfl⟩ | ⟨-, -, hinv, -⟩
      · exact h
      · exact hinv
    · exact h
  | deleteMessagesAfter t s => exact h.deleteMessagesAfter
  | deleteThread t => exact ⟨nodup_nil, nofun, nofun⟩

theorem messagesAfter_inv (ops : List (MessageOp M)) (t : JsString) :
    ThreadInv (messagesAfter ops t) := by
  induction ops using List.reverseRecOn generalizing t with
  | nil => exact ⟨nodup_nil, nofun, nofun⟩
  | append_singleton pre op ih =>
    rw [messagesAfter_snoc, MessageStore.apply]
    rcases eq_or_ne t op.threadId with rfl | hne
    · rw [update_self]
      exact (ih _).apply op
    · rw [update_of_ne hne]
      exact ih t

theorem cleanHistory_nil : CleanHistory ([] : List (MessageOp M)) := by
  intro pre op hpre
  exact absurd (prefix_nil.1 hpre) (by simp)

theorem cleanHistory_snoc :
    CleanHistory (pre ++ [op]) ↔ CleanHistory pre ∧ Clean (messagesAfter pre) op := by
  constructor
  · intro h
    exact ⟨fun p o hp => h p o (hp.trans (prefix_append _ _)), h pre op (prefix_refl _)⟩
  · rintro ⟨hpre, hop⟩ p o hp
    rcases prefix_concat_iff.1 hp with heq | hp
    · obtain ⟨rfl, rfl⟩ := append_inj' heq rfl |>.imp_right (List.cons.inj · |>.1)
      exact hop
    · exact hpre p o hp

/-- A marker stays, unless rows of the batch are removed. -/
theorem marker_step (h : ThreadInv (w t)) (hclean : Clean w op)
    (hb : ∃ b ∈ (w t).batches, b.key = key) :
    (∃ b ∈ (w.apply op t).batches, b.key = key) ∨ Removes w t key op := by
  obtain ⟨b, hb, rfl⟩ := hb
  rw [MessageStore.apply]
  rcases eq_or_ne t op.threadId with rfl | hne
  · rw [update_self]
    cases op with
    | appendMessages t rows =>
      rw [ThreadRows.apply]
      split
      · next hok => exact .inl ⟨b, (h.appendMessages hok).2 ▸ hb, rfl⟩
      · exact .inl ⟨b, hb, rfl⟩
    | appendMessagesOnce t rows key =>
      rw [ThreadRows.apply]
      split
      · next hok =>
        rcases h.appendMessagesOnce hok with ⟨-, rfl⟩ | ⟨-, -, -, news, m, rfl, -⟩
        · exact .inl ⟨b, hb, rfl⟩
        · exact .inl ⟨b, mem_append_left _ hb, rfl⟩
      · exact .inl ⟨b, hb, rfl⟩
    | deleteMessagesAfter t s =>
      -- A clean cut: the marker stays, or rows go with it.
      by_cases hgone : (w t).HasAfter b.key s
      · exact .inr ⟨rfl, hgone⟩
      · exact .inl ⟨b, not_not.1 (mt (h.cut hb (hclean b hb)).1 hgone), rfl⟩
    | deleteThread t => exact .inr rfl
  · rw [update_of_ne hne]
    exact .inl ⟨b, hb, rfl⟩

/-- From a state with the marker on. -/
theorem marker_run (hclean : CleanHistory (pre ++ mid))
    (hb : ∃ b ∈ (messagesAfter pre t).batches, b.key = key) :
    (∃ b ∈ (messagesAfter (pre ++ mid) t).batches, b.key = key) ∨
      ∃ mid₁ op mid₂, mid = mid₁ ++ op :: mid₂ ∧
        Removes (messagesAfter (pre ++ mid₁)) t key op := by
  induction mid using List.reverseRecOn with
  | nil => exact .inl (by rwa [append_nil])
  | append_singleton mid op ih =>
    rw [← append_assoc] at hclean ⊢
    obtain ⟨hmid, hop⟩ := cleanHistory_snoc.1 hclean
    rcases ih hmid with hb | ⟨mid₁, op', mid₂, rfl, hrem⟩
    · rw [messagesAfter_snoc]
      rcases marker_step (messagesAfter_inv _ t) hop hb with hb | hrem
      · exact .inl hb
      · exact .inr ⟨mid, op, [], rfl, hrem⟩
    · exact .inr ⟨mid₁, op', mid₂ ++ [op], by simp, hrem⟩

/-- In a history of clean operations, batches are written exactly once, and their markers
    follow their rows. -/
theorem batches_exact (ops : List (MessageOp M)) (h : CleanHistory ops) : BatchesExact ops where
  unique t := (messagesAfter_inv ops t).unique
  together pre t rows key hpre := by
    have hclean := h pre _ hpre
    have hinv := messagesAfter_inv pre t
    rw [messagesAfter_snoc, MessageStore.apply, MessageOp.threadId, update_self,
      ThreadRows.apply]
    split
    · next wrote th hok =>
      rcases hinv.appendMessagesOnce hok with ⟨rfl, rfl⟩ | ⟨rfl, hkey, -, news, b, rfl, -, hall⟩
      · refine ⟨[], (append_nil _).symm, ?_, fun _ => rfl⟩
        rintro ⟨th, hwrites⟩
        exact absurd (hok.symm.trans hwrites) (by simp)
      · exact ⟨news, rfl, fun _ => hall (hclean hkey), fun hno => absurd ⟨_, hok⟩ hno⟩
    · next e hok =>
      refine ⟨[], (append_nil _).symm, ?_, fun _ => rfl⟩
      rintro ⟨th, hwrites⟩
      exact absurd (hok.symm.trans hwrites) (by simp)
  once pre t rows rows' key mid hpre := by
    rintro ⟨th, hfirst⟩ ⟨th', hsecond⟩
    have hmark : ∃ b ∈ (messagesAfter (pre ++ [.appendMessagesOnce t rows key]) t).batches,
        b.key = key := by
      rw [messagesAfter_snoc, MessageStore.apply, MessageOp.threadId, update_self,
        ThreadRows.apply, hfirst]
      rcases (messagesAfter_inv pre t).appendMessagesOnce hfirst with
        ⟨hfalse, -⟩ | ⟨-, -, -, news, b, rfl, hkey, -⟩
      · exact absurd hfalse Bool.noConfusion
      · exact ⟨b, by simp, hkey⟩
    have hsplit (mid : List (MessageOp M)) : pre ++ .appendMessagesOnce t rows key :: mid =
        (pre ++ [.appendMessagesOnce t rows key]) ++ mid := by simp
    have hclean : CleanHistory ((pre ++ [.appendMessagesOnce t rows key]) ++ mid) := by
      intro p o hp
      rw [← hsplit] at hp
      exact h p o (hp.trans ((prefix_append _ _).trans hpre))
    rcases marker_run hclean hmark with ⟨b, hb, hkey⟩ | ⟨mid₁, op, mid₂, rfl, hrem⟩
    · rw [← hsplit] at hb
      rcases (messagesAfter_inv _ t).appendMessagesOnce hsecond with ⟨hfalse, -⟩ | ⟨-, hnew, -⟩
      · exact absurd hfalse Bool.noConfusion
      · exact absurd hkey (hnew b hb)
    · exact ⟨mid₁, op, mid₂, rfl, by rwa [hsplit]⟩
  cut pre t s hpre b hb := by
    rw [messagesAfter_snoc, MessageStore.apply, MessageOp.threadId, update_self]
    exact (messagesAfter_inv pre t).cut hb (h pre _ hpre b hb)

end History

/-- A batch, a cut of its thread, and the batch again. -/
def batchCutBatch (s : ℤ) : List (MessageOp ℕ) :=
  [.appendMessagesOnce (js "t") [⟨none, 0⟩, ⟨none, 1⟩] (js "k"), .deleteMessagesAfter (js "t") s,
    .appendMessagesOnce (js "t") [⟨none, 0⟩, ⟨none, 1⟩] (js "k")]

/-- The second of two rows is cut off, and the batch is written again. -/
theorem batches_exact_cut :
    CleanHistory (batchCutBatch 0) ∧ BatchesExact (batchCutBatch 0) ∧
      (messagesAfter (batchCutBatch 0) (js "t")).rows.map (·.message) = [0, 0, 1] := by
  have happend (w : MessageStore ℕ) : Clean w
      (.appendMessagesOnce (js "t") [⟨none, 0⟩, ⟨none, 1⟩] (js "k")) :=
    fun _ hsome => absurd (hsome ⟨none, 0⟩ (.head _)) Bool.false_ne_true
  have hcut : Clean (messagesAfter [.appendMessagesOnce (js "t") [⟨none, 0⟩, ⟨none, 1⟩] (js "k")])
      (.deleteMessagesAfter (js "t") 0) := by
    intro b hb
    obtain rfl : b = ⟨js "k", 0, 2⟩ := mem_singleton.1 hb
    rw [if_pos (by decide)]
    decide
  have hfirst := cleanHistory_snoc.2 ⟨cleanHistory_nil, happend _⟩
  have hclean : CleanHistory (batchCutBatch 0) :=
    cleanHistory_snoc.2 ⟨cleanHistory_snoc.2 ⟨hfirst, hcut⟩, happend _⟩
  exact ⟨hclean, batches_exact _ hclean, by decide⟩

/-- The cut is after the batch: its rows stay, and the batch is written again. -/
theorem batch_written_twice :
    ¬BatchesExact (batchCutBatch 1) ∧
      (messagesAfter (batchCutBatch 1) (js "t")).rows.map (·.message) = [0, 1, 0, 1] := by
  refine ⟨fun h => ?_, by decide⟩
  have hcut := h.cut ((batchCutBatch 1).take 1) (js "t") 1 ⟨(batchCutBatch 1).drop 2, rfl⟩
    ⟨js "k", 0, 2⟩ (by decide)
  obtain ⟨r, hr, -, hlt⟩ := hcut.1 (by decide)
  have hrows : ∀ p ∈ (messagesAfter ((batchCutBatch 1).take 1) (js "t")).rows.map (·.seq),
      p ≤ 1 := by
    decide
  exact absurd (hrows _ (mem_map_of_mem hr)) hlt.not_ge

end Gnldev.Durable
