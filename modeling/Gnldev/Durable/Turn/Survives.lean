import Gnldev.Durable.Turn.Span
import Gnldev.Durable.RunId

/-!
# The turn after the processors

What is stored of a turn is a part of what the processors return (`stored_part`). It should have no
message of the history and every message of the turn that is still there, or the turn is reported as
lost.

Whether that is so depends on where a processor puts what it passes on. If the count and the roles
stay, nothing is looked at, so that every message must stay on its side. Else the messages of the
history must come before those of the turn (`Ordered`), or the mixture is refused (`Refused`). Then
the span stays right across every processor (`TrackInv.step`), and so to the end (`turn_survives`).
-/

open List

namespace Gnldev.Durable

section Survives

variable {Msg : Type} [DecidableEq Msg] (S : TurnSetting Msg) (role : Msg → Option JsString)
  (H T : List Msg)

/-! ## Steps that keep the sides -/

/-- All messages of the history stand before the index. -/
def HistoryBefore (msgs : List Msg) (start : ℕ) : Prop :=
  ∀ (k : ℕ) (m : Msg), msgs[k]? = some m → m ∈ H → k < start

/-- The messages of the turn that are still there stand in the span, once at least. -/
def TurnInside (msgs : List Msg) (start stop : ℕ) : Prop :=
  ∀ m ∈ T, m ∈ msgs → ∃ k : ℕ, start ≤ k ∧ k < stop ∧ msgs[k]? = some m

/-- The layout is another one, and the history comes before the turn. -/
structure Ordered (before after : List Msg) (span : IncomingSpan) : Prop where
  /-- No message of the history is there twice. -/
  once : ∀ (k k' : ℕ) (m : Msg), after[k]? = some m → after[k']? = some m → m ∈ H → k = k'
  /-- If messages of the turn are there, the last one in front of the turn is before them. -/
  front : ∀ f h, firstCaller before after span = some f → histFloor before after span = some h → h ≤ f
  history : ∀ f, firstCaller before after span = some f → HistoryBefore H after f
  /-- And no message of the turn stands only behind its last one, where that is far enough. -/
  last : ∀ f p m, firstCaller before after span = some f → before[span.stop - 1]? = some m →
    (lastIndexByIdentity after m f).or (lastIndexByShape S after (S.stringify m) f) = some p →
    span.stop - span.start ≤ p + 1 - f → TurnInside T after 0 (p + 1)
  /-- If none is there, no message of the history is behind the last one in front of the turn. -/
  gone : firstCaller before after span = none →
    HistoryBefore H after ((histFloor before after span).getD 0)

/-- A message of the turn stands before one that was in front of it, and fewer than the turn had are
    behind: it is seen that the turn is mixed with the history. -/
def Refused (before after : List Msg) (span : IncomingSpan) : Prop :=
  ∃ f h, firstCaller before after span = some f ∧ histFloor before after span = some h ∧ f < h ∧
    h < after.length ∧ after.length - h < span.stop - span.start ∧
    (after.length ≠ before.length ∨ span.start < h)

/-- A processor keeps the history and the turn apart, or its mixture is refused. -/
def KeepsApart (before after : List Msg) (span : IncomingSpan) : Prop :=
  ¬sameLayout role before after ∧ Refused before after span ∨
    (∀ m ∈ after, m ∈ H ∨ m ∈ T → m ∈ before) ∧
      (sameLayout role before after → HistoryBefore H after span.start ∧
        TurnInside T after span.start span.stop) ∧
      (¬sameLayout role before after → Ordered S H T before after span)

/-- Every processor does, as long as the span is known. -/
def AllKeepApart (messages : List Msg) (tracked : Tracked) : List (List Msg → List Msg) → Prop
  | [] => True
  | p :: processors =>
    (∀ span, tracked = .span span → KeepsApart S role H T messages (p messages) span) ∧
      AllKeepApart (p messages) (trackIncomingSpan S role messages (p messages) tracked) processors

/-! ## The span stays right -/

/-- The span is in the array, the history before it, the turn in it. -/
structure SpanInv (msgs : List Msg) (span : IncomingSpan) : Prop where
  start_le : span.start ≤ span.stop
  stop_le : span.stop ≤ msgs.length
  history : HistoryBefore H msgs span.start
  turn : TurnInside T msgs span.start span.stop

/-- So is the span that is known. -/
def TrackInv (msgs : List Msg) (tracked : Tracked) : Prop :=
  ∀ span, tracked = .span span → SpanInv H T msgs span

variable {S role H T} {before after msgs : List Msg} {span : IncomingSpan} {m : Msg} {start k f h : ℕ}

theorem indexOf_eq_some (h : indexOf msgs m = some k) :
    msgs[k]? = some m ∧ ∀ j, msgs[j]? = some m → k ≤ j := by
  obtain ⟨hk, heq, hfirst⟩ := findIdx?_eq_some_iff_getElem.1 h
  refine ⟨List.getElem?_eq_some_iff.2 ⟨hk, of_decide_eq_true heq⟩, fun j hj => ?_⟩
  by_contra hlt
  obtain ⟨hj, rfl⟩ := List.getElem?_eq_some_iff.1 hj
  exact hfirst j (not_le.1 hlt) (decide_eq_true rfl)

theorem exists_indexOf (h : m ∈ msgs) : ∃ k, indexOf msgs m = some k := by
  refine Option.isSome_iff_exists.1 (findIdx?_isSome.trans ?_)
  exact any_eq_true.2 ⟨m, h, decide_eq_true rfl⟩

omit [DecidableEq Msg] in
theorem lastIndexWhere_eq_some {p : Msg → Bool} (h : lastIndexWhere p msgs start = some k) :
    start ≤ k ∧ k < msgs.length := by
  obtain ⟨hk, hp⟩ := mem_filter.1 (mem_of_getLast? h)
  exact ⟨(of_decide_eq_true hp).1, mem_range.1 hk⟩

omit [DecidableEq Msg] in
theorem mem_turnRows (h : before[k]? = some m) (hstart : span.start ≤ k) (hstop : k < span.stop) :
    m ∈ turnRows before span := by
  refine mem_iff_getElem?.2 ⟨k - span.start, ?_⟩
  rw [turnRows, getElem?_drop, Nat.add_sub_cancel' hstart, getElem?_take_of_lt hstop, h]

omit [DecidableEq Msg] in
theorem mem_frontRows (h : before[k]? = some m) (hstart : k < span.start) :
    m ∈ frontRows before span :=
  mem_iff_getElem?.2 ⟨k, by rw [frontRows, getElem?_take_of_lt hstart, h]⟩

/-! ## Where the ladders lead -/

/-- The first message of the turn that is still there is in the array, and none is before it. -/
theorem firstCaller_eq_some (hf : firstCaller before after span = some f) :
    f < after.length ∧ (∃ m ∈ turnRows before span, indexOf after m = some f) ∧
      ∀ m ∈ turnRows before span, ∀ k, indexOf after m = some k → f ≤ k := by
  rw [firstCaller, min?_eq_some_iff] at hf
  obtain ⟨hmem, hmin⟩ := hf
  obtain ⟨m, hm, hk⟩ := mem_filterMap.1 hmem
  have hlt := (List.getElem?_eq_some_iff.1 (indexOf_eq_some hk).1).1
  refine ⟨hlt, ⟨m, hm, hk⟩, fun m' hm' k' hk' => ?_⟩
  exact hmin k' (mem_filterMap.2 ⟨m', hm', hk'⟩)

theorem firstCaller_eq_none (hf : firstCaller before after span = none)
    (hm : m ∈ turnRows before span) : m ∉ after := by
  intro hafter
  obtain ⟨k, hk⟩ := exists_indexOf hafter
  rw [firstCaller, min?_eq_none_iff] at hf
  exact ne_nil_of_mem (mem_filterMap.2 ⟨m, hm, hk⟩) hf

/-- The floor is one past a message that was in front of the turn. -/
theorem histFloor_eq_some (hh : histFloor before after span = some h) :
    ∃ m ∈ frontRows before span, ∃ k, indexOf after m = some k ∧ h = k + 1 := by
  obtain ⟨k, hk, rfl⟩ := Option.map_eq_some_iff.1 hh
  obtain ⟨m, hm, hk⟩ := exists_of_findSome?_eq_some hk
  exact ⟨m, mem_reverse.1 hm, k, hk, rfl⟩

theorem histFloor_le (hh : histFloor before after span = some h) : h ≤ after.length := by
  obtain ⟨m, -, k, hk, rfl⟩ := histFloor_eq_some hh
  exact (List.getElem?_eq_some_iff.1 (indexOf_eq_some hk).1).1

/-- The start is in the array. -/
theorem trackIncomingBoundary_le (hlayout : ¬sameLayout role before after)
    (hs : trackIncomingBoundary S role before after span = some start) : start ≤ after.length := by
  rw [trackIncomingBoundary, if_neg hlayout] at hs
  rcases hf : firstCaller before after span with _ | f <;>
    rcases hh : histFloor before after span with _ | h <;> simp only [hf, hh] at hs
  · split at hs
    · exact Option.some.inj hs ▸ Nat.zero_le _
    · split at hs
      · next hat =>
        obtain ⟨m, -, hm⟩ := Option.bind_eq_some_iff.1 hat
        obtain rfl := Option.some.inj hs
        exact (lastIndexWhere_eq_some hm).2.le
      · obtain ⟨k, hk, rfl⟩ := Option.map_eq_some_iff.1 hs
        obtain ⟨m, -, hm⟩ := exists_of_findSome?_eq_some hk
        exact (lastIndexWhere_eq_some hm).2
  · exact Option.some.inj hs ▸ histFloor_le hh
  · exact Option.some.inj hs ▸ (firstCaller_eq_some hf).1.le
  · exact Option.some.inj hs ▸ max_le (firstCaller_eq_some hf).1.le (histFloor_le hh)

/-- The end is the end of the array, or one past the last message of the turn, where that is far
    enough. -/
theorem trackTurnEnd_cases (S : TurnSetting Msg) (span : IncomingSpan) (start : ℕ)
    (hlayout : ¬sameLayout role before after) :
    trackTurnEnd S role before after span start = after.length ∨
      ∃ m k, before[span.stop - 1]? = some m ∧
        (lastIndexByIdentity after m start).or (lastIndexByShape S after (S.stringify m) start) =
          some k ∧
        span.stop - span.start ≤ k + 1 - start ∧ start ≤ k ∧ k < after.length ∧
        trackTurnEnd S role before after span start = k + 1 := by
  rw [trackTurnEnd, if_neg hlayout]
  split
  · exact .inl rfl
  next m hm =>
  split
  · exact .inl rfl
  next k hk =>
  have hin : start ≤ k ∧ k < after.length :=
    (Option.or_eq_some_iff.1 hk).elim lastIndexWhere_eq_some fun hk => lastIndexWhere_eq_some hk.2
  split
  · exact .inl rfl
  · refine .inr ⟨m, k, ?_, hk, by omega, hin.1, hin.2, rfl⟩
    split at hm
    · exact absurd hm nofun
    · exact hm

/-! ## One processor -/

omit [DecidableEq Msg] in
/-- A message of the turn that is still there was one of the turn's rows before. -/
theorem SpanInv.mem_turnRows (hinv : SpanInv H T before span) (hm : m ∈ T) (hbefore : m ∈ before) :
    m ∈ turnRows before span := by
  obtain ⟨k, hstart, hstop, hk⟩ := hinv.turn m hm hbefore
  exact Gnldev.Durable.mem_turnRows hk hstart hstop

omit [DecidableEq Msg] in
/-- And one of the history was in front of it. -/
theorem SpanInv.mem_frontRows (hinv : SpanInv H T before span) (hm : m ∈ H) (hbefore : m ∈ before) :
    m ∈ frontRows before span := by
  obtain ⟨k, hk⟩ := mem_iff_getElem?.1 hbefore
  exact Gnldev.Durable.mem_frontRows hk (hinv.history k m hk hm)

/-- If nothing of what was in front is seen behind the old start, the history is before it. -/
theorem historyBefore_of_not_inside (hinv : SpanInv H T before span)
    (hkeep : ∀ m ∈ after, m ∈ H ∨ m ∈ T → m ∈ before)
    (honce : ∀ (k k' : ℕ) (m : Msg), after[k]? = some m → after[k']? = some m → m ∈ H → k = k')
    (hout : historyInside before after span = false) : HistoryBefore H after span.start := by
  intro k m hk hm
  have hafter : m ∈ after := mem_of_getElem? hk
  obtain ⟨j, hj⟩ := exists_indexOf hafter
  have hlt := any_eq_false.1 hout m (hinv.mem_frontRows hm (hkeep m hafter (.inl hm)))
  rw [hj, Option.any_some, decide_eq_true_eq, not_le] at hlt
  rwa [honce k j m hk (indexOf_eq_some hj).1 hm]

/-- A turn whose rows are all at the start or behind it is in the span: its end is far enough. -/
theorem turnInside_trackTurnEnd (hinv : SpanInv H T before span)
    (hlayout : ¬sameLayout role before after)
    (hkeep : ∀ m ∈ after, m ∈ H ∨ m ∈ T → m ∈ before)
    (hfirst : ∀ m ∈ turnRows before span, ∀ k, indexOf after m = some k → start ≤ k)
    (hlast : ∀ p m, before[span.stop - 1]? = some m →
      (lastIndexByIdentity after m start).or (lastIndexByShape S after (S.stringify m) start) =
        some p → span.stop - span.start ≤ p + 1 - start → TurnInside T after 0 (p + 1)) :
    TurnInside T after start (trackTurnEnd S role before after span start) := by
  intro m hm hafter
  obtain ⟨j, hj⟩ := exists_indexOf hafter
  have hle := hfirst m (hinv.mem_turnRows hm (hkeep m hafter (.inr hm))) j hj
  obtain ⟨hat, hmin⟩ := indexOf_eq_some hj
  refine ⟨j, hle, ?_, hat⟩
  obtain heq | ⟨l, p, hl, hp, hwidth, -, -, heq⟩ := trackTurnEnd_cases S span start hlayout
  · exact heq ▸ (List.getElem?_eq_some_iff.1 hat).1
  · obtain ⟨k, -, hk, hkm⟩ := hlast p l hl hp hwidth m hm hafter
    exact heq ▸ (hmin k hkm).trans_lt hk

variable {tracked : Tracked}

/-- The span that is taken is right if the one that is found is, and the one it falls back on. -/
theorem trackInv_of_boundary (hlayout : ¬sameLayout role before after)
    (hs : trackIncomingBoundary S role before after span = some start)
    (hfound : HistoryBefore H after start ∧
      TurnInside T after start (trackTurnEnd S role before after span start))
    (hback : after.length = before.length → span.start < start →
      historyInside before after span = false → SpanInv H T after ⟨span.start, after.length⟩)
    (ht : trackIncomingSpan S role before after (.span span) = tracked) :
    TrackInv H T after tracked := by
  have hle := trackIncomingBoundary_le hlayout hs
  obtain ⟨hstop, hin⟩ : (trackTurnEnd S role before after span start = after.length ∨
      span.stop - span.start ≤ trackTurnEnd S role before after span start - start) ∧
      start ≤ trackTurnEnd S role before after span start ∧
      trackTurnEnd S role before after span start ≤ after.length := by
    obtain heq | ⟨l, p, -, -, hwidth, hsp, hp, heq⟩ := trackTurnEnd_cases S span start hlayout
    · exact ⟨.inl heq, heq ▸ hle, heq.le⟩
    · exact ⟨.inr (heq ▸ hwidth), by omega, by omega⟩
  have hinv : SpanInv H T after ⟨start, trackTurnEnd S role before after span start⟩ :=
    ⟨hin.1, hin.2, hfound.1, hfound.2⟩
  intro s hts
  simp only [trackIncomingSpan, hs] at ht
  split at ht
  · exact Tracked.span.inj (ht.trans hts) ▸ hinv
  next hnarrow =>
  split at ht
  · exact Tracked.span.inj (ht.trans hts) ▸ hinv
  split at ht
  · next hfall =>
    refine Tracked.span.inj (ht.trans hts) ▸ hback hfall.1 ?_ (by simpa using hfall.2.2)
    omega
  · exact absurd (ht.trans hts) nofun

/-- Without a message of the turn there is nothing to be inside. -/
theorem turnInside_of_gone (hinv : SpanInv H T before span)
    (hkeep : ∀ m ∈ after, m ∈ H ∨ m ∈ T → m ∈ before) (hf : firstCaller before after span = none)
    (stop : ℕ) : TurnInside T after start stop := fun m hm hafter =>
  absurd hafter (firstCaller_eq_none hf (hinv.mem_turnRows hm (hkeep m hafter (.inr hm))))

/-- A processor that puts the history before the turn. -/
theorem TrackInv.ordered (hinv : SpanInv H T before span) (hlayout : ¬sameLayout role before after)
    (hkeep : ∀ m ∈ after, m ∈ H ∨ m ∈ T → m ∈ before) (hord : Ordered S H T before after span) :
    TrackInv H T after (trackIncomingSpan S role before after (.span span)) := by
  have hstart : span.start ≤ before.length := hinv.start_le.trans hinv.stop_le
  rcases hf : firstCaller before after span with _ | f
  · -- Nothing of the turn is left, so only the history is to be kept out.
    have hgone : TurnInside T after span.start after.length := turnInside_of_gone hinv hkeep hf _
    rcases hs : trackIncomingBoundary S role before after span with _ | start
    · intro s hts
      simp only [trackIncomingSpan, hs] at hts
      exact absurd hts nofun
    refine trackInv_of_boundary hlayout hs ⟨?_, turnInside_of_gone hinv hkeep hf _⟩ ?_ rfl
    · rcases hh : histFloor before after span with _ | h
      · intro k m hk hm
        exact absurd (hord.gone hf k m hk hm) (by simp [hh])
      · rw [trackIncomingBoundary, if_neg hlayout] at hs
        simp only [hf, hh, Option.some.injEq] at hs
        have := hord.gone hf
        rwa [hh, Option.getD_some, hs] at this
    · intro hlen _ hout
      have hhistory := historyBefore_of_not_inside hinv hkeep hord.once hout
      exact ⟨hlen ▸ hstart, le_rfl, hhistory, hgone⟩
  · -- The earliest message of the turn is the start; the floor of the history is not above it.
    have hs : trackIncomingBoundary S role before after span = some f := by
      rw [trackIncomingBoundary, if_neg hlayout, hf]
      rcases hh : histFloor before after span with _ | h
      · rfl
      · exact congrArg some (max_eq_left (hord.front f h hf hh))
    have hfirst := (firstCaller_eq_some hf).2.2
    refine trackInv_of_boundary hlayout hs ⟨hord.history f hf, ?_⟩ ?_ rfl
    · exact turnInside_trackTurnEnd hinv hlayout hkeep hfirst fun p m hm hp =>
        hord.last f p m hf hm hp
    · intro hlen hlt hout
      have hhistory := historyBefore_of_not_inside hinv hkeep hord.once hout
      refine ⟨hlen ▸ hstart, le_rfl, hhistory, fun m hm hafter => ?_⟩
      obtain ⟨j, hj⟩ := exists_indexOf hafter
      obtain ⟨hat, -⟩ := indexOf_eq_some hj
      have hle := hfirst m (hinv.mem_turnRows hm (hkeep m hafter (.inr hm))) j hj
      exact ⟨j, hlt.le.trans hle, (List.getElem?_eq_some_iff.1 hat).1, hat⟩

/-- A mixture that is seen is reported. -/
theorem trackIncomingSpan_refused (hlayout : ¬sameLayout role before after)
    (href : Refused before after span) :
    trackIncomingSpan S role before after (.span span) = .boundaryLost := by
  obtain ⟨f, h, hf, hh, hfh, hlt, hwidth, hback⟩ := href
  have hs : trackIncomingBoundary S role before after span = some h := by
    rw [trackIncomingBoundary, if_neg hlayout, hf, hh]
    exact congrArg some (max_eq_right hfh.le)
  -- Too few messages are behind the start for the end to be found among them.
  have hstop : trackTurnEnd S role before after span h = after.length := by
    obtain heq | ⟨m, k, -, -, hle, -, hk, -⟩ := trackTurnEnd_cases S span h hlayout
    · exact heq
    · omega
  have hout : callerRowOutsideSpan S before after span h after.length = true := by
    obtain ⟨m, hm, hk⟩ := (firstCaller_eq_some hf).2.1
    refine any_eq_true.2 ⟨m, hm, ?_⟩
    simp [rowOutsideSpan, hk, hfh]
  have hinside : after.length = before.length → historyInside before after span = true := by
    intro hlen
    obtain ⟨m, hm, k, hk, rfl⟩ := histFloor_eq_some hh
    refine any_eq_true.2 ⟨m, hm, ?_⟩
    rw [hk, Option.any_some, decide_eq_true_eq]
    exact Nat.le_of_lt_succ (hback.resolve_left (not_not_intro hlen))
  simp only [trackIncomingSpan, hs, hstop, hout]
  rw [if_neg (by omega), if_neg (by simp), if_neg fun hall => ?_]
  simp [hinside hall.1] at hall

/-- The span stays right across a processor. -/
theorem TrackInv.step (hinv : TrackInv H T before tracked)
    (hkeep : ∀ span, tracked = .span span → KeepsApart S role H T before after span) :
    TrackInv H T after (trackIncomingSpan S role before after tracked) := by
  match tracked with
  | .boundaryLost => exact nofun
  | .promptIsTurn => exact nofun
  | .span span =>
    have hspan := hinv span rfl
    obtain ⟨hlayout, href⟩ | ⟨hin, hsame, hother⟩ := hkeep span rfl
    · rw [trackIncomingSpan_refused hlayout href]
      exact nofun
    by_cases hlayout : sameLayout role before after
    · -- Nothing is looked at, and the span stays where it was.
      have hlen : before.length = after.length := by simpa using congrArg List.length hlayout
      have hstop : trackTurnEnd S role before after span span.start = span.stop := by
        rw [trackTurnEnd, if_pos hlayout, min_eq_left (hlen ▸ hspan.stop_le)]
      have hs : trackIncomingBoundary S role before after span = some span.start := by
        rw [trackIncomingBoundary, if_pos hlayout]
      intro s hts
      simp only [trackIncomingSpan, hs, hstop] at hts
      rw [if_pos (Or.inr (Int.le_refl _))] at hts
      obtain rfl := Tracked.span.inj hts
      exact ⟨hspan.start_le, hlen ▸ hspan.stop_le, (hsame hlayout).1, (hsame hlayout).2⟩
    · exact TrackInv.ordered hspan hlayout hin (hother hlayout)

/-! ## Every chain of processors -/

/-- The span stays right through the whole chain. -/
theorem TrackInv.run (processors : List (List Msg → List Msg)) (hinv : TrackInv H T msgs tracked)
    (hall : AllKeepApart S role H T msgs tracked processors) :
    TrackInv H T (applyInputProcessors S role msgs tracked processors).1
      (applyInputProcessors S role msgs tracked processors).2 := by
  induction processors generalizing msgs tracked with
  | nil => exact hinv
  | cons p processors ih => exact ih (hinv.step hall.1) hall.2

omit [DecidableEq Msg] in
/-- At first it is right: the turn is put behind the history. -/
theorem trackInv_incomingSpan (hdisj : H.Disjoint T) :
    TrackInv H T (H ++ T) (.span (incomingSpan (H ++ T) H.length)) := by
  intro span hspan
  obtain rfl := Tracked.span.inj hspan
  refine ⟨by simp [incomingSpan], le_rfl, fun k m hk hm => ?_, fun m hm hmsgs => ?_⟩
  · by_contra hlt
    rw [getElem?_append_right (not_lt.1 hlt)] at hk
    exact hdisj hm (mem_of_getElem? hk)
  · obtain ⟨k, hk⟩ := mem_iff_getElem?.1 hm
    refine ⟨H.length + k, Nat.le_add_right _ _, ?_, ?_⟩
    · simpa [incomingSpan] using (List.getElem?_eq_some_iff.1 hk).1
    · rw [getElem?_append_right (Nat.le_add_right _ _), Nat.add_sub_cancel_left, hk]

/-! ## What is stored -/

section Stored

variable (S role H T)

/-- What the processors make of a turn behind a history, and the span in it. -/
def processed (processors : List (List Msg → List Msg)) : List Msg × Tracked :=
  applyInputProcessors S role (H ++ T) (.span (incomingSpan (H ++ T) H.length)) processors

/-- What is stored of it. -/
def persisted (promptTurn : Msg) (processors : List (List Msg → List Msg)) : Reconciled Msg :=
  reconcileProcessedIncoming S (some (processed S role H T processors).1) promptTurn
    (processed S role H T processors).2 T H

omit [DecidableEq Msg] in
/-- The part of the array in the span is stored, or nothing, and then that is reported. -/
theorem reconcile_cases (messages : List Msg) (promptTurn : Msg) (tracked : Tracked) :
    (reconcileProcessedIncoming S (some messages) promptTurn tracked T H).incoming = [] ∧
        (T = [] ∨ (reconcileProcessedIncoming S (some messages) promptTurn tracked T H).lost.isSome) ∨
      ∃ span, tracked = .span span ∧
        (reconcileProcessedIncoming S (some messages) promptTurn tracked T H).incoming =
          (messages.take (min (max span.stop (min span.start messages.length)) messages.length)).drop
            (min span.start messages.length) := by
  match tracked with
  | .boundaryLost => by_cases hT : T = [] <;> simp [reconcileProcessedIncoming, hT]
  | .promptIsTurn => by_cases hT : T = [] <;> simp [reconcileProcessedIncoming, hT]
  | .span span =>
    by_cases hT : T = []
    · simp [reconcileProcessedIncoming, hT]
    · refine .inr ⟨span, rfl, ?_⟩
      simp only [reconcileProcessedIncoming, if_neg hT]
      split_ifs <;> rfl

/-- Whatever the processors do, a part of what they return is stored, never the messages as they
    were. -/
theorem stored_part (promptTurn : Msg) (processors : List (List Msg → List Msg)) :
    (persisted S role H T promptTurn processors).incoming <:+:
      (processed S role H T processors).1 := by
  rw [persisted]
  obtain ⟨hnil, -⟩ | ⟨span, -, heq⟩ := reconcile_cases S H T (processed S role H T processors).1
    promptTurn (processed S role H T processors).2
  · exact hnil ▸ nil_infix
  · exact heq ▸ (drop_suffix _ _).isInfix.trans ( take_prefix _ _).isInfix

end Stored

omit [DecidableEq Msg] in
/-- A message is in the span of an array if it stands there. -/
theorem SpanInv.mem_stored (hinv : SpanInv H T msgs span) :
    m ∈ (msgs.take (min (max span.stop (min span.start msgs.length)) msgs.length)).drop
        (min span.start msgs.length) ↔ ∃ k, span.start ≤ k ∧ k < span.stop ∧ msgs[k]? = some m := by
  rw [min_eq_left (hinv.start_le.trans hinv.stop_le), max_eq_left hinv.start_le,
    min_eq_left hinv.stop_le, mem_iff_getElem?]
  constructor
  · intro ⟨k, hk⟩
    rw [getElem?_drop, getElem?_take] at hk
    split at hk
    · next hlt => exact ⟨span.start + k, Nat.le_add_right _ _, hlt, hk⟩
    · exact absurd hk nofun
  · intro ⟨k, hstart, hstop, hk⟩
    refine ⟨k - span.start, ?_⟩
    rw [getElem?_drop, Nat.add_sub_cancel' hstart, getElem?_take_of_lt hstop, hk]

/-- If every processor keeps the history and the turn apart, a part of what they return is stored,
    with no message of the history; and with every message of the turn that is still there, unless
    the turn is reported as lost or it was stored already. -/
theorem turn_survives (hdisj : H.Disjoint T) (promptTurn : Msg)
    (processors : List (List Msg → List Msg))
    (hall : AllKeepApart S role H T (H ++ T) (.span (incomingSpan (H ++ T) H.length)) processors) :
    (persisted S role H T promptTurn processors).incoming <:+: (processed S role H T processors).1 ∧
      (∀ m ∈ H, m ∉ (persisted S role H T promptTurn processors).incoming) ∧
      ((persisted S role H T promptTurn processors).lost = none →
        (persisted S role H T promptTurn processors).alreadyStored = false →
          ∀ m ∈ T, m ∈ (processed S role H T processors).1 →
            m ∈ (persisted S role H T promptTurn processors).incoming) := by
  refine ⟨stored_part S role H T promptTurn processors, ?_⟩
  have hinv : TrackInv H T (processed S role H T processors).1 (processed S role H T processors).2 :=
    TrackInv.run processors (trackInv_incomingSpan hdisj) hall
  rw [persisted]
  obtain ⟨hnil, hlost⟩ | ⟨span, hspan, heq⟩ := reconcile_cases S H T
    (processed S role H T processors).1 promptTurn (processed S role H T processors).2
  · rw [hnil]
    refine ⟨fun m _ => not_mem_nil, fun hnone _ m hm _ => ?_⟩
    obtain rfl | hlost := hlost
    · exact hm
    · simp [hnone] at hlost
  · have hright := hinv span hspan
    rw [heq]
    refine ⟨fun m hm hin => ?_, fun _ _ m hm hin => hright.mem_stored.2 (hright.turn m hm hin)⟩
    obtain ⟨k, hstart, -, hk⟩ := hright.mem_stored.1 hin
    exact absurd (hright.history k m hk hm) (not_lt.2 hstart)

end Survives

/-! ## A processor that trims, and one that reverses -/

/-- Messages that are numbers. -/
def numberSetting : TurnSetting ℕ := ⟨decimal⟩

/-- The odd messages are the user's. -/
def numberRole (m : ℕ) : Option JsString :=
  if m % 2 = 1 then some (js "user") else some (js "assistant")

/-- The answer of the turn before is dropped, and the question stays the turn. -/
theorem turn_survives_trimmed :
    (persisted numberSetting numberRole [1, 2] [3] 0 [fun _ => [1, 3]]).incoming = [3] ∧
      ∀ m ∈ [1, 2],
        m ∉ (persisted numberSetting numberRole [1, 2] [3] 0 [fun _ => [1, 3]]).incoming := by
  refine ⟨by decide, (turn_survives (by simp) 0 [fun _ => [1, 3]] ⟨?_, trivial⟩).2.1⟩
  intro span hspan
  obtain rfl := Tracked.span.inj hspan
  have hlayout : ¬sameLayout numberRole [1, 2, 3] [1, 3] := by decide
  have hf : firstCaller [1, 2, 3] [1, 3] (incomingSpan [1, 2, 3] 2) = some 1 := by decide
  have hh : histFloor [1, 2, 3] [1, 3] (incomingSpan [1, 2, 3] 2) = some 1 := by decide
  have honly : HistoryBefore [1, 2] [1, 3] 1 := by
    intro k m hk hm
    match k with
    | 0 => exact Nat.one_pos
    | 1 =>
      obtain rfl : 3 = m := Option.some.inj hk
      exact absurd hm (by decide)
  have hthere : TurnInside [3] [1, 3] 0 2 := by
    intro m hm _
    obtain rfl := mem_singleton.1 hm
    exact ⟨1, by decide, by decide, rfl⟩
  refine .inr ⟨by decide, fun h => absurd h hlayout, fun _ => ⟨?_, ?_, ?_, ?_, ?_⟩⟩
  · intro k k' m hk hk' _
    exact (getElem?_inj (List.getElem?_eq_some_iff.1 hk).1 (by decide)).1 (hk.trans hk'.symm)
  · intro f h hf' hh'
    exact (Option.some.inj (hh.symm.trans hh')).symm.le.trans (Option.some.inj (hf.symm.trans hf')).le
  · intro f hf'
    obtain rfl := Option.some.inj (hf.symm.trans hf')
    exact honly
  · intro f p m hf' hm hp _
    obtain rfl := Option.some.inj (hf.symm.trans hf')
    obtain rfl : 3 = m := Option.some.inj hm
    obtain rfl : 1 = p := Option.some.inj hp
    exact hthere
  · intro hf'
    exact absurd (hf.symm.trans hf') nofun

/-- Three messages are reversed, so the count and the roles stay: the history's question is stored
    as the turn's, and the turn's is not, without a report. -/
theorem turn_replaced :
    ¬∀ (S : TurnSetting ℕ) (role : ℕ → Option JsString) (H T : List ℕ), H.Disjoint T → T ≠ [] →
      ∀ (promptTurn : ℕ) (processors : List (List ℕ → List ℕ)),
        (persisted S role H T promptTurn processors).incoming <:+:
            (processed S role H T processors).1 ∧
          (∀ m ∈ H, m ∉ (persisted S role H T promptTurn processors).incoming) ∧
          ((persisted S role H T promptTurn processors).lost = none →
            (persisted S role H T promptTurn processors).alreadyStored = false →
              ∀ m ∈ T, m ∈ (processed S role H T processors).1 →
                m ∈ (persisted S role H T promptTurn processors).incoming) := by
  intro hall
  have hrun := hall numberSetting numberRole [1, 2] [3] (by simp) (by decide) 0
    [fun _ => [3, 2, 1]]
  exact absurd hrun (by decide)

end Gnldev.Durable
