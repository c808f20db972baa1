import Gnldev.Durable.Semantic
import Gnldev.Lib.Results
import Gnldev.Durable.Semantic.Ladder
import Gnldev.Lib.Sorting

/-!
# What the gate asks about

The records that a scan compares are those of the call's own thread and tool, whatever else its
prefix finds: the address of a record is rebuilt from the thread of the scan (`Candidate`). They are
walked from the best, any certain match returns, and what is gray is only collected. So a record with
equal fields is asked about if it is among the first, the rules take no question away, and what is
quoted is the thread's and the tool's own (`gate_asks`).

A record that is not among the first `topK` is not looked at, nor is that of the very same arguments
(`repeat_behind`).
-/

open List

namespace Gnldev.Durable.Semantic

variable {U : Unicode} {j : SemJournal} {plan : SemPlan} {now : ℤ} {ttlMs : Option ℤ}

/-! ## Addresses -/

variable {threadId toolName hash k : JsString}

theorem assertThreadId_of_semKey (h : semKey threadId toolName hash = .ok k) :
    runKeys.assertThreadId threadId = .ok () := by
  rcases ht : runKeys.assertThreadId threadId with e | u
  · rw [semKey, ht] at h
    cases h
  · rfl

theorem semKey_eq (h : runKeys.assertThreadId threadId = .ok ()) (toolName hash : JsString) :
    semKey threadId toolName hash =
      .ok (js "xthr:" ++ threadId ++ js ":sem-" ++ toolName ++ js "-" ++ hash) := by
  rw [semKey, h]
  rfl

theorem semKey_inj {threadId' : JsString} (h : semKey threadId toolName hash = .ok k)
    (h' : semKey threadId' toolName hash = .ok k) :
    threadId = threadId' := by
  rw [semKey_eq (assertThreadId_of_semKey h)] at h
  rw [semKey_eq (assertThreadId_of_semKey h')] at h'
  have heq := Except.ok.inj (h.trans h'.symm)
  simpa using heq

theorem semKey_hash_inj {hash' : JsString} (h : semKey threadId toolName hash = .ok k)
    (h' : semKey threadId toolName hash' = .ok k) :
    hash = hash' := by
  have hthread := assertThreadId_of_semKey h
  rw [semKey_eq hthread] at h h'
  exact append_cancel_left (Except.ok.inj (h.trans h'.symm))

/-! ## Candidates -/

/-- A record of the thread and the tool, in the window, comparable, and not ruled to be other work
    than this call. -/
structure Candidate (j : SemJournal) (plan : SemPlan) (now : ℤ) (ttlMs : Option ℤ) (k : JsString)
    (r : SemDupRecord) : Prop where
  stored : j.record k = some r
  tool : r.toolName = plan.toolName
  address : semKey plan.threadId plan.toolName r.argsHash = .ok k
  inWindow : agedOut now ttlMs r = false
  comparable : plan.comparable r
  noTomb : ∀ tomb, semTombKey plan.threadId plan.toolName r.argsHash plan.argsHash = .ok tomb →
    j.entries.get tomb = none

theorem semTombKey_eq (h : runKeys.assertThreadId threadId = .ok ())
    (toolName prior new : JsString) : ∃ k, semTombKey threadId toolName prior new = .ok k := by
  rw [semTombKey, h]
  exact ⟨_, rfl⟩

variable {r : SemDupRecord}

/-- A key is a candidate's exactly if its record is one. -/
theorem readKey_eq_candidate_iff :
    readKey j plan now ttlMs k = .ok (.candidate r) ↔ Candidate j plan now ttlMs k r := by
  constructor
  · intro h
    rw [readKey] at h
    rcases hrec : j.record k with _ | r'
    · rw [hrec] at h
      cases h
    rw [hrec] at h
    dsimp only at h
    split at h
    · cases h
    next htool =>
    rw [not_ne_iff] at htool
    rcases hkey : semKey plan.threadId r'.toolName r'.argsHash with e | own
    · rw [hkey] at h
      cases h
    rw [hkey] at h
    change (if k ≠ own then _ else _) = _ at h
    split at h
    · cases h
    next hown =>
    rw [not_ne_iff] at hown
    change (if agedOut now ttlMs r' then _ else _) = _ at h
    split at h
    · cases h
    next haged =>
    change (if !plan.comparable r' then _ else _) = _ at h
    split at h
    · cases h
    next hcomp =>
    obtain ⟨tomb, htomb⟩ := semTombKey_eq (assertThreadId_of_semKey hkey) plan.toolName r'.argsHash
      plan.argsHash
    rw [htomb] at h
    change (if (j.entries.get tomb).isSome then _ else _) = _ at h
    split at h
    · cases h
    next hnone =>
    obtain rfl : r' = r := KeyOutcome.candidate.inj (Except.ok.inj h)
    refine ⟨hrec, htool, ?_, Bool.eq_false_iff.2 haged, by simpa using hcomp, fun tomb' h' => ?_⟩
    · rw [← htool, hkey, hown]
    · rw [← Except.ok.inj (htomb.symm.trans h')]
      simpa using hnone
  · intro h
    obtain ⟨tomb, htomb⟩ := semTombKey_eq (assertThreadId_of_semKey h.address) plan.toolName
      r.argsHash plan.argsHash
    rw [readKey, h.stored]
    dsimp only
    rw [if_neg (not_ne_iff.2 h.tool), h.tool, h.address, htomb]
    change (if k ≠ k then _ else _) = _
    rw [if_neg (not_ne_iff.2 rfl)]
    rw [h.inWindow, if_neg Bool.false_ne_true]
    rw [h.comparable]
    change (if (j.entries.get tomb).isSome then _ else _) = _
    rw [h.noTomb tomb htomb]
    rfl

/-- In a thread that keys can be made for every key is read. -/
theorem readKey_ok (h : runKeys.assertThreadId plan.threadId = .ok ()) (k : JsString) :
    ∃ o, readKey j plan now ttlMs k = .ok o := by
  rw [readKey]
  rcases j.record k with _ | r
  · exact ⟨_, rfl⟩
  dsimp only
  split
  · exact ⟨_, rfl⟩
  obtain ⟨tomb, htomb⟩ := semTombKey_eq h plan.toolName r.argsHash plan.argsHash
  rw [semKey_eq h, htomb]
  change ∃ o, (if k ≠ _ then _ else _) = _
  split
  · exact ⟨_, rfl⟩
  split
  · exact ⟨_, rfl⟩
  split
  · exact ⟨_, rfl⟩
  change ∃ o, (if (j.entries.get tomb).isSome then _ else _) = _
  split <;> exact ⟨_, rfl⟩

/-- What becomes of a key, if it can be read. -/
def outcomeOf (j : SemJournal) (plan : SemPlan) (now : ℤ) (ttlMs : Option ℤ) (k : JsString) :
    KeyOutcome :=
  match readKey j plan now ttlMs k with
  | .ok o => o
  | .error _ => .skipped

theorem mapM_readKey {keys : List JsString} {outcomes : List KeyOutcome}
    (h : keys.mapM (readKey j plan now ttlMs) = .ok outcomes) :
    outcomes = keys.map (outcomeOf j plan now ttlMs) := by
  refine Except.ok.inj (h.symm.trans (mapM_ok fun k hk => ?_))
  obtain ⟨o, ho⟩ := exists_mapM_eq_ok_iff.1 ⟨_, h⟩ k hk
  rw [outcomeOf, ho]

theorem mapM_readKey_ok (h : runKeys.assertThreadId plan.threadId = .ok ()) (keys : List JsString) :
    ∃ outcomes, keys.mapM (readKey j plan now ttlMs) = .ok outcomes :=
  exists_mapM_eq_ok_iff.2 fun k _ => readKey_ok h k

/-- The record of a key, if it is a candidate. -/
def candidateAt (j : SemJournal) (plan : SemPlan) (now : ℤ) (ttlMs : Option ℤ) (k : JsString) :
    Option SemDupRecord :=
  (outcomeOf j plan now ttlMs k).record?

theorem candidateAt_eq_some :
    candidateAt j plan now ttlMs k = some r ↔ Candidate j plan now ttlMs k r := by
  rw [← readKey_eq_candidate_iff, candidateAt, outcomeOf]
  rcases readKey j plan now ttlMs k with e | o
  · exact iff_of_false nofun nofun
  · cases o with
    | skipped => exact iff_of_false nofun nofun
    | droppedStamp => exact iff_of_false nofun nofun
    | candidate r' =>
      rw [KeyOutcome.record?, Option.some.injEq, Except.ok.injEq, KeyOutcome.candidate.injEq]

/-! ## The walk -/

/-- What a verdict quotes: the record of a question, and those that are gray. -/
def SemVerdict.Quotes (v : SemVerdict) (P : SemDupRecord → Prop) : Prop :=
  match v with
  | .suspend q => ∃ r, P r ∧ q.firstToolCallId = r.firstToolCallId ∧ q.priorHash = r.argsHash ∧
    q.priorCanonical = r.canonical
  | .none report => ∀ g ∈ report.gray, P g.record

/-- A record whose fields are the same. -/
def SemPlan.Same (plan : SemPlan) (r : SemDupRecord) : Prop :=
  plan.discriminates r = false ∧ plan.idEqual r = true

/-- One step: a record with the same fields suspends the call, a rule may, and else the walk goes on,
    with no other record gray than this. -/
theorem walk_cons (rules : Option SemanticRulesConfig) (report : SemNone) (c : Scored)
    (l : List Scored) :
    (plan.Same c.record ∧
      walk U plan rules report (c :: l) = .suspend (plan.ask c .identity [])) ∨
    (rules ≠ none ∧ ∃ trace, walk U plan rules report (c :: l) = .suspend (plan.ask c .rule trace)) ∨
    (¬plan.Same c.record ∧ ∃ report',
      walk U plan rules report (c :: l) = walk U plan rules report' l ∧
      ∀ g ∈ report'.gray, g ∈ report.gray ∨ g.record = c.record) := by
  have hgray (trace : List RuleTrace) : ∀ g ∈ report.gray ++ [⟨c.record, c.score, trace⟩],
      g ∈ report.gray ∨ g.record = c.record := by
    intro g hg
    rcases mem_append.1 hg with hg | hg
    · exact .inl hg
    · exact .inr (by rw [mem_singleton.1 hg])
  by_cases hdisc : plan.discriminates c.record
  · refine .inr (.inr ⟨fun h => by rw [h.1] at hdisc; exact Bool.false_ne_true hdisc, ?_⟩)
    refine ⟨{ report with droppedDiscriminator := report.droppedDiscriminator + 1 }, ?_,
      fun g hg => .inl hg⟩
    cases rules <;> rw [walk, if_pos hdisc]
  by_cases hid : plan.idEqual c.record
  · refine .inl ⟨⟨Bool.eq_false_iff.2 hdisc, hid⟩, ?_⟩
    cases rules <;> rw [walk, if_neg hdisc, if_pos hid]
  have hnot : ¬plan.Same c.record := fun h => hid h.2
  cases rules with
  | none =>
    rw [walk, if_neg hdisc, if_neg hid]
    exact .inr (.inr ⟨hnot, _, rfl, hgray []⟩)
  | some cfg =>
    rw [walk, if_neg hdisc, if_neg hid]
    dsimp only
    split
    · exact .inr (.inr ⟨hnot, _, rfl, fun g hg => .inl hg⟩)
    · exact .inr (.inl ⟨nofun, _, rfl⟩)
    · exact .inr (.inr ⟨hnot, _, rfl, hgray _⟩)

section Walk

variable {rules : Option SemanticRulesConfig} {l : List Scored} {report : SemNone}

/-- Only candidates are quoted. -/
theorem quotes_walk {P : SemDupRecord → Prop} (hl : ∀ c ∈ l, P c.record)
    (hreport : ∀ g ∈ report.gray, P g.record) : (walk U plan rules report l).Quotes P := by
  induction l generalizing report with
  | nil =>
    cases rules <;> exact hreport
  | cons c l ih =>
    rw [forall_mem_cons] at hl
    rcases walk_cons (U := U) rules report c l with ⟨-, h⟩ | ⟨-, trace, h⟩ | ⟨-, report', h, hgray⟩
    · rw [h]
      exact ⟨c.record, hl.1, rfl, rfl, rfl⟩
    · rw [h]
      exact ⟨c.record, hl.1, rfl, rfl, rfl⟩
    · rw [h]
      refine ih hl.2 fun g hg => ?_
      rcases hgray g hg with hg | hg
      · exact hreport g hg
      · exact hg ▸ hl.1

/-- A candidate with the same fields suspends the call. -/
theorem walk_suspends {c : Scored} (hc : c ∈ l) (hsame : plan.Same c.record) :
    ∃ q, walk U plan rules report l = .suspend q := by
  induction l generalizing report with
  | nil => cases hc
  | cons c' l ih =>
    rcases walk_cons (U := U) rules report c' l with ⟨-, h⟩ | ⟨-, trace, h⟩ | ⟨hnot, report', h, -⟩
    · exact ⟨_, h⟩
    · exact ⟨_, h⟩
    · rw [h]
      exact ih ((mem_cons.1 hc).resolve_left fun heq => hnot (heq ▸ hsame))

/-- Without rules nothing else does. -/
theorem exists_same_of_walk {q : SemSuspend} (h : walk U plan none report l = .suspend q) :
    ∃ c ∈ l, plan.Same c.record := by
  induction l generalizing report with
  | nil => cases h
  | cons c l ih =>
    rcases walk_cons (U := U) none report c l with ⟨hsame, -⟩ | ⟨hne, -⟩ | ⟨-, report', hwalk, -⟩
    · exact ⟨c, mem_cons_self, hsame⟩
    · exact absurd rfl hne
    · rw [hwalk] at h
      obtain ⟨c', hc', hsame⟩ := ih h
      exact ⟨c', mem_cons_of_mem c hc', hsame⟩

end Walk

/-! ## The scan -/

/-- The candidate of a key that is listed, but for that of the call itself. -/
def listedCandidate (j : SemJournal) (plan : SemPlan) (now : ℤ) (ttlMs : Option ℤ)
    (own k : JsString) : Option SemDupRecord :=
  if k.startsWith (semPrefix plan) ∧ k ≠ own then candidateAt j plan now ttlMs k else none

/-- The candidates of a journal, in the order of its keys. -/
def candidatesOf (j : SemJournal) (plan : SemPlan) (now : ℤ) (ttlMs : Option ℤ) (own : JsString) :
    List SemDupRecord :=
  (j.entries.entries.map Prod.fst).filterMap (listedCandidate j plan now ttlMs own)

/-- The keys that are read. -/
def keysRead (j : SemJournal) (plan : SemPlan) (own : JsString) : List JsString :=
  ((j.entries.entries.map Prod.fst).filter fun k => k.startsWith (semPrefix plan)).filter (· ≠ own)

variable {own : JsString}

theorem otherKeys_eq (hown : semKey plan.threadId plan.toolName plan.argsHash = .ok own) :
    otherKeys j plan = .ok (keysRead j plan own) := by
  rw [otherKeys, hown, keysRead]
  split
  · next h => rw [List.isEmpty_iff.1 h, filter_nil]
  · rfl

theorem readOutcomes_eq (hown : semKey plan.threadId plan.toolName plan.argsHash = .ok own) :
    readOutcomes j plan now ttlMs =
      .ok ((keysRead j plan own).map (outcomeOf j plan now ttlMs)) := by
  obtain ⟨outcomes, hread⟩ := @mapM_readKey_ok j plan now ttlMs
    (assertThreadId_of_semKey hown) (keysRead j plan own)
  rw [readOutcomes, otherKeys_eq hown, ← mapM_readKey hread]
  exact hread

theorem filterMap_outcomes (own : JsString) :
    ((keysRead j plan own).map (outcomeOf j plan now ttlMs)).filterMap (·.record?) =
      candidatesOf j plan now ttlMs own := by
  rw [candidatesOf, keysRead, filterMap_map, filter_filter, filterMap_filter]
  refine filterMap_congr fun k _ => ?_
  rw [listedCandidate, candidateAt]
  by_cases h : k.startsWith (semPrefix plan) ∧ k ≠ own
  · rw [if_pos h, if_pos (by simpa using h.symm)]
    rfl
  · rw [if_neg h, if_neg (by simpa [and_comm] using h)]

/-- With an embedder that answers, a scan walks the best candidates. -/
theorem scan_vec (hlists : j.listsKeys)
    (hown : semKey plan.threadId plan.toolName plan.argsHash = .ok own)
    (similarity : JsString → Option ℚ) : ∃ droppedStamp,
    scanCandidates U j plan (.vec similarity) now ttlMs =
      .ok (walk U plan (rulesConfigOf plan.cfg.rules) { droppedStamp }
        (sliceTo (ranked plan similarity (candidatesOf j plan now ttlMs own))
          (plan.cfg.topK.getD 3))) := by
  refine ⟨((keysRead j plan own).map (outcomeOf j plan now ttlMs)).countP (·.isDroppedStamp), ?_⟩
  rw [scanCandidates, if_pos hlists, readOutcomes_eq hown, Except.map, judge, filterMap_outcomes]
  split
  · next h =>
    -- Nothing is walked when there is no candidate.
    have hnone : sliceTo (ranked plan similarity []) (plan.cfg.topK.getD 3) = [] := by
      rw [sliceTo]
      split <;> exact take_nil
    rw [List.isEmpty_iff.1 h, hnone, walk]
  · rfl

/-- A verdict counts without quoting anything, or is that of a walk. -/
theorem scan_cases {embedded : EmbedOutcome} {v : SemVerdict}
    (h : scanCandidates U j plan embedded now ttlMs = .ok v) :
    (∃ report : SemNone, v = .none report ∧ report.gray = []) ∨
    ∃ own similarity droppedStamp, embedded = .vec similarity ∧ j.listsKeys ∧
      semKey plan.threadId plan.toolName plan.argsHash = .ok own ∧
      v = walk U plan (rulesConfigOf plan.cfg.rules) { droppedStamp }
        (sliceTo (ranked plan similarity (candidatesOf j plan now ttlMs own))
          (plan.cfg.topK.getD 3)) := by
  rcases hlists : j.listsKeys with _ | _
  · rw [scanCandidates, hlists, if_neg Bool.false_ne_true] at h
    exact .inl ⟨_, (Except.ok.inj h).symm, rfl⟩
  rcases hown : semKey plan.threadId plan.toolName plan.argsHash with e | own
  · -- Without a key for the call only a scan that finds nothing ends.
    rw [scanCandidates, if_pos hlists, readOutcomes, otherKeys, hown] at h
    split at h
    · exact .inl ⟨_, (Except.ok.inj h).symm, rfl⟩
    · cases h
  cases embedded with
  | vec similarity =>
    obtain ⟨droppedStamp, hscan⟩ := scan_vec hlists hown similarity
    exact .inr ⟨own, similarity, droppedStamp, rfl, rfl, rfl, Except.ok.inj (h.symm.trans hscan)⟩
  | failed outage =>
    rw [scanCandidates, if_pos hlists, readOutcomes_eq hown, Except.map, judge] at h
    split at h <;> exact .inl ⟨_, (Except.ok.inj h).symm, rfl⟩

/-! ## The first of them -/

/-- A record that is compared, with its score: a candidate with other arguments than the call's. -/
structure Standing (j : SemJournal) (plan : SemPlan) (similarity : JsString → Option ℚ) (now : ℤ)
    (ttlMs : Option ℤ) (k : JsString) (r : SemDupRecord) (score : ℚ) : Prop where
  candidate : Candidate j plan now ttlMs k r
  other : r.argsHash ≠ plan.argsHash
  vector : r.vecB64.bind similarity = some score
  similar : plan.cfg.minSimilarity.getD (3 / 5) ≤ score

def ListedBefore (j : SemJournal) (k k' : JsString) : Prop :=
  ∃ before after, j.entries.entries.map Prod.fst = before ++ k' :: after ∧ k ∈ before

/-- A key comes before another: its record scores higher, or as high and is listed before. -/
def Outranks (j : SemJournal) (plan : SemPlan) (similarity : JsString → Option ℚ) (now : ℤ)
    (ttlMs : Option ℤ) (k : JsString) (score : ℚ) (k' : JsString) : Prop :=
  ∃ r' score', Standing j plan similarity now ttlMs k' r' score' ∧
    (score < score' ∨ score = score' ∧ ListedBefore j k' k)

/-- Fewer than `topK` records come before it. -/
def AmongFirst (j : SemJournal) (plan : SemPlan) (similarity : JsString → Option ℚ) (now : ℤ)
    (ttlMs : Option ℤ) (k : JsString) (score : ℚ) : Prop :=
  ∀ ks : List JsString, ks.Nodup → (∀ k' ∈ ks, Outranks j plan similarity now ttlMs k score k') →
    (ks.length : ℤ) < plan.cfg.topK.getD 3

section First

variable {similarity : JsString → Option ℚ} {own k : JsString} {r : SemDupRecord} {score : ℚ}

/-- The score of a key. -/
def standing (j : SemJournal) (plan : SemPlan) (similarity : JsString → Option ℚ) (now : ℤ)
    (ttlMs : Option ℤ) (own k : JsString) : Option Scored :=
  (listedCandidate j plan now ttlMs own k).bind (scored plan similarity)

theorem scored_eq_some {c : Scored} : scored plan similarity r = some c ↔
    r.vecB64.bind similarity = some c.score ∧ plan.cfg.minSimilarity.getD (3 / 5) ≤ c.score ∧
      c.record = r := by
  rw [scored, Option.map_eq_some_iff]
  constructor
  · rintro ⟨score, hscore, rfl⟩
    obtain ⟨hvec, hmin⟩ := Option.filter_eq_some_iff.1 hscore
    exact ⟨hvec, of_decide_eq_true hmin, rfl⟩
  · rintro ⟨hvec, hmin, rfl⟩
    exact ⟨c.score, Option.filter_eq_some_iff.2 ⟨hvec, decide_eq_true hmin⟩, rfl⟩

theorem listedCandidate_eq_some
    (hown : semKey plan.threadId plan.toolName plan.argsHash = .ok own) :
    listedCandidate j plan now ttlMs own k = some r ↔
      Candidate j plan now ttlMs k r ∧ r.argsHash ≠ plan.argsHash := by
  have hhash (h : Candidate j plan now ttlMs k r) : k ≠ own ↔ r.argsHash ≠ plan.argsHash := by
    refine not_congr ⟨?_, fun heq => ?_⟩
    · rintro rfl
      exact semKey_hash_inj h.address hown
    · exact Except.ok.inj ((heq ▸ h.address).symm.trans hown)
  have hstart (h : Candidate j plan now ttlMs k r) : k.startsWith (semPrefix plan) := by
    have haddress := h.address
    rw [semKey_eq (assertThreadId_of_semKey hown)] at haddress
    exact JsString.startsWith_iff.2 ⟨r.argsHash, Except.ok.inj haddress⟩
  rw [listedCandidate]
  constructor
  · intro h
    split at h
    · next hk =>
      have hcandidate := candidateAt_eq_some.1 h
      exact ⟨hcandidate, (hhash hcandidate).1 hk.2⟩
    · cases h
  · rintro ⟨hcandidate, hother⟩
    rw [if_pos ⟨hstart hcandidate, (hhash hcandidate).2 hother⟩]
    exact candidateAt_eq_some.2 hcandidate

theorem standing_eq_some (hown : semKey plan.threadId plan.toolName plan.argsHash = .ok own)
    {c : Scored} : standing j plan similarity now ttlMs own k = some c ↔
      Standing j plan similarity now ttlMs k c.record c.score := by
  rw [standing, Option.bind_eq_some_iff]
  constructor
  · rintro ⟨r, hr, hscored⟩
    obtain ⟨hvec, hmin, rfl⟩ := scored_eq_some.1 hscored
    obtain ⟨hcandidate, hother⟩ := (listedCandidate_eq_some hown).1 hr
    exact ⟨hcandidate, hother, hvec, hmin⟩
  · exact fun h => ⟨c.record, (listedCandidate_eq_some hown).2 ⟨h.candidate, h.other⟩,
      scored_eq_some.2 ⟨h.vector, h.similar, rfl⟩⟩

theorem ranked_candidatesOf : ranked plan similarity (candidatesOf j plan now ttlMs own) =
    ((j.entries.entries.map Prod.fst).filterMap
      (standing j plan similarity now ttlMs own)).insertionSort fun a b => b.score ≤ a.score := by
  rw [ranked, candidatesOf, filterMap_filterMap]
  rfl

theorem mem_keys_of_record (h : j.record k = some r) : k ∈ j.entries.entries.map Prod.fst := by
  rw [SemJournal.record] at h
  split at h
  · next hget => exact mem_map_of_mem (f := Prod.fst) (OrderedMap.mem_entries_iff.2 hget)
  · cases h

/-- A record that fewer than `topK` come before is among those that are walked. -/
theorem mem_slice (hown : semKey plan.threadId plan.toolName plan.argsHash = .ok own)
    (hr : Standing j plan similarity now ttlMs k r score)
    (hfirst : AmongFirst j plan similarity now ttlMs k score) :
    ⟨r, score⟩ ∈ sliceTo (ranked plan similarity (candidatesOf j plan now ttlMs own))
      (plan.cfg.topK.getD 3) := by
  have hnodup := j.entries.nodup
  obtain ⟨before, after, hkeys⟩ := append_of_mem (mem_keys_of_record hr.candidate.stored)
  rw [hkeys, nodup_append, nodup_cons] at hnodup
  have hstanding : standing j plan similarity now ttlMs own k = some ⟨r, score⟩ :=
    (standing_eq_some hown).2 hr
  let f := standing j plan similarity now ttlMs own
  have : Std.Total fun a b : Scored => b.score ≤ a.score :=
    ⟨fun a b => le_total b.score a.score⟩
  have : IsTrans Scored fun a b => b.score ≤ a.score := ⟨fun _ _ _ hab hbc => hbc.trans hab⟩
  obtain ⟨s, t, hsorted, hlength, -⟩ := insertionSort_split
    (r := fun a b : Scored => b.score ≤ a.score) (before.filterMap f) (after.filterMap f) ⟨r, score⟩
  rw [ranked_candidatesOf, hkeys, filterMap_append, filterMap_cons_some hstanding, hsorted]
  -- The keys of those that come before.
  let q₁ (k' : JsString) : Bool := ((f k').map fun c => decide (score ≤ c.score)).getD false
  let q₂ (k' : JsString) : Bool := ((f k').map fun c => decide ¬c.score ≤ score).getD false
  have houtrank {k' : JsString} {p : Scored → Bool} (hp : ((f k').map p).getD false = true) :
      ∃ c, Standing j plan similarity now ttlMs k' c.record c.score ∧ p c = true := by
    rcases hc : f k' with _ | c
    · rw [hc] at hp
      cases hp
    · rw [hc] at hp
      exact ⟨c, (standing_eq_some hown).1 hc, hp⟩
  have hlt := hfirst (before.filter q₁ ++ after.filter q₂)
    (nodup_append.2 ⟨hnodup.1.filter q₁, hnodup.2.1.2.filter q₂, fun a ha b hb =>
      hnodup.2.2 a (mem_of_mem_filter ha) b
        (mem_cons_of_mem k (mem_of_mem_filter hb))⟩)
    (fun k' hk' => by
      rcases mem_append.1 hk' with hk' | hk'
      · obtain ⟨hmem, hq⟩ := mem_filter.1 hk'
        obtain ⟨c, hc, hle⟩ := houtrank hq
        refine ⟨c.record, c.score, hc, ?_⟩
        rcases lt_or_eq_of_le (of_decide_eq_true hle) with hlt | heq
        · exact .inl hlt
        · exact .inr ⟨heq, before, after, hkeys, hmem⟩
      · obtain ⟨c, hc, hnot⟩ := houtrank (mem_filter.1 hk').2
        exact ⟨c.record, c.score, hc, .inl (not_le.1 (of_decide_eq_true hnot))⟩)
  have hcount : s.length = (before.filter q₁ ++ after.filter q₂).length := by
    rw [hlength, length_append, countP_filterMap, countP_filterMap,
      countP_eq_length_filter, countP_eq_length_filter]
  rw [← hcount] at hlt
  rw [sliceTo, if_pos (le_trans (Int.natCast_nonneg _) hlt.le)]
  rw [mem_take_iff_getElem]
  refine ⟨s.length, ?_, ?_⟩
  · rw [length_append, length_cons]
    omega
  · rw [getElem_append_right (le_refl _)]
    simp

end First

/-! ## Whose records there are -/

/-- The record under a key is one that a write leaves there. -/
structure SemWrite.Left (w : SemWrite) (k : JsString) (r : SemDupRecord) : Prop where
  key : semKey w.plan.threadId w.plan.toolName w.plan.argsHash = .ok k
  tool : r.toolName = w.plan.toolName
  hash : r.argsHash = w.plan.argsHash

/-- Every record was written, for the thread and the tool that its key names. -/
def Written (writes : List SemWrite) (j : SemJournal) : Prop :=
  ∀ k r, j.record k = some r → ∃ w ∈ writes, w.Left k r

theorem Written.write {writes : List SemWrite} (h : Written writes j) (w : SemWrite) :
    Written (writes ++ [w]) (writeSemRecord j w) := by
  intro k r hr
  have hbefore (hr : j.record k = some r) : ∃ w' ∈ writes ++ [w], w'.Left k r := by
    obtain ⟨w', hw', hk⟩ := h k r hr
    exact ⟨w', mem_append_left _ hw', hk⟩
  rw [writeSemRecord] at hr
  split at hr
  · exact hbefore hr
  · next own hown =>
    by_cases heq : k = own
    · subst heq
      rw [SemJournal.record, OrderedMap.get_put_self] at hr
      obtain rfl := Option.some.inj hr
      exact ⟨w, mem_append_right _ (mem_singleton_self w), ⟨hown, rfl, rfl⟩⟩
    · rw [SemJournal.record, OrderedMap.get_put_of_ne _ heq] at hr
      exact hbefore hr

theorem written_foldl {j₀ : SemJournal} (h : ∀ k, j₀.record k = none) (writes : List SemWrite) :
    Written writes (writes.foldl writeSemRecord j₀) := by
  suffices ∀ (rest done : List SemWrite) (j : SemJournal), Written done j →
      Written (done ++ rest) (rest.foldl writeSemRecord j) from
    this writes [] j₀ fun k r hr => by rw [h k] at hr; cases hr
  intro rest
  induction rest with
  | nil =>
    intro done j hj
    rw [append_nil]
    exact hj
  | cons w rest ih =>
    intro done j hj
    rw [append_cons]
    exact ih (done ++ [w]) _ (hj.write w)

/-- What may be quoted for a call: a record at its own address in the thread, of the tool, which a
    call of that tool in that thread wrote. -/
structure OwnRecord (j : SemJournal) (plan : SemPlan) (r : SemDupRecord) : Prop where
  tool : r.toolName = plan.toolName
  address : ∃ k, j.record k = some r ∧ semKey plan.threadId plan.toolName r.argsHash = .ok k
  writer : ∀ (writes : List SemWrite) (j₀ : SemJournal), (∀ k, j₀.record k = none) →
    j = writes.foldl writeSemRecord j₀ →
    ∃ w ∈ writes, w.plan.threadId = plan.threadId ∧ w.plan.toolName = plan.toolName ∧
      w.plan.argsHash = r.argsHash

theorem Candidate.ownRecord (h : Candidate j plan now ttlMs k r) : OwnRecord j plan r where
  tool := h.tool
  address := ⟨k, h.stored, h.address⟩
  writer := by
    rintro writes j₀ hj₀ rfl
    obtain ⟨w, hw, ⟨hkey, htool, hhash⟩⟩ := written_foldl hj₀ writes k r h.stored
    rw [← htool, ← hhash, h.tool] at hkey
    exact ⟨w, hw, semKey_inj hkey h.address, htool.symm.trans h.tool, hhash.symm⟩

theorem mem_of_mem_sliceTo {α : Type} {l : List α} {n : ℤ} {a : α} (h : a ∈ sliceTo l n) : a ∈ l := by
  rw [sliceTo] at h
  split at h <;> exact mem_of_mem_take h

theorem candidate_of_mem_slice {similarity : JsString → Option ℚ}
    (hown : semKey plan.threadId plan.toolName plan.argsHash = .ok own) {n : ℤ} {c : Scored}
    (hc : c ∈ sliceTo (ranked plan similarity (candidatesOf j plan now ttlMs own)) n) :
    ∃ k, Candidate j plan now ttlMs k c.record := by
  have hranked := mem_of_mem_sliceTo hc
  rw [ranked_candidatesOf, mem_insertionSort] at hranked
  obtain ⟨k, -, hk⟩ := mem_filterMap.1 hranked
  exact ⟨k, ((standing_eq_some hown).1 hk).candidate⟩

/-- The plan with other rules. -/
def SemPlan.withRules (plan : SemPlan) (rules : Option RulesOption) : SemPlan :=
  { plan with cfg := { plan.cfg with rules } }

/-- A record with the same fields that is among the first is asked about; the rules take no question
    away; and what is quoted is a record of the thread and the tool. -/
theorem gate_asks (U : Unicode) (j : SemJournal) (plan : SemPlan) (embedded : EmbedOutcome)
    (now : ℤ) (ttlMs : Option ℤ) :
    (∀ similarity k r score, embedded = .vec similarity → j.listsKeys →
      Standing j plan similarity now ttlMs k r score → plan.Same r →
      AmongFirst j plan similarity now ttlMs k score →
      ∃ q, scanCandidates U j plan embedded now ttlMs = .ok (.suspend q)) ∧
    (∀ rules q, scanCandidates U j (plan.withRules none) embedded now ttlMs = .ok (.suspend q) →
      ∃ q', scanCandidates U j (plan.withRules (some rules)) embedded now ttlMs =
        .ok (.suspend q')) ∧
    ∀ v, scanCandidates U j plan embedded now ttlMs = .ok v → v.Quotes (OwnRecord j plan) := by
  refine ⟨?_, fun rules q h => ?_, fun v h => ?_⟩
  · rintro similarity k r score rfl hlists hr hsame hfirst
    obtain ⟨own, hown⟩ : ∃ own, semKey plan.threadId plan.toolName plan.argsHash = .ok own :=
      ⟨_, semKey_eq (assertThreadId_of_semKey hr.candidate.address) _ _⟩
    obtain ⟨n, hscan⟩ := @scan_vec U j plan now ttlMs own hlists hown similarity
    obtain ⟨q, hq⟩ := walk_suspends (U := U) (mem_slice hown hr hfirst) hsame
    exact ⟨q, by rw [hscan, hq]⟩
  · rcases scan_cases h with ⟨report, hv, -⟩ | ⟨own, similarity, n, rfl, hlists, hown, hv⟩
    · cases hv
    · -- The same candidates are walked, with rules.
      obtain ⟨c, hc, hsame⟩ := exists_same_of_walk hv.symm
      obtain ⟨n', hscan⟩ := @scan_vec U j (plan.withRules (some rules)) now ttlMs own hlists hown
        similarity
      obtain ⟨q', hq'⟩ := @walk_suspends U (plan.withRules (some rules)) (rulesConfigOf rules) _
        { droppedStamp := n' } c hc hsame
      exact ⟨q', hscan.trans (congrArg Except.ok hq')⟩
  · rcases scan_cases h with ⟨report, rfl, hgray⟩ | ⟨own, similarity, n, rfl, hlists, hown, rfl⟩
    · intro g hg
      rw [hgray] at hg
      cases hg
    · refine quotes_walk (fun c hc => ?_) nofun
      obtain ⟨k, hk⟩ := candidate_of_mem_slice hown hc
      exact hk.ownRecord

/-- A repeat that comes second is asked about, where `topK` is 2. -/
theorem gate_asks_second :
    let cfg : SemanticDupConfig := ⟨js "m", none, some 2, none⟩
    let fields (sku : String) : SemFields := ⟨[(js "sku", js sku)], [], []⟩
    let plan : SemPlan :=
      ⟨cfg, ⟨[js "sku"], none, none⟩, js "th", js "order", js "h0", fields "abc", js "order: abc"⟩
    let write (hash sku : String) : SemWrite :=
      ⟨{ plan with argsHash := js hash, fields := fields sku }, some (js hash), js "call", 0⟩
    let similarity (vector : JsString) : Option ℚ :=
      some (if vector = js "h1" then 9 / 10 else 8 / 10)
    let behind := [write "h1" "xyz", write "h2" "abc"].foldl writeSemRecord ⟨.empty, true⟩
    ∃ q, scanCandidates ascii behind plan (.vec similarity) 0 none = .ok (.suspend q) := by
  intro cfg fields plan write similarity behind
  have hkeys : behind.entries.entries.map Prod.fst =
      [js "xthr:th:sem-order-h1", js "xthr:th:sem-order-h2"] := by decide +kernel
  refine (gate_asks ascii behind plan (.vec similarity) 0 none).1 similarity
    (js "xthr:th:sem-order-h2") ((write "h2" "abc").record none) (8 / 10) rfl rfl
    ⟨⟨rfl, rfl, rfl, rfl, by decide, fun tomb h => ?_⟩, by decide, rfl, by decide +kernel⟩ ⟨rfl, rfl⟩ ?_
  · obtain rfl := Except.ok.inj h
    rfl
  · intro ks hnodup hks
    -- Only the other record comes before it.
    have honly : ks ⊆ [js "xthr:th:sem-order-h1"] := fun k' hk' => by
      obtain ⟨r', score', hr', hbefore⟩ := hks k' hk'
      have hstored := hr'.candidate.stored
      obtain ⟨v, hv⟩ : ∃ v, behind.entries.get k' = some v := by
        refine Option.ne_none_iff_exists'.1 fun hnone => ?_
        rw [SemJournal.record, hnone] at hstored
        cases hstored
      have hmem := mem_map_of_mem (f := Prod.fst) (OrderedMap.mem_entries_iff.2 hv)
      rw [hkeys, mem_cons] at hmem
      rcases hmem with rfl | hmem
      · exact .head _
      obtain rfl := mem_singleton.1 hmem
      obtain rfl : (write "h2" "abc").record none = r' := Option.some.inj hstored
      obtain rfl : 8 / 10 = score' := Option.some.inj hr'.vector
      obtain hlt | ⟨-, before, after, hsplit, hbefore⟩ := hbefore
      · exact absurd hlt (lt_irrefl _)
      · have hdistinct : (behind.entries.entries.map Prod.fst).Nodup := by
          rw [hkeys]
          decide
        rw [hsplit] at hdistinct
        exact absurd rfl ((nodup_append.1 hdistinct).2.2 _ hbefore _ (.head _))
    have hlength := (subperm_of_subset hnodup honly).length_le
    exact Int.lt_of_le_of_lt (Int.ofNat_le.2 hlength) (by decide)

def SemVerdict.isSuspend : SemVerdict → Bool
  | .suspend _ => true
  | .none _ => false

/-- A repeat behind `topK` records that score higher is not asked about, and neither is one of the
    very same arguments. -/
theorem repeat_behind :
    let cfg : SemanticDupConfig := ⟨js "m", none, some 1, none⟩
    let fields (sku : String) : SemFields := ⟨[(js "sku", js sku)], [], []⟩
    let plan : SemPlan :=
      ⟨cfg, ⟨[js "sku"], none, none⟩, js "th", js "order", js "h0", fields "abc", js "order: abc"⟩
    let write (hash sku : String) : SemWrite :=
      ⟨{ plan with argsHash := js hash, fields := fields sku }, some (js hash), js "call", 0⟩
    let journal (writes : List SemWrite) := writes.foldl writeSemRecord ⟨.empty, true⟩
    let similarity (vector : JsString) : Option ℚ :=
      some (if vector = js "h1" then 9 / 10 else 8 / 10)
    let behind := journal [write "h1" "xyz", write "h2" "abc"]
    let own := journal [write "h0" "abc"]
    (∃ k r score, Standing behind plan similarity 0 none k r score ∧ plan.Same r ∧
      ∀ q, scanCandidates ascii behind plan (.vec similarity) 0 none ≠ .ok (.suspend q)) ∧
    ∃ k r, Candidate own plan 0 none k r ∧ r.vecB64.bind similarity = some (8 / 10) ∧ plan.Same r ∧
      ∀ q, scanCandidates ascii own plan (.vec similarity) 0 none ≠ .ok (.suspend q) := by
  intro cfg fields plan write journal similarity behind own
  have hnot {j : SemJournal} (h : (scanCandidates ascii j plan (.vec similarity) 0 none).map
      (·.isSuspend) = .ok false) (q) :
      scanCandidates ascii j plan (.vec similarity) 0 none ≠ .ok (.suspend q) := by
    intro hq
    rw [hq] at h
    cases h
  refine ⟨⟨js "xthr:th:sem-order-h2", (write "h2" "abc").record none, 8 / 10, ?_, ⟨rfl, rfl⟩,
    hnot (by decide +kernel)⟩, js "xthr:th:sem-order-h0", (write "h0" "abc").record none, ?_, ?_,
    ⟨rfl, rfl⟩, hnot (by decide +kernel)⟩
  · refine ⟨⟨rfl, rfl, rfl, rfl, by decide, fun tomb h => ?_⟩, by decide, rfl, by decide +kernel⟩
    obtain rfl := Except.ok.inj h
    rfl
  · refine ⟨rfl, rfl, rfl, rfl, by decide, fun tomb h => ?_⟩
    obtain rfl := Except.ok.inj h
    rfl
  · rfl

end Gnldev.Durable.Semantic

