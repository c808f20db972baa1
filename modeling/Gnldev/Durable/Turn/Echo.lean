import Gnldev.Durable.Turn
import Gnldev.Lib.JsValue
import Mathlib.Data.List.Forall2

/-!
# What a client sends back

Many a client sends the whole conversation at every turn, as it renders it, and not only what is new
(`run.ts`). `dropEchoedHistory` keeps what comes after the last row that the assistant or a tool has
given. A row of the assistant at the end is a prefill, unless the thread has all of what was sent.
Then the turn is dropped if the history ends with it already: it is taken for a retry.

The rule does not see the rows of the user at the end of the history (`unanswered`): after a run that
has failed they are kept as new (`dropEchoedHistory_rendered`), and stored a second time.

* `dropEchoedHistory`, `storedRows`: what is new, and what is stored of it;
* `Renders`: the history as a client renders it;
* `stores_new_iff`: when exactly the new rows are stored.
-/

open List

namespace Gnldev.Durable

open JsValue

/-! ## The trimming -/

/-- The row is of the assistant or of a tool. -/
def isEchoable (m : JsValue) : Bool :=
  (m.field (js "role")).isStr (js "assistant") || (m.field (js "role")).isStr (js "tool")

/-- `anchorBelow(limit) + 1`: where the rows before `limit` that are not echoable begin. -/
def anchorBelow (incoming : List JsValue) (limit : ℕ) : ℕ :=
  ((incoming.take limit).rdropWhile (!isEchoable ·)).length

/-- The text of a part, or its JSON. -/
def partText (p : JsValue) : JsString :=
  match p.field (js "text") with
  | .str s => s
  | _ => p.stringify.getD []

/-- `norm(m)`: the role and the text. -/
def normRow (m : JsValue) : JsString :=
  let role := match (m.field (js "role")).toText with
    | .ok s => s
    -- A role is no object.
    | .error _ => []
  let text := match m.field (js "content") with
    | .str s => s
    | .arr elems => (elems.map partText).flatten
    | c => c.stringify.getD (js "undefined")
  role ++ [0] ++ text

/-- How many rows match from where they begin in the history, or `none` if one does not. -/
def matchRows : List JsValue → List JsValue → Option ℕ
  | m :: compare, h :: history =>
    if normRow m = normRow h then (matchRows compare history).map (· + 1) else none
  | _, _ => some 0

/-- The history has all that was sent, up to the rows at its end, if that begins at `o`. -/
def isEchoAt (history incoming compare : List JsValue) (stop o : ℕ) : Bool :=
  (match matchRows compare (history.drop o) with
    | some matched => decide (0 < matched)
    | none => false) &&
  (List.range' (anchorBelow incoming stop) (stop - anchorBelow incoming stop)).all
    fun i => o + i < history.length

/-- The rows that are new. They are compared as the input processors render them. -/
def dropEchoedHistory (history incoming compare : List JsValue) : List JsValue :=
  if history.isEmpty then incoming
  else
    let stop := (incoming.rdropWhile isEchoable).length
    if stop = incoming.length then incoming.drop (anchorBelow incoming stop)
    else if (List.range (history.length + 1)).any (isEchoAt history incoming compare stop) then
      incoming.drop (anchorBelow incoming incoming.length)
    else incoming.drop (anchorBelow incoming stop)

/-- What is stored of the rows that were sent, without input processors. -/
def storedRows (S : TurnSetting JsValue) (history incoming : List JsValue) : List JsValue :=
  let fresh := dropEchoedHistory history incoming incoming
  if historyEndsWithIncoming S history fresh then [] else fresh

/-! ## What a client sends -/

def hasRole (role : String) (m : JsValue) : Bool := (m.field (js "role")).isStr (js role)

/-- A row of a thread. -/
def IsRow (m : JsValue) : Prop := hasRole "user" m ∨ hasRole "assistant" m ∨ hasRole "tool" m

/-- A row as a client renders it: one of the user verbatim, any other with its role and text. -/
structure Renders (stored sent : JsValue) : Prop where
  role : sent.field (js "role") = stored.field (js "role")
  text : normRow sent = normRow stored
  verbatim : hasRole "user" stored → sent = stored

/-- What a client adds: nothing, or rows of the user, and a prefill after them. -/
def NewRows (rows : List JsValue) : Prop :=
  rows = [] ∨ ∃ users prefill, rows = users ++ prefill ∧ users ≠ [] ∧
    (∀ m ∈ users, hasRole "user" m) ∧ prefill.length ≤ 1 ∧ ∀ m ∈ prefill, hasRole "assistant" m

/-- The rows of the user at the end of the history. -/
def unanswered (history : List JsValue) : List JsValue := history.rtakeWhile (!isEchoable ·)

section Roles

variable {m : JsValue}

theorem not_echoable_of_user (h : hasRole "user" m) : isEchoable m = false := by
  rw [hasRole] at h
  rw [isEchoable]
  rcases hrole : m.field (js "role") with _ | _ | _ | _ | s | _ | _ | _ <;>
    rw [hrole] at h <;> try contradiction
  obtain rfl : s = js "user" := by simpa [isStr] using h
  rfl

theorem IsRow.user_of_not_echoable (h : IsRow m) (hno : isEchoable m = false) :
    hasRole "user" m := by
  rw [isEchoable, Bool.or_eq_false_iff] at hno
  rcases h with huser | hassistant | htool
  · exact huser
  · exact absurd hassistant (by simp [hasRole, hno.1])
  · exact absurd htool (by simp [hasRole, hno.2])

theorem echoable_of_assistant (h : hasRole "assistant" m) : isEchoable m = true := by
  rw [hasRole] at h
  rw [isEchoable, h, Bool.true_or]

theorem Renders.echoable {stored sent : JsValue} (h : Renders stored sent) :
    isEchoable sent = isEchoable stored := by
  rw [isEchoable, isEchoable, h.role]

end Roles

/-! ## Rows at the end -/

section Lists

variable {A : Type} {p : A → Bool} {l s : List A}

theorem drop_rdropWhile (p : A → Bool) (l : List A) :
    l.drop (l.rdropWhile p).length = l.rtakeWhile p := by
  calc l.drop (l.rdropWhile p).length
      = (l.rdropWhile p ++ l.rtakeWhile p).drop (l.rdropWhile p).length := by
        rw [rdropWhile_append_rtakeWhile]
    _ = l.rtakeWhile p := drop_left

theorem rdropWhile_append_of_all (h : ∀ a ∈ s, p a) : (l ++ s).rdropWhile p = l.rdropWhile p := by
  induction s using List.reverseRecOn with
  | nil => rw [append_nil]
  | append_singleton s a ih =>
    rw [← append_assoc, rdropWhile_concat_pos _ _ _ (h a (by simp))]
    exact ih fun b hb => h b (mem_append_left _ hb)

theorem rtakeWhile_append_of_all (h : ∀ a ∈ s, p a) :
    (l ++ s).rtakeWhile p = l.rtakeWhile p ++ s := by
  induction s using List.reverseRecOn with
  | nil => rw [append_nil, append_nil]
  | append_singleton s a ih =>
    rw [← append_assoc, rtakeWhile_concat_pos _ _ _ (h a (by simp)),
      ih fun b hb => h b (mem_append_left _ hb), append_assoc]

end Lists

/-! ## What is new -/

section Trimming

variable {history echo fresh : List JsValue}

/-- No row that the user has sent before is seen to be one. -/
theorem unanswered_rendered (hecho : List.Forall₂ Renders history echo)
    (hrows : ∀ m ∈ history, IsRow m) : echo.rtakeWhile (!isEchoable ·) = unanswered history := by
  rw [unanswered, List.rtakeWhile, List.rtakeWhile]
  refine congrArg List.reverse ?_
  have hreverse := List.forall₂_reverse_iff.2 hecho
  have hrows' : ∀ m ∈ history.reverse, IsRow m := fun m hm => hrows m (mem_reverse.1 hm)
  -- From the end, as long as the rows are of the user, they are sent as they are stored.
  generalize history.reverse = rows, echo.reverse = sent at hreverse hrows'
  induction hreverse with
  | nil => rfl
  | @cons stored sent rows sents h _ ih =>
    rw [takeWhile_cons, takeWhile_cons, h.echoable,
      ih fun m hm => hrows' m (mem_cons_of_mem _ hm)]
    by_cases hechoable : isEchoable stored
    · simp [hechoable]
    · rw [Bool.not_eq_true] at hechoable
      rw [h.verbatim ((hrows' stored mem_cons_self).user_of_not_echoable hechoable)]

theorem matchRows_rendered (hecho : List.Forall₂ Renders history echo) :
    matchRows echo history = some history.length := by
  induction hecho with
  | nil => rfl
  | cons h _ ih => rw [matchRows, if_pos h.text, ih, Option.map_some, length_cons]

/-- The history as it was sent is an echo of itself. -/
theorem isEchoAt_rendered (hecho : List.Forall₂ Renders history echo) (hne : history ≠ [])
    {stop : ℕ} (hstop : stop ≤ history.length) : isEchoAt history echo echo stop 0 := by
  rw [isEchoAt, drop_zero, matchRows_rendered hecho, Bool.and_eq_true]
  refine ⟨by simpa [length_pos_iff] using hne, all_eq_true.2 fun i hi => ?_⟩
  rw [mem_range'_1] at hi
  simp only [Nat.zero_add, decide_eq_true_eq]
  omega

/-- What has a new row of the user before its end is no echo. -/
theorem not_isEchoAt {incoming compare : List JsValue} {stop o : ℕ}
    (hanchor : anchorBelow incoming stop ≤ history.length) (hstop : history.length < stop) :
    isEchoAt history incoming compare stop o = false := by
  rw [isEchoAt, Bool.and_eq_false_iff]
  refine .inr (all_eq_false.2 ⟨history.length, mem_range'_1.2 (by omega), ?_⟩)
  simp

/-- What is kept: the new rows, after those of the user at the end of the history. -/
theorem dropEchoedHistory_rendered (hne : history ≠ []) (hrows : ∀ m ∈ history, IsRow m)
    (hecho : List.Forall₂ Renders history echo) (hfresh : NewRows fresh) :
    dropEchoedHistory history (echo ++ fresh) (echo ++ fresh) = unanswered history ++ fresh := by
  have hsame := unanswered_rendered hecho hrows
  rw [dropEchoedHistory, if_neg (by simpa using hne)]
  dsimp only
  obtain rfl | ⟨users, prefill, rfl, husers, huser, hone, hprefill⟩ := hfresh
  · rw [append_nil, append_nil]
    have hall : echo.drop (anchorBelow echo echo.length) = unanswered history := by
      rw [anchorBelow, take_length, drop_rdropWhile, hsame]
    split
    · next h => rw [h, hall]
    · -- The last row is not of the user: all that was sent is in the history.
      have hstop : (echo.rdropWhile isEchoable).length ≤ history.length :=
        hecho.length_eq ▸ ( rdropWhile_prefix _ _).length_le
      rw [if_pos, hall]
      exact any_eq_true.2 ⟨0, by simp, isEchoAt_rendered hecho hne hstop⟩
  · have hopen : ∀ m ∈ users, (!isEchoable m) = true := fun m hm => by
      rw [not_echoable_of_user (huser m hm), Bool.not_false]
    have hkeep : (echo ++ users).rtakeWhile (!isEchoable ·) = unanswered history ++ users := by
      rw [rtakeWhile_append_of_all hopen, hsame]
    have hself : (echo ++ users).rdropWhile isEchoable = echo ++ users := by
      refine rdropWhile_eq_self_iff.2 fun _ => ?_
      rw [getLast_append_of_ne_nil _ husers]
      simpa using hopen _ (getLast_mem husers)
    rcases prefill with _ | ⟨m, _ | ⟨m', prefill⟩⟩
    · rw [append_nil, hself, if_pos rfl, anchorBelow, take_length, drop_rdropWhile, hkeep]
    · -- The last row is a prefill, if the rows of the user before it are new; they are.
      have hm : isEchoable m := echoable_of_assistant (hprefill m mem_cons_self)
      have hstop : (echo ++ (users ++ [m])).rdropWhile isEchoable = echo ++ users := by
        rw [← append_assoc, rdropWhile_concat_pos _ _ _ hm, hself]
      have hanchor : anchorBelow (echo ++ (users ++ [m])) (echo ++ users).length =
          ((echo ++ users).rdropWhile (!isEchoable ·)).length := by
        rw [anchorBelow, ← append_assoc, take_left]
      have hle : ((echo ++ users).rdropWhile (!isEchoable ·)).length ≤ history.length := by
        rw [rdropWhile_append_of_all hopen, hecho.length_eq]
        exact ( rdropWhile_prefix _ _).length_le
      have hlonger : history.length < (echo ++ users).length := by
        have hpos := length_pos_iff.2 husers
        rw [length_append, hecho.length_eq]
        omega
      rw [hstop, if_neg (by simp), if_neg]
      · rw [hanchor, ← append_assoc, drop_append_of_le_length
          ( rdropWhile_prefix _ _).length_le, drop_rdropWhile, hkeep, append_assoc]
      · rw [Bool.not_eq_true, any_eq_false]
        intro o _
        rw [not_isEchoAt (hanchor ▸ hle) hlonger]
        exact Bool.false_ne_true
    · simp at hone

end Trimming

/-! ## What is stored -/

section Stored

variable {S : TurnSetting JsValue} {history echo fresh : List JsValue}

theorem historyEndsWithIncoming_iff {Msg : Type} {S : TurnSetting Msg} {history incoming : List Msg} :
    historyEndsWithIncoming S history incoming ↔
      incoming ≠ [] ∧ incoming.map S.stringify <:+ history.map S.stringify := by
  rw [historyEndsWithIncoming, Bool.and_eq_true, Bool.and_eq_true, decide_eq_true_eq,
    decide_eq_true_eq, decide_eq_true_eq, and_assoc]
  refine and_congr_right fun _ => ⟨fun ⟨_, h⟩ => ?_, fun h => ?_⟩
  · rw [← h]
    exact (drop_suffix _ _).map _
  · have hle : incoming.length ≤ history.length := by simpa using h.length_le
    refine ⟨hle, ?_⟩
    rw [List.rtake, map_drop, suffix_iff_eq_drop.1 h, length_map, length_map]

/-- Exactly the new rows are stored, if there are none, or if the history ends with a row that is not
    of the user, and does not end with the new rows. -/
theorem stores_new_iff (S : TurnSetting JsValue) {history echo fresh : List JsValue}
    (hne : history ≠ []) (hrows : ∀ m ∈ history, IsRow m)
    (hecho : List.Forall₂ Renders history echo) (hfresh : NewRows fresh) :
    storedRows S history (echo ++ fresh) = fresh ↔
      fresh = [] ∨ unanswered history = [] ∧
        ¬fresh.map S.stringify <:+ history.map S.stringify := by
  rw [storedRows, dropEchoedHistory_rendered hne hrows hecho hfresh]
  by_cases hnil : fresh = []
  · subst hnil
    rw [append_nil]
    refine iff_of_true ?_ (.inl rfl)
    split
    · rfl
    · next hno =>
      -- What the user has sent last is in the history as it was sent.
      by_contra hopen
      refine hno (historyEndsWithIncoming_iff.2 ⟨hopen, ?_⟩)
      exact (rtakeWhile_suffix _ _).map _
  · by_cases hopen : unanswered history = []
    · rw [hopen, nil_append]
      by_cases hends : fresh.map S.stringify <:+ history.map S.stringify
      · rw [if_pos (historyEndsWithIncoming_iff.2 ⟨hnil, hends⟩)]
        simp [hends, hnil, Ne.symm hnil]
      · rw [if_neg fun h => hends (historyEndsWithIncoming_iff.1 h).2]
        simp [hends]
    · refine iff_of_false ?_ (by simp [hnil, hopen])
      split
      · exact Ne.symm hnil
      · intro h
        exact hopen (append_left_eq_self.1 h)

end Stored

/-! ## Conversations -/

/-- Rows are compared by their JSON. -/
def plainSetting : TurnSetting JsValue where
  stringify m := m.stringify.getD []

def userRow (text : String) : JsValue :=
  object [("role", .str (js "user")), ("content", .str (js text))]

/-- The assistant, as a client renders it. -/
def answerRow (text : String) : JsValue :=
  object [("role", .str (js "assistant")), ("content", .str (js text))]

/-- The assistant, as it is stored. -/
def answerParts (text : String) : JsValue :=
  object [("role", .str (js "assistant")), ("content",
    .arr [object [("type", .str (js "text")), ("text", .str (js text))]])]

/-- A new question, after one that was answered; the answer comes back as the client renders it. -/
theorem stores_new_iff_answered :
    storedRows plainSetting [userRow "a", answerParts "b"]
        ([userRow "a", answerRow "b"] ++ [userRow "c"]) = [userRow "c"] ↔
      [userRow "c"] = [] ∨ unanswered [userRow "a", answerParts "b"] = [] ∧
        ¬[userRow "c"].map plainSetting.stringify <:+
          [userRow "a", answerParts "b"].map plainSetting.stringify := by
  refine stores_new_iff plainSetting (by simp) ?_ ?_ ?_
  · simp only [forall_mem_cons]
    exact ⟨.inl rfl, .inr (.inl rfl), nofun⟩
  · exact .cons ⟨rfl, rfl, fun _ => rfl⟩ (.cons ⟨rfl, rfl, nofun⟩ .nil)
  · exact .inr ⟨[userRow "c"], [], rfl, by simp, by simp [hasRole]; rfl, by simp, nofun⟩

/-- A question that was not answered is stored again with the next one. -/
theorem unanswered_stored_again : ¬∀ history echo fresh : List JsValue, history ≠ [] →
    (∀ m ∈ history, IsRow m) → List.Forall₂ Renders history echo → NewRows fresh →
    storedRows plainSetting history (echo ++ fresh) = fresh := by
  intro h
  have hstored := h [userRow "a"] [userRow "a"] [userRow "b"] (by simp) ?_ ?_ ?_
  · have hlength := congrArg List.length hstored
    revert hlength
    decide +kernel
  · simp only [forall_mem_cons]
    exact ⟨.inl rfl, nofun⟩
  · exact .cons ⟨rfl, rfl, fun _ => rfl⟩ .nil
  · exact .inr ⟨[userRow "b"], [], rfl, by simp, by simp [hasRole]; rfl, by simp, nofun⟩

end Gnldev.Durable
