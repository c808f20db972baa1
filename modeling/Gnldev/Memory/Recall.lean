import Gnldev.Lib.Paired
import Gnldev.Memory.Window

/-!
# The prompt that recall composes

A prompt begins with rows that recall has found, of this thread and of others, and ends with the last
rows of the thread (`agent-memory.ts`, `composeTrack1`). A row with tool calls is found alone, so the
rows that answer it are fetched from its thread; a row that shows a call or a result a second time is
dropped (`pairRecalledToolCalls`). The last rows are cut by their number, and appended as they are.
-/

namespace Gnldev.Memory

/-- A row, with the thread it is of. -/
structure ThreadRecord extends MessageRecord where
  threadId : JsString
  deriving DecidableEq

/-- Why a row is left out. -/
inductive DropReason where
  | unansweredToolCall | duplicateToolCallId
  deriving DecidableEq

/-! ## Pairing -/

/-- Add the ids to the set, if there are any and all are new. -/
def claim (set ids : List JsString) : Option (List JsString) :=
  if ids ≠ [] ∧ ∀ id ∈ ids, id ∉ set then some (set ++ ids) else none

/-- The state of the loop over what recall has found. -/
structure Pairing where
  answered : List JsString
  seenCall : List JsString
  seenResult : List JsString
  out : List ThreadRecord
  dropped : List (ThreadRecord × DropReason)

/-- The rows that show new results, and the results shown then. -/
def claimFresh : List JsString → List ThreadRecord → List ThreadRecord × List JsString
  | seenResult, [] => ([], seenResult)
  | seenResult, m :: repair =>
    match claim seenResult m.results with
    | some seenResult =>
      let (fresh, seenResult) := claimFresh seenResult repair
      (m :: fresh, seenResult)
    | none => claimFresh seenResult repair

/-- The first row of the thread after the call that answers it. -/
def answerTo (allMessages : JsString → List ThreadRecord) (r : ThreadRecord) (id : JsString) :
    Option ThreadRecord :=
  (allMessages r.threadId).find? fun m => r.seq < m.seq ∧ id ∈ m.results

/-- One row that recall has found. -/
def pairRow (allMessages : JsString → List ThreadRecord) (s : Pairing) (r : ThreadRecord) : Pairing :=
  if r.calls = [] then
    if r.results = [] then { s with out := s.out ++ [r] }
    else
      match claim s.seenResult r.results with
      | some seenResult => { s with seenResult, out := s.out ++ [r] }
      | none => { s with dropped := s.dropped ++ [(r, .duplicateToolCallId)] }
  else
    match claim s.seenCall r.calls with
    | none => { s with dropped := s.dropped ++ [(r, .duplicateToolCallId)] }
    | some seenCall =>
      let missing := r.calls.filter (· ∉ s.answered)
      if missing = [] then { s with seenCall, out := s.out ++ [r] }
      else
        let repair := missing.filterMap (answerTo allMessages r)
        let found := repair.flatMap (·.results)
        if ∃ id ∈ missing, id ∉ found then
          { s with seenCall, dropped := s.dropped ++ [(r, .unansweredToolCall)] }
        else
          let (fresh, seenResult) := claimFresh s.seenResult repair
          { s with
            answered := s.answered ++ found
            seenCall, seenResult
            out := s.out ++ r :: fresh }

/-- What is put before the window, and what is left out. -/
def pairRecalledToolCalls (allMessages : JsString → List ThreadRecord)
    (injected recent : List ThreadRecord) : List ThreadRecord × List (ThreadRecord × DropReason) :=
  if injected.any (·.calls ≠ []) then
    let answered := (injected ++ recent).flatMap (·.results)
    let s := injected.foldl (pairRow allMessages) ⟨answered, [], [], [], []⟩
    (s.out, s.dropped)
  else (injected, [])

/-! ## Composing -/

def PROVENANCE_RECENT_CAP : ℤ := 24

/-- `slice(-n)`, of an array. -/
def sliceLast {α : Type} (n : ℤ) (all : List α) : List α :=
  if 0 < n then all.drop (all.length - n.toNat) else all.drop (-n).toNat

inductive Scope where
  | thread | resource
  deriving DecidableEq

/-- The memory of an agent: how many rows the window has, whether texts can be compared, where recall
    looks, what the store holds, and what it finds for a query. -/
structure AgentMemory where
  recentN : ℤ
  embed : Bool
  scope : Option Scope
  allMessages : JsString → List ThreadRecord
  «recall» : JsString → JsString → Option Scope → List ThreadRecord

/-- A composed prompt, and where its rows come from. -/
structure Track1 where
  messages : List ModelMessage
  /-- What recall has put before the window; a fetched row is marked. -/
  recalled : List (ThreadRecord × Bool)
  dropped : List (ThreadRecord × DropReason)
  droppedCount : ℕ
  recent : List ThreadRecord
  recentCount : ℕ

namespace AgentMemory

variable (memory : AgentMemory)

/-- The last rows of the thread. -/
def recent (threadId : JsString) : List ThreadRecord :=
  sliceLast memory.recentN (memory.allMessages threadId)

/-- Whether there is something to look for, and somewhere to look. -/
def searches (threadId : JsString) (query : Option JsString) (scope : Option Scope) : Bool :=
  let fitsInWindow := (memory.allMessages threadId).length ≤ memory.recentN ∧
    scope.or memory.scope ≠ some .resource
  query.getD [] ≠ [] && memory.embed && !fitsInWindow

/-- What recall finds, without the rows of the window. -/
def deduped (threadId : JsString) (query : Option JsString) (scope : Option Scope) :
    List ThreadRecord :=
  let recentSeqs := (memory.recent threadId).map (·.seq)
  (memory.recall threadId (query.getD []) (scope.or memory.scope)).filter fun r =>
    ¬(r.threadId = threadId ∧ r.seq ∈ recentSeqs)

/-- The rows that pairing is given. -/
def injected (threadId : JsString) (query : Option JsString) (scope : Option Scope) :
    List ThreadRecord :=
  if memory.searches threadId query scope then memory.deduped threadId query scope else []

def composeTrack1 (threadId : JsString) (query : Option JsString) (scope : Option Scope) : Track1 :=
  let all := memory.allMessages threadId
  let recent := memory.recent threadId
  if memory.searches threadId query scope then
    let deduped := memory.deduped threadId query scope
    let (injected, dropped) := pairRecalledToolCalls memory.allMessages deduped recent
    { messages := injected.map (·.message) ++ recent.map (·.message)
      recalled := injected.map fun r =>
        (r, ¬∃ d ∈ deduped, d.threadId = r.threadId ∧ d.seq = r.seq)
      dropped := dropped.take PROVENANCE_RECENT_CAP.toNat
      droppedCount := dropped.length
      recent := sliceLast PROVENANCE_RECENT_CAP recent
      recentCount := recent.length }
  else
    let window := if all.length ≤ memory.recentN then all else recent
    { messages := window.map (·.message)
      recalled := []
      dropped := []
      droppedCount := 0
      recent := sliceLast PROVENANCE_RECENT_CAP window
      recentCount := window.length }

end AgentMemory

end Gnldev.Memory
