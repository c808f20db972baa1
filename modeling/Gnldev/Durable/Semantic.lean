import Gnldev.Durable.JournalKey
import Gnldev.Durable.Semantic.Rules
import Gnldev.Lib.OrderedMap
import Mathlib.Data.List.Sort
import Mathlib.Data.Rat.Defs
import Mathlib.Algebra.Order.Ring.Unbundled.Rat

/-!
# Past work that looks alike

The gate that asks about a side effect that was done before in other words (`semantic-dup.ts`). A
successful call leaves a record in its thread (`writeSemRecord`). Before a call the records of its
thread and tool are read, the most similar are taken, and walked in the order of their scores
(`scanCandidates`): a record whose identity fields are the same suspends the call, and so does one
that the rule ladder matches; what neither settles is gray.

The similarity is a parameter, and so is what the journal holds besides the records.
-/

namespace Gnldev.Durable.Semantic

/-- The fields of a call that decide. -/
structure SemFields where
  identity : FieldValues
  amounts : List (JsString × ℚ)
  discriminators : FieldValues

/-- The value at `xthr:<threadId>:sem-<toolName>-<argsHash>`. -/
structure SemDupRecord extends SemFields where
  toolName : JsString
  argsHash : JsString
  embedModelId : JsString
  templateVersion : JsString
  canonical : JsString
  vecB64 : Option JsString
  firstToolCallId : JsString
  at_ : ℤ

def SEM_TEMPLATE_VERSION : JsString := js "1"

structure SemanticIdentity where
  keys : List JsString
  amountFields : Option (List JsString)
  discriminatorFields : Option (List JsString)

structure SemanticDupConfig where
  embedModelId : JsString
  minSimilarity : Option ℚ
  topK : Option ℤ
  rules : Option RulesOption

structure SemPlan where
  cfg : SemanticDupConfig
  id : SemanticIdentity
  threadId : JsString
  toolName : JsString
  argsHash : JsString
  fields : SemFields
  canonical : JsString

/-! ## The journal -/

inductive JournalValue where
  | sem (r : SemDupRecord)
  | other

structure SemJournal where
  entries : OrderedMap JsString JournalValue
  /-- The journal can list its keys. -/
  listsKeys : Bool

/-- The record under a key. -/
def SemJournal.record (j : SemJournal) (k : JsString) : Option SemDupRecord :=
  match j.entries.get k with
  | some (.sem r) => some r
  | _ => none

/-- A success that is recorded: its plan, the vector of its sentence, its id and the time. -/
structure SemWrite where
  plan : SemPlan
  vecB64 : Option JsString
  firstToolCallId : JsString
  now : ℤ

/-- The record that is written over what is there. -/
def SemWrite.record (w : SemWrite) (cur : Option SemDupRecord) : SemDupRecord where
  toSemFields := w.plan.fields
  toolName := w.plan.toolName
  argsHash := w.plan.argsHash
  embedModelId := w.plan.cfg.embedModelId
  templateVersion := SEM_TEMPLATE_VERSION
  canonical := w.plan.canonical
  vecB64 := w.vecB64 <|> cur.bind (·.vecB64)
  firstToolCallId := (cur.map (·.firstToolCallId)).getD w.firstToolCallId
  at_ := (cur.map (·.at_)).getD w.now

/-- Best effort: without a key nothing is written. -/
def writeSemRecord (j : SemJournal) (w : SemWrite) : SemJournal :=
  match semKey w.plan.threadId w.plan.toolName w.plan.argsHash with
  | .error _ => j
  | .ok k => { j with entries := j.entries.put k (.sem (w.record (j.record k))) }

/-! ## The scan -/

/-- What an embedder answers. -/
inductive EmbedOutcome where
  /-- How similar a stored vector is; nothing for `NaN`. -/
  | vec (similarity : JsString → Option ℚ)
  | failed (outage : Bool)

structure Scored where
  record : SemDupRecord
  score : ℚ

structure GrayCandidate where
  record : SemDupRecord
  score : ℚ
  trace : List RuleTrace

inductive SemOrigin where
  | identity
  | rule
  deriving DecidableEq

/-- What is counted when nothing is asked. -/
structure SemNone where
  embedFailed : Bool := false
  outage : Bool := false
  noListKeys : Bool := false
  droppedIdentity : ℕ := 0
  droppedStamp : ℕ := 0
  droppedDiscriminator : ℕ := 0
  droppedByRule : ℕ := 0
  gray : List GrayCandidate := []

/-- What is asked, quoting a record. -/
structure SemSuspend where
  score : ℚ
  firstToolCallId : JsString
  priorHash : JsString
  priorCanonical : JsString
  amountsDiffer : List JsString
  origin : SemOrigin
  trace : List RuleTrace

inductive SemVerdict where
  | none (report : SemNone)
  | suspend (question : SemSuspend)

/-- What becomes of a key that is read. -/
inductive KeyOutcome where
  | skipped
  | droppedStamp
  | candidate (r : SemDupRecord)

namespace KeyOutcome

def isDroppedStamp : KeyOutcome → Bool
  | droppedStamp => true
  | _ => false

def record? : KeyOutcome → Option SemDupRecord
  | candidate r => some r
  | _ => none

end KeyOutcome

/-- The record can be compared with the call: the same embedder and sentence, and a vector. -/
def SemPlan.comparable (plan : SemPlan) (r : SemDupRecord) : Bool :=
  r.embedModelId = plan.cfg.embedModelId && r.templateVersion = SEM_TEMPLATE_VERSION &&
    r.vecB64.any (· ≠ [])

/-- `ttlMs !== undefined && nowMs - r.at > ttlMs`. -/
def agedOut (now : ℤ) (ttlMs : Option ℤ) (r : SemDupRecord) : Bool :=
  ttlMs.any fun ttl => now - r.at_ > ttl

def readKey (j : SemJournal) (plan : SemPlan) (now : ℤ) (ttlMs : Option ℤ) (k : JsString) :
    Except ToolError KeyOutcome :=
  match j.record k with
  | none => .ok .skipped
  | some r =>
    if r.toolName ≠ plan.toolName then .ok .skipped
    else do
      -- The address, rebuilt from the thread of the scan and the fields of the record.
      if k ≠ (← semKey plan.threadId r.toolName r.argsHash) then return .skipped
      if agedOut now ttlMs r then return .skipped
      if !plan.comparable r then return .droppedStamp
      let tomb ← semTombKey plan.threadId plan.toolName r.argsHash plan.argsHash
      if (j.entries.get tomb).isSome then return .skipped
      return .candidate r

/-- `slice(0, k)`. -/
def sliceTo {α : Type} (l : List α) (k : ℤ) : List α :=
  if 0 ≤ k then l.take k.toNat else l.take (l.length - (-k).toNat)

/-- The score of a candidate, if it is similar enough. -/
def scored (plan : SemPlan) (similarity : JsString → Option ℚ) (r : SemDupRecord) : Option Scored :=
  ((r.vecB64.bind similarity).filter fun score =>
    plan.cfg.minSimilarity.getD (3 / 5) ≤ score).map fun score => ⟨r, score⟩

/-- The candidates that are similar enough, the best first. -/
def ranked (plan : SemPlan) (similarity : JsString → Option ℚ) (candidates : List SemDupRecord) :
    List Scored :=
  (candidates.filterMap (scored plan similarity)).insertionSort fun a b => b.score ≤ a.score

/-- A declared discriminator differs. -/
def SemPlan.discriminates (plan : SemPlan) (r : SemDupRecord) : Bool :=
  (plan.id.discriminatorFields.getD []).any fun k =>
    valueOf r.discriminators k ≠ valueOf plan.fields.discriminators k

/-- All identity fields are equal. -/
def SemPlan.idEqual (plan : SemPlan) (r : SemDupRecord) : Bool :=
  plan.id.keys.all fun k => valueOf r.identity k = valueOf plan.fields.identity k

def SemPlan.amountsDiffer (plan : SemPlan) (r : SemDupRecord) : List JsString :=
  (plan.id.amountFields.getD []).filter fun k =>
    r.amounts.lookup k ≠ plan.fields.amounts.lookup k

/-- The question about a candidate. -/
def SemPlan.ask (plan : SemPlan) (c : Scored) (origin : SemOrigin) (trace : List RuleTrace) :
    SemSuspend where
  score := c.score
  firstToolCallId := c.record.firstToolCallId
  priorHash := c.record.argsHash
  priorCanonical := c.record.canonical
  amountsDiffer := plan.amountsDiffer c.record
  origin
  trace

/-- The candidates in the order of their scores: any match returns at once, and what is gray is
    collected. -/
def walk (U : Unicode) (plan : SemPlan) (rules : Option SemanticRulesConfig) :
    SemNone → List Scored → SemVerdict
  | report, [] => .none report
  | report, c :: rest =>
    if plan.discriminates c.record then
      walk U plan rules
        { report with droppedDiscriminator := report.droppedDiscriminator + 1 } rest
    else if plan.idEqual c.record then .suspend (plan.ask c .identity [])
    else
      match rules with
      | none =>
        walk U plan rules { report with
          droppedIdentity := report.droppedIdentity + 1
          gray := report.gray ++ [⟨c.record, c.score, []⟩] } rest
      | some cfg =>
        let ladder := runRuleLadder U plan.id.keys c.record.identity plan.fields.identity cfg
        match ladder.kind with
        | .separate =>
          walk U plan rules { report with droppedByRule := report.droppedByRule + 1 } rest
        | .matched => .suspend (plan.ask c .rule ladder.trace)
        | .gray =>
          walk U plan rules { report with
            droppedIdentity := report.droppedIdentity + 1
            gray := report.gray ++ [⟨c.record, c.score, ladder.trace⟩] } rest

/-- The keys that the records of a thread and a tool begin with. -/
def semPrefix (plan : SemPlan) : JsString :=
  js "xthr:" ++ plan.threadId ++ js ":sem-" ++ plan.toolName ++ js "-"

/-- The keys that are listed, but for that of the call itself. -/
def otherKeys (j : SemJournal) (plan : SemPlan) : Except ToolError (List JsString) :=
  let listed := (j.entries.entries.map Prod.fst).filter fun k => k.startsWith (semPrefix plan)
  if listed.isEmpty then .ok []
  else do
    let own ← semKey plan.threadId plan.toolName plan.argsHash
    return listed.filter (· ≠ own)

/-- The keys are read one after the other. -/
def readOutcomes (j : SemJournal) (plan : SemPlan) (now : ℤ) (ttlMs : Option ℤ) :
    Except ToolError (List KeyOutcome) := do
  (← otherKeys j plan).mapM (readKey j plan now ttlMs)

/-- The verdict on what was read. -/
def judge (U : Unicode) (plan : SemPlan) (embedded : EmbedOutcome) (outcomes : List KeyOutcome) :
    SemVerdict :=
  let droppedStamp := outcomes.countP (·.isDroppedStamp)
  let candidates := outcomes.filterMap (·.record?)
  if candidates.isEmpty then .none { droppedStamp }
  else
    match embedded with
    | .failed outage => .none { embedFailed := true, outage, droppedStamp }
    | .vec similarity =>
      walk U plan (rulesConfigOf plan.cfg.rules) { droppedStamp }
        (sliceTo (ranked plan similarity candidates) (plan.cfg.topK.getD 3))

def scanCandidates (U : Unicode) (j : SemJournal) (plan : SemPlan) (embedded : EmbedOutcome)
    (now : ℤ) (ttlMs : Option ℤ) : Except ToolError SemVerdict :=
  if j.listsKeys then (readOutcomes j plan now ttlMs).map (judge U plan embedded)
  else .ok (.none { noListKeys := true })

end Gnldev.Durable.Semantic
