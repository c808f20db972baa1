import Gnldev.Durable.AgentStream
import Gnldev.Durable.JournalKey
import Gnldev.Lib.RelyGuarantee

/-!
# Agent networks

A network run (`network.ts`): a router decides turn by turn which agent gets which task, until it
gives its final answer, or the turns are over and it is made to. Every decision, every veto of an
observer and the result of every step is frozen: the first record wins, and whoever comes later reads
it. What is not frozen is the ending of a call whose router could not be made to answer.

* `runNetwork`: the loop, as a program on the records of the run;
* `netMachine`: any number of calls on one run, each of which may stop anywhere;
* `network_replays` (`Network.Replays`): what calls that return say.
-/

namespace Gnldev.Durable

open Function

/-! ## Decisions -/

inductive RouteDecision where
  | route (agent task : JsString)
  | final (answer : JsString)
  deriving DecidableEq

/-- A step without its number. -/
structure TaskResult where
  agent : JsString
  task : JsString
  text : JsString
  deriving DecidableEq

structure NetworkStep extends TaskResult where
  i : ℕ
  deriving DecidableEq

/-- The call of a network. -/
structure RunNetworkOptions where
  runId : JsString
  /-- The agents by name, with their descriptions. -/
  agents : List (JsString × Option JsString)
  task : JsString
  system : Option JsString
  maxIterations : Option ℕ
  /-- There is an observer. -/
  observer : Bool
  /-- `JSON.parse`, unless it throws. -/
  parseJson : JsString → Option JsValue

def summarizeHistory (history : List NetworkStep) : JsString :=
  if history ≠ [] then
    (js "\n").intercalate (history.map fun h =>
      js "[" ++ decimal h.i ++ js "] agent=" ++ h.agent ++ js " task=\"" ++ h.task ++
        js "\" → result: " ++ h.text)
  else js "(no steps yet)"

/-- What follows, if there is a text. -/
def textIf (s : Option JsString) (f : JsString → JsString) : JsString :=
  match s.filter (· ≠ []) with
  | some s => f s
  | none => []

def routerPrompt (opts : RunNetworkOptions) (history : List NetworkStep) (force : Bool) : JsString :=
  let agentList := (js "\n").intercalate (opts.agents.map fun (name, d) =>
    js "- " ++ name ++ textIf d fun d => js ": " ++ d)
  let past := summarizeHistory history
  let actions :=
    if force then
      js "Iteration limit reached. MANDATORY: write the final answer from the results at hand:\n" ++
      js "\x7b\"action\":\"final\",\"answer\":\"<answer>\"\x7d"
    else
      js "Choose ONE of these two actions and respond with ONLY a single line of JSON:\n" ++
      js "\x7b\"action\":\"route\",\"agent\":\"<agent name>\"," ++
      js "\"task\":\"<clear task to give that agent>\"\x7d\n" ++
      js "\x7b\"action\":\"final\",\"answer\":\"<final answer for the user>\"\x7d"
  js "You are a router (supervisor) agent. Solve the task by splitting it across sub-agents.\n" ++
    (textIf opts.system fun s => s ++ js "\n") ++
    js "\nAvailable agents:\n" ++ agentList ++ js "\n" ++
    js "\nMain task: " ++ opts.task ++ js "\n" ++
    js "\nSteps so far:\n" ++ past ++ js "\n\n" ++ actions

/-- The rest of a JSON object whose braces are open `depth` times, up to where they are closed. -/
def closeJson : ℕ → Bool → Bool → JsString → Option JsString
  | _, _, _, [] => none
  | depth, inStr, esc, ch :: s =>
    if esc then (closeJson depth inStr false s).map (ch :: ·)
    else if inStr then
      if ch = 0x5C then (closeJson depth true true s).map (ch :: ·)
      else if ch = 0x22 then (closeJson depth false false s).map (ch :: ·)
      else (closeJson depth true false s).map (ch :: ·)
    else if ch = 0x22 then (closeJson depth true false s).map (ch :: ·)
    else if ch = 0x7B then (closeJson (depth + 1) false false s).map (ch :: ·)
    else if ch = 0x7D then
      if depth - 1 = 0 then some [ch] else (closeJson (depth - 1) false false s).map (ch :: ·)
    else (closeJson depth false false s).map (ch :: ·)

/-- The first JSON object in a text whose braces are balanced. -/
def firstJsonObject (text : JsString) : Option JsString :=
  match text.dropWhile (· ≠ 0x7B) with
  | [] => none
  | s => closeJson 0 false false s

/-- `agents[name]` is there. An object has its prototype's methods, too. -/
def isRegistered (opts : RunNetworkOptions) (name : JsString) : Bool :=
  (opts.agents.lookup name).isSome || name ∈ OBJECT_PROTOTYPE || name = js "__proto__"

/-- The string that a value is. -/
def asString : JsValue → Option JsString
  | .str s => some s
  | _ => none

/-- The decision in the text of a router, or why there is none. -/
def parseDecision (opts : RunNetworkOptions) (text : JsString) (force : Bool) :
    Except JsString RouteDecision :=
  match firstJsonObject text with
  | none => .error (js "no JSON in router response: " ++ text.take 200)
  | some raw =>
    match opts.parseJson raw with
    | none => .error (js "router JSON could not be parsed: " ++ raw.take 200)
    | some obj =>
      let action := obj.field (js "action")
      match action.isStr (js "final"), asString (obj.field (js "answer")) with
      | true, some answer => .ok (.final answer)
      | _, _ =>
        if force then
          .error (js "router was forced to final but did not return 'final': " ++ raw.take 200)
        else
          match action.isStr (js "route"), asString (obj.field (js "agent")),
            asString (obj.field (js "task")) with
          | true, some agent, some task =>
            if isRegistered opts agent then .ok (.route agent task)
            else .error (js "router picked an unknown agent: '" ++ agent ++ js "'. Valid: " ++
              (js ", ").intercalate (opts.agents.map Prod.fst))
          | _, _, _ => .error (js "router decision not recognized: " ++ raw.take 200)

/-! ## Operations -/

inductive NetError where
  | noAgents
  /-- The model of the router cannot be reached. -/
  | router (message : JsString)
  | noDecision (message : JsString)
  | agentNotRegistered (agent : JsString)
  | claimLost (key : JsString)
  | agent (message : JsString)
  | typeError
  deriving DecidableEq

/-- What an agent that is stopped asks of a human. -/
abbrev NetInterrupts := List JsValue

/-- An observer's answer to `onAgentStart` with `skip: true`: the result in place of the agent's. -/
abbrev DelegationVeto := Option JsString

/-- What an observer is told. -/
inductive Notice where
  | routeStart (iter : ℕ) (contextSummary : JsString)
  | routeDecision (iter : ℕ) (decision : RouteDecision) (fromCache : Bool)
  | agentStart (iter : ℕ) (agent task : JsString) (fromCache : Bool)
  /-- `none` is `{ cached: true }`. -/
  | agentFinish (iter : ℕ) (agent : JsString) (text : Option JsString)
  | final (text : JsString)

/-- An operation of a call. A record is given by its turn; the last decision has none. -/
inductive NetOp where
  | getRoute (i : Option ℕ)
  | claimRoute (i : Option ℕ) (decision : RouteDecision)
  | getStep (i : ℕ)
  | claimStep (i : ℕ) (res : TaskResult)
  | getVeto (i : ℕ)
  | claimVeto (i : ℕ) (veto : DelegationVeto)
  /-- The turn and the attempt are not sent. They tell the calls apart. -/
  | generateText (i : Option ℕ) (attempt : ℕ) (prompt : JsString)
  | run (i : ℕ) (agent task nestedRunId : JsString)
  | notify (notice : Notice)

/-- The answers. An observer that throws has answered nothing. -/
abbrev NetOp.Res : NetOp → Type
  | getRoute _ => Option RouteDecision
  | claimRoute _ _ => Bool
  | getStep _ => Option TaskResult
  | claimStep _ _ => Bool
  | getVeto _ => Option DelegationVeto
  | claimVeto _ _ => Bool
  | generateText _ _ _ => Except NetError JsString
  | run _ _ _ _ => Except NetError (JsString × NetInterrupts)
  | notify _ => Option DelegationVeto

/-- The programs of a network. -/
abbrev NetM := ExceptT NetError (Prog NetOp NetOp.Res)

/-- An operation that does not throw. -/
def performNet (o : NetOp) : NetM o.Res := liftM (Prog.perform o : Prog NetOp NetOp.Res o.Res)

def generateText (i : Option ℕ) (attempt : ℕ) (prompt : JsString) : NetM JsString :=
  ExceptT.mk (Prog.perform (NetOp.generateText i attempt prompt) :
    Prog NetOp NetOp.Res (Except NetError JsString))

def runAgent (i : ℕ) (agent task nestedRunId : JsString) : NetM (JsString × NetInterrupts) :=
  ExceptT.mk (Prog.perform (NetOp.run i agent task nestedRunId) :
    Prog NetOp NetOp.Res (Except NetError (JsString × NetInterrupts)))

section Calls

variable (opts : RunNetworkOptions)

/-- Tell the observer, if there is one. -/
def notify (notice : Notice) : NetM (Option DelegationVeto) :=
  if opts.observer then performNet (.notify notice) else return none

/-! ## The loop -/

/-- The decision of the router. If its first answer is not one, it is asked once more. -/
def decideOnce (i : Option ℕ) (history : List NetworkStep) : NetM RouteDecision := do
  let force := i.isNone
  let base := routerPrompt opts history force
  let text ← generateText i 0 base
  match parseDecision opts text force with
  | .ok decision => return decision
  | .error message =>
    let text ← generateText i 1 (base ++ js "\n\nYour previous answer was invalid (" ++ message ++
      js "). Respond with only a single line of valid JSON.")
    match parseDecision opts text force with
    | .ok decision => return decision
    | .error message => throw (.noDecision message)

/-- The frozen decision of a turn: the first one wins. -/
def frozenDecision (i : Option ℕ) (history : List NetworkStep) : NetM RouteDecision := do
  match ← performNet (.getRoute i) with
  | some decision => return decision
  | none =>
    let decision ← decideOnce opts i history
    if ← performNet (.claimRoute i decision) then return decision
    match ← performNet (.getRoute i) with
    | some winner => return winner
    | none => throw (.claimLost (netKeys.route opts.runId i))

structure NetworkResult where
  runId : JsString
  text : JsString
  steps : List NetworkStep
  iterations : ℕ
  /-- The turns were over. -/
  stopped : Bool
  interrupts : NetInterrupts
  suspended : Option (ℕ × JsString × JsString)

/-- Freeze the result of a step, or read the one that was. -/
def freezeStep (i : ℕ) (res : TaskResult) : NetM TaskResult := do
  if ← performNet (.claimStep i res) then return res
  match ← performNet (.getStep i) with
  | some winner => return winner
  | none => throw .typeError

/-- Whether the observer, or an earlier attempt, has vetoed the step, with the result in its place. -/
def vetoOf (i : ℕ) (agent task : JsString) : NetM (Option DelegationVeto) := do
  match ← performNet (.getVeto i) with
  | some veto =>
    let _ ← notify opts (.agentStart i agent task true)
    return some veto
  | none =>
    match ← notify opts (.agentStart i agent task false) with
    | some veto =>
      let _ ← performNet (.claimVeto i veto)
      return some veto
    | none => return none

/-- The step of a turn: its result, or what its agent asks of a human. -/
def networkStep (i : ℕ) (agent task : JsString) : NetM (TaskResult ⊕ NetInterrupts) := do
  match ← performNet (.getStep i) with
  | some res =>
    let _ ← notify opts (.agentStart i agent task true)
    let _ ← notify opts (.agentFinish i agent none)
    return .inl res
  | none =>
    match ← vetoOf opts i agent task with
    | some replaceResult =>
      let res ← freezeStep i ⟨agent, task, replaceResult.getD []⟩
      let _ ← notify opts (.agentFinish i agent (some res.text))
      return .inl res
    | none =>
      if (opts.agents.lookup agent).isNone then throw .typeError
      let (text, interrupts) ← runAgent i agent task (js "net:" ++ opts.runId ++ js ":" ++ decimal i)
      if interrupts ≠ [] then return .inr interrupts
      let res ← freezeStep i ⟨agent, task, text⟩
      let _ ← notify opts (.agentFinish i agent (some res.text))
      return .inl res

/-- The result of a call whose agent is stopped. -/
def suspendedResult (steps : List NetworkStep) (i : ℕ) (agent task : JsString)
    (interrupts : NetInterrupts) : NetworkResult :=
  ⟨opts.runId, [], steps, i, false, interrupts, some (i, agent, task)⟩

/-- The result of a call whose router has answered. -/
def finalResult (steps : List NetworkStep) (i : ℕ) (answer : JsString) : NetworkResult :=
  ⟨opts.runId, answer, steps, i, false, [], none⟩

def lastText (steps : List NetworkStep) : JsString := (steps.getLast?.map (·.text)).getD []

/-- The answer that the router is made to give. -/
def forcedAnswer (maxIterations : ℕ) (steps : List NetworkStep) : NetM JsString := do
  let finalFromCache := (← performNet (.getRoute none)).isSome
  let _ ← notify opts (.routeStart maxIterations (summarizeHistory steps))
  let forced ← frozenDecision opts none steps
  let _ ← notify opts (.routeDecision maxIterations forced finalFromCache)
  match forced with
  | .final answer => return answer
  | .route .. => return lastText steps

/-- The ending of a call whose turns are over. -/
def forceFinal (maxIterations : ℕ) (steps : List NetworkStep) : NetM NetworkResult := do
  let answer ← tryCatch (forcedAnswer opts maxIterations steps) fun _ => return lastText steps
  let _ ← notify opts (.final answer)
  return ⟨opts.runId, answer, steps, maxIterations, true, [], none⟩

/-- The turns from `i` on, of which `left` are left. -/
def networkLoop : ℕ → ℕ → List NetworkStep → NetM NetworkResult
  | 0, i, steps => forceFinal opts i steps
  | left + 1, i, steps => do
    let routeFromCache := (← performNet (.getRoute (some i))).isSome
    let _ ← notify opts (.routeStart i (summarizeHistory steps))
    let decision ← frozenDecision opts (some i) steps
    let _ ← notify opts (.routeDecision i decision routeFromCache)
    match decision with
    | .final answer =>
      let _ ← notify opts (.final answer)
      return finalResult opts steps i answer
    | .route agent task =>
      if !isRegistered opts agent then throw (.agentNotRegistered agent)
      match ← networkStep opts i agent task with
      | .inr interrupts => return suspendedResult opts steps i agent task interrupts
      | .inl res => networkLoop left (i + 1) (steps ++ [⟨res, i⟩])

def RunNetworkOptions.turns : ℕ := opts.maxIterations.getD 6

/-- A network run, of a run that is admitted. -/
def runNetwork : NetM NetworkResult :=
  if opts.agents = [] then throw .noAgents else networkLoop opts opts.turns 0 []

end Calls

/-! ## The machine -/

/-- The records of a network run, and what has happened. -/
structure NetWorld where
  route : Option ℕ → Option RouteDecision
  step : ℕ → Option TaskResult
  veto : ℕ → Option DelegationVeto
  /-- Whether the observer vetoed the step, when it was first asked. -/
  asked : ℕ → Option Bool
  /-- The agent's run for the step has completed. -/
  finished : ℕ → Bool
  /-- The call has called the router or an agent. -/
  called : ℕ → Bool

/-- What the code outside the model answers. -/
structure NetAnswer where
  text : Except NetError JsString
  agent : Except NetError (JsString × NetInterrupts)
  verdict : Option DelegationVeto

namespace NetWorld

/-- The observer has answered whether it vetoes the step. -/
def ask (w : NetWorld) (i : ℕ) (vetoed : Bool) : NetWorld :=
  { w with asked := update w.asked i (some ((w.asked i).getD vetoed)) }

/-- The call `j` has called the router or an agent. -/
def call (w : NetWorld) (j : ℕ) : NetWorld := { w with called := update w.called j true }

/-- An agent's run for the step has returned. -/
def finish (w : NetWorld) (i : ℕ) : Except NetError (JsString × NetInterrupts) → NetWorld
  | .ok (_, []) => { w with finished := update w.finished i true }
  | _ => w

end NetWorld

/-- The first record of a key stays. -/
def claimAt {K V : Type} [DecidableEq K] (m : K → Option V) (k : K) (v : V) : K → Option V :=
  update m k (some ((m k).getD v))

/-- Calls on one run. A call that does not move any more has crashed. -/
def netMachine : Machine NetOp NetOp.Res NetWorld NetAnswer Empty where
  exec j a
    | .getRoute i, w => (w.route i, w)
    | .claimRoute i decision, w =>
      ((w.route i).isNone, { w with route := claimAt w.route i decision })
    | .getStep i, w => (w.step i, w)
    | .claimStep i res, w => ((w.step i).isNone, { w with step := claimAt w.step i res })
    | .getVeto i, w => (w.veto i, w)
    | .claimVeto i veto, w => ((w.veto i).isNone, { w with veto := claimAt w.veto i veto })
    | .generateText .., w => (a.text, w.call j)
    | .run i .., w => (a.agent, (w.call j).finish i a.agent)
    | .notify (.agentStart i _ _ false), w => (a.verdict, w.ask i a.verdict.isSome)
    | .notify _, w => (a.verdict, w)
  env e := e.elim

/-- Nothing has happened. -/
def NetWorld.empty : NetWorld :=
  ⟨fun _ => none, fun _ => none, fun _ => none, fun _ => none, fun _ => false, fun _ => false⟩

/-- Any number of calls of one network on one run, that begins. -/
def netStart (opts : RunNetworkOptions) :
    Conf NetOp NetOp.Res (Except NetError NetworkResult) NetWorld :=
  ⟨.empty, fun _ => (runNetwork opts).run⟩

end Gnldev.Durable
