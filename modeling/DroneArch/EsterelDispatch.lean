import DroneArch.EsterelOrder
import DroneArch.Runs

/-! # The plan dispatcher

ROSPlan's dispatcher of plan graphs (`EsterelPlanDispatcher.cpp`, with the services of `PlanDispatcher.cpp`) as a step
function.  A dispatch goes through all nodes of the plan again and again; after each pass it takes the messages that have
arrived (`ros::spinOnce`).  An event is one step of the dispatcher or a message it takes; between two nodes of a pass the
knowledge base may change, so each visit of a node comes with its own `Answer`.

The identifiers of a plan are keys of C++ maps, whose missing entries read as false.  `executing`, `done` and `log` are
histories that no branch reads: the plan of the dispatch, the nodes handled since it began, and what was sent and
accepted.  Left out are the graph that is printed, the pause, which nothing sets, and the action server, which nothing in
the repository calls. -/

namespace DroneArch.Esterel

open EsterelPlan

/-! ### The state -/

/-- How a dispatch ended: all edges were taken, it was cancelled, or a new plan is needed. -/
inductive Outcome
  | complete
  | cancelled
  | replan
deriving DecidableEq

/-- The result of `dispatchPlan`. -/
def Outcome.success : Outcome → Bool
  | .complete => true
  | .cancelled => true
  | .replan => false

/-- Where the dispatcher is: waiting for a request, at the head of its loop, in a pass with the nodes left, taking
messages after the pass, or in `reset` with the nodes left, which it runs twice, before and after taking messages. -/
inductive Pc
  | idle
  | loop
  | pass (rest : List EsterelPlanNode)
  | spin
  | reset (rest : List EsterelPlanNode) (again : Bool) (outcome : Outcome)
  | resetSpin (rest : List EsterelPlanNode) (again : Bool) (outcome : Outcome)
deriving DecidableEq

/-- What was sent and accepted. -/
inductive Entry
  | publish (msg : ActionDispatch)
  | achieved (actionId : ℕ)
  | failed (actionId : ℕ)
deriving DecidableEq

structure Dispatcher where
  pc : Pc := .idle
  currentPlan : EsterelPlan := {}
  actionDispatched : ℕ → Bool := fun _ => false
  actionReceived : ℕ → Bool := fun _ => false
  actionCompleted : ℕ → Bool := fun _ => false
  edgeActive : ℕ → Bool := fun _ => false
  replanRequested : Bool := false
  planCancelled : Bool := false
  finishedExecution : Bool := true
  planStarted : Bool := false
  dispatching : Bool := false
  results : List Bool := []
  executing : EsterelPlan := {}
  done : List ℕ := []
  log : List Entry := []

/-- A status that the action interface sends back. -/
inductive Status
  | enabled
  | achieved
  | failed
deriving DecidableEq

structure ActionFeedback where
  actionId : ℕ
  status : Status
deriving DecidableEq

/-- The time of a visit against the bounds of an edge. -/
inductive Timing
  | early
  | inside
  | late
deriving DecidableEq

/-- What the world answers during the visit of a node: whether the preconditions of its action hold, and how the clock
stands to the bounds of each edge. -/
structure Answer where
  preconditions : Bool := true
  timing : ℕ → Timing := fun _ => .inside

/-! ### One node -/

namespace Dispatcher

/-- A node has been handled: the edges to it are used up, the edges from it become active. -/
def handle (node : EsterelPlanNode) (d : Dispatcher) : Dispatcher :=
  { d with
    edgeActive := fun e => decide (e ∈ node.edgesOut) || (d.edgeActive e && !decide (e ∈ node.edgesIn))
    finishedExecution := false
    done := d.done ++ [node.nodeId] }

/-- All edges to the node are active. -/
def ready (d : Dispatcher) (node : EsterelPlanNode) : Bool := node.edgesIn.all d.edgeActive

/-- The time bounds of the edges to a node: whether it may go on. -/
def checkTimes (timing : ℕ → Timing) (ended : Bool) : List ℕ → Dispatcher → Dispatcher × Bool
  | [], d => (d, true)
  | e :: es, d =>
      match timing e with
      | .early => ({ d with finishedExecution := false }, false)
      | .inside => checkTimes timing ended es d
      | .late => if ended then checkTimes timing ended es d else
          ((checkTimes timing ended es { d with replanRequested := true }).1, false)

/-- The bounds, when actions can time out. -/
def checkBounds (timeoutActions : Bool) (timing : ℕ → Timing) (ended : Bool) (es : List ℕ) (d : Dispatcher) :
    Dispatcher × Bool :=
  if timeoutActions then checkTimes timing ended es d else (d, true)

/-- Dispatch the action of a node, if its preconditions hold. -/
def dispatchAction (timeoutActions preconditions : Bool) (node : EsterelPlanNode) (d : Dispatcher) : Dispatcher :=
  if preconditions then
    { d.handle node with
      actionDispatched := Function.update d.actionDispatched node.action.actionId true
      actionReceived := Function.update d.actionReceived node.action.actionId false
      actionCompleted := Function.update d.actionCompleted node.action.actionId false
      log := d.log ++ [.publish node.action] }
  else { d with finishedExecution := false, replanRequested := d.replanRequested || timeoutActions }

/-- The rest of a visit, once the edges to the node of an action are active. -/
def activate (timeoutActions : Bool) (answer : Answer) (node : EsterelPlanNode) (d : Dispatcher) : Dispatcher :=
  let ended := decide (node.nodeType = .actionEnd) && d.actionCompleted node.action.actionId
  let d := if ended then d.handle node else d
  let times := checkBounds timeoutActions answer.timing ended node.edgesIn d
  if times.2 && decide (node.nodeType = .actionStart) && !times.1.actionDispatched node.action.actionId then
    times.1.dispatchAction timeoutActions answer.preconditions node
  else times.1

/-- The body of the loop over the nodes. -/
def visit (timeoutActions : Bool) (answer : Answer) (node : EsterelPlanNode) (d : Dispatcher) : Dispatcher :=
  match node.nodeType with
  | .planStart => if d.planStarted then d else
      { d.handle node with
        -- the edges to the start of the plan are not used up
        edgeActive := fun e => decide (e ∈ node.edgesOut) || d.edgeActive e
        planStarted := true }
  | _ =>
      let id := node.action.actionId
      let d := if d.actionDispatched id && !d.actionCompleted id then { d with finishedExecution := false } else d
      if d.ready node then d.activate timeoutActions answer node else d

/-! ### Messages -/

/-- `feedbackCallback`. -/
def feedbackCallback (msg : ActionFeedback) (d : Dispatcher) : Dispatcher :=
  match msg.status with
  | .enabled => { d with actionReceived := Function.update d.actionReceived msg.actionId true }
  | .achieved =>
      if !d.actionCompleted msg.actionId && d.actionReceived msg.actionId then
        { d with
          actionCompleted := Function.update d.actionCompleted msg.actionId true
          log := d.log ++ [.achieved msg.actionId] }
      else d
  | .failed =>
      if !d.actionCompleted msg.actionId && d.actionReceived msg.actionId then
        { d with
          actionCompleted := Function.update d.actionCompleted msg.actionId true
          replanRequested := true
          log := d.log ++ [.failed msg.actionId] }
      else d

/-- `planCallback`. -/
def planCallback (plan : EsterelPlan) (d : Dispatcher) : Dispatcher :=
  if d.finishedExecution then { d with currentPlan := plan } else d

/-! ### The control flow -/

/-- The start of `dispatchPlanService` and `dispatchPlan`; `initialise` clears all that the plan mentions. -/
def begin (d : Dispatcher) : Dispatcher :=
  let ids := d.currentPlan.nodes.map (fun n => n.action.actionId)
  let edges := d.currentPlan.edges.map EsterelPlanEdge.edgeId
  { d with
    pc := .loop
    dispatching := true
    replanRequested := false
    planCancelled := false
    actionDispatched := fun id => d.actionDispatched id && !decide (id ∈ ids)
    actionReceived := fun id => d.actionReceived id && !decide (id ∈ ids)
    actionCompleted := fun id => d.actionCompleted id && !decide (id ∈ ids)
    edgeActive := fun e => d.edgeActive e && !decide (e ∈ edges)
    finishedExecution := false
    planStarted := false
    executing := d.currentPlan
    done := []
    log := [] }

/-- The message that asks for the end of an action. -/
def cancelMessage (node : EsterelPlanNode) : ActionDispatch := { node.action with name := "cancel_action" }

/-- The end of `reset`. -/
def clear (d : Dispatcher) : Dispatcher :=
  { d with
    replanRequested := false
    planCancelled := false
    actionReceived := fun _ => false
    actionCompleted := fun _ => false
    dispatching := false
    finishedExecution := true }

/-- One step of the dispatcher.  `dispatchPlan` ends with `reset`, and the service that called it runs `reset` once
more. -/
def advance (timeoutActions : Bool) (answer : Answer) (d : Dispatcher) : Option Dispatcher :=
  match d.pc with
  | .idle => none
  | .loop => some
      (if d.finishedExecution then { d with pc := .reset d.currentPlan.nodes false .complete }
      else if d.planCancelled then { d with pc := .reset d.currentPlan.nodes false .cancelled }
      else { d with finishedExecution := true, pc := .pass d.currentPlan.nodes })
  | .pass [] => some { d with pc := .spin }
  | .pass (node :: rest) => some { d.visit timeoutActions answer node with pc := .pass rest }
  | .spin => some
      (if d.replanRequested then { d with pc := .reset d.currentPlan.nodes false .replan } else { d with pc := .loop })
  | .reset [] false outcome => some { d.clear with pc := .reset d.currentPlan.nodes true outcome }
  | .reset [] true outcome => some { d.clear with pc := .idle, results := d.results ++ [outcome.success] }
  | .reset (node :: rest) again outcome => some
      (if node.nodeType = .actionStart ∧ d.actionDispatched node.action.actionId = true ∧
          d.actionCompleted node.action.actionId = false then
        { d with log := d.log ++ [.publish (cancelMessage node)], pc := .resetSpin rest again outcome }
      else { d with pc := .reset rest again outcome })
  | .resetSpin rest again outcome => some { d with pc := .reset rest again outcome }

end Dispatcher

/-- Whether messages are taken here. -/
def Pc.spinning : Pc → Bool
  | .idle => true
  | .spin => true
  | .resetSpin _ _ _ => true
  | _ => false

/-- The events: a step of the dispatcher, and the messages. -/
inductive Event
  | advance (answer : Answer)
  | dispatchPlan
  | cancelDispatch
  | feedback (msg : ActionFeedback)
  | plan (plan : EsterelPlan)

/-- The messages.  A request during a dispatch is refused.  A plan that arrives during `reset` would replace the nodes it
is going through, and a request that arrives during its second run would begin a dispatch inside it: these two do not
occur here. -/
def Dispatcher.receive (d : Dispatcher) : Event → Option Dispatcher
  | .advance _ => none
  | .dispatchPlan => if d.dispatching then some d else if d.pc = .idle then some d.begin else none
  | .cancelDispatch => some { d with planCancelled := true }
  | .feedback msg => some (d.feedbackCallback msg)
  | .plan plan => if d.pc = .idle ∨ d.pc = .spin ∨ d.finishedExecution = false then some (d.planCallback plan) else none

/-- One event: a step of the dispatcher, or a message where it takes them. -/
def step (timeoutActions : Bool) (d : Dispatcher) : Event → Option Dispatcher
  | .advance answer => d.advance timeoutActions answer
  | event => if d.pc.spinning then d.receive event else none

end DroneArch.Esterel
