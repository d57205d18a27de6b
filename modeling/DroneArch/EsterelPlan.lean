import Mathlib.Data.List.Sort
import DroneArch.Binary32

/-! # The plan graph

ROSPlan's plan parser (`PDDLEsterelPlanParser.cpp`) turns the actions of a plan into a graph: a node for the start of the
plan, and two nodes for each action, its start and its end.  The edges say what has to come first.  `createGraph` goes
through the nodes in the order of their times; each node gets

* an edge from the start of its action, when it is an end,
* for each of its conditions an edge from the latest node before it that makes the condition true,
* an edge from each node before it that it interferes with,
* an edge from the start of the plan, when it has no edge of the second or third kind.

Timed initial literals give edges from the start of the plan, with bounds on the delay.  The identifiers are natural
numbers here.  The times of a message are single precision, the bounds on an edge are doubles. -/

namespace DroneArch.Esterel

open Binary64 (toDouble)
open Binary32 (toFloat)

/-! ### Messages -/

structure KeyValue where
  key : String
  value : String
deriving DecidableEq

/-- An atomic formula: labels and types in the domain, labels and objects when it is ground. -/
structure DomainFormula where
  name : String
  typedParameters : List KeyValue
deriving DecidableEq

/-- The predicates an operator requires and changes. -/
structure DomainOperator where
  formula : DomainFormula := ⟨"", []⟩
  atStartAddEffects : List DomainFormula := []
  atStartDelEffects : List DomainFormula := []
  atEndAddEffects : List DomainFormula := []
  atEndDelEffects : List DomainFormula := []
  atStartSimpleCondition : List DomainFormula := []
  overAllSimpleCondition : List DomainFormula := []
  atEndSimpleCondition : List DomainFormula := []
  atStartNegCondition : List DomainFormula := []
  overAllNegCondition : List DomainFormula := []
  atEndNegCondition : List DomainFormula := []
deriving DecidableEq

structure ActionDispatch where
  actionId : ℕ := 0
  name : String := ""
  parameters : List KeyValue := []
  duration : ℚ := 0
  dispatchTime : ℚ := 0
deriving DecidableEq

inductive NodeType
  | actionStart
  | actionEnd
  | planStart
deriving DecidableEq

structure EsterelPlanNode where
  nodeType : NodeType
  nodeId : ℕ
  name : String
  action : ActionDispatch := {}
  edgesOut : List ℕ := []
  edgesIn : List ℕ := []
deriving DecidableEq

inductive EdgeType
  | condition
  | startEndAction
  | interference
deriving DecidableEq

structure EsterelPlanEdge where
  edgeType : EdgeType
  edgeId : ℕ
  edgeName : String
  signalType : ℕ
  sourceIds : List ℕ
  sinkIds : List ℕ
  durationLowerBound : ℚ
  durationUpperBound : ℚ
deriving DecidableEq

structure EsterelPlan where
  nodes : List EsterelPlanNode := []
  edges : List EsterelPlanEdge := []
deriving DecidableEq

/-- A fact of the knowledge base. -/
structure KnowledgeItem where
  attributeName : String
  values : List KeyValue
  isNegative : Bool
deriving DecidableEq

/-! ### Formulas -/

/-- `domainFormulaMatches`: the names and the values agree, whatever the labels. -/
def domainFormulaMatches (a b : DomainFormula) : Bool :=
  decide (b.name = a.name) && decide (b.typedParameters.map KeyValue.value = a.typedParameters.map KeyValue.value)

/-- The ground atom of a formula. -/
def DomainFormula.atom (f : DomainFormula) : String × List String := (f.name, f.typedParameters.map KeyValue.value)

theorem domainFormulaMatches_iff (a b : DomainFormula) : domainFormulaMatches a b = true ↔ b.atom = a.atom := by
  simp [domainFormulaMatches, DomainFormula.atom]

/-- `groundFormula` of one formula: a label of the operator becomes the object bound to it last, any other label is a
constant. -/
def groundFormula (opParams : List KeyValue) (params : List String) (f : DomainFormula) : DomainFormula where
  name := f.name
  typedParameters := f.typedParameters.map fun p =>
    { p with value := (opParams.zip params).foldl (fun v b => if b.1.key = p.key then b.2 else v) p.key }

/-- The details of an action: its operator with all formulas ground. -/
def groundOperator (params : List String) (op : DomainOperator) : DomainOperator :=
  let ground := List.map (groundFormula op.formula.typedParameters params)
  { op with
    atStartAddEffects := ground op.atStartAddEffects
    atStartDelEffects := ground op.atStartDelEffects
    atEndAddEffects := ground op.atEndAddEffects
    atEndDelEffects := ground op.atEndDelEffects
    atStartSimpleCondition := ground op.atStartSimpleCondition
    atEndSimpleCondition := ground op.atEndSimpleCondition
    overAllSimpleCondition := ground op.overAllSimpleCondition
    atStartNegCondition := ground op.atStartNegCondition
    atEndNegCondition := ground op.atEndNegCondition
    overAllNegCondition := ground op.overAllNegCondition }

namespace DomainOperator

/-- The atoms that one end of the action adds. -/
def adds (op : DomainOperator) : NodeType → List DomainFormula
  | .actionStart => op.atStartAddEffects
  | .actionEnd => op.atEndAddEffects
  | .planStart => []

/-- The atoms that one end of the action deletes. -/
def dels (op : DomainOperator) : NodeType → List DomainFormula
  | .actionStart => op.atStartDelEffects
  | .actionEnd => op.atEndDelEffects
  | .planStart => []

end DomainOperator

/-! ### Edges -/

namespace EsterelPlan

def node (plan : EsterelPlan) (id : ℕ) : EsterelPlanNode := plan.nodes.getD id ⟨.planStart, 0, "", {}, [], []⟩

def edge (plan : EsterelPlan) (id : ℕ) : EsterelPlanEdge := plan.edges.getD id ⟨.condition, 0, "", 0, [], [], 0, 0⟩

end EsterelPlan

/-- `std::numeric_limits<double>::max()`. -/
def doubleMax : ℚ := (2 - 2 ^ (-52 : ℤ)) * 2 ^ 1023

/-- The separation put in place of the bound `0`. -/
def separated (bound : ℚ) : ℚ := if bound = 0 then toDouble (1 / 1000) else bound

/-- The edge from `source` to `sink` there is already. -/
def existingEdge (plan : EsterelPlan) (source sink : ℕ) : Option ℕ :=
  (plan.node source).edgesOut.find? (fun edgeID => decide (sink ∈ (plan.edge edgeID).sinkIds))

/-- Narrow the bounds of an edge. -/
def EsterelPlanEdge.narrow (lowerBound upperBound : ℚ) (e : EsterelPlanEdge) : EsterelPlanEdge :=
  { e with
    durationLowerBound := if e.durationLowerBound < lowerBound then lowerBound else e.durationLowerBound
    durationUpperBound := if upperBound < e.durationUpperBound then upperBound else e.durationUpperBound }

/-- Add an edge from `source` to `sink`. -/
def EsterelPlan.addEdge (plan : EsterelPlan) (source sink : ℕ) (lowerBound upperBound : ℚ) (edgeType : EdgeType) :
    EsterelPlan :=
  let newEdge : EsterelPlanEdge :=
    { edgeType := edgeType
      edgeId := plan.edges.length
      edgeName := "edge_" ++ toString plan.edges.length
      signalType := 0
      sourceIds := [source]
      sinkIds := [sink]
      durationLowerBound := lowerBound
      durationUpperBound := upperBound }
  { edges := plan.edges ++ [newEdge]
    nodes := (plan.nodes.modify source (fun n => { n with edgesOut := n.edgesOut ++ [newEdge.edgeId] })).modify sink
      (fun n => { n with edgesIn := n.edgesIn ++ [newEdge.edgeId] }) }

/-- `makeEdge`: an edge there is already gets the narrower bounds. -/
def makeEdge (source sink : ℕ) (lowerBound upperBound : ℚ) (edgeType : EdgeType) (plan : EsterelPlan) : EsterelPlan :=
  match existingEdge plan source sink with
  | some edgeID =>
      { plan with edges := plan.edges.modify edgeID (.narrow (separated lowerBound) (separated upperBound)) }
  | none => plan.addEdge source sink (separated lowerBound) (separated upperBound) edgeType

/-- `makeEdge` with the bounds of an order: after, at any time. -/
def makeOrder (source sink : ℕ) (edgeType : EdgeType) : EsterelPlan → EsterelPlan :=
  makeEdge source sink 0 doubleMax edgeType

section
variable (actionDetails : ℕ → DomainOperator)

/-- `satisfiesPrecondition` of a node: one of its effects makes the condition true. -/
def satisfiesPrecondition (condition : DomainFormula) (node : EsterelPlanNode) (negative : Bool) : Bool :=
  let op := actionDetails node.action.actionId
  (if negative then op.dels node.nodeType else op.adds node.nodeType).any (domainFormulaMatches condition)

/-- `satisfiesPrecondition` of a timed initial literal. -/
def satisfiedBy (condition : DomainFormula) (effect : KnowledgeItem) (negative : Bool) : Bool :=
  decide (negative = effect.isNegative) && domainFormulaMatches condition ⟨effect.attributeName, effect.values⟩

/-- The search for the latest support of a condition, in the nodes before the current one, the latest first, and the
literals before it, the latest first. -/
def addSupport (current : ℕ) (condition : DomainFormula) (negative : Bool) :
    List (ℚ × ℕ) → List (ℚ × KnowledgeItem) → EsterelPlan → EsterelPlan × Bool
  | [], _, plan => (plan, false)
  | (time, id) :: before, tils, plan =>
      match (tils.takeWhile (fun til => decide (time < til.1))).find? (fun til => satisfiedBy condition til.2 negative) with
      | some til => (makeEdge 0 current til.1 doubleMax .condition plan, true)
      | none =>
          if satisfiesPrecondition actionDetails condition (plan.node id) negative then
            (makeOrder id current .condition plan, true)
          else addSupport current condition negative before (tils.dropWhile (fun til => decide (time < til.1))) plan

variable (epsilonTime : ℚ) (tilList : List (ℚ × KnowledgeItem))

/-- The loop of `addConditionEdge` over the literals after the current node: one that violates the condition bounds the
time of the node, or of the end of its action. -/
def addBounds (current : ℚ × ℕ) (negative overall : Bool) (condition : DomainFormula) (plan : EsterelPlan) : EsterelPlan :=
  (tilList.reverse.takeWhile (fun til => decide (current.1 < til.1))).foldl (fun plan til =>
    if satisfiedBy condition til.2 (!negative) then
      makeEdge 0 (if overall then current.2 + 1 else current.2) 0 (toDouble (til.1 - epsilonTime)) .condition plan
    else plan) plan

/-- `addConditionEdge`.  `before` holds the nodes before the current one, the latest first. -/
def addConditionEdge (before : List (ℚ × ℕ)) (current : ℚ × ℕ) (negative overall : Bool) (condition : DomainFormula)
    (plan : EsterelPlan) : EsterelPlan × Bool :=
  addSupport actionDetails current.2 condition negative before
    (tilList.reverse.dropWhile (fun til => decide (current.1 < til.1)))
    (addBounds epsilonTime tilList current negative overall condition plan)

/-- Whether a node interferes with a node before it: it makes a condition of it false, or undoes an effect of it. -/
def interferes (prenode node : EsterelPlanNode) : Bool :=
  let op := actionDetails prenode.action.actionId
  let deletes := fun cs : List DomainFormula => cs.any (fun c => satisfiesPrecondition actionDetails c node true)
  let adds := fun cs : List DomainFormula => cs.any (fun c => satisfiesPrecondition actionDetails c node false)
  match prenode.nodeType with
  | .actionStart =>
      deletes op.atStartSimpleCondition || adds op.atStartNegCondition ||
        deletes op.atStartAddEffects || adds op.atStartDelEffects
  | .actionEnd =>
      deletes op.atEndSimpleCondition || adds op.atEndNegCondition ||
        deletes op.overAllSimpleCondition || adds op.overAllNegCondition ||
        deletes op.atEndAddEffects || adds op.atEndDelEffects
  | .planStart => false

/-- One round of `addInterferenceEdges`. -/
def addInterferenceEdge (current : ℕ) (r : EsterelPlan × Bool) (pre : ℚ × ℕ) : EsterelPlan × Bool :=
  if interferes actionDetails (r.1.node pre.2) (r.1.node current) then
    (makeOrder pre.2 current .interference r.1, true)
  else r

/-- `addInterferenceEdges`. -/
def addInterferenceEdges (before : List (ℚ × ℕ)) (current : ℕ) (plan : EsterelPlan) : EsterelPlan × Bool :=
  before.foldl (addInterferenceEdge actionDetails current) (plan, false)

/-- The conditions of a node, as `createGraph` goes through them: the formula, whether it is negative, whether it has to
hold over the whole action. -/
def conditionsOf (op : DomainOperator) : NodeType → List (DomainFormula × Bool × Bool)
  | .actionStart =>
      op.atStartSimpleCondition.map (·, false, false) ++ op.overAllSimpleCondition.map (·, false, true) ++
        op.atStartNegCondition.map (·, true, false) ++ op.overAllNegCondition.map (·, true, true)
  | .actionEnd =>
      op.atEndSimpleCondition.map (·, false, false) ++ op.atEndNegCondition.map (·, true, false)
  | .planStart => []

/-- The condition edges of a node. -/
def addConditionEdges (before : List (ℚ × ℕ)) (current : ℚ × ℕ) (conditions : List (DomainFormula × Bool × Bool))
    (plan : EsterelPlan) : EsterelPlan × Bool :=
  conditions.foldl (fun r c =>
    let edge := addConditionEdge actionDetails epsilonTime tilList before current c.2.1 c.2.2 c.1 r.1
    (edge.1, r.2 || edge.2)) (plan, false)

/-- One round of the loop of `createGraph`: the edges to the current node. -/
def addEdges (before : List (ℚ × ℕ)) (current : ℚ × ℕ) (plan : EsterelPlan) : EsterelPlan :=
  let node := plan.node current.2
  let fromStart := if node.nodeType = .actionEnd then
    makeEdge (current.2 - 1) current.2 node.action.duration node.action.duration .startEndAction plan else plan
  if node.nodeType = .planStart then plan
  else
    let op := actionDetails node.action.actionId
    let conditions := addConditionEdges actionDetails epsilonTime tilList before current
      (conditionsOf op node.nodeType) fromStart
    let interference := addInterferenceEdges actionDetails before current.2 conditions.1
    if conditions.2 || interference.2 then interference.1
    else makeOrder 0 current.2 .condition interference.1

/-- The time of a node. -/
def EsterelPlanNode.time (n : EsterelPlanNode) : ℚ :=
  match n.nodeType with
  | .actionStart => n.action.dispatchTime
  | .actionEnd => toFloat (n.action.dispatchTime + n.action.duration)
  | .planStart => 0

/-- The nodes by time, those of the same time in the order they were inserted in: a `std::multimap`. -/
def nodeOrder (nodes : List EsterelPlanNode) : List (ℚ × ℕ) :=
  nodes.foldl (fun order n => order.orderedInsert (fun a b => a.1 < b.1) (n.time, n.nodeId)) []

/-- The rounds of `createGraph`. -/
def rounds : List (ℚ × ℕ) → List (ℚ × ℕ) → EsterelPlan → EsterelPlan
  | _, [], plan => plan
  | before, current :: rest, plan =>
      rounds (current :: before) rest (addEdges actionDetails epsilonTime tilList before current plan)

/-- `createGraph`. -/
def createGraph (plan : EsterelPlan) : EsterelPlan :=
  rounds actionDetails epsilonTime tilList [] (nodeOrder plan.nodes) plan

end

/-- The nodes of `preparePlan` for the actions of a plan, before the edges. -/
def planNodes (actions : List ActionDispatch) : List EsterelPlanNode :=
  ⟨.planStart, 0, "plan_start", {}, [], []⟩ :: actions.zipIdx.flatMap fun (msg, k) =>
    [⟨.actionStart, 2 * k + 1, msg.name ++ "_start", msg, [], []⟩, ⟨.actionEnd, 2 * k + 2, msg.name ++ "_end", msg, [], []⟩]

end DroneArch.Esterel
