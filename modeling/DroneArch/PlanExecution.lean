import DroneArch.ActionEffects
import DroneArch.DispatchRuns

/-! # The execution of a plan

The dispatcher, the nodes of the actions and the knowledge base, from the start of a dispatch on.  The dispatcher sends
the actions whose predecessors are done and whose preconditions the knowledge base confirms.  The node of an action
(`RPActionInterface.cpp`, `dispatchCallback`) reports that it was enabled, writes the effects at the start, runs the
concrete callback, and when that succeeds writes the effects at the end and reports the success.  Messages arrive late and
in any order, and actions run at the same time.

The dispatcher does not keep all edges of the plan in the order of the writes: only those from an end to a start, and from
a start to its own end.  A plan is `Timely` when the other edges follow from these. -/

namespace DroneArch.Esterel

open Deordering EsterelPlan Dispatcher
open Knowledge (Consistent)
open scoped List

/-- What the nodes know of the domain. -/
structure Domain where
  operators : String → Option DomainOperator
  predicates : String → List KeyValue
  sensed : List String := []

/-- Where the callback of an action is: it was enabled, its start was written, or its end was. -/
inductive Stage
  | enabled
  | started
  | ended
deriving DecidableEq

structure Thread where
  action : ActionDispatch
  stage : Stage
deriving DecidableEq

/-- The state of the execution.  Each node has a cancel flag of its own, set by a cancel message and taken back when it
starts an action.  One flag stands for them all: it is set when one of them is, and never taken back, so that whatever a node
may break off, it may break off here.  `written` is a history: the ends of actions that were written, from the start of the
plan on. -/
structure Execution where
  dispatcher : Dispatcher
  kb : Knowledge.State
  sent : List ActionDispatch := []
  threads : List Thread := []
  reports : List ActionFeedback := []
  cancelled : Bool := false
  written : List ℕ := [0]

namespace Execution

inductive Event
  | advance (timing : ℕ → Timing)
  | cancelDispatch
  | hear (msg : ActionFeedback)
  | receive (msg : ActionDispatch)
  | start (msg : ActionDispatch) (now : ℕ)
  | finish (msg : ActionDispatch) (success : Bool) (now : ℕ)
  | report (msg : ActionDispatch)
  | abort (msg : ActionDispatch)

variable (dom : Domain) (timeoutActions : Bool)

/-- What the knowledge base answers the dispatcher. -/
def answer (s : Execution) (timing : ℕ → Timing) : Answer where
  preconditions :=
    match s.dispatcher.pc with
    | .pass (node :: _) => checkPreconditions dom.operators s.kb node.action
    | _ => true
  timing := timing

/-- The effects at one end of an action. -/
def writeEffects (nodeType : NodeType) (now : ℕ) (msg : ActionDispatch) (kb : Knowledge.State) : Knowledge.State :=
  match dom.operators msg.name with
  | none => kb
  | some op => kb.updateKnowledgeArray now (effectUpdates dom.predicates dom.sensed op msg.parameters nodeType)

/-- One thread goes on. -/
def move (s : Execution) (msg : ActionDispatch) (stage stage' : Stage) : List Thread :=
  s.threads.erase ⟨msg, stage⟩ ++ [⟨msg, stage'⟩]

/-- Whether the node of an action takes a message: it has its name and all parameters. -/
def taken (msg : ActionDispatch) : Bool :=
  match dom.operators msg.name with
  | none => false
  | some op => hasParameters op.formula.typedParameters msg.parameters

/-- One event.  A callback that was cancelled ends without a report. -/
def step (s : Execution) : Event → Option Execution
  | .advance timing => (s.dispatcher.advance timeoutActions (s.answer dom timing)).map fun d =>
      { s with
        dispatcher := d
        sent := s.sent ++ (d.log.drop s.dispatcher.log.length).filterMap Entry.message }
  | .cancelDispatch => (Esterel.step timeoutActions s.dispatcher .cancelDispatch).map fun d => { s with dispatcher := d }
  | .hear msg =>
      if msg ∈ s.reports then
        (Esterel.step timeoutActions s.dispatcher (.feedback msg)).map fun d =>
          { s with dispatcher := d, reports := s.reports.erase msg }
      else none
  | .receive msg =>
      if msg ∈ s.sent then
        some
          (if msg.name = "cancel_action" then { s with sent := s.sent.erase msg, cancelled := true }
          else if taken dom msg then
            { s with
              sent := s.sent.erase msg
              threads := s.threads ++ [⟨msg, .enabled⟩]
              reports := s.reports ++ [⟨msg.actionId, .enabled⟩] }
          else { s with sent := s.sent.erase msg })
      else none
  | .start msg now =>
      if ⟨msg, .enabled⟩ ∈ s.threads then
        some { s with
          kb := writeEffects dom .actionStart now msg s.kb
          threads := s.move msg .enabled .started
          written := s.written ++ [2 * msg.actionId + 1] }
      else none
  | .finish msg success now =>
      if ⟨msg, .started⟩ ∈ s.threads then
        some
          (if success then
            { s with
              kb := writeEffects dom .actionEnd now msg s.kb
              threads := s.move msg .started .ended
              written := s.written ++ [2 * msg.actionId + 2] }
          else
            { s with
              threads := s.threads.erase ⟨msg, .started⟩
              reports := s.reports ++ [⟨msg.actionId, .failed⟩] })
      else none
  | .report msg =>
      if ⟨msg, .ended⟩ ∈ s.threads then
        some { s with
          threads := s.threads.erase ⟨msg, .ended⟩
          reports := s.reports ++ [⟨msg.actionId, .achieved⟩] }
      else none
  | .abort msg =>
      if ⟨msg, .started⟩ ∈ s.threads ∧ s.cancelled = true then some { s with threads := s.threads.erase ⟨msg, .started⟩ }
      else none

/-- The start of a dispatch. -/
def begin (d : Dispatcher) (kb : Knowledge.State) : Execution := { dispatcher := d.begin, kb := kb }

/-- A dispatch of a plan leads here. -/
def Reached (plan : EsterelPlan) (kb : Knowledge.State) (s : Execution) : Prop :=
  ∃ d events, d.currentPlan = plan ∧ Runs.run (step dom timeoutActions) (begin d kb) events = some s

end Execution

/-! ### The plan and the domain -/

/-- The formulas that the graph of a plan reads of an operator. -/
def DomainOperator.formulas (op : DomainOperator) : List DomainFormula :=
  op.atStartAddEffects ++ op.atStartDelEffects ++ op.atEndAddEffects ++ op.atEndDelEffects ++ op.atStartSimpleCondition ++
    op.overAllSimpleCondition ++ op.atEndSimpleCondition ++ op.atStartNegCondition ++ op.overAllNegCondition ++
    op.atEndNegCondition

/-- An atom of a formula of the plan. -/
def Mentioned (D : ℕ → DomainOperator) (actions : List ActionDispatch) (p : String × List String) : Prop :=
  ∃ a ∈ actions, ∃ f ∈ (D a.actionId).formulas, f.atom = p

/-- The plan is one for the domain: `D` has the ground operators of its actions, as the parser made them, and its atoms
differ in more than their case. -/
structure Configured (dom : Domain) (D : ℕ → DomainOperator) (actions : List ActionDispatch) : Prop where
  timed : Timed actions
  numbered : Numbered actions
  name : ∀ a ∈ actions, a.name ≠ "cancel_action"
  operator : ∀ a ∈ actions, ∃ op params, dom.operators a.name = some op ∧ Binds op params ∧
    a.parameters = bindParameters op.formula.typedParameters params ∧ D a.actionId = groundOperator params op ∧
    ∀ f ∈ op.formulas, op.Closed f ∧ f.name ∉ dom.sensed
  disjoint : EffectsDisjoint D actions
  distinct : ∀ p q, Mentioned D actions p → Mentioned D actions q → atomKey p = atomKey q → p = q

section
variable {dom : Domain} {D : ℕ → DomainOperator} {actions : List ActionDispatch}

theorem formulas_groundOperator (params : List String) (op : DomainOperator) :
    (groundOperator params op).formulas = op.formulas.map (groundFormula op.formula.typedParameters params) := by
  simp only [DomainOperator.formulas, groundOperator, List.map_append]

theorem adds_subset (op : DomainOperator) (nodeType : NodeType) : op.adds nodeType ⊆ op.formulas := by
  intro f hf
  cases nodeType with
  | planStart => cases hf
  | actionStart =>
      simp only [DomainOperator.adds] at hf
      simp [DomainOperator.formulas, hf]
  | actionEnd =>
      simp only [DomainOperator.adds] at hf
      simp [DomainOperator.formulas, hf]

theorem dels_subset (op : DomainOperator) (nodeType : NodeType) : op.dels nodeType ⊆ op.formulas := by
  intro f hf
  cases nodeType with
  | planStart => cases hf
  | actionStart =>
      simp only [DomainOperator.dels] at hf
      simp [DomainOperator.formulas, hf]
  | actionEnd =>
      simp only [DomainOperator.dels] at hf
      simp [DomainOperator.formulas, hf]

theorem conditionsOf_subset (op : DomainOperator) (nodeType : NodeType) :
    (conditionsOf op nodeType).map Prod.fst ⊆ op.formulas := by
  intro f hf
  cases nodeType with
  | planStart => cases hf
  | actionStart =>
      simp only [conditionsOf, List.map_append, List.map_map, Function.comp_def, List.map_id', List.mem_append] at hf
      simp only [DomainOperator.formulas, List.mem_append]
      tauto
  | actionEnd =>
      simp only [conditionsOf, List.map_append, List.map_map, Function.comp_def, List.map_id', List.mem_append] at hf
      simp only [DomainOperator.formulas, List.mem_append]
      tauto

/-- The ends of the action with a number. -/
theorem node_of_action (hnum : Numbered actions) {a : ActionDispatch} (ha : a ∈ actions) :
    2 * a.actionId + 2 < 2 * actions.length + 1 ∧
      ((prepared actions).node (2 * a.actionId + 1)).nodeType = .actionStart ∧
      ((prepared actions).node (2 * a.actionId + 1)).action = a ∧
      ((prepared actions).node (2 * a.actionId + 2)).nodeType = .actionEnd ∧
      ((prepared actions).node (2 * a.actionId + 2)).action = a := by
  obtain ⟨k, hk, rfl⟩ := List.mem_iff_getElem.mp ha
  rw [hnum k hk]
  refine ⟨by omega, nodeType_start hk, ?_, nodeType_end hk, ?_⟩
  · rw [prepared, node_start [] hk]
  · rw [prepared, node_end [] hk]

theorem mentioned_of_mem {id : ℕ} {f : DomainFormula} (ha : ((prepared actions).node id).action ∈ actions)
    (hf : f ∈ (operatorOf D actions id).formulas) : Mentioned D actions f.atom :=
  ⟨_, ha, f, hf, rfl⟩

/-- **The effects of an action** are what its node writes. -/
theorem holds_writeEffects (hc : Configured dom D actions) {a : ActionDispatch} (ha : a ∈ actions) {id : ℕ}
    {nodeType : NodeType} (htype : ((prepared actions).node id).nodeType = nodeType)
    (haction : ((prepared actions).node id).action = a) (now : ℕ) {kb : Knowledge.State} (h : Consistent kb.facts) :
    Consistent (Execution.writeEffects dom nodeType now a kb).facts ∧ ∀ p, Mentioned D actions p →
      holds (Execution.writeEffects dom nodeType now a kb) p = (write D actions id p).getD (holds kb p) := by
  obtain ⟨op, params, hop, hb, hparams, hD, hclosed⟩ := hc.operator a ha
  have hclosed' : ∀ f ∈ op.dels nodeType ++ op.adds nodeType, op.Closed f ∧ f.name ∉ dom.sensed := by
    rw [List.forall_mem_append]
    exact ⟨fun f hf => hclosed f (dels_subset op nodeType hf), fun f hf => hclosed f (adds_subset op nodeType hf)⟩
  have hwrite : Execution.writeEffects dom nodeType now a kb = kb.updateKnowledgeArray now
      (effectUpdates dom.predicates dom.sensed op (bindParameters op.formula.typedParameters params) nodeType) := by
    simp only [Execution.writeEffects, hop, hparams]
  rw [hwrite]
  refine ⟨(holds_effectUpdates dom.predicates hb nodeType now hclosed' h ("", [])).1, fun p hp => ?_⟩
  rw [(holds_effectUpdates dom.predicates hb nodeType now hclosed' h p).2]
  -- an atom of the plan has the key of an effect when it is one
  have hkeys : ∀ fs : List DomainFormula, fs ⊆ op.formulas →
      (atomKey p ∈ fs.map (fun f => atomKey (groundFormula op.formula.typedParameters params f).atom) ↔
        p ∈ (fs.map (groundFormula op.formula.typedParameters params)).map DomainFormula.atom) := by
    intro fs hfs
    rw [List.map_map, List.mem_map, List.mem_map]
    refine exists_congr (fun f => and_congr_right (fun hf => ⟨fun hk => ?_, fun hk => by rw [← hk]; rfl⟩))
    refine hc.distinct _ _ ⟨a, ha, groundFormula op.formula.typedParameters params f, ?_, rfl⟩ hp hk
    rw [hD, formulas_groundOperator]
    exact List.mem_map_of_mem (hfs hf)
  have hadds : added D actions id = ((op.adds nodeType).map (groundFormula op.formula.typedParameters params)).map
      DomainFormula.atom := by
    unfold added operatorOf
    rw [haction, htype, hD]
    cases nodeType <;> rfl
  have hdels : deleted D actions id = ((op.dels nodeType).map (groundFormula op.formula.typedParameters params)).map
      DomainFormula.atom := by
    unfold deleted operatorOf
    rw [haction, htype, hD]
    cases nodeType <;> rfl
  rw [if_congr (hkeys _ (adds_subset op nodeType)) rfl (if_congr (hkeys _ (dels_subset op nodeType)) rfl rfl), write, hadds, hdels]
  split
  · rfl
  · split <;> rfl

/-- **The check before an action is sent** looks at the conditions of its start. -/
theorem checkPreconditions_iff_reads (hc : Configured dom D actions) {a : ActionDispatch} (ha : a ∈ actions)
    {kb : Knowledge.State} (h : Consistent kb.facts) : checkPreconditions dom.operators kb a = true ↔
      ∀ p v, Reads D actions (2 * a.actionId + 1) p v → holds kb p = v := by
  obtain ⟨op, params, hop, hb, hparams, hD, hclosed⟩ := hc.operator a ha
  obtain ⟨-, htype, haction, -, -⟩ := node_of_action hc.numbered ha
  have hclosed' : ∀ f ∈ op.atStartSimpleCondition ++ op.atStartNegCondition, op.Closed f := by
    intro f hf
    refine (hclosed f ?_).1
    rw [List.mem_append] at hf
    simp only [DomainOperator.formulas, List.mem_append]
    tauto
  rw [checkPreconditions_iff hop hparams hb hclosed' h]
  unfold Reads operatorOf
  rw [haction, htype, hD]
  simp only [conditionsOf, groundOperator, List.mem_append, List.mem_map]
  constructor
  · rintro ⟨hpos, hneg⟩ p v ⟨⟨f, n, o⟩, hc', rfl, hno⟩
    obtain ⟨rfl, rfl⟩ := Prod.mk.inj hno
    rcases hc' with ((⟨g, ⟨f', hf', rfl⟩, heq⟩ | ⟨g, -, heq⟩) | ⟨g, ⟨f', hf', rfl⟩, heq⟩) | ⟨g, -, heq⟩
    · simp only [Prod.mk.injEq, Bool.false_eq, Bool.not_eq_false', and_true] at heq
      obtain ⟨rfl, rfl⟩ := heq
      exact hpos f' hf'
    · simp at heq
    · simp only [Prod.mk.injEq, Bool.true_eq, Bool.not_eq_true', and_true] at heq
      obtain ⟨rfl, rfl⟩ := heq
      exact hneg f' hf'
    · simp at heq
  · intro hreads
    exact ⟨fun f hf => hreads _ true ⟨_, Or.inl (Or.inl (Or.inl ⟨_, ⟨f, hf, rfl⟩, rfl⟩)), rfl, rfl⟩,
      fun f hf => hreads _ false ⟨_, Or.inl (Or.inr ⟨_, ⟨f, hf, rfl⟩, rfl⟩), rfl, rfl⟩⟩

end

/-! ### The plan with two actions -/

def sampleDomain : Domain where
  operators := fun
    | "go_to" => some goTo
    | "take_image" => some takeImage
    | _ => none
  predicates := fun
    | "flying" => []
    | _ => [⟨"region", "region"⟩]

theorem closed_sample {op : DomainOperator} (hop : op = goTo ∨ op = takeImage) :
    ∀ f ∈ op.formulas, op.Closed f ∧ f.name ∉ sampleDomain.sensed := by
  have hlabels : ∀ f ∈ op.formulas, f.name ≠ "" ∧
      ∀ p ∈ f.typedParameters, p.key ∈ op.formula.typedParameters.map KeyValue.key := by
    rcases hop with rfl | rfl <;> decide
  exact fun f hf => ⟨⟨(hlabels f hf).1, (hlabels f hf).2⟩, List.not_mem_nil⟩

theorem binds_sample {op : DomainOperator} (hop : op = goTo ∨ op = takeImage) : Binds op ["r1"] := by
  rcases hop with rfl | rfl <;> exact ⟨by decide, rfl, by decide⟩

theorem mentioned_sample {p : String × List String} (h : Mentioned sampleOperators sampleActions p) :
    p ∈ [("flying", []), ("at", ["r1"]), ("taken", ["r1"])] := by
  obtain ⟨a, ha, f, hf, rfl⟩ := h
  revert f
  revert a
  decide

theorem configured_sample : Configured sampleDomain sampleOperators sampleActions where
  timed := timed_sample
  numbered := numbered_sample
  name := by decide
  operator a ha := by
    simp only [sampleActions, List.mem_cons, List.not_mem_nil, or_false] at ha
    rcases ha with rfl | rfl
    · exact ⟨goTo, ["r1"], rfl, binds_sample (Or.inl rfl), rfl, rfl, closed_sample (Or.inl rfl)⟩
    · exact ⟨takeImage, ["r1"], rfl, binds_sample (Or.inr rfl), rfl, rfl, closed_sample (Or.inr rfl)⟩
  disjoint := effectsDisjoint_sample
  distinct p q hp hq heq := by
    have hinj : ∀ p ∈ [("flying", []), ("at", ["r1"]), ("taken", ["r1"])],
        ∀ q ∈ [("flying", []), ("at", ["r1"]), ("taken", ["r1"])], atomKey p = atomKey q → p = q := by decide
    exact hinj p (mentioned_sample hp) q (mentioned_sample hq) heq

end DroneArch.Esterel
