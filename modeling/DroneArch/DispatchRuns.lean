import DroneArch.DispatchVisits

/-! # Runs of the dispatcher

`Sound` holds in every state the dispatcher can reach, whatever messages arrive, and whatever the knowledge base and the
clock say, as long as the plans are the parser's (`sound_of_run`).  It gives

* `dispatch_follows`: nodes are handled once and in the order of the edges, an action is sent when its start is handled,
  after the actions with an edge to it were reported as successes, and after a failure no action is sent,
* `success_complete`: when a dispatch ends as complete, every action was sent and then reported as a success. -/

namespace DroneArch.Esterel

open EsterelPlan Deordering
open scoped List

namespace Dispatcher

/-! ### What a dispatch leaves behind -/

/-- The nodes done and the log of a dispatch. -/
structure History (plan : EsterelPlan) (done : List ℕ) (log : List Entry) : Prop where
  nodup : done.Nodup
  lt : ∀ id ∈ done, id < plan.nodes.length
  follows : Follows plan.HasEdge done
  sent : ∃ cancels : List ActionDispatch, (∀ msg ∈ cancels, msg.name = "cancel_action") ∧
    log.filterMap Entry.message = startedActions plan done ++ cancels
  ended : ∀ e ∈ done, (plan.node e).nodeType = .actionEnd → Succeeded log (plan.node e).action
  causal : ∀ e t, [e, t] <+ done → (plan.node e).nodeType = .actionEnd → (plan.node t).nodeType = .actionStart →
    [.achieved (plan.node e).action.actionId, .publish (plan.node t).action] <+ log
  aborted : ∀ id msg, [.failed id, .publish msg] <+ log → msg.name = "cancel_action"

/-- All nodes are done and all actions were reported. -/
structure Finished (d : Dispatcher) : Prop where
  all : ∀ id < d.executing.nodes.length, id ∈ d.done
  completed : ∀ id < d.executing.nodes.length, (d.executing.node id).nodeType = .actionStart →
    d.actionCompleted (d.executing.node id).action.actionId = true

/-- All nodes are done and all actions succeeded. -/
structure Complete (plan : EsterelPlan) (done : List ℕ) (log : List Entry) : Prop where
  all : ∀ id < plan.nodes.length, id ∈ done
  succeeded : ∀ id < plan.nodes.length, (plan.node id).nodeType = .actionStart → Succeeded log (plan.node id).action

variable {plan : EsterelPlan} {done : List ℕ} {log : List Entry} {d d' : Dispatcher}

theorem Active.history (h : d.Active) : History d.executing d.done d.log where
  nodup := h.progress.nodup
  lt := h.progress.lt
  follows := h.progress.follows
  sent := ⟨[], by simp, by rw [h.sent, List.append_nil]⟩
  ended := h.ended
  causal := h.causal
  aborted id msg hpair := absurd hpair (h.aborted id msg)

theorem Active.complete (h : d.Active) (hok : NoFailure d.log) (hfin : d.Finished) :
    Complete d.executing d.done d.log where
  all := hfin.all
  succeeded id hid htype := h.succeeded hok (hfin.all id hid) htype (hfin.completed id hid htype)

theorem History.length_le (h : History plan done log) : done.length ≤ plan.nodes.length := by
  rw [← List.length_range (n := plan.nodes.length)]
  exact (List.subperm_of_subset h.nodup (fun id hid => List.mem_range.mpr (h.lt id hid))).length_le

/-- A report after the dispatch. -/
theorem History.report (h : History plan done log) {entry : Entry} (hentry : entry.message = none) :
    History plan done (log ++ [entry]) where
  nodup := h.nodup
  lt := h.lt
  follows := h.follows
  sent := by
    obtain ⟨cancels, hname, hsent⟩ := h.sent
    exact ⟨cancels, hname, by
      simp only [List.filterMap_append, hsent, List.filterMap_cons, hentry, List.filterMap_nil, List.append_nil]⟩
  ended e he htype := (h.ended e he htype).trans (List.sublist_append_left _ _)
  causal e t hpair he ht := (h.causal e t hpair he ht).trans (List.sublist_append_left _ _)
  aborted := by
    intro id msg hpair
    rcases pair_concat_iff.mp hpair with hpair | ⟨-, rfl⟩
    · exact h.aborted id msg hpair
    · cases hentry

/-- A request to cancel. -/
theorem History.cancel (h : History plan done log) {msg : ActionDispatch} (hname : msg.name = "cancel_action") :
    History plan done (log ++ [.publish msg]) where
  nodup := h.nodup
  lt := h.lt
  follows := h.follows
  sent := by
    obtain ⟨cancels, hcancels, hsent⟩ := h.sent
    refine ⟨cancels ++ [msg], ?_, ?_⟩
    · simp only [List.forall_mem_append, List.forall_mem_singleton]
      exact ⟨hcancels, hname⟩
    · rw [List.filterMap_append, hsent, List.append_assoc]
      rfl
  ended e he htype := (h.ended e he htype).trans (List.sublist_append_left _ _)
  causal e t hpair he ht := (h.causal e t hpair he ht).trans (List.sublist_append_left _ _)
  aborted := by
    intro id msg' hpair
    rcases pair_concat_iff.mp hpair with hpair | ⟨-, heq⟩
    · exact h.aborted id msg' hpair
    · rw [Entry.publish.inj heq, hname]

theorem Complete.append (h : Complete plan done log) (more : List Entry) : Complete plan done (log ++ more) where
  all := h.all
  succeeded id hid htype := (h.succeeded id hid htype).trans (List.sublist_append_left _ _)

/-! ### The invariant -/

/-- What holds at each place of the dispatcher. -/
def Phase (d : Dispatcher) : Pc → Prop
  | .idle => History d.executing d.done d.log
  | .loop => d.Active ∧ NoFailure d.log ∧ (d.finishedExecution = false → d.currentPlan = d.executing) ∧
      (d.finishedExecution = true → d.Finished)
  | .pass rest => d.Active ∧ NoFailure d.log ∧ d.currentPlan = d.executing ∧
      ∃ visited, d.executing.nodes = visited ++ rest ∧
        (d.finishedExecution = true → d.replanRequested = true ∨ ∀ n ∈ visited, d.Quiet n)
  | .spin => d.Active ∧ (∀ id, .failed id ∈ d.log → d.replanRequested = true) ∧
      (d.finishedExecution = false → d.currentPlan = d.executing) ∧
      (d.finishedExecution = true → d.replanRequested = true ∨ d.Finished)
  | .reset _ _ outcome => History d.executing d.done d.log ∧ (outcome = .complete → Complete d.executing d.done d.log)
  | .resetSpin _ _ outcome => History d.executing d.done d.log ∧ (outcome = .complete → Complete d.executing d.done d.log)

/-- The invariant of the dispatcher. -/
structure Sound (d : Dispatcher) : Prop where
  layout : Layout d.currentPlan
  phase : d.Phase d.pc

theorem sound_init : Sound {} where
  layout := layout_empty
  phase :=
    { nodup := List.nodup_nil
      lt := fun id hid => by cases hid
      follows := fun a b _ hb => by cases hb
      sent := ⟨[], by simp, rfl⟩
      ended := fun e he => by cases he
      causal := fun e t hpair => by cases hpair
      aborted := fun id msg hpair => by cases hpair }

/-- **After a pass** in which nothing was left to do at any node, nothing is left to do. -/
theorem Active.finished_of_quiet (h : d.Active) (hquiet : ∀ n ∈ d.executing.nodes, d.Quiet n) : d.Finished := by
  have hnode : ∀ id < d.executing.nodes.length, d.Quiet (d.executing.node id) := by
    intro id hid
    refine hquiet _ ?_
    unfold EsterelPlan.node
    rw [List.getD_eq_getElem?_getD, List.getElem?_eq_getElem hid, Option.getD_some]
    exact List.getElem_mem hid
  have hstart : ∀ id < d.executing.nodes.length, (d.executing.node id).nodeType = .actionStart → id ∈ d.done →
      d.actionCompleted (d.executing.node id).action.actionId = true := by
    intro id hid htype hdone
    have hq := hnode id hid
    simp only [Quiet, htype] at hq
    exact hq.1 ((h.dispatched id hid htype).mpr hdone)
  have hall : ∀ t < d.executing.nodes.length, t ∈ d.done := by
    refine h.layout.all_done (fun t ht hpred => ?_)
    by_contra hnot
    have hready : d.ready (d.executing.node t) = true :=
      List.all_eq_true.mpr (h.progress.ready_of h.layout hnot hpred)
    have hq := hnode t ht
    cases htype : (d.executing.node t).nodeType with
    | planStart =>
        simp only [Quiet, htype] at hq
        obtain ⟨id, hid, hroot⟩ := h.started.mp hq
        exact hnot (h.layout.oneRoot id (h.progress.lt id hid) t ht hroot htype ▸ hid)
    | actionStart =>
        simp only [Quiet, htype] at hq
        exact hnot ((h.dispatched t ht htype).mp (hq.2 hready))
    | actionEnd =>
        simp only [Quiet, htype] at hq
        obtain ⟨s, hs, hstype, haction, hedge⟩ := h.layout.own t ht htype
        have hc := hstart s hs hstype (hpred s hedge)
        rw [haction, hq.2 hready] at hc
        cases hc
  exact ⟨hall, fun id hid htype => hstart id hid htype (hall id hid)⟩

/-! ### One step -/

/-- **One node of a pass.** -/
theorem Phase.visit {node : EsterelPlanNode} {rest : List EsterelPlanNode} (h : d.Phase (.pass (node :: rest)))
    (hv : Visited d node d') : Phase { d' with pc := .pass rest } (.pass rest) := by
  obtain ⟨hactive, hok, hplan, visited, hnodes, hquiet⟩ := h
  obtain ⟨hcur, hexec⟩ := hv.plans
  obtain ⟨hlt, hnode⟩ := node_split hnodes
  have hactive' : d'.Active := hactive.visited hok hlt (hnode.symm ▸ hv)
  refine ⟨{ hactive' with }, hv.noFailure hok, by rw [hcur, hexec, hplan], visited ++ [node], ?_, ?_⟩
  · rw [hexec, hnodes, List.append_assoc, List.singleton_append]
  · intro hf
    obtain ⟨hflags, hq⟩ := hv.quiet hf
    rcases hq with hq | hr
    · refine (hquiet (hflags.finished hf)).imp hflags.replan (fun hall => ?_)
      simp only [List.forall_mem_append, List.forall_mem_singleton]
      exact ⟨fun n hn => hflags.quiet (hall n hn), hflags.quiet hq⟩
    · exact Or.inl hr

/-- **One step of the dispatcher.** -/
theorem Sound.advance (h : d.Sound) {timeoutActions : Bool} {answer : Answer}
    (hstep : d.advance timeoutActions answer = some d') : d'.Sound := by
  obtain ⟨hlayout, hphase⟩ := h
  unfold Dispatcher.advance at hstep
  cases hpc : d.pc with
  | idle =>
      rw [hpc] at hstep
      cases hstep
  | loop =>
      rw [hpc] at hstep hphase
      obtain ⟨hactive, hok, hcur, hfin⟩ := hphase
      obtain rfl := Option.some.inj hstep
      by_cases hf : d.finishedExecution = true
      · rw [if_pos hf]
        exact ⟨hlayout, hactive.history, fun _ => hactive.complete hok (hfin hf)⟩
      · rw [if_neg hf]
        rw [Bool.not_eq_true] at hf
        split
        · exact ⟨hlayout, hactive.history, fun heq => by cases heq⟩
        · exact ⟨hlayout, { hactive with }, hok, hcur hf, [], by rw [← hcur hf]; rfl, fun _ => Or.inr (by simp)⟩
  | pass rest =>
      rw [hpc] at hstep hphase
      cases rest with
      | nil =>
          obtain ⟨hactive, hok, hcur, visited, hnodes, hquiet⟩ := hphase
          obtain rfl := Option.some.inj hstep
          rw [List.append_nil] at hnodes
          refine ⟨hlayout, { hactive with }, fun id hid => absurd hid (hok id), fun _ => hcur, fun hf => ?_⟩
          refine (hquiet hf).imp_right (fun hall => ?_)
          have hfin := hactive.finished_of_quiet (hnodes ▸ hall)
          exact ⟨hfin.all, hfin.completed⟩
      | cons node rest =>
          obtain rfl := Option.some.inj hstep
          have hv := visited_visit timeoutActions answer node d
          exact ⟨by rw [show ({ d.visit timeoutActions answer node with pc := .pass rest } : Dispatcher).currentPlan =
            d.currentPlan from hv.plans.1]; exact hlayout, Phase.visit hphase hv⟩
  | spin =>
      rw [hpc] at hstep hphase
      obtain ⟨hactive, hfail, hcur, hfin⟩ := hphase
      obtain rfl := Option.some.inj hstep
      by_cases hr : d.replanRequested = true
      · rw [if_pos hr]
        exact ⟨hlayout, hactive.history, fun heq => by cases heq⟩
      · rw [if_neg hr]
        refine ⟨hlayout, { hactive with }, fun id hid => hr (hfail id hid), hcur, fun hf => ?_⟩
        have := (hfin hf).resolve_left hr
        exact ⟨this.all, this.completed⟩
  | reset rest again outcome =>
      rw [hpc] at hstep hphase
      obtain ⟨hhistory, hcomplete⟩ := hphase
      cases rest with
      | nil =>
          cases again with
          | false =>
              obtain rfl := Option.some.inj hstep
              exact ⟨hlayout, hhistory, hcomplete⟩
          | true =>
              obtain rfl := Option.some.inj hstep
              exact ⟨hlayout, hhistory⟩
      | cons node rest =>
          obtain rfl := Option.some.inj hstep
          split
          · exact ⟨hlayout, hhistory.cancel rfl, fun heq => (hcomplete heq).append _⟩
          · exact ⟨hlayout, hhistory, hcomplete⟩
  | resetSpin rest again outcome =>
      rw [hpc] at hstep hphase
      obtain rfl := Option.some.inj hstep
      exact ⟨hlayout, hphase⟩

/-- What a report changes. -/
structure Heard (d d' : Dispatcher) : Prop where
  eq : d' = { d with
    actionReceived := d'.actionReceived
    actionCompleted := d'.actionCompleted
    replanRequested := d'.replanRequested
    log := d'.log }
  completed : ∀ id, d.actionCompleted id = true → d'.actionCompleted id = true
  replan : d.replanRequested = true → d'.replanRequested = true
  log : d'.log = d.log ∨ ∃ entry, d'.log = d.log ++ [entry] ∧ entry.message = none ∧
    ∀ id, .failed id = entry → d'.replanRequested = true

theorem heard_feedbackCallback (msg : ActionFeedback) (d : Dispatcher) : Heard d (d.feedbackCallback msg) := by
  have hupdate : ∀ id, d.actionCompleted id = true →
      Function.update d.actionCompleted msg.actionId true id = true := by
    intro id hid
    by_cases heq : id = msg.actionId
    · rw [heq, Function.update_self]
    · rw [Function.update_of_ne heq, hid]
  unfold feedbackCallback
  cases msg.status with
  | enabled => exact ⟨rfl, fun _ h => h, id, Or.inl rfl⟩
  | achieved =>
      simp only
      split
      · exact ⟨rfl, hupdate, id, Or.inr ⟨_, rfl, rfl, fun _ heq => by cases heq⟩⟩
      · exact ⟨rfl, fun _ h => h, id, Or.inl rfl⟩
  | failed =>
      simp only
      split
      · exact ⟨rfl, hupdate, fun _ => rfl, Or.inr ⟨_, rfl, rfl, fun _ _ => rfl⟩⟩
      · exact ⟨rfl, fun _ h => h, id, Or.inl rfl⟩

/-- A report after the nodes were visited. -/
theorem Heard.history (hheard : Heard d d') (h : History d.executing d.done d.log) :
    History d'.executing d'.done d'.log := by
  have hexec : d'.executing = d.executing := by rw [hheard.eq]
  have hdone : d'.done = d.done := by rw [hheard.eq]
  rw [hexec, hdone]
  rcases hheard.log with heq | ⟨entry, heq, hentry, -⟩
  · rw [heq]
    exact h
  · rw [heq]
    exact h.report hentry

theorem Heard.complete (hheard : Heard d d') (h : Complete d.executing d.done d.log) :
    Complete d'.executing d'.done d'.log := by
  have hexec : d'.executing = d.executing := by rw [hheard.eq]
  have hdone : d'.done = d.done := by rw [hheard.eq]
  rw [hexec, hdone]
  rcases hheard.log with heq | ⟨entry, heq, -, -⟩
  · rw [heq]
    exact h
  · rw [heq]
    exact h.append _

/-- **One report.** -/
theorem Sound.feedback (h : d.Sound) (hspin : d.pc.spinning = true) (msg : ActionFeedback) :
    (d.feedbackCallback msg).Sound := by
  obtain ⟨hlayout, hphase⟩ := h
  have hheard := heard_feedbackCallback msg d
  have hpc : (d.feedbackCallback msg).pc = d.pc := by rw [hheard.eq]
  have hcur : (d.feedbackCallback msg).currentPlan = d.currentPlan := by rw [hheard.eq]
  refine ⟨hcur ▸ hlayout, ?_⟩
  rw [hpc]
  cases hd : d.pc with
  | idle =>
      rw [hd] at hphase
      exact hheard.history hphase
  | spin =>
      rw [hd] at hphase
      obtain ⟨hactive, hfail, hplan, hfin⟩ := hphase
      have hexec : (d.feedbackCallback msg).executing = d.executing := by rw [hheard.eq]
      have hfinished : (d.feedbackCallback msg).finishedExecution = d.finishedExecution := by rw [hheard.eq]
      have hdone : (d.feedbackCallback msg).done = d.done := by rw [hheard.eq]
      refine ⟨hactive.feedback msg, ?_, by rw [hfinished, hcur, hexec]; exact hplan, ?_⟩
      · intro id hid
        rcases hheard.log with heq | ⟨entry, heq, -, hreplan⟩
        · exact hheard.replan (hfail id (heq ▸ hid))
        · rw [heq, List.mem_append, List.mem_singleton] at hid
          exact hid.elim (fun h => hheard.replan (hfail id h)) (hreplan id)
      · rw [hfinished]
        intro hf
        refine (hfin hf).imp hheard.replan (fun h => ⟨?_, ?_⟩)
        · rw [hexec, hdone]
          exact h.all
        · rw [hexec]
          exact fun id hid htype => hheard.completed _ (h.completed id hid htype)
  | resetSpin rest again outcome =>
      rw [hd] at hphase
      exact ⟨hheard.history hphase.1, fun heq => hheard.complete (hphase.2 heq)⟩
  | loop => rw [hd] at hspin; cases hspin
  | pass rest => rw [hd] at hspin; cases hspin
  | reset rest again outcome => rw [hd] at hspin; cases hspin

/-- **One plan.** -/
theorem Sound.planCallback (h : d.Sound) (hlayout : Layout plan)
    (hpc : d.pc = .idle ∨ d.pc = .spin ∨ d.finishedExecution = false) : (d.planCallback plan).Sound := by
  unfold Dispatcher.planCallback
  by_cases hf : d.finishedExecution = true
  · rw [if_pos hf]
    refine ⟨hlayout, ?_⟩
    have hphase := h.phase
    rcases hpc with hpc | hpc | hpc
    · rw [hpc] at hphase
      simp only [hpc]
      exact hphase
    · rw [hpc] at hphase
      obtain ⟨hactive, hfail, -, hfin⟩ := hphase
      simp only [hpc]
      exact ⟨{ hactive with }, hfail, fun hf' => absurd hf (by rw [hf']; simp),
        fun hf => (hfin hf).imp_right (fun hd => ⟨hd.all, hd.completed⟩)⟩
    · rw [hpc] at hf
      cases hf
  · rw [if_neg hf]
    exact h

/-- **A new dispatch.** -/
theorem sound_begin (h : Layout d.currentPlan) : d.begin.Sound :=
  ⟨h, Active.begin h, (fun id hid => by cases hid), fun _ => rfl, (fun hf => by cases hf)⟩

theorem Sound.cancel (h : d.Sound) : Sound { d with planCancelled := true } := by
  obtain ⟨hlayout, hphase⟩ := h
  refine ⟨hlayout, ?_⟩
  cases hpc : d.pc with
  | idle =>
      rw [hpc] at hphase
      exact hphase
  | loop =>
      rw [hpc] at hphase
      exact ⟨{ hphase.1 with }, hphase.2.1, hphase.2.2.1, fun hf => ⟨(hphase.2.2.2 hf).all, (hphase.2.2.2 hf).completed⟩⟩
  | pass rest =>
      rw [hpc] at hphase
      exact ⟨{ hphase.1 with }, hphase.2⟩
  | spin =>
      rw [hpc] at hphase
      exact ⟨{ hphase.1 with }, hphase.2.1, hphase.2.2.1,
        fun hf => (hphase.2.2.2 hf).imp_right (fun hd => ⟨hd.all, hd.completed⟩)⟩
  | reset rest again outcome =>
      rw [hpc] at hphase
      exact hphase
  | resetSpin rest again outcome =>
      rw [hpc] at hphase
      exact hphase

end Dispatcher

/-! ### Every run -/

open Dispatcher

/-- The plans that arrive are the parser's. -/
def Event.Delivered (event : Event) : Prop := ∀ plan, event = .plan plan → Parsed plan

/-- **One event.** -/
theorem sound_step {timeoutActions : Bool} {d d' : Dispatcher} {event : Event}
    (hstep : step timeoutActions d event = some d') (h : d.Sound) (hevent : event.Delivered) : d'.Sound := by
  cases event with
  | advance answer => exact h.advance hstep
  | dispatchPlan =>
      obtain ⟨-, hreceive⟩ := Option.ite_none_right_eq_some.mp hstep
      simp only [receive] at hreceive
      split at hreceive
      · exact Option.some.inj hreceive ▸ h
      · obtain ⟨-, hreceive⟩ := Option.ite_none_right_eq_some.mp hreceive
        exact Option.some.inj hreceive ▸ sound_begin h.layout
  | cancelDispatch =>
      obtain ⟨-, hreceive⟩ := Option.ite_none_right_eq_some.mp hstep
      exact Option.some.inj hreceive ▸ h.cancel
  | feedback msg =>
      obtain ⟨hspin, hreceive⟩ := Option.ite_none_right_eq_some.mp hstep
      exact Option.some.inj hreceive ▸ h.feedback hspin msg
  | plan plan =>
      obtain ⟨-, hreceive⟩ := Option.ite_none_right_eq_some.mp hstep
      obtain ⟨hpc, hreceive⟩ := Option.ite_none_right_eq_some.mp hreceive
      exact Option.some.inj hreceive ▸ h.planCallback (layout_of_parsed (hevent plan rfl)) hpc

theorem sound_of_events {timeoutActions : Bool} {events : List Event} {d d' : Dispatcher}
    (hrun : Runs.run (step timeoutActions) d events = some d') (hevents : ∀ e ∈ events, e.Delivered) (h : d.Sound) :
    d'.Sound :=
  (Runs.always_of_each (P := Sound) (fun _ _ _ hs h hq => sound_step hs h hq) h
    (Runs.each_of_forall hevents _)).last hrun

/-- **Every run** of the dispatcher whose plans are the parser's. -/
theorem sound_of_run {timeoutActions : Bool} {events : List Event} {d : Dispatcher}
    (hrun : Runs.run (step timeoutActions) {} events = some d) (hevents : ∀ e ∈ events, e.Delivered) : d.Sound :=
  sound_of_events hrun hevents sound_init

theorem Dispatcher.Sound.history {d : Dispatcher} (h : d.Sound) : History d.executing d.done d.log := by
  have hphase := h.phase
  cases hpc : d.pc with
  | idle =>
      rw [hpc] at hphase
      exact hphase
  | loop =>
      rw [hpc] at hphase
      exact hphase.1.history
  | pass rest =>
      rw [hpc] at hphase
      exact hphase.1.history
  | spin =>
      rw [hpc] at hphase
      exact hphase.1.history
  | reset rest again outcome =>
      rw [hpc] at hphase
      exact hphase.1
  | resetSpin rest again outcome =>
      rw [hpc] at hphase
      exact hphase.1

/-- **A dispatch follows its plan**, in every run, whatever messages arrive and whatever the knowledge base and the clock
say. -/
theorem dispatch_follows {timeoutActions : Bool} {events : List Event} {d : Dispatcher}
    (hevents : ∀ e ∈ events, e.Delivered) (hrun : Runs.run (step timeoutActions) {} events = some d) :
    History d.executing d.done d.log :=
  (sound_of_run hrun hevents).history

/-- A dispatch of the plan with two actions, up to its end. -/
def sampleRun : List Event :=
  [.plan samplePlan, .dispatchPlan] ++ List.replicate 7 (.advance {}) ++
    [.feedback ⟨0, .enabled⟩, .feedback ⟨0, .achieved⟩] ++ List.replicate 8 (.advance {}) ++
    [.feedback ⟨1, .enabled⟩, .feedback ⟨1, .achieved⟩] ++ List.replicate 18 (.advance {})

theorem delivered_sampleRun : ∀ e ∈ sampleRun, e.Delivered := by
  intro e he plan heq
  subst heq
  have hmem : plan = samplePlan := by
    simpa [sampleRun, List.mem_replicate] using he
  exact hmem ▸ parsed_sample

theorem dispatch_follows_sample : ∃ d, Runs.run (step false) {} sampleRun = some d ∧ d.done = [0, 1, 2, 3, 4] ∧
    History d.executing d.done d.log := by
  have hdone : (Runs.run (step false) {} sampleRun).map Dispatcher.done = some [0, 1, 2, 3, 4] := by decide +kernel
  obtain ⟨d, hrun, hd⟩ := Option.map_eq_some_iff.mp hdone
  exact ⟨d, hrun, hd, dispatch_follows delivered_sampleRun hrun⟩

/-- **A dispatch that succeeds** was cancelled, or it did all of the plan: every action was sent, and a success was
reported after it was sent. -/
theorem success_complete {timeoutActions : Bool} {events : List Event} {d : Dispatcher} {rest : List EsterelPlanNode}
    {again : Bool} {outcome : Outcome} (hevents : ∀ e ∈ events, e.Delivered)
    (hrun : Runs.run (step timeoutActions) {} events = some d) (hpc : d.pc = .reset rest again outcome)
    (hsuccess : outcome.success = true) : outcome = .cancelled ∨ Complete d.executing d.done d.log := by
  have hphase := (sound_of_run hrun hevents).phase
  rw [hpc] at hphase
  cases outcome with
  | complete => exact Or.inr (hphase.2 rfl)
  | cancelled => exact Or.inl rfl
  | replan => cases hsuccess

theorem success_complete_sample : ∃ d rest, Runs.run (step false) {} sampleRun = some d ∧
    d.pc = .reset rest false .complete ∧ (Outcome.complete = .cancelled ∨ Complete d.executing d.done d.log) := by
  have hpc : (Runs.run (step false) {} sampleRun).map Dispatcher.pc = some (.reset samplePlan.nodes false .complete) := rfl
  obtain ⟨d, hrun, hd⟩ := Option.map_eq_some_iff.mp hpc
  exact ⟨d, _, hrun, hd, success_complete delivered_sampleRun hrun hd rfl⟩

end DroneArch.Esterel
