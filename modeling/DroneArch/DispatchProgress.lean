import DroneArch.DispatchRuns

/-! # A dispatch can be completed

In a pass with all actions reported and all preconditions true, a node is handled or nothing is left to do
(`Active.visit_cases`).  So a dispatch that nothing stopped is never stuck: `exists_completion`. -/

namespace DroneArch.Esterel

open EsterelPlan Deordering Dispatcher
open scoped List

namespace Dispatcher

variable (timeoutActions : Bool) {d d' : Dispatcher}

/-! ### A pass without obstacles -/

/-- All actions that were sent are completed. -/
def AllReported (d : Dispatcher) : Prop :=
  ∀ id < d.executing.nodes.length, (d.executing.node id).nodeType = .actionStart →
    d.actionDispatched (d.executing.node id).action.actionId = true →
    d.actionCompleted (d.executing.node id).action.actionId = true

theorem checkTimes_inside (ended : Bool) (es : List ℕ) (d : Dispatcher) :
    checkTimes (fun _ => .inside) ended es d = (d, true) := by
  induction es with
  | nil => rfl
  | cons e es ih => exact ih

theorem checkBounds_inside (ended : Bool) (es : List ℕ) (d : Dispatcher) :
    checkBounds timeoutActions (fun _ => .inside) ended es d = (d, true) := by
  unfold checkBounds
  split
  · exact checkTimes_inside ended es d
  · rfl

/-- What a visit without obstacles changes: it does not end the dispatch, and the nodes done become more. -/
structure Unhindered (d d' : Dispatcher) : Prop where
  replan : d'.replanRequested = d.replanRequested
  cancelled : d'.planCancelled = d.planCancelled
  executing : d'.executing = d.executing
  done : d.done.length ≤ d'.done.length

theorem Unhindered.refl (d : Dispatcher) : Unhindered d d := ⟨rfl, rfl, rfl, le_refl _⟩

theorem Unhindered.trans {d'' : Dispatcher} (h : Unhindered d d') (h' : Unhindered d' d'') : Unhindered d d'' :=
  ⟨h'.replan.trans h.replan, h'.cancelled.trans h.cancelled, h'.executing.trans h.executing, h.done.trans h'.done⟩

/-- A node was handled. -/
structure Handled (d d' : Dispatcher) : Prop extends Unhindered d d' where
  more : d.done.length < d'.done.length

theorem handled_handle (node : EsterelPlanNode) (d : Dispatcher) : Handled d (d.handle node) where
  replan := rfl
  cancelled := rfl
  executing := rfl
  done := by simp [handle]
  more := by simp [handle]

theorem activate_cases (node : EsterelPlanNode) (d : Dispatcher) :
    d.activate timeoutActions {} node = d ∨ Handled d (d.activate timeoutActions {} node) := by
  unfold activate
  simp only [checkBounds_inside, Bool.true_and]
  by_cases hend : (decide (node.nodeType = .actionEnd) && d.actionCompleted node.action.actionId) = true
  · right
    rw [if_pos hend]
    rw [Bool.and_eq_true, decide_eq_true_iff] at hend
    simp only [hend.1, reduceCtorEq, decide_false, Bool.false_and, Bool.false_eq_true, if_false]
    exact handled_handle node d
  · rw [if_neg hend]
    split
    · right
      simp only [dispatchAction, if_true]
      exact { handled_handle node d with }
    · exact Or.inl rfl

/-- **A visit without obstacles**: when all actions are reported, a node is handled or nothing changes. -/
theorem Active.visit_cases (h : d.Active) {t : ℕ} (ht : t < d.executing.nodes.length) :
    Unhindered d (d.visit timeoutActions {} (d.executing.node t)) ∧
      (d.AllReported → d.visit timeoutActions {} (d.executing.node t) = d ∨
        d.done.length < (d.visit timeoutActions {} (d.executing.node t)).done.length) := by
  -- the node of an action
  have haction : ∀ d₁ : Dispatcher, Unhindered d d₁ → (d.AllReported → d₁ = d) →
      Unhindered d (if d₁.ready (d.executing.node t) then d₁.activate timeoutActions {} (d.executing.node t) else d₁) ∧
        (d.AllReported →
          (if d₁.ready (d.executing.node t) then d₁.activate timeoutActions {} (d.executing.node t) else d₁) = d ∨
          d.done.length <
            (if d₁.ready (d.executing.node t) then d₁.activate timeoutActions {} (d.executing.node t) else d₁).done.length) := by
    intro d₁ hd₁ heq
    split
    · rcases activate_cases timeoutActions (d.executing.node t) d₁ with hsame | hmore
      · rw [hsame]
        exact ⟨hd₁, fun hall => Or.inl (heq hall)⟩
      · exact ⟨hd₁.trans hmore.toUnhindered, fun _ => Or.inr (lt_of_le_of_lt hd₁.done hmore.more)⟩
    · exact ⟨hd₁, fun hall => Or.inl (heq hall)⟩
  have hrunning : d.AllReported → (d.executing.node t).nodeType ≠ .planStart →
      (d.actionDispatched (d.executing.node t).action.actionId &&
        !d.actionCompleted (d.executing.node t).action.actionId) = false := by
    intro hall hroot
    rw [Bool.and_eq_false_iff, Bool.not_eq_false', ← Bool.not_eq_true, ← imp_iff_not_or]
    cases htype : (d.executing.node t).nodeType with
    | planStart => exact absurd htype hroot
    | actionStart => exact hall t ht htype
    | actionEnd =>
        obtain ⟨s, hs, hstart, hsame, -⟩ := h.layout.own t ht htype
        rw [← hsame]
        exact hall s hs hstart
  unfold visit
  cases htype : (d.executing.node t).nodeType with
  | planStart =>
      simp only
      split
      · exact ⟨.refl d, fun _ => Or.inl rfl⟩
      · exact ⟨⟨rfl, rfl, rfl, by simp [handle]⟩, fun _ => Or.inr (by simp [handle])⟩
  | actionStart =>
      refine haction _ ?_ (fun hall => ?_)
      · split
        · exact ⟨rfl, rfl, rfl, le_refl _⟩
        · exact .refl d
      · rw [hrunning hall (by rw [htype]; decide)]
        rfl
  | actionEnd =>
      refine haction _ ?_ (fun hall => ?_)
      · split
        · exact ⟨rfl, rfl, rfl, le_refl _⟩
        · exact .refl d
      · rw [hrunning hall (by rw [htype]; decide)]
        rfl

/-- **A pass without obstacles** handles a node or lets the dispatch end. -/
theorem Sound.exists_pass (h : d.Sound) {rest : List EsterelPlanNode} (hpc : d.pc = .pass rest) :
    ∃ events d', Runs.run (step timeoutActions) d events = some d' ∧ d'.Sound ∧ d'.pc = .spin ∧ Unhindered d d' ∧
      (d.AllReported → d.finishedExecution = true →
        d'.finishedExecution = true ∨ d.done.length < d'.done.length) := by
  induction rest generalizing d with
  | nil =>
      have hstep : step timeoutActions d (.advance {}) = some { d with pc := .spin } := by
        simp only [step, Dispatcher.advance, hpc]
      exact ⟨[.advance {}], _, by rw [Runs.run_cons_some hstep]; rfl, sound_step hstep h (fun _ heq => by cases heq), rfl,
        ⟨rfl, rfl, rfl, le_refl _⟩, fun _ hf => Or.inl hf⟩
  | cons node rest ih =>
      have hstep : step timeoutActions d (.advance {}) = some { d.visit timeoutActions {} node with pc := .pass rest } := by
        simp only [step, Dispatcher.advance, hpc]
      have hsound := sound_step hstep h (fun _ heq => by cases heq)
      obtain ⟨events, d', hrun, hsound', hspin, hun, hlast⟩ := ih hsound rfl
      have hphase := h.phase
      rw [hpc] at hphase
      obtain ⟨hactive, -, -, visited, hnodes, -⟩ := hphase
      obtain ⟨hlt, hnode⟩ := node_split hnodes
      obtain ⟨hvisit, hcases⟩ := hactive.visit_cases timeoutActions hlt
      rw [hnode] at hvisit hcases
      have hfirst : Unhindered d { d.visit timeoutActions {} node with pc := .pass rest } := { hvisit with }
      refine ⟨.advance {} :: events, d', by rw [Runs.run_cons_some hstep]; exact hrun, hsound', hspin,
        hfirst.trans hun, fun hall hf => ?_⟩
      rcases hcases hall with hsame | hmore
      · rw [hsame] at hlast
        exact hlast hall hf
      · exact Or.inr (lt_of_lt_of_le hmore hun.done)

/-! ### All actions report -/

/-- An action says that it was enabled, and then that it succeeded. -/
theorem feedback_success (d : Dispatcher) (a : ℕ) :
    ∃ d', d' = (d.feedbackCallback ⟨a, .enabled⟩).feedbackCallback ⟨a, .achieved⟩ ∧
      d' = { d with actionReceived := d'.actionReceived, actionCompleted := d'.actionCompleted, log := d'.log } ∧
      (∀ id, d.actionCompleted id = true → d'.actionCompleted id = true) ∧ d'.actionCompleted a = true := by
  refine ⟨_, rfl, ?_⟩
  simp only [feedbackCallback, Function.update_self, Bool.and_true]
  split
  · refine ⟨rfl, fun id hid => ?_, Function.update_self _ _ _⟩
    by_cases heq : id = a
    · rw [heq]
      exact Function.update_self _ _ _
    · exact (Function.update_of_ne heq _ _).trans hid
  · rename_i hc
    exact ⟨rfl, fun _ h => h, by simpa using hc⟩

/-- **All actions report a success**, after the pass. -/
theorem exists_reports (actionIds : List ℕ) (hpc : d.pc = .spin) :
    ∃ events d', Runs.run (step timeoutActions) d events = some d' ∧ (∀ e ∈ events, e.Delivered) ∧
      d' = { d with actionReceived := d'.actionReceived, actionCompleted := d'.actionCompleted, log := d'.log } ∧
      (∀ id, d.actionCompleted id = true → d'.actionCompleted id = true) ∧
      ∀ id ∈ actionIds, d'.actionCompleted id = true := by
  induction actionIds generalizing d with
  | nil => exact ⟨[], d, rfl, by simp, rfl, fun _ h => h, by simp⟩
  | cons a actionIds ih =>
      obtain ⟨d₁, hd₁, hsame, hkept, ha⟩ := feedback_success d a
      have hpc₁ : d₁.pc = .spin := by rw [hsame]; exact hpc
      obtain ⟨events, d', hrun, hevents, hsame', hkept', hids⟩ := ih hpc₁
      have hfeedback : ∀ (e : Dispatcher) (msg : ActionFeedback), e.pc = .spin →
          step timeoutActions e (.feedback msg) = some (e.feedbackCallback msg) := by
        intro e msg he
        simp only [step, he, Pc.spinning, if_true, receive]
      have hfirst : Runs.run (step timeoutActions) d [.feedback ⟨a, .enabled⟩, .feedback ⟨a, .achieved⟩] = some d₁ := by
        have hpc' : (d.feedbackCallback ⟨a, .enabled⟩).pc = .spin := hpc
        rw [hd₁, Runs.run_cons_some (hfeedback d _ hpc), Runs.run_cons_some (hfeedback _ _ hpc'), Runs.run_nil]
      refine ⟨_ ++ events, d', by rw [Runs.run_append_some hfirst]; exact hrun, ?_, ?_,
        fun id hid => hkept' id (hkept id hid), ?_⟩
      · simp only [List.forall_mem_append, List.forall_mem_cons, List.not_mem_nil, false_imp_iff, implies_true, and_true]
        exact ⟨⟨fun _ heq => (by cases heq), fun _ heq => (by cases heq)⟩, hevents⟩
      · rw [hsame', hsame]
      · simp only [List.forall_mem_cons]
        exact ⟨hkept' a ha, hids⟩

/-! ### Completion -/

/-- Some further run completes the dispatch. -/
def Completes (timeoutActions : Bool) (d : Dispatcher) : Prop :=
  ∃ events d', Runs.run (step timeoutActions) d events = some d' ∧ d'.executing = d.executing ∧
    (∃ rest, d'.pc = .reset rest false .complete) ∧ Complete d'.executing d'.done d'.log

variable {timeoutActions} in
theorem Completes.of_run {events : List Event} (hrun : Runs.run (step timeoutActions) d events = some d')
    (hexec : d'.executing = d.executing) (h : Completes timeoutActions d') : Completes timeoutActions d := by
  obtain ⟨more, d'', hmore, hexec', hpc, hcomplete⟩ := h
  exact ⟨events ++ more, d'', by rw [Runs.run_append_some hrun]; exact hmore, hexec'.trans hexec, hpc, hcomplete⟩

/-- At the head of the loop, nothing was left to do. -/
theorem Sound.completes_loop (h : d.Sound) (hpc : d.pc = .loop) (hf : d.finishedExecution = true) :
    Completes timeoutActions d := by
  have hstep : step timeoutActions d (.advance {}) = some { d with pc := .reset d.currentPlan.nodes false .complete } := by
    simp only [step, Dispatcher.advance, hpc, hf, if_true]
  have hsound := sound_step hstep h (fun _ heq => by cases heq)
  exact ⟨[.advance {}], _, (Runs.run_cons_some hstep []).trans rfl, rfl, ⟨_, rfl⟩, hsound.phase.2 rfl⟩

/-- One more pass from the head of the loop. -/
theorem Sound.exists_pass_loop (h : d.Sound) (hpc : d.pc = .loop) (hf : d.finishedExecution = false)
    (hcancel : d.planCancelled = false) :
    ∃ events d', Runs.run (step timeoutActions) d events = some d' ∧ d'.Sound ∧ d'.pc = .spin ∧ Unhindered d d' ∧
      (d.AllReported → d'.finishedExecution = true ∨ d.done.length < d'.done.length) := by
  have hstep : step timeoutActions d (.advance {}) =
      some { d with finishedExecution := true, pc := .pass d.currentPlan.nodes } := by
    simp only [step, Dispatcher.advance, hpc, hf, hcancel, Bool.false_eq_true, if_false]
  obtain ⟨events, d', hrun, hsound, hspin, hun, hlast⟩ :=
    (sound_step hstep h (fun _ heq => by cases heq)).exists_pass timeoutActions rfl
  exact ⟨.advance {} :: events, d', by rw [Runs.run_cons_some hstep]; exact hrun, hsound, hspin, { hun with },
    fun hall => hlast hall rfl⟩

/-- From the end of a pass, when the remaining actions report. -/
theorem Sound.completes_spin (h : d.Sound) (hpc : d.pc = .spin) (hreplan : d.replanRequested = false)
    (hcancel : d.planCancelled = false) : Completes timeoutActions d := by
  -- by induction on the number of nodes that are not done
  induction hn : d.executing.nodes.length - d.done.length using Nat.strongRecOn generalizing d with
  | _ n ih =>
      have hloop : ∀ e : Dispatcher, e.pc = .spin → e.replanRequested = false →
          step timeoutActions e (.advance {}) = some { e with pc := .loop } := by
        intro e he hr
        simp only [step, Dispatcher.advance, he, hr, Bool.false_eq_true, if_false]
      by_cases hf : d.finishedExecution = true
      · have hsound := sound_step (hloop d hpc hreplan) h (fun _ heq => by cases heq)
        exact .of_run (Runs.run_cons_some (hloop d hpc hreplan) []) rfl (hsound.completes_loop timeoutActions rfl hf)
      · rw [Bool.not_eq_true] at hf
        obtain ⟨reports, d₁, hrun₁, hreports, hsame, -, hids⟩ := exists_reports timeoutActions
          (d.done.map fun id => (d.executing.node id).action.actionId) hpc
        have hsound₁ := sound_of_events hrun₁ hreports h
        have hexec : d₁.executing = d.executing := by rw [hsame]
        have hdone : d₁.done = d.done := by rw [hsame]
        have hpc₁ : d₁.pc = .spin := by rw [hsame]; exact hpc
        have hreplan₁ : d₁.replanRequested = false := by rw [hsame]; exact hreplan
        have hreported : d₁.AllReported := by
          intro id hid htype hd
          have hphase := h.phase
          rw [hpc] at hphase
          rw [hexec] at hid htype hd ⊢
          rw [show d₁.actionDispatched = d.actionDispatched by rw [hsame]] at hd
          exact hids _ (List.mem_map.mpr ⟨id, (hphase.1.dispatched id hid htype).mp hd, rfl⟩)
        have hloop₁ := hloop d₁ hpc₁ hreplan₁
        have hsound₂ := sound_step hloop₁ hsound₁ (fun _ heq => by cases heq)
        obtain ⟨events, d₃, hrun₃, hsound₃, hpc₃, hun, hlast⟩ := hsound₂.exists_pass_loop
          timeoutActions rfl (by rw [hsame]; exact hf) (by rw [hsame]; exact hcancel)
        have hrun : Runs.run (step timeoutActions) d (reports ++ .advance {} :: events) = some d₃ := by
          rw [Runs.run_append_some hrun₁, Runs.run_cons_some hloop₁, hrun₃]
        have hreplan₃ : d₃.replanRequested = false := hun.replan.trans hreplan₁
        refine .of_run hrun (hun.executing.trans hexec) ?_
        rcases hlast hreported with hf₃ | hmore
        · have hsound₄ := sound_step (hloop d₃ hpc₃ hreplan₃) hsound₃ (fun _ heq => by cases heq)
          exact .of_run (Runs.run_cons_some (hloop d₃ hpc₃ hreplan₃) []) rfl (hsound₄.completes_loop timeoutActions rfl hf₃)
        · have hbound : d₃.done.length ≤ d.executing.nodes.length := by
            have hactive := hsound₃.history
            rw [hun.executing.trans hexec] at hactive
            exact hactive.length_le
          have hlt : d.done.length < d₃.done.length := hdone ▸ hmore
          refine ih _ ?_ hsound₃ hpc₃ hreplan₃ ?_ rfl
          · rw [hun.executing.trans hexec, ← hn]
            omega
          · rw [hun.cancelled]
            exact (congrArg Dispatcher.planCancelled hsame).trans hcancel

/-- From the visits of a pass. -/
theorem Sound.completes_pass (h : d.Sound) {rest : List EsterelPlanNode} (hpc : d.pc = .pass rest)
    (hreplan : d.replanRequested = false) (hcancel : d.planCancelled = false) : Completes timeoutActions d := by
  obtain ⟨events, d', hrun, hsound, hspin, hun, -⟩ := h.exists_pass timeoutActions hpc
  exact .of_run hrun hun.executing
    (hsound.completes_spin timeoutActions hspin (hun.replan.trans hreplan) (hun.cancelled.trans hcancel))

end Dispatcher

end DroneArch.Esterel
