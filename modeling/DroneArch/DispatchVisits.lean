import DroneArch.EsterelDispatch

/-! # The visits of a dispatch

A plan graph can be dispatched when it has the `Layout` of those that the parser makes: nodes and edges refer to each
other, edges lead forward in some order of the nodes, every node but the start of the plan has an edge to it, and an end
has one from the start of its action.

`Visited` says once what the visit of a node can do (`visited_visit`).  `Active` is kept by every visit and by every
message (`Active.visited`, `Active.feedback`): the nodes done follow the edges, and the log agrees with them. -/

namespace DroneArch.Esterel

open EsterelPlan Deordering
open scoped List

/-! ### Plans that can be dispatched -/

structure Layout (plan : EsterelPlan) : Prop where
  wired : plan.Wired
  nodeId : ∀ id < plan.nodes.length, (plan.node id).nodeId = id
  forward : ∃ order : List ℕ, order.Nodup ∧ (∀ id < plan.nodes.length, id ∈ order) ∧
    ∀ s t, plan.HasEdge s t → [s, t] <+ order
  root : ∀ s t, plan.HasEdge s t → (plan.node t).nodeType ≠ .planStart
  reached : ∀ id < plan.nodes.length, (plan.node id).nodeType ≠ .planStart → ∃ s, plan.HasEdge s id
  oneRoot : ∀ a < plan.nodes.length, ∀ b < plan.nodes.length,
    (plan.node a).nodeType = .planStart → (plan.node b).nodeType = .planStart → a = b
  oneStart : ∀ a < plan.nodes.length, ∀ b < plan.nodes.length, (plan.node a).nodeType = .actionStart →
    (plan.node b).nodeType = .actionStart → (plan.node a).action.actionId = (plan.node b).action.actionId → a = b
  own : ∀ e < plan.nodes.length, (plan.node e).nodeType = .actionEnd → ∃ s < plan.nodes.length,
    (plan.node s).nodeType = .actionStart ∧ (plan.node s).action = (plan.node e).action ∧ plan.HasEdge s e

/-- The node after some nodes of a plan. -/
theorem EsterelPlan.node_split {plan : EsterelPlan} {visited rest : List EsterelPlanNode} {node : EsterelPlanNode}
    (h : plan.nodes = visited ++ node :: rest) : visited.length < plan.nodes.length ∧ plan.node visited.length = node := by
  unfold EsterelPlan.node
  rw [h, List.getD_eq_getElem?_getD, List.getElem?_append_right (le_refl _), Nat.sub_self]
  exact ⟨by simp, rfl⟩

/-- The actions of a plan are numbered in order, as `preparePlan` does. -/
def Numbered (actions : List ActionDispatch) : Prop := ∀ k (h : k < actions.length), actions[k].actionId = k

/-- The parser's graph of some plan. -/
def Parsed (plan : EsterelPlan) : Prop :=
  ∃ D epsilonTime tilList actions, Timed actions ∧ Numbered actions ∧
    plan = createGraph D epsilonTime tilList (prepared actions)

theorem layout_empty : Layout {} where
  wired := ⟨by simp, by simp, by simp [Arc, node], by simp [Arc, node], fun i j s t h => absurd h.lt (by simp)⟩
  nodeId := by simp
  forward := ⟨[], by simp, by simp, fun s t ⟨i, hi⟩ => absurd hi.lt (by simp)⟩
  root := fun s t ⟨i, hi⟩ => absurd hi.lt (by simp)
  reached := by simp
  oneRoot := by simp
  oneStart := by simp
  own := by simp

/-- **The parser's graphs can be dispatched.** -/
theorem layout_of_parsed {plan : EsterelPlan} (h : Parsed plan) : Layout plan := by
  obtain ⟨D, epsilonTime, tilList, actions, hT, hnum, rfl⟩ := h
  have hg := graph_createGraph D epsilonTime tilList hT
  generalize createGraph D epsilonTime tilList (prepared actions) = plan at hg
  have hlen : plan.nodes.length = 2 * actions.length + 1 := by
    rw [hg.same.length, prepared, length_planNodes]
  have hcases : ∀ id < plan.nodes.length, id = 0 ∨ ∃ k < actions.length, id = 2 * k + 1 ∨ id = 2 * k + 2 :=
    fun id hid => node_cases (hlen ▸ hid)
  have hstart : ∀ k, (hk : k < actions.length) → (plan.node (2 * k + 1)).nodeType = .actionStart ∧
      (plan.node (2 * k + 1)).action = actions[k] := by
    intro k hk
    rw [hg.same.nodeType, hg.same.action, prepared, node_start [] hk]
    exact ⟨rfl, rfl⟩
  have hend : ∀ k, (hk : k < actions.length) → (plan.node (2 * k + 2)).nodeType = .actionEnd ∧
      (plan.node (2 * k + 2)).action = actions[k] := by
    intro k hk
    rw [hg.same.nodeType, hg.same.action, prepared, node_end [] hk]
    exact ⟨rfl, rfl⟩
  have hzero : (plan.node 0).nodeType = .planStart := by
    rw [hg.same.nodeType]
    rfl
  have hlt : ∀ s t, plan.HasEdge s t → s < 2 * actions.length + 1 ∧ t < 2 * actions.length + 1 := by
    intro s t hst
    have := hst.lt hg.wired
    rwa [hlen] at this
  exact
    { wired := hg.wired
      nodeId := by
        intro id hid
        rw [hg.same.nodeId, prepared, nodeId_node [] (hlen ▸ hid)]
      forward := ⟨planOrder actions, nodup_planOrder actions, fun id hid => mem_planOrder.mpr (hlen ▸ hid),
        fun s t hst => pair_planOrder (hlt s t hst).1 (hlt s t hst).2 (hg.forward s t hst)⟩
      root := by
        intro s t hst htype
        rcases hcases t (hst.lt hg.wired).2 with rfl | ⟨k, hk, rfl | rfl⟩
        · have hfor := hg.forward s 0 hst
          rcases Nat.eq_zero_or_pos s with rfl | hpos
          · exact hfor.asymm hfor
          · exact hfor.asymm (earlier_zero hT hpos (hlt s 0 hst).1)
        · rw [(hstart k hk).1] at htype
          cases htype
        · rw [(hend k hk).1] at htype
          cases htype
      reached := by
        intro id hid htype
        refine hg.reached id (Nat.pos_of_ne_zero fun h0 => htype ?_) (hlen ▸ hid)
        rw [h0, hzero]
      oneRoot := by
        have hroot : ∀ id < plan.nodes.length, (plan.node id).nodeType = .planStart → id = 0 := by
          intro id hid htype
          rcases hcases id hid with h0 | ⟨k, hk, rfl | rfl⟩
          · exact h0
          · rw [(hstart k hk).1] at htype
            cases htype
          · rw [(hend k hk).1] at htype
            cases htype
        exact fun a ha b hb h h' => (hroot a ha h).trans (hroot b hb h').symm
      oneStart := by
        have hodd : ∀ id < plan.nodes.length, (plan.node id).nodeType = .actionStart →
            id = 2 * (plan.node id).action.actionId + 1 := by
          intro id hid htype
          rcases hcases id hid with rfl | ⟨k, hk, rfl | rfl⟩
          · rw [hzero] at htype
            cases htype
          · rw [(hstart k hk).2, hnum k hk]
          · rw [(hend k hk).1] at htype
            cases htype
        intro a ha b hb h h' heq
        rw [hodd a ha h, hodd b hb h', heq]
      own := by
        intro e he htype
        rcases hcases e he with rfl | ⟨k, hk, rfl | rfl⟩
        · rw [hzero] at htype
          cases htype
        · rw [(hstart k hk).1] at htype
          cases htype
        · exact ⟨2 * k + 1, by omega, (hstart k hk).1, by rw [(hstart k hk).2, (hend k hk).2], hg.own k hk⟩ }

theorem numbered_sample : Numbered sampleActions := by
  intro k hk
  match k, hk with
  | 0, _ => rfl
  | 1, _ => rfl

theorem parsed_sample : Parsed samplePlan :=
  ⟨sampleOperators, 1 / 100, [], sampleActions, timed_sample, numbered_sample, createGraph_sample.symm⟩

/-! ### The nodes that are done -/

/-- The nodes done, each once and after the nodes with edges to it; an edge is active while only its source is done. -/
structure Progress (plan : EsterelPlan) (done : List ℕ) (edgeActive : ℕ → Bool) : Prop where
  nodup : done.Nodup
  lt : ∀ id ∈ done, id < plan.nodes.length
  follows : Follows plan.HasEdge done
  active : ∀ e s t, plan.Arc e s t → (edgeActive e = true ↔ s ∈ done ∧ t ∉ done)

section
variable {plan : EsterelPlan} {done : List ℕ} {edgeActive : ℕ → Bool}

theorem Layout.irrefl (h : Layout plan) (s : ℕ) : ¬ plan.HasEdge s s := by
  intro hs
  obtain ⟨order, hnodup, -, hfor⟩ := h.forward
  exact not_pair_swap hnodup (hfor s s hs) (hfor s s hs)

/-- When all edges to a node are active, it is not done and the nodes with edges to it are. -/
theorem Progress.of_ready (h : Progress plan done edgeActive) (hplan : Layout plan) {t : ℕ} (ht : t < plan.nodes.length)
    (htype : (plan.node t).nodeType ≠ .planStart) (hready : ∀ e ∈ (plan.node t).edgesIn, edgeActive e = true) :
    t ∉ done ∧ ∀ s, plan.HasEdge s t → s ∈ done := by
  have hedge : ∀ s, plan.HasEdge s t → s ∈ done ∧ t ∉ done := by
    rintro s ⟨e, he⟩
    exact (h.active e s t he).mp (hready e ((hplan.wired.into e t).mpr ⟨s, he⟩))
  obtain ⟨s, hs⟩ := hplan.reached t ht htype
  exact ⟨(hedge s hs).2, fun s hs => (hedge s hs).1⟩

/-- A node whose predecessors are done has all edges to it active until it is done. -/
theorem Progress.ready_of (h : Progress plan done edgeActive) (hplan : Layout plan) {t : ℕ} (hnot : t ∉ done)
    (hpred : ∀ s, plan.HasEdge s t → s ∈ done) : ∀ e ∈ (plan.node t).edgesIn, edgeActive e = true := by
  intro e he
  obtain ⟨s, hs⟩ := (hplan.wired.into e t).mp he
  exact (h.active e s t hs).mpr ⟨hpred s ⟨e, hs⟩, hnot⟩

/-- **One node is handled.** -/
theorem Progress.handle (h : Progress plan done edgeActive) (hplan : Layout plan) {t : ℕ} (ht : t < plan.nodes.length)
    (hnot : t ∉ done) (hpred : ∀ s, plan.HasEdge s t → s ∈ done) :
    Progress plan (done ++ [t]) (fun e => decide (e ∈ (plan.node t).edgesOut) ||
      (edgeActive e && !decide (e ∈ (plan.node t).edgesIn))) where
  nodup := List.nodup_append.mpr ⟨h.nodup, List.nodup_singleton t, fun x hx y hy hxy =>
    hnot (List.mem_singleton.mp hy ▸ hxy ▸ hx)⟩
  lt := by
    simp only [List.forall_mem_append, List.forall_mem_singleton]
    exact ⟨h.lt, ht⟩
  follows a b hab hb := by
    rcases List.mem_append.mp hb with hin | hin
    · exact (h.follows a b hab hin).trans (List.sublist_append_left _ _)
    · rw [List.mem_singleton.mp hin] at hab ⊢
      exact pair_append (hpred a hab) (by simp)
  active e s t' harc := by
    have hout : e ∈ (plan.node t).edgesOut ↔ s = t := by
      rw [hplan.wired.out]
      constructor
      · rintro ⟨t'', ht''⟩
        exact (harc.ends_eq ht'').1
      · rintro rfl
        exact ⟨t', harc⟩
    have hin : e ∈ (plan.node t).edgesIn ↔ t' = t := by
      rw [hplan.wired.into]
      constructor
      · rintro ⟨s', hs'⟩
        exact (harc.ends_eq hs').2
      · rintro rfl
        exact ⟨s, harc⟩
    rw [Bool.or_eq_true, Bool.and_eq_true, Bool.not_eq_true', decide_eq_true_iff, decide_eq_false_iff_not, hout, hin,
      h.active e s t' harc, List.mem_append, List.mem_append, List.mem_singleton, List.mem_singleton]
    constructor
    · rintro (rfl | ⟨⟨hs, ht'⟩, hne⟩)
      · refine ⟨Or.inr rfl, ?_⟩
        rintro (hmem | rfl)
        · exact hnot (pair_left_mem (h.follows s t' ⟨e, harc⟩ hmem))
        · exact hplan.irrefl t' ⟨e, harc⟩
      · exact ⟨Or.inl hs, fun hor => hor.elim ht' hne⟩
    · rintro ⟨hs | rfl, hnot'⟩
      · exact Or.inr ⟨⟨hs, fun hmem => hnot' (Or.inl hmem)⟩, fun heq => hnot' (Or.inr heq)⟩
      · exact Or.inl rfl

/-- Nodes that are done when their predecessors are: all nodes. -/
theorem Layout.all_done (hplan : Layout plan) (hnext : ∀ t < plan.nodes.length,
    (∀ s, plan.HasEdge s t → s ∈ done) → t ∈ done) : ∀ t < plan.nodes.length, t ∈ done := by
  obtain ⟨order, hnodup, hall, hfor⟩ := hplan.forward
  -- by induction on the prefix of the order that is done
  suffices hpre : ∀ l r, order = l ++ r → ∀ t ∈ l, t < plan.nodes.length → t ∈ done from
    fun t ht => hpre order [] (by simp) t (hall t ht) ht
  intro l
  induction l using List.reverseRecOn with
  | nil => simp
  | append_singleton l t ih =>
      intro r heq t' ht' hlt
      rcases List.mem_append.mp ht' with hin | hin
      · exact ih (t :: r) (by rw [heq, List.append_assoc, List.singleton_append]) t' hin hlt
      · rw [List.mem_singleton.mp hin] at hlt ⊢
        refine hnext t hlt (fun s hs => ?_)
        have hpair := hfor s t hs
        rw [heq] at hpair hnodup
        have hsl : s ∈ l ++ [t] := pair_left_mem (pair_of_append hnodup hpair (by simp))
        rcases List.mem_append.mp hsl with hin' | hin'
        · exact ih (t :: r) (by rw [heq, List.append_assoc, List.singleton_append]) s hin' (hs.lt hplan.wired).1
        · rw [List.mem_singleton.mp hin'] at hs
          exact absurd hs (hplan.irrefl t)

end

/-! ### What a visit can do -/

/-- Only the two flags that end a dispatch differ: that it goes on is not taken back, nor is the request for a plan. -/
structure FlagsOnly (d d' : Dispatcher) : Prop where
  eq : d' = { d with finishedExecution := d'.finishedExecution, replanRequested := d'.replanRequested }
  finished : d'.finishedExecution = true → d.finishedExecution = true
  replan : d.replanRequested = true → d'.replanRequested = true

theorem FlagsOnly.refl (d : Dispatcher) : FlagsOnly d d := ⟨rfl, id, id⟩

theorem FlagsOnly.trans {d d' d'' : Dispatcher} (h : FlagsOnly d d') (h' : FlagsOnly d' d'') : FlagsOnly d d'' where
  eq := by rw [h'.eq, h.eq]
  finished hf := h.finished (h'.finished hf)
  replan hr := h'.replan (h.replan hr)

/-- The bounds of the edges stop a visit only with a reason to go on or to plan again. -/
theorem checkTimes_spec (timing : ℕ → Timing) (ended : Bool) (es : List ℕ) (d : Dispatcher) :
    FlagsOnly d (Dispatcher.checkTimes timing ended es d).1 ∧
      ((Dispatcher.checkTimes timing ended es d).2 = false →
        (Dispatcher.checkTimes timing ended es d).1.finishedExecution = false ∨
          (Dispatcher.checkTimes timing ended es d).1.replanRequested = true) := by
  induction es generalizing d with
  | nil => exact ⟨.refl d, fun h => by cases h⟩
  | cons e es ih =>
      unfold Dispatcher.checkTimes
      cases timing e with
      | early => exact ⟨⟨rfl, fun h => (by cases h), id⟩, fun _ => Or.inl rfl⟩
      | inside => exact ih d
      | late =>
          by_cases hend : ended = true
          · simp only [hend, if_true]
            have := ih d
            rwa [hend] at this
          · have hlate : FlagsOnly d { d with replanRequested := true } := ⟨rfl, id, fun _ => rfl⟩
            have hrest := (ih { d with replanRequested := true }).1
            simp only [if_neg hend]
            exact ⟨hlate.trans hrest, fun _ => Or.inr (hrest.replan rfl)⟩

theorem checkBounds_spec (timeoutActions : Bool) (timing : ℕ → Timing) (ended : Bool) (es : List ℕ) (d : Dispatcher) :
    FlagsOnly d (Dispatcher.checkBounds timeoutActions timing ended es d).1 ∧
      ((Dispatcher.checkBounds timeoutActions timing ended es d).2 = false →
        (Dispatcher.checkBounds timeoutActions timing ended es d).1.finishedExecution = false ∨
          (Dispatcher.checkBounds timeoutActions timing ended es d).1.replanRequested = true) := by
  unfold Dispatcher.checkBounds
  split
  · exact checkTimes_spec timing ended es d
  · exact ⟨.refl d, fun h => by cases h⟩

/-- Nothing is left to do at a node in the present state. -/
def Dispatcher.Quiet (d : Dispatcher) (node : EsterelPlanNode) : Prop :=
  let id := node.action.actionId
  match node.nodeType with
  | .planStart => d.planStarted = true
  | .actionStart => (d.actionDispatched id = true → d.actionCompleted id = true) ∧
      (d.ready node = true → d.actionDispatched id = true)
  | .actionEnd => (d.actionDispatched id = true → d.actionCompleted id = true) ∧
      (d.ready node = true → d.actionCompleted id = false)

/-- What a visit can do: it changes nothing but the flags, and ends the dispatch only when nothing is left to do; or it
handles the start of the plan, the end of an action that was reported, or the start of an action, which it sends. -/
inductive Visited (d : Dispatcher) (node : EsterelPlanNode) : Dispatcher → Prop
  | flags (d' : Dispatcher) (h : FlagsOnly d d')
      (hquiet : d'.finishedExecution = true → d.Quiet node ∨ d'.replanRequested = true) : Visited d node d'
  | root (htype : node.nodeType = .planStart) (hnot : d.planStarted = false) : Visited d node
      { d.handle node with edgeActive := fun e => decide (e ∈ node.edgesOut) || d.edgeActive e, planStarted := true }
  | ended (d' : Dispatcher) (htype : node.nodeType = .actionEnd) (hready : d.ready node = true)
      (hcompleted : d.actionCompleted node.action.actionId = true) (h : FlagsOnly (d.handle node) d') : Visited d node d'
  | started (d₁ : Dispatcher) (timeoutActions : Bool) (htype : node.nodeType = .actionStart) (h : FlagsOnly d d₁)
      (hready : d.ready node = true) (hnot : d.actionDispatched node.action.actionId = false) :
      Visited d node (d₁.dispatchAction timeoutActions true node)

/-- The rest of a visit, for a node whose edges are active. -/
theorem visited_activate (timeoutActions : Bool) (answer : Answer) {node : EsterelPlanNode}
    (hnode : node.nodeType ≠ .planStart) {d d₁ : Dispatcher} (hflags : FlagsOnly d d₁) (hready : d.ready node = true)
    (hrunning : d₁.finishedExecution = true → d.actionDispatched node.action.actionId = true →
      d.actionCompleted node.action.actionId = true) :
    Visited d node (d₁.activate timeoutActions answer node) := by
  have hcompleted : d₁.actionCompleted = d.actionCompleted := by rw [hflags.eq]
  have hdispatched : d₁.actionDispatched = d.actionDispatched := by rw [hflags.eq]
  unfold Dispatcher.activate
  by_cases hend : node.nodeType = .actionEnd
  · -- an end: never dispatched, so the visit stops after the bounds
    simp only [hend, reduceCtorEq, decide_false, Bool.and_false, Bool.false_and, Bool.false_eq_true, if_false,
      decide_true, Bool.true_and]
    by_cases hc : d.actionCompleted node.action.actionId = true
    · have hhandle : FlagsOnly (d.handle node) (d₁.handle node) := by
        refine ⟨?_, id, hflags.replan⟩
        rw [hflags.eq]
        rfl
      rw [hcompleted, hc]
      simp only [if_true]
      exact .ended _ hend hready hc (hhandle.trans (checkBounds_spec _ _ _ _ _).1)
    · rw [Bool.not_eq_true] at hc
      rw [hcompleted, hc]
      simp only [Bool.false_eq_true, if_false]
      have hbounds := (checkBounds_spec timeoutActions answer.timing false node.edgesIn d₁).1
      refine .flags _ (hflags.trans hbounds) (fun hf => Or.inl ?_)
      simp only [Dispatcher.Quiet, hend]
      exact ⟨hrunning (hbounds.finished hf), fun _ => hc⟩
  · have hstart : node.nodeType = .actionStart := by
      cases htype : node.nodeType with
      | actionStart => rfl
      | actionEnd => exact absurd htype hend
      | planStart => exact absurd htype hnode
    simp only [hstart, reduceCtorEq, decide_false, Bool.false_and, Bool.false_eq_true, if_false, decide_true,
      Bool.and_true]
    have hspec := checkBounds_spec timeoutActions answer.timing false node.edgesIn d₁
    generalize Dispatcher.checkBounds timeoutActions answer.timing false node.edgesIn d₁ = times at hspec ⊢
    have hdispatched' : times.1.actionDispatched = d.actionDispatched := by rw [hspec.1.eq]; exact hdispatched
    by_cases hgo : (times.2 && !times.1.actionDispatched node.action.actionId) = true
    · rw [if_pos hgo]
      rw [Bool.and_eq_true, Bool.not_eq_true', hdispatched'] at hgo
      cases hpre : answer.preconditions with
      | true => exact .started _ timeoutActions hstart (hflags.trans hspec.1) hready hgo.2
      | false =>
          refine .flags _ ((hflags.trans hspec.1).trans ?_) (fun hf => by cases hf)
          exact ⟨rfl, fun hf => (by cases hf), fun hr => (by simp [Dispatcher.dispatchAction, hr])⟩
    · rw [if_neg hgo]
      refine .flags _ (hflags.trans hspec.1) (fun hf => ?_)
      by_cases ht : times.2 = true
      · left
        have hd : d.actionDispatched node.action.actionId = true := by
          rw [ht, Bool.true_and, Bool.not_eq_true', Bool.not_eq_false, hdispatched'] at hgo
          exact hgo
        simp only [Dispatcher.Quiet, hstart]
        exact ⟨hrunning (hspec.1.finished hf), fun _ => hd⟩
      · rw [Bool.not_eq_true] at ht
        exact Or.inr ((hspec.2 ht).resolve_left (by rw [hf]; simp))

/-- **One visit.** -/
theorem visited_visit (timeoutActions : Bool) (answer : Answer) (node : EsterelPlanNode) (d : Dispatcher) :
    Visited d node (d.visit timeoutActions answer node) := by
  by_cases hroot : node.nodeType = .planStart
  · unfold Dispatcher.visit
    rw [hroot]
    simp only
    by_cases hstarted : d.planStarted = true
    · rw [if_pos hstarted]
      refine .flags d (.refl d) (fun _ => Or.inl ?_)
      simp only [Dispatcher.Quiet, hroot]
      exact hstarted
    · rw [if_neg hstarted]
      exact .root hroot (by simpa using hstarted)
  · have hvisit : d.visit timeoutActions answer node =
        let d₁ := if d.actionDispatched node.action.actionId && !d.actionCompleted node.action.actionId then
          { d with finishedExecution := false } else d
        if d₁.ready node then d₁.activate timeoutActions answer node else d₁ := by
      unfold Dispatcher.visit
      cases htype : node.nodeType with
      | planStart => exact absurd htype hroot
      | actionStart => rfl
      | actionEnd => rfl
    rw [hvisit]
    obtain ⟨d₁, hd₁⟩ : ∃ d₁, d₁ = if d.actionDispatched node.action.actionId && !d.actionCompleted node.action.actionId then
      { d with finishedExecution := false } else d := ⟨_, rfl⟩
    simp only
    rw [← hd₁]
    have hflags : FlagsOnly d d₁ := by
      rw [hd₁]
      split
      · exact ⟨rfl, fun h => (by cases h), id⟩
      · exact .refl d
    have hrunning : d₁.finishedExecution = true → d.actionDispatched node.action.actionId = true →
        d.actionCompleted node.action.actionId = true := by
      intro hf hdisp
      by_contra hc
      rw [Bool.not_eq_true] at hc
      rw [hd₁, hdisp, hc] at hf
      cases hf
    have hready : d₁.ready node = d.ready node := by
      rw [hflags.eq]
      rfl
    rw [hready]
    by_cases hr : d.ready node = true
    · rw [if_pos hr]
      exact visited_activate timeoutActions answer hroot hflags hr hrunning
    · rw [if_neg hr]
      refine .flags d₁ hflags (fun hf => Or.inl ?_)
      cases htype : node.nodeType with
      | planStart => exact absurd htype hroot
      | actionStart =>
          simp only [Dispatcher.Quiet, htype]
          exact ⟨hrunning hf, fun h => absurd h hr⟩
      | actionEnd =>
          simp only [Dispatcher.Quiet, htype]
          exact ⟨hrunning hf, fun h => absurd h hr⟩

/-- Nothing has failed yet. -/
def NoFailure (log : List Entry) : Prop := ∀ id, Entry.failed id ∉ log

section
variable {d d' : Dispatcher} {node : EsterelPlanNode}

theorem Visited.plans (h : Visited d node d') :
    d'.currentPlan = d.currentPlan ∧ d'.executing = d.executing := by
  cases h with
  | flags _ hflags _ => exact ⟨by rw [hflags.eq], by rw [hflags.eq]⟩
  | root _ _ => exact ⟨rfl, rfl⟩
  | ended _ _ _ _ hflags => exact ⟨by rw [hflags.eq]; rfl, by rw [hflags.eq]; rfl⟩
  | started d₁ timeoutActions _ hflags _ _ =>
      simp only [Dispatcher.dispatchAction, Dispatcher.handle, if_true]
      exact ⟨by rw [hflags.eq], by rw [hflags.eq]⟩

/-- A visit does not report. -/
theorem Visited.noFailure (h : Visited d node d') (hok : NoFailure d.log) :
    NoFailure d'.log := by
  cases h with
  | flags _ hflags _ => rw [hflags.eq]; exact hok
  | root _ _ => exact hok
  | ended _ _ _ _ hflags => rw [hflags.eq]; exact hok
  | started d₁ timeoutActions _ hflags _ _ =>
      have hlog : d₁.log = d.log := by rw [hflags.eq]
      intro id hid
      simp only [Dispatcher.dispatchAction, Dispatcher.handle, if_true, hlog, List.mem_append, List.mem_singleton, reduceCtorEq, or_false] at hid
      exact hok id hid

/-- A visit that lets the dispatch end found nothing left to do, and changed nothing. -/
theorem Visited.quiet (h : Visited d node d') (hf : d'.finishedExecution = true) :
    FlagsOnly d d' ∧ (d.Quiet node ∨ d'.replanRequested = true) := by
  cases h with
  | flags _ hflags hquiet => exact ⟨hflags, hquiet hf⟩
  | root _ _ => cases hf
  | ended _ _ _ _ hflags => cases hflags.finished hf
  | started _ _ _ _ _ _ => cases hf

/-- Flags do not matter to what is left to do. -/
theorem FlagsOnly.quiet (hflags : FlagsOnly d d') (h : d.Quiet node) : d'.Quiet node := by
  rw [hflags.eq]
  exact h

end

/-! ### A dispatch -/

/-- The message an entry stands for. -/
def Entry.message : Entry → Option ActionDispatch
  | .publish msg => some msg
  | _ => none

namespace Dispatcher

/-- The actions whose start is done, in the order they were done in. -/
def startedActions (plan : EsterelPlan) (done : List ℕ) : List ActionDispatch :=
  (done.filter fun id => decide ((plan.node id).nodeType = .actionStart)).map fun id => (plan.node id).action

theorem startedActions_concat (plan : EsterelPlan) (done : List ℕ) (t : ℕ) :
    startedActions plan (done ++ [t]) = startedActions plan done ++
      if (plan.node t).nodeType = .actionStart then [(plan.node t).action] else [] := by
  unfold startedActions
  rw [List.filter_append, List.map_append]
  congr 1
  by_cases ht : (plan.node t).nodeType = .actionStart <;> simp [ht]

/-- After it was sent, an action was reported with a success. -/
def Succeeded (log : List Entry) (a : ActionDispatch) : Prop := [.publish a, .achieved a.actionId] <+ log

/-- The state of a dispatch whose nodes are visited.  An action that was sent and completed was reported; an end that is
done was reported as a success, before the actions that follow it were sent; after a failure no action is sent. -/
structure Active (d : Dispatcher) : Prop where
  layout : Layout d.executing
  progress : Progress d.executing d.done d.edgeActive
  started : d.planStarted = true ↔ ∃ id ∈ d.done, (d.executing.node id).nodeType = .planStart
  dispatched : ∀ id < d.executing.nodes.length, (d.executing.node id).nodeType = .actionStart →
    (d.actionDispatched (d.executing.node id).action.actionId = true ↔ id ∈ d.done)
  completed : ∀ id ∈ d.done, (d.executing.node id).nodeType = .actionEnd →
    d.actionCompleted (d.executing.node id).action.actionId = true
  sent : d.log.filterMap Entry.message = startedActions d.executing d.done
  reported : ∀ id < d.executing.nodes.length, (d.executing.node id).nodeType = .actionStart →
    d.actionDispatched (d.executing.node id).action.actionId = true →
    d.actionCompleted (d.executing.node id).action.actionId = true →
    Succeeded d.log (d.executing.node id).action ∨
      (.failed (d.executing.node id).action.actionId ∈ d.log ∧ d.replanRequested = true)
  ended : ∀ e ∈ d.done, (d.executing.node e).nodeType = .actionEnd → Succeeded d.log (d.executing.node e).action
  causal : ∀ e t, [e, t] <+ d.done → (d.executing.node e).nodeType = .actionEnd →
    (d.executing.node t).nodeType = .actionStart →
    [.achieved (d.executing.node e).action.actionId, .publish (d.executing.node t).action] <+ d.log
  aborted : ∀ id msg, ¬ [.failed id, .publish msg] <+ d.log

variable {d d' : Dispatcher}

theorem Active.flags (h : d.Active) (hflags : FlagsOnly d d') : d'.Active := by
  have hreplan := hflags.replan
  rw [hflags.eq] at hreplan ⊢
  exact
    { layout := h.layout
      progress := h.progress
      started := h.started
      dispatched := h.dispatched
      completed := h.completed
      sent := h.sent
      reported := fun id hid htype hd hc => (h.reported id hid htype hd hc).imp_right
        fun hf => ⟨hf.1, hreplan hf.2⟩
      ended := h.ended
      causal := h.causal
      aborted := h.aborted }

/-- Without a failure, an action that was sent and completed is one that succeeded. -/
theorem Active.succeeded (h : d.Active) (hok : NoFailure d.log) {id : ℕ} (hid : id ∈ d.done)
    (htype : (d.executing.node id).nodeType = .actionStart)
    (hc : d.actionCompleted (d.executing.node id).action.actionId = true) :
    Succeeded d.log (d.executing.node id).action :=
  (h.reported id (h.progress.lt id hid) htype ((h.dispatched id (h.progress.lt id hid) htype).mpr hid) hc).resolve_right
    fun hf => hok _ hf.1

theorem Active.root (h : d.Active) {t : ℕ} (ht : t < d.executing.nodes.length)
    (htype : (d.executing.node t).nodeType = .planStart)
    (hnot : d.planStarted = false) : Active { d.handle (d.executing.node t) with
      edgeActive := fun e => decide (e ∈ (d.executing.node t).edgesOut) || d.edgeActive e, planStarted := true } := by
  have htdone : t ∉ d.done := by
    intro hmem
    rw [h.started.mpr ⟨t, hmem, htype⟩] at hnot
    cases hnot
  have hprog := h.progress.handle h.layout ht htdone (fun s hs => absurd htype (h.layout.root s t hs))
  have hin : (d.executing.node t).edgesIn = [] := by
    rw [List.eq_nil_iff_forall_not_mem]
    intro e he
    obtain ⟨s, hs⟩ := (h.layout.wired.into e t).mp he
    exact h.layout.root s t ⟨e, hs⟩ htype
  have hid := h.layout.nodeId t ht
  exact
    { layout := h.layout
      progress := by
        simp only [hin, List.not_mem_nil, decide_false, Bool.not_false, Bool.and_true] at hprog
        simp only [handle, hid]
        exact hprog
      started := iff_of_true rfl ⟨t, by simp [handle, hid], htype⟩
      dispatched := by
        intro id hlt hstart
        have hne : id ≠ t := by
          rintro rfl
          rw [show (d.executing.node id).nodeType = .actionStart from hstart] at htype
          cases htype
        simp only [handle, hid, List.mem_append, List.mem_singleton, hne, or_false]
        exact h.dispatched id hlt hstart
      completed := by
        intro id hmem hend
        simp only [handle, hid, List.mem_append, List.mem_singleton] at hmem
        rcases hmem with hmem | rfl
        · exact h.completed id hmem hend
        · rw [show (d.executing.node id).nodeType = .actionEnd from hend] at htype
          cases htype
      sent := by
        have htype' : (d.executing.node t).nodeType = .planStart := htype
        simp only [handle, hid, startedActions_concat, htype', reduceCtorEq, if_false, List.append_nil]
        exact h.sent
      reported := h.reported
      ended := by
        intro e hmem hend
        simp only [handle, hid, List.mem_append, List.mem_singleton] at hmem
        rcases hmem with hmem | rfl
        · exact h.ended e hmem hend
        · rw [show (d.executing.node e).nodeType = .actionEnd from hend] at htype
          cases htype
      causal := by
        intro e t' hpair hend hstart
        simp only [handle, hid, pair_concat_iff] at hpair
        rcases hpair with hpair | ⟨-, rfl⟩
        · exact h.causal e t' hpair hend hstart
        · rw [show (d.executing.node t').nodeType = .actionStart from hstart] at htype
          cases htype
      aborted := h.aborted }

/-- A node whose edges are active can be handled. -/
theorem Active.ready (h : d.Active) {t : ℕ} (ht : t < d.executing.nodes.length)
    (htype : (d.executing.node t).nodeType ≠ .planStart) (hready : d.ready (d.executing.node t) = true) :
    t ∉ d.done ∧ ∀ s, d.executing.HasEdge s t → s ∈ d.done :=
  h.progress.of_ready h.layout ht htype (List.all_eq_true.mp hready)

theorem Active.endNode (h : d.Active) (hok : NoFailure d.log) {t : ℕ} (ht : t < d.executing.nodes.length)
    (htype : (d.executing.node t).nodeType = .actionEnd) (hready : d.ready (d.executing.node t) = true)
    (hcompleted : d.actionCompleted (d.executing.node t).action.actionId = true) :
    Active (d.handle (d.executing.node t)) := by
  obtain ⟨hnot, hpred⟩ := h.ready ht (by rw [htype]; decide) hready
  have hid := h.layout.nodeId t ht
  have htype' : (d.executing.node t).nodeType = .actionEnd := htype
  exact
    { layout := h.layout
      progress := by
        simp only [handle, hid]
        exact h.progress.handle h.layout ht hnot hpred
      started := by
        simp only [handle, hid, List.mem_append, List.mem_singleton, or_and_right, exists_or, exists_eq_left,
          htype', reduceCtorEq, or_false]
        exact h.started
      dispatched := by
        intro id hlt hstart
        have hne : id ≠ t := by
          rintro rfl
          rw [show (d.executing.node id).nodeType = .actionStart from hstart] at htype
          cases htype
        simp only [handle, hid, List.mem_append, List.mem_singleton, hne, or_false]
        exact h.dispatched id hlt hstart
      completed := by
        intro id hmem hend
        simp only [handle, hid, List.mem_append, List.mem_singleton] at hmem
        rcases hmem with hmem | rfl
        · exact h.completed id hmem hend
        · exact hcompleted
      sent := by
        simp only [handle, hid, startedActions_concat, htype', reduceCtorEq, if_false, List.append_nil]
        exact h.sent
      reported := h.reported
      ended := by
        intro e hmem hend
        simp only [handle, hid, List.mem_append, List.mem_singleton] at hmem ⊢
        rcases hmem with hmem | rfl
        · exact h.ended e hmem hend
        · -- its start is done, so the action was sent
          obtain ⟨s, hs, hstart, haction, hedge⟩ := h.layout.own e ht htype
          rw [← haction] at hcompleted ⊢
          exact h.succeeded hok (hpred s hedge) hstart hcompleted
      causal := by
        intro e t' hpair hend hstart
        simp only [handle, hid, pair_concat_iff] at hpair
        rcases hpair with hpair | ⟨-, rfl⟩
        · exact h.causal e t' hpair hend hstart
        · rw [show (d.executing.node t').nodeType = .actionStart from hstart] at htype
          cases htype
      aborted := h.aborted }

theorem Active.startNode (h : d.Active) (hok : NoFailure d.log) (timeoutActions : Bool) {t : ℕ} (ht : t < d.executing.nodes.length)
    (htype : (d.executing.node t).nodeType = .actionStart) (hready : d.ready (d.executing.node t) = true) :
    Active (d.dispatchAction timeoutActions true (d.executing.node t)) := by
  obtain ⟨hnot, hpred⟩ := h.ready ht (by rw [htype]; decide) hready
  have hid := h.layout.nodeId t ht
  have htype' : (d.executing.node t).nodeType = .actionStart := htype
  -- another action has another identifier
  have hother : ∀ id < d.executing.nodes.length, (d.executing.node id).nodeType = .actionStart → id ≠ t →
      (d.executing.node id).action.actionId ≠ (d.executing.node t).action.actionId :=
    fun id hlt hstart hne heq => hne (h.layout.oneStart id hlt t ht hstart htype heq)
  exact
    { layout := h.layout
      progress := by
        simp only [dispatchAction, handle, hid, if_true]
        exact h.progress.handle h.layout ht hnot hpred
      started := by
        simp only [dispatchAction, handle, hid, if_true, List.mem_append, List.mem_singleton, or_and_right,
          exists_or, exists_eq_left, htype', reduceCtorEq, or_false]
        exact h.started
      dispatched := by
        intro id hlt hstart
        simp only [dispatchAction, handle, hid, if_true, List.mem_append, List.mem_singleton]
        by_cases hne : id = t
        · subst hne
          exact iff_of_true (Function.update_self _ _ _) (Or.inr rfl)
        · rw [Function.update_of_ne (hother id hlt hstart hne)]
          simp only [hne, or_false]
          exact h.dispatched id hlt hstart
      completed := by
        intro e hmem hend
        simp only [dispatchAction, handle, hid, if_true, List.mem_append, List.mem_singleton] at hmem ⊢
        have hmem' : e ∈ d.done := by
          rcases hmem with hmem | rfl
          · exact hmem
          · rw [show (d.executing.node e).nodeType = .actionEnd from hend] at htype
            cases htype
        obtain ⟨s, hs, hstart, haction, hedge⟩ := h.layout.own e (h.progress.lt e hmem') hend
        have hne : s ≠ t := by
          rintro rfl
          exact hnot (pair_left_mem (h.progress.follows s e hedge hmem'))
        rw [Function.update_of_ne]
        · exact h.completed e hmem' hend
        · exact haction ▸ hother s hs hstart hne
      sent := by
        simp only [dispatchAction, handle, hid, if_true, startedActions_concat, htype', List.filterMap_append, h.sent]
        rfl
      reported := by
        intro id hlt hstart hd hc
        simp only [dispatchAction, handle, if_true] at hd hc ⊢
        by_cases hne : id = t
        · subst hne
          rw [Function.update_self] at hc
          cases hc
        · have hid' := hother id hlt hstart hne
          rw [Function.update_of_ne hid'] at hd hc
          exact (h.reported id hlt hstart hd hc).imp (fun hs => hs.trans (List.sublist_append_left _ _))
            (fun hf => ⟨List.mem_append_left _ hf.1, hf.2⟩)
      ended := by
        intro e hmem hend
        simp only [dispatchAction, handle, hid, if_true, List.mem_append, List.mem_singleton] at hmem ⊢
        rcases hmem with hmem | rfl
        · exact (h.ended e hmem hend).trans (List.sublist_append_left _ _)
        · rw [show (d.executing.node e).nodeType = .actionEnd from hend] at htype
          cases htype
      causal := by
        intro e t' hpair hend hstart
        simp only [dispatchAction, handle, hid, if_true, pair_concat_iff] at hpair ⊢
        rcases hpair with hpair | ⟨he, rfl⟩
        · exact Or.inl (h.causal e t' hpair hend hstart)
        · exact Or.inr ⟨pair_right_mem (h.ended e he hend), rfl⟩
      aborted := by
        intro id msg hpair
        simp only [dispatchAction, handle, if_true, pair_concat_iff] at hpair
        rcases hpair with hpair | ⟨hf, -⟩
        · exact h.aborted id msg hpair
        · exact hok id hf }

/-- **One visit** keeps the dispatch in order. -/
theorem Active.visited (h : d.Active) (hok : NoFailure d.log) {t : ℕ} (ht : t < d.executing.nodes.length)
    (hv : Visited d (d.executing.node t) d') : d'.Active := by
  cases hv with
  | flags _ hflags _ => exact h.flags hflags
  | root htype hnot => exact h.root ht htype hnot
  | ended _ htype hready hcompleted hflags => exact (h.endNode hok ht htype hready hcompleted).flags hflags
  | started d₁ timeoutActions htype hflags hready hnot =>
      have heq := hflags.eq
      have hexec : d₁.executing = d.executing := by rw [heq]
      rw [← hexec] at ht htype hready ⊢
      refine (h.flags hflags).startNode (by rw [heq]; exact hok) timeoutActions ht htype ?_
      rw [show d₁.ready = d.ready by rw [heq]; rfl]
      exact hready

/-- A started action was sent. -/
theorem Active.publish_mem (h : d.Active) {id : ℕ} (hid : id ∈ d.done)
    (htype : (d.executing.node id).nodeType = .actionStart) : .publish (d.executing.node id).action ∈ d.log := by
  have hmem : (d.executing.node id).action ∈ d.log.filterMap Entry.message := by
    rw [h.sent]
    exact List.mem_map.mpr ⟨id, List.mem_filter.mpr ⟨hid, by simpa using htype⟩, rfl⟩
  obtain ⟨e, he, hmsg⟩ := List.mem_filterMap.mp hmem
  cases e with
  | publish msg =>
      obtain rfl := Option.some.inj hmsg
      exact he
  | achieved id => cases hmsg
  | failed id => cases hmsg

theorem Active.feedback (h : d.Active) (msg : ActionFeedback) : (d.feedbackCallback msg).Active := by
  -- a report of one action, accepted
  have hreport : ∀ (entry : Entry) (replan : Bool), entry.message = none →
      (∀ id ∈ d.done, (d.executing.node id).nodeType = .actionStart →
        (d.executing.node id).action.actionId = msg.actionId →
        Succeeded (d.log ++ [entry]) (d.executing.node id).action ∨
          (.failed (d.executing.node id).action.actionId ∈ d.log ++ [entry] ∧ replan = true)) →
      (d.replanRequested = true → replan = true) →
      Active { d with
        actionCompleted := Function.update d.actionCompleted msg.actionId true
        replanRequested := replan
        log := d.log ++ [entry] } := by
    intro entry replan hentry hrep hreplan
    exact
      { layout := h.layout
        progress := h.progress
        started := h.started
        dispatched := h.dispatched
        completed := by
          intro id hid htype
          simp only
          by_cases heq : (d.executing.node id).action.actionId = msg.actionId
          · rw [heq, Function.update_self]
          · rw [Function.update_of_ne heq]
            exact h.completed id hid htype
        sent := by
          simp only [List.filterMap_append, h.sent, List.filterMap_cons, hentry, List.filterMap_nil, List.append_nil]
        reported := by
          intro id hlt htype hd hc
          simp only at hd hc ⊢
          by_cases heq : (d.executing.node id).action.actionId = msg.actionId
          · exact hrep id ((h.dispatched id hlt htype).mp hd) htype heq
          · rw [Function.update_of_ne heq] at hc
            exact (h.reported id hlt htype hd hc).imp (fun hs => hs.trans (List.sublist_append_left _ _))
              (fun hf => ⟨List.mem_append_left _ hf.1, hreplan hf.2⟩)
        ended := fun e he htype => (h.ended e he htype).trans (List.sublist_append_left _ _)
        causal := fun e t hpair he ht => (h.causal e t hpair he ht).trans (List.sublist_append_left _ _)
        aborted := by
          intro id m hpair
          rcases pair_concat_iff.mp hpair with hpair | ⟨-, rfl⟩
          · exact h.aborted id m hpair
          · cases hentry }
  unfold feedbackCallback
  cases msg.status with
  | enabled => exact { h with }
  | achieved =>
      simp only
      split
      · refine hreport (.achieved msg.actionId) d.replanRequested rfl (fun id hid htype heq => Or.inl ?_) id
        unfold Succeeded
        rw [heq]
        exact pair_append (h.publish_mem hid htype) (by simp)
      · exact h
  | failed =>
      simp only
      split
      · exact hreport (.failed msg.actionId) true rfl (fun id hid htype heq => Or.inr ⟨by simp [heq], rfl⟩) (fun _ => rfl)
      · exact h

/-- A request clears what the dispatcher knows of the actions and edges of the plan. -/
theorem begin_actionId (d : Dispatcher) {id : ℕ} (hlt : id < d.currentPlan.nodes.length) :
    d.begin.actionDispatched (d.currentPlan.node id).action.actionId = false := by
  have hmem : (d.currentPlan.node id).action.actionId ∈ d.currentPlan.nodes.map (fun n => n.action.actionId) := by
    refine List.mem_map.mpr ⟨d.currentPlan.node id, ?_, rfl⟩
    unfold EsterelPlan.node
    rw [List.getD_eq_getElem?_getD, List.getElem?_eq_getElem hlt, Option.getD_some]
    exact List.getElem_mem hlt
  simp only [Dispatcher.begin, decide_eq_true hmem, Bool.not_true, Bool.and_false]

theorem begin_edgeId (d : Dispatcher) (h : d.currentPlan.Wired) {e : ℕ} (hlt : e < d.currentPlan.edges.length) :
    d.begin.edgeActive e = false := by
  have hmem : e ∈ d.currentPlan.edges.map EsterelPlanEdge.edgeId := by
    refine List.mem_map.mpr ⟨d.currentPlan.edge e, ?_, h.edgeId e hlt⟩
    unfold EsterelPlan.edge
    rw [List.getD_eq_getElem?_getD, List.getElem?_eq_getElem hlt, Option.getD_some]
    exact List.getElem_mem hlt
  simp only [Dispatcher.begin, decide_eq_true hmem, Bool.not_true, Bool.and_false]

/-- **The start of a dispatch.** -/
theorem Active.begin (h : Layout d.currentPlan) : d.begin.Active where
  layout := h
  progress :=
    { nodup := List.nodup_nil
      lt := fun id hid => by cases hid
      follows := fun a b _ hb => by cases hb
      active := by
        intro e s t harc
        rw [d.begin_edgeId h.wired harc.lt]
        exact iff_of_false (by simp) (fun hs => by cases hs.1) }
  started := iff_of_false (by simp [Dispatcher.begin]) (fun ⟨id, hid, _⟩ => by cases hid)
  dispatched id hlt htype := by
    rw [show d.begin.executing = d.currentPlan from rfl, d.begin_actionId hlt]
    exact iff_of_false (by simp) (fun hid => by cases hid)
  completed id hid := by cases hid
  sent := rfl
  reported := by
    intro id hlt htype hd
    rw [show d.begin.executing = d.currentPlan from rfl, d.begin_actionId hlt] at hd
    cases hd
  ended e he := by cases he
  causal e t hpair := by cases hpair
  aborted id msg hpair := by cases hpair

end Dispatcher

end DroneArch.Esterel
