import DroneArch.EsterelPlan

/-! # The edges of the plan graph

What `makeEdge` keeps: an edge leads from one node to one other, both nodes list it, and no two edges join the same
nodes (`Wired`).  `Grows allowed plan plan'` says that `plan'` arises from `plan` by edges between pairs in `allowed`;
each function of the parser has one lemma of this form.

* `nodeOrder_sorted`: the order of the nodes is by time, then by identifier.
* `grows_createGraph`: every edge of the graph leads from a node to a later one. -/

namespace DroneArch.Esterel

open Binary32 (toFloat)

/-! ### Plans and their edges -/

namespace EsterelPlan

/-- The edge `i` leads from the node `s` to the node `t`. -/
def Arc (plan : EsterelPlan) (i s t : ℕ) : Prop :=
  i < plan.edges.length ∧ (plan.edge i).sourceIds = [s] ∧ (plan.edge i).sinkIds = [t]

/-- Some edge leads from `s` to `t`. -/
def HasEdge (plan : EsterelPlan) (s t : ℕ) : Prop := ∃ i, plan.Arc i s t

/-- Nodes and edges refer to each other, and no two edges join the same nodes. -/
structure Wired (plan : EsterelPlan) : Prop where
  edgeId : ∀ i < plan.edges.length, (plan.edge i).edgeId = i
  ends : ∀ i < plan.edges.length, ∃ s t, plan.Arc i s t ∧ s < plan.nodes.length ∧ t < plan.nodes.length
  out : ∀ i s, i ∈ (plan.node s).edgesOut ↔ ∃ t, plan.Arc i s t
  into : ∀ i t, i ∈ (plan.node t).edgesIn ↔ ∃ s, plan.Arc i s t
  unique : ∀ i j s t, plan.Arc i s t → plan.Arc j s t → i = j

/-- The nodes are the same up to their lists of edges. -/
structure SameNodes (plan plan' : EsterelPlan) : Prop where
  length : plan'.nodes.length = plan.nodes.length
  nodeType : ∀ id, (plan'.node id).nodeType = (plan.node id).nodeType
  nodeId : ∀ id, (plan'.node id).nodeId = (plan.node id).nodeId
  name : ∀ id, (plan'.node id).name = (plan.node id).name
  action : ∀ id, (plan'.node id).action = (plan.node id).action

theorem SameNodes.refl (plan : EsterelPlan) : SameNodes plan plan := ⟨rfl, fun _ => rfl, fun _ => rfl, fun _ => rfl, fun _ => rfl⟩

theorem SameNodes.trans {p q r : EsterelPlan} (h : SameNodes p q) (h' : SameNodes q r) : SameNodes p r where
  length := h'.length.trans h.length
  nodeType id := (h'.nodeType id).trans (h.nodeType id)
  nodeId id := (h'.nodeId id).trans (h.nodeId id)
  name id := (h'.name id).trans (h.name id)
  action id := (h'.action id).trans (h.action id)

theorem Arc.lt {plan : EsterelPlan} {i s t : ℕ} (h : plan.Arc i s t) : i < plan.edges.length := h.1

theorem Arc.ends_eq {plan : EsterelPlan} {i s t s' t' : ℕ} (h : plan.Arc i s t) (h' : plan.Arc i s' t') :
    s = s' ∧ t = t' :=
  ⟨List.singleton_inj.mp (h.2.1.symm.trans h'.2.1), List.singleton_inj.mp (h.2.2.symm.trans h'.2.2)⟩

theorem HasEdge.lt {plan : EsterelPlan} (h : plan.Wired) {s t : ℕ} (hst : plan.HasEdge s t) :
    s < plan.nodes.length ∧ t < plan.nodes.length := by
  obtain ⟨i, hi⟩ := hst
  obtain ⟨s', t', hi', hs, ht⟩ := h.ends i hi.lt
  obtain ⟨rfl, rfl⟩ := hi.ends_eq hi'
  exact ⟨hs, ht⟩

/-- `plan'` has the edges of `plan` and others between allowed pairs. -/
structure Grows (allowed : ℕ → ℕ → Prop) (plan plan' : EsterelPlan) : Prop where
  wired : plan'.Wired
  same : SameNodes plan plan'
  mono : ∀ s t, plan.HasEdge s t → plan'.HasEdge s t
  sound : ∀ s t, plan'.HasEdge s t → plan.HasEdge s t ∨ allowed s t

theorem Grows.refl {plan : EsterelPlan} (h : plan.Wired) (allowed : ℕ → ℕ → Prop) : Grows allowed plan plan :=
  ⟨h, .refl plan, fun _ _ => id, fun _ _ => Or.inl⟩

theorem Grows.trans {allowed : ℕ → ℕ → Prop} {p q r : EsterelPlan} (h : Grows allowed p q) (h' : Grows allowed q r) :
    Grows allowed p r where
  wired := h'.wired
  same := h.same.trans h'.same
  mono s t hst := h'.mono s t (h.mono s t hst)
  sound s t hst := (h'.sound s t hst).elim (h.sound s t) Or.inr

theorem Grows.weaken {allowed allowed' : ℕ → ℕ → Prop} {p q : EsterelPlan} (h : Grows allowed p q)
    (himp : ∀ s t, allowed s t → allowed' s t) : Grows allowed' p q :=
  { h with sound := fun s t hst => (h.sound s t hst).imp_right (himp s t) }

theorem node_modify (nodes : List EsterelPlanNode) (edges : List EsterelPlanEdge) (i id : ℕ) (f : EsterelPlanNode → EsterelPlanNode)
    (hi : i < nodes.length) :
    (EsterelPlan.mk (nodes.modify i f) edges).node id = if i = id then f ((EsterelPlan.mk nodes edges).node id) else
      (EsterelPlan.mk nodes edges).node id := by
  unfold node
  simp only [List.getD_eq_getElem?_getD, List.getElem?_modify]
  split
  · rename_i h
    subst h
    simp [List.getElem?_eq_getElem hi]
  · simp

theorem edge_modify (nodes : List EsterelPlanNode) (edges : List EsterelPlanEdge) (i id : ℕ) (f : EsterelPlanEdge → EsterelPlanEdge)
    (hi : i < edges.length) :
    (EsterelPlan.mk nodes (edges.modify i f)).edge id = if i = id then f ((EsterelPlan.mk nodes edges).edge id) else
      (EsterelPlan.mk nodes edges).edge id := by
  unfold edge
  simp only [List.getD_eq_getElem?_getD, List.getElem?_modify]
  split
  · rename_i h
    subst h
    simp [List.getElem?_eq_getElem hi]
  · simp

end EsterelPlan

open EsterelPlan

theorem existingEdge_eq_some {plan : EsterelPlan} (h : plan.Wired) {source sink i : ℕ}
    (hi : existingEdge plan source sink = some i) : plan.Arc i source sink := by
  unfold existingEdge at hi
  have hsink := List.find?_some hi
  obtain ⟨t, ht⟩ := (h.out i source).mp (List.mem_of_find?_eq_some hi)
  rw [decide_eq_true_iff, ht.2.2, List.mem_singleton] at hsink
  rw [hsink]
  exact ht

theorem existingEdge_eq_none {plan : EsterelPlan} (h : plan.Wired) {source sink : ℕ}
    (hnone : existingEdge plan source sink = none) : ¬ plan.HasEdge source sink := by
  rintro ⟨i, hi⟩
  have := List.find?_eq_none.mp hnone i ((h.out i source).mpr ⟨sink, hi⟩)
  rw [decide_eq_true_iff, hi.2.2, List.mem_singleton] at this
  exact this rfl

/-! ### One edge -/

theorem arc_narrow {plan : EsterelPlan} {i : ℕ} (hi : i < plan.edges.length) (lower upper : ℚ) (j s t : ℕ) :
    Arc { plan with edges := plan.edges.modify i (.narrow lower upper) } j s t ↔ plan.Arc j s t := by
  unfold Arc
  rw [List.length_modify, edge_modify _ _ _ _ _ hi]
  split <;> rfl

theorem wired_narrow {plan : EsterelPlan} (h : plan.Wired) {i : ℕ} (hi : i < plan.edges.length) (lower upper : ℚ) :
    Wired { plan with edges := plan.edges.modify i (.narrow lower upper) } where
  edgeId j hj := by
    rw [List.length_modify] at hj
    rw [edge_modify _ _ _ _ _ hi]
    split <;> exact h.edgeId j hj
  ends j hj := by
    rw [List.length_modify] at hj
    simpa only [arc_narrow hi] using h.ends j hj
  out j s := by
    simp only [arc_narrow hi]
    exact h.out j s
  into j t := by
    simp only [arc_narrow hi]
    exact h.into j t
  unique j k s t := by simpa only [arc_narrow hi] using h.unique j k s t

section
variable {plan : EsterelPlan} {source sink : ℕ} (lower upper : ℚ) (type : EdgeType)

theorem node_addEdge (hsource : source < plan.nodes.length) (hsink : sink < plan.nodes.length) (id : ℕ) :
    (plan.addEdge source sink lower upper type).node id =
      { plan.node id with
        edgesOut := if source = id then (plan.node id).edgesOut ++ [plan.edges.length] else (plan.node id).edgesOut
        edgesIn := if sink = id then (plan.node id).edgesIn ++ [plan.edges.length] else (plan.node id).edgesIn } := by
  unfold addEdge
  rw [node_modify _ _ _ _ _ (by rwa [List.length_modify]), node_modify _ _ _ _ _ hsource]
  by_cases h₁ : sink = id <;> by_cases h₂ : source = id <;> simp [h₁, h₂, node]

theorem sameNodes_addEdge (hsource : source < plan.nodes.length) (hsink : sink < plan.nodes.length) :
    SameNodes plan (plan.addEdge source sink lower upper type) where
  length := by simp [addEdge]
  nodeType id := by rw [node_addEdge lower upper type hsource hsink]
  nodeId id := by rw [node_addEdge lower upper type hsource hsink]
  name id := by rw [node_addEdge lower upper type hsource hsink]
  action id := by rw [node_addEdge lower upper type hsource hsink]

theorem edge_addEdge_of_lt {j : ℕ} (hj : j < plan.edges.length) :
    (plan.addEdge source sink lower upper type).edge j = plan.edge j := by
  simp [addEdge, edge, List.getD_eq_getElem?_getD, List.getElem?_append_left hj]

theorem edge_addEdge_new : (plan.addEdge source sink lower upper type).edge plan.edges.length =
    ⟨type, plan.edges.length, "edge_" ++ toString plan.edges.length, 0, [source], [sink], lower, upper⟩ := by
  simp [addEdge, edge]

theorem length_edges_addEdge : (plan.addEdge source sink lower upper type).edges.length = plan.edges.length + 1 := by
  simp [addEdge]

theorem arc_addEdge (j s t : ℕ) : (plan.addEdge source sink lower upper type).Arc j s t ↔
    plan.Arc j s t ∨ (j = plan.edges.length ∧ s = source ∧ t = sink) := by
  unfold Arc
  rw [length_edges_addEdge]
  rcases lt_trichotomy j plan.edges.length with hj | rfl | hj
  · rw [edge_addEdge_of_lt lower upper type hj]
    simp [hj, hj.ne, Nat.lt_succ_of_lt hj]
  · rw [edge_addEdge_new]
    simp [eq_comm]
  · refine iff_of_false (fun h => by omega) ?_
    rintro (h | ⟨rfl, -, -⟩) <;> omega

theorem wired_addEdge (h : plan.Wired) (hnone : ¬ plan.HasEdge source sink) (hsource : source < plan.nodes.length)
    (hsink : sink < plan.nodes.length) : (plan.addEdge source sink lower upper type).Wired where
  edgeId j hj := by
    rw [length_edges_addEdge] at hj
    rcases Nat.lt_succ_iff_lt_or_eq.mp hj with hold | rfl
    · rw [edge_addEdge_of_lt lower upper type hold]
      exact h.edgeId j hold
    · rw [edge_addEdge_new]
  ends j hj := by
    rw [length_edges_addEdge] at hj
    rw [(sameNodes_addEdge lower upper type hsource hsink).length]
    rcases Nat.lt_succ_iff_lt_or_eq.mp hj with hold | rfl
    · obtain ⟨s, t, hst, hlt⟩ := h.ends j hold
      exact ⟨s, t, (arc_addEdge lower upper type _ _ _).mpr (Or.inl hst), hlt⟩
    · exact ⟨source, sink, (arc_addEdge lower upper type _ _ _).mpr (Or.inr ⟨rfl, rfl, rfl⟩), hsource, hsink⟩
  out j s := by
    rw [node_addEdge lower upper type hsource hsink]
    simp only [arc_addEdge, exists_or, ← h.out]
    by_cases hs : source = s
    · simp [hs]
    · simp [hs, Ne.symm hs]
  into j t := by
    rw [node_addEdge lower upper type hsource hsink]
    simp only [arc_addEdge, exists_or, ← h.into]
    by_cases ht : sink = t
    · simp [ht]
    · simp [ht, Ne.symm ht]
  unique j k s t hj hk := by
    rw [arc_addEdge] at hj hk
    rcases hj with hj | ⟨hj, hs, ht⟩ <;> rcases hk with hk | ⟨hk, hs', ht'⟩
    · exact h.unique j k s t hj hk
    · exact absurd ⟨j, hs' ▸ ht' ▸ hj⟩ hnone
    · exact absurd ⟨k, hs ▸ ht ▸ hk⟩ hnone
    · exact hj.trans hk.symm

end

/-- **One edge.**  `makeEdge` adds the edge from `source` to `sink`, unless it is there. -/
theorem grows_makeEdge {plan : EsterelPlan} (h : plan.Wired) {source sink : ℕ} (hsource : source < plan.nodes.length)
    (hsink : sink < plan.nodes.length) (lower upper : ℚ) (type : EdgeType) :
    Grows (fun s t => s = source ∧ t = sink) plan (makeEdge source sink lower upper type plan) ∧
      (makeEdge source sink lower upper type plan).HasEdge source sink := by
  unfold makeEdge
  cases hex : existingEdge plan source sink with
  | some i =>
      have hi := existingEdge_eq_some h hex
      have harc := arc_narrow hi.lt (separated lower) (separated upper)
      refine ⟨⟨wired_narrow h hi.lt _ _, ⟨rfl, fun _ => rfl, fun _ => rfl, fun _ => rfl, fun _ => rfl⟩, ?_, ?_⟩, ?_⟩
      · rintro s t ⟨j, hj⟩
        exact ⟨j, (harc j s t).mpr hj⟩
      · rintro s t ⟨j, hj⟩
        exact Or.inl ⟨j, (harc j s t).mp hj⟩
      · exact ⟨i, (harc i source sink).mpr hi⟩
  | none =>
      have hnone := existingEdge_eq_none h hex
      have harc := @arc_addEdge plan source sink (separated lower) (separated upper) type
      refine ⟨⟨wired_addEdge _ _ _ h hnone hsource hsink, sameNodes_addEdge _ _ _ hsource hsink, ?_, ?_⟩, ?_⟩
      · rintro s t ⟨j, hj⟩
        exact ⟨j, (harc j s t).mpr (Or.inl hj)⟩
      · rintro s t ⟨j, hj⟩
        rcases (harc j s t).mp hj with hold | ⟨-, hs, ht⟩
        · exact Or.inl ⟨j, hold⟩
        · exact Or.inr ⟨hs, ht⟩
      · exact ⟨_, (harc _ source sink).mpr (Or.inr ⟨rfl, rfl, rfl⟩)⟩

theorem grows_makeEdge_of {P : ℕ → ℕ → Prop} {plan : EsterelPlan} (h : plan.Wired) {source sink : ℕ}
    (hsource : source < plan.nodes.length) (hsink : sink < plan.nodes.length) (hP : P source sink) (lower upper : ℚ)
    (type : EdgeType) : Grows P plan (makeEdge source sink lower upper type plan) := by
  refine (grows_makeEdge h hsource hsink lower upper type).1.weaken ?_
  rintro s t ⟨rfl, rfl⟩
  exact hP

/-! ### The edges of one node -/

section
variable {D : ℕ → DomainOperator}

theorem satisfiesPrecondition_congr {plan plan' : EsterelPlan} (h : SameNodes plan plan') (condition : DomainFormula)
    (id : ℕ) (negative : Bool) :
    satisfiesPrecondition D condition (plan'.node id) negative =
      satisfiesPrecondition D condition (plan.node id) negative := by
  unfold satisfiesPrecondition
  rw [h.action, h.nodeType]

theorem interferes_congr {plan plan' : EsterelPlan} (h : SameNodes plan plan') (pre id : ℕ) :
    interferes D (plan'.node pre) (plan'.node id) = interferes D (plan.node pre) (plan.node id) := by
  unfold interferes
  simp only [h.action, h.nodeType, satisfiesPrecondition_congr h]

/-- The outcome of a search for edges to a node: allowed edges, one to the node when it reports so. -/
structure Linked (P : ℕ → ℕ → Prop) (current : ℕ) (plan : EsterelPlan) (r : EsterelPlan × Bool) : Prop where
  grows : Grows P plan r.1
  found : r.2 = true → ∃ s, r.1.HasEdge s current

theorem Linked.trans {P : ℕ → ℕ → Prop} {current : ℕ} {plan : EsterelPlan} {r r' : EsterelPlan × Bool}
    (h : Linked P current plan r) (h' : Linked P current r.1 r') : Linked P current plan (r'.1, r.2 || r'.2) where
  grows := h.grows.trans h'.grows
  found hor := by
    rcases Bool.or_eq_true_iff.mp hor with hr | hr
    · obtain ⟨s, hs⟩ := h.found hr
      exact ⟨s, h'.grows.mono s current hs⟩
    · exact h'.found hr

theorem Linked.none {P : ℕ → ℕ → Prop} {current : ℕ} {plan : EsterelPlan} (h : plan.Wired) :
    Linked P current plan (plan, false) := ⟨.refl h P, fun hfalse => by cases hfalse⟩

variable {P : ℕ → ℕ → Prop} {plan : EsterelPlan} {before : List (ℚ × ℕ)} {current : ℕ}

/-- The search for support adds one edge at most, from a node before or from the start. -/
theorem linked_addSupport (h : plan.Wired) (hcurrent : current < plan.nodes.length) (h0 : P 0 current)
    (hbefore : ∀ x ∈ before, x.2 < plan.nodes.length ∧ P x.2 current) (condition : DomainFormula) (negative : Bool)
    (tils : List (ℚ × KnowledgeItem)) :
    Linked P current plan (addSupport D current condition negative before tils plan) := by
  induction before generalizing tils with
  | nil => exact .none h
  | cons x before ih =>
      obtain ⟨time, id⟩ := x
      obtain ⟨hid, hPid⟩ := hbefore (time, id) (by simp)
      unfold addSupport
      split
      · rename_i til _
        exact ⟨grows_makeEdge_of h (by omega) hcurrent h0 _ _ _, fun _ => ⟨0, (grows_makeEdge h (by omega) hcurrent _ _ _).2⟩⟩
      · split
        · exact ⟨grows_makeEdge_of h hid hcurrent hPid _ _ _, fun _ => ⟨id, (grows_makeEdge h hid hcurrent _ _ _).2⟩⟩
        · exact ih (fun y hy => hbefore y (List.mem_cons_of_mem _ hy)) _

/-- Rounds of a loop that each add allowed edges add allowed edges. -/
theorem grows_foldl {ι : Type} {f : EsterelPlan → ι → EsterelPlan} {is : List ι} (h : plan.Wired)
    (hf : ∀ q i, q.Wired → SameNodes plan q → i ∈ is → Grows P q (f q i)) : Grows P plan (is.foldl f plan) :=
  List.foldlRecOn (motive := fun q => Grows P plan q) is f (.refl h P)
    (fun q hq i hi => hq.trans (hf q i hq.wired hq.same hi))

theorem linked_foldl {ι : Type} {f : EsterelPlan × Bool → ι → EsterelPlan × Bool} {is : List ι} {r : EsterelPlan × Bool}
    (hr : Linked P current plan r)
    (hf : ∀ q i, i ∈ is → Linked P current plan q → Linked P current plan (f q i)) :
    Linked P current plan (is.foldl f r) :=
  List.foldlRecOn (motive := fun q => Linked P current plan q) is f hr (fun q hq i hi => hf q i hi hq)

/-- What one round makes and the others keep is there in the end. -/
theorem foldl_made {ι : Type} {f : EsterelPlan × Bool → ι → EsterelPlan × Bool} {is : List ι} {r : EsterelPlan × Bool}
    {Q : EsterelPlan × Bool → Prop} (hr : Linked P current plan r)
    (hf : ∀ q i, i ∈ is → Linked P current plan q → Linked P current plan (f q i))
    (hkeep : ∀ q i, i ∈ is → Linked P current plan q → Q q → Q (f q i)) {i : ι} (hi : i ∈ is)
    (hmade : ∀ q, Linked P current plan q → Q (f q i)) : Q (is.foldl f r) := by
  obtain ⟨l, l', rfl⟩ := List.append_of_mem hi
  have hhead : Linked P current plan (l.foldl f r) := linked_foldl hr (fun q j hj => hf q j (by simp [hj]))
  rw [List.foldl_append, List.foldl_cons]
  refine (List.foldlRecOn (motive := fun q => Linked P current plan q ∧ Q q) l' f
    ⟨hf _ i hi hhead, hmade _ hhead⟩ (fun q hq j hj => ?_)).2
  exact ⟨hf q j (by simp [hj]) hq.1, hkeep q j (by simp [hj]) hq.1 hq.2⟩

theorem grows_addBounds {epsilonTime time : ℚ} {tilList : List (ℚ × KnowledgeItem)} (h : plan.Wired)
    (hcurrent : current < plan.nodes.length) (h0 : P 0 current) (negative : Bool) {overall : Bool}
    (hoverall : overall = true → current + 1 < plan.nodes.length ∧ P 0 (current + 1)) (condition : DomainFormula) :
    Grows P plan (addBounds epsilonTime tilList (time, current) negative overall condition plan) := by
  refine grows_foldl h (fun q til hq hsame _ => ?_)
  have hlen := hsame.length
  split
  · split
    · rename_i hov
      exact grows_makeEdge_of hq (by omega) (hlen ▸ (hoverall hov).1) (hoverall hov).2 _ _ _
    · exact grows_makeEdge_of hq (by omega) (hlen ▸ hcurrent) h0 _ _ _
  · exact .refl hq P

theorem linked_addConditionEdge {epsilonTime time : ℚ} {tilList : List (ℚ × KnowledgeItem)} (h : plan.Wired)
    (hcurrent : current < plan.nodes.length) (h0 : P 0 current)
    (hbefore : ∀ x ∈ before, x.2 < plan.nodes.length ∧ P x.2 current) (negative : Bool) {overall : Bool}
    (hoverall : overall = true → current + 1 < plan.nodes.length ∧ P 0 (current + 1)) (condition : DomainFormula) :
    Linked P current plan
      (addConditionEdge D epsilonTime tilList before (time, current) negative overall condition plan) := by
  unfold addConditionEdge
  have hbounds : Grows P plan (addBounds epsilonTime tilList (time, current) negative overall condition plan) :=
    grows_addBounds h hcurrent h0 negative hoverall condition
  have hlen := hbounds.same.length
  have hsupport := linked_addSupport (D := D) hbounds.wired (hlen ▸ hcurrent) h0
    (fun x hx => ⟨hlen ▸ (hbefore x hx).1, (hbefore x hx).2⟩) condition negative
    (tilList.reverse.dropWhile (fun til => decide (time < til.1)))
  exact ⟨hbounds.trans hsupport.grows, hsupport.found⟩

theorem linked_addConditionEdges {epsilonTime : ℚ} {tilList : List (ℚ × KnowledgeItem)} {time : ℚ} (h : plan.Wired)
    (hcurrent : current < plan.nodes.length) (h0 : P 0 current)
    (hbefore : ∀ x ∈ before, x.2 < plan.nodes.length ∧ P x.2 current) {conditions : List (DomainFormula × Bool × Bool)}
    (hoverall : ∀ c ∈ conditions, c.2.2 = true → current + 1 < plan.nodes.length ∧ P 0 (current + 1)) :
    Linked P current plan
      (addConditionEdges D epsilonTime tilList before (time, current) conditions plan) := by
  unfold addConditionEdges
  refine linked_foldl (.none h) (fun q c hc hlink => hlink.trans ?_)
  have hlen := hlink.grows.same.length
  exact linked_addConditionEdge hlink.grows.wired (hlen ▸ hcurrent) h0
    (fun x hx => ⟨hlen ▸ (hbefore x hx).1, (hbefore x hx).2⟩) c.2.1
    (fun hov => ⟨hlen ▸ (hoverall c hc hov).1, (hoverall c hc hov).2⟩) c.1

/-- One round: an edge from a node before, when the current one interferes with it. -/
theorem linked_addInterferenceEdge {r : EsterelPlan × Bool} (h : Linked P current plan r)
    (hcurrent : current < plan.nodes.length) {x : ℚ × ℕ} (hx : x.2 < plan.nodes.length ∧ P x.2 current) :
    Linked P current plan (addInterferenceEdge D current r x) ∧
      (interferes D (plan.node x.2) (plan.node current) = true →
        (addInterferenceEdge D current r x).1.HasEdge x.2 current) := by
  have hlen := h.grows.same.length
  unfold addInterferenceEdge
  rw [interferes_congr h.grows.same]
  split
  · have hnew := grows_makeEdge h.grows.wired (hlen ▸ hx.1) (hlen ▸ hcurrent) 0 doubleMax .interference
    refine ⟨⟨h.grows.trans (hnew.1.weaken ?_), fun _ => ⟨x.2, hnew.2⟩⟩, fun _ => hnew.2⟩
    rintro s t ⟨rfl, rfl⟩
    exact hx.2
  · rename_i hint
    exact ⟨h, fun hint' => absurd hint' hint⟩

theorem linked_addInterferenceEdges (h : plan.Wired) (hcurrent : current < plan.nodes.length)
    (hbefore : ∀ x ∈ before, x.2 < plan.nodes.length ∧ P x.2 current) :
    Linked P current plan (addInterferenceEdges D before current plan) :=
  linked_foldl (.none h) (fun _ x hx hlink => (linked_addInterferenceEdge hlink hcurrent (hbefore x hx)).1)

/-- Every node before that the current one interferes with gets an edge. -/
theorem hasEdge_addInterferenceEdges (h : plan.Wired) (hcurrent : current < plan.nodes.length)
    (hbefore : ∀ x ∈ before, x.2 < plan.nodes.length) {x : ℚ × ℕ} (hx : x ∈ before)
    (hint : interferes D (plan.node x.2) (plan.node current) = true) :
    (addInterferenceEdges D before current plan).1.HasEdge x.2 current := by
  refine foldl_made (P := fun _ _ => True) (Q := fun q => q.1.HasEdge x.2 current) (.none h)
    (fun _ y hy hlink => (linked_addInterferenceEdge hlink hcurrent ⟨hbefore y hy, trivial⟩).1) ?_ hx
    (fun _ hlink => (linked_addInterferenceEdge hlink hcurrent ⟨hbefore x hx, trivial⟩).2 hint)
  intro q y hy hlink hq
  have hlen := hlink.grows.same.length
  have hsame : Linked (fun _ _ => True) current q.1 q := ⟨.refl hlink.grows.wired _, fun _ => ⟨x.2, hq⟩⟩
  have hstep := linked_addInterferenceEdge (D := D) hsame (hlen ▸ hcurrent) ⟨hlen ▸ hbefore y hy, trivial⟩
  exact hstep.1.grows.mono _ _ hq

/-- Without timed literals the support of a condition is the latest node before that makes it true. -/
theorem addSupport_nil (condition : DomainFormula) (negative : Bool) :
    addSupport D current condition negative before [] plan =
      match before.find? (fun x => satisfiesPrecondition D condition (plan.node x.2) negative) with
      | some x => (makeOrder x.2 current .condition plan, true)
      | none => (plan, false) := by
  induction before with
  | nil => rfl
  | cons x before ih =>
      obtain ⟨time, id⟩ := x
      rw [List.find?_cons]
      unfold addSupport
      simp only [List.takeWhile_nil, List.find?_nil, List.dropWhile_nil]
      split
      · rename_i hsat
        rw [hsat]
      · rename_i hsat
        rw [Bool.not_eq_true] at hsat
        rw [hsat]
        exact ih

/-- Each condition gets an edge from the latest node before that makes it true. -/
theorem hasEdge_addConditionEdges {epsilonTime time : ℚ} (h : plan.Wired) (hcurrent : current < plan.nodes.length)
    (hbefore : ∀ x ∈ before, x.2 < plan.nodes.length) {conditions : List (DomainFormula × Bool × Bool)}
    (hoverall : ∀ c ∈ conditions, c.2.2 = true → current + 1 < plan.nodes.length)
    {c : DomainFormula × Bool × Bool} (hc : c ∈ conditions) {x : ℚ × ℕ}
    (hx : before.find? (fun x => satisfiesPrecondition D c.1 (plan.node x.2) c.2.1) = some x) :
    (addConditionEdges D epsilonTime [] before (time, current) conditions plan).1.HasEdge x.2 current := by
  have hstep : ∀ (q : EsterelPlan × Bool) (d : DomainFormula × Bool × Bool), d ∈ conditions →
      Linked (fun _ _ => True) current plan q → Linked (fun _ _ => True) current q.1
        (addConditionEdge D epsilonTime [] before (time, current) d.2.1 d.2.2 d.1 q.1) := by
    intro q d hd hlink
    have hlen := hlink.grows.same.length
    exact linked_addConditionEdge hlink.grows.wired (hlen ▸ hcurrent) trivial
      (fun y hy => ⟨hlen ▸ hbefore y hy, trivial⟩) _ (fun hov => ⟨hlen ▸ hoverall d hd hov, trivial⟩) _
  refine foldl_made (P := fun _ _ => True) (Q := fun q => q.1.HasEdge x.2 current) (.none h)
    (fun q d hd hlink => hlink.trans (hstep q d hd hlink))
    (fun q d hd hlink hq => (hstep q d hd hlink).grows.mono _ _ hq) hc (fun q hlink => ?_)
  have hlen := hlink.grows.same.length
  simp only [addConditionEdge, addBounds, List.reverse_nil, List.takeWhile_nil, List.dropWhile_nil, List.foldl_nil, addSupport_nil,
    satisfiesPrecondition_congr hlink.grows.same, hx]
  exact (grows_makeEdge hlink.grows.wired (hlen ▸ hbefore x (List.mem_of_find?_eq_some hx)) (hlen ▸ hcurrent) _ _ _).2

/-! ### One round -/

/-- What a round adds to the plan: allowed edges; for a node of an action an edge to it, for an end the one from its
start, an edge from each node before it that it interferes with, and without timed literals one for each condition that
a node before it makes true. -/
structure Round (D : ℕ → DomainOperator) (tilList : List (ℚ × KnowledgeItem)) (P : ℕ → ℕ → Prop)
    (before : List (ℚ × ℕ)) (current : ℕ) (plan plan' : EsterelPlan) : Prop where
  grows : Grows P plan plan'
  reached : (plan.node current).nodeType ≠ .planStart → ∃ s, plan'.HasEdge s current
  own : (plan.node current).nodeType = .actionEnd → plan'.HasEdge (current - 1) current
  interference : (plan.node current).nodeType ≠ .planStart → ∀ x ∈ before,
    interferes D (plan.node x.2) (plan.node current) = true → plan'.HasEdge x.2 current
  support : tilList = [] → ∀ c ∈ conditionsOf (D (plan.node current).action.actionId)
    (plan.node current).nodeType, ∀ x, before.find? (fun x =>
      satisfiesPrecondition D c.1 (plan.node x.2) c.2.1) = some x → plan'.HasEdge x.2 current

theorem conditionsOf_overall {op : DomainOperator} {type : NodeType} {c : DomainFormula × Bool × Bool}
    (hc : c ∈ conditionsOf op type) (hov : c.2.2 = true) : type = .actionStart := by
  cases type with
  | actionStart => rfl
  | planStart => cases hc
  | actionEnd =>
      simp only [conditionsOf, List.mem_append, List.mem_map] at hc
      obtain ⟨f, -, rfl⟩ | ⟨f, -, rfl⟩ := hc <;> cases hov

/-- **One round** of `createGraph`. -/
theorem round_addEdges {epsilonTime time : ℚ} {tilList : List (ℚ × KnowledgeItem)} (h : plan.Wired)
    (hcurrent : current < plan.nodes.length) (hbefore : ∀ x ∈ before, x.2 < plan.nodes.length ∧ P x.2 current)
    (h0 : (plan.node current).nodeType ≠ .planStart → P 0 current)
    (hstart : (plan.node current).nodeType = .actionStart → current + 1 < plan.nodes.length ∧ P 0 (current + 1))
    (hend : (plan.node current).nodeType = .actionEnd → P (current - 1) current) :
    Round D tilList P before current plan
      (addEdges D epsilonTime tilList before (time, current) plan) := by
  unfold addEdges
  by_cases hplan : (plan.node current).nodeType = .planStart
  · rw [if_pos hplan]
    refine ⟨.refl h P, fun hne => absurd hplan hne, fun hne => ?_, fun hne => absurd hplan hne, fun _ c hc => ?_⟩
    · rw [hplan] at hne
      cases hne
    · rw [hplan] at hc
      cases hc
  · simp only [if_neg hplan]
    have h0' := h0 hplan
    -- the edge from the start of the action
    obtain ⟨hfirst, hown⟩ : Grows P plan (if (plan.node current).nodeType = .actionEnd then
        makeEdge (current - 1) current (plan.node current).action.duration (plan.node current).action.duration
          .startEndAction plan else plan) ∧ ((plan.node current).nodeType = .actionEnd →
        (if (plan.node current).nodeType = .actionEnd then
          makeEdge (current - 1) current (plan.node current).action.duration (plan.node current).action.duration
            .startEndAction plan else plan).HasEdge (current - 1) current) := by
      split
      · rename_i hend'
        exact ⟨grows_makeEdge_of h (by omega) hcurrent (hend hend') _ _ _,
          fun _ => (grows_makeEdge h (by omega) hcurrent _ _ _).2⟩
      · rename_i hend'
        exact ⟨.refl h P, fun h' => absurd h' hend'⟩
    generalize (if (plan.node current).nodeType = .actionEnd then _ else plan) = first at hfirst hown ⊢
    have hlen := hfirst.same.length
    have hbefore' : ∀ x ∈ before, x.2 < first.nodes.length ∧ P x.2 current :=
      fun x hx => ⟨hlen ▸ (hbefore x hx).1, (hbefore x hx).2⟩
    have hoverall : ∀ c ∈ conditionsOf (D (plan.node current).action.actionId) (plan.node current).nodeType,
        c.2.2 = true → current + 1 < first.nodes.length ∧ P 0 (current + 1) :=
      fun c hc hov => ⟨hlen ▸ (hstart (conditionsOf_overall hc hov)).1, (hstart (conditionsOf_overall hc hov)).2⟩
    have hconditions : Linked P current first (addConditionEdges D epsilonTime tilList before (time, current)
        (conditionsOf (D (plan.node current).action.actionId) (plan.node current).nodeType) first) :=
      linked_addConditionEdges hfirst.wired (hlen ▸ hcurrent) h0' hbefore' hoverall
    have hsupport : tilList = [] → ∀ c ∈ conditionsOf (D (plan.node current).action.actionId)
        (plan.node current).nodeType, ∀ x, before.find? (fun x =>
          satisfiesPrecondition D c.1 (plan.node x.2) c.2.1) = some x →
        (addConditionEdges D epsilonTime tilList before (time, current) (conditionsOf
          (D (plan.node current).action.actionId) (plan.node current).nodeType) first).1.HasEdge x.2 current := by
      rintro rfl c hc x hx
      refine hasEdge_addConditionEdges hfirst.wired (hlen ▸ hcurrent) (fun y hy => (hbefore' y hy).1)
        (fun c hc hov => (hoverall c hc hov).1) hc ?_
      simpa only [satisfiesPrecondition_congr hfirst.same] using hx
    generalize addConditionEdges D epsilonTime tilList before (time, current) _ first = conditions
      at hconditions hsupport ⊢
    have hlen' := hconditions.grows.same.length.trans hlen
    have hinterference := linked_addInterferenceEdges (D := D) hconditions.grows.wired
      (hlen' ▸ hcurrent) (fun x hx => ⟨hlen' ▸ (hbefore x hx).1, (hbefore x hx).2⟩)
    have hall : ∀ x ∈ before, interferes D (plan.node x.2) (plan.node current) = true →
        (addInterferenceEdges D before current conditions.1).1.HasEdge x.2 current := by
      intro x hx hint
      refine hasEdge_addInterferenceEdges hconditions.grows.wired (hlen' ▸ hcurrent)
        (fun y hy => hlen' ▸ (hbefore y hy).1) hx ?_
      rw [interferes_congr hconditions.grows.same, interferes_congr hfirst.same]
      exact hint
    generalize addInterferenceEdges D before current conditions.1 = interference at hinterference hall ⊢
    -- the edge from the start of the plan, when there is no other
    have hgrows := (hfirst.trans hconditions.grows).trans hinterference.grows
    have hlen'' := hgrows.same.length
    have hfinal := grows_makeEdge hgrows.wired (hlen'' ▸ Nat.zero_lt_of_lt hcurrent) (hlen'' ▸ hcurrent) 0 doubleMax
      .condition
    have hlast : ∀ s t, interference.1.HasEdge s t → (if (conditions.2 || interference.2) = true then interference.1
        else makeOrder 0 current .condition interference.1).HasEdge s t := by
      intro s t hst
      split
      · exact hst
      · exact hfinal.1.mono s t hst
    refine ⟨?_, fun _ => ?_, fun hend' => ?_, fun _ x hx hint => ?_, fun htil c hc x hx => ?_⟩
    · split
      · exact hgrows
      · refine hgrows.trans (hfinal.1.weaken ?_)
        rintro s t ⟨rfl, rfl⟩
        exact h0'
    · by_cases hfound : (conditions.2 || interference.2) = true
      · obtain ⟨s, hs⟩ := (hconditions.trans hinterference).found hfound
        exact ⟨s, hlast s current hs⟩
      · rw [if_neg hfound]
        exact ⟨0, hfinal.2⟩
    · exact hlast _ _ (hinterference.grows.mono _ _ (hconditions.grows.mono _ _ (hown hend')))
    · exact hlast _ _ (hall x hx hint)
    · exact hlast _ _ (hinterference.grows.mono _ _ (hsupport htil c hc x hx))

/-! ### All rounds -/

/-- What is known of the nodes when the rounds begin: the pairs of a node and a later one, and those of a node and the
start of the plan, or of an end and the start of its action, are allowed. -/
structure Ordered (P : ℕ → ℕ → Prop) (plan : EsterelPlan) (order : List (ℚ × ℕ)) : Prop where
  lt : ∀ x ∈ order, x.2 < plan.nodes.length
  later : order.Pairwise (fun x y => P x.2 y.2)
  fromStart : ∀ x ∈ order, (plan.node x.2).nodeType ≠ .planStart → P 0 x.2
  start : ∀ x ∈ order, (plan.node x.2).nodeType = .actionStart → x.2 + 1 < plan.nodes.length ∧ P 0 (x.2 + 1)
  end_ : ∀ x ∈ order, (plan.node x.2).nodeType = .actionEnd → P (x.2 - 1) x.2

theorem Ordered.congr {plan' : EsterelPlan} {order : List (ℚ × ℕ)} (h : Ordered P plan order)
    (hsame : SameNodes plan plan') : Ordered P plan' order where
  lt := by simpa only [hsame.length] using h.lt
  later := h.later
  fromStart := by simpa only [hsame.nodeType] using h.fromStart
  start := by simpa only [hsame.nodeType, hsame.length] using h.start
  end_ := by simpa only [hsame.nodeType] using h.end_

/-- **The rounds.**  Each node gets what one round adds, and keeps it. -/
theorem rounds_spec {epsilonTime : ℚ} {tilList : List (ℚ × KnowledgeItem)} (rest : List (ℚ × ℕ)) (h : plan.Wired)
    (hord : Ordered P plan (before.reverse ++ rest)) :
    Grows P plan (rounds D epsilonTime tilList before rest plan) ∧ ∀ l x r, rest = l ++ x :: r →
      ∃ q q', SameNodes plan q ∧ Round D tilList P (l.reverse ++ before) x.2 q q' ∧
        Grows P q' (rounds D epsilonTime tilList before rest plan) := by
  induction rest generalizing plan before with
  | nil => exact ⟨.refl h P, fun l x r heq => by simp at heq⟩
  | cons x rest ih =>
      have hmem : x ∈ before.reverse ++ x :: rest := by simp
      have hround : Round D tilList P before x.2 plan (addEdges D epsilonTime tilList before x plan) :=
        round_addEdges h (hord.lt x hmem)
          (fun y hy => ⟨hord.lt y (by simp [hy]),
            (List.pairwise_append.mp hord.later).2.2 y (List.mem_reverse.mpr hy) x (by simp)⟩)
          (hord.fromStart x hmem) (hord.start x hmem) (hord.end_ x hmem)
      obtain ⟨hgrows, hrest⟩ := @ih _ (x :: before) hround.grows.wired
        (by simpa using hord.congr hround.grows.same)
      refine ⟨hround.grows.trans hgrows, ?_⟩
      intro l y r heq
      cases l with
      | nil =>
          obtain ⟨rfl, rfl⟩ := List.cons.inj heq
          exact ⟨plan, _, .refl plan, hround, hgrows⟩
      | cons z l =>
          obtain ⟨rfl, rfl⟩ := List.cons.inj heq
          obtain ⟨q, q', hsame, hq, hq'⟩ := hrest l y r rfl
          refine ⟨q, q', hround.grows.same.trans hsame, ?_, hq'⟩
          rwa [List.reverse_cons, List.append_assoc, List.singleton_append]

/-- **The graph.**  Each node got what one round adds, with the nodes before it in the order. -/
theorem createGraph_spec {epsilonTime : ℚ} {tilList : List (ℚ × KnowledgeItem)} (h : plan.Wired)
    (hord : Ordered P plan (nodeOrder plan.nodes)) :
    Grows P plan (createGraph D epsilonTime tilList plan) ∧ ∀ l x r, nodeOrder plan.nodes = l ++ x :: r →
      ∃ q q', SameNodes plan q ∧ Round D tilList P l.reverse x.2 q q' ∧
        Grows P q' (createGraph D epsilonTime tilList plan) := by
  have hrounds := @rounds_spec D P plan [] epsilonTime tilList (nodeOrder plan.nodes) h hord
  simp only [List.append_nil] at hrounds
  exact hrounds

end

/-! ### The order of the nodes -/

/-- Earlier by time, at the same time by identifier. -/
def EsterelPlan.Earlier (plan : EsterelPlan) (a b : ℕ) : Prop :=
  (plan.node a).time < (plan.node b).time ∨ ((plan.node a).time = (plan.node b).time ∧ a < b)

theorem sorted_insert {order : List (ℚ × ℕ)} {x : ℚ × ℕ}
    (h : order.Pairwise (fun a b => a.1 < b.1 ∨ (a.1 = b.1 ∧ a.2 < b.2))) (hx : ∀ y ∈ order, y.2 < x.2) :
    (order.orderedInsert (fun a b => a.1 < b.1) x).Pairwise (fun a b => a.1 < b.1 ∨ (a.1 = b.1 ∧ a.2 < b.2)) := by
  induction order with
  | nil => exact List.pairwise_singleton _ _
  | cons y order ih =>
      obtain ⟨hy, horder⟩ := List.pairwise_cons.mp h
      rw [List.orderedInsert_cons]
      split
      · rename_i hlt
        refine List.pairwise_cons.mpr ⟨fun z hz => Or.inl ?_, h⟩
        rcases List.mem_cons.mp hz with rfl | hz
        · exact hlt
        · rcases hy z hz with hyz | ⟨heq, -⟩
          · exact hlt.trans hyz
          · exact heq ▸ hlt
      · rename_i hle
        refine List.pairwise_cons.mpr ⟨fun z hz => ?_, ih horder (fun z hz => hx z (List.mem_cons_of_mem _ hz))⟩
        rw [List.mem_orderedInsert] at hz
        rcases hz with rfl | hz
        · rcases lt_or_eq_of_le (not_lt.mp hle) with hlt | heq
          · exact Or.inl hlt
          · exact Or.inr ⟨heq, hx y (by simp)⟩
        · exact hy z hz

/-- **The order of the nodes** is by time, then by identifier. -/
theorem nodeOrder_sorted {nodes : List EsterelPlanNode} (h : nodes.Pairwise (fun m n => m.nodeId < n.nodeId)) :
    (nodeOrder nodes).Pairwise (fun a b => a.1 < b.1 ∨ (a.1 = b.1 ∧ a.2 < b.2)) ∧
      (nodeOrder nodes).Perm (nodes.map (fun n => (n.time, n.nodeId))) := by
  unfold nodeOrder
  induction nodes using List.reverseRecOn with
  | nil => exact ⟨List.Pairwise.nil, List.Perm.nil⟩
  | append_singleton nodes n ih =>
      obtain ⟨hnodes, -, hn⟩ := List.pairwise_append.mp h
      obtain ⟨hsorted, hperm⟩ := ih hnodes
      rw [List.foldl_append, List.foldl_cons, List.foldl_nil]
      constructor
      · refine sorted_insert hsorted (fun y hy => ?_)
        obtain ⟨m, hm, rfl⟩ := List.mem_map.mp (hperm.mem_iff.mp hy)
        exact hn m hm n (by simp)
      · rw [List.map_append, List.map_singleton]
        exact (List.perm_orderedInsert _ _ _).trans ((hperm.cons _).trans (List.perm_append_singleton _ _).symm)

/-! ### The nodes of a plan -/

theorem getElem?_flatMap_pair {α β : Type*} (f g : α → β) (l : List α) (k : ℕ) :
    (l.flatMap fun a => [f a, g a])[2 * k]? = l[k]?.map f ∧ (l.flatMap fun a => [f a, g a])[2 * k + 1]? = l[k]?.map g := by
  induction l generalizing k with
  | nil => simp
  | cons a l ih =>
      cases k with
      | zero => simp
      | succ k =>
          have heq : 2 * (k + 1) = 2 * k + 1 + 1 := by ring
          simpa [heq] using ih k

section
variable (actions : List ActionDispatch) (edges : List EsterelPlanEdge)

theorem length_planNodes : (planNodes actions).length = 2 * actions.length + 1 := by
  have : ∀ (l : List (ActionDispatch × ℕ)) (f g : ActionDispatch × ℕ → EsterelPlanNode),
      (l.flatMap fun a => [f a, g a]).length = 2 * l.length := by
    intro l f g
    induction l with
    | nil => rfl
    | cons a l ih =>
        rw [List.flatMap_cons, List.length_append, ih]
        simp only [List.length_cons, List.length_nil]
        omega
  unfold planNodes
  rw [List.length_cons, this, List.length_zipIdx]

@[simp] theorem node_zero : (EsterelPlan.mk (planNodes actions) edges).node 0 = ⟨.planStart, 0, "plan_start", {}, [], []⟩ := rfl

variable {actions}

theorem node_start {k : ℕ} (hk : k < actions.length) : (EsterelPlan.mk (planNodes actions) edges).node (2 * k + 1) =
    ⟨.actionStart, 2 * k + 1, actions[k].name ++ "_start", actions[k], [], []⟩ := by
  have hget := (getElem?_flatMap_pair
    (fun a : ActionDispatch × ℕ => (⟨.actionStart, 2 * a.2 + 1, a.1.name ++ "_start", a.1, [], []⟩ : EsterelPlanNode))
    (fun a => ⟨.actionEnd, 2 * a.2 + 2, a.1.name ++ "_end", a.1, [], []⟩) actions.zipIdx k).1
  unfold EsterelPlan.node planNodes
  simp only
  rw [List.getD_cons_succ, List.getD_eq_getElem?_getD, hget]
  simp [hk]

theorem node_end {k : ℕ} (hk : k < actions.length) : (EsterelPlan.mk (planNodes actions) edges).node (2 * k + 2) =
    ⟨.actionEnd, 2 * k + 2, actions[k].name ++ "_end", actions[k], [], []⟩ := by
  have hget := (getElem?_flatMap_pair
    (fun a : ActionDispatch × ℕ => (⟨.actionStart, 2 * a.2 + 1, a.1.name ++ "_start", a.1, [], []⟩ : EsterelPlanNode))
    (fun a => ⟨.actionEnd, 2 * a.2 + 2, a.1.name ++ "_end", a.1, [], []⟩) actions.zipIdx k).2
  unfold EsterelPlan.node planNodes
  simp only
  rw [List.getD_cons_succ, List.getD_eq_getElem?_getD, hget]
  simp [hk]

/-- A node is the start of the plan, or the start or the end of an action. -/
theorem node_cases {id : ℕ} (h : id < 2 * actions.length + 1) :
    id = 0 ∨ ∃ k < actions.length, id = 2 * k + 1 ∨ id = 2 * k + 2 := by
  rcases Nat.eq_zero_or_pos id with rfl | hpos
  · exact Or.inl rfl
  · exact Or.inr ⟨(id - 1) / 2, by omega, by omega⟩

theorem nodeId_node {id : ℕ} (h : id < 2 * actions.length + 1) :
    ((EsterelPlan.mk (planNodes actions) edges).node id).nodeId = id := by
  rcases node_cases h with rfl | ⟨k, hk, rfl | rfl⟩
  · rfl
  · rw [node_start edges hk]
  · rw [node_end edges hk]

end

end DroneArch.Esterel
