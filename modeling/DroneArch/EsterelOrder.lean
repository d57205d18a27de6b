import DroneArch.Deordering
import DroneArch.EsterelGraph

/-! # The graph keeps what the plan relies on

The events of a plan are its nodes.  `planOrder` is their order in the plan, by time.  A node writes the atoms that its
end of the action adds and deletes, and reads the conditions of that end; the start and the end of an action span its
conditions over all.

* `graph_createGraph`: the edges lead forward in the plan, and join what has to stay in order.
* `conditions_of_edges`: when all conditions hold along the plan, they hold in every execution that follows the edges,
  and all such executions end in the state that the plan ends in. -/

namespace DroneArch.Esterel

open Binary32 (toFloat le_toFloat_add)
open Deordering EsterelPlan
open scoped List

/-! ### The graph of a plan -/

/-- The plan before its edges. -/
def prepared (actions : List ActionDispatch) : EsterelPlan := ⟨planNodes actions, []⟩

/-- The times of a plan are single precision and no time or duration is negative. -/
def Timed (actions : List ActionDispatch) : Prop :=
  ∀ a ∈ actions, toFloat a.dispatchTime = a.dispatchTime ∧ 0 ≤ a.dispatchTime ∧ 0 ≤ a.duration

/-- The nodes in the order of the plan. -/
def planOrder (actions : List ActionDispatch) : List ℕ := (nodeOrder (planNodes actions)).map Prod.snd

/-- What the graph of a plan has. -/
structure Graph (D : ℕ → DomainOperator) (tilList : List (ℚ × KnowledgeItem)) (actions : List ActionDispatch)
    (plan : EsterelPlan) : Prop where
  wired : plan.Wired
  same : SameNodes (prepared actions) plan
  forward : ∀ s t, plan.HasEdge s t → (prepared actions).Earlier s t
  reached : ∀ id, 0 < id → id < 2 * actions.length + 1 → ∃ s, plan.HasEdge s id
  own : ∀ k < actions.length, plan.HasEdge (2 * k + 1) (2 * k + 2)
  interference : ∀ s t, [s, t] <+ planOrder actions → t ≠ 0 →
    interferes D ((prepared actions).node s) ((prepared actions).node t) = true → plan.HasEdge s t
  support : tilList = [] → ∀ l t r, planOrder actions = l ++ t :: r →
    ∀ c ∈ conditionsOf (D ((prepared actions).node t).action.actionId) ((prepared actions).node t).nodeType,
    ∀ s, l.reverse.find? (fun s => satisfiesPrecondition D c.1 ((prepared actions).node s) c.2.1) = some s →
      plan.HasEdge s t

section
variable {actions : List ActionDispatch}

theorem wired_prepared (actions : List ActionDispatch) : (prepared actions).Wired := by
  have harc : ∀ i s t, ¬ (prepared actions).Arc i s t := fun i s t h => absurd h.lt (by simp [prepared])
  have hnode : ∀ id, ((prepared actions).node id).edgesOut = [] ∧ ((prepared actions).node id).edgesIn = [] := by
    intro id
    by_cases h : id < 2 * actions.length + 1
    · unfold prepared
      rcases node_cases h with rfl | ⟨k, hk, rfl | rfl⟩
      · exact ⟨rfl, rfl⟩
      · rw [node_start [] hk]
        exact ⟨rfl, rfl⟩
      · rw [node_end [] hk]
        exact ⟨rfl, rfl⟩
    · unfold prepared node
      rw [List.getD_eq_getElem?_getD, List.getElem?_eq_none (by rw [length_planNodes]; omega)]
      exact ⟨rfl, rfl⟩
  exact
    { edgeId := fun i hi => by simp [prepared] at hi
      ends := fun i hi => by simp [prepared] at hi
      out := fun i s => by simp [hnode, harc]
      into := fun i t => by simp [hnode, harc]
      unique := fun i j s t h => absurd h (harc i s t) }

theorem nodeType_zero : ((prepared actions).node 0).nodeType = .planStart := rfl

theorem nodeType_start {k : ℕ} (hk : k < actions.length) :
    ((prepared actions).node (2 * k + 1)).nodeType = .actionStart := by
  rw [prepared, node_start [] hk]

theorem nodeType_end {k : ℕ} (hk : k < actions.length) : ((prepared actions).node (2 * k + 2)).nodeType = .actionEnd := by
  rw [prepared, node_end [] hk]

theorem nodeType_ne_planStart {id : ℕ} (hpos : 0 < id) (h : id < 2 * actions.length + 1) :
    ((prepared actions).node id).nodeType ≠ .planStart := by
  rcases node_cases h with rfl | ⟨k, hk, rfl | rfl⟩
  · omega
  · simp [nodeType_start hk]
  · simp [nodeType_end hk]

theorem time_zero : ((prepared actions).node 0).time = 0 := rfl

theorem time_start {k : ℕ} (hk : k < actions.length) :
    ((prepared actions).node (2 * k + 1)).time = actions[k].dispatchTime := by
  rw [prepared, node_start [] hk, EsterelPlanNode.time]

theorem time_end {k : ℕ} (hk : k < actions.length) :
    ((prepared actions).node (2 * k + 2)).time = toFloat (actions[k].dispatchTime + actions[k].duration) := by
  rw [prepared, node_end [] hk, EsterelPlanNode.time]

/-- The start of the plan is the first node. -/
theorem earlier_zero (hT : Timed actions) {id : ℕ} (hpos : 0 < id) (h : id < 2 * actions.length + 1) :
    (prepared actions).Earlier 0 id := by
  have htime : 0 ≤ ((prepared actions).node id).time := by
    rcases node_cases h with rfl | ⟨k, hk, rfl | rfl⟩
    · omega
    · rw [time_start hk]
      exact (hT _ (List.getElem_mem hk)).2.1
    · obtain ⟨-, ht, hd⟩ := hT _ (List.getElem_mem hk)
      rw [time_end hk]
      exact Binary32.toFloat_nonneg (add_nonneg ht hd)
  unfold Earlier
  rw [time_zero]
  rcases lt_or_eq_of_le htime with hlt | heq
  · exact Or.inl hlt
  · exact Or.inr ⟨heq, hpos⟩

/-- The start of an action is earlier than its end. -/
theorem earlier_end (hT : Timed actions) {k : ℕ} (hk : k < actions.length) :
    (prepared actions).Earlier (2 * k + 1) (2 * k + 2) := by
  obtain ⟨ht, -, hd⟩ := hT _ (List.getElem_mem hk)
  unfold Earlier
  rw [time_start hk, time_end hk]
  rcases lt_or_eq_of_le (le_toFloat_add ht hd) with hlt | heq
  · exact Or.inl hlt
  · exact Or.inr ⟨heq, by omega⟩

/-! ### The order of the plan -/

theorem planNodes_eq_map (actions : List ActionDispatch) :
    planNodes actions = (List.range (2 * actions.length + 1)).map (prepared actions).node := by
  refine List.ext_getElem (by rw [length_planNodes]; simp) (fun i h₁ h₂ => ?_)
  simp [prepared, node, List.getD_eq_getElem?_getD, List.getElem?_eq_getElem h₁]

theorem pairwise_nodeId (actions : List ActionDispatch) :
    (planNodes actions).Pairwise (fun m n => m.nodeId < n.nodeId) := by
  rw [planNodes_eq_map, List.pairwise_map]
  refine List.Pairwise.imp_of_mem (fun {a b} ha hb hab => ?_) List.pairwise_lt_range
  rw [prepared, nodeId_node [] (List.mem_range.mp ha), nodeId_node [] (List.mem_range.mp hb)]
  exact hab

theorem nodeOrder_perm (actions : List ActionDispatch) : (nodeOrder (planNodes actions)).Perm
    ((List.range (2 * actions.length + 1)).map fun id => (((prepared actions).node id).time, id)) := by
  refine (nodeOrder_sorted (pairwise_nodeId actions)).2.trans ?_
  rw [planNodes_eq_map, List.map_map]
  refine List.Perm.of_eq (List.map_congr_left fun id hid => ?_)
  simp only [Function.comp_apply, prepared, nodeId_node [] (List.mem_range.mp hid)]

theorem mem_nodeOrder {x : ℚ × ℕ} : x ∈ nodeOrder (planNodes actions) ↔
    x.2 < 2 * actions.length + 1 ∧ x.1 = ((prepared actions).node x.2).time := by
  rw [(nodeOrder_perm actions).mem_iff, List.mem_map]
  constructor
  · rintro ⟨id, hid, rfl⟩
    exact ⟨List.mem_range.mp hid, rfl⟩
  · rintro ⟨hlt, htime⟩
    exact ⟨x.2, List.mem_range.mpr hlt, by rw [← htime]⟩

theorem pairwise_nodeOrder (actions : List ActionDispatch) :
    (nodeOrder (planNodes actions)).Pairwise (fun x y => (prepared actions).Earlier x.2 y.2) := by
  refine List.Pairwise.imp_of_mem (fun {x y} hx hy hxy => ?_) (nodeOrder_sorted (pairwise_nodeId actions)).1
  unfold Earlier
  rw [← (mem_nodeOrder.mp hx).2, ← (mem_nodeOrder.mp hy).2]
  exact hxy

theorem planOrder_perm (actions : List ActionDispatch) :
    (planOrder actions).Perm (List.range (2 * actions.length + 1)) := by
  have h := (nodeOrder_perm actions).map Prod.snd
  rwa [List.map_map, show (Prod.snd ∘ fun id => (((prepared actions).node id).time, id)) = id from rfl, List.map_id] at h

theorem nodup_planOrder (actions : List ActionDispatch) : (planOrder actions).Nodup :=
  (planOrder_perm actions).nodup_iff.mpr List.nodup_range

theorem mem_planOrder {id : ℕ} : id ∈ planOrder actions ↔ id < 2 * actions.length + 1 := by
  rw [(planOrder_perm actions).mem_iff, List.mem_range]

theorem pairwise_planOrder (actions : List ActionDispatch) : (planOrder actions).Pairwise (prepared actions).Earlier :=
  List.pairwise_map.mpr (pairwise_nodeOrder actions)

theorem EsterelPlan.Earlier.asymm {plan : EsterelPlan} {a b : ℕ} (h : plan.Earlier a b) : ¬ plan.Earlier b a := by
  rintro (hlt | ⟨heq, hlt⟩) <;> rcases h with hlt' | ⟨heq', hlt'⟩
  · exact lt_asymm hlt hlt'
  · exact hlt.ne' heq'
  · exact hlt'.ne' heq
  · omega

/-- A node precedes another in the plan when it is earlier. -/
theorem pair_planOrder {a b : ℕ} (ha : a < 2 * actions.length + 1) (hb : b < 2 * actions.length + 1)
    (h : (prepared actions).Earlier a b) : [a, b] <+ planOrder actions := by
  obtain ⟨l, r, hsplit⟩ := List.append_of_mem (mem_planOrder.mpr ha)
  have hpair := pairwise_planOrder actions
  have hmem := mem_planOrder.mpr hb
  rw [hsplit] at hmem hpair ⊢
  rcases List.mem_append.mp hmem with hin | hin
  · exact absurd ((List.pairwise_append.mp hpair).2.2 b hin a (by simp)) h.asymm
  · rcases List.mem_cons.mp hin with rfl | hin
    · exact absurd h h.asymm
    · exact pair_sublist_iff.mpr ⟨l, r, rfl, hin⟩

theorem ordered_prepared (hT : Timed actions) :
    Ordered (prepared actions).Earlier (prepared actions) (nodeOrder (planNodes actions)) where
  lt x hx := by
    rw [prepared, length_planNodes]
    exact (mem_nodeOrder.mp hx).1
  later := pairwise_nodeOrder actions
  fromStart x hx hne := by
    refine earlier_zero hT (Nat.pos_of_ne_zero fun h0 => hne ?_) (mem_nodeOrder.mp hx).1
    rw [h0, nodeType_zero]
  start x hx hs := by
    have hlt := (mem_nodeOrder.mp hx).1
    have hlen : x.2 + 1 < 2 * actions.length + 1 := by
      rcases node_cases hlt with h0 | ⟨k, hk, h1 | h2⟩
      · rw [h0, nodeType_zero] at hs
        cases hs
      · omega
      · rw [h2, nodeType_end hk] at hs
        cases hs
    exact ⟨by rw [prepared, length_planNodes]; exact hlen, earlier_zero hT (by omega) hlen⟩
  end_ x hx he := by
    rcases node_cases (mem_nodeOrder.mp hx).1 with h0 | ⟨k, hk, h1 | h2⟩
    · rw [h0, nodeType_zero] at he
      cases he
    · rw [h1, nodeType_start hk] at he
      cases he
    · rw [h2]
      exact earlier_end hT hk

/-- **The graph of a plan.** -/
theorem graph_createGraph (D : ℕ → DomainOperator) (epsilonTime : ℚ) (tilList : List (ℚ × KnowledgeItem))
    (hT : Timed actions) : Graph D tilList actions (createGraph D epsilonTime tilList (prepared actions)) := by
  obtain ⟨hgrows, hround⟩ := createGraph_spec (D := D) (wired_prepared actions) (ordered_prepared hT)
  -- the round of one node, seen from the final graph
  have hat : ∀ id < 2 * actions.length + 1, ∃ l q q', SameNodes (prepared actions) q ∧
      Round D tilList (prepared actions).Earlier l id q q' ∧
      Grows (prepared actions).Earlier q' (createGraph D epsilonTime tilList (prepared actions)) := by
    intro id hid
    obtain ⟨l, r, hsplit⟩ := List.append_of_mem (a := (((prepared actions).node id).time, id))
      (mem_nodeOrder.mpr ⟨hid, rfl⟩)
    exact ⟨_, hround l _ r hsplit⟩
  exact
    { wired := hgrows.wired
      same := hgrows.same
      forward := fun s t hst => (hgrows.sound s t hst).resolve_left
        (fun ⟨i, hi⟩ => absurd hi.lt (by simp [prepared]))
      reached := by
        intro id hpos hid
        obtain ⟨l, q, q', hsame, hq, hq'⟩ := hat id hid
        obtain ⟨s, hs⟩ := hq.reached (by rw [hsame.nodeType]; exact nodeType_ne_planStart hpos hid)
        exact ⟨s, hq'.mono s id hs⟩
      own := by
        intro k hk
        obtain ⟨l, q, q', hsame, hq, hq'⟩ := hat (2 * k + 2) (by omega)
        exact hq'.mono _ _ (hq.own (by rw [hsame.nodeType, nodeType_end hk]))
      interference := by
        intro s t hst ht hint
        obtain ⟨m, hm, hmap⟩ := List.sublist_map_iff.mp hst
        obtain ⟨x, y, rfl⟩ : ∃ x y, m = [x, y] := List.length_eq_two.mp (by simpa using (congrArg List.length hmap).symm)
        obtain ⟨rfl, rfl⟩ : s = x.2 ∧ t = y.2 := by simpa using hmap
        obtain ⟨l, r, hsplit, hx⟩ := exists_split_of_pair hm
        obtain ⟨q, q', hsame, hq, hq'⟩ := hround l y r hsplit
        have hy : y.2 < 2 * actions.length + 1 := mem_planOrder.mp (pair_right_mem hst)
        refine hq'.mono _ _ (hq.interference ?_ x (List.mem_reverse.mpr hx) ?_)
        · rw [hsame.nodeType]
          exact nodeType_ne_planStart (Nat.pos_of_ne_zero ht) hy
        · rw [interferes_congr hsame]
          exact hint
      support := by
        intro htil l t r hsplit c hc s hs
        obtain ⟨l', r', hsplit', rfl, hr'⟩ := List.map_eq_append_iff.mp hsplit
        obtain ⟨x, r'', rfl, rfl, rfl⟩ := List.map_eq_cons_iff.mp hr'
        obtain ⟨q, q', hsame, hq, hq'⟩ := hround l' x r'' hsplit'
        rw [← List.map_reverse, List.find?_map] at hs
        obtain ⟨y, hy, rfl⟩ := Option.map_eq_some_iff.mp hs
        refine hq'.mono _ _ (hq.support htil c ?_ y ?_)
        · rwa [hsame.nodeType, hsame.action]
        · simp only [satisfiesPrecondition_congr hsame]
          exact hy }

/-! ### What the nodes do -/

variable (D : ℕ → DomainOperator)

/-- The operator of a node. -/
def operatorOf (actions : List ActionDispatch) (id : ℕ) : DomainOperator := D ((prepared actions).node id).action.actionId

/-- The atoms that a node adds. -/
def added (actions : List ActionDispatch) (id : ℕ) : List (String × List String) :=
  ((operatorOf D actions id).adds ((prepared actions).node id).nodeType).map DomainFormula.atom

/-- The atoms that a node deletes. -/
def deleted (actions : List ActionDispatch) (id : ℕ) : List (String × List String) :=
  ((operatorOf D actions id).dels ((prepared actions).node id).nodeType).map DomainFormula.atom

/-- What a node writes: its additions, and what it deletes and does not add. -/
def write (actions : List ActionDispatch) (id : ℕ) (p : String × List String) : Option Bool :=
  if p ∈ added D actions id then some true else if p ∈ deleted D actions id then some false else none

/-- The conditions of one end of an action: the atom, and whether it has to hold or not to hold. -/
def Reads (actions : List ActionDispatch) (id : ℕ) (p : String × List String) (v : Bool) : Prop :=
  ∃ c ∈ conditionsOf (operatorOf D actions id) ((prepared actions).node id).nodeType,
    c.1.atom = p ∧ c.2 = (!v, false)

/-- The conditions over the whole action. -/
def Spans (actions : List ActionDispatch) (s e : ℕ) (p : String × List String) (v : Bool) : Prop :=
  e = s + 1 ∧ ∃ c ∈ conditionsOf (operatorOf D actions s) ((prepared actions).node s).nodeType,
    c.1.atom = p ∧ c.2 = (!v, true)

/-- No node deletes an atom that it adds. -/
def EffectsDisjoint (actions : List ActionDispatch) : Prop :=
  ∀ id < 2 * actions.length + 1, ∀ p ∈ added D actions id, p ∉ deleted D actions id

variable {D}

theorem any_matches (c : DomainFormula) (l : List DomainFormula) :
    l.any (domainFormulaMatches c) = true ↔ c.atom ∈ l.map DomainFormula.atom := by
  rw [List.any_eq_true, List.mem_map]
  simp only [domainFormulaMatches_iff]

theorem satisfies_iff_added (c : DomainFormula) (id : ℕ) :
    satisfiesPrecondition D c ((prepared actions).node id) false = true ↔ c.atom ∈ added D actions id :=
  any_matches c _

theorem satisfies_iff_deleted (c : DomainFormula) (id : ℕ) :
    satisfiesPrecondition D c ((prepared actions).node id) true = true ↔ c.atom ∈ deleted D actions id :=
  any_matches c _

theorem write_eq_true {id : ℕ} {p : String × List String} :
    write D actions id p = some true ↔ p ∈ added D actions id := by
  unfold write
  split
  · rename_i h
    exact iff_of_true rfl h
  · rename_i h
    refine iff_of_false (fun heq => ?_) h
    split at heq <;> cases heq

theorem write_eq_false {id : ℕ} {p : String × List String} :
    write D actions id p = some false ↔ p ∈ deleted D actions id ∧ p ∉ added D actions id := by
  unfold write
  split
  · rename_i h
    exact iff_of_false (by simp) (fun hnot => hnot.2 h)
  · rename_i h
    split
    · rename_i h'
      exact iff_of_true rfl ⟨h', h⟩
    · rename_i h'
      exact iff_of_false (by simp) (fun hin => h' hin.1)

/-- A node that writes what a condition asks for satisfies it. -/
theorem satisfies_of_write {id : ℕ} {c : DomainFormula} {v : Bool} (h : write D actions id c.atom = some v) :
    satisfiesPrecondition D c ((prepared actions).node id) (!v) = true := by
  cases v with
  | true => exact (satisfies_iff_added c id).mpr (write_eq_true.mp h)
  | false => exact (satisfies_iff_deleted c id).mpr (write_eq_false.mp h).1

theorem write_of_satisfies (hdisjoint : EffectsDisjoint D actions) {id : ℕ} (hid : id < 2 * actions.length + 1)
    {c : DomainFormula} {v : Bool} (h : satisfiesPrecondition D c ((prepared actions).node id) (!v) = true) :
    write D actions id c.atom = some v := by
  cases v with
  | true => exact write_eq_true.mpr ((satisfies_iff_added c id).mp h)
  | false =>
      have hdel := (satisfies_iff_deleted c id).mp h
      exact write_eq_false.mpr ⟨hdel, fun hadd => hdisjoint id hid _ hadd hdel⟩

/-- A node that writes is a node of an action. -/
theorem ne_zero_of_write {id : ℕ} {p : String × List String} {v : Bool} (h : write D actions id p = some v) : id ≠ 0 := by
  rintro rfl
  cases v with
  | true => cases write_eq_true.mp h
  | false => cases (write_eq_false.mp h).1

/-! ### What the edges keep -/

/-- A node interferes with one whose condition it makes false. -/
theorem interferes_of_reads {b d : ℕ} {p : String × List String} {v : Bool} (hb : Reads D actions b p v)
    (hd : write D actions d p = some (!v)) :
    interferes D ((prepared actions).node b) ((prepared actions).node d) = true := by
  obtain ⟨⟨f, n, o⟩, hc, rfl, hno⟩ := hb
  obtain ⟨rfl, rfl⟩ := Prod.mk.inj hno
  have hsat := satisfies_of_write hd
  rw [Bool.not_not] at hsat
  unfold operatorOf conditionsOf at hc
  unfold interferes
  cases htype : ((prepared actions).node b).nodeType with
  | planStart =>
      rw [htype] at hc
      cases hc
  | actionStart =>
      rw [htype] at hc
      simp only [List.mem_append, List.mem_map, Prod.mk.injEq] at hc
      simp only [Bool.or_eq_true, List.any_eq_true]
      rcases hc with ((⟨g, hg, rfl, hv, -⟩ | ⟨g, hg, rfl, hv, ho⟩) | ⟨g, hg, rfl, hv, -⟩) | ⟨g, hg, rfl, hv, ho⟩
      · rw [Bool.not_eq_eq_eq_not.mp hv.symm] at hsat
        exact Or.inl (Or.inl (Or.inl ⟨g, hg, hsat⟩))
      · cases ho
      · rw [Bool.not_eq_eq_eq_not.mp hv.symm] at hsat
        exact Or.inl (Or.inl (Or.inr ⟨g, hg, hsat⟩))
      · cases ho
  | actionEnd =>
      rw [htype] at hc
      simp only [List.mem_append, List.mem_map, Prod.mk.injEq] at hc
      simp only [Bool.or_eq_true, List.any_eq_true]
      rcases hc with ⟨g, hg, rfl, hv, -⟩ | ⟨g, hg, rfl, hv, -⟩
      · rw [Bool.not_eq_eq_eq_not.mp hv.symm] at hsat
        exact Or.inl (Or.inl (Or.inl (Or.inl (Or.inl ⟨g, hg, hsat⟩))))
      · rw [Bool.not_eq_eq_eq_not.mp hv.symm] at hsat
        exact Or.inl (Or.inl (Or.inl (Or.inl (Or.inr ⟨g, hg, hsat⟩))))

/-- A node interferes with the end of an action when it makes a condition over the action false. -/
theorem interferes_of_spans {s e d : ℕ} {p : String × List String} {v : Bool} (he : e < 2 * actions.length + 1)
    (hspan : Spans D actions s e p v) (hd : write D actions d p = some (!v)) :
    interferes D ((prepared actions).node e) ((prepared actions).node d) = true := by
  obtain ⟨rfl, ⟨f, n, o⟩, hc, rfl, hno⟩ := hspan
  obtain ⟨rfl, rfl⟩ := Prod.mk.inj hno
  have hsat := satisfies_of_write hd
  rw [Bool.not_not] at hsat
  have hstart := conditionsOf_overall hc rfl
  obtain ⟨k, hk, rfl⟩ : ∃ k < actions.length, s = 2 * k + 1 := by
    rcases node_cases (show s < 2 * actions.length + 1 by omega) with rfl | ⟨k, hk, rfl | rfl⟩
    · cases hstart
    · exact ⟨k, hk, rfl⟩
    · rw [nodeType_end hk] at hstart
      cases hstart
  have haction : ((prepared actions).node (2 * k + 1)).action = ((prepared actions).node (2 * k + 1 + 1)).action := by
    rw [prepared, node_start [] hk, node_end [] hk]
  unfold operatorOf conditionsOf at hc
  rw [hstart, haction] at hc
  unfold interferes
  rw [nodeType_end hk]
  simp only [List.mem_append, List.mem_map, Prod.mk.injEq] at hc
  simp only [Bool.or_eq_true, List.any_eq_true]
  rcases hc with ((⟨g, hg, rfl, hv, ho⟩ | ⟨g, hg, rfl, hv, -⟩) | ⟨g, hg, rfl, hv, ho⟩) | ⟨g, hg, rfl, hv, -⟩
  · cases ho
  · rw [Bool.not_eq_eq_eq_not.mp hv.symm] at hsat
    exact Or.inl (Or.inl (Or.inl (Or.inr ⟨g, hg, hsat⟩)))
  · cases ho
  · rw [Bool.not_eq_eq_eq_not.mp hv.symm] at hsat
    exact Or.inl (Or.inl (Or.inr ⟨g, hg, hsat⟩))

/-- Two nodes that write different values interfere. -/
theorem interferes_of_write {a b : ℕ} {p : String × List String} {v : Bool} (ha : write D actions a p = some v)
    (hb : write D actions b p = some (!v)) :
    interferes D ((prepared actions).node a) ((prepared actions).node b) = true := by
  -- an effect of the first node that the second one undoes
  obtain ⟨f, hf, hsat⟩ : ∃ f ∈ if v then (operatorOf D actions a).adds ((prepared actions).node a).nodeType else
      (operatorOf D actions a).dels ((prepared actions).node a).nodeType,
      satisfiesPrecondition D f ((prepared actions).node b) v = true := by
    cases v with
    | true =>
        obtain ⟨f, hf, rfl⟩ := List.mem_map.mp (write_eq_true.mp ha)
        exact ⟨f, hf, satisfies_of_write hb⟩
    | false =>
        obtain ⟨f, hf, rfl⟩ := List.mem_map.mp (write_eq_false.mp ha).1
        exact ⟨f, hf, satisfies_of_write hb⟩
  unfold operatorOf at hf
  unfold interferes
  cases htype : ((prepared actions).node a).nodeType with
  | planStart =>
      rw [htype] at hf
      cases v <;> cases hf
  | actionStart =>
      rw [htype] at hf
      simp only [Bool.or_eq_true, List.any_eq_true]
      cases v with
      | true => exact Or.inl (Or.inr ⟨f, hf, hsat⟩)
      | false => exact Or.inr ⟨f, hf, hsat⟩
  | actionEnd =>
      rw [htype] at hf
      simp only [Bool.or_eq_true, List.any_eq_true]
      cases v with
      | true => exact Or.inl (Or.inr ⟨f, hf, hsat⟩)
      | false => exact Or.inr ⟨f, hf, hsat⟩

variable {epsilonTime : ℚ} {plan : EsterelPlan}

/-- The edge from the latest node before that writes what a condition asks for. -/
theorem Graph.support_of_latest (hplan : Graph D [] actions plan) (hdisjoint : EffectsDisjoint D actions)
    {l r : List ℕ} {t a : ℕ} (hsplit : planOrder actions = l ++ t :: r) {c : DomainFormula × Bool × Bool} {v : Bool}
    (hc : c ∈ conditionsOf (operatorOf D actions t) ((prepared actions).node t).nodeType) (hv : c.2.1 = !v)
    (ha : Latest (write D actions) l c.1.atom v a) : plan.HasEdge a t := by
  obtain ⟨hw, l₁, l₂, rfl, hlast⟩ := ha
  refine hplan.support rfl _ t r hsplit c hc a ?_
  have hl₂ : ∀ d ∈ l₂.reverse, ¬ satisfiesPrecondition D c.1 ((prepared actions).node d) c.2.1 = true := by
    intro d hd hsat
    have hmem : d ∈ planOrder actions := by
      rw [hsplit]
      simp [List.mem_reverse.mp hd]
    rw [hv] at hsat
    exact hlast d (List.mem_reverse.mp hd) (write_of_satisfies hdisjoint (mem_planOrder.mp hmem) hsat)
  rw [List.reverse_append, List.reverse_cons, List.append_assoc, List.singleton_append, List.find?_append,
    List.find?_eq_none.mpr hl₂, Option.none_or, List.find?_cons_of_pos]
  rw [hv]
  exact satisfies_of_write hw

/-- **What the edges keep.**  They order all that has to stay in the order of the plan. -/
theorem Graph.justified (hplan : Graph D [] actions plan) (hdisjoint : EffectsDisjoint D actions) :
    Justified (write D actions) (Reads D actions) (Spans D actions) plan.HasEdge (planOrder actions) where
  conflict a b p v hab ha hb := hplan.interference a b hab (ne_zero_of_write hb) (interferes_of_write ha hb)
  support l t r p v a hsplit hreads ha := by
    obtain ⟨c, hc, rfl, hv⟩ := hreads
    exact hplan.support_of_latest hdisjoint hsplit hc (by rw [hv]) ha
  guard b d p v hbd hb hd := hplan.interference b d hbd (ne_zero_of_write hd) (interferes_of_reads hb hd)
  spanSupport l t r e p v a hsplit hspan ha := by
    obtain ⟨-, c, hc, rfl, hv⟩ := hspan
    exact hplan.support_of_latest hdisjoint hsplit hc (by rw [hv]) ha
  spanGuard s e d p v hed hspan hd :=
    hplan.interference e d hed (ne_zero_of_write hd)
      (interferes_of_spans (mem_planOrder.mp (pair_left_mem hed)) hspan hd)

/-- All conditions hold along the plan. -/
def ValidPlan (D : ℕ → DomainOperator) (actions : List ActionDispatch) (s₀ : String × List String → Bool) : Prop :=
  Valid (write D actions) (Reads D actions) (Spans D actions) s₀ (planOrder actions)

/-- **The graph is enough.**  When all conditions hold along the plan, they hold in every execution of nodes that follows
the edges: a node whose predecessors are done finds its conditions, the conditions over an action hold while its start is
done and its end is not, and when all nodes are done the state is the one that the plan leads to. -/
theorem conditions_of_edges (D : ℕ → DomainOperator) (epsilonTime : ℚ) (hT : Timed actions)
    (hdisjoint : EffectsDisjoint D actions) {s₀ : String × List String → Bool} (hvalid : ValidPlan D actions s₀)
    {done : List ℕ} (hnodup : done.Nodup) (hsub : ∀ id ∈ done, id < 2 * actions.length + 1)
    (hfollow : Follows (createGraph D epsilonTime [] (prepared actions)).HasEdge done) :
    (∀ b < 2 * actions.length + 1, b ∉ done →
      (∀ a, (createGraph D epsilonTime [] (prepared actions)).HasEdge a b → a ∈ done) →
      ∀ p v, Reads D actions b p v → exec (write D actions) s₀ done p = v) ∧
    (∀ s ∈ done, ∀ e ∉ done, ∀ p v, Spans D actions s e p v → exec (write D actions) s₀ done p = v) ∧
    (done.length = 2 * actions.length + 1 →
      exec (write D actions) s₀ done = exec (write D actions) s₀ (planOrder actions)) := by
  have hplan := graph_createGraph D epsilonTime [] hT
  have hjust := hplan.justified hdisjoint
  have hmem : ∀ id ∈ done, id ∈ planOrder actions := fun id hid => mem_planOrder.mpr (hsub id hid)
  refine ⟨?_, ?_, ?_⟩
  · intro b hb hnot hpred p v hreads
    refine reads_of_follows (nodup_planOrder actions) hjust hvalid ?_ ?_ ?_ hreads
    · intro e he
      rcases List.mem_append.mp he with h | h
      · exact hmem e h
      · rw [List.mem_singleton.mp h]
        exact mem_planOrder.mpr hb
    · exact List.nodup_append.mpr ⟨hnodup, List.nodup_singleton b, fun x hx y hy hxy =>
        hnot (List.mem_singleton.mp hy ▸ hxy ▸ hx)⟩
    · exact hfollow.concat hpred
  · intro s hs e he p v hspan
    have hse : [s, e] <+ planOrder actions := by
      obtain ⟨rfl, c, hc, -, hv⟩ := hspan
      have hstart := conditionsOf_overall hc (by rw [hv])
      rcases node_cases (hsub s hs) with rfl | ⟨k, hk, rfl | rfl⟩
      · cases hstart
      · exact pair_planOrder (by omega) (by omega) (earlier_end hT hk)
      · rw [nodeType_end hk] at hstart
        cases hstart
    exact spans_of_follows (nodup_planOrder actions) hjust hvalid hmem hnodup hfollow hse hs he hspan
  · intro hlen
    have hperm : done.Perm (planOrder actions) := by
      refine (List.subperm_of_subset hnodup hmem).perm_of_length_le ?_
      rw [(planOrder_perm actions).length_eq, List.length_range, hlen]
    exact exec_of_follows (nodup_planOrder actions) hjust hperm hfollow

end

/-! ### A plan with two actions -/

def goTo : DomainOperator where
  formula := ⟨"go_to", [⟨"region", "region"⟩]⟩
  atStartAddEffects := [⟨"flying", []⟩]
  atEndAddEffects := [⟨"at", [⟨"region", "region"⟩]⟩]

def takeImage : DomainOperator where
  formula := ⟨"take_image", [⟨"region", "region"⟩]⟩
  atStartSimpleCondition := [⟨"flying", []⟩]
  overAllSimpleCondition := [⟨"at", [⟨"region", "region"⟩]⟩]
  atEndAddEffects := [⟨"taken", [⟨"region", "region"⟩]⟩]

/-- A drone flies to a region and takes an image there. -/
def sampleOperators : ℕ → DomainOperator
  | 0 => groundOperator ["r1"] goTo
  | _ => groundOperator ["r1"] takeImage

def sampleActions : List ActionDispatch :=
  [{ actionId := 0, name := "go_to", parameters := [⟨"region", "r1"⟩], duration := 10, dispatchTime := 0 },
    { actionId := 1, name := "take_image", parameters := [⟨"region", "r1"⟩], duration := 5, dispatchTime := 10 }]

theorem toFloat_ten : toFloat 10 = 10 := by exact_mod_cast Binary32.toFloat_intCast (n := 10) (by decide)

theorem timed_sample : Timed sampleActions := by
  intro a ha
  simp only [sampleActions, List.mem_cons, List.not_mem_nil, or_false] at ha
  rcases ha with rfl | rfl
  · exact ⟨Binary32.nearest_zero, le_refl _, by norm_num⟩
  · exact ⟨toFloat_ten, by norm_num, by norm_num⟩

theorem nodeOrder_sample : nodeOrder (planNodes sampleActions) = [(0, 0), (0, 1), (10, 2), (10, 3), (15, 4)] := by
  have h15 : toFloat 15 = 15 := by exact_mod_cast Binary32.toFloat_intCast (n := 15) (by decide)
  have hend : toFloat (10 + 5) = 15 := by norm_num [h15]
  simp only [planNodes, sampleActions, List.zipIdx_cons, List.zipIdx_nil, List.flatMap_cons, List.flatMap_nil, nodeOrder,
    List.cons_append, List.nil_append, List.foldl_cons, List.foldl_nil, EsterelPlanNode.time, zero_add, toFloat_ten, hend]
  rfl

theorem planOrder_sample : planOrder sampleActions = [0, 1, 2, 3, 4] := by
  unfold planOrder
  rw [nodeOrder_sample]
  rfl

def sampleEdge (id source sink : ℕ) (edgeType : EdgeType) (lower upper : ℚ) : EsterelPlanEdge :=
  ⟨edgeType, id, "edge_" ++ toString id, 0, [source], [sink], separated lower, separated upper⟩

/-- Its graph. -/
def samplePlan : EsterelPlan where
  nodes :=
    [⟨.planStart, 0, "plan_start", {}, [0, 2, 6], []⟩,
      ⟨.actionStart, 1, "go_to_start", sampleActions[0], [1, 3], [0]⟩,
      ⟨.actionEnd, 2, "go_to_end", sampleActions[0], [4], [1, 2]⟩,
      ⟨.actionStart, 3, "take_image_start", sampleActions[1], [5], [3, 4]⟩,
      ⟨.actionEnd, 4, "take_image_end", sampleActions[1], [], [5, 6]⟩]
  edges :=
    [sampleEdge 0 0 1 .condition 0 doubleMax, sampleEdge 1 1 2 .startEndAction 10 10, sampleEdge 2 0 2 .condition 0 doubleMax,
      sampleEdge 3 1 3 .condition 0 doubleMax, sampleEdge 4 2 3 .condition 0 doubleMax, sampleEdge 5 3 4 .startEndAction 5 5,
      sampleEdge 6 0 4 .condition 0 doubleMax]

theorem createGraph_sample : createGraph sampleOperators (1 / 100) [] (prepared sampleActions) = samplePlan := by
  unfold createGraph
  rw [show (prepared sampleActions).nodes = planNodes sampleActions from rfl, nodeOrder_sample]
  rfl

theorem effectsDisjoint_sample : EffectsDisjoint sampleOperators sampleActions := by
  unfold EffectsDisjoint
  decide

/-- Only the start of the second action has conditions. -/
theorem conditions_sample {id : ℕ} (h : id < 5) (hne : id ≠ 3) :
    conditionsOf (operatorOf sampleOperators sampleActions id) ((prepared sampleActions).node id).nodeType = [] := by
  match id, h, hne with
  | 0, _, _ => rfl
  | 1, _, _ => rfl
  | 2, _, _ => rfl
  | 4, _, _ => rfl

theorem validPlan_sample : ValidPlan sampleOperators sampleActions (fun _ => false) := by
  have hbefore : ∀ {l r : List ℕ} {b : ℕ} {c : DomainFormula × Bool × Bool}, [0, 1, 2, 3, 4] = l ++ b :: r →
      c ∈ conditionsOf (operatorOf sampleOperators sampleActions b) ((prepared sampleActions).node b).nodeType →
      l = [0, 1, 2] ∧ b = 3 ∧ r = [4] ∧ (c.1.atom = ("flying", []) ∨ c.1.atom = ("at", ["r1"])) ∧ c.2.1 = false := by
    intro l r b c hsplit hc
    have hall : ∀ x ∈ [0, 1, 2, 3, 4], x < 5 := by decide
    have hlt : b < 5 := hall b (by rw [hsplit]; simp)
    by_cases hb : b = 3
    · subst hb
      have hl : l = [0, 1, 2] ∧ r = [4] := by
        rcases l with _ | ⟨x, _ | ⟨y, _ | ⟨z, _ | ⟨w, _ | ⟨u, l⟩⟩⟩⟩⟩ <;> simp_all
      refine ⟨hl.1, rfl, hl.2, ?_⟩
      revert c
      decide
    · rw [conditions_sample hlt hb] at hc
      cases hc
  unfold ValidPlan
  rw [planOrder_sample]
  exact
    { reads := by
        rintro l b r p v hsplit ⟨c, hc, rfl, hv⟩
        obtain ⟨rfl, rfl, rfl, hatom, hneg⟩ := hbefore hsplit hc
        rw [hv] at hneg
        obtain rfl : v = true := by simpa using hneg
        rcases hatom with hatom | hatom <;> rw [hatom] <;> decide
      spans := by
        rintro l s m e r p v hsplit ⟨rfl, c, hc, rfl, hv⟩ m₁ hm
        obtain ⟨rfl, rfl, hr, hatom, hneg⟩ := hbefore hsplit hc
        obtain rfl : m = [] := by
          cases m with
          | nil => rfl
          | cons x m => simp at hr
        rw [hv] at hneg
        obtain rfl : v = true := by simpa using hneg
        rw [List.prefix_nil.mp hm]
        rcases hatom with hatom | hatom <;> rw [hatom] <;> decide }

/-- The nodes up to the start of the second action, in the order of the plan. -/
theorem conditions_sample_run :
    (∀ b < 5, b ∉ [0, 1, 2] → (∀ a, (createGraph sampleOperators (1 / 100) [] (prepared sampleActions)).HasEdge a b →
      a ∈ [0, 1, 2]) → ∀ p v, Reads sampleOperators sampleActions b p v →
      exec (write sampleOperators sampleActions) (fun _ => false) [0, 1, 2] p = v) ∧
    (∀ s ∈ [0, 1, 2], ∀ e ∉ [0, 1, 2], ∀ p v, Spans sampleOperators sampleActions s e p v →
      exec (write sampleOperators sampleActions) (fun _ => false) [0, 1, 2] p = v) ∧
    ([0, 1, 2].length = 5 → exec (write sampleOperators sampleActions) (fun _ => false) [0, 1, 2] =
      exec (write sampleOperators sampleActions) (fun _ => false) (planOrder sampleActions)) := by
  have hg := graph_createGraph sampleOperators (1 / 100) [] timed_sample
  have horder : planOrder sampleActions = [0, 1, 2] ++ [3, 4] := planOrder_sample
  have hfollow : Follows (createGraph sampleOperators (1 / 100) [] (prepared sampleActions)).HasEdge
      (planOrder sampleActions) := by
    intro a b hab hb
    have hlt := hab.lt hg.wired
    rw [hg.same.length, prepared, length_planNodes] at hlt
    exact pair_planOrder hlt.1 hlt.2 (hg.forward a b hab)
  have hnodup := nodup_planOrder sampleActions
  rw [horder] at hfollow hnodup
  exact conditions_of_edges sampleOperators (1 / 100) timed_sample effectsDisjoint_sample validPlan_sample (by decide)
    (by decide) (hfollow.of_append hnodup)

end DroneArch.Esterel
