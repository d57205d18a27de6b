import DroneArch.RrtTree

/-! # The cheapest nodes of RRT*

A new node gets the lowest cost at which it can be reached (`newNode_isLeast`).  The best node is
compared with each new node near the goal, and never with the start: it is a cheapest node near the goal
after every pass exactly when the start is not near the goal, or is the goal itself
(`bestOfNear_iff`).  The dummy that the best node is at first is no candidate, since a node costs
at most `jump` for each pass and the dummy costs more than all passes together. -/

namespace DroneArch.Rrt

open Planar Runs

/-- The node is within 10 units of the goal. -/
def Near (m : Mission) (node : Node) : Prop := dist node.getPoint (m.scale m.goalPoint) < 10

/-- If there are nodes near the goal, the best node is one of them and none of them is cheaper. -/
def BestOfNear (m : Mission) (s : State) : Prop :=
  (∃ node ∈ s.nodes, Near m node) →
    s.bestNode ∈ s.nodes ∧ Near m s.bestNode ∧ ∀ node ∈ s.nodes, Near m node → s.bestNode.getCost ≤ node.getCost

/-! ### One pass -/

/-- The cost of the new node is the lowest at which it can be reached. -/
theorem newNode_isLeast (m : Mission) (s : State) (d : Draw) :
    IsLeast {c | ∃ t, Reaches m s d t ∧ c = costThrough (newPoint m s d) t} (newNode m s d).getCost := by
  obtain ⟨t, ⟨hreach, hmin⟩, heq⟩ := newNode_eq m s d
  rw [heq]
  refine ⟨⟨t, hreach, rfl⟩, ?_⟩
  rintro c ⟨t', ht', rfl⟩
  exact hmin t' ht'

/-- The new node costs at most `jump` more than the node nearest to the sample. -/
theorem newNode_getCost_le (m : Mission) (s : State) (d : Draw) :
    (newNode m s d).getCost ≤ (nearest s (rand m d)).getCost + jump := by
  have hle := (newNode_isLeast m s d).2 ⟨_, Or.inl rfl, rfl⟩
  have hstep : dist (newPoint m s d) (nearest s (rand m d)).getPoint ≤ jump := by
    rw [dist_comm]
    exact (stepFromTo_spec _ _).1
  unfold costThrough at hle
  linarith

/-- What the loop keeps after `n` passes: the costs are bounded, and the best node is a cheapest one
near the goal or still the dummy. -/
structure Tracks (m : Mission) (n : ℕ) (s : State) : Prop where
  costs : ∀ node ∈ s.nodes, node.getCost ≤ jump * n
  best : BestOfNear m s
  dummy : (∀ node ∈ s.nodes, ¬ Near m node) → s.bestNode.getCost = 9999999

theorem keep_bestNode_of_near {m : Mission} {s : State} {node1 : Node} (h : Near m node1) :
    (keep m s node1).bestNode = if node1.getCost < s.bestNode.getCost then node1 else s.bestNode := if_pos h

theorem keep_bestNode_of_far {m : Mission} {s : State} {node1 : Node} (h : ¬ Near m node1) :
    (keep m s node1).bestNode = s.bestNode := if_neg h

theorem mem_keep {m : Mission} {s : State} {node1 node : Node} :
    node ∈ (keep m s node1).nodes ↔ node ∈ s.nodes ∨ node = node1 := by
  simp [keep]

/-- A new node that costs less than the dummy is compared rightly. -/
theorem tracks_keep {m : Mission} {n : ℕ} {s : State} {node1 : Node} (h : Tracks m n s)
    (hcost : node1.getCost ≤ jump * (n + 1 : ℕ)) (hlt : node1.getCost < 9999999) : Tracks m (n + 1) (keep m s node1) := by
  have hmono : jump * n ≤ jump * (n + 1 : ℕ) := by
    unfold jump
    push_cast
    linarith
  refine ⟨fun node hnode => ?_, fun hsome => ?_, fun hnone => ?_⟩
  · rcases mem_keep.mp hnode with hnode | rfl
    · exact (h.costs node hnode).trans hmono
    · exact hcost
  · by_cases hnear : Near m node1
    · rw [keep_bestNode_of_near hnear]
      by_cases hc : node1.getCost < s.bestNode.getCost
      · rw [if_pos hc]
        refine ⟨mem_keep.mpr (Or.inr rfl), hnear, fun node hnode hn => ?_⟩
        rcases mem_keep.mp hnode with hnode | rfl
        · exact hc.le.trans ((h.best ⟨node, hnode, hn⟩).2.2 node hnode hn)
        · exact le_rfl
      · -- the best node is not the dummy
        rw [if_neg hc]
        have hold : ∃ node ∈ s.nodes, Near m node := by
          by_contra hno
          have hdummy := h.dummy fun node hnode hn => hno ⟨node, hnode, hn⟩
          exact hc (hdummy ▸ hlt)
        obtain ⟨hmem, hn, hmin⟩ := h.best hold
        refine ⟨mem_keep.mpr (Or.inl hmem), hn, fun node hnode hnode' => ?_⟩
        rcases mem_keep.mp hnode with hnode | rfl
        · exact hmin node hnode hnode'
        · exact not_lt.mp hc
    · rw [keep_bestNode_of_far hnear]
      have hold : ∀ node ∈ (keep m s node1).nodes, Near m node → node ∈ s.nodes := by
        intro node hnode hn
        rcases mem_keep.mp hnode with hnode | rfl
        · exact hnode
        · exact absurd hn hnear
      obtain ⟨node, hnode, hn⟩ := hsome
      obtain ⟨hmem, hbest, hmin⟩ := h.best ⟨node, hold node hnode hn, hn⟩
      exact ⟨mem_keep.mpr (Or.inl hmem), hbest, fun node hnode hn => hmin node (hold node hnode hn) hn⟩
  · rw [keep_bestNode_of_far (hnone node1 (mem_keep.mpr (Or.inr rfl)))]
    exact h.dummy fun node hnode => hnone node (mem_keep.mpr (Or.inl hnode))

theorem tracks_step {m : Mission} {n : ℕ} {s : State} (d : Draw) (h : Tracks m n s) (hn : n < numNodes) :
    Tracks m (n + 1) (step m s d) := by
  have hcost : (newNode m s d).getCost ≤ jump * (n + 1 : ℕ) := by
    have hle := newNode_getCost_le m s d
    have hnearest := h.costs _ (nearest_mem s (rand m d))
    push_cast
    linarith
  rw [step_eq]
  by_cases ho : Outside m (newPoint m s d)
  · rw [if_pos ho]
    refine tracks_keep h hcost (hcost.trans_lt ?_)
    have hle : ((n + 1 : ℕ) : ℝ) ≤ 10000 := by exact_mod_cast hn
    unfold jump
    linarith
  · rw [if_neg ho]
    refine ⟨fun node hnode => (h.costs node hnode).trans ?_, h.best, h.dummy⟩
    unfold jump
    push_cast
    linarith

theorem tracks_run {m : Mission} {n : ℕ} {s t : State} {ds : List Draw} (h : Tracks m n s)
    (hlen : n + ds.length ≤ numNodes) (hrun : run (grow m) s ds = some t) : Tracks m (n + ds.length) t := by
  induction ds generalizing n s with
  | nil =>
      cases hrun
      exact h
  | cons d ds ih =>
      rw [List.length_cons] at hlen ⊢
      have hrest := ih (tracks_step d h (by omega)) (by omega) hrun
      have hcount : n + 1 + ds.length = n + (ds.length + 1) := by omega
      rwa [hcount] at hrest

/-! ### The first pass -/

/-- The start is not near the goal, or it is the goal and is outside of the obstacles. -/
def StartIsNoRival (m : Mission) : Prop :=
  10 ≤ dist (m.scale m.initPoint) (m.scale m.goalPoint) ∨
    m.goalPoint = m.initPoint ∧ Outside m (m.scale m.initPoint)

theorem near_root {m : Mission} {c : ℝ} :
    Near m (.root (m.scale m.initPoint) c) ↔ dist (m.scale m.initPoint) (m.scale m.goalPoint) < 10 := Iff.rfl

theorem scale_injective (m : Mission) : Function.Injective m.scale := by
  rw [Mission.scale_eq_stretch]
  exact stretch_injective (by norm_num) (by norm_num) _ _

theorem eq_of_dist_le_zero {p q : Point ℝ} (h : dist p q ≤ 0) : p = q := by
  rw [← norm_sub_eq_dist, norm_le_zero_iff, Complex.ext_iff] at h
  exact Point.ext (sub_eq_zero.mp h.1).symm (sub_eq_zero.mp h.2).symm

/-- Before the loop nothing is near the goal, if the start is not. -/
theorem tracks_start {m : Mission} (h : 10 ≤ dist (m.scale m.initPoint) (m.scale m.goalPoint)) :
    Tracks m 0 (start m) := by
  have hfar : ∀ node ∈ (start m).nodes, ¬ Near m node := by
    intro node hnode
    rw [List.mem_singleton.mp hnode, near_root]
    exact h.not_gt
  refine ⟨fun node hnode => ?_, ?_, fun _ => rfl⟩
  · rw [List.mem_singleton.mp hnode]
    simp [Node.getCost]
  · rintro ⟨node, hnode, hn⟩
    exact absurd hn (hfar node hnode)

/-- The draw of the goal itself. -/
noncomputable def drawGoal : Draw where
  x := ⟨1 / 2, half_mem_Ico⟩
  signX := ⟨1 / 2, half_mem_Ico⟩
  y := ⟨1 / 2, half_mem_Ico⟩
  signY := ⟨1 / 2, half_mem_Ico⟩

theorem rand_drawGoal (m : Mission) : rand m drawGoal = m.scale m.goalPoint := by
  ext <;> simp [rand, drawGoal, posNeg]

/-- A sample that is near the start becomes a child of the start. -/
theorem newNode_start {m : Mission} {d : Draw} (h : dist ⟨0, 0⟩ (rand m d) < jump) :
    newNode m (start m) d = .child (rand m d) (.root ⟨0, 0⟩ 0) (dist (rand m d) ⟨0, 0⟩) := by
  obtain ⟨t, ht, heq⟩ := newNode_eq m (start m) d
  rw [heq, cheapest_start ht, newPoint_start h, costThrough, Node.getPoint_root]
  congr 1
  exact zero_add _

/-- After the first pass the best node is a cheapest one, if the start does not rival it. -/
theorem tracks_first {m : Mission} (h : StartIsNoRival m) (d : Draw) : Tracks m 1 (step m (start m) d) := by
  rcases h with hfar | ⟨hgoal, ho⟩
  · exact tracks_step d (tracks_start hfar) (by simp [numNodes])
  · -- every sample is the start
    have hrand : rand m d = ⟨0, 0⟩ := by
      ext <;> simp [rand, hgoal]
    have hzero : dist ⟨0, 0⟩ ⟨0, 0⟩ = 0 := dist_self_eq _
    have hjump : dist ⟨0, 0⟩ (rand m d) < jump := by
      rw [hrand, hzero, jump]
      norm_num
    have hnew : newNode m (start m) d = .child ⟨0, 0⟩ (.root ⟨0, 0⟩ 0) 0 := by
      rw [newNode_start hjump, hrand, hzero]
    have hnear : Near m (.child ⟨0, 0⟩ (.root ⟨0, 0⟩ 0) 0) := by
      rw [Near, Node.getPoint_child, hgoal, scale_initPoint, hzero]
      norm_num
    have hbest : (keep m (start m) (.child ⟨0, 0⟩ (.root ⟨0, 0⟩ 0) 0)).bestNode = .child ⟨0, 0⟩ (.root ⟨0, 0⟩ 0) 0 := by
      rw [keep_bestNode_of_near hnear, if_pos]
      norm_num [Node.getCost, start]
    have hcosts : ∀ node ∈ (keep m (start m) (.child ⟨0, 0⟩ (.root ⟨0, 0⟩ 0) 0)).nodes, node.getCost = 0 := by
      intro node hnode
      rcases mem_keep.mp hnode with hnode | rfl
      · rw [List.mem_singleton.mp hnode]
        rfl
      · rfl
    have hout : Outside m (newPoint m (start m) d) := by
      rwa [newPoint_start hjump, hrand, ← scale_initPoint m]
    rw [step_eq, if_pos hout, hnew]
    refine ⟨fun node hnode => ?_, fun _ => ?_, fun hnone => ?_⟩
    · rw [hcosts node hnode, jump]
      norm_num
    · rw [hbest]
      exact ⟨mem_keep.mpr (Or.inr rfl), hnear, fun node hnode _ => (hcosts node hnode).ge⟩
    · exact absurd hnear (hnone _ (mem_keep.mpr (Or.inr rfl)))

/-- If the start is near the goal and not the goal, a first sample at the goal is no cheapest node, and if
it is not accepted, there is only the dummy. -/
theorem not_bestOfNear_first {m : Mission} (h : ¬ StartIsNoRival m) : ¬ BestOfNear m (step m (start m) drawGoal) := by
  intro hbest
  rw [StartIsNoRival, not_or, not_le, scale_initPoint] at h
  obtain ⟨hnear, hrival⟩ := h
  have hjump : dist ⟨0, 0⟩ (rand m drawGoal) < jump := by
    rw [rand_drawGoal]
    exact hnear.trans (by norm_num [jump])
  have hroot : Near m (.root ⟨0, 0⟩ 0) := hnear
  have hstart : (start m).nodes = [.root ⟨0, 0⟩ 0] := by
    simp only [start, scale_initPoint]
  rw [step_eq, newPoint_start hjump, newNode_start hjump, rand_drawGoal] at hbest
  by_cases ho : Outside m (m.scale m.goalPoint)
  · rw [if_pos ho] at hbest
    have hgoal : Near m (.child (m.scale m.goalPoint) (.root ⟨0, 0⟩ 0) (dist (m.scale m.goalPoint) ⟨0, 0⟩)) := by
      rw [Near, Node.getPoint_child, dist_self_eq]
      norm_num
    have hroot_mem : Node.root ⟨0, 0⟩ 0 ∈ (start m).nodes := hstart ▸ List.mem_singleton_self _
    obtain ⟨-, -, hmin⟩ := hbest ⟨_, mem_keep.mpr (Or.inr rfl), hgoal⟩
    have hle := hmin _ (mem_keep.mpr (Or.inl hroot_mem)) hroot
    have hcheap : (Node.child (m.scale m.goalPoint) (.root ⟨0, 0⟩ 0) (dist (m.scale m.goalPoint) ⟨0, 0⟩)).getCost <
        (start m).bestNode.getCost := by
      change dist (m.scale m.goalPoint) ⟨0, 0⟩ < 9999999
      rw [dist_comm]
      exact hnear.trans (by norm_num)
    rw [keep_bestNode_of_near hgoal, if_pos hcheap] at hle
    -- the start costs nothing, so the goal is the start
    have hdist : dist (m.scale m.goalPoint) ⟨0, 0⟩ ≤ 0 := hle
    have hpoint := eq_of_dist_le_zero hdist
    refine hrival ⟨?_, hpoint ▸ ho⟩
    rw [← scale_initPoint m] at hpoint
    exact scale_injective m hpoint
  · rw [if_neg ho] at hbest
    obtain ⟨hmem, -, -⟩ := hbest ⟨_, hstart ▸ List.mem_singleton_self _, hroot⟩
    rw [hstart, List.mem_singleton] at hmem
    have hcost : (9999999 : ℝ) = 0 := congrArg Node.getCost hmem
    norm_num at hcost

/-- **Parents and the best node.**  In every state a pass makes its node as cheap as a parent among
the nearest node and the neighbors allows.  The best node is a cheapest node near the goal after
every pass of every run exactly when the start does not rival it. -/
theorem bestOfNear_iff (m : Mission) :
    (∀ s d, (newNode m s d).getPoint = newPoint m s d ∧
      IsLeast {c | ∃ t, Reaches m s d t ∧ c = costThrough (newPoint m s d) t} (newNode m s d).getCost ∧
      ((step m s d).nodes = s.nodes ++ [newNode m s d] ∨ step m s d = s)) ∧
    ((∀ ds s, ds ≠ [] → ds.length ≤ numNodes → run (grow m) (start m) ds = some s → BestOfNear m s) ↔
      StartIsNoRival m) := by
  refine ⟨fun s d => ⟨newNode_getPoint m s d, newNode_isLeast m s d, ?_⟩, fun hall => ?_, ?_⟩
  · rw [step_eq]
    split
    · exact Or.inl rfl
    · exact Or.inr rfl
  · by_contra hrival
    exact not_bestOfNear_first hrival (hall [drawGoal] _ (List.cons_ne_nil _ _) (by simp [numNodes]) rfl)
  · intro h ds s hne hlen hrun
    cases ds with
    | nil => exact absurd rfl hne
    | cons d ds =>
        rw [List.length_cons] at hlen
        exact (tracks_run (tracks_first h d) (by omega) hrun).best

/-- A goal at 8 metres to the east, without obstacles. -/
noncomputable def nextDoor : Mission where
  initPoint := ⟨0, 0⟩
  goalPoint := ⟨8, 0⟩
  obstacles := []

theorem bestOfNear_nextDoor : ¬ BestOfNear nextDoor (step nextDoor (start nextDoor) drawGoal) := by
  refine not_bestOfNear_first ?_
  rw [StartIsNoRival, not_or, not_le, scale_initPoint]
  constructor
  · rw [dist, Real.sqrt_lt' (by norm_num)]
    norm_num [nextDoor, Mission.scale, sizeX, sizeY]
  · norm_num [nextDoor]

end DroneArch.Rrt
