import DroneArch.RrtStar

/-! # Collision freedom of RRT*

`not_colides` is asked about the new point only; the edge to the parent, which is chosen after the
step, is not tested.  With the parity of the even-odd rule the point test is enough where the
edge meets no edge of an obstacle, and this is carried along the run (`collisionFree_of_sees`). -/

namespace DroneArch.Rrt

open Planar Runs

/-- The segment has no point in the interior of an area. -/
def LegFree (areas : List (List (Point ℝ))) (a b : Point ℝ) : Prop :=
  ∀ area ∈ areas, ∀ w, OnSegment w a b → ¬ Interior w area

theorem LegFree.symm {areas : List (List (Point ℝ))} {a b : Point ℝ} (h : LegFree areas a b) : LegFree areas b a :=
  fun area harea w hw => h area harea w hw.symm

/-- Every segment of the tree, in its plane, and every segment of the route are free. -/
structure CollisionFree (m : Mission) (s : State) : Prop where
  tree : ∀ node ∈ s.nodes, ∀ parent, node.getParent = some parent →
    LegFree (m.polys.map Poly.vertices) parent.getPoint node.getPoint
  route : (route m s.bestNode).IsChain (LegFree (m.obstacles.map SimplePolygon.vertices))

/-- If the new point passes the point test, then from the node through which it is reached at the
lowest cost it is seen without an edge of an obstacle in between. -/
def SeesNewPoint (m : Mission) (s : State) (d : Draw) : Prop :=
  Outside m (newPoint m s d) → ∀ t, Cheapest m s d t → ∀ poly ∈ m.polys, ∀ e ∈ edges poly.vertices,
    ¬ Meets t.getPoint (newPoint m s d) e.1 e.2

/-! ### Paths to the root -/

/-- The segments from the node to the root are free. -/
def Node.Free (areas : List (List (Point ℝ))) : Node → Prop
  | .root _ _ => True
  | .child point parent _ => LegFree areas parent.getPoint point ∧ parent.Free areas

theorem Node.Free.leg {areas : List (List (Point ℝ))} {node parent : Node} (h : node.Free areas)
    (hp : node.getParent = some parent) : LegFree areas parent.getPoint node.getPoint := by
  cases node with
  | root point cost => cases hp
  | child point t cost =>
      cases hp
      exact h.1

namespace Mission

variable (m : Mission)

theorem scale_eq_stretch : m.scale = stretch (1 / 8) (1 / 8) (-m.initPoint.x / 8) (-m.initPoint.y / 8) := by
  funext p
  ext <;> simp only [scale, stretch, sizeX, sizeY] <;> ring

@[simp] theorem scale_unscale (p : Point ℝ) : m.scale (m.unscale p) = p := by
  ext <;> simp [scale, unscale, sizeX, sizeY]

theorem interior_scale (p : Point ℝ) (vs : List (Point ℝ)) : Interior (m.scale p) (vs.map m.scale) ↔ Interior p vs := by
  rw [scale_eq_stretch]
  exact interior_stretch (by norm_num) (by norm_num) _ _ p vs

theorem onSegment_scale (p u v : Point ℝ) : OnSegment (m.scale p) (m.scale u) (m.scale v) ↔ OnSegment p u v := by
  rw [scale_eq_stretch]
  exact onSegment_stretch (by norm_num) (by norm_num) _ _ p u v

theorem scaled_mem_polys {P : SimplePolygon ℝ} (h : P ∈ m.obstacles) :
    P.vertices.map m.scale ∈ m.polys.map Poly.vertices := by
  rw [polys, List.map_map]
  exact List.mem_map.mpr ⟨P, h, rfl⟩

/-- A free segment of the tree is free among the obstacles as they were given. -/
theorem legFree_unscale {a b : Point ℝ} (h : LegFree (m.polys.map Poly.vertices) a b) :
    LegFree (m.obstacles.map SimplePolygon.vertices) (m.unscale a) (m.unscale b) := by
  intro area harea w hw hint
  obtain ⟨P, hP, rfl⟩ := List.mem_map.mp harea
  rw [← m.onSegment_scale, scale_unscale, scale_unscale] at hw
  exact h _ (m.scaled_mem_polys hP) (m.scale w) hw ((m.interior_scale w P.vertices).mpr hint)

end Mission

/-- The lines of a free node, without the goal, are free from one to the next. -/
theorem isChain_linhas {m : Mission} {node : Node} (h : node.Free (m.polys.map Poly.vertices)) :
    (linhas m node).dropLast.IsChain (LegFree (m.obstacles.map SimplePolygon.vertices)) := by
  induction node with
  | root point cost => simp [linhas]
  | child point parent cost ih =>
      cases parent with
      | root point' cost' => simp [linhas]
      | child point' parent' cost' =>
          have htail := ih h.2
          have hne : linhas m parent' ≠ [] := linhas_ne_nil m parent'
          simp only [linhas, List.dropLast_cons_of_ne_nil hne] at htail ⊢
          rw [List.dropLast_cons_of_ne_nil (List.cons_ne_nil _ _), List.dropLast_cons_of_ne_nil hne,
            List.isChain_cons_cons]
          exact ⟨(m.legFree_unscale h.1).symm, htail⟩

theorem isChain_route {m : Mission} {node : Node} (h : node.Free (m.polys.map Poly.vertices)) :
    (route m node).IsChain (LegFree (m.obstacles.map SimplePolygon.vertices)) := by
  rw [route_eq, List.isChain_reverse]
  exact (isChain_linhas h).imp (fun _ _ hab => hab.symm)

/-! ### Runs -/

/-- What a run keeps: every path to the root is free, also the one from the best node. -/
structure PathsFree (m : Mission) (s : State) : Prop where
  nodes : ∀ node ∈ s.nodes, node.Free (m.polys.map Poly.vertices)
  best : s.bestNode.Free (m.polys.map Poly.vertices)

theorem PathsFree.collisionFree {m : Mission} {s : State} (h : PathsFree m s) : CollisionFree m s where
  tree := fun node hnode _ hp => (h.nodes node hnode).leg hp
  route := isChain_route h.best

theorem pathsFree_start (m : Mission) : PathsFree m (start m) where
  nodes := by
    intro node hnode
    rw [List.mem_singleton.mp hnode]
    trivial
  best := trivial

/-- A new point that passes the test and is seen from the parent has a free edge to it. -/
theorem legFree_of_sees {m : Mission} {p q : Point ℝ} (hout : Outside m q)
    (hsees : ∀ poly ∈ m.polys, ∀ e ∈ edges poly.vertices, ¬ Meets p q e.1 e.2) :
    LegFree (m.polys.map Poly.vertices) p q := by
  intro area harea w hw
  obtain ⟨poly, hpoly, rfl⟩ := List.mem_map.mp harea
  have hoff : ¬ OnBoundary q poly.vertices := by
    rintro ⟨e, he, hon⟩
    exact hsees poly hpoly e he ⟨q, onSegment_right p q, hon⟩
  exact not_interior_of_onSegment (fun e he hm => hsees poly hpoly e he hm.swap)
    ((notColides_iff hoff).mp (hout poly hpoly)) hw.symm

theorem pathsFree_step {m : Mission} {s : State} {d : Draw} (h : PathsFree m s) (hsees : SeesNewPoint m s d) :
    PathsFree m (step m s d) := by
  rcases step_cases m s d with ⟨t, ht, hout, hnodes, hbest⟩ | ⟨-, heq⟩
  · have hnew : (Node.child (newPoint m s d) t (costThrough (newPoint m s d) t)).Free (m.polys.map Poly.vertices) :=
      ⟨legFree_of_sees hout (hsees hout t ht), h.nodes t ht.mem⟩
    constructor
    · intro node hnode
      rw [hnodes, List.mem_append, List.mem_singleton] at hnode
      rcases hnode with hnode | rfl
      · exact h.nodes node hnode
      · exact hnew
    · rcases hbest with hbest | hbest
      · rw [hbest]
        exact hnew
      · rw [hbest]
        exact h.best
  · rw [heq]
    exact h

/-- **Collision freedom.**  In a run in which every accepted new point is seen from where it is
reached at the lowest cost, the tree and the route are free of collisions in every state. -/
theorem collisionFree_of_sees (m : Mission) (ds : List Draw) (h : Each (grow m) (SeesNewPoint m) (start m) ds) :
    Always (grow m) (CollisionFree m) (start m) ds := by
  have hpaths : Always (grow m) (PathsFree m) (start m) ds := by
    refine always_of_each (fun s d s' hs hp hd => ?_) (pathsFree_start m) h
    cases hs
    exact pathsFree_step hp hd
  exact hpaths.mono (fun _ hp => hp.collisionFree)

/-! ### Obstacles away from the samples -/

/-- A set with all segments between its points has the start and the samples, and no edge of an obstacle
reaches into it. -/
structure Separates (m : Mission) (H : Set (Point ℝ)) (ds : List Draw) : Prop where
  convex : ∀ a ∈ H, ∀ b ∈ H, ∀ w, OnSegment w a b → w ∈ H
  start : m.scale m.initPoint ∈ H
  samples : ∀ d ∈ ds, rand m d ∈ H
  obstacles : ∀ poly ∈ m.polys, ∀ e ∈ edges poly.vertices, ∀ w ∈ H, ¬ OnSegment w e.1 e.2

/-- The tree stays in the set. -/
def Inhabits (H : Set (Point ℝ)) (s : State) : Prop := ∀ node ∈ s.nodes, node.getPoint ∈ H

section
variable {m : Mission} {H : Set (Point ℝ)} {ds : List Draw} {s : State} {d : Draw}

/-- The new point is on the way from a node to the sample. -/
theorem Separates.newPoint_mem (h : Separates m H ds) (hs : Inhabits H s) (hd : rand m d ∈ H) : newPoint m s d ∈ H :=
  h.convex _ (hs _ (nearest_mem s (rand m d))) _ hd _ (stepFromTo_spec _ _).2.1

theorem Separates.inhabits_step (h : Separates m H ds) (hs : Inhabits H s) (hd : rand m d ∈ H) :
    Inhabits H (step m s d) := by
  rcases step_cases m s d with ⟨t, -, -, hnodes, -⟩ | ⟨-, heq⟩
  · intro node hnode
    rw [hnodes, List.mem_append, List.mem_singleton] at hnode
    rcases hnode with hnode | rfl
    · exact hs node hnode
    · exact h.newPoint_mem hs hd
  · rwa [heq]

/-- In the set everything is seen from everywhere. -/
theorem Separates.sees (h : Separates m H ds) (hs : Inhabits H s) (hd : rand m d ∈ H) : SeesNewPoint m s d := by
  rintro - t ht poly hpoly e he ⟨w, hw, hwe⟩
  exact h.obstacles poly hpoly e he w (h.convex _ (hs t ht.mem) _ (h.newPoint_mem hs hd) w hw) hwe

end

/-- **Obstacles away from the samples.**  If a convex set has the start and all samples and no obstacle reaches
into it, the tree and the route are free of collisions in every state. -/
theorem collisionFree_of_separates (m : Mission) (H : Set (Point ℝ)) (ds : List Draw) (h : Separates m H ds) :
    Always (grow m) (CollisionFree m) (start m) ds := by
  have hstart : Inhabits H (start m) := by
    intro node hnode
    rw [List.mem_singleton.mp hnode]
    exact h.start
  have hkept : Always (grow m) (fun s => PathsFree m s ∧ Inhabits H s) (start m) ds := by
    refine always_of_each (Q := fun _ d => rand m d ∈ H) (fun s d s' hs hk hd => ?_) ⟨pathsFree_start m, hstart⟩
      (each_of_forall h.samples (start m))
    cases hs
    exact ⟨pathsFree_step hk.1 (h.sees hk.2 hd), h.inhabits_step hk.2 hd⟩
  exact hkept.mono (fun _ hk => hk.1.collisionFree)

/-! ### A triangle in the way -/

@[simp] theorem scale_initPoint (m : Mission) : m.scale m.initPoint = ⟨0, 0⟩ := by
  simp [Mission.scale]

@[simp] theorem nearest_start (m : Mission) (r : Point ℝ) : nearest (start m) r = .root ⟨0, 0⟩ 0 := by
  simp [nearest, start]

/-- The first pass reaches a sample that is near enough. -/
theorem newPoint_start {m : Mission} {d : Draw} (h : dist ⟨0, 0⟩ (rand m d) < jump) :
    newPoint m (start m) d = rand m d := by
  unfold newPoint stepFromTo
  rw [nearest_start, Node.getPoint_root, if_pos h]

theorem cheapest_start {m : Mission} {d : Draw} {t : Node} (h : Cheapest m (start m) d t) : t = .root ⟨0, 0⟩ 0 := by
  have hmem := List.mem_singleton.mp h.mem
  rwa [scale_initPoint] at hmem

/-- A point to the right of all vertices passes the point test. -/
theorem notColides_of_right {x y : ℝ} {poly : Poly} (h : ∀ v ∈ poly.vertices, v.x < x) : notColides x y poly = true := by
  have hcount : (edges poly.vertices).countP (fun e => flips x y e.1 e.2) = 0 := by
    rw [List.countP_eq_zero]
    intro e he
    obtain ⟨h1, h2⟩ := mem_of_mem_edges he
    have hright := max_lt (h _ h1) (h _ h2)
    simp [flips, -le_sup_iff, hright.not_ge]
  rw [notColides_eq, hcount]
  rfl

noncomputable section

/-- A triangle on the straight way from the start. -/
def peak : SimplePolygon ℝ where
  vertices := [⟨48, -8⟩, ⟨64, -8⟩, ⟨56, 8⟩]
  three_le := by simp
  nodup := by norm_num
  simple := simple_triangle (by norm_num [det])

def peakMission : Mission where
  initPoint := ⟨0, 0⟩
  goalPoint := ⟨112, 40⟩
  obstacles := [peak]

/-- The draw of a sample straight ahead or to the left of it. -/
def drawAhead (y : Set.Ico (0 : ℝ) 1) : Draw where
  x := ⟨1 / 2, half_mem_Ico⟩
  signX := ⟨1 / 2, half_mem_Ico⟩
  y := y
  signY := ⟨1 / 2, half_mem_Ico⟩

theorem rand_peakMission (y : Set.Ico (0 : ℝ) 1) : rand peakMission (drawAhead y) = ⟨14, 10 * y⟩ := by
  ext
  · norm_num [rand, drawAhead, posNeg, peakMission, Mission.scale, sizeX]
  · norm_num [rand, drawAhead, posNeg, peakMission, Mission.scale, sizeY]
    ring

theorem polys_peakMission : peakMission.polys.map Poly.vertices = [[⟨6, -1⟩, ⟨8, -1⟩, ⟨7, 1⟩]] := by
  norm_num [Mission.polys, peakMission, peak, Mission.scale, sizeX, sizeY]

end

theorem outside_peakMission {p : Point ℝ} (h : 8 < p.x) : Outside peakMission p := by
  intro poly hpoly
  have hv : poly.vertices ∈ peakMission.polys.map Poly.vertices := List.mem_map_of_mem hpoly
  rw [polys_peakMission, List.mem_singleton] at hv
  refine notColides_of_right (fun v hmem => ?_)
  rw [hv] at hmem
  simp only [List.mem_cons, List.not_mem_nil, or_false] at hmem
  rcases hmem with rfl | rfl | rfl <;> dsimp only <;> linarith

theorem newPoint_peakMission {y : Set.Ico (0 : ℝ) 1} (h : (y : ℝ) ≤ 1 / 2) :
    newPoint peakMission (start peakMission) (drawAhead y) = ⟨14, 10 * y⟩ := by
  have hy : (0 : ℝ) ≤ y := y.2.1
  rw [newPoint_start, rand_peakMission]
  rw [rand_peakMission, dist, jump, Real.sqrt_lt' (by norm_num)]
  nlinarith

/-- Start and goal are outside of the triangle, the first sample is accepted, and its edge goes
through the triangle. -/
theorem collisionFree_fails : ¬ Inside peakMission.initPoint peak.vertices ∧
    ¬ Inside peakMission.goalPoint peak.vertices ∧
    ¬ Always (grow peakMission) (CollisionFree peakMission) (start peakMission)
      [drawAhead ⟨0, le_rfl, zero_lt_one⟩] := by
  refine ⟨?_, ?_, fun hall => ?_⟩
  · norm_num [Inside, edges_triangle, peakMission, peak, crosses, intercept]
  · norm_num [Inside, edges_triangle, peakMission, peak, crosses, intercept]
  · have hfree := (hall.2 _ rfl).head.tree
    have hpoint := newPoint_peakMission (y := ⟨0, le_rfl, zero_lt_one⟩) (by norm_num)
    rw [mul_zero] at hpoint
    rcases step_cases peakMission (start peakMission) (drawAhead ⟨0, le_rfl, zero_lt_one⟩) with
      ⟨t, ht, -, hnodes, -⟩ | ⟨hno, -⟩
    · have hleg := hfree _ (hnodes ▸ List.mem_append_right _ (List.mem_singleton_self _)) t rfl
      rw [cheapest_start ht, Node.getPoint_root, Node.getPoint_child, hpoint, polys_peakMission] at hleg
      refine hleg _ (List.mem_singleton_self _) ⟨7, 0⟩ ⟨1 / 2, by norm_num, by norm_num, ?_⟩ ⟨?_, ?_⟩
      · ext <;> norm_num
      · norm_num [Inside, edges_triangle, crosses, intercept]
      · rintro ⟨e, he, hon⟩
        have hdet := hon.det_eq_zero
        simp only [edges_triangle, List.mem_cons, List.not_mem_nil, or_false] at he
        rcases he with rfl | rfl | rfl <;> norm_num [det] at hdet
    · refine hno (outside_peakMission ?_)
      rw [hpoint]
      norm_num

/-- A first sample above the triangle. -/
theorem collisionFree_above : Always (grow peakMission) (CollisionFree peakMission) (start peakMission)
    [drawAhead ⟨2 / 5, by norm_num, by norm_num⟩] := by
  refine collisionFree_of_sees peakMission _ (fun s' _ => ⟨?_, trivial⟩)
  intro _ t ht poly hpoly e he hm
  have hv : poly.vertices ∈ peakMission.polys.map Poly.vertices := List.mem_map_of_mem hpoly
  rw [polys_peakMission, List.mem_singleton] at hv
  rw [cheapest_start ht, newPoint_peakMission (by norm_num), Node.getPoint_root] at hm
  have hdet := hm.det_mul_det_nonpos
  rw [hv] at he
  simp only [edges_triangle, List.mem_cons, List.not_mem_nil, or_false] at he
  rcases he with rfl | rfl | rfl <;> norm_num [det] at hdet

/-- A half-plane to the left of the triangle has the start and the sample. -/
theorem collisionFree_leftOfPeak : Always (grow peakMission) (CollisionFree peakMission) (start peakMission)
    [drawAhead ⟨2 / 5, by norm_num, by norm_num⟩] := by
  refine collisionFree_of_separates peakMission {p | 4 * p.x ≤ 14 * p.y} _ ⟨?_, ?_, ?_, ?_⟩
  · rintro a ha b hb w ⟨t, h0, h1, rfl⟩
    rw [Set.mem_ofPred_eq] at ha hb ⊢
    rw [lerp_x, lerp_y]
    nlinarith
  · norm_num
  · intro d hd
    rw [List.mem_singleton.mp hd, rand_peakMission]
    norm_num
  · rintro poly hpoly e he w hw ⟨t, h0, h1, rfl⟩
    have hv : poly.vertices ∈ peakMission.polys.map Poly.vertices := List.mem_map_of_mem hpoly
    rw [polys_peakMission, List.mem_singleton] at hv
    rw [hv] at he
    rw [Set.mem_ofPred_eq, lerp_x, lerp_y] at hw
    simp only [edges_triangle, List.mem_cons, List.not_mem_nil, or_false] at he
    rcases he with rfl | rfl | rfl <;> dsimp only at hw <;> linarith

end DroneArch.Rrt
