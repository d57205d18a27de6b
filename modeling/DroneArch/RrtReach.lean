import Mathlib.Analysis.CStarAlgebra.Classes
import Mathlib.Analysis.Convex.Basic
import DroneArch.Curves
import DroneArch.RrtSafety

/-! # Where RRT* can grow

A sample has at most twice the coordinates of the goal, in absolute value, so all nodes stay in a box around
the start, which is a line when the goal is straight to the north or to the east.  A tree grows exactly along
hops in this box (`findsGoal_iff`), and a curve that stays in the box is walked in hops
(`hoppable_of_inBox`). -/

namespace DroneArch.Rrt

open Planar Runs

/-! ### The sampling box -/

/-- The values of `random.random() * 2 * g * pos_neg()`. -/
def Spans (g v : ℝ) : Prop := |v| < 2 * |g| ∨ v = 0

theorem posNeg_eq (s : ℝ) : posNeg s = 1 ∨ posNeg s = -1 := ite_eq_or_eq _ _ _

theorem spans_iff {g v : ℝ} : Spans g v ↔ ∃ r s : Set.Ico (0 : ℝ) 1, (r : ℝ) * 2 * g * posNeg s = v := by
  constructor
  · rintro (h | rfl)
    · have hg : 0 < |g| := by
        have := abs_nonneg v
        linarith
      have hg' : g ≠ 0 := abs_pos.mp hg
      have hlt : |v / (2 * g)| < 1 := by
        rw [abs_div, abs_mul, abs_of_pos (by norm_num : (0 : ℝ) < 2), div_lt_one (by linarith)]
        exact h
      by_cases hsign : 0 ≤ v / (2 * g)
      · refine ⟨⟨|v / (2 * g)|, abs_nonneg _, hlt⟩, ⟨1 / 2, half_mem_Ico⟩, ?_⟩
        dsimp only
        rw [abs_of_nonneg hsign, posNeg, if_pos le_rfl]
        field_simp
      · refine ⟨⟨|v / (2 * g)|, abs_nonneg _, hlt⟩, ⟨0, by norm_num⟩, ?_⟩
        dsimp only
        rw [abs_of_neg (not_le.mp hsign), posNeg, if_neg (by norm_num)]
        field_simp
    · exact ⟨⟨0, by norm_num⟩, ⟨0, by norm_num⟩, by simp⟩
  · rintro ⟨r, s, rfl⟩
    by_cases hg : g = 0
    · right
      rw [hg]
      ring
    · left
      have hsign : |posNeg s| = 1 := by
        obtain h | h := posNeg_eq s <;> rw [h] <;> norm_num
      have hr : |(r : ℝ)| = r := abs_of_nonneg r.2.1
      rw [abs_mul, abs_mul, abs_mul, hsign, hr, abs_of_pos (by norm_num : (0 : ℝ) < 2)]
      have hpos := abs_pos.mpr hg
      have hr1 := r.2.2
      nlinarith

theorem Spans.between {g u v t : ℝ} (hu : Spans g u) (hv : Spans g v) (h0 : 0 ≤ t) (h1 : t ≤ 1) :
    Spans g (u + t * (v - u)) := by
  by_cases hg : g = 0
  · have hzero : ∀ w, Spans g w → w = 0 := by
      rintro w (hw | hw)
      · rw [hg, abs_zero, mul_zero] at hw
        exact absurd (abs_nonneg w) (not_le.mpr hw)
      · exact hw
    rw [hzero u hu, hzero v hv]
    exact Or.inr (by ring)
  · have hmem : ∀ w, Spans g w → w ∈ Set.Ioo (-(2 * |g|)) (2 * |g|) := by
      rintro w (hw | rfl)
      · exact abs_lt.mp hw
      · have := abs_pos.mpr hg
        exact ⟨by linarith, by linarith⟩
    have hconv := convex_Ioo (-(2 * |g|)) (2 * |g|) (hmem u hu) (hmem v hv) (sub_nonneg.mpr h1) h0 (by ring)
    have hcomb : u + t * (v - u) = (1 - t) * u + t * v := by ring
    left
    rw [hcomb, abs_lt]
    exact hconv

/-- A point of the box in which samples are drawn. -/
def InBox (m : Mission) (q : Point ℝ) : Prop :=
  Spans (m.scale m.goalPoint).x q.x ∧ Spans (m.scale m.goalPoint).y q.y

theorem inBox_iff {m : Mission} {q : Point ℝ} : InBox m q ↔ ∃ d, rand m d = q := by
  unfold InBox
  rw [spans_iff, spans_iff]
  constructor
  · rintro ⟨⟨x, signX, hx⟩, ⟨y, signY, hy⟩⟩
    exact ⟨⟨x, signX, y, signY⟩, by ext; exacts [hx, hy]⟩
  · rintro ⟨d, rfl⟩
    exact ⟨⟨d.x, d.signX, rfl⟩, ⟨d.y, d.signY, rfl⟩⟩

theorem InBox.onSegment {m : Mission} {p q w : Point ℝ} (hp : InBox m p) (hq : InBox m q) (hw : OnSegment w p q) :
    InBox m w := by
  obtain ⟨t, h0, h1, rfl⟩ := hw
  exact ⟨hp.1.between hq.1 h0 h1, hp.2.between hq.2 h0 h1⟩

/-! ### The nearest node -/

/-- No node is nearer to the sample. -/
theorem nearest_le (s : State) (r : Point ℝ) {node : Node} (h : node ∈ s.nodes) :
    dist (nearest s r).getPoint r ≤ dist node.getPoint r := by
  have key : ∀ (l : List Node) (nn : Node), ∀ p ∈ nn :: l,
      dist (l.foldl (fun nn p => if dist p.getPoint r < dist nn.getPoint r then p else nn) nn).getPoint r ≤
        dist p.getPoint r := by
    intro l
    induction l with
    | nil =>
        intro nn p hp
        rw [List.mem_singleton.mp hp]
        exact le_rfl
    | cons p₀ l ih =>
        intro nn p hp
        rw [List.foldl_cons]
        split
        · next hlt =>
            obtain rfl | hp := List.mem_cons.mp hp
            · exact (ih p₀ p₀ List.mem_cons_self).trans hlt.le
            · exact ih p₀ p hp
        · next hge =>
            obtain rfl | hp := List.mem_cons.mp hp
            · exact ih p p List.mem_cons_self
            · obtain rfl | hp := List.mem_cons.mp hp
              · exact (ih nn nn List.mem_cons_self).trans (not_lt.mp hge)
              · exact ih nn p (List.mem_cons_of_mem _ hp)
  exact key s.nodes _ node (List.mem_cons_of_mem _ h)

/-! ### Hops -/

/-- `Hops m n q`: the point is reached from the start in `n` hops not longer than `jump`, which end in the box and
outside of the obstacles. -/
inductive Hops (m : Mission) : ℕ → Point ℝ → Prop
  | start : Hops m 0 ⟨0, 0⟩
  | hop {n : ℕ} {p q : Point ℝ} (h : Hops m n p) (hnear : dist p q ≤ jump) (hbox : InBox m q)
      (hout : Outside m q) : Hops m (n + 1) q

theorem Hops.inBox {m : Mission} {n : ℕ} {p : Point ℝ} (h : Hops m n p) : InBox m p := by
  cases h with
  | start => exact ⟨Or.inr rfl, Or.inr rfl⟩
  | hop _ _ hbox _ => exact hbox

/-- Every node but the first one is reached in hops, not more than there are such nodes. -/
def Grown (m : Mission) (s : State) : Prop :=
  ∃ rest, s.nodes = .root ⟨0, 0⟩ 0 :: rest ∧
    ∀ node ∈ rest, ∃ n, 0 < n ∧ n ≤ rest.length ∧ Hops m n node.getPoint

theorem grown_start (m : Mission) : Grown m (start m) :=
  ⟨[], by simp [start], by simp⟩

theorem Grown.hops {m : Mission} {s : State} (h : Grown m s) {node : Node} (hnode : node ∈ s.nodes) :
    ∃ n, n < s.nodes.length ∧ Hops m n node.getPoint := by
  obtain ⟨rest, hnodes, hrest⟩ := h
  rw [hnodes] at hnode ⊢
  obtain rfl | hnode := List.mem_cons.mp hnode
  · exact ⟨0, by simp, Hops.start⟩
  · obtain ⟨n, _, hn, hhops⟩ := hrest node hnode
    exact ⟨n, by rw [List.length_cons]; omega, hhops⟩

/-- One pass makes one hop from the nearest node. -/
theorem grown_step {m : Mission} {s : State} (d : Draw) (h : Grown m s) : Grown m (step m s d) := by
  obtain ⟨t, -, hout, hnodes, -⟩ | ⟨-, hsame⟩ := step_cases m s d
  · obtain ⟨n, hn, hhops⟩ := h.hops (nearest_mem s (rand m d))
    obtain ⟨hnear, hseg, -⟩ := stepFromTo_spec (nearest s (rand m d)).getPoint (rand m d)
    have hnew : Hops m (n + 1) (newPoint m s d) :=
      hhops.hop hnear (hhops.inBox.onSegment (inBox_iff.mpr ⟨d, rfl⟩) hseg) hout
    obtain ⟨rest, hrest, hall⟩ := h
    refine ⟨rest ++ [.child (newPoint m s d) t (costThrough (newPoint m s d) t)], by rw [hnodes, hrest]; rfl, ?_⟩
    intro node hnode
    rw [List.length_append, List.length_singleton]
    rw [hrest, List.length_cons] at hn
    rw [List.mem_append, List.mem_singleton] at hnode
    obtain hnode | rfl := hnode
    · obtain ⟨k, hk, hle, hk'⟩ := hall node hnode
      exact ⟨k, hk, by omega, hk'⟩
    · exact ⟨n + 1, by omega, by omega, hnew⟩
  · rw [hsame]
    exact h

/-- A sample that is near a node and outside of the obstacles becomes a node. -/
theorem exists_draw {m : Mission} {s : State} {node : Node} {q : Point ℝ} (hnode : node ∈ s.nodes)
    (hnear : dist node.getPoint q ≤ jump) (hbox : InBox m q) (hout : Outside m q) :
    ∃ d t c, (step m s d).nodes = s.nodes ++ [.child q t c] := by
  obtain ⟨d, hd⟩ := inBox_iff.mp hbox
  have hnew : newPoint m s d = q := by
    have hle : dist (nearest s (rand m d)).getPoint (rand m d) ≤ jump := by
      refine (nearest_le s (rand m d) hnode).trans ?_
      rw [hd]
      exact hnear
    rw [newPoint, (stepFromTo_spec _ _).2.2 hle, hd]
  obtain ⟨t, -, -, hnodes, -⟩ | ⟨hno, -⟩ := step_cases m s d
  · rw [hnew] at hnodes
    exact ⟨d, t, _, hnodes⟩
  · rw [hnew] at hno
    exact absurd hout hno

theorem exists_run_of_hops {m : Mission} {n : ℕ} {q : Point ℝ} (h : Hops m n q) : ∃ ds s, ds.length = n ∧
    run (grow m) (start m) ds = some s ∧ (∃ node ∈ s.nodes, node.getPoint = q) ∧
    (0 < n → ∃ node ∈ s.nodes.tail, node.getPoint = q) := by
  induction h with
  | start =>
      refine ⟨[], start m, rfl, rfl, ⟨.root ⟨0, 0⟩ 0, by simp [start], rfl⟩, ?_⟩
      intro h
      omega
  | @hop n p q _ hnear hbox hout ih =>
      obtain ⟨ds, s, hlen, hrun, ⟨node, hnode, rfl⟩, -⟩ := ih
      obtain ⟨d, t, c, hnodes⟩ := exists_draw hnode hnear hbox hout
      have htail : (step m s d).nodes.tail = s.nodes.tail ++ [.child q t c] := by
        rw [hnodes, List.tail_append_of_ne_nil s.nodes_ne]
      refine ⟨ds ++ [d], step m s d, by rw [List.length_append, hlen]; rfl, ?_, ?_, ?_⟩
      · rw [run_append_some hrun]
        rfl
      · exact ⟨.child q t c, by rw [hnodes]; simp, rfl⟩
      · intro _
        exact ⟨.child q t c, by rw [htail]; simp, rfl⟩

/-! ### Finding the goal -/

/-- `NUMNODES`. -/
def numNodes : ℕ := 10000

/-- Some values of `random.random()` make the loop add a node near the goal. -/
def FindsGoal (m : Mission) : Prop :=
  ∃ ds s, ds.length ≤ numNodes ∧ run (grow m) (start m) ds = some s ∧
    ∃ node ∈ s.nodes.tail, dist node.getPoint (m.scale m.goalPoint) < 10

/-- Some hops lead near the goal. -/
def Hoppable (m : Mission) : Prop :=
  ∃ n q, 0 < n ∧ n ≤ numNodes ∧ Hops m n q ∧ dist q (m.scale m.goalPoint) < 10

theorem length_nodes_run {m : Mission} {s s' : State} {ds : List Draw} (h : run (grow m) s ds = some s') :
    s'.nodes.length ≤ s.nodes.length + ds.length := by
  induction ds generalizing s with
  | nil =>
      cases h
      exact le_rfl
  | cons d ds ih =>
      have hle := ih (s := step m s d) h
      have hstep : (step m s d).nodes.length ≤ s.nodes.length + 1 := by
        obtain ⟨t, -, -, hnodes, -⟩ | ⟨-, hsame⟩ := step_cases m s d
        · rw [hnodes, List.length_append]
          rfl
        · rw [hsame]
          omega
      rw [List.length_cons]
      omega

/-- The loop can find the goal exactly when hops lead there. -/
theorem findsGoal_iff_hoppable (m : Mission) : FindsGoal m ↔ Hoppable m := by
  constructor
  · rintro ⟨ds, s, hlen, hrun, node, hnode, hgoal⟩
    have hgrown : Grown m s :=
      run_invariant (fun s d s' hs h => by cases hs; exact grown_step d h) (grown_start m) hrun
    have hcount := length_nodes_run hrun
    obtain ⟨rest, hnodes, hrest⟩ := hgrown
    rw [hnodes] at hnode hcount
    obtain ⟨n, hpos, hle, hhops⟩ := hrest node hnode
    have hone : (start m).nodes.length = 1 := rfl
    rw [List.length_cons, hone] at hcount
    exact ⟨n, node.getPoint, hpos, by omega, hhops, hgoal⟩
  · rintro ⟨n, q, hpos, hle, hhops, hgoal⟩
    obtain ⟨ds, s, hlen, hrun, -, htail⟩ := exists_run_of_hops hhops
    obtain ⟨node, hnode, rfl⟩ := htail hpos
    exact ⟨ds, s, hlen.trans_le hle, hrun, node, hnode, hgoal⟩

/-! ### Clear paths -/

/-- The point of a complex number. -/
def ofComplex (z : ℂ) : Point ℝ := ⟨z.re, z.im⟩

theorem dist_ofComplex (z w : ℂ) : dist (ofComplex z) (ofComplex w) = Dist.dist z w := by
  rw [Complex.dist_eq_re_im, dist, ofComplex, ofComplex, sq, sq]

/-- A path from the start to the goal in the plane of the tree: it is at most 10000 units long, keeps 20 units from
the obstacles, and does not lead farther away from the start than the goal. -/
structure ClearPath (m : Mission) (γ : ℝ → ℂ) : Prop where
  continuousOn : ContinuousOn γ (Set.Icc 0 1)
  start : ofComplex (γ 0) = m.scale m.initPoint
  goal : ofComplex (γ 1) = m.scale m.goalPoint
  length : eVariationOn γ (Set.Icc 0 1) ≤ ENNReal.ofReal 10000
  near : ∀ t ∈ Set.Icc (0 : ℝ) 1,
    dist (m.scale m.initPoint) (ofComplex (γ t)) ≤ dist (m.scale m.initPoint) (m.scale m.goalPoint)
  clear : ∀ t ∈ Set.Icc (0 : ℝ) 1, ∀ poly ∈ m.polys, ∀ q,
    OnBoundary q poly.vertices ∨ Inside q poly.vertices → 20 ≤ dist (ofComplex (γ t)) q

theorem dist_self_eq (p : Point ℝ) : dist p p = 0 := by
  simp [dist]

theorem ClearPath.outside {m : Mission} {γ : ℝ → ℂ} (h : ClearPath m γ) {t : ℝ} (ht : t ∈ Set.Icc (0 : ℝ) 1) :
    Outside m (ofComplex (γ t)) := by
  intro poly hpoly
  have hno : ¬ (OnBoundary (ofComplex (γ t)) poly.vertices ∨ Inside (ofComplex (γ t)) poly.vertices) := by
    intro hin
    have hle := h.clear t ht poly hpoly _ hin
    rw [dist_self_eq] at hle
    norm_num at hle
  rw [not_or] at hno
  exact (notColides_iff hno.1).mpr hno.2

/-- A clear path in the box is walked in hops. -/
theorem hoppable_of_inBox {m : Mission} {γ : ℝ → ℂ} (h : ClearPath m γ)
    (hbox : ∀ t ∈ Set.Icc (0 : ℝ) 1, InBox m (ofComplex (γ t))) : Hoppable m := by
  have hlen : eVariationOn γ (Set.Icc 0 1) ≤ ENNReal.ofReal ((667 : ℕ) * jump) :=
    h.length.trans (ENNReal.ofReal_le_ofReal (by norm_num [jump]))
  have hstart : Hops m 0 (ofComplex (γ 0)) := by
    rw [h.start, scale_initPoint]
    exact Hops.start
  obtain ⟨n, hpos, hle, hhops⟩ := Curves.walk (P := fun k z => Hops m k (ofComplex z)) (by norm_num [jump]) 667
    zero_le_one h.continuousOn hlen (fun k s _ t ht hs hst =>
      Hops.hop hs (by rw [dist_ofComplex]; exact hst) (hbox t ht) (h.outside ht)) hstart
  refine ⟨n, ofComplex (γ 1), hpos, ?_, hhops, ?_⟩
  · unfold numNodes
    omega
  · rw [h.goal, dist_self_eq]
    norm_num

/-- **Reachability.**  A mission with a clear path has samples that lead to the goal exactly when hops in the box
lead there. -/
theorem findsGoal_iff (m : Mission) :
    ((∃ γ, ClearPath m γ) → FindsGoal m) ↔ ((∃ γ, ClearPath m γ) → Hoppable m) := by
  rw [findsGoal_iff_hoppable]

/-- **Reachability in the box.**  Some samples lead along a clear path that stays in the box. -/
theorem findsGoal_of_inBox {m : Mission} {γ : ℝ → ℂ} (h : ClearPath m γ)
    (hbox : ∀ t ∈ Set.Icc (0 : ℝ) 1, InBox m (ofComplex (γ t))) : FindsGoal m :=
  (findsGoal_iff_hoppable m).mpr (hoppable_of_inBox h hbox)

/-! ### A goal straight behind a wall -/

/-- A point of an obstacle has an edge to its right. -/
theorem exists_edge_right {q : Point ℝ} {vs : List (Point ℝ)} (h : OnBoundary q vs ∨ Inside q vs) :
    ∃ e ∈ edges vs, ∃ x, q.x ≤ x ∧ OnSegment ⟨x, q.y⟩ e.1 e.2 := by
  obtain ⟨e, he, hon⟩ | hin := h
  · exact ⟨e, he, q.x, le_rfl, hon⟩
  · have hpos : 0 < (edges vs).countP (fun e => crosses q e.1 e.2) := Odd.pos hin
    obtain ⟨e, he, hcross⟩ := List.countP_pos_iff.mp hpos
    unfold crosses at hcross
    rw [Bool.and_eq_true, decide_eq_true_eq] at hcross
    exact ⟨e, he, _, hcross.2.le, onSegment_intercept hcross.1⟩

noncomputable section

def wall : SimplePolygon ℝ where
  vertices := [⟨-240, 720⟩, ⟨240, 720⟩, ⟨0, 1040⟩]
  three_le := by simp
  nodup := by norm_num
  simple := simple_triangle (by norm_num [det])

def wallMission : Mission where
  initPoint := ⟨0, 0⟩
  goalPoint := ⟨0, 1600⟩
  obstacles := [wall]

/-- To the north-east, and back to the north-west. -/
def detour (t : ℝ) : ℂ := ⟨min (200 * t) (200 - 200 * t), 200 * t⟩

end

theorem polys_wallMission : wallMission.polys.map Poly.vertices = [[⟨-30, 90⟩, ⟨30, 90⟩, ⟨0, 130⟩]] := by
  norm_num [Mission.polys, wallMission, wall, Mission.scale, sizeX, sizeY]

theorem vertices_wallMission {poly : Poly} (h : poly ∈ wallMission.polys) :
    poly.vertices = [⟨-30, 90⟩, ⟨30, 90⟩, ⟨0, 130⟩] := by
  have hv : poly.vertices ∈ wallMission.polys.map Poly.vertices := List.mem_map_of_mem h
  rwa [polys_wallMission, List.mem_singleton] at hv

/-- The wall lies to the left of 30 and between 90 and 130. -/
theorem bounds_wallMission {poly : Poly} (h : poly ∈ wallMission.polys) {q : Point ℝ}
    (hq : OnBoundary q poly.vertices ∨ Inside q poly.vertices) : q.x ≤ 30 ∧ 90 ≤ q.y ∧ q.y ≤ 130 := by
  obtain ⟨e, he, x, hx, hon⟩ := exists_edge_right hq
  rw [vertices_wallMission h, edges_triangle] at he
  have hbounds : e.1.x ≤ 30 ∧ e.2.x ≤ 30 ∧ 90 ≤ e.1.y ∧ 90 ≤ e.2.y ∧ e.1.y ≤ 130 ∧ e.2.y ≤ 130 := by
    simp only [List.mem_cons, List.not_mem_nil, or_false] at he
    obtain rfl | rfl | rfl := he <;> norm_num
  obtain ⟨h1, h2, h3, h4, h5, h6⟩ := hbounds
  exact ⟨hx.trans (hon.le_max_x.trans (max_le h1 h2)), (le_min h3 h4).trans hon.min_y_le,
    hon.le_max_y.trans (max_le h5 h6)⟩

theorem goal_wallMission : wallMission.scale wallMission.goalPoint = ⟨0, 200⟩ := by
  ext
  · norm_num [wallMission, Mission.scale]
  · norm_num [wallMission, Mission.scale, sizeY]

theorem lipschitz_detour : LipschitzWith 400 detour := by
  refine LipschitzWith.of_dist_le_mul (fun s t => ?_)
  have hre : |(detour s - detour t).re| ≤ 200 * |s - t| := by
    have hmin := abs_min_sub_min_le_max (200 * s) (200 - 200 * s) (200 * t) (200 - 200 * t)
    have hup : 200 * s - 200 * t = 200 * (s - t) := by ring
    have hdown : 200 - 200 * s - (200 - 200 * t) = -(200 * (s - t)) := by ring
    rw [hup, hdown, abs_neg, max_self, abs_mul, abs_of_pos (by norm_num : (0 : ℝ) < 200)] at hmin
    exact hmin
  have him : |(detour s - detour t).im| = 200 * |s - t| := by
    have hdiff : (detour s - detour t).im = 200 * (s - t) := by
      rw [Complex.sub_im, detour, detour]
      ring
    rw [hdiff, abs_mul, abs_of_pos (by norm_num : (0 : ℝ) < 200)]
  have hnorm := Complex.norm_le_abs_re_add_abs_im (detour s - detour t)
  rw [Complex.dist_eq, Real.dist_eq, NNReal.coe_ofNat]
  linarith

theorem length_le_of_lipschitz {K : NNReal} {γ : ℝ → ℂ} (h : LipschitzWith K γ) (hK : K ≤ 10000) :
    eVariationOn γ (Set.Icc 0 1) ≤ ENNReal.ofReal 10000 := by
  have hcomp := (h.lipschitzOnWith (s := Set.univ)).comp_eVariationOn_le (Set.mapsTo_univ id (Set.Icc (0 : ℝ) 1))
  rw [eVariationOn_id_Icc, Function.comp_id] at hcomp
  refine hcomp.trans ?_
  rw [sub_zero, ENNReal.ofReal_one, mul_one, ENNReal.ofReal_ofNat]
  exact_mod_cast hK

theorem clear_detour {t : ℝ} {q : Point ℝ} (hx : q.x ≤ 30) (hy : 90 ≤ q.y)
    (hy' : q.y ≤ 130) : 20 ≤ dist (ofComplex (detour t)) q := by
  rw [dist]
  apply Real.le_sqrt_of_sq_le
  dsimp only [ofComplex, detour]
  by_cases hlow : 200 * t ≤ 70
  · nlinarith [mul_self_nonneg (min (200 * t) (200 - 200 * t) - q.x)]
  · by_cases hhigh : 150 ≤ 200 * t
    · nlinarith [mul_self_nonneg (min (200 * t) (200 - 200 * t) - q.x)]
    · have hmin : 50 ≤ min (200 * t) (200 - 200 * t) := le_min (by linarith) (by linarith)
      nlinarith [mul_self_nonneg (200 * t - q.y)]

theorem clearPath_detour : ClearPath wallMission detour where
  continuousOn := lipschitz_detour.continuous.continuousOn
  start := by
    rw [scale_initPoint]
    ext <;> norm_num [ofComplex, detour]
  goal := by
    rw [goal_wallMission]
    ext <;> norm_num [ofComplex, detour]
  length := length_le_of_lipschitz lipschitz_detour (by norm_num)
  near := by
    intro t ht
    have hmin : min (200 * t) (200 - 200 * t) ≤ 200 - 200 * t := min_le_right _ _
    have hmin0 : 0 ≤ min (200 * t) (200 - 200 * t) := le_min (by linarith [ht.1]) (by linarith [ht.2])
    rw [scale_initPoint, goal_wallMission, dist, dist]
    apply Real.sqrt_le_sqrt
    dsimp only [ofComplex, detour]
    nlinarith [ht.1, ht.2, mul_self_le_mul_self hmin0 hmin]
  clear := by
    intro t _ poly hpoly q hq
    obtain ⟨hx, hy, hy'⟩ := bounds_wallMission hpoly hq
    exact clear_detour hx hy hy'

theorem not_outside_wallMission {y : ℝ} (h : 90 < y) (h' : y < 130) : ¬ Outside wallMission ⟨0, y⟩ := by
  intro hout
  obtain ⟨poly, hpoly⟩ : ∃ poly, poly ∈ wallMission.polys := List.exists_mem_of_ne_nil _ (by simp [Mission.polys, wallMission])
  have hv := vertices_wallMission hpoly
  have hno : ¬ OnBoundary ⟨0, y⟩ poly.vertices := by
    rw [hv]
    rintro ⟨e, he, hon⟩
    have hdet := hon.det_eq_zero
    rw [edges_triangle] at he
    simp only [List.mem_cons, List.not_mem_nil, or_false] at he
    obtain rfl | rfl | rfl := he <;> simp only [det] at hdet <;> linarith
  have hin : Inside ⟨0, y⟩ poly.vertices := by
    rw [hv]
    have h1 : crosses ⟨0, y⟩ (⟨-30, 90⟩ : Point ℝ) ⟨30, 90⟩ = false := by
      simp [crosses, h.le]
    have h2 : crosses ⟨0, y⟩ (⟨30, 90⟩ : Point ℝ) ⟨0, 130⟩ = true := by
      have hright : 0 < intercept (⟨30, 90⟩ : Point ℝ) ⟨0, 130⟩ y := by
        norm_num [intercept]
        linarith
      simp [crosses, h.le, h'.not_ge, hright]
    have h3 : crosses ⟨0, y⟩ (⟨0, 130⟩ : Point ℝ) ⟨-30, 90⟩ = false := by
      have hleft : ¬ 0 < intercept (⟨0, 130⟩ : Point ℝ) ⟨-30, 90⟩ y := by
        norm_num [intercept]
        linarith
      simp [crosses, h.le, h'.not_ge, hleft]
    simp [Inside, edges_triangle, h1, h2, h3]
  exact (notColides_iff hno).mp (hout poly hpoly) hin

/-- Hops stay on the line to the goal, in front of the wall. -/
theorem Hops.wallMission {n : ℕ} {q : Point ℝ} (h : Hops wallMission n q) : q.x = 0 ∧ q.y ≤ 90 := by
  induction h with
  | start => exact ⟨rfl, by norm_num⟩
  | @hop n p q _ hnear hbox hout ih =>
      obtain ⟨px, py⟩ := p
      obtain ⟨qx, qy⟩ := q
      obtain ⟨hpx, hpy⟩ := ih
      have hqx : qx = 0 := by
        have hspan := hbox.1
        rw [goal_wallMission] at hspan
        obtain hlt | hzero := hspan
        · rw [abs_zero, mul_zero] at hlt
          exact absurd (abs_nonneg _) (not_le.mpr hlt)
        · exact hzero
      dsimp only at hpx hpy
      subst hqx hpx
      refine ⟨rfl, ?_⟩
      by_contra hgt
      rw [dist, jump, Real.sqrt_le_iff] at hnear
      refine not_outside_wallMission (not_le.mp hgt) ?_ hout
      nlinarith [hnear.2]

/-- The samples for a goal straight to the north are on a line, and a wall across it is not passed. -/
theorem findsGoal_fails : ¬ ∀ m, (∃ γ, ClearPath m γ) → FindsGoal m := by
  intro h
  obtain ⟨n, q, -, -, hhops, hgoal⟩ := (findsGoal_iff_hoppable wallMission).mp (h wallMission ⟨detour, clearPath_detour⟩)
  obtain ⟨hx, hy⟩ := hhops.wallMission
  rw [goal_wallMission, dist, Real.sqrt_lt' (by norm_num)] at hgoal
  nlinarith [mul_self_nonneg (q.x - 0)]

/-! ### A goal beside the wall -/

noncomputable section

def besideWall : Mission := { wallMission with goalPoint := ⟨1200, 1600⟩ }

def straight (t : ℝ) : ℂ := ⟨150 * t, 200 * t⟩

end

theorem goal_besideWall : besideWall.scale besideWall.goalPoint = ⟨150, 200⟩ := by
  ext
  · norm_num [besideWall, wallMission, Mission.scale, sizeX]
  · norm_num [besideWall, wallMission, Mission.scale, sizeY]

theorem lipschitz_straight : LipschitzWith 350 straight := by
  refine LipschitzWith.of_dist_le_mul (fun s t => ?_)
  have hre : (straight s - straight t).re = 150 * (s - t) := by
    rw [Complex.sub_re, straight, straight]
    ring
  have him : (straight s - straight t).im = 200 * (s - t) := by
    rw [Complex.sub_im, straight, straight]
    ring
  have hnorm := Complex.norm_le_abs_re_add_abs_im (straight s - straight t)
  rw [hre, him, abs_mul, abs_mul, abs_of_pos (by norm_num : (0 : ℝ) < 150),
    abs_of_pos (by norm_num : (0 : ℝ) < 200)] at hnorm
  rw [Complex.dist_eq, Real.dist_eq, NNReal.coe_ofNat]
  linarith

theorem clear_straight {t : ℝ} {q : Point ℝ} (hx : q.x ≤ 30) (hy : 90 ≤ q.y) :
    20 ≤ dist (ofComplex (straight t)) q := by
  rw [dist]
  apply Real.le_sqrt_of_sq_le
  dsimp only [ofComplex, straight]
  by_cases hlow : 200 * t ≤ 70
  · nlinarith [mul_self_nonneg (150 * t - q.x)]
  · nlinarith [mul_self_nonneg (200 * t - q.y)]

theorem clearPath_straight : ClearPath besideWall straight where
  continuousOn := lipschitz_straight.continuous.continuousOn
  start := by
    rw [scale_initPoint]
    ext <;> norm_num [ofComplex, straight]
  goal := by
    rw [goal_besideWall]
    ext <;> norm_num [ofComplex, straight]
  length := length_le_of_lipschitz lipschitz_straight (by norm_num)
  near := by
    intro t ht
    have hsq : t * t ≤ 1 := mul_le_one₀ ht.2 ht.1 ht.2
    rw [scale_initPoint, goal_besideWall, dist, dist]
    apply Real.sqrt_le_sqrt
    dsimp only [ofComplex, straight]
    nlinarith
  clear := by
    intro t _ poly hpoly q hq
    obtain ⟨hx, hy, _⟩ := bounds_wallMission hpoly hq
    exact clear_straight hx hy

theorem findsGoal_besideWall : FindsGoal besideWall := by
  refine findsGoal_of_inBox clearPath_straight (fun t ht => ?_)
  have habs : |t| ≤ 1 := abs_le.mpr ⟨by linarith [ht.1], ht.2⟩
  rw [InBox, goal_besideWall]
  dsimp only [ofComplex, straight]
  constructor <;> left <;> rw [abs_mul] <;> norm_num <;> linarith

end DroneArch.Rrt
