import Mathlib.Analysis.SpecialFunctions.Complex.Arg
import DroneArch.Lists
import DroneArch.Runs
import DroneArch.SimplePolygon

/-! # The growth loop of RRT*

`main` of `rrt_star.py`, in exact arithmetic: start, goal and obstacles are moved and scaled, and
each pass of the loop draws a sample, steps from the nearest node towards it, chooses the parent
that is reached at the lowest cost, and keeps the new node if the point test `notColides` holds
for every obstacle.  The nodes of the tree are values: a node is not changed after it was
appended.

* `notColides_iff`: off the boundary, the point test is the even-odd rule.
* `chooseParent_spec`: what the loop over the nodes leaves as the parent.
* `step_cases`: what one pass can do. -/

namespace DroneArch.Rrt

open Planar

noncomputable section

/-! ### Nodes -/

def sizeX : ℝ := 8
def sizeY : ℝ := 8
def jump : ℝ := 15
def neighborhood : ℝ := 10

/-- A node of the tree; the first one has no parent. -/
inductive Node
  | root (point : Point ℝ) (cost : ℝ)
  | child (point : Point ℝ) (parent : Node) (cost : ℝ)

namespace Node

def getPoint : Node → Point ℝ
  | root point _ => point
  | child point _ _ => point

def getParent : Node → Option Node
  | root _ _ => none
  | child _ parent _ => some parent

def setParent : Node → Node → Node
  | root point cost, newparent => child point newparent cost
  | child point _ cost, newparent => child point newparent cost

def getCost : Node → ℝ
  | root _ cost => cost
  | child _ _ cost => cost

def setCost : Node → ℝ → Node
  | root point _, newcost => root point newcost
  | child point parent _, newcost => child point parent newcost

@[simp] theorem getPoint_child (p : Point ℝ) (t : Node) (c : ℝ) : (child p t c).getPoint = p := rfl
@[simp] theorem getPoint_root (p : Point ℝ) (c : ℝ) : (root p c).getPoint = p := rfl

end Node

/-! ### The functions of the script -/

/-- Distance between two points. -/
def dist (p1 p2 : Point ℝ) : ℝ :=
  Real.sqrt ((p1.x - p2.x) * (p1.x - p2.x) + (p1.y - p2.y) * (p1.y - p2.y))

/-- Jump from `p1` to `p2`. -/
def stepFromTo (p1 p2 : Point ℝ) : Point ℝ :=
  if dist p1 p2 < jump then p2
  else
    let theta := Complex.arg ⟨p2.x - p1.x, p2.y - p1.y⟩
    ⟨p1.x + jump * Real.cos theta, p1.y + jump * Real.sin theta⟩

/-- Returns 1 or -1. -/
def posNeg (aleatorio : ℝ) : ℝ := if aleatorio ≥ 1 / 2 then 1 else -1

/-- The vertices of an obstacle; `poly[0]` needs one. -/
structure Poly where
  vertices : List (Point ℝ)
  ne_nil : vertices ≠ []

/-- `poly[i % n]`. -/
def Poly.at (poly : Poly) (i : ℕ) : Point ℝ :=
  poly.vertices.get ⟨i % poly.vertices.length, Nat.mod_lt i (List.length_pos_iff.mpr poly.ne_nil)⟩

/-- The variables of the loop of `not_colides`; `xints` is unbound at first. -/
structure Scan where
  inside : Bool
  p1 : Point ℝ
  xints : Option ℝ

/-- One pass of the loop of `not_colides`. -/
def scan (x y : ℝ) (s : Scan) (p2 : Point ℝ) : Scan :=
  let p1 := s.p1
  if y > min p1.y p2.y ∧ y ≤ max p1.y p2.y ∧ x ≤ max p1.x p2.x then
    let xints := if p1.y ≠ p2.y then some ((y - p1.y) * (p2.x - p1.x) / (p2.y - p1.y) + p1.x) else s.xints
    if p1.x = p2.x ∨ ∃ xi ∈ xints, x ≤ xi then ⟨!s.inside, p2, xints⟩ else ⟨s.inside, p2, xints⟩
  else ⟨s.inside, p2, s.xints⟩

/-- Verify if the point `(x, y)` is outside the obstacle. -/
def notColides (x y : ℝ) (poly : Poly) : Bool :=
  let n := poly.vertices.length
  ((List.range (n + 1)).foldl (fun s i => scan x y s (poly.at i)) ⟨true, poly.at 0, none⟩).inside

/-! ### The loop -/

/-- The arguments of the script, after `to_cartesian`. -/
structure Mission where
  initPoint : Point ℝ
  goalPoint : Point ℝ
  obstacles : List (SimplePolygon ℝ)

namespace Mission

variable (m : Mission)

/-- Into the plane of the tree. -/
def scale (p : Point ℝ) : Point ℝ := ⟨(p.x - m.initPoint.x) / sizeX, (p.y - m.initPoint.y) / sizeY⟩

/-- Out of the plane of the tree. -/
def unscale (p : Point ℝ) : Point ℝ := ⟨p.x * sizeX + m.initPoint.x, p.y * sizeY + m.initPoint.y⟩

/-- The scaled obstacles. -/
def polys : List Poly :=
  m.obstacles.map (fun P => ⟨P.vertices.map m.scale, by
    have hlen := P.three_le
    rw [ne_eq, List.map_eq_nil_iff, ← List.length_eq_zero_iff]
    omega⟩)

end Mission

/-- The values of `random.random()` in one pass of the loop. -/
structure Draw where
  x : Set.Ico (0 : ℝ) 1
  signX : Set.Ico (0 : ℝ) 1
  y : Set.Ico (0 : ℝ) 1
  signY : Set.Ico (0 : ℝ) 1

theorem half_mem_Ico : (1 / 2 : ℝ) ∈ Set.Ico (0 : ℝ) 1 := by norm_num

structure State where
  nodes : List Node
  nodes_ne : nodes ≠ []
  bestNode : Node

/-- Before the loop. -/
def start (m : Mission) : State where
  nodes := [.root (m.scale m.initPoint) 0]
  nodes_ne := by simp
  bestNode := .root ⟨0, 0⟩ 9999999

/-- The sample. -/
def rand (m : Mission) (d : Draw) : Point ℝ :=
  let goalPoint := m.scale m.goalPoint
  ⟨d.x * 2 * goalPoint.x * posNeg d.signX, d.y * 2 * goalPoint.y * posNeg d.signY⟩

/-- The node nearest to the sample. -/
def nearest (s : State) (r : Point ℝ) : Node :=
  s.nodes.foldl (fun nn p => if dist p.getPoint r < dist nn.getPoint r then p else nn) (s.nodes.head s.nodes_ne)

/-- The new node, with the parent that the loop over the nodes leaves. -/
def chooseParent (nodes : List Node) (nn : Node) (newnode : Point ℝ) : Node :=
  nodes.foldl (fun node1 t =>
    if dist t.getPoint node1.getPoint < neighborhood ∧ node1.getCost > t.getCost + dist node1.getPoint t.getPoint then
      (node1.setParent t).setCost (t.getCost + dist node1.getPoint t.getPoint)
    else node1) (.child newnode nn (nn.getCost + dist newnode nn.getPoint))

/-- The point a pass steps to. -/
def newPoint (m : Mission) (s : State) (d : Draw) : Point ℝ :=
  stepFromTo (nearest s (rand m d)).getPoint (rand m d)

/-- The node a pass tries to append. -/
def newNode (m : Mission) (s : State) (d : Draw) : Node :=
  chooseParent s.nodes (nearest s (rand m d)) (newPoint m s d)

/-- Append a node, and keep it as the best one if it is near the goal and cheaper. -/
def keep (m : Mission) (s : State) (node1 : Node) : State where
  nodes := s.nodes ++ [node1]
  nodes_ne := by simp
  bestNode :=
    if dist node1.getPoint (m.scale m.goalPoint) < 10 then
      if node1.getCost < s.bestNode.getCost then node1 else s.bestNode
    else s.bestNode

/-- One pass of the loop, without the clock. -/
def step (m : Mission) (s : State) (d : Draw) : State :=
  let node1 := newNode m s d
  let colision := m.polys.countP (notColides node1.getPoint.x node1.getPoint.y)
  if colision ≥ m.polys.length then keep m s node1 else s

/-- The growth loop as a system whose events are the draws. -/
def grow (m : Mission) (s : State) (d : Draw) : Option State := some (step m s d)

/-! ### The route -/

/-- The lines that the output loop collects from a node to the root, as points, and the goal. -/
def linhas (m : Mission) : Node → List (Point ℝ)
  | .root _ _ => [m.goalPoint]
  | .child point parent _ => m.unscale point :: linhas m parent

/-- The waypoints in the order of the file. -/
def route (m : Mission) (bestNode : Node) : List (Point ℝ) :=
  let l := linhas m bestNode
  (List.range' 1 (l.length - 1)).map (fun w => l.getD (l.length - 1 - w) m.goalPoint)

/-! ### The point test -/

/-- The edge flips the result. -/
def flips (x y : ℝ) (u v : Point ℝ) : Bool :=
  decide (y > min u.y v.y ∧ y ≤ max u.y v.y ∧ x ≤ max u.x v.x ∧ (u.x = v.x ∨ x ≤ intercept u v y))

/-- One pass reads no `xints` but the one it has just computed. -/
theorem scan_spec (x y : ℝ) (s : Scan) (p2 : Point ℝ) :
    (scan x y s p2).inside = (s.inside ^^ flips x y s.p1 p2) ∧ (scan x y s p2).p1 = p2 := by
  unfold scan flips
  by_cases hin : y > min s.p1.y p2.y ∧ y ≤ max s.p1.y p2.y ∧ x ≤ max s.p1.x p2.x
  · have hne : s.p1.y ≠ p2.y := by
      intro he
      have h1 := hin.1
      have h2 := hin.2.1
      rw [he, min_self] at h1
      rw [he, max_self] at h2
      linarith
    have hint : (y - s.p1.y) * (p2.x - s.p1.x) / (p2.y - s.p1.y) + s.p1.x = intercept s.p1 p2 y := by
      unfold intercept
      ring
    simp only [hin, hne, if_true, ne_eq, not_false_eq_true, Option.mem_def, Option.some.injEq, exists_eq_left', hint,
      true_and]
    split <;> rename_i h <;> simp [h]
  · have hno : ¬ (y > min s.p1.y p2.y ∧ y ≤ max s.p1.y p2.y ∧ x ≤ max s.p1.x p2.x ∧
        (s.p1.x = p2.x ∨ x ≤ intercept s.p1 p2 y)) := fun h => hin ⟨h.1, h.2.1, h.2.2.1⟩
    rw [if_neg hin, decide_eq_false hno, Bool.xor_false]
    exact ⟨rfl, rfl⟩

theorem foldl_scan (x y : ℝ) (l : List (Point ℝ)) (s : Scan) : (l.foldl (scan x y) s).inside =
    (s.inside ^^ decide (Odd (((s.p1 :: l).zip l).countP (fun e => flips x y e.1 e.2)))) := by
  induction l generalizing s with
  | nil => simp
  | cons p2 l ih =>
      obtain ⟨hin, hp⟩ := scan_spec x y s p2
      rw [List.foldl_cons, ih, hin, hp, List.zip_cons_cons, List.countP_cons, Bool.xor_assoc]
      congr 1
      cases flips x y s.p1 p2
      · simp
      · simp only [if_true, Nat.odd_add_one, Bool.true_xor, decide_not]

theorem Poly.map_at_range (poly : Poly) :
    (List.range (poly.vertices.length + 1)).map poly.at = poly.vertices ++ [poly.vertices.head poly.ne_nil] := by
  rw [List.range_succ, List.map_append, List.map_singleton]
  congr 1
  · refine List.ext_getElem (by simp) (fun i h1 h2 => ?_)
    simp [Poly.at, Nat.mod_eq_of_lt h2]
  · simp [Poly.at, List.head_eq_getElem]

theorem flips_level {x y : ℝ} {u v : Point ℝ} (h : u.y = v.y) : flips x y u v = false := by
  unfold flips
  rw [decide_eq_false_iff_not, h, min_self, max_self]
  rintro ⟨h1, h2, -⟩
  linarith

theorem flips_comm (x y : ℝ) (u v : Point ℝ) : flips x y u v = flips x y v u := by
  by_cases h : u.y = v.y
  · rw [flips_level h, flips_level h.symm]
  · unfold flips
    rw [decide_eq_decide, min_comm, max_comm u.y, max_comm u.x, intercept_comm h, eq_comm (a := u.x)]

/-- The test counts the edges that flip it. -/
theorem notColides_eq (x y : ℝ) (poly : Poly) :
    notColides x y poly = !decide (Odd ((edges poly.vertices).countP (fun e => flips x y e.1 e.2))) := by
  have h0 : poly.at 0 = poly.vertices.head poly.ne_nil := by simp [Poly.at, List.head_eq_getElem]
  have hmap : (List.range (poly.vertices.length + 1)).foldl (fun s i => scan x y s (poly.at i)) ⟨true, poly.at 0, none⟩ =
      (poly.vertices ++ [poly.vertices.head poly.ne_nil]).foldl (scan x y) ⟨true, poly.vertices.head poly.ne_nil, none⟩ := by
    rw [← poly.map_at_range, List.foldl_map, h0]
  simp only [notColides, hmap, foldl_scan, Bool.true_xor]
  obtain ⟨vs, hne⟩ := poly
  cases vs with
  | nil => exact absurd rfl hne
  | cons v t =>
      have hzip : (v :: t ++ [v]).zip (t ++ [v]) = (v :: t).zip (t ++ [v]) := by
        conv_lhs => rw [← List.append_nil (t ++ [v])]
        rw [List.zip_append (by simp)]
        simp
      rw [edges_cons, List.head_cons, List.cons_append, List.zip_cons_cons, List.countP_cons, ← List.cons_append,
        hzip, flips_level rfl]
      simp

/-- Off the edge, the test takes the upper end where the even-odd rule takes the lower one. -/
theorem flips_xor_crosses {p u v : Point ℝ} (h : ¬ OnSegment p u v) :
    (flips p.x p.y u v ^^ crosses p u v) =
      (decide (u.y = p.y ∧ p.x < u.x) ^^ decide (v.y = p.y ∧ p.x < v.x)) := by
  wlog huv : u.y ≤ v.y generalizing u v with hsymm
  · rw [flips_comm, crosses_comm, Bool.xor_comm (decide (u.y = p.y ∧ p.x < u.x))]
    exact hsymm (fun hon => h hon.symm) (le_of_not_ge huv)
  rcases eq_or_lt_of_le huv with he | hlt
  · -- a level edge is not crossed
    have hcross : crosses p u v = false := by
      unfold crosses
      rw [he, Bool.xor_self, Bool.false_and]
    rw [flips_level he, hcross, he]
    by_cases hy : v.y = p.y
    · have hside : p.x < u.x ↔ p.x < v.x := by
        constructor
        · intro h1
          by_contra h2
          exact h (onSegment_level (he.trans hy) hy (Or.inr ⟨not_lt.mp h2, h1⟩))
        · intro h2
          by_contra h1
          exact h (onSegment_level (he.trans hy) hy (Or.inl ⟨not_lt.mp h1, h2⟩))
      simp [hy, hside]
    · simp [hy]
  · -- at the heights of the edge, the point is to its left or to its right
    have hside : u.y ≤ p.y → p.y ≤ v.y →
        (p.x ≤ max u.x v.x ∧ (u.x = v.x ∨ p.x ≤ intercept u v p.y) ↔ p.x < intercept u v p.y) := by
      intro h1 h2
      have hw : OnSegment ⟨intercept u v p.y, p.y⟩ u v := onSegment_at_height h1 h2 hlt
      have hne : p.x ≠ intercept u v p.y := by
        intro hx
        exact h (by rwa [← hx] at hw)
      constructor
      · rintro ⟨hmax, hx | hx⟩
        · have hmin := hw.min_x_le
          rw [hx, min_self] at hmin
          rw [hx, max_self] at hmax
          exact lt_of_le_of_ne (hmax.trans hmin) hne
        · exact lt_of_le_of_ne hx hne
      · exact fun hx => ⟨hx.le.trans hw.le_max_x, Or.inr hx.le⟩
    unfold flips crosses
    rw [min_eq_left hlt.le, max_eq_right hlt.le]
    rcases lt_trichotomy u.y p.y with h1 | h1 | h1
    · rcases lt_trichotomy p.y v.y with h2 | h2 | h2
      · simp only [gt_iff_lt, h1, h2.le, hside h1.le h2.le, true_and]
        simp [h1.le, h2.not_ge, h1.ne, h2.ne']
      · simp only [gt_iff_lt, h1, h2.le, hside h1.le h2.le, true_and]
        simp [h2, intercept_right hlt.ne, hlt.ne, hlt.le]
      · simp [h1, h1.le, h2.le, h2.not_ge, h1.ne, h2.ne]
    · simp [← h1, hlt.not_ge, hlt.ne']
    · simp [h1.not_ge, h1.not_gt, (h1.trans hlt).not_ge, h1.ne', (h1.trans hlt).ne']

/-- Off the boundary, the point test is the even-odd rule. -/
theorem notColides_iff {p : Point ℝ} {poly : Poly} (h : ¬ OnBoundary p poly.vertices) :
    notColides p.x p.y poly = true ↔ ¬ Inside p poly.vertices := by
  have hodd : Odd ((edges poly.vertices).countP (fun e => flips p.x p.y e.1 e.2)) ↔ Inside p poly.vertices :=
    odd_countP_congr (fun w => decide (w.y = p.y ∧ p.x < w.x))
      (fun e he => flips_xor_crosses (fun hon => h ⟨e, he, hon⟩))
  rw [notColides_eq, Bool.not_eq_true', decide_eq_false_iff_not, hodd]

/-! ### One step -/

theorem norm_sub_eq_dist (p1 p2 : Point ℝ) : ‖(⟨p2.x - p1.x, p2.y - p1.y⟩ : ℂ)‖ = dist p1 p2 := by
  rw [Complex.norm_def, Complex.normSq_apply, dist]
  congr 1
  ring

theorem dist_lerp (p1 p2 : Point ℝ) {t : ℝ} (h : 0 ≤ t) : dist p1 (lerp p1 p2 t) = t * dist p1 p2 := by
  have hsq : (p1.x - (lerp p1 p2 t).x) * (p1.x - (lerp p1 p2 t).x) +
      (p1.y - (lerp p1 p2 t).y) * (p1.y - (lerp p1 p2 t).y) =
      t ^ 2 * ((p1.x - p2.x) * (p1.x - p2.x) + (p1.y - p2.y) * (p1.y - p2.y)) := by
    rw [lerp_x, lerp_y]
    ring
  rw [dist, hsq, Real.sqrt_mul (sq_nonneg t), Real.sqrt_sq h, dist]

/-- A step ends on the way to the sample, not farther than `jump`, and at the sample if that is not farther. -/
theorem stepFromTo_spec (p1 p2 : Point ℝ) : dist p1 (stepFromTo p1 p2) ≤ jump ∧
    OnSegment (stepFromTo p1 p2) p1 p2 ∧ (dist p1 p2 ≤ jump → stepFromTo p1 p2 = p2) := by
  have hjump : (0 : ℝ) < jump := by norm_num [jump]
  by_cases hlt : dist p1 p2 < jump
  · have hstep : stepFromTo p1 p2 = p2 := if_pos hlt
    rw [hstep]
    exact ⟨hlt.le, onSegment_right p1 p2, fun _ => rfl⟩
  · have hle : jump ≤ dist p1 p2 := not_lt.mp hlt
    have hpos : 0 < dist p1 p2 := hjump.trans_le hle
    have hcos : Real.cos (Complex.arg ⟨p2.x - p1.x, p2.y - p1.y⟩) = (p2.x - p1.x) / dist p1 p2 := by
      rw [eq_div_iff hpos.ne', mul_comm, ← norm_sub_eq_dist]
      exact Complex.norm_mul_cos_arg _
    have hsin : Real.sin (Complex.arg ⟨p2.x - p1.x, p2.y - p1.y⟩) = (p2.y - p1.y) / dist p1 p2 := by
      rw [eq_div_iff hpos.ne', mul_comm, ← norm_sub_eq_dist]
      exact Complex.norm_mul_sin_arg _
    have hlerp : stepFromTo p1 p2 = lerp p1 p2 (jump / dist p1 p2) := by
      unfold stepFromTo
      rw [if_neg hlt]
      dsimp only
      rw [hcos, hsin]
      ext
      · rw [lerp_x]
        ring
      · rw [lerp_y]
        ring
    have hdist : dist p1 (lerp p1 p2 (jump / dist p1 p2)) = jump := by
      rw [dist_lerp p1 p2 (by positivity), div_mul_cancel₀ _ hpos.ne']
    rw [hlerp]
    refine ⟨hdist.le, ⟨_, by positivity, (div_le_one hpos).mpr hle, rfl⟩, ?_⟩
    intro hle'
    rw [le_antisymm hle' hle, div_self hjump.ne', lerp_one]

/-! ### The loops over the nodes -/

theorem nearest_mem (s : State) (r : Point ℝ) : nearest s r ∈ s.nodes :=
  Lists.foldl_select_head_mem (fun p nn : Node => dist p.getPoint r < dist nn.getPoint r) s.nodes_ne

/-- The cost of a new node at `p` below the node `t`. -/
def costThrough (p : Point ℝ) (t : Node) : ℝ := t.getCost + dist p t.getPoint

/-- The loop keeps the first parent unless a neighbor is cheaper, and ends with a parent that no
neighbor is cheaper than. -/
theorem chooseParent_spec (nodes : List Node) (nn : Node) (p : Point ℝ) :
    ∃ t, chooseParent nodes nn p = .child p t (costThrough p t) ∧
      (t = nn ∨ t ∈ nodes ∧ dist t.getPoint p < neighborhood) ∧ costThrough p t ≤ costThrough p nn ∧
      ∀ t' ∈ nodes, dist t'.getPoint p < neighborhood → costThrough p t ≤ costThrough p t' := by
  unfold chooseParent
  induction nodes generalizing nn with
  | nil => exact ⟨nn, rfl, Or.inl rfl, le_rfl, by simp⟩
  | cons t₀ l ih =>
      rw [List.foldl_cons]
      by_cases hc : dist t₀.getPoint p < neighborhood ∧ costThrough p nn > costThrough p t₀
      · obtain ⟨t, heq, hmem, hle, hall⟩ := ih t₀
        refine ⟨t, ?_, ?_, hle.trans hc.2.le, ?_⟩
        · rw [← heq]
          congr 1
          exact if_pos hc
        · refine Or.inr ?_
          rcases hmem with rfl | ⟨hmem, hd⟩
          · exact ⟨List.mem_cons_self, hc.1⟩
          · exact ⟨List.mem_cons_of_mem _ hmem, hd⟩
        · intro t' ht' hd
          rcases List.mem_cons.mp ht' with rfl | ht'
          · exact hle
          · exact hall t' ht' hd
      · obtain ⟨t, heq, hmem, hle, hall⟩ := ih nn
        refine ⟨t, ?_, ?_, hle, ?_⟩
        · rw [← heq]
          congr 1
          exact if_neg hc
        · exact hmem.imp id (fun h => ⟨List.mem_cons_of_mem _ h.1, h.2⟩)
        · intro t' ht' hd
          rcases List.mem_cons.mp ht' with rfl | ht'
          · exact hle.trans (not_lt.mp (fun h => hc ⟨hd, h⟩))
          · exact hall t' ht' hd

/-- The node can become the parent of the new one: it is the nearest to the sample or within
`neighborhood` of the new point. -/
def Reaches (m : Mission) (s : State) (d : Draw) (t : Node) : Prop :=
  t = nearest s (rand m d) ∨ t ∈ s.nodes ∧ dist t.getPoint (newPoint m s d) < neighborhood

/-- No node that can become the parent reaches the new point at a lower cost. -/
def Cheapest (m : Mission) (s : State) (d : Draw) (t : Node) : Prop :=
  Reaches m s d t ∧ ∀ t', Reaches m s d t' → costThrough (newPoint m s d) t ≤ costThrough (newPoint m s d) t'

theorem Cheapest.mem {m : Mission} {s : State} {d : Draw} {t : Node} (h : Cheapest m s d t) : t ∈ s.nodes := by
  rcases h.1 with rfl | ⟨hmem, -⟩
  · exact nearest_mem s (rand m d)
  · exact hmem

/-- The new node is at the new point, below a cheapest node. -/
theorem newNode_eq (m : Mission) (s : State) (d : Draw) :
    ∃ t, Cheapest m s d t ∧ newNode m s d = .child (newPoint m s d) t (costThrough (newPoint m s d) t) := by
  obtain ⟨t, heq, hmem, hle, hall⟩ := chooseParent_spec s.nodes (nearest s (rand m d)) (newPoint m s d)
  refine ⟨t, ⟨hmem, fun t' ht' => ?_⟩, heq⟩
  rcases ht' with rfl | ⟨ht', hd⟩
  · exact hle
  · exact hall t' ht' hd

/-- The point test holds for every obstacle. -/
def Outside (m : Mission) (p : Point ℝ) : Prop := ∀ poly ∈ m.polys, notColides p.x p.y poly = true

instance (m : Mission) (p : Point ℝ) : Decidable (Outside m p) :=
  inferInstanceAs (Decidable (∀ poly ∈ m.polys, notColides p.x p.y poly = true))

theorem newNode_getPoint (m : Mission) (s : State) (d : Draw) : (newNode m s d).getPoint = newPoint m s d := by
  obtain ⟨t, -, heq⟩ := newNode_eq m s d
  rw [heq, Node.getPoint_child]

/-- A pass keeps the new node when its point passes the test of every obstacle. -/
theorem step_eq (m : Mission) (s : State) (d : Draw) :
    step m s d = if Outside m (newPoint m s d) then keep m s (newNode m s d) else s := by
  have hout : m.polys.countP (notColides (newPoint m s d).x (newPoint m s d).y) ≥ m.polys.length ↔
      Outside m (newPoint m s d) := by
    rw [ge_iff_le, List.countP_le_length.ge_iff_eq', eq_comm, List.countP_eq_length]
    rfl
  unfold step
  simp only [newNode_getPoint, hout]

/-- One pass appends a node at the new point, below a cheapest node, if the new point passes the
test of every obstacle; otherwise it changes nothing. -/
theorem step_cases (m : Mission) (s : State) (d : Draw) :
    (∃ t, Cheapest m s d t ∧ Outside m (newPoint m s d) ∧
      (step m s d).nodes = s.nodes ++ [.child (newPoint m s d) t (costThrough (newPoint m s d) t)] ∧
      ((step m s d).bestNode = .child (newPoint m s d) t (costThrough (newPoint m s d) t) ∨
        (step m s d).bestNode = s.bestNode)) ∨
    (¬ Outside m (newPoint m s d) ∧ step m s d = s) := by
  obtain ⟨t, ht, heq⟩ := newNode_eq m s d
  rw [step_eq, heq]
  by_cases ho : Outside m (newPoint m s d)
  · rw [if_pos ho]
    refine Or.inl ⟨t, ht, ho, rfl, ?_⟩
    unfold keep
    split
    · exact ite_eq_or_eq _ _ _
    · exact Or.inr rfl
  · exact Or.inr ⟨ho, if_neg ho⟩

/-! ### The lines of the file -/

theorem linhas_ne_nil (m : Mission) (node : Node) : linhas m node ≠ [] := by
  cases node <;> simp [linhas]

/-- The output loop reverses the lines and never writes the last one, the goal. -/
theorem route_eq (m : Mission) (bestNode : Node) : route m bestNode = (linhas m bestNode).dropLast.reverse :=
  Lists.map_getD_range' (linhas_ne_nil m bestNode) m.goalPoint

end

end DroneArch.Rrt
