import Mathlib.Data.Real.Basic
import DroneArch.SimplePolygon

/-! # Obstacle fitness of the genetic planner

`Genetic.__fitness_obstacles` (`genetic.py`) with the geometry it calls (`utils.py`), in exact
arithmetic.  For every leg of a route and every area it counts a first point inside the area
(`pointInPolygon`) and a leg that meets an edge of the area (`segmentInPolygon`).

`ray_intersects_segment` moves the point that it is given up by `epsilon`, and it is the same
point for all edges of an area: each edge is tested at another height, and the leg that is
tested afterwards starts `area.length * epsilon` above the route.

* `segmentIntersectsSegment_iff`: the segment test is exact.
* `safeWhenZero_iff`: a count of zero means a safe route when the drift of the first points is
  clear of the areas (`Clear`), and for no list of areas but the empty one without that. -/

namespace DroneArch.Genetic

open Planar

/-! ### `utils.py` -/

/-- `s -> (s0,s1), (s1,s2), (s2, s3), ... (s<last>,s0)`. -/
def pairwiseCircle {α : Type*} : List α → List (α × α)
  | [] => []
  | a :: b => (a :: b).zip (b ++ [a])

/-- `s -> (s0,s1), (s1,s2), (s2, s3), ...`. -/
def pairwise {α : Type*} (s : List α) : List (α × α) := s.zip s.tail

section
variable {K : Type*} [Field K] [LinearOrder K]

/-- `0.00001`. -/
def epsilon : K := 1 / 100000

/-- The test of `ray_intersects_segment` for the point `P`, after it was moved. -/
def rayHits (P A B : Point K) : Bool :=
  if P.y < A.y ∨ P.y > B.y then false
  else if P.x ≥ max A.x B.x then false
  else if P.x < min A.x B.x then true
  else
    let m_red := if A.x ≠ B.x then (B.y - A.y) / (B.x - A.x) else 99999999
    let m_blue := if A.x ≠ P.x then (P.y - A.y) / (P.x - A.x) else 99999999
    decide (m_blue ≥ m_red)

/-- `ray_intersects_segment`: the result, and the point it has moved. -/
def rayIntersectsSegment (P A B : Point K) : Bool × Point K :=
  let P : Point K := ⟨P.x, P.y + epsilon⟩
  (rayHits P A B, P)

/-- `point_in_polygon`: the result, and the point as it is left behind. -/
def pointInPolygon (point : Point K) (polygon : List (Point K)) : Bool × Point K :=
  let r := (pairwiseCircle polygon).foldl (fun (s : ℕ × Point K) e =>
    let AB := if e.1.y < e.2.y then e else (e.2, e.1)
    let hit := rayIntersectsSegment s.2 AB.1 AB.2
    (if hit.1 then s.1 + 1 else s.1, hit.2)) (0, point)
  (decide (r.1 % 2 ≠ 0), r.2)

/-- `orientation`: 0 colinear, 1 clockwise, 2 counterclockwise. -/
def orientation (p q r : Point K) : ℕ :=
  let val := (q.y - p.y) * (r.x - q.x) - (q.x - p.x) * (r.y - q.y)
  if val = 0 then 0 else if val > 0 then 1 else 2

/-- `on_segment`. -/
def onSegment (p q r : Point K) : Bool :=
  decide (q.x ≤ max p.x r.x ∧ q.x ≥ min p.x r.x ∧ q.y ≤ max p.y r.y ∧ q.y ≥ min p.y r.y)

/-- `segment_intersects_segment`. -/
def segmentIntersectsSegment (p1 q1 p2 q2 : Point K) : Bool :=
  let o1 := orientation p1 q1 p2
  let o2 := orientation p1 q1 q2
  let o3 := orientation p2 q2 p1
  let o4 := orientation p2 q2 q1
  if o1 ≠ o2 ∧ o3 ≠ o4 then true
  else if o1 = 0 ∧ onSegment p1 p2 q1 then true
  else if o2 = 0 ∧ onSegment p1 q2 q1 then true
  else if o3 = 0 ∧ onSegment p2 p1 q2 then true
  else if o4 = 0 ∧ onSegment p2 q1 q2 then true
  else false

/-- `segment_in_polygon`. -/
def segmentInPolygon (wp1 wp2 : Point K) (polygon : List (Point K)) : Bool :=
  (pairwiseCircle polygon).any (fun e => segmentIntersectsSegment wp1 wp2 e.1 e.2)

/-! ### `genetic.py` -/

/-- `Genetic.__fitness_obstacles`, for the decoded route and the inflated areas of the map. -/
def fitnessObstacles (dnaDecoded : List (Point K)) (areasNInf : List (List (Point K))) : ℕ :=
  (pairwise dnaDecoded).foldl (fun count t =>
    areasNInf.foldl (fun count area_n =>
      let wp1 := t.1
      let wp2 := t.2
      let inside := pointInPolygon wp1 area_n
      let count := if inside.1 then count + 1 else count
      let wp1 := inside.2
      if segmentInPolygon wp1 wp2 area_n then count + 1 else count) count) 0

/-! ### The loops -/

omit [Field K] [LinearOrder K] in
theorem pairwiseCircle_eq_edges {α : Type*} (s : List α) : pairwiseCircle s = edges s := by
  cases s with
  | nil => rfl
  | cons a b => exact (edges_cons a b).symm

omit [Field K] [LinearOrder K] in
/-- Every vertex starts an edge. -/
theorem exists_mem_pairwiseCircle {α : Type*} {l : List α} {a : α} (ha : a ∈ l) :
    ∃ b, (a, b) ∈ pairwiseCircle l := by
  have hfst : (pairwiseCircle l).map Prod.fst = l := by
    rw [pairwiseCircle_eq_edges, edges, List.map_fst_zip (by simp)]
  rw [← hfst] at ha
  obtain ⟨e, he, rfl⟩ := List.mem_map.mp ha
  exact ⟨e.2, he⟩

/-- The test of one edge at one height. -/
def edgeHits (P : Point K) (e : Point K × Point K) : Bool :=
  if e.1.y < e.2.y then rayHits P e.1 e.2 else rayHits P e.2 e.1

variable [IsStrictOrderedRing K]

theorem epsilon_pos : (0 : K) < epsilon := by
  unfold epsilon
  positivity

/-- The first point of a leg after the tests of an area with `n` edges. -/
def lifted (a : Point K) (n : ℕ) : Point K := ⟨a.x, a.y + n * epsilon⟩

omit [LinearOrder K] [IsStrictOrderedRing K] in
theorem lifted_zero (a : Point K) : lifted a 0 = a := by
  simp [lifted]

omit [IsStrictOrderedRing K] in
/-- The loop of `point_in_polygon`: the `n`-th edge is tested with the point lifted `n` times. -/
theorem foldl_rays (point : Point K) (es : List (Point K × Point K)) : ∀ n k : ℕ,
    es.foldl (fun (s : ℕ × Point K) e =>
        let AB := if e.1.y < e.2.y then e else (e.2, e.1)
        let hit := rayIntersectsSegment s.2 AB.1 AB.2
        (if hit.1 then s.1 + 1 else s.1, hit.2)) (n, lifted point k) =
      (n + (es.zipIdx (k + 1)).countP (fun t => edgeHits (lifted point t.2) t.1), lifted point (k + es.length)) := by
  induction es with
  | nil =>
      intro n k
      rfl
  | cons e es ih =>
      intro n k
      have hhit : rayIntersectsSegment (lifted point k) (if e.1.y < e.2.y then e else (e.2, e.1)).1
          (if e.1.y < e.2.y then e else (e.2, e.1)).2 =
          (edgeHits (lifted point (k + 1)) e, lifted point (k + 1)) := by
        have hup : (⟨(lifted point k).x, (lifted point k).y + epsilon⟩ : Point K) = lifted point (k + 1) := by
          simp only [lifted, Nat.cast_add, Nat.cast_one, add_mul, one_mul, add_assoc]
        unfold rayIntersectsSegment edgeHits
        simp only [hup]
        split <;> rfl
      rw [List.foldl_cons]
      simp only [hhit]
      rw [ih, List.zipIdx_cons, List.countP_cons, List.length_cons]
      congr 1
      · cases edgeHits (lifted point (k + 1)) e
        · simp
        · simp only [if_true]
          omega
      · congr 1
        omega

omit [IsStrictOrderedRing K] in
/-- **The point test.**  The `n`-th edge is tested at the height of the point lifted `n` times, and
the point is left lifted once for every edge. -/
theorem pointInPolygon_apply (point : Point K) (polygon : List (Point K)) :
    pointInPolygon point polygon =
      (decide (Odd (((edges polygon).zipIdx 1).countP (fun t => edgeHits (lifted point t.2) t.1))),
        lifted point polygon.length) := by
  have hlen : (edges polygon).length = polygon.length := by simp [edges]
  have hloop := foldl_rays point (edges polygon) 0 0
  rw [lifted_zero] at hloop
  unfold pointInPolygon
  rw [pairwiseCircle_eq_edges, hloop, hlen, zero_add, zero_add, zero_add]
  simp [Nat.odd_iff]

/-- Where each test agrees with `g` at every height it can be made at, the tests count the edges
with `g`. -/
theorem pointInPolygon_eq {point : Point K} {polygon : List (Point K)} (g : Point K × Point K → Bool)
    (hg : ∀ e ∈ edges polygon, ∀ h, point.y + epsilon ≤ h → h ≤ point.y + polygon.length * epsilon →
      edgeHits ⟨point.x, h⟩ e = g e) :
    pointInPolygon point polygon =
      (decide (Odd ((edges polygon).countP g)), ⟨point.x, point.y + polygon.length * epsilon⟩) := by
  have hε : (0 : K) < epsilon := epsilon_pos
  have hlen : (edges polygon).length = polygon.length := by simp [edges]
  have hcount : ((edges polygon).zipIdx 1).countP (fun t => edgeHits (lifted point t.2) t.1) =
      (edges polygon).countP g := by
    conv_rhs => rw [← List.zipIdx_map_fst 1 (edges polygon), List.countP_map]
    refine List.countP_congr (fun t ht => ?_)
    have hlow : (1 : K) ≤ t.2 := by exact_mod_cast List.le_snd_of_mem_zipIdx ht
    have hhigh : (t.2 : K) ≤ polygon.length := by
      have := List.snd_lt_add_of_mem_zipIdx ht
      exact_mod_cast (by omega : t.2 ≤ polygon.length)
    have hup := mul_le_mul_of_nonneg_right hhigh hε.le
    have hdown := mul_le_mul_of_nonneg_right hlow hε.le
    rw [one_mul] at hdown
    rw [Function.comp_apply, lifted, hg t.1 (List.fst_mem_of_mem_zipIdx ht) _ (by linarith) (by linarith)]
  rw [pointInPolygon_apply, hcount, lifted]

/-! ### The segment test -/

omit [LinearOrder K] [IsStrictOrderedRing K] in
theorem orientation_val (p q r : Point K) :
    (q.y - p.y) * (r.x - q.x) - (q.x - p.x) * (r.y - q.y) = -det p q r := by
  simp only [det]
  ring

omit [IsStrictOrderedRing K] in
theorem orientation_eq_zero_iff (p q r : Point K) : orientation p q r = 0 ↔ det p q r = 0 := by
  unfold orientation
  simp only [orientation_val, neg_eq_zero]
  split
  · rename_i h
    exact ⟨fun _ => h, fun _ => rfl⟩
  · rename_i h
    refine ⟨fun h' => ?_, fun h' => absurd h' h⟩
    split at h' <;> cases h'

/-- The orientations of two points differ when they are not on the same side of the line. -/
theorem orientation_ne_iff (p q u v : Point K) : orientation p q u ≠ orientation p q v ↔
    det p q u * det p q v ≤ 0 ∧ det p q u ≠ det p q v := by
  unfold orientation
  simp only [orientation_val, neg_eq_zero, gt_iff_lt, neg_pos]
  rcases lt_trichotomy (det p q u) 0 with hu | hu | hu <;> rcases lt_trichotomy (det p q v) 0 with hv | hv | hv
  · simp [hu.ne, hv.ne, hu, hv, (mul_pos_of_neg_of_neg hu hv).not_ge]
  · simp [hu.ne, hv, hu]
  · simp [hu.ne, hv.ne', hu, hv.not_gt, (mul_neg_of_neg_of_pos hu hv).le, (hu.trans hv).ne]
  · simp [hu, hv.ne, hv, hv.ne']
  · simp [hu, hv]
  · simp [hu, hv.ne', hv.not_gt, hv.ne]
  · simp [hu.ne', hv.ne, hv, hu.not_gt, (mul_neg_of_pos_of_neg hu hv).le, (hv.trans hu).ne']
  · simp [hu.ne', hv, hu.not_gt]
  · simp [hu.ne', hv.ne', hu.not_gt, hv.not_gt, (mul_pos hu hv).not_ge]

theorem onSegment_of_onSegment {p q r : Point K} (h : OnSegment q p r) : onSegment p q r = true := by
  unfold onSegment
  rw [decide_eq_true_eq]
  exact ⟨h.le_max_x, h.min_x_le, h.le_max_y, h.min_y_le⟩

/-- On the line through the ends, the bounding box of a segment is the segment. -/
theorem onSegment_iff {p q r : Point K} (h : det p r q = 0) : onSegment p q r = true ↔ OnSegment q p r := by
  refine ⟨fun hb => ?_, onSegment_of_onSegment⟩
  unfold onSegment at hb
  rw [decide_eq_true_eq] at hb
  obtain ⟨hx1, hx0, hy1, hy0⟩ := hb
  by_cases hpr : p = r
  · subst hpr
    rw [max_self] at hx1 hy1
    rw [ge_iff_le, min_self] at hx0 hy0
    have hqp : q = p := Point.ext (le_antisymm hx1 hx0) (le_antisymm hy1 hy0)
    rw [hqp]
    exact onSegment_left p p
  · obtain ⟨t, rfl⟩ := eq_lerp_of_det_eq_zero hpr h
    rw [lerp_x] at hx0 hx1
    rw [lerp_y] at hy0 hy1
    -- one coordinate tells the two ends apart and bounds the ratio
    have key : ∀ {a b : K}, a ≠ b → min a b ≤ a + t * (b - a) → a + t * (b - a) ≤ max a b → 0 ≤ t ∧ t ≤ 1 := by
      intro a b hab h0 h1
      rcases lt_or_gt_of_ne hab with hlt | hlt
      · rw [min_eq_left hlt.le] at h0
        rw [max_eq_right hlt.le] at h1
        constructor <;> nlinarith
      · rw [min_eq_right hlt.le] at h0
        rw [max_eq_left hlt.le] at h1
        constructor <;> nlinarith
    by_cases hx : p.x = r.x
    · have hy : p.y ≠ r.y := fun hy => hpr (Point.ext hx hy)
      obtain ⟨h0, h1⟩ := key hy hy0 hy1
      exact ⟨t, h0, h1, rfl⟩
    · obtain ⟨h0, h1⟩ := key hx hx0 hx1
      exact ⟨t, h0, h1, rfl⟩

/-- On a vertical line, being between the ends is a matter of the heights. -/
theorem onSegment_of_vertical {p q r : Point K} (hp : q.x = p.x) (hr : q.x = r.x)
    (h0 : min p.y r.y ≤ q.y) (h1 : q.y ≤ max p.y r.y) : OnSegment q p r := by
  have hdet : det p r q = 0 := by
    simp only [det]
    rw [← hp, ← hr]
    ring
  refine (onSegment_iff hdet).mp ?_
  unfold onSegment
  rw [decide_eq_true_eq, ← hp, ← hr, max_self, min_self]
  exact ⟨le_rfl, le_rfl, h1, h0⟩

/-- **The segment test.**  `segment_intersects_segment` holds exactly when the segments have a
point in common. -/
theorem segmentIntersectsSegment_iff (p q u v : Point K) :
    segmentIntersectsSegment p q u v = true ↔ Meets p q u v := by
  have hspecial : ∀ {p q u : Point K}, (orientation p q u = 0 ∧ onSegment p u q = true) ↔ OnSegment u p q := by
    intro p q u
    rw [orientation_eq_zero_iff]
    refine ⟨fun h => (onSegment_iff h.1).mp h.2, fun h => ⟨h.det_eq_zero, onSegment_of_onSegment h⟩⟩
  unfold segmentIntersectsSegment
  simp only [hspecial, orientation_ne_iff, Bool.if_true_left, Bool.or_eq_true, decide_eq_true_eq, Bool.false_eq_true,
    or_false]
  constructor
  · rintro (⟨⟨h1, hne⟩, h2, -⟩ | h | h | h | h)
    · exact meets_of_det h1 h2 hne
    · exact ⟨u, h, onSegment_left u v⟩
    · exact ⟨v, h, onSegment_right u v⟩
    · exact ⟨p, onSegment_left p q, h⟩
    · exact ⟨q, onSegment_right p q, h⟩
  · intro h
    have h1 := h.det_mul_det_nonpos
    have h2 := h.symm.det_mul_det_nonpos
    by_cases hne : det p q u = det p q v
    · -- all on one line
      obtain ⟨hu, hv⟩ := h.det_eq_zero_of_eq hne
      exact Or.inr (end_onSegment_of_collinear hu hv h)
    · by_cases hne' : det u v p = det u v q
      · obtain ⟨hp, hq⟩ := h.symm.det_eq_zero_of_eq hne'
        rcases end_onSegment_of_collinear hp hq h.symm with h | h | h | h
        · exact Or.inr (Or.inr (Or.inr (Or.inl h)))
        · exact Or.inr (Or.inr (Or.inr (Or.inr h)))
        · exact Or.inr (Or.inl h)
        · exact Or.inr (Or.inr (Or.inl h))
      · exact Or.inl ⟨⟨h1, hne⟩, h2, hne'⟩

/-- **Exactness of the segment test.**  It holds when the closed segments have a common point, so
it does not depend on the order of the segments or of the ends of either. -/
theorem segmentIntersectsSegment_exact (p1 q1 p2 q2 : Point ℝ) :
    (segmentIntersectsSegment p1 q1 p2 q2 = true ↔ ∃ w, OnSegment w p1 q1 ∧ OnSegment w p2 q2) ∧
    segmentIntersectsSegment p2 q2 p1 q1 = segmentIntersectsSegment p1 q1 p2 q2 ∧
    segmentIntersectsSegment q1 p1 p2 q2 = segmentIntersectsSegment p1 q1 p2 q2 ∧
    segmentIntersectsSegment p1 q1 q2 p2 = segmentIntersectsSegment p1 q1 p2 q2 := by
  refine ⟨segmentIntersectsSegment_iff p1 q1 p2 q2, ?_, ?_, ?_⟩ <;>
    rw [Bool.eq_iff_iff, segmentIntersectsSegment_iff, segmentIntersectsSegment_iff]
  · exact ⟨Meets.symm, Meets.symm⟩
  · exact ⟨Meets.swap, Meets.swap⟩
  · exact ⟨fun h => h.symm.swap.symm, fun h => h.symm.swap.symm⟩

/-! ### The ray test -/

/-- Where the lower end of the edge is straight below `P`, the constant that stands for an infinite
slope is not exceeded by the slope of the edge. -/
def NotTooSteep (P A B : Point K) : Prop :=
  A.x = P.x → A.y < P.y → P.y < B.y → A.x < B.x → (B.y - A.y) / (B.x - A.x) ≤ 99999999

/-- The slopes compared by the ray test order the point and the edge at its height. -/
theorem slope_le_iff {P A B : Point K} (hy : A.y < B.y) (h₁ : min A.x B.x ≤ P.x) (h₂ : P.x < max A.x B.x)
    (hne : A.x ≠ P.x) :
    (B.y - A.y) / (B.x - A.x) ≤ (P.y - A.y) / (P.x - A.x) ↔ P.x ≤ intercept A B P.y := by
  have hB : 0 < B.y - A.y := sub_pos.mpr hy
  have hint : P.x ≤ intercept A B P.y ↔ (P.x - A.x) * (B.y - A.y) ≤ (P.y - A.y) * (B.x - A.x) := by
    unfold intercept
    rw [← sub_le_iff_le_add', div_mul_eq_mul_div, le_div_iff₀ hB]
  rw [hint]
  rcases lt_or_gt_of_ne hne with hlt | hlt
  · have hAB : A.x < B.x := by
      rcases lt_max_iff.mp h₂ with h | h
      · exact absurd h hlt.not_gt
      · exact hlt.trans h
    rw [div_le_div_iff₀ (sub_pos.mpr hAB) (sub_pos.mpr hlt), mul_comm (B.y - A.y)]
  · have hAB : B.x < A.x := by
      rcases min_le_iff.mp h₁ with h | h
      · exact absurd h hlt.not_ge
      · exact h.trans_lt hlt
    rw [← neg_sub A.x B.x, ← neg_sub A.x P.x, div_neg, div_neg, neg_le_neg_iff,
      div_le_div_iff₀ (sub_pos.mpr hlt) (sub_pos.mpr hAB), neg_mul, mul_neg, neg_le_neg_iff,
      mul_comm (A.x - P.x)]

/-- At the height of the upper end, which is to the left, the ray misses. -/
theorem rayHits_upper {P A B : Point K} (hAP : A.y ≤ P.y) (hB : B.y = P.y) (hA : A.y = P.y → A.x < P.x)
    (hx : B.x < P.x) : rayHits P A B = false := by
  unfold rayHits
  have hout : ¬ (P.y < A.y ∨ P.y > B.y) := by simp [hAP, hB]
  rw [if_neg hout]
  by_cases hge : P.x ≥ max A.x B.x
  · rw [if_pos hge]
  · rw [if_neg hge, if_neg ((min_le_right A.x B.x).trans hx.le).not_gt]
    rw [ge_iff_le, not_le, lt_max_iff] at hge
    have hPA : P.x < A.x := hge.resolve_right hx.not_gt
    have hAy : A.y < B.y := by
      refine lt_of_le_of_ne (hAP.trans hB.ge) (fun he => ?_)
      exact (hA (he.trans hB)).not_gt hPA
    rw [if_pos (hx.trans hPA).ne', if_pos hPA.ne', decide_eq_false_iff_not, ge_iff_le,
      slope_le_iff hAy ((min_le_right _ _).trans hx.le) (lt_max_of_lt_left hPA) hPA.ne', ← hB,
      intercept_right hAy.ne]
    exact hx.not_ge

omit [Field K] [IsStrictOrderedRing K] in
theorem ne_of_min_le_of_lt_max {a b x : K} (hmin : min a b ≤ x) (hmax : x < max a b) : a ≠ b := by
  rintro rfl
  rw [min_self] at hmin
  rw [max_self] at hmax
  exact hmax.not_ge hmin

/-- Below the upper end and off the edge, the ray hits the edge that is to the right. -/
theorem rayHits_between {P A B : Point K} (hAP : A.y ≤ P.y) (htop : P.y < B.y) (hA : A.y = P.y → A.x < P.x)
    (hon : ¬ OnSegment P A B) (hsteep : NotTooSteep P A B) :
    rayHits P A B = decide (P.x < intercept A B P.y) := by
  have hlt : A.y < B.y := hAP.trans_lt htop
  have hw : OnSegment ⟨intercept A B P.y, P.y⟩ A B := onSegment_at_height hAP htop.le hlt
  have hPx : P.x ≠ intercept A B P.y := by
    intro he
    exact hon (by rwa [← he] at hw)
  unfold rayHits
  have hout : ¬ (P.y < A.y ∨ P.y > B.y) := by simp [hAP, htop.le]
  rw [if_neg hout]
  by_cases hge : P.x ≥ max A.x B.x
  · rw [if_pos hge, eq_comm, decide_eq_false_iff_not]
    exact (hw.le_max_x.trans hge).not_gt
  rw [if_neg hge]
  rw [ge_iff_le, not_le] at hge
  by_cases hmin : P.x < min A.x B.x
  · rw [if_pos hmin, eq_comm, decide_eq_true_eq]
    exact hmin.trans_le hw.min_x_le
  rw [if_neg hmin]
  rw [not_lt] at hmin
  have hABx := ne_of_min_le_of_lt_max hmin hge
  rw [if_pos hABx]
  by_cases hAPx : A.x = P.x
  · -- the lower end is straight below
    have hAB' : A.x < B.x := by
      rcases lt_max_iff.mp hge with h | h
      · exact absurd hAPx h.ne'
      · exact hAPx ▸ h
    have hAy : A.y < P.y := by
      refine lt_of_le_of_ne hAP (fun he => ?_)
      exact (hA he).ne hAPx
    rw [if_neg (not_not.mpr hAPx), decide_eq_decide]
    refine ⟨fun _ => ?_, fun _ => hsteep hAPx hAy htop hAB'⟩
    rw [← hAPx]
    unfold intercept
    rw [lt_add_iff_pos_right]
    exact mul_pos (div_pos (sub_pos.mpr hAy) (sub_pos.mpr hlt)) (sub_pos.mpr hAB')
  · rw [if_pos hAPx, decide_eq_decide, ge_iff_le, slope_le_iff hlt hmin hge hAPx]
    exact ⟨fun h => lt_of_le_of_ne h hPx, le_of_lt⟩

/-- Off the edge, away from ends at its own height to the right, the ray test for a point is the
crossing of the even-odd rule. -/
theorem rayHits_eq_crosses {P A B : Point K} (hAB : A.y ≤ B.y) (hA : A.y = P.y → A.x < P.x)
    (hB : B.y = P.y → B.x < P.x) (hon : ¬ OnSegment P A B) (hsteep : NotTooSteep P A B) :
    rayHits P A B = crosses P A B := by
  unfold crosses
  by_cases hout : P.y < A.y ∨ P.y > B.y
  · rw [rayHits, if_pos hout]
    rcases hout with h | h
    · simp [h.not_ge, (h.trans_le hAB).not_ge]
    · simp [h.le, hAB.trans h.le]
  rw [not_or, not_lt, gt_iff_lt, not_lt] at hout
  obtain ⟨hAP, hPB⟩ := hout
  rcases lt_or_eq_of_le hPB with htop | htop
  · rw [rayHits_between hAP htop hA hon hsteep]
    simp [hAP, htop.not_ge]
  · rw [rayHits_upper hAP htop.symm hA (hB htop.symm)]
    simp [hAB, htop]

omit [IsStrictOrderedRing K] in
/-- A point above both ends of an edge is not hit. -/
theorem edgeHits_of_lt {P : Point K} {e : Point K × Point K} (h1 : e.1.y < P.y) (h2 : e.2.y < P.y) :
    edgeHits P e = false := by
  unfold edgeHits rayHits
  split
  · rw [if_pos (Or.inr h2)]
  · rw [if_pos (Or.inr h1)]

/-! ### The drift -/

/-- The drift of the first point `a` of the leg to `b` does not matter for the area: the area has
no vertex at a height of the drift to the right of `a` and none between the leg and the lifted
leg, its edges stay off the way of `a`, and none that starts straight below it is too steep. -/
structure Clear (a b : Point K) (area : List (Point K)) : Prop where
  heights : ∀ v ∈ area, a.y < v.y → v.y ≤ a.y + area.length * epsilon → v.x < a.x
  way : ∀ e ∈ edges area, ¬ Meets a (lifted a area.length) e.1 e.2
  between : ∀ v ∈ area, ¬ InTriangle v a b (lifted a area.length)
  steep : ∀ e ∈ edges area, ∀ h, a.y < h → h ≤ a.y + area.length * epsilon →
    NotTooSteep ⟨a.x, h⟩ e.1 e.2 ∧ NotTooSteep ⟨a.x, h⟩ e.2 e.1

omit [LinearOrder K] [IsStrictOrderedRing K] in
theorem gap_vertical {a w : Point K} {h : K} : gap a ⟨a.x, h⟩ w = w.x - a.x := by
  simp [gap, intercept]

/-- On its way up the first point crosses the same edges. -/
theorem edgeHits_eq_crosses {a b : Point K} {area : List (Point K)} (hc : Clear a b area)
    {e : Point K × Point K} (he : e ∈ edges area) {h : K} (h1 : a.y < h) (h2 : h ≤ a.y + area.length * epsilon) :
    edgeHits ⟨a.x, h⟩ e = crosses a e.1 e.2 := by
  obtain ⟨hv1, hv2⟩ := mem_of_mem_edges he
  have hway : ∀ {w : Point K}, OnSegment w a ⟨a.x, h⟩ → OnSegment w a (lifted a area.length) := by
    intro w hw
    have hh : OnSegment ⟨a.x, h⟩ a (lifted a area.length) :=
      onSegment_of_vertical rfl rfl (min_le_of_left_le h1.le) (le_max_of_le_right h2)
    exact hh.trans hw
  have hmeets : ¬ Meets a ⟨a.x, h⟩ e.1 e.2 := by
    rintro ⟨w, hw, hwe⟩
    exact hc.way e he ⟨w, hway hw, hwe⟩
  have hstrip : ∀ v ∈ area, strip a ⟨a.x, h⟩ v = false := by
    intro v hv
    unfold strip
    by_cases hvy : a.y < v.y ∧ v.y ≤ h
    · have := hc.heights v hv hvy.1 (hvy.2.trans h2)
      simp [gap_vertical, this.le]
    · rw [not_and_or] at hvy
      rcases hvy with hvy | hvy <;> simp [hvy]
  have hsame : crosses a e.1 e.2 = crosses ⟨a.x, h⟩ e.1 e.2 := by
    have := crosses_xor (q := ⟨a.x, h⟩) h1 hmeets
    rw [hstrip _ hv1, hstrip _ hv2] at this
    simpa using this
  have hon : ¬ OnSegment ⟨a.x, h⟩ e.1 e.2 := fun hon => hmeets ⟨_, onSegment_right _ _, hon⟩
  have hend : ∀ v ∈ area, v.y = h → v.x < a.x := by
    intro v hv hvh
    exact hc.heights v hv (hvh ▸ h1) (hvh ▸ h2)
  obtain ⟨hs1, hs2⟩ := hc.steep e he h h1 h2
  rw [hsame, edgeHits]
  split
  · rename_i hlt
    exact rayHits_eq_crosses hlt.le (hend _ hv1) (hend _ hv2) hon hs1
  · rename_i hge
    rw [crosses_comm]
    exact rayHits_eq_crosses (not_lt.mp hge) (hend _ hv2) (hend _ hv1) (fun h => hon h.symm) hs2

/-- Where the drift is clear, `point_in_polygon` is the even-odd rule. -/
theorem pointInPolygon_of_clear {a b : Point K} {area : List (Point K)} (hc : Clear a b area) :
    pointInPolygon a area = (decide (Inside a area), lifted a area.length) := by
  have hε : (0 : K) < epsilon := epsilon_pos
  exact pointInPolygon_eq (fun e => crosses a e.1 e.2)
    (fun e he h h1 h2 => edgeHits_eq_crosses hc he (by linarith) h2)

omit [LinearOrder K] [IsStrictOrderedRing K] in
theorem det_lifted (a b : Point K) (n : ℕ) : det a b (lifted a n) = (b.x - a.x) * (n * epsilon) := by
  simp only [det, lifted]
  ring

theorem det_lifted_ne_zero {a b : Point K} {area : List (Point K)} (hx : a.x ≠ b.x) {e : Point K × Point K}
    (he : e ∈ edges area) : det a b (lifted a area.length) ≠ 0 := by
  have hε : (0 : K) < epsilon := epsilon_pos
  have hlen : 0 < area.length := List.length_pos_iff.mpr (List.ne_nil_of_mem (mem_of_mem_edges he).1)
  have hpos : (0 : K) < area.length * epsilon := by positivity
  rw [det_lifted]
  exact mul_ne_zero (sub_ne_zero.mpr (Ne.symm hx)) hpos.ne'

/-- A point between two points of a vertical line is between one of them and any third point of it. -/
theorem onSegment_vertical_cases {p q r w : Point K} (hw : OnSegment w p q) (hr : r.x = p.x) (hq : q.x = p.x) :
    OnSegment w p r ∨ OnSegment w r q := by
  have hwp : w.x = p.x := by
    obtain ⟨t, -, -, rfl⟩ := hw
    rw [lerp_x, hq, sub_self, mul_zero, add_zero]
  have hwr : w.x = r.x := hwp.trans hr.symm
  have hwq : w.x = q.x := hwp.trans hq.symm
  rcases min_le_iff.mp hw.min_y_le with hlo | hlo <;> rcases le_total r.y w.y with hrw | hrw
  · exact (le_max_iff.mp hw.le_max_y).elim
      (fun h => Or.inl (onSegment_of_vertical hwp hwr (min_le_of_left_le hlo) (le_max_of_le_left h)))
      (fun h => Or.inr (onSegment_of_vertical hwr hwq (min_le_of_left_le hrw) (le_max_of_le_right h)))
  · exact Or.inl (onSegment_of_vertical hwp hwr (min_le_of_left_le hlo) (le_max_of_le_right hrw))
  · exact (le_max_iff.mp hw.le_max_y).elim
      (fun h => Or.inl (onSegment_of_vertical hwp hwr (min_le_of_right_le hrw) (le_max_of_le_left h)))
      (fun h => Or.inr (onSegment_of_vertical hwr hwq (min_le_of_left_le hrw) (le_max_of_le_right h)))
  · exact Or.inr (onSegment_of_vertical hwr hwq (min_le_of_right_le hlo) (le_max_of_le_left hrw))

/-- Where the drift is clear, a leg that meets an edge is still met after it was lifted. -/
theorem meets_lifted {a b : Point K} {area : List (Point K)} (hc : Clear a b area) {e : Point K × Point K}
    (he : e ∈ edges area) (hm : Meets a b e.1 e.2) : Meets (lifted a area.length) b e.1 e.2 := by
  by_contra hno
  by_cases hx : a.x = b.x
  · -- a vertical leg is part of the drift and of the lifted leg
    obtain ⟨w, hw, hwe⟩ := hm
    rcases onSegment_vertical_cases (r := lifted a area.length) hw rfl hx.symm with h | h
    · exact hc.way e he ⟨w, h, hwe⟩
    · exact hno ⟨w, h, hwe⟩
  · have hD : det a b (lifted a area.length) ≠ 0 := det_lifted_ne_zero hx he
    obtain ⟨h1, h2⟩ := mem_of_mem_edges he
    rcases vertex_of_meets_side hD hm (hc.way e he) hno with h | h
    · exact hc.between _ h1 h
    · exact hc.between _ h2 h

/-- Where the drift is clear, an edge that the lifted leg meets was met before. -/
theorem meets_of_lifted {a b : Point K} {area : List (Point K)} (hc : Clear a b area) {e : Point K × Point K}
    (he : e ∈ edges area) (hm : Meets (lifted a area.length) b e.1 e.2) : Meets a b e.1 e.2 := by
  by_contra hno
  by_cases hx : a.x = b.x
  · obtain ⟨w, hw, hwe⟩ := hm
    rcases onSegment_vertical_cases (r := a) hw rfl hx.symm with h | h
    · exact hc.way e he ⟨w, h.symm, hwe⟩
    · exact hno ⟨w, h, hwe⟩
  · have hD : det (lifted a area.length) b a ≠ 0 := by
      have hflip : det (lifted a area.length) b a = -det a b (lifted a area.length) := by
        simp only [det]
        ring
      rw [hflip]
      exact neg_ne_zero.mpr (det_lifted_ne_zero hx he)
    -- the same triangle from its other corner
    have hturn : ∀ {w : Point K}, InTriangle w (lifted a area.length) b a → InTriangle w a b (lifted a area.length) := by
      rintro w ⟨α, β, γ, hα, hβ, hγ, hsum, rfl⟩
      refine ⟨γ, β, α, hγ, hβ, hα, by linarith, ?_⟩
      ext <;> dsimp only <;> ring
    obtain ⟨h1, h2⟩ := mem_of_mem_edges he
    rcases vertex_of_meets_side hD hm (fun h => hc.way e he h.swap) hno with h | h
    · exact hc.between _ h1 (hturn h)
    · exact hc.between _ h2 (hturn h)

/-! ### The count -/

omit [IsStrictOrderedRing K] in
/-- What one leg adds for one area. -/
def penalty (wp1 wp2 : Point K) (area_n : List (Point K)) : ℕ :=
  (if (pointInPolygon wp1 area_n).1 then 1 else 0) +
    (if segmentInPolygon (pointInPolygon wp1 area_n).2 wp2 area_n then 1 else 0)

omit [Field K] [LinearOrder K] [IsStrictOrderedRing K] in
theorem foldl_eq_sum {α : Type*} {f : ℕ → α → ℕ} {g : α → ℕ} (h : ∀ n a, f n a = n + g a) (l : List α) (n : ℕ) :
    l.foldl f n = n + (l.map g).sum := by
  induction l generalizing n with
  | nil => rfl
  | cons a l ih => rw [List.foldl_cons, ih, h, List.map_cons, List.sum_cons, add_assoc]

omit [IsStrictOrderedRing K] in
theorem fitnessObstacles_eq_sum (route : List (Point K)) (areas : List (List (Point K))) :
    fitnessObstacles route areas =
      ((pairwise route).map (fun t => (areas.map (penalty t.1 t.2)).sum)).sum := by
  unfold fitnessObstacles
  rw [foldl_eq_sum (g := fun t : Point K × Point K => (areas.map (penalty t.1 t.2)).sum), zero_add]
  intro n t
  refine foldl_eq_sum (fun n area => ?_) areas n
  simp only [penalty]
  split <;> split <;> rfl

omit [IsStrictOrderedRing K] in
theorem fitnessObstacles_eq_zero_iff (route : List (Point K)) (areas : List (List (Point K))) :
    fitnessObstacles route areas = 0 ↔ ∀ t ∈ pairwise route, ∀ area ∈ areas,
      (pointInPolygon t.1 area).1 = false ∧
        segmentInPolygon (pointInPolygon t.1 area).2 t.2 area = false := by
  rw [fitnessObstacles_eq_sum]
  simp only [List.sum_eq_zero_iff, List.forall_mem_map, penalty, Nat.add_eq_zero_iff]
  simp

/-- The segment test of an area fails exactly when the segment meets no edge. -/
theorem segmentInPolygon_eq_false_iff (wp1 wp2 : Point K) (polygon : List (Point K)) :
    segmentInPolygon wp1 wp2 polygon = false ↔ ∀ e ∈ edges polygon, ¬ Meets wp1 wp2 e.1 e.2 := by
  unfold segmentInPolygon
  rw [pairwiseCircle_eq_edges, List.any_eq_false]
  simp only [segmentIntersectsSegment_iff]

/-! ### Safety -/

/-- If the count of the route is zero, no point of its legs is in the interior of an area. -/
def SafeWhenZero (route : List (Point K)) (areas : List (SimplePolygon K)) : Prop :=
  fitnessObstacles route (areas.map SimplePolygon.vertices) = 0 →
    ∀ t ∈ pairwise route, ∀ w, OnSegment w t.1 t.2 → ∀ P ∈ areas, ¬ Interior w P.vertices

/-- Where the drift is clear, a leg that adds nothing stays out of the area. -/
theorem not_interior_of_clear {a b w : Point K} {area : List (Point K)} (hc : Clear a b area)
    (hin : (pointInPolygon a area).1 = false)
    (hseg : segmentInPolygon (pointInPolygon a area).2 b area = false) (hw : OnSegment w a b) :
    ¬ Interior w area := by
  rw [pointInPolygon_of_clear hc] at hin hseg
  rw [decide_eq_false_iff_not] at hin
  rw [segmentInPolygon_eq_false_iff] at hseg
  exact not_interior_of_onSegment (fun e he hm => hseg e he (meets_lifted hc he hm)) hin hw

/-- Just below the highest vertex of all areas, a leg that goes up adds nothing. -/
theorem exists_unsafe {areas : List (SimplePolygon K)} (hne : areas ≠ []) :
    ∃ a b : Point K, ¬ SafeWhenZero [a, b] areas := by
  have hheights : areas.flatMap (fun P => P.vertices.map Point.y) ≠ [] := by
    obtain ⟨P, hP⟩ := List.exists_mem_of_ne_nil areas hne
    obtain ⟨v, hv⟩ := List.exists_mem_of_length_pos (Nat.lt_of_lt_of_le (by omega) P.three_le)
    exact List.ne_nil_of_mem (List.mem_flatMap.mpr ⟨P, hP, List.mem_map_of_mem hv⟩)
  obtain ⟨m, hm, hmax⟩ := exists_max hheights
  obtain ⟨P, hP, hPm⟩ := List.mem_flatMap.mp hm
  obtain ⟨v, hv, hvm⟩ := List.mem_map.mp hPm
  have htop : ∀ Q ∈ areas, ∀ u ∈ Q.vertices, u.y ≤ m := by
    intro Q hQ u hu
    exact hmax _ (List.mem_flatMap.mpr ⟨Q, hQ, List.mem_map_of_mem hu⟩)
  obtain ⟨p, hp, hpm, hint⟩ := P.exists_interior_near_top (htop P hP) ⟨v, hv, hvm⟩ (epsilon_pos (K := K))
  refine ⟨p, ⟨p.x, m + 1⟩, fun hsafe => ?_⟩
  refine hsafe ?_ _ List.mem_cons_self p (onSegment_left p _) P hP hint
  rw [fitnessObstacles_eq_zero_iff]
  intro t ht area harea
  obtain ⟨Q, hQ, rfl⟩ := List.mem_map.mp harea
  obtain rfl := List.mem_singleton.mp ht
  have hε : (0 : K) < epsilon := epsilon_pos
  have habove : ∀ e ∈ edges Q.vertices, ∀ h, p.y + epsilon ≤ h → h ≤ p.y + Q.vertices.length * epsilon →
      edgeHits ⟨p.x, h⟩ e = false := by
    intro e he h h1 _
    obtain ⟨he1, he2⟩ := mem_of_mem_edges he
    have hmh : m < h := by linarith
    exact edgeHits_of_lt ((htop Q hQ _ he1).trans_lt hmh) ((htop Q hQ _ he2).trans_lt hmh)
  rw [pointInPolygon_eq (fun _ => false) habove, segmentInPolygon_eq_false_iff]
  refine ⟨by simp, ?_⟩
  rintro e he ⟨w, hw, hwe⟩
  obtain ⟨he1, he2⟩ := mem_of_mem_edges he
  have hlen : (1 : K) ≤ Q.vertices.length := by
    have := Q.three_le
    exact_mod_cast (by omega : 1 ≤ Q.vertices.length)
  have hup : m < p.y + Q.vertices.length * epsilon := by nlinarith
  exact ((lt_min hup (lt_add_one m)).trans_le hw.min_y_le).not_ge
    (hwe.le_max_y.trans (max_le (htop Q hQ _ he1) (htop Q hQ _ he2)))

/-- **Obstacle safety.**  A count of zero means a safe route where the drift of every leg is clear
of every area; without that it does for the empty list of areas and for no other. -/
theorem safeWhenZero_iff (areas : List (SimplePolygon K)) :
    (∀ route, 2 ≤ route.length → (∀ t ∈ pairwise route, ∀ P ∈ areas, Clear t.1 t.2 P.vertices) →
      SafeWhenZero route areas) ∧
    ((∀ route, 2 ≤ route.length → SafeWhenZero route areas) ↔ areas = []) := by
  refine ⟨?_, fun hall => ?_, ?_⟩
  · intro route _ hclear hzero t ht w hw P hP
    rw [fitnessObstacles_eq_zero_iff] at hzero
    obtain ⟨hin, hseg⟩ := hzero t ht _ (List.mem_map_of_mem hP)
    exact not_interior_of_clear (hclear t ht P hP) hin hseg hw
  · by_contra hne
    obtain ⟨a, b, hab⟩ := exists_unsafe hne
    exact hab (hall [a, b] le_rfl)
  · rintro rfl route _ _ t _ w _ P hP
    cases hP

/-! ### A square on its corner -/

/-- A square with its corners on the axes. -/
def diamond : SimplePolygon K where
  vertices := [⟨1, 0⟩, ⟨0, 1⟩, ⟨-1, 0⟩, ⟨0, -1⟩]
  three_le := by simp
  nodup := by
    have hneg : (1 : K) ≠ -1 := by
      intro h
      have hpos : (0 : K) < 1 := zero_lt_one
      linarith
    simp [hneg]
  simple := by
    rw [edges_quadrangle]
    simp only [List.pairwise_cons, List.mem_cons, List.not_mem_nil, or_false, forall_eq_or_imp, forall_eq,
      List.Pairwise.nil, false_imp_iff, implies_true, and_true]
    refine ⟨⟨?_, ?_, ?_⟩, ⟨?_, ?_⟩, ?_⟩ <;> refine shareOnlyEnds_of_lerp (fun s t hs0 hs1 ht0 ht1 h => ?_) <;>
      rw [Point.ext_iff] at h <;> simp only [lerp_x, lerp_y] at h <;> obtain ⟨hx, hy⟩ := h
    · exact ⟨Or.inr (by linarith), Or.inl (by linarith)⟩
    · exfalso
      linarith
    · exact ⟨Or.inl (by linarith), Or.inr (by linarith)⟩
    · exact ⟨Or.inr (by linarith), Or.inl (by linarith)⟩
    · exfalso
      linarith
    · exact ⟨Or.inr (by linarith), Or.inl (by linarith)⟩

theorem diamond_le {v : Point K} (hv : v ∈ (diamond : SimplePolygon K).vertices) : v.x ≤ 1 ∧ v.y ≤ 1 := by
  have h01 : (0 : K) ≤ 1 := zero_le_one
  simp only [diamond, List.mem_cons, List.not_mem_nil, or_false] at hv
  rcases hv with rfl | rfl | rfl | rfl <;> constructor <;> dsimp only <;> linarith

/-- A leg above the square that starts to the right of it is clear. -/
theorem clear_diamond {a b : Point K} (hx : 1 < a.x) (ha : 1 < a.y) (hb : 1 < b.y) :
    Clear a b (diamond : SimplePolygon K).vertices := by
  have hpos : (0 : K) ≤ (diamond : SimplePolygon K).vertices.length * epsilon :=
    mul_nonneg (Nat.cast_nonneg _) epsilon_pos.le
  have hle : 1 < a.y + (diamond : SimplePolygon K).vertices.length * epsilon := by linarith
  have hedge : ∀ e ∈ edges (diamond : SimplePolygon K).vertices, (e.1.x ≤ 1 ∧ e.1.y ≤ 1) ∧ e.2.x ≤ 1 ∧ e.2.y ≤ 1 :=
    fun e he => ⟨diamond_le (mem_of_mem_edges he).1, diamond_le (mem_of_mem_edges he).2⟩
  constructor
  · intro v hv h _
    exact absurd ((ha.trans h).trans_le (diamond_le hv).2) (lt_irrefl 1)
  · rintro e he ⟨w, hw, hwe⟩
    obtain ⟨h1, h2⟩ := hedge e he
    exact ((lt_min ha hle).trans_le hw.min_y_le).not_ge (hwe.le_max_y.trans (max_le h1.2 h2.2))
  · rintro v hv ⟨α, β, γ, hα, hβ, hγ, hsum, rfl⟩
    have hy : α * a.y + β * b.y + γ * (a.y + (diamond : SimplePolygon K).vertices.length * epsilon) ≤ 1 :=
      (diamond_le hv).2
    have h1 : 0 ≤ α * (a.y - min a.y b.y) := mul_nonneg hα (sub_nonneg.mpr (min_le_left _ _))
    have h2 : 0 ≤ β * (b.y - min a.y b.y) := mul_nonneg hβ (sub_nonneg.mpr (min_le_right _ _))
    have h3 : 0 ≤ γ * (a.y + (diamond : SimplePolygon K).vertices.length * epsilon - min a.y b.y) :=
      mul_nonneg hγ (by linarith [min_le_left a.y b.y])
    have hmin : 1 < min a.y b.y := lt_min ha hb
    have hweights : (α + β + γ) * min a.y b.y = min a.y b.y := by rw [hsum, one_mul]
    linarith
  · intro e he h _ _
    obtain ⟨h1, h2⟩ := hedge e he
    exact ⟨fun hax => absurd hax (h1.1.trans_lt hx).ne, fun hax => absurd hax (h2.1.trans_lt hx).ne⟩

end

/-- A point of the square just below the line through its left and right corners. -/
theorem interior_belowMiddle : Interior ⟨0, -3 / 200000⟩ (diamond : SimplePolygon ℝ).vertices := by
  refine ⟨?_, ?_⟩
  · norm_num [Inside, edges_quadrangle, diamond, crosses, intercept]
  · rintro ⟨e, he, hon⟩
    have hdet := hon.det_eq_zero
    simp only [diamond, edges_quadrangle, List.mem_cons, List.not_mem_nil, or_false] at he
    rcases he with rfl | rfl | rfl | rfl <;> norm_num [det] at hdet

theorem pointInPolygon_belowMiddle :
    pointInPolygon ⟨0, -3 / 200000⟩ (diamond : SimplePolygon ℝ).vertices = (false, ⟨0, 5 / 200000⟩) := by
  norm_num [diamond, pointInPolygon, pairwiseCircle, rayIntersectsSegment, rayHits, epsilon]

theorem segmentInPolygon_aboveMiddle :
    segmentInPolygon ⟨0, 5 / 200000⟩ ⟨0, 1 / 10⟩ (diamond : SimplePolygon ℝ).vertices = false := by
  norm_num [segmentInPolygon, diamond, pairwiseCircle, segmentIntersectsSegment, orientation, onSegment]

/-- The first point moves up past the middle of the square before the edge to its right is tested. -/
theorem safeWhenZero_fails :
    ¬ SafeWhenZero [⟨0, -3 / 200000⟩, ⟨0, 1 / 10⟩] [(diamond : SimplePolygon ℝ)] := by
  intro hsafe
  refine hsafe ?_ _ List.mem_cons_self ⟨0, -3 / 200000⟩ (onSegment_left _ _) _ List.mem_cons_self interior_belowMiddle
  have hcount : fitnessObstacles [⟨0, -3 / 200000⟩, ⟨0, 1 / 10⟩] [(diamond : SimplePolygon ℝ).vertices] =
      if segmentInPolygon ⟨0, 5 / 200000⟩ ⟨0, 1 / 10⟩ (diamond : SimplePolygon ℝ).vertices then 1 else 0 := by
    simp only [fitnessObstacles, pairwise, List.tail_cons, List.zip_cons_cons, List.zip_nil_right, List.foldl_cons,
      List.foldl_nil, pointInPolygon_belowMiddle, Bool.false_eq_true, if_false]
  rw [segmentInPolygon_aboveMiddle] at hcount
  exact hcount

theorem safeWhenZero_above : SafeWhenZero [⟨2, 2⟩, ⟨3, 2⟩] [(diamond : SimplePolygon ℝ)] := by
  refine (safeWhenZero_iff [diamond]).1 _ le_rfl ?_
  intro t ht P hP
  obtain rfl := List.mem_singleton.mp ht
  obtain rfl := List.mem_singleton.mp hP
  exact clear_diamond (by norm_num) (by norm_num) (by norm_num)

end DroneArch.Genetic
