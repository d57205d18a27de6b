import DroneArch.ObstacleFitness

/-! # What the point test tests

`point_in_polygon` counts the `n`-th edge with the ray from the point lifted `n` times
(`pointInPolygon_apply`), and counts the closed edge (`edgeHits_iff`), while the even-odd rule
counts half-open edges with one ray.

* `pointInPolygon_evenOdd_iff`: the answer is that of the even-odd rule where the drift of the point
  is clear, and exactly when the edges that are judged differently are even in number.
* `fitnessObstacles_segmentFirst_iff`: the count of `__fitness_obstacles` is the one that leaves
  the first points where they are where every drift is clear, and exactly when the lifted legs lose as
  many areas as they gain. -/

namespace DroneArch.Genetic

open Planar

section
variable {K : Type*} [Field K] [LinearOrder K]

/-! ### One edge -/

/-- The edge starts straight below `P`, or at it, and its slope exceeds the constant that stands for
an infinite one. -/
def TooSteep (P A B : Point K) : Prop :=
  A.x = P.x ∧ A.x < B.x ∧ A.y ≤ P.y ∧ P.y ≤ B.y ∧ 99999999 < (B.y - A.y) / (B.x - A.x)

/-- The ray from `P` to the right touches the edge, which reaches further to the right than `P`
and is not too steep. -/
def RayTouches (P : Point K) (e : Point K × Point K) : Prop :=
  (∃ w, OnSegment w e.1 e.2 ∧ w.y = P.y ∧ P.x ≤ w.x) ∧ P.x < max e.1.x e.2.x ∧
    ¬ TooSteep P e.1 e.2 ∧ ¬ TooSteep P e.2 e.1

theorem RayTouches.swap {P A B : Point K} [IsStrictOrderedRing K] (h : RayTouches P (A, B)) : RayTouches P (B, A) := by
  obtain ⟨⟨w, hw, hwy⟩, hx, h1, h2⟩ := h
  exact ⟨⟨w, hw.symm, hwy⟩, max_comm A.x B.x ▸ hx, h2, h1⟩

variable [IsStrictOrderedRing K]

/-- At the heights of an edge that is not level, the ray touches it when the edge is there. -/
theorem touches_iff_le_intercept {P A B : Point K} (hy : A.y < B.y) :
    (∃ w, OnSegment w A B ∧ w.y = P.y ∧ P.x ≤ w.x) ↔ (A.y ≤ P.y ∧ P.y ≤ B.y) ∧ P.x ≤ intercept A B P.y := by
  constructor
  · rintro ⟨w, hw, hwy, hx⟩
    have h0 := hw.min_y_le
    have h1 := hw.le_max_y
    rw [min_eq_left hy.le, hwy] at h0
    rw [max_eq_right hy.le, hwy] at h1
    rw [hw.x_eq_intercept hy.ne, hwy] at hx
    exact ⟨⟨h0, h1⟩, hx⟩
  · rintro ⟨⟨h0, h1⟩, hx⟩
    exact ⟨_, onSegment_at_height h0 h1 hy, rfl, hx⟩

/-- A level edge is touched from its own height when it reaches further to the right. -/
theorem touches_level {P A B : Point K} (hy : A.y = B.y) (hx : P.x < max A.x B.x) :
    (∃ w, OnSegment w A B ∧ w.y = P.y ∧ P.x ≤ w.x) ↔ P.y = A.y := by
  constructor
  · rintro ⟨w, ⟨t, -, -, rfl⟩, hwy, -⟩
    rw [← hwy, lerp_y, hy, sub_self, mul_zero, add_zero]
  · intro h
    rcases lt_max_iff.mp hx with hA | hB
    · exact ⟨A, onSegment_left A B, h.symm, hA.le⟩
    · exact ⟨B, onSegment_right A B, (h.trans hy).symm, hB.le⟩

/-- At its heights the edge is met from anywhere to the left of both its ends. -/
theorem touches_of_le_min {P A B : Point K} (hAB : A.y ≤ B.y) (hout : A.y ≤ P.y ∧ P.y ≤ B.y)
    (hmin : P.x ≤ min A.x B.x) (hge : P.x < max A.x B.x) : ∃ w, OnSegment w A B ∧ w.y = P.y ∧ P.x ≤ w.x := by
  rcases hAB.lt_or_eq with hlt | heq
  · exact (touches_iff_le_intercept hlt).mpr
      ⟨hout, hmin.trans (onSegment_at_height hout.1 hout.2 hlt).min_x_le⟩
  · exact (touches_level heq hge).mpr (le_antisymm (heq ▸ hout.2) hout.1)

/-- The ray test for an edge with its lower end first. -/
theorem rayHits_iff {P A B : Point K} (hAB : A.y ≤ B.y) : rayHits P A B = true ↔ RayTouches P (A, B) := by
  have hflip : ¬ TooSteep P B A := by
    rintro ⟨-, hx, h0, h1, hs⟩
    have hy : A.y - B.y = 0 := sub_eq_zero.mpr (le_antisymm hAB (h0.trans h1))
    rw [hy, zero_div] at hs
    exact absurd hs (by norm_num)
  unfold RayTouches rayHits
  simp only [hflip, not_false_eq_true, and_true]
  by_cases hout : P.y < A.y ∨ P.y > B.y
  · -- above or below the edge
    rw [if_pos hout]
    refine iff_of_false Bool.false_ne_true ?_
    rintro ⟨⟨w, hw, hwy, -⟩, -⟩
    have h0 := hw.min_y_le
    have h1 := hw.le_max_y
    rw [min_eq_left hAB, hwy] at h0
    rw [max_eq_right hAB, hwy] at h1
    exact hout.elim h0.not_gt h1.not_gt
  rw [if_neg hout]
  rw [not_or, not_lt, gt_iff_lt, not_lt] at hout
  by_cases hge : P.x ≥ max A.x B.x
  · rw [if_pos hge]
    exact iff_of_false Bool.false_ne_true fun h => hge.not_gt h.2.1
  rw [if_neg hge]
  rw [ge_iff_le, not_le] at hge
  by_cases hmin : P.x < min A.x B.x
  · -- to the left of both ends
    rw [if_pos hmin]
    exact iff_of_true rfl
      ⟨touches_of_le_min hAB hout hmin.le hge, hge, fun hs => hmin.not_ge (hs.1 ▸ min_le_left A.x B.x)⟩
  rw [if_neg hmin]
  rw [not_lt] at hmin
  have hABx := ne_of_min_le_of_lt_max hmin hge
  rw [if_pos hABx, decide_eq_true_eq, ge_iff_le]
  by_cases hAPx : A.x = P.x
  · -- the lower end is straight below, and only the slope decides
    have hlt : A.x < B.x := hAPx ▸ (lt_max_iff.mp hge).resolve_left hAPx.not_gt
    have hle : P.x ≤ min A.x B.x := by
      rw [min_eq_left hlt.le, hAPx]
    have htouch := touches_of_le_min hAB hout hle hge
    rw [if_neg (not_not.mpr hAPx)]
    refine ⟨fun hs => ⟨htouch, hge, fun h => h.2.2.2.2.not_ge hs⟩, ?_⟩
    rintro ⟨-, -, hs⟩
    by_contra hgt
    exact hs ⟨hAPx, hlt, hout.1, hout.2, not_le.mp hgt⟩
  · rw [if_pos hAPx]
    have hs : ¬ TooSteep P A B := fun h => hAPx h.1
    rcases hAB.lt_or_eq with hy | hy
    · rw [slope_le_iff hy hmin hge hAPx, touches_iff_le_intercept hy]
      exact ⟨fun h => ⟨⟨hout, h⟩, hge, hs⟩, fun h => h.1.2⟩
    · have hPy : P.y = A.y := le_antisymm (hy ▸ hout.2) hout.1
      refine iff_of_true ?_ ⟨(touches_level hy hge).mpr hPy, hge, hs⟩
      rw [← hy, hPy, sub_self, zero_div, zero_div]

/-- **The test of an edge.**  It holds when the closed ray touches the closed edge, but for edges
that reach no further to the right than the point and for edges that are too steep. -/
theorem edgeHits_iff (P : Point K) (e : Point K × Point K) : edgeHits P e = true ↔ RayTouches P e := by
  unfold edgeHits
  split
  · rename_i h
    exact rayHits_iff h.le
  · rename_i h
    rw [rayHits_iff (not_lt.mp h)]
    exact ⟨RayTouches.swap, RayTouches.swap⟩

/-! ### All edges -/

omit [Field K] [LinearOrder K] [IsStrictOrderedRing K] in
theorem countP_xor {α : Type*} (f g : α → Bool) (l : List α) :
    l.countP (fun a => f a ^^ g a) + 2 * l.countP (fun a => f a && g a) = l.countP f + l.countP g := by
  induction l with
  | nil => rfl
  | cons a l ih =>
      simp only [List.countP_cons]
      cases f a <;> cases g a <;> simp <;> omega

end

section
variable {K : Type*} [Field K] [LinearOrder K] [IsStrictOrderedRing K]

open Classical in
/-- The edges that the point test and the even-odd rule judge differently: the ray from the point
lifted as often as the edge's place in the list touches the edge, and the ray from the point
does not cross it, or the other way round. -/
noncomputable def misjudged (p : Point K) (vs : List (Point K)) : ℕ :=
  ((edges vs).zipIdx 1).countP (fun t => decide (RayTouches (lifted p t.2) t.1) ^^ crosses p t.1.1 t.1.2)

/-- The answer is that of the even-odd rule when the misjudged edges are even in number. -/
theorem pointInPolygon_iff_inside (p : Point K) (vs : List (Point K)) :
    ((pointInPolygon p vs).1 = true ↔ Inside p vs) ↔ Even (misjudged p vs) := by
  classical
  have hcross : ((edges vs).zipIdx 1).countP (fun t => crosses p t.1.1 t.1.2) =
      (edges vs).countP (fun e => crosses p e.1 e.2) := by
    conv_rhs => rw [← List.zipIdx_map_fst 1 (edges vs), List.countP_map]
    rfl
  have htest : ((edges vs).zipIdx 1).countP (fun t => edgeHits (lifted p t.2) t.1) =
      ((edges vs).zipIdx 1).countP (fun t => decide (RayTouches (lifted p t.2) t.1)) := by
    refine List.countP_congr (fun t _ => ?_)
    rw [edgeHits_iff, decide_eq_true_eq]
  have hsum := countP_xor (fun t : (Point K × Point K) × ℕ => decide (RayTouches (lifted p t.2) t.1))
    (fun t => crosses p t.1.1 t.1.2) ((edges vs).zipIdx 1)
  rw [pointInPolygon_apply, htest, decide_eq_true_eq, Inside, ← hcross, misjudged]
  rw [Nat.odd_iff, Nat.odd_iff, Nat.even_iff]
  omega

end

/-- **The point test and the even-odd rule.**  Off the boundary of a simple polygon and where the drift of
the point is clear, the test answers whether the point is in the interior; in general it does when the
misjudged edges are even in number, and only then.  Two lists of the polygon get one answer when both
are judged rightly or both wrongly, and only then. -/
theorem pointInPolygon_evenOdd_iff (P : SimplePolygon ℝ) (p : Point ℝ) (hp : ¬ OnBoundary p P.vertices) :
    (Clear p p P.vertices → ((pointInPolygon p P.vertices).1 = true ↔ Interior p P.vertices)) ∧
    (((pointInPolygon p P.vertices).1 = true ↔ Interior p P.vertices) ↔ Even (misjudged p P.vertices)) ∧
    ∀ vs, SameRing vs P.vertices →
      ((pointInPolygon p vs).1 = (pointInPolygon p P.vertices).1 ↔
        (Even (misjudged p vs) ↔ Even (misjudged p P.vertices))) := by
  have hinside : Inside p P.vertices ↔ Interior p P.vertices := ⟨fun h => ⟨h, hp⟩, fun h => h.1⟩
  refine ⟨fun hc => ?_, ?_, fun vs hvs => ?_⟩
  · rw [← hinside, pointInPolygon_of_clear hc, decide_eq_true_eq]
  · rw [← pointInPolygon_iff_inside, hinside]
  · rw [← pointInPolygon_iff_inside, ← pointInPolygon_iff_inside, hvs.inside_iff, Bool.eq_iff_iff]
    tauto

theorem pointInPolygon_evenOdd_above :
    (pointInPolygon ⟨2, 2⟩ (diamond : SimplePolygon ℝ).vertices).1 = true ↔
      Interior ⟨2, 2⟩ (diamond : SimplePolygon ℝ).vertices := by
  have hp : ¬ OnBoundary ⟨2, 2⟩ (diamond : SimplePolygon ℝ).vertices := by
    rintro ⟨e, he, hon⟩
    have hy := max_le (diamond_le (mem_of_mem_edges he).1).2 (diamond_le (mem_of_mem_edges he).2).2
    exact absurd (hon.le_max_y.trans hy) (by norm_num)
  have hclear := (pointInPolygon_evenOdd_iff diamond ⟨2, 2⟩ hp).1
  exact hclear (clear_diamond (by norm_num) (by norm_num) (by norm_num))

/-- Below the middle of the square the edge to the lower right is tested too early or too late for
the other one, as the list has it. -/
theorem pointInPolygon_evenOdd_fails :
    ¬ ((pointInPolygon ⟨0, -3 / 200000⟩ (diamond : SimplePolygon ℝ).vertices).1 = true ↔
      Interior ⟨0, -3 / 200000⟩ (diamond : SimplePolygon ℝ).vertices) ∧
    (pointInPolygon ⟨0, -3 / 200000⟩ ((diamond : SimplePolygon ℝ).vertices.rotate 1)).1 ≠
      (pointInPolygon ⟨0, -3 / 200000⟩ (diamond : SimplePolygon ℝ).vertices).1 := by
  have hmiss : (pointInPolygon ⟨0, -3 / 200000⟩ (diamond : SimplePolygon ℝ).vertices).1 = false := by
    norm_num [diamond, pointInPolygon, pairwiseCircle, rayIntersectsSegment, rayHits, epsilon]
  have hhit : (pointInPolygon ⟨0, -3 / 200000⟩ ((diamond : SimplePolygon ℝ).vertices.rotate 1)).1 = true := by
    norm_num [diamond, pointInPolygon, pairwiseCircle, rayIntersectsSegment, rayHits, epsilon,
      List.rotate_cons_succ]
  rw [hmiss, hhit]
  exact ⟨fun h => Bool.false_ne_true (h.mpr interior_belowMiddle), Bool.false_ne_true.symm⟩

/-! ### The segment test after the point test -/

section
variable {K : Type*} [Field K] [LinearOrder K]

/-- `Genetic.__fitness_obstacles` with the segment test of each leg and area before the point test. -/
def fitnessObstaclesSegmentFirst (dnaDecoded : List (Point K)) (areasNInf : List (List (Point K))) : ℕ :=
  (pairwise dnaDecoded).foldl (fun count t =>
    areasNInf.foldl (fun count area_n =>
      let wp1 := t.1
      let wp2 := t.2
      let crossing := segmentInPolygon wp1 wp2 area_n
      let inside := pointInPolygon wp1 area_n
      let count := if inside.1 then count + 1 else count
      if crossing then count + 1 else count) count) 0

/-- The leg from `a` to `b` meets an edge of the area. -/
def LegMeets (a b : Point K) (area : List (Point K)) : Prop := ∃ e ∈ edges area, Meets a b e.1 e.2

open Classical in
/-- The legs and areas that meet, where the lifted leg does not. -/
noncomputable def lostLegs (route : List (Point K)) (areas : List (List (Point K))) : ℕ :=
  (pairwise route ×ˢ areas).countP (fun s =>
    decide (LegMeets s.1.1 s.1.2 s.2) && !decide (LegMeets (lifted s.1.1 s.2.length) s.1.2 s.2))

open Classical in
/-- The legs and areas that do not meet, where the lifted leg does. -/
noncomputable def gainedLegs (route : List (Point K)) (areas : List (List (Point K))) : ℕ :=
  (pairwise route ×ˢ areas).countP (fun s =>
    decide (LegMeets (lifted s.1.1 s.2.length) s.1.2 s.2) && !decide (LegMeets s.1.1 s.1.2 s.2))

theorem sum_product {α β : Type*} (f : α → β → ℕ) (l : List α) (m : List β) :
    (l.map (fun a => (m.map (f a)).sum)).sum = ((l ×ˢ m).map (fun s => f s.1 s.2)).sum := by
  induction l with
  | nil => rfl
  | cons a l ih =>
      rw [List.map_cons, List.sum_cons, ih, List.product_cons, List.map_append, List.sum_append, List.map_map]
      rfl

/-- Two sums whose terms differ by a mark on either side differ by the numbers of marks. -/
theorem sum_add_countP {α : Type*} {f g : α → ℕ} {b c : α → Bool} {l : List α}
    (h : ∀ a ∈ l, f a + (b a).toNat = g a + (c a).toNat) :
    (l.map f).sum + l.countP b = (l.map g).sum + l.countP c := by
  induction l with
  | nil => rfl
  | cons a l ih =>
      have ha := h a List.mem_cons_self
      have hl := ih fun a' ha' => h a' (List.mem_cons_of_mem _ ha')
      rw [List.map_cons, List.map_cons, List.sum_cons, List.sum_cons, List.countP_cons, List.countP_cons]
      cases hb : b a <;> cases hc : c a <;> rw [hb, hc] at ha <;> simp at ha ⊢ <;> omega

/-- The terms of the count, and what the segment test adds to each. -/
theorem fitnessObstaclesSegmentFirst_eq_sum (route : List (Point K)) (areas : List (List (Point K))) :
    fitnessObstaclesSegmentFirst route areas =
      ((pairwise route ×ˢ areas).map (fun s => (pointInPolygon s.1.1 s.2).1.toNat +
        (segmentInPolygon s.1.1 s.1.2 s.2).toNat)).sum := by
  have hterm : ∀ (t : Point K × Point K) (count : ℕ), areas.foldl (fun count area_n =>
      let wp1 := t.1
      let wp2 := t.2
      let crossing := segmentInPolygon wp1 wp2 area_n
      let inside := pointInPolygon wp1 area_n
      let count := if inside.1 then count + 1 else count
      if crossing then count + 1 else count) count =
      count + (areas.map (fun area => (pointInPolygon t.1 area).1.toNat + (segmentInPolygon t.1 t.2 area).toNat)).sum := by
    intro t count
    refine foldl_eq_sum (fun n area => ?_) areas count
    dsimp only
    cases (pointInPolygon t.1 area).1 <;> cases segmentInPolygon t.1 t.2 area <;> rfl
  unfold fitnessObstaclesSegmentFirst
  rw [foldl_eq_sum (fun n t => hterm t n), zero_add]
  exact sum_product (fun (t : Point K × Point K) area =>
    (pointInPolygon t.1 area).1.toNat + (segmentInPolygon t.1 t.2 area).toNat) _ _

variable [IsStrictOrderedRing K]

open Classical in
theorem segmentInPolygon_eq_decide (a b : Point K) (area : List (Point K)) :
    segmentInPolygon a b area = decide (LegMeets a b area) := by
  rw [Bool.eq_iff_iff, decide_eq_true_eq, ← not_iff_not, Bool.not_eq_true, segmentInPolygon_eq_false_iff]
  simp [LegMeets]

omit [IsStrictOrderedRing K] in
theorem penalty_eq (a b : Point K) (area : List (Point K)) :
    penalty a b area = (pointInPolygon a area).1.toNat + (segmentInPolygon (lifted a area.length) b area).toNat := by
  have hdrift : (pointInPolygon a area).2 = lifted a area.length := by rw [pointInPolygon_apply]
  unfold penalty
  rw [hdrift]
  cases (pointInPolygon a area).1 <;> cases segmentInPolygon (lifted a area.length) b area <;> rfl

/-- What the count of the code and the count with the segment test first differ by. -/
theorem fitnessObstacles_add_lostLegs (route : List (Point K)) (areas : List (List (Point K))) :
    fitnessObstacles route areas + lostLegs route areas =
      fitnessObstaclesSegmentFirst route areas + gainedLegs route areas := by
  classical
  rw [fitnessObstacles_eq_sum, sum_product, fitnessObstaclesSegmentFirst_eq_sum, lostLegs, gainedLegs]
  refine sum_add_countP fun s _ => ?_
  rw [penalty_eq, segmentInPolygon_eq_decide, segmentInPolygon_eq_decide]
  generalize (pointInPolygon s.1.1 s.2).1 = inside
  generalize decide (LegMeets s.1.1 s.1.2 s.2) = before
  generalize decide (LegMeets (lifted s.1.1 s.2.length) s.1.2 s.2) = after
  cases inside <;> cases before <;> cases after <;> rfl

/-- Where the drift is clear, the lifted leg meets the area as the leg does. -/
theorem legMeets_lifted_iff {a b : Point K} {area : List (Point K)} (hc : Clear a b area) :
    LegMeets (lifted a area.length) b area ↔ LegMeets a b area := by
  constructor
  · rintro ⟨e, he, hm⟩
    exact ⟨e, he, meets_of_lifted hc he hm⟩
  · rintro ⟨e, he, hm⟩
    exact ⟨e, he, meets_lifted hc he hm⟩

end

/-- **The order of the two tests.**  Where every drift is clear, the count is the one with the segment test
first; in general it is when the lifted legs miss as many areas as they meet in addition.  The point
test leaves its point unchanged for the polygon without vertices and for no other. -/
theorem fitnessObstacles_segmentFirst_iff (route : List (Point ℝ)) (areas : List (List (Point ℝ))) :
    ((∀ t ∈ pairwise route, ∀ area ∈ areas, Clear t.1 t.2 area) →
      fitnessObstacles route areas = fitnessObstaclesSegmentFirst route areas) ∧
    (fitnessObstacles route areas = fitnessObstaclesSegmentFirst route areas ↔
      lostLegs route areas = gainedLegs route areas) ∧
    ∀ (point : Point ℝ) (polygon : List (Point ℝ)), (pointInPolygon point polygon).2 = point ↔ polygon = [] := by
  have hsum := fitnessObstacles_add_lostLegs route areas
  refine ⟨fun hclear => ?_, by omega, fun point polygon => ?_⟩
  · have hsame : lostLegs route areas = gainedLegs route areas := by
      refine List.countP_congr (fun s hs => ?_)
      obtain ⟨ht, harea⟩ := List.mem_product.mp hs
      have hmeets := legMeets_lifted_iff (hclear _ ht _ harea)
      simp [hmeets]
    omega
  · have hε : (0 : ℝ) < epsilon := epsilon_pos
    rw [pointInPolygon_apply]
    refine ⟨fun h => ?_, ?_⟩
    · have hy : point.y + polygon.length * epsilon = point.y := congrArg Point.y h
      have hzero : (polygon.length : ℝ) * epsilon = 0 := by linarith
      rcases mul_eq_zero.mp hzero with h0 | h0
      · exact List.length_eq_zero_iff.mp (by exact_mod_cast h0)
      · exact absurd h0 hε.ne'
    · rintro rfl
      exact lifted_zero point

theorem pointInPolygon_top :
    pointInPolygon ⟨0, 1⟩ (diamond : SimplePolygon ℝ).vertices = (false, ⟨0, 1 + 4 / 100000⟩) := by
  norm_num [diamond, pointInPolygon, pairwiseCircle, rayIntersectsSegment, rayHits, epsilon]

theorem segmentInPolygon_top : segmentInPolygon ⟨0, 1⟩ ⟨0, 2⟩ (diamond : SimplePolygon ℝ).vertices = true := by
  have hedge : ((⟨1, 0⟩, ⟨0, 1⟩) : Point ℝ × Point ℝ) ∈ pairwiseCircle (diamond : SimplePolygon ℝ).vertices :=
    List.mem_cons_self
  have htouch : segmentIntersectsSegment (⟨0, 1⟩ : Point ℝ) ⟨0, 2⟩ ⟨1, 0⟩ ⟨0, 1⟩ = true := by
    norm_num [segmentIntersectsSegment, orientation, onSegment]
  exact List.any_eq_true.mpr ⟨_, hedge, htouch⟩

theorem segmentInPolygon_aboveTop :
    segmentInPolygon ⟨0, 1 + 4 / 100000⟩ ⟨0, 2⟩ (diamond : SimplePolygon ℝ).vertices = false := by
  norm_num [segmentInPolygon, diamond, pairwiseCircle, segmentIntersectsSegment, orientation, onSegment]

/-- A leg that starts at the top of the square starts above it after the point test. -/
theorem fitnessObstacles_segmentFirst_fails :
    fitnessObstacles [⟨0, 1⟩, ⟨0, 2⟩] [(diamond : SimplePolygon ℝ).vertices] = 0 ∧
    fitnessObstaclesSegmentFirst [⟨0, 1⟩, ⟨0, 2⟩] [(diamond : SimplePolygon ℝ).vertices] = 1 ∧
    (pointInPolygon ⟨0, 1⟩ (diamond : SimplePolygon ℝ).vertices).2 ≠ ⟨0, 1⟩ := by
  refine ⟨?_, ?_, ?_⟩
  · simp [fitnessObstacles, pairwise, pointInPolygon_top, segmentInPolygon_aboveTop]
  · simp [fitnessObstaclesSegmentFirst, pairwise, pointInPolygon_top, segmentInPolygon_top]
  · rw [pointInPolygon_top]
    norm_num

end DroneArch.Genetic
