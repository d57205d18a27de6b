import Mathlib.Algebra.Order.Floor.Semiring
import Mathlib.Analysis.InnerProductSpace.Basic
import DroneArch.Numerals

/-! # Lines across a rectangle

A rectangle with the sides `v` and `w` at `a`, in a real inner product space, and lines across it that are parallel to
`v`.  The line at `τ` begins at `a + τ • w`.

* `exists_near_line_iff`: how near a point of the rectangle is to a line.
* `Rectangle.flip`, `Rectangle.swap`: a rectangle from its other corners.
* `covered_iff`: lines at the multiples of `1 / T` come near all points when the last one is near the far side. -/

namespace Strips

variable {V : Type*} [NormedAddCommGroup V] [InnerProductSpace ℝ V]

/-- The point of the rectangle with the coordinates `u` and `t`. -/
def place (a v w : V) (u t : ℝ) : V := a + u • v + t • w

/-- The line across the rectangle at `τ`. -/
def line (a v w : V) (τ : ℝ) : Set V := {y | ∃ u, 0 ≤ u ∧ u ≤ 1 ∧ y = place a v w u τ}

/-- Every point of the rectangle is within `r` of a line at a multiple of `1 / T`. -/
def Covered (a v w : V) (T r : ℝ) : Prop :=
  ∀ u t, 0 ≤ u → u ≤ 1 → 0 ≤ t → t ≤ 1 → ∃ i ≤ ⌊T⌋₊, ∃ y ∈ line a v w (i / T), dist (place a v w u t) y ≤ r

variable {a v w : V}

theorem place_sub (u t u' t' : ℝ) : place a v w u t - place a v w u' t' = (u - u') • v + (t - t') • w := by
  unfold place
  module

/-- Across the lines the distance is the one along the other side. -/
theorem le_dist_place (h : inner ℝ v w = 0) (u t u' t' : ℝ) :
    |t - t'| * ‖w‖ ≤ dist (place a v w u t) (place a v w u' t') := by
  have hinner : inner ℝ ((u - u') • v) ((t - t') • w) = 0 := by
    rw [real_inner_smul_left, real_inner_smul_right, h, mul_zero, mul_zero]
  have hpyth := norm_add_sq_eq_norm_sq_add_norm_sq_real hinner
  rw [dist_eq_norm, place_sub, ← Real.norm_eq_abs, ← norm_smul]
  refine (mul_self_le_mul_self_iff (norm_nonneg _) (norm_nonneg _)).mpr ?_
  rw [hpyth]
  exact le_add_of_nonneg_left (mul_self_nonneg _)

theorem dist_place_same (u t t' : ℝ) : dist (place a v w u t) (place a v w u t') = |t - t'| * ‖w‖ := by
  rw [dist_eq_norm, place_sub, sub_self, zero_smul, zero_add, norm_smul, Real.norm_eq_abs]

/-- A point is near a line when its second coordinate is. -/
theorem exists_near_line_iff (h : inner ℝ v w = 0) {u : ℝ} (hu : 0 ≤ u ∧ u ≤ 1) (t τ r : ℝ) :
    (∃ y ∈ line a v w τ, dist (place a v w u t) y ≤ r) ↔ |t - τ| * ‖w‖ ≤ r := by
  constructor
  · rintro ⟨_, ⟨u', -, -, rfl⟩, hle⟩
    exact (le_dist_place h u t u' τ).trans hle
  · intro hle
    exact ⟨_, ⟨u, hu.1, hu.2, rfl⟩, (dist_place_same u t τ).trans_le hle⟩

/-- Up to the last line there is one at most half a step away. -/
theorem exists_floor_near {T t : ℝ} (ht : 0 ≤ t) (hlast : t ≤ ⌊T⌋₊) : ∃ i ≤ ⌊T⌋₊, |t - i| ≤ 1 / 2 := by
  have hlow := Nat.floor_le ht
  have hhigh := Nat.lt_floor_add_one t
  have hle : ⌊t⌋₊ ≤ ⌊T⌋₊ := Nat.floor_le_of_le hlast
  rcases le_or_gt (t - ⌊t⌋₊) (1 / 2) with hnear | hnear
  · exact ⟨⌊t⌋₊, hle, abs_le.mpr ⟨by linarith, hnear⟩⟩
  · -- the next line is nearer, and it is not beyond the last one
    have hlt : ⌊t⌋₊ < ⌊T⌋₊ := by
      refine lt_of_le_of_ne hle fun heq => ?_
      rw [heq] at hnear
      linarith
    refine ⟨⌊t⌋₊ + 1, hlt, abs_le.mpr ⟨?_, ?_⟩⟩ <;> push_cast <;> linarith

/-- **Coverage.**  Lines whose distance is at most `2 * r` come within `r` of the whole rectangle exactly when the last
one is within `r` of the far side. -/
theorem covered_iff (h : inner ℝ v w = 0) {T r : ℝ} (hT : 0 < T) (hstep : ‖w‖ / T ≤ 2 * r) :
    Covered a v w T r ↔ (T - ⌊T⌋₊) / T * ‖w‖ ≤ r := by
  have hfloor := Nat.floor_le hT.le
  constructor
  · intro hcov
    obtain ⟨i, hi, hnear⟩ := hcov 0 1 le_rfl zero_le_one zero_le_one le_rfl
    have hi' : (i : ℝ) ≤ ⌊T⌋₊ := Nat.cast_le.mpr hi
    refine le_trans ?_ ((exists_near_line_iff h ⟨le_rfl, zero_le_one⟩ 1 _ r).mp hnear)
    refine mul_le_mul_of_nonneg_right ?_ (norm_nonneg w)
    have hgap : (T - ⌊T⌋₊) / T ≤ 1 - i / T := by
      rw [one_sub_div hT.ne']
      exact div_le_div_of_nonneg_right (by linarith) hT.le
    exact hgap.trans (le_abs_self _)
  · intro hgap u t hu hu1 ht ht1
    rcases le_or_gt (t * T) ⌊T⌋₊ with hlast | hbeyond
    · obtain ⟨i, hi, hnear⟩ := exists_floor_near (mul_nonneg ht hT.le) hlast
      refine ⟨i, hi, (exists_near_line_iff h ⟨hu, hu1⟩ t _ r).mpr ?_⟩
      have hscale : |t - i / T| * ‖w‖ = |t * T - i| * (‖w‖ / T) := by
        rw [show t - i / T = (t * T - i) / T by field_simp, abs_div, abs_of_pos hT]
        ring
      rw [hscale]
      have hstep' : 0 ≤ ‖w‖ / T := div_nonneg (norm_nonneg w) hT.le
      nlinarith
    · refine ⟨⌊T⌋₊, le_rfl, (exists_near_line_iff h ⟨hu, hu1⟩ t _ r).mpr (le_trans ?_ hgap)⟩
      refine mul_le_mul_of_nonneg_right ?_ (norm_nonneg w)
      have hpos : 0 ≤ t - ⌊T⌋₊ / T := by
        rw [sub_nonneg, div_le_iff₀ hT]
        exact hbeyond.le
      rw [abs_of_nonneg hpos, sub_div, div_self hT.ne']
      linarith

/-! ### The corners -/

/-- The corners of a rectangle, in their order around it. -/
structure Rectangle (a b c d : V) : Prop where
  parallel : c - b = d - a
  perp : inner ℝ (b - a) (d - a) = 0

/-- The points between the corner `a` and its neighbours `b` and `d`. -/
def region (a b d : V) : Set V :=
  {x | ∃ u t, 0 ≤ u ∧ u ≤ 1 ∧ 0 ≤ t ∧ t ≤ 1 ∧ x = place a (b - a) (d - a) u t}

variable {b c d : V}

theorem Rectangle.other (h : Rectangle a b c d) : c - d = b - a := sub_eq_sub_iff_sub_eq_sub.mp h.parallel

/-- The opposite side first. -/
theorem Rectangle.flip (h : Rectangle a b c d) : Rectangle d c b a where
  parallel := by rw [← neg_sub c b, ← neg_sub d a, h.parallel]
  perp := by rw [h.other, ← neg_sub d a, inner_neg_right, h.perp, neg_zero]

/-- The other direction around. -/
theorem Rectangle.swap (h : Rectangle a b c d) : Rectangle a d c b where
  parallel := h.other
  perp := by rw [real_inner_comm, h.perp]

theorem region_flip (h : Rectangle a b c d) : region d c a = region a b d := by
  have hplace : ∀ u t, place d (c - d) (a - d) u t = place a (b - a) (d - a) u (1 - t) := by
    intro u t
    rw [h.other]
    unfold place
    module
  ext x
  constructor
  · rintro ⟨u, t, hu, hu1, ht, ht1, rfl⟩
    exact ⟨u, 1 - t, hu, hu1, by linarith, by linarith, hplace u t⟩
  · rintro ⟨u, t, hu, hu1, ht, ht1, rfl⟩
    exact ⟨u, 1 - t, hu, hu1, by linarith, by linarith, by rw [hplace, sub_sub_cancel]⟩

theorem region_swap (a b d : V) : region a d b = region a b d := by
  have hplace : ∀ u t, place a (d - a) (b - a) u t = place a (b - a) (d - a) t u := by
    intro u t
    unfold place
    module
  ext x
  constructor
  · rintro ⟨u, t, hu, hu1, ht, ht1, rfl⟩
    exact ⟨t, u, ht, ht1, hu, hu1, hplace u t⟩
  · rintro ⟨u, t, hu, hu1, ht, ht1, rfl⟩
    exact ⟨t, u, ht, ht1, hu, hu1, (hplace t u).symm⟩

end Strips
