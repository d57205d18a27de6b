import DroneArch.Strips
import DroneArch.SweepLines

/-! # The coverage of a sweep

The lines of a rectangular area are parallel, at equal distances.  Their distance is that of a fractional
number of turns, and their number is its integer part, so a strip of the area is left beyond the
last line.

* `area_covered_iff`: the area is covered exactly when this strip is at most half a footprint wide.
* `covered_of_overlap`: with an overlap of a half it is. -/

namespace DroneArch.SweepMission

open Real

/-! ### Rectangles and lines -/

/-- The scalar product. -/
def CartesianPoint.dot (p q : CartesianPoint) : ℝ := p.x * q.x + p.y * q.y + p.z * q.z

namespace Area
variable (a : Area)

/-- Opposite sides are parallel, and neighbouring ones are at right angles. -/
def Rectangular : Prop :=
  (a.points 2).minus (a.points 1) = (a.points 3).minus (a.points 0) ∧
  ((a.points 1).minus (a.points 0)).dot ((a.points 3).minus (a.points 0)) = 0

/-- The points of a rectangular area. -/
def Inside (p : CartesianPoint) : Prop :=
  ∃ u t, 0 ≤ u ∧ u ≤ 1 ∧ 0 ≤ t ∧ t ≤ 1 ∧
    p = ((a.points 0).sumproduct u ((a.points 1).minus (a.points 0))).sumproduct t ((a.points 3).minus (a.points 0))

end Area

namespace Mission

noncomputable section
variable (m : Mission)

/-- The points of the line `i`. -/
def OnLine (i : ℕ) (p : CartesianPoint) : Prop :=
  ∃ u, 0 ≤ u ∧ u ≤ 1 ∧ p = (m.leftEnd i).sumproduct u ((m.rightEnd i).minus (m.leftEnd i))

/-- Every point of the area is within half a footprint of a line. -/
def Covered : Prop := ∀ p, m.area.Inside p → ∃ i < m.lines, ∃ q, m.OnLine i q ∧ dist p q ≤ m.footprint / 2

/-- The corner where the first line begins, the side along the lines, and the side across them. -/
def origin : EuclideanSpace ℝ (Fin 3) := m.cornerPoints.1.toVec

def along : EuclideanSpace ℝ (Fin 3) := m.cornerPoints.2.1.toVec - m.cornerPoints.1.toVec

def across : EuclideanSpace ℝ (Fin 3) := m.cornerPoints.2.2.2.toVec - m.cornerPoints.1.toVec

/-- The width of the strip beyond the last line: the side that is swept has `turns` steps. -/
def farGap : ℝ :=
  let turns := 0.8 + m.sweptSide / (m.footprint * (1 - m.sobrePosicao))
  (turns - ⌊turns⌋₊) / turns * m.sweptSide

end

end Mission

/-! ### The rectangle of a table of corners -/

theorem CartesianPoint.dot_eq_inner (p q : CartesianPoint) : p.dot q = inner ℝ p.toVec q.toVec := by
  unfold dot
  rw [PiLp.inner_apply, Fin.sum_univ_three]
  simp only [toVec]
  simp [mul_comm]

namespace Mission
variable {m : Mission}

/-- The corners in the order of the table. -/
theorem rectangle_corners (h : m.area.Rectangular) : Strips.Rectangle m.cornerPoints.1.toVec
      m.cornerPoints.2.1.toVec m.cornerPoints.2.2.1.toVec m.cornerPoints.2.2.2.toVec ∧
    Strips.region m.cornerPoints.1.toVec m.cornerPoints.2.1.toVec m.cornerPoints.2.2.2.toVec =
      Strips.region (m.area.points 0).toVec (m.area.points 1).toVec (m.area.points 3).toVec := by
  have hrect : Strips.Rectangle (m.area.points 0).toVec (m.area.points 1).toVec (m.area.points 2).toVec
      (m.area.points 3).toVec := by
    obtain ⟨hparallel, hperp⟩ := h
    constructor
    · rw [← CartesianPoint.toVec_minus, hparallel, CartesianPoint.toVec_minus]
    · rw [← CartesianPoint.toVec_minus, ← CartesianPoint.toVec_minus, ← CartesianPoint.dot_eq_inner, hperp]
  unfold cornerPoints corners
  by_cases hdir : m.direction = horizontalDirection
  · simp only [if_pos hdir]
    by_cases hmov : m.movement = upMovement
    · simp only [if_pos hmov]
      exact ⟨hrect, trivial⟩
    · simp only [if_neg hmov]
      exact ⟨hrect.flip, Strips.region_flip hrect⟩
  · simp only [if_neg hdir]
    by_cases hmov : m.direction = upMovement
    · simp only [if_pos hmov]
      exact ⟨hrect.swap, Strips.region_swap _ _ _⟩
    · simp only [if_neg hmov]
      refine ⟨hrect.flip.swap.flip, (Strips.region_flip hrect.flip.swap).trans ?_⟩
      rw [Strips.region_swap, Strips.region_flip hrect]

theorem inside_iff (p : CartesianPoint) : m.area.Inside p ↔
    p.toVec ∈ Strips.region (m.area.points 0).toVec (m.area.points 1).toVec (m.area.points 3).toVec := by
  refine exists₂_congr fun u t => and_congr_right fun _ => and_congr_right fun _ => and_congr_right fun _ =>
    and_congr_right fun _ => ?_
  rw [← CartesianPoint.toVec_injective.eq_iff]
  simp only [CartesianPoint.toVec_sumproduct, CartesianPoint.toVec_minus]
  rfl

/-- The point of the line `i` at `u`. -/
theorem toVec_line (h : m.area.Rectangular) (i : ℕ) (u : ℝ) :
    ((m.leftEnd i).sumproduct u ((m.rightEnd i).minus (m.leftEnd i))).toVec =
      Strips.place m.origin m.along m.across u (i / (m.turnQty - 1)) := by
  unfold leftEnd rightEnd lBar rBar Strips.place origin along across
  simp only [CartesianPoint.toVec_sumproduct, CartesianPoint.toVec_minus, CartesianPoint.toVec_divide,
    (rectangle_corners h).1.parallel, div_eq_mul_inv]
  module

theorem lt_lines_iff (i : ℕ) : i < m.lines ↔ i ≤ ⌊m.turnQty - 1⌋₊ := by
  have hfloor := Nat.floor_add_one m.turnQty_sub_one_pos.le
  rw [sub_add_cancel] at hfloor
  rw [lines, hfloor, Nat.lt_succ_iff]

/-- The area is covered when the rectangle is. -/
theorem covered_iff_strips (h : m.area.Rectangular) : m.Covered ↔
    Strips.Covered m.origin m.along m.across (m.turnQty - 1) (m.footprint / 2) := by
  have hregion := (rectangle_corners h).2
  constructor
  · intro hcov u t hu hu1 ht ht1
    obtain ⟨p, hp⟩ : ∃ p : CartesianPoint, p.toVec = Strips.place m.origin m.along m.across u t := by
      refine ⟨(m.cornerPoints.1.sumproduct u (m.cornerPoints.2.1.minus m.cornerPoints.1)).sumproduct t
        (m.cornerPoints.2.2.2.minus m.cornerPoints.1), ?_⟩
      simp only [CartesianPoint.toVec_sumproduct, CartesianPoint.toVec_minus]
      rfl
    have hinside : m.area.Inside p := by
      rw [inside_iff, ← hregion]
      exact ⟨u, t, hu, hu1, ht, ht1, hp⟩
    obtain ⟨i, hi, q, ⟨u', hu', hu1', rfl⟩, hdist⟩ := hcov p hinside
    refine ⟨i, (lt_lines_iff i).mp hi, _, ⟨u', hu', hu1', toVec_line h i u'⟩, ?_⟩
    rw [← hp]
    exact hdist
  · intro hcov p hp
    rw [inside_iff, ← hregion] at hp
    obtain ⟨u, t, hu, hu1, ht, ht1, hvec⟩ := hp
    obtain ⟨i, hi, y, ⟨u', hu', hu1', rfl⟩, hdist⟩ := hcov u t hu hu1 ht ht1
    refine ⟨i, (lt_lines_iff i).mpr hi, _, ⟨u', hu', hu1', rfl⟩, ?_⟩
    change p.toVec = Strips.place m.origin m.along m.across u t at hvec
    rw [← hvec, ← toVec_line h i u'] at hdist
    exact hdist

/-- Both sides that the lines lead to have the length of the swept side. -/
theorem norm_across (h : m.area.Rectangular) : ‖m.across‖ = m.sweptSide := by
  rw [across, sweptSide_eq, CartesianPoint.norm_eq_norm_toVec, CartesianPoint.norm_eq_norm_toVec, CartesianPoint.toVec_minus,
    CartesianPoint.toVec_minus, (rectangle_corners h).1.parallel, max_self]

theorem inner_along_across (h : m.area.Rectangular) : inner ℝ m.along m.across = 0 := (rectangle_corners h).1.perp

theorem advance_le : m.footprint * (1 - m.sobrePosicao) ≤ m.footprint :=
  mul_le_of_le_one_right m.footprint_pos.le (by linarith [m.sobrePosicao_mem.1])

/-- The rectangle is covered exactly when the strip beyond the last line is not wider than half a footprint. -/
theorem strips_covered_iff (h : m.area.Rectangular) :
    Strips.Covered m.origin m.along m.across (m.turnQty - 1) (m.footprint / 2) ↔
      m.farGap ≤ m.footprint / 2 := by
  have hstep : ‖m.across‖ / (m.turnQty - 1) ≤ 2 * (m.footprint / 2) := by
    rw [norm_across h, mul_div_cancel₀ _ two_ne_zero]
    exact m.step_le.trans advance_le
  rw [Strips.covered_iff (inner_along_across h) m.turnQty_sub_one_pos hstep, norm_across h, turns_eq]
  rfl

/-- Photos that overlap by a half cover the area. -/
theorem covered_of_overlap (h : m.area.Rectangular) (hs : 1 / 2 ≤ m.sobrePosicao) : m.Covered := by
  have hT := m.turnQty_sub_one_pos
  have hpart : m.turnQty - 1 - ⌊m.turnQty - 1⌋₊ ≤ 1 := by linarith [Nat.lt_floor_add_one (m.turnQty - 1)]
  refine (covered_iff_strips h).mpr ((strips_covered_iff h).mpr ?_)
  unfold farGap
  rw [← turns_eq]
  calc (m.turnQty - 1 - ⌊m.turnQty - 1⌋₊) / (m.turnQty - 1) * m.sweptSide
      = (m.turnQty - 1 - ⌊m.turnQty - 1⌋₊) * (m.sweptSide / (m.turnQty - 1)) := by ring
    _ ≤ 1 * (m.sweptSide / (m.turnQty - 1)) :=
        mul_le_mul_of_nonneg_right hpart (div_nonneg m.sweptSide_nonneg hT.le)
    _ ≤ m.footprint * (1 - m.sobrePosicao) := (one_mul _).trans_le m.step_le
    _ ≤ m.footprint / 2 := by nlinarith [m.footprint_pos]

/-- **Coverage.**  Every point of a rectangular area is within half a footprint of a line exactly when the strip beyond
the last line is not wider than that. -/
theorem area_covered_iff (h : m.area.Rectangular) : m.Covered ↔ m.farGap ≤ m.footprint / 2 :=
  (covered_iff_strips h).trans (strips_covered_iff h)

end Mission

/-! ### A strip that is not covered -/

section demo

theorem equator_lt : |(0 : ℝ)| < 90 := by norm_num

/-- A field of thirty by twenty metres. -/
noncomputable def field : Area where
  geoHome := ⟨0, 0, 0⟩
  geoPoints := ![SweepBattery.geoAt 0 0, SweepBattery.geoAt 30 0, SweepBattery.geoAt 30 20, SweepBattery.geoAt 0 20]
  latitude_lt := equator_lt

/-- The field is photographed without overlap, ten metres at a time. -/
noncomputable def fieldMission : Mission := { SweepBattery.stripMission 30 Nat.ofNat_pos with area := field }

theorem points_field : field.points 0 = ⟨0, 0, 0⟩ ∧ field.points 1 = ⟨30, 0, 0⟩ ∧ field.points 2 = ⟨30, 20, 0⟩ ∧
    field.points 3 = ⟨0, 20, 0⟩ :=
  ⟨SweepBattery.toCartesian_geoAt _ _, SweepBattery.toCartesian_geoAt _ _, SweepBattery.toCartesian_geoAt _ _,
    SweepBattery.toCartesian_geoAt _ _⟩

theorem rectangular_field : fieldMission.area.Rectangular := by
  obtain ⟨h0, h1, h2, h3⟩ := points_field
  have harea : fieldMission.area = field := rfl
  unfold Area.Rectangular
  rw [harea, h0, h1, h2, h3]
  simp [CartesianPoint.minus, CartesianPoint.dot]

theorem footprint_field : fieldMission.footprint = 10 := by
  have hdirection : fieldMission.direction = Mission.horizontalDirection := rfl
  rw [Mission.footprint, if_pos hdirection]
  exact SweepBattery.photoLength_strip

theorem sweptSide_field : fieldMission.sweptSide = 20 := by
  obtain ⟨h0, h1, h2, h3⟩ := points_field
  have harea : fieldMission.area = field := rfl
  have hdirection : fieldMission.direction = Mission.horizontalDirection := rfl
  rw [Mission.sweptSide, if_pos hdirection, harea, Area.hypotenuse, h0, h1, h2, h3]
  simp [CartesianPoint.minus, CartesianPoint.norm]

/-- With 2.8 steps the strip has 5.7 m. -/
theorem farGap_field : fieldMission.farGap = 40 / 7 := by
  have hoverlap : fieldMission.sobrePosicao = 0 := rfl
  have hfloor : ⌊(2.8 : ℝ)⌋₊ = 2 := by
    rw [Nat.floor_eq_iff (by norm_num)]
    norm_num
  have hturns : (0.8 : ℝ) + 20 / (10 * (1 - 0)) = 2.8 := by norm_num
  unfold Mission.farGap
  rw [footprint_field, sweptSide_field, hoverlap, hturns]
  dsimp only
  rw [hfloor]
  norm_num

/-- The field is not covered. -/
theorem covered_field : fieldMission.area.Rectangular ∧ ¬ fieldMission.Covered := by
  refine ⟨rectangular_field, fun hcov => ?_⟩
  have hgap := (Mission.strips_covered_iff rectangular_field).mp
    ((Mission.covered_iff_strips rectangular_field).mp hcov)
  rw [farGap_field, footprint_field] at hgap
  norm_num at hgap

theorem area_covered_iff_field : fieldMission.Covered ↔ fieldMission.farGap ≤ fieldMission.footprint / 2 :=
  Mission.area_covered_iff rectangular_field

/-- The field with photos that overlap by a half. -/
noncomputable def overlapMission : Mission :=
  { fieldMission with
    sobrePosicao := 1 / 2
    sobrePosicao_mem := ⟨one_half_pos.le, one_half_lt_one⟩ }

theorem covered_of_overlap_field : overlapMission.Covered := Mission.covered_of_overlap rectangular_field le_rfl

end demo

end DroneArch.SweepMission
