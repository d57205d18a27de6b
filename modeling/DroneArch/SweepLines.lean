import DroneArch.SweepBattery

/-! # The lines of a sweep

The line `i` of `calc_complete_route` leads from one side of the area to the opposite one; its ends are `i` steps
along these sides.  The loop flies the lines forth and back, and before it the first line is appended
once more.

* `waypoints_eq`: the survey points are the first line and then all lines.
* `spacing_le`: neighbouring ends are not further apart than the footprint without its overlap.
* `not_fliesOnce`: the first line is flown twice more, in every mission. -/

namespace DroneArch.SweepMission

open Real SweepBattery

/-! ### The ends -/

namespace Mission

noncomputable section
variable (m : Mission)

/-- `points[A]` and so on, in this order. -/
def cornerPoints : CartesianPoint × CartesianPoint × CartesianPoint × CartesianPoint :=
  let points := m.area.points
  let (a, b, c, d) := m.corners
  (points a, points b, points c, points d)

/-- `l_bar`. -/
def lBar : CartesianPoint := (m.cornerPoints.2.2.2.minus m.cornerPoints.1).divide (m.turnQty - 1)

/-- `r_bar`. -/
def rBar : CartesianPoint := (m.cornerPoints.2.2.1.minus m.cornerPoints.2.1).divide (m.turnQty - 1)

def leftEnd (i : ℕ) : CartesianPoint := m.cornerPoints.1.sumproduct i m.lBar

def rightEnd (i : ℕ) : CartesianPoint := m.cornerPoints.2.1.sumproduct i m.rBar

/-- The end where a line begins; the lines alternate. -/
def firstEnd (i : ℕ) : CartesianPoint := if i % 2 = 0 then m.leftEnd i else m.rightEnd i

def lastEnd (i : ℕ) : CartesianPoint := if i % 2 = 0 then m.rightEnd i else m.leftEnd i

/-- `int(turn_qty)`. -/
def lines : ℕ := ⌊m.turnQty⌋₊

/-- All lines, forth and back. -/
def boustrophedon : List CartesianPoint := (List.range m.lines).flatMap (fun i => [m.firstEnd i, m.lastEnd i])

/-- The photo height for horizontal missions, and the photo width for the others. -/
def footprint : ℝ := if m.direction = horizontalDirection then m.height else m.width

/-- The way from home over all lines, each once, and back. -/
def surveyLength : ℝ :=
  dist m.area.home (m.firstEnd 0) +
    (∑ i ∈ Finset.range m.lines, dist (m.firstEnd i) (m.lastEnd i) +
      ∑ i ∈ Finset.range (m.lines - 1), dist (m.lastEnd i) (m.firstEnd (i + 1))) +
    dist (m.lastEnd (m.lines - 1)) m.area.home

/-- The survey points are the ends of the lines, each once. -/
def FliesOnce : Prop := m.waypoints = m.boustrophedon

/-- The longer one of the two sides that the lines lead to. -/
def sweptSide : ℝ := if m.direction = horizontalDirection then m.area.hypotenuse else m.area.baseLenght

end

variable (m : Mission)

theorem turn_eq (i : ℕ) :
    turn m.cornerPoints.1 m.cornerPoints.2.1 m.lBar m.rBar i = [m.firstEnd i, m.lastEnd i] := by
  unfold turn firstEnd lastEnd leftEnd rightEnd
  split <;> rfl

theorem leftEnd_zero : m.leftEnd 0 = m.cornerPoints.1 := by
  unfold leftEnd CartesianPoint.sumproduct
  ext <;> simp

theorem rightEnd_zero : m.rightEnd 0 = m.cornerPoints.2.1 := by
  unfold rightEnd CartesianPoint.sumproduct
  ext <;> simp

/-- The survey points are the first line and then all lines. -/
theorem waypoints_eq : m.waypoints = [m.firstEnd 0, m.lastEnd 0] ++ m.boustrophedon := by
  have hfirst : [m.firstEnd 0, m.lastEnd 0] = [m.cornerPoints.1, m.cornerPoints.2.1] := by
    rw [← leftEnd_zero, ← rightEnd_zero]
    rfl
  have hlines : m.boustrophedon =
      (List.range ⌊m.turnQty⌋₊).flatMap (turn m.cornerPoints.1 m.cornerPoints.2.1 m.lBar m.rBar) := by
    unfold boustrophedon lines
    exact congrArg (fun f => List.flatMap f _) (funext fun i => (m.turn_eq i).symm)
  rw [hfirst, hlines]
  rfl

/-! ### The distance of neighbouring lines -/

theorem height_pos : 0 < m.height := m.photoLength_pos m.camera.openAngle_mem.1

theorem footprint_pos : 0 < m.footprint := by
  unfold footprint
  split
  · exact m.height_pos
  · exact m.width_pos

/-- The footprint without its overlap. -/
theorem advance_pos : 0 < m.footprint * (1 - m.sobrePosicao) :=
  mul_pos m.footprint_pos (sub_pos.mpr m.sobrePosicao_mem.2)

theorem turnQty_eq : m.turnQty = 0.8 + m.sweptSide / (m.footprint * (1 - m.sobrePosicao)) + 1 := by
  unfold turnQty sweptSide footprint calcTurnQty
  split <;> rfl

/-- The swept side is the longer one of the two that the lines lead to, for each table of corners. -/
theorem sweptSide_eq : m.sweptSide = max (m.cornerPoints.2.2.2.minus m.cornerPoints.1).norm
    (m.cornerPoints.2.2.1.minus m.cornerPoints.2.1).norm := by
  have hcomm : ∀ p q : CartesianPoint, (p.minus q).norm = (q.minus p).norm := by
    intro p q
    rw [← CartesianPoint.dist_eq_norm, ← CartesianPoint.dist_eq_norm, dist_comm]
  unfold sweptSide cornerPoints corners Area.hypotenuse Area.baseLenght
  by_cases hdir : m.direction = horizontalDirection
  · simp only [if_pos hdir]
    by_cases hmov : m.movement = upMovement
    · simp only [if_pos hmov]
    · simp only [if_neg hmov]
      rw [hcomm (m.area.points 3), hcomm (m.area.points 2)]
  · simp only [if_neg hdir]
    by_cases hmov : m.direction = upMovement
    · simp only [if_pos hmov]
      rw [hcomm (m.area.points 3), hcomm (m.area.points 0), max_comm]
    · simp only [if_neg hmov]

theorem sweptSide_nonneg : 0 ≤ m.sweptSide := by
  rw [sweptSide_eq, CartesianPoint.norm_eq_norm_toVec]
  exact (norm_nonneg _).trans (le_max_left _ _)

theorem turnQty_sub_one_pos : 0 < m.turnQty - 1 := by
  rw [turnQty_eq]
  have := div_nonneg m.sweptSide_nonneg m.advance_pos.le
  norm_num
  linarith

theorem turns_eq : m.turnQty - 1 = 0.8 + m.sweptSide / (m.footprint * (1 - m.sobrePosicao)) := by
  rw [turnQty_eq, add_sub_cancel_right]

/-- The swept side has steps of at most the footprint without its overlap. -/
theorem step_le : m.sweptSide / (m.turnQty - 1) ≤ m.footprint * (1 - m.sobrePosicao) := by
  have hadvance := m.advance_pos
  rw [div_le_iff₀ m.turnQty_sub_one_pos, turns_eq, mul_add, mul_div_cancel₀ _ hadvance.ne']
  exact le_add_of_nonneg_left (mul_nonneg hadvance.le (by norm_num))

/-- A step along a side. -/
theorem norm_step_le {side : CartesianPoint} (h : side.norm ≤ m.sweptSide) :
    (side.divide (m.turnQty - 1)).norm ≤ m.footprint * (1 - m.sobrePosicao) := by
  have hpos := m.turnQty_sub_one_pos
  rw [CartesianPoint.norm_eq_norm_toVec, CartesianPoint.toVec_divide, norm_smul, Real.norm_eq_abs, abs_inv,
    abs_of_pos hpos, ← CartesianPoint.norm_eq_norm_toVec, inv_mul_eq_div]
  exact (div_le_div_of_nonneg_right h hpos.le).trans m.step_le

/-- Neighbouring ends on one side are one step apart. -/
theorem dist_step (p step : CartesianPoint) (i : ℕ) :
    dist (p.sumproduct i step) (p.sumproduct ((i + 1 : ℕ) : ℝ) step) = step.norm := by
  rw [CartesianPoint.dist_eq_norm, CartesianPoint.norm_eq_norm_toVec, CartesianPoint.norm_eq_norm_toVec,
    CartesianPoint.toVec_minus, CartesianPoint.toVec_sumproduct, CartesianPoint.toVec_sumproduct]
  congr 1
  push_cast
  module

/-- The factor of an end on its side. -/
theorem div_turns_mem {i : ℕ} (h : i < m.lines) : (i : ℝ) / (m.turnQty - 1) ∈ Set.Icc (0 : ℝ) 1 := by
  have hpos := m.turnQty_sub_one_pos
  have hle : ((i + 1 : ℕ) : ℝ) ≤ m.turnQty := (Nat.le_floor_iff (by linarith)).mp h
  rw [Nat.cast_add, Nat.cast_one] at hle
  refine ⟨div_nonneg i.cast_nonneg hpos.le, (div_le_one hpos).mpr ?_⟩
  linarith

/-- Steps of a part of a side. -/
theorem sumproduct_divide (p side : CartesianPoint) (i : ℕ) (k : ℝ) :
    p.sumproduct i (side.divide k) = p.sumproduct (i / k) side := by
  unfold CartesianPoint.sumproduct CartesianPoint.divide
  ext <;> simp only [] <;> ring

/-- **Spacing.**  Neighbouring ends on each of the two sides are at most the footprint without its overlap apart,
and the ends of every line are on the sides that lead from the first line to its opposite. -/
theorem spacing_le : m.waypoints = [m.firstEnd 0, m.lastEnd 0] ++ m.boustrophedon ∧
    (∀ i, dist (m.leftEnd i) (m.leftEnd (i + 1)) ≤ m.footprint * (1 - m.sobrePosicao) ∧
      dist (m.rightEnd i) (m.rightEnd (i + 1)) ≤ m.footprint * (1 - m.sobrePosicao)) ∧
    ∀ i < m.lines, ∃ t ∈ Set.Icc (0 : ℝ) 1,
      m.leftEnd i = m.cornerPoints.1.sumproduct t (m.cornerPoints.2.2.2.minus m.cornerPoints.1) ∧
      m.rightEnd i = m.cornerPoints.2.1.sumproduct t (m.cornerPoints.2.2.1.minus m.cornerPoints.2.1) := by
  refine ⟨m.waypoints_eq, fun i => ⟨?_, ?_⟩, fun i hi => ⟨_, m.div_turns_mem hi, ?_, ?_⟩⟩
  · refine (dist_step _ _ i).trans_le (m.norm_step_le ?_)
    exact m.sweptSide_eq ▸ le_max_left _ _
  · refine (dist_step _ _ i).trans_le (m.norm_step_le ?_)
    exact m.sweptSide_eq ▸ le_max_right _ _
  · exact sumproduct_divide _ _ i _
  · exact sumproduct_divide _ _ i _

/-! ### The line that is flown again -/

theorem exists_lines : ∃ n, m.lines = n + 1 := by
  have hone : 1 ≤ m.lines := by
    have := m.turnQty_sub_one_pos
    refine Nat.le_floor ?_
    rw [Nat.cast_one]
    linarith
  exact ⟨m.lines - 1, by omega⟩

/-- The first line is flown there and back before the survey begins. -/
theorem length_waypoints : Polyline.length (SweepSplit.completeRoute m.area.home m.waypoints) =
    m.surveyLength + 2 * dist (m.firstEnd 0) (m.lastEnd 0) := by
  obtain ⟨n, hn⟩ := m.exists_lines
  have hlines := Polyline.length_pairs m.firstEnd m.lastEnd (m.lastEnd 0) m.area.home n
  rw [SweepSplit.completeRoute, waypoints_eq, boustrophedon, hn, List.append_assoc, List.cons_append, List.cons_append,
    List.nil_append, Polyline.length_cons_cons, Polyline.length_cons_cons, hlines, surveyLength, hn,
    Nat.add_sub_cancel, dist_comm (m.lastEnd 0) (m.firstEnd 0)]
  ring

/-- **Repetition.**  No mission flies each line once: the way is longer by twice the first line. -/
theorem not_fliesOnce : ¬ m.FliesOnce ∧ ∀ r, calcCompleteRoute m = some r →
    r.routeLength = m.surveyLength + 2 * dist (m.firstEnd 0) (m.lastEnd 0) := by
  constructor
  · intro h
    have hlen := congrArg List.length (m.waypoints_eq.symm.trans h)
    rw [List.length_append, List.length_cons, List.length_singleton] at hlen
    omega
  · intro r hr
    obtain ⟨-, rfl⟩ := (init_eq_some_iff _ _ _ _).mp hr
    exact m.length_waypoints

end Mission

/-- A mission with a single line flies it three times. -/
theorem fliesOnce_strip : (stripMission 30 Nat.ofNat_pos).lines = 1 ∧ (stripMission 30 Nat.ofNat_pos).waypoints =
    [⟨3000, 4000, 0⟩, ⟨-3000, 4000, 0⟩, ⟨3000, 4000, 0⟩, ⟨-3000, 4000, 0⟩] ∧
    ¬ (stripMission 30 Nat.ofNat_pos).FliesOnce := by
  have hlines : (stripMission 30 Nat.ofNat_pos).lines = 1 := by
    unfold Mission.lines
    rw [turnQty_strip, Nat.floor_eq_iff (by norm_num)]
    norm_num
  refine ⟨hlines, waypoints_strip _, fun h => ?_⟩
  have hlen := congrArg List.length h
  rw [waypoints_strip, Mission.boustrophedon, hlines] at hlen
  simp at hlen

end DroneArch.SweepMission
