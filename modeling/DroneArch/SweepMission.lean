import Mathlib.Analysis.InnerProductSpace.PiL2
import Mathlib.Analysis.SpecialFunctions.Trigonometric.Basic
import DroneArch.Numerals
import DroneArch.Polyline
import DroneArch.SweepSplit

/-! # The sweep planner

The classes `Area`, `Camera`, `Drone`, `Mission` and `Route` of `sqrt_path/PathPlanning.py` and
`static_pathplanning/pathplanning.py`, over the reals.  `Controller.calc_complete_route` flies
`int(turn_qty)` lines between two opposite sides of the area, and starts and ends at home.  A
computation that divides by zero gives `none`.

* `dist_eq_norm`: the norm of a difference is the Euclidean distance.
* `calcRouteLength_eq`: `calc_route_length` is the length of the polyline.
* `init_eq_some_iff`: a `Route` can be built exactly when it leaves its first point. -/

namespace DroneArch.SweepMission

open Real

/-! ### Points -/

/-- Metres relative to the base. -/
@[ext] structure CartesianPoint where
  x : ℝ
  y : ℝ
  z : ℝ

structure GeoPoint where
  longitude : ℝ
  latitude : ℝ
  height : ℝ

namespace CartesianPoint

def minus (p other : CartesianPoint) : CartesianPoint := ⟨p.x - other.x, p.y - other.y, p.z - other.z⟩

noncomputable def divide (p : CartesianPoint) (number : ℝ) : CartesianPoint :=
  ⟨p.x / number, p.y / number, p.z / number⟩

def sumproduct (p : CartesianPoint) (coef : ℝ) (other : CartesianPoint) : CartesianPoint :=
  ⟨p.x + coef * other.x, p.y + coef * other.y, p.z + coef * other.z⟩

noncomputable def norm (p : CartesianPoint) : ℝ := √(p.x ^ 2 + p.y ^ 2 + p.z ^ 2)

/-- The point as a vector of the Euclidean space. -/
noncomputable def toVec (p : CartesianPoint) : EuclideanSpace ℝ (Fin 3) := !₂[p.x, p.y, p.z]

theorem toVec_injective : Function.Injective toVec := by
  intro p q h
  have h0 := congrArg (fun v : EuclideanSpace ℝ (Fin 3) => v 0) h
  have h1 := congrArg (fun v : EuclideanSpace ℝ (Fin 3) => v 1) h
  have h2 := congrArg (fun v : EuclideanSpace ℝ (Fin 3) => v 2) h
  exact CartesianPoint.ext h0 h1 h2

noncomputable instance : MetricSpace CartesianPoint := MetricSpace.induced toVec toVec_injective inferInstance

/-- The norm of a difference is the Euclidean distance. -/
theorem dist_eq_norm (p q : CartesianPoint) : dist p q = (q.minus p).norm := by
  have hdist : dist p q = dist p.toVec q.toVec := rfl
  rw [hdist, EuclideanSpace.dist_eq, Fin.sum_univ_three, norm, minus]
  simp only [toVec, Real.dist_eq, sq_abs]
  congr 1
  simp
  ring

theorem norm_eq_norm_toVec (p : CartesianPoint) : p.norm = ‖p.toVec‖ := by
  rw [EuclideanSpace.norm_eq, Fin.sum_univ_three, norm]
  simp only [toVec, Real.norm_eq_abs, sq_abs]
  congr 1

theorem toVec_minus (p q : CartesianPoint) : (p.minus q).toVec = p.toVec - q.toVec := by
  ext i
  fin_cases i <;> rfl

theorem toVec_divide (p : CartesianPoint) (number : ℝ) : (p.divide number).toVec = number⁻¹ • p.toVec := by
  ext i
  fin_cases i <;> exact div_eq_inv_mul _ _

theorem toVec_sumproduct (p : CartesianPoint) (coef : ℝ) (q : CartesianPoint) :
    (p.sumproduct coef q).toVec = p.toVec + coef • q.toVec := by
  ext i
  fin_cases i <;> rfl

end CartesianPoint

/-! ### The projection -/

noncomputable section

def calcY (lat lat' : ℝ) : ℝ := (lat - lat') * (10000000 / 90)

def calcX (longi longi' lat' : ℝ) : ℝ := (longi - longi') * (6400000 * (cos (lat' * π / 180) * 2 * π / 360))

def calcLatitudeY (lat' y : ℝ) : ℝ := y * 90 / 10000000 + lat'

def calcLongitudeX (lat' longi' x : ℝ) : ℝ := x * 90 / (10008000 * cos (lat' * π / 180)) + longi'

def toCartesian (geoPoint home : GeoPoint) : CartesianPoint :=
  ⟨calcX geoPoint.longitude home.longitude home.latitude, calcY geoPoint.latitude home.latitude, geoPoint.height⟩

def toGeoPoint (cartesianPoint : CartesianPoint) (home : GeoPoint) : GeoPoint :=
  ⟨calcLongitudeX home.latitude home.longitude cartesianPoint.x, calcLatitudeY home.latitude cartesianPoint.y,
    cartesianPoint.z⟩

def transformGeoPoints (route : List CartesianPoint) (home : GeoPoint) : List GeoPoint :=
  route.map (fun element => toGeoPoint element home)

/-! ### Missions -/

/-- An area has corners. -/
instance neZeroFour : NeZero 4 := ⟨Nat.succ_ne_zero 3⟩

/-- An area with four corners; the home point is not at a pole. -/
structure Area where
  geoHome : GeoPoint
  geoPoints : Fin 4 → GeoPoint
  latitude_lt : |geoHome.latitude| < 90

/-- A camera; the angles are in degrees.  What `Mission.__init__` and `calc_GSD` divide by is positive. -/
structure Camera where
  openAngle : ℝ × ℝ
  resolution : ℝ × ℝ
  shutterTime : ℝ
  focusDistance : ℝ
  openAngle_mem : (0 < openAngle.1 ∧ openAngle.1 < 180) ∧ (0 < openAngle.2 ∧ openAngle.2 < 180)
  resolution_pos : 0 < resolution.1 ∧ 0 < resolution.2
  shutterTime_pos : 0 < shutterTime
  focusDistance_pos : 0 < focusDistance

/-- A drone; the battery is in minutes and the velocity in kilometres per hour. -/
structure Drone where
  minBattery : ℝ
  efficientVelocity : ℝ
  minBattery_pos : 0 < minBattery
  efficientVelocity_pos : 0 < efficientVelocity

structure Mission where
  direction : ℕ
  movement : ℕ
  drone : Drone
  camera : Camera
  area : Area
  pictureDistance : ℝ
  sobrePosicao : ℝ
  blurFactor : ℝ
  pictureDistance_pos : 0 < pictureDistance
  sobrePosicao_mem : 0 ≤ sobrePosicao ∧ sobrePosicao < 1
  blurFactor_pos : 0 < blurFactor

namespace Area
variable (a : Area)

def home : CartesianPoint := toCartesian a.geoHome a.geoHome

def points (i : Fin 4) : CartesianPoint := toCartesian (a.geoPoints i) a.geoHome

def hypotenuse : ℝ := max ((a.points 3).minus (a.points 0)).norm ((a.points 2).minus (a.points 1)).norm

def baseLenght : ℝ := max ((a.points 3).minus (a.points 2)).norm ((a.points 0).minus (a.points 1)).norm

end Area

namespace Mission

def horizontalDirection : ℕ := 1
def verticalDirection : ℕ := 2
def upMovement : ℕ := 3
def downMovement : ℕ := 4

def photoLengthOnGround (pictureDistance cameraOpening : ℝ) : ℝ :=
  2 * pictureDistance * tan (cameraOpening / 2 * π / 180)

/-- Calculate the turns quantity. -/
def calcTurnQty (hypotenuse width sobrePosicao : ℝ) : ℝ := 0.8 + hypotenuse / (width * (1 - sobrePosicao)) + 1

variable (m : Mission)

def width : ℝ := photoLengthOnGround m.pictureDistance m.camera.openAngle.2

def height : ℝ := photoLengthOnGround m.pictureDistance m.camera.openAngle.1

def velocityShutter : ℝ := m.width * m.blurFactor / (m.camera.resolution.1 * m.camera.shutterTime)

def velocityCruiser : ℝ := min (m.drone.efficientVelocity / 3.6) m.velocityShutter

def turnQty : ℝ :=
  if m.direction = horizontalDirection then calcTurnQty m.area.hypotenuse m.height m.sobrePosicao
  else calcTurnQty m.area.baseLenght m.width m.sobrePosicao

end Mission

/-! ### Routes -/

/-- A route with what is known about its flight, in metres and seconds. -/
structure Route where
  route : List CartesianPoint
  geoRoute : List GeoPoint
  routeLength : ℝ
  flightDuration : ℝ

/-- `calc_route_length`; the first point of an empty list raises `IndexError`. -/
def calcRouteLength : List CartesianPoint → Option ℝ
  | [] => none
  | p :: route =>
      some (route.foldl (fun acc element => (acc.1 + (element.minus acc.2).norm, element)) ((0 : ℝ), p)).1

/-- `Route.__init__`; the pictures per second divide by the flight duration. -/
def Route.init (m : Mission) (route : List CartesianPoint) : Option Route :=
  (calcRouteLength route).bind (fun routeLength =>
    if routeLength / m.velocityCruiser = 0 then none
    else some ⟨route, transformGeoPoints route m.area.geoHome, routeLength, routeLength / m.velocityCruiser⟩)

/-- The corners `A`, `B`, `C` and `D`; in the vertical branch the source compares `direction` with
`UP_MOVEMENT`. -/
def Mission.corners (m : Mission) : Fin 4 × Fin 4 × Fin 4 × Fin 4 :=
  if m.direction = horizontalDirection then
    if m.movement = upMovement then (0, 1, 2, 3) else (3, 2, 1, 0)
  else
    if m.direction = upMovement then (0, 3, 2, 1) else (2, 1, 0, 3)

/-- The points appended by the pass `i` of the loop of `calc_complete_route`. -/
def turn (a b lBar rBar : CartesianPoint) (i : ℕ) : List CartesianPoint :=
  if i % 2 = 0 then [a.sumproduct i lBar, b.sumproduct i rBar]
  else [b.sumproduct i rBar, a.sumproduct i lBar]

/-- The survey points of `calc_complete_route`. -/
def Mission.waypoints (m : Mission) : List CartesianPoint :=
  let points := m.area.points
  let (a, b, c, d) := m.corners
  let rBar := ((points c).minus (points b)).divide (m.turnQty - 1)
  let lBar := ((points d).minus (points a)).divide (m.turnQty - 1)
  points a :: points b :: (List.range ⌊m.turnQty⌋₊).flatMap (turn (points a) (points b) lBar rBar)

def calcCompleteRoute (m : Mission) : Option Route :=
  Route.init m (SweepSplit.completeRoute m.area.home m.waypoints)

end

/-! ### The length and the duration of a route -/

theorem foldl_length (p : CartesianPoint) (route : List CartesianPoint) (acc : ℝ) :
    (route.foldl (fun acc element => (acc.1 + (element.minus acc.2).norm, element)) (acc, p)).1 =
      acc + Polyline.length (p :: route) := by
  induction route generalizing p acc with
  | nil => exact (add_zero acc).symm
  | cons q route ih =>
      rw [List.foldl_cons, ih, Polyline.length_cons_cons, CartesianPoint.dist_eq_norm, add_assoc]

theorem calcRouteLength_eq (p : CartesianPoint) (route : List CartesianPoint) :
    calcRouteLength (p :: route) = some (Polyline.length (p :: route)) := by
  rw [calcRouteLength, foldl_length, zero_add]

namespace Mission
variable (m : Mission)

theorem photoLength_pos {cameraOpening : ℝ} (h : 0 < cameraOpening ∧ cameraOpening < 180) :
    0 < photoLengthOnGround m.pictureDistance cameraOpening := by
  have hpi := pi_pos
  have htan : 0 < tan (cameraOpening / 2 * π / 180) := by
    refine tan_pos_of_pos_of_lt_pi_div_two ?_ ?_
    · have := h.1
      positivity
    · have := h.2
      nlinarith
  have := m.pictureDistance_pos
  unfold photoLengthOnGround
  positivity

theorem width_pos : 0 < m.width := m.photoLength_pos m.camera.openAngle_mem.2

theorem velocityCruiser_pos : 0 < m.velocityCruiser := by
  have hwidth := m.width_pos
  have hblur := m.blurFactor_pos
  have hres := m.camera.resolution_pos.1
  have hshutter := m.camera.shutterTime_pos
  have hvel := m.drone.efficientVelocity_pos
  unfold velocityCruiser velocityShutter
  exact lt_min (by positivity) (by positivity)

end Mission

/-- A route is built exactly when it leaves its first point. -/
theorem init_eq_some_iff (m : Mission) (p : CartesianPoint) (route : List CartesianPoint) (r : Route) :
    Route.init m (p :: route) = some r ↔ (∃ q ∈ route, q ≠ p) ∧
      r = ⟨p :: route, transformGeoPoints (p :: route) m.area.geoHome, Polyline.length (p :: route),
        Polyline.length (p :: route) / m.velocityCruiser⟩ := by
  have hv := m.velocityCruiser_pos
  have hzero : Polyline.length (p :: route) / m.velocityCruiser = 0 ↔ ∀ q ∈ route, q = p := by
    rw [div_eq_zero_iff, or_iff_left hv.ne', Polyline.length_eq_zero_iff]
  rw [Route.init, calcRouteLength_eq, Option.bind_some]
  by_cases h : ∀ q ∈ route, q = p
  · rw [if_pos (hzero.mpr h)]
    constructor
    · exact fun hnone => nomatch hnone
    · rintro ⟨⟨q, hq, hne⟩, _⟩
      exact absurd (h q hq) hne
  · rw [if_neg (fun hz => h (hzero.mp hz)), Option.some.injEq]
    push Not at h
    exact ⟨fun heq => ⟨h, heq.symm⟩, fun heq => heq.2.symm⟩

end DroneArch.SweepMission
