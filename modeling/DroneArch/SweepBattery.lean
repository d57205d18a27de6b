import Mathlib.Algebra.Order.Floor.Semiring
import Mathlib.Tactic.NormNum.RealSqrt
import DroneArch.SweepMission

/-! # The battery and the sweep routes

`Controller.calc_route` of `sqrt_path/PathPlanning.py` compares the battery of the drone, in
minutes, with the flight duration of the complete route, in seconds.  If the battery is
smaller, it splits the route by the number of its waypoints, and saves the sub-routes and, in the
`else` of the loop, the complete route.

* `calcRoute_eq_some_iff`: what is saved.
* `batteryFeasible_iff`: the saved routes fit into the battery exactly when the complete route
  does, or nothing is saved because a sub-route does not leave home. -/

namespace DroneArch.SweepBattery

open Real SweepMission SweepSplit Lists

noncomputable section

/-- The number of missions; the duration is in seconds and the battery in minutes. -/
def missionQty (m : Mission) (route : Route) : ℕ := ⌈route.flightDuration / 60 / m.drone.minBattery⌉₊

/-- The points of the sub-routes. -/
def parts (m : Mission) (route : Route) : Option (List (List CartesianPoint)) :=
  subRoutes m.area.home route.route (missionQty m route)

/-- `calc_route`: the routes that `save_kml` and `save_litchi` get. -/
def calcRoute (m : Mission) : Option (List Route) :=
  (calcCompleteRoute m).bind (fun route =>
    if m.drone.minBattery < route.flightDuration then
      (parts m route).bind (fun subRoutes =>
        (subRoutes.mapM (Route.init m)).map (fun routes => routes ++ [route]))
    else some [])

end

/-! ### The complete route -/

theorem calcCompleteRoute_spec {m : Mission} {route : Route} (h : calcCompleteRoute m = some route) :
    route.route = completeRoute m.area.home m.waypoints ∧
      route.flightDuration = Polyline.length route.route / m.velocityCruiser ∧ 0 < route.flightDuration := by
  unfold calcCompleteRoute at h
  rw [completeRoute, init_eq_some_iff] at h
  obtain ⟨⟨q, hq, hne⟩, rfl⟩ := h
  refine ⟨rfl, rfl, ?_⟩
  refine div_pos (lt_of_le_of_ne (Polyline.length_nonneg _) ?_) m.velocityCruiser_pos
  intro hzero
  exact hne ((Polyline.length_eq_zero_iff _ _).mp hzero.symm q hq)

theorem two_le_length {m : Mission} {route : Route} (h : calcCompleteRoute m = some route) :
    2 ≤ route.route.length := by
  rw [(calcCompleteRoute_spec h).1, completeRoute, List.length_cons, List.length_append, List.length_singleton]
  omega

theorem parts_eq {m : Mission} {route : Route} (h : calcCompleteRoute m = some route) :
    parts m route = some ((List.range (missionQty m route)).map
      (part m.area.home route.route (missionQty m route))) :=
  subRoutes_eq _ _ (by have := two_le_length h; omega)

/-- A sub-route is built exactly when it leaves home. -/
theorem init_part_iff (m : Mission) (route : List CartesianPoint) (qty i : ℕ) :
    (∃ r, Route.init m (part m.area.home route qty i) = some r) ↔
      ∃ p ∈ part m.area.home route qty i, p ≠ m.area.home := by
  unfold part
  constructor
  · rintro ⟨r, hr⟩
    obtain ⟨⟨q, hq, hne⟩, _⟩ := (init_eq_some_iff m _ _ r).mp hr
    exact ⟨q, List.mem_cons_of_mem _ hq, hne⟩
  · rintro ⟨q, hq, hne⟩
    have hmem := (List.mem_cons.mp hq).resolve_left hne
    exact ⟨_, (init_eq_some_iff m _ _ _).mpr ⟨⟨q, hmem, hne⟩, rfl⟩⟩

/-- No sub-route stays at home. -/
def PartsLeaveHome (m : Mission) (route : Route) : Prop :=
  ∀ i < missionQty m route, ∃ p ∈ part m.area.home route.route (missionQty m route) i, p ≠ m.area.home

theorem exists_subs_iff (m : Mission) (route : Route) :
    (∃ subs, ((List.range (missionQty m route)).map
      (part m.area.home route.route (missionQty m route))).mapM (Route.init m) = some subs) ↔
      PartsLeaveHome m route := by
  rw [exists_mapM_iff]
  constructor
  · intro h i hi
    exact (init_part_iff m _ _ i).mp (h _ (List.mem_map_of_mem (List.mem_range.mpr hi)))
  · intro h l hl
    obtain ⟨i, hi, rfl⟩ := List.mem_map.mp hl
    exact (init_part_iff m _ _ i).mpr (h i (List.mem_range.mp hi))

/-- **What is saved.**  A result of `calc_route` is empty, or it consists of the sub-routes and the
complete route. -/
theorem calcRoute_eq_some_iff (m : Mission) (routes : List Route) :
    calcRoute m = some routes ↔ ∃ route, calcCompleteRoute m = some route ∧
      ((¬ m.drone.minBattery < route.flightDuration ∧ routes = []) ∨
        (m.drone.minBattery < route.flightDuration ∧ ∃ subs, ((List.range (missionQty m route)).map
          (part m.area.home route.route (missionQty m route))).mapM (Route.init m) = some subs ∧
            routes = subs ++ [route])) := by
  unfold calcRoute
  rw [Option.bind_eq_some_iff]
  refine exists_congr (fun route => and_congr_right (fun hroute => ?_))
  by_cases hlt : m.drone.minBattery < route.flightDuration
  · rw [if_pos hlt, parts_eq hroute, Option.bind_some, Option.map_eq_some_iff]
    constructor
    · rintro ⟨subs, hsubs, rfl⟩
      exact .inr ⟨hlt, subs, hsubs, rfl⟩
    · rintro (⟨hn, _⟩ | ⟨_, subs, hsubs, rfl⟩)
      · exact absurd hlt hn
      · exact ⟨subs, hsubs, rfl⟩
  · rw [if_neg hlt, Option.some.injEq]
    constructor
    · exact fun h => .inl ⟨hlt, h.symm⟩
    · rintro (⟨_, rfl⟩ | ⟨h, _⟩)
      · rfl
      · exact absurd h hlt

/-! ### The battery -/

/-- Every saved route fits into the battery. -/
def BatteryFeasible (m : Mission) : Prop :=
  ∀ routes, calcRoute m = some routes → ∀ r ∈ routes, r.flightDuration / 60 ≤ m.drone.minBattery

/-- The complete route fits into the battery. -/
def CompleteFits (m : Mission) : Prop :=
  ∀ route, calcCompleteRoute m = some route → route.flightDuration / 60 ≤ m.drone.minBattery

/-- The complete route can be flown, and some sub-route stays at home; `Route` then divides by
zero. -/
def StaysHome (m : Mission) : Prop :=
  ∃ route, calcCompleteRoute m = some route ∧ ∃ i < missionQty m route,
    ∀ p ∈ part m.area.home route.route (missionQty m route) i, p = m.area.home

theorem missionQty_eq_one {m : Mission} {route : Route} (hpos : 0 < route.flightDuration)
    (hfits : route.flightDuration / 60 ≤ m.drone.minBattery) : missionQty m route = 1 := by
  have hbattery := m.drone.minBattery_pos
  unfold missionQty
  rw [Nat.ceil_eq_iff one_ne_zero]
  constructor
  · rw [Nat.sub_self, Nat.cast_zero]
    positivity
  · rw [Nat.cast_one, div_le_one hbattery]
    exact hfits

/-- The only sub-route of an unsplit route is not longer than the route. -/
theorem duration_part_one {m : Mission} {route r : Route} (hroute : calcCompleteRoute m = some route)
    (hr : Route.init m (part m.area.home route.route 1 0) = some r) : r.flightDuration ≤ route.flightDuration := by
  obtain ⟨hpoints, hduration, _⟩ := calcCompleteRoute_spec hroute
  rw [hpoints, part_one, completeRoute, init_eq_some_iff] at hr
  rw [hr.2, hduration, hpoints]
  refine div_le_div_of_nonneg_right (Polyline.length_le_of_sublist ?_) m.velocityCruiser_pos.le
  exact ((List.dropLast_sublist _).append_right _).cons_cons _

theorem batteryFeasible_of_fits {m : Mission} (hfits : CompleteFits m) : BatteryFeasible m := by
  intro routes hroutes r hr
  obtain ⟨route, hroute, ⟨_, rfl⟩ | ⟨_, subs, hsubs, rfl⟩⟩ := (calcRoute_eq_some_iff m routes).mp hroutes
  · cases hr
  · have hdur := hfits route hroute
    cases List.mem_append.mp hr with
    | inl hsub =>
        obtain ⟨l, hl, hinit⟩ := mem_of_mapM hsubs r hsub
        rw [missionQty_eq_one (calcCompleteRoute_spec hroute).2.2 hdur] at hl
        obtain ⟨i, hi, rfl⟩ := List.mem_map.mp hl
        rw [List.mem_range, Nat.lt_one_iff] at hi
        rw [hi] at hinit
        have hle := duration_part_one hroute hinit
        linarith
    | inr hlast =>
        rw [List.mem_singleton.mp hlast]
        exact hdur

/-- A complete route that does not fit is saved all the same. -/
theorem saved_of_long {m : Mission} {route : Route} (hroute : calcCompleteRoute m = some route)
    (hlong : m.drone.minBattery < route.flightDuration / 60) (hparts : PartsLeaveHome m route) :
    ∃ routes, calcRoute m = some routes ∧ route ∈ routes := by
  have hpos := (calcCompleteRoute_spec hroute).2.2
  obtain ⟨subs, hsubs⟩ := (exists_subs_iff m route).mpr hparts
  refine ⟨subs ++ [route], (calcRoute_eq_some_iff m _).mpr ⟨route, hroute, .inr ⟨?_, subs, hsubs, rfl⟩⟩,
    List.mem_append_right _ (List.mem_singleton_self _)⟩
  linarith

/-- **The battery.**  Every saved route fits into the battery exactly when the complete route
does, or when a sub-route stays at home and nothing is saved. -/
theorem batteryFeasible_iff (m : Mission) : BatteryFeasible m ↔ CompleteFits m ∨ StaysHome m := by
  constructor
  · intro h
    by_contra hor
    push Not at hor
    obtain ⟨hfits, hstays⟩ := hor
    unfold CompleteFits at hfits
    push Not at hfits
    obtain ⟨route, hroute, hlong⟩ := hfits
    have hparts : PartsLeaveHome m route := by
      intro i hi
      by_contra hall
      push Not at hall
      exact hstays ⟨route, hroute, i, hi, hall⟩
    obtain ⟨routes, hroutes, hmem⟩ := saved_of_long hroute hlong hparts
    exact absurd (h routes hroutes route hmem) (not_le.mpr hlong)
  · rintro (hfits | ⟨route, hroute, i, hi, hall⟩)
    · exact batteryFeasible_of_fits hfits
    · intro routes hroutes
      obtain ⟨route', hroute', ⟨_, rfl⟩ | ⟨_, subs, hsubs, _⟩⟩ := (calcRoute_eq_some_iff m routes).mp hroutes
      · exact fun r hr => absurd hr List.not_mem_nil
      · rw [hroute, Option.some.injEq] at hroute'
        obtain ⟨p, hp, hne⟩ := (exists_subs_iff m route').mp ⟨subs, hsubs⟩ i (hroute' ▸ hi)
        rw [← hroute'] at hp
        exact absurd (hall p hp) hne

/-! ### A route that does not fit -/

section demo

/-- The geographic point at `x` and `y` metres from a base on the equator. -/
noncomputable def geoAt (x y : ℝ) : GeoPoint := ⟨9 * x / (320000 * π), 9 * y / 1000000, 0⟩

theorem toCartesian_geoAt (x y : ℝ) : toCartesian (geoAt x y) ⟨0, 0, 0⟩ = ⟨x, y, 0⟩ := by
  have hpi := pi_pos.ne'
  unfold toCartesian calcX calcY geoAt
  simp only [zero_mul, zero_div, cos_zero]
  congr 1
  · field_simp
    ring
  · ring

/-- A strip of six kilometres by one metre. -/
noncomputable def strip : Area where
  geoHome := ⟨0, 0, 0⟩
  geoPoints := ![geoAt 3000 4000, geoAt (-3000) 4000, geoAt (-3000) 4001, geoAt 3000 4001]
  latitude_lt := by norm_num

/-- The strip is covered by one line, at ten metres per second. -/
noncomputable def stripMission (minBattery : ℝ) (h : 0 < minBattery) : Mission where
  direction := Mission.horizontalDirection
  movement := Mission.upMovement
  drone := ⟨minBattery, 36, h, by norm_num⟩
  camera := ⟨(90, 90), (4000, 3000), 1 / 8000, 35, by norm_num, by norm_num, by norm_num, by norm_num⟩
  area := strip
  pictureDistance := 5
  sobrePosicao := 0
  blurFactor := 1 / 2
  pictureDistance_pos := by norm_num
  sobrePosicao_mem := by norm_num
  blurFactor_pos := by norm_num

theorem home_strip : strip.home = ⟨0, 0, 0⟩ := by
  simp [strip, Area.home, toCartesian, calcX, calcY]

theorem points_strip : strip.points 0 = ⟨3000, 4000, 0⟩ ∧ strip.points 1 = ⟨-3000, 4000, 0⟩ ∧
    strip.points 2 = ⟨-3000, 4001, 0⟩ ∧ strip.points 3 = ⟨3000, 4001, 0⟩ :=
  ⟨toCartesian_geoAt _ _, toCartesian_geoAt _ _, toCartesian_geoAt _ _, toCartesian_geoAt _ _⟩

theorem photoLength_strip : Mission.photoLengthOnGround 5 90 = 10 := by
  have hangle : (90 : ℝ) / 2 * π / 180 = π / 4 := by ring
  rw [Mission.photoLengthOnGround, hangle, tan_pi_div_four]
  norm_num

theorem hypotenuse_strip : strip.hypotenuse = 1 := by
  obtain ⟨h0, h1, h2, h3⟩ := points_strip
  rw [Area.hypotenuse, h0, h1, h2, h3]
  norm_num [CartesianPoint.minus, CartesianPoint.norm]

variable {minBattery : ℝ} (hpos : 0 < minBattery)

theorem turnQty_strip : (stripMission minBattery hpos).turnQty = 1.9 := by
  have hheight : (stripMission minBattery hpos).height = 10 := photoLength_strip
  have hhyp : (stripMission minBattery hpos).area.hypotenuse = 1 := hypotenuse_strip
  have hdirection : (stripMission minBattery hpos).direction = Mission.horizontalDirection := rfl
  rw [Mission.turnQty, if_pos hdirection, Mission.calcTurnQty, hheight, hhyp]
  norm_num [stripMission]

theorem velocityCruiser_strip : (stripMission minBattery hpos).velocityCruiser = 10 := by
  have hwidth : (stripMission minBattery hpos).width = 10 := photoLength_strip
  rw [Mission.velocityCruiser, Mission.velocityShutter, hwidth]
  norm_num [stripMission]

theorem waypoints_strip : (stripMission minBattery hpos).waypoints =
    [⟨3000, 4000, 0⟩, ⟨-3000, 4000, 0⟩, ⟨3000, 4000, 0⟩, ⟨-3000, 4000, 0⟩] := by
  obtain ⟨h0, h1, h2, h3⟩ := points_strip
  have hfloor : ⌊(stripMission minBattery hpos).turnQty⌋₊ = 1 := by
    rw [turnQty_strip hpos, Nat.floor_eq_iff (by norm_num)]
    norm_num
  have harea : (stripMission minBattery hpos).area = strip := rfl
  have hcorners : (stripMission minBattery hpos).corners = (0, 1, 2, 3) := rfl
  unfold Mission.waypoints
  rw [hfloor, hcorners, harea]
  simp [h0, h1, h2, h3, turn, CartesianPoint.sumproduct]

theorem completeRoute_strip : ∃ route, calcCompleteRoute (stripMission minBattery hpos) = some route ∧
    route.route = [⟨0, 0, 0⟩, ⟨3000, 4000, 0⟩, ⟨-3000, 4000, 0⟩, ⟨3000, 4000, 0⟩, ⟨-3000, 4000, 0⟩, ⟨0, 0, 0⟩] ∧
    route.flightDuration = 2800 := by
  have hhome : (stripMission minBattery hpos).area.home = ⟨0, 0, 0⟩ := home_strip
  unfold calcCompleteRoute completeRoute
  rw [hhome, waypoints_strip hpos]
  refine ⟨_, (init_eq_some_iff _ _ _ _).mpr ⟨⟨⟨3000, 4000, 0⟩, by simp, by simp⟩, rfl⟩, rfl, ?_⟩
  simp only [List.cons_append, List.nil_append, velocityCruiser_strip hpos, Polyline.length_cons_cons,
    Polyline.length_singleton, CartesianPoint.dist_eq_norm, CartesianPoint.minus, CartesianPoint.norm]
  norm_num

/-- A flight of 46 minutes and 40 seconds is saved for a battery of thirty minutes. -/
theorem batteryFeasible_fails : ¬ ∀ m : Mission, BatteryFeasible m := by
  intro h
  have h30 : (0 : ℝ) < 30 := by norm_num
  obtain ⟨route, hroute, hpoints, hduration⟩ := completeRoute_strip h30
  have hbattery : (stripMission 30 h30).drone.minBattery = 30 := rfl
  have hqty : missionQty (stripMission 30 h30) route = 2 := by
    rw [missionQty, hduration, hbattery, Nat.ceil_eq_iff (by norm_num)]
    norm_num
  have hhome : (stripMission 30 h30).area.home = ⟨0, 0, 0⟩ := home_strip
  have hparts : PartsLeaveHome (stripMission 30 h30) route := by
    intro i hi
    rw [hqty] at hi
    rw [hqty, hpoints, hhome]
    refine ⟨⟨3000, 4000, 0⟩, ?_, by simp⟩
    interval_cases i
    · exact List.mem_cons_of_mem _ List.mem_cons_self
    · exact List.mem_cons_of_mem _ List.mem_cons_self
  obtain ⟨routes, hroutes, hmem⟩ := saved_of_long hroute (by rw [hbattery, hduration]; norm_num) hparts
  have hfits := h (stripMission 30 h30) routes hroutes route hmem
  rw [hbattery, hduration] at hfits
  norm_num at hfits

end demo

end DroneArch.SweepBattery
