import Mathlib.Analysis.Real.Pi.Bounds
import DroneArch.AreaInflation
import DroneArch.RrtOutput
import DroneArch.SweepMission

/-! # The projections and back

Three planners convert between geographic points and metres around a home point: `Conversor`
(`data_definitions.py`), `Controller` (`PathPlanning.py`) and the functions of `rrt_star.py`.  All
divide the longitude by another number of metres per degree than the one they multiply by, so a point
comes back with its distance to the home meridian stretched.  `Conversor` also fills `GeoPoint`, whose
first field is the latitude, with the longitude first.  `to_cartesian` of `rrt_star.py` gives a pair of
coordinates, which the script puts into a `CartesianPoint` before it calls `to_geo_point`.

* `lonBack_eq`: the longitude that comes back.
* `sweep_round_trip`, `rrt_round_trip`, `cartToGeo_geoToCart`: the point that comes back.
* `returns_iff`: the points that come back where they were. -/

namespace DroneArch

open Real

/-! ### The stretched longitude -/

namespace Projections

noncomputable section

/-- The metres per degree of longitude at the equator of the way to metres. -/
def metresTo : ℝ := 6400000 * 2 * π / 360

/-- The metres per degree of longitude at the equator of the way back. -/
def metresBack : ℝ := 10008000 / 90

/-- The factor on the distance to the home meridian. -/
def stretch : ℝ := metresTo / metresBack

/-- The longitude that comes back. -/
def lonBack (longi home : ℝ) : ℝ := stretch * (longi - home) + home

end

theorem stretch_gt : 1 < stretch := by
  have hpi := pi_gt_d2
  unfold stretch metresTo metresBack
  rw [lt_div_iff₀ (by norm_num)]
  linarith

/-- Only the home meridian stays. -/
theorem lonBack_eq_iff (longi home : ℝ) : lonBack longi home = longi ↔ longi = home := by
  have hgt := stretch_gt
  unfold lonBack
  constructor
  · intro h
    have hmul : (stretch - 1) * (longi - home) = 0 := by linear_combination h
    rcases mul_eq_zero.mp hmul with hs | hd
    · exact absurd hs (sub_ne_zero.mpr hgt.ne')
    · exact sub_eq_zero.mp hd
  · rintro rfl
    rw [sub_self, mul_zero, zero_add]

/-- The error grows with the distance to the home meridian. -/
theorem abs_lonBack_sub (longi home : ℝ) : |lonBack longi home - longi| = (stretch - 1) * |longi - home| := by
  have hdiff : lonBack longi home - longi = (stretch - 1) * (longi - home) := by
    unfold lonBack
    ring
  rw [hdiff, abs_mul, abs_of_pos (sub_pos.mpr stretch_gt)]

/-- The cosine of a latitude between the poles. -/
theorem cos_ne_zero {lat : ℝ} (h : |lat| < 90) : cos (lat * π / 180) ≠ 0 := by
  have hpi := pi_pos
  obtain ⟨hlo, hhi⟩ := abs_lt.mp h
  refine (cos_pos_of_mem_Ioo ⟨?_, ?_⟩).ne'
  · nlinarith
  · nlinarith

/-- The conversion of a longitude to metres and back. -/
theorem lonBack_eq (longi home : ℝ) {c : ℝ} (hc : c ≠ 0) :
    (longi - home) * (6400000 * (c * 2 * π / 360)) * 90 / (10008000 * c) + home = lonBack longi home := by
  unfold lonBack stretch metresTo metresBack
  field_simp

/-- The conversion of a latitude to metres and back. -/
theorem latBack_eq (lat home : ℝ) : (lat - home) * (10000000 / 90) * 90 / 10000000 + home = lat := by
  ring

end Projections

/-! ### The three pairs -/

namespace Genetic

/-- `Conversor.cart_to_geo`; the fields of `GeoPoint` are latitude, longitude and altitude. -/
noncomputable def cartToGeo (cartesianPoint : Planar.Point ℝ) (geoHome : GeoPoint) : GeoPoint :=
  let longitudeX := cartesianPoint.x * 90 / (10008000 * cos (geoHome.latitude * π / 180)) + geoHome.longitude
  let latitudeY := cartesianPoint.y * 90 / 10000000 + geoHome.latitude
  ⟨longitudeX, latitudeY, 10⟩

/-- The fields change places. -/
theorem cartToGeo_geoToCart {geoHome : GeoPoint} (h : |geoHome.latitude| < 90) (g : GeoPoint) :
    cartToGeo (geoToCart g geoHome) geoHome =
      ⟨Projections.lonBack g.longitude geoHome.longitude, g.latitude, 10⟩ := by
  unfold cartToGeo geoToCart
  simp only [Projections.lonBack_eq _ _ (Projections.cos_ne_zero h), Projections.latBack_eq]

end Genetic

namespace SweepMission

theorem sweep_round_trip {home : GeoPoint} (h : |home.latitude| < 90) (g : GeoPoint) :
    toGeoPoint (toCartesian g home) home =
      ⟨Projections.lonBack g.longitude home.longitude, g.latitude, g.height⟩ := by
  unfold toGeoPoint toCartesian calcLongitudeX calcX calcLatitudeY calcY
  simp only [Projections.lonBack_eq _ _ (Projections.cos_ne_zero h), Projections.latBack_eq]

end SweepMission

namespace Rrt

theorem rrt_round_trip {home : Genetic.GeoPoint} (h : |home.latitude| < 90) (g : Genetic.GeoPoint) :
    toGeoPoint (toCartesian g home) home =
      ⟨g.latitude, Projections.lonBack g.longitude home.longitude, 15⟩ := by
  unfold toGeoPoint toCartesian calcLongitudeX calcX calcLatitudeY calcY
  simp only [Projections.lonBack_eq _ _ (Projections.cos_ne_zero h), Projections.latBack_eq]

end Rrt

/-! ### The points that come back -/

namespace Projections

/-- `Conversor` returns the coordinates of the point. -/
def ConversorReturns (geoHome g : Genetic.GeoPoint) : Prop :=
  let back := Genetic.cartToGeo (Genetic.geoToCart g geoHome) geoHome
  back.latitude = g.latitude ∧ back.longitude = g.longitude

/-- The `Controller` of the sweep planner returns the coordinates of the point. -/
def ControllerReturns (home g : SweepMission.GeoPoint) : Prop :=
  let back := SweepMission.toGeoPoint (SweepMission.toCartesian g home) home
  back.latitude = g.latitude ∧ back.longitude = g.longitude

/-- `rrt_star.py` returns the coordinates of the point. -/
def RrtReturns (home g : Genetic.GeoPoint) : Prop :=
  let back := Rrt.toGeoPoint (Rrt.toCartesian g home) home
  back.latitude = g.latitude ∧ back.longitude = g.longitude

theorem controllerReturns_iff {home : SweepMission.GeoPoint} (h : |home.latitude| < 90)
    (g : SweepMission.GeoPoint) : ControllerReturns home g ↔ g.longitude = home.longitude := by
  unfold ControllerReturns
  rw [SweepMission.sweep_round_trip h]
  exact (and_iff_right rfl).trans (lonBack_eq_iff _ _)

theorem rrtReturns_iff {home : Genetic.GeoPoint} (h : |home.latitude| < 90) (g : Genetic.GeoPoint) :
    RrtReturns home g ↔ g.longitude = home.longitude := by
  unfold RrtReturns
  rw [Rrt.rrt_round_trip h]
  exact (and_iff_right rfl).trans (lonBack_eq_iff _ _)

/-- The swapped fields agree only where the latitude is the longitude. -/
theorem conversorReturns_iff {geoHome : Genetic.GeoPoint} (h : |geoHome.latitude| < 90) (g : Genetic.GeoPoint) :
    ConversorReturns geoHome g ↔ g.latitude = g.longitude ∧ g.longitude = geoHome.longitude := by
  unfold ConversorReturns
  rw [Genetic.cartToGeo_geoToCart h]
  constructor
  · rintro ⟨hlat, hlon⟩
    refine ⟨hlon, (lonBack_eq_iff _ _).mp ?_⟩
    exact hlat.trans hlon
  · rintro ⟨heq, hlon⟩
    exact ⟨((lonBack_eq_iff _ _).mpr hlon).trans heq.symm, heq⟩

/-- **Round trips.**  The sweep planner and RRT* return the points on the home meridian, `Conversor`
those of them whose latitude is their longitude. -/
theorem returns_iff (latHome lonHome altHome lat lon alt : ℝ) (h : |latHome| < 90) :
    (ConversorReturns ⟨latHome, lonHome, altHome⟩ ⟨lat, lon, alt⟩ ↔ lat = lon ∧ lon = lonHome) ∧
    (ControllerReturns ⟨lonHome, latHome, altHome⟩ ⟨lon, lat, alt⟩ ↔ lon = lonHome) ∧
    (RrtReturns ⟨latHome, lonHome, altHome⟩ ⟨lat, lon, alt⟩ ↔ lon = lonHome) :=
  ⟨conversorReturns_iff h _, controllerReturns_iff h _, rrtReturns_iff h _⟩

/-- A point ten degrees east of the home meridian, on the equator. -/
theorem returns_east : ¬ ConversorReturns ⟨0, 0, 0⟩ ⟨0, 10, 0⟩ ∧ ¬ ControllerReturns ⟨0, 0, 0⟩ ⟨10, 0, 0⟩ ∧
    ¬ RrtReturns ⟨0, 0, 0⟩ ⟨0, 10, 0⟩ := by
  have hhome : |(0 : ℝ)| < 90 := by norm_num
  refine ⟨fun hc => ?_, fun hs => ?_, fun hr => ?_⟩
  · exact absurd ((conversorReturns_iff hhome _).mp hc).2 (by norm_num)
  · exact absurd ((controllerReturns_iff hhome _).mp hs) (by norm_num)
  · exact absurd ((rrtReturns_iff hhome _).mp hr) (by norm_num)

/-- The theorem at the home of `rrt_star.py` and a point to its east. -/
theorem returns_farm :
    (ConversorReturns ⟨-12, -50, 0⟩ ⟨-12, -49, 0⟩ ↔ (-12 : ℝ) = -49 ∧ (-49 : ℝ) = -50) ∧
    (ControllerReturns ⟨-50, -12, 0⟩ ⟨-49, -12, 0⟩ ↔ (-49 : ℝ) = -50) ∧
    (RrtReturns ⟨-12, -50, 0⟩ ⟨-12, -49, 0⟩ ↔ (-49 : ℝ) = -50) :=
  returns_iff (-12) (-50) 0 (-12) (-49) 0 (by norm_num)

end Projections

end DroneArch
