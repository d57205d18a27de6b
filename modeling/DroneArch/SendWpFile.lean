import Mathlib.Data.Rat.Defs
import Mathlib.Data.List.Basic
import DroneArch.Lists

/-! # The route file

`sendWPFile` (`RPTutorial10.cpp`) reads `route.txt`: the lines that are not the header hold
longitude, latitude and altitude.  The mission starts at the position of the vehicle.  A line with
fewer than three fields is read past the end of its vector, which is undefined: `missionWp` has no
value then, and `missionWpPast` has the one that the strings behind the vectors give.  The content
of the file is the list of its lines, and `atof` is a parameter.

* `missionWp_length`: one waypoint for each line, and the first one.
* `exists_missionWp_iff`: the mission is defined exactly when every line has three fields.
* `missionWp_of_wellFormed`: then it does not matter what stands behind the vectors. -/

namespace DroneArch.SendWpFile

open Lists

/-- The position of the vehicle. -/
structure GeoPoint where
  longitude : ℚ
  latitude : ℚ
  altitude : ℚ
deriving DecidableEq

/-- `mavros_msgs/Waypoint`. -/
structure Waypoint where
  frame : ℕ
  command : ℕ
  isCurrent : Bool
  autocontinue : Bool
  param1 : ℚ
  param2 : ℚ
  param3 : ℚ
  param4 : ℚ
  xLat : ℚ
  yLong : ℚ
  zAlt : ℚ
deriving DecidableEq

/-- The line that is skipped. -/
def header : String := "           lng            lat            alt"

/-- The characters between which `istream_iterator` splits. -/
def isspace (c : Char) : Bool :=
  c = ' ' || c = '\t' || c = '\n' || c.toNat = 11 || c.toNat = 12 || c = '\r'

/-- The fields of a line. -/
def fields (line : String) : List String :=
  ((line.toList.splitOnP isspace).filter (fun field => !field.isEmpty)).map String.ofList

/-- The lines that are counted and sent. -/
def waypointLines (lines : List String) : List String := lines.filter (fun line => line != header)

/-- A waypoint of the mission. -/
def waypoint (isCurrent : Bool) (xLat yLong zAlt : ℚ) : Waypoint :=
  ⟨3, 16, isCurrent, true, 0, 0, 0, 0, xLat, yLong, zAlt⟩

/-- The waypoint of a line; `results[0]`, `results[1]` and `results[2]` have to exist. -/
def readLine (atof : String → ℚ) (line : String) : Option Waypoint :=
  match fields line with
  | lng :: lat :: alt :: _ => some (waypoint false (atof lat) (atof lng) (atof alt))
  | _ => none

/-- `mission_wp`. -/
def missionWp (atof : String → ℚ) (position : GeoPoint) (lines : List String) : Option (List Waypoint) :=
  ((waypointLines lines).mapM (readLine atof)).map
    (fun wps => waypoint true position.latitude position.longitude 15 :: wps)

/-- The waypoint of any line: `past i` is what stands in memory where `results[i]` is missing. -/
def readLinePast (atof : String → ℚ) (past : ℕ → String) (line : String) : Waypoint :=
  let results := fun i => ((fields line)[i]?).getD (past i)
  waypoint false (atof (results 1)) (atof (results 0)) (atof (results 2))

/-- `mission_wp` of any file. -/
def missionWpPast (atof : String → ℚ) (past : ℕ → ℕ → String) (position : GeoPoint) (lines : List String) :
    List Waypoint :=
  waypoint true position.latitude position.longitude 15 ::
    (waypointLines lines).mapIdx (fun n line => readLinePast atof (past n) line)

/-- One waypoint for each line, and the position of the vehicle. -/
theorem missionWp_length {atof : String → ℚ} {position : GeoPoint} {lines : List String} {wps : List Waypoint}
    (h : missionWp atof position lines = some wps) : wps.length = (waypointLines lines).length + 1 := by
  obtain ⟨wps', h', rfl⟩ := Option.map_eq_some_iff.mp h
  rw [List.length_cons, length_of_mapM h']

/-! ### When it is defined -/

theorem exists_readLine_iff (atof : String → ℚ) (line : String) :
    (∃ wp, readLine atof line = some wp) ↔ 3 ≤ (fields line).length := by
  unfold readLine
  cases fields line with
  | nil => simp
  | cons a l =>
      cases l with
      | nil => simp
      | cons b l =>
          cases l with
          | nil => simp
          | cons c l => simp

/-- Every line has the three fields that are read. -/
def WellFormed (lines : List String) : Prop := ∀ line ∈ waypointLines lines, 3 ≤ (fields line).length

theorem exists_missionWp_iff (atof : String → ℚ) (position : GeoPoint) (lines : List String) :
    (∃ wps, missionWp atof position lines = some wps) ↔ WellFormed lines := by
  unfold missionWp WellFormed
  rw [← forall₂_congr (fun line _ => exists_readLine_iff atof line), ← exists_mapM_iff]
  constructor
  · rintro ⟨wps, h⟩
    obtain ⟨wps', h', _⟩ := Option.map_eq_some_iff.mp h
    exact ⟨wps', h'⟩
  · rintro ⟨wps', h'⟩
    exact ⟨_, Option.map_eq_some_iff.mpr ⟨wps', h', rfl⟩⟩

/-! ### Reading past the end -/

theorem readLinePast_eq {atof : String → ℚ} {line : String} {wp : Waypoint} (h : readLine atof line = some wp)
    (past : ℕ → String) : readLinePast atof past line = wp := by
  unfold readLine at h
  split at h
  · rename_i lng lat alt _ hfields
    cases h
    simp only [readLinePast, hfields, List.getElem?_cons_zero, List.getElem?_cons_succ, Option.getD_some]
  · cases h

theorem mapIdx_readLinePast {atof : String → ℚ} {lines : List String} {wps : List Waypoint}
    (h : lines.mapM (readLine atof) = some wps) (past : ℕ → ℕ → String) :
    lines.mapIdx (fun n line => readLinePast atof (past n) line) = wps := by
  induction lines generalizing wps past with
  | nil =>
      cases h
      rfl
  | cons line lines ih =>
      obtain ⟨wp, wps', hwp, hwps, rfl⟩ := mapM_cons_eq_some.mp h
      rw [List.mapIdx_cons, readLinePast_eq hwp, ih hwps (fun n => past (n + 1))]

/-- Nothing behind a vector is read when every line has three fields. -/
theorem missionWp_of_wellFormed {lines : List String} (h : WellFormed lines) (atof : String → ℚ)
    (past : ℕ → ℕ → String) (position : GeoPoint) :
    missionWp atof position lines = some (missionWpPast atof past position lines) := by
  obtain ⟨wps, hwps⟩ := (exists_missionWp_iff atof position lines).mpr h
  obtain ⟨wps', hwps', rfl⟩ := Option.map_eq_some_iff.mp hwps
  rw [hwps, missionWpPast, mapIdx_readLinePast hwps' past]

end DroneArch.SendWpFile

