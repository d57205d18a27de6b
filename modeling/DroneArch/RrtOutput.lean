import Mathlib.Analysis.SpecialFunctions.Trigonometric.Basic
import DroneArch.AreaInflation
import DroneArch.RrtSafety

/-! # The output of RRT*

When the time is over and the best node is near the goal, `main` of `rrt_star.py` collects a line for
each node up to the root and a line for the goal, and writes them in reverse.  The index starts at the
line before the last one, so the goal is not written.  A line is given by its three columns, before they are
rounded.

* `written_eq`: the lines of the file are those of the nodes on the path.
* `output_ne`: no file ends with the goal. -/

namespace DroneArch.Rrt

open Planar Real Runs
open Genetic (GeoPoint)

noncomputable section

/-! ### Coordinates -/

def home : GeoPoint := ⟨-12825397 / 1000000, -50349937 / 1000000, 0⟩

def calcY (lat lat_ : ℝ) : ℝ := (lat - lat_) * (10000000 / 90)

def calcX (longi longi_ lat_ : ℝ) : ℝ := (longi - longi_) * (6400000 * (cos (lat_ * π / 180) * 2 * π / 360))

/-- `to_cartesian`. -/
def toCartesian (geoPoint home : GeoPoint) : Point ℝ :=
  ⟨calcX geoPoint.longitude home.longitude home.latitude, calcY geoPoint.latitude home.latitude⟩

def calcLatitudeY (lat_ y : ℝ) : ℝ := y * 90 / 10000000 + lat_

def calcLongitudeX (lat_ longi_ x : ℝ) : ℝ := x * 90 / (10008000 * cos (lat_ * π / 180)) + longi_

/-- `to_geo_point`; the altitude of the points is 15. -/
def toGeoPoint (cartesianPoint : Point ℝ) (home : GeoPoint) : GeoPoint :=
  ⟨calcLatitudeY home.latitude cartesianPoint.y,
    calcLongitudeX home.latitude home.longitude cartesianPoint.x, 15⟩

/-- The arguments of the script and the obstacles of the map file. -/
structure Args where
  initLatitude : ℝ
  initLongitude : ℝ
  goalLatitude : ℝ
  goalLongitude : ℝ
  obstacles : List (SimplePolygon ℝ)

def Args.mission (a : Args) : Mission where
  initPoint := toCartesian ⟨a.initLatitude, a.initLongitude, 0⟩ home
  goalPoint := toCartesian ⟨a.goalLatitude, a.goalLongitude, 0⟩ home
  obstacles := a.obstacles

/-! ### The output loop -/

/-- The columns of a line: longitude, latitude and altitude of a point. -/
abbrev Line := ℝ × ℝ × ℝ

/-- The line of a node. -/
def nodeLine (a : Args) (point : Point ℝ) : Line :=
  let point := toGeoPoint (a.mission.unscale point) home
  (point.longitude, point.latitude, 15)

/-- The line of the goal, `goal[0]` and `goal[1]`. -/
def goalLine (a : Args) : Line := (a.goalLatitude, a.goalLongitude, 15)

/-- `linhas` after the loop to the root. -/
def lines (a : Args) : Node → List Line
  | .root _ _ => [goalLine a]
  | .child point parent _ => nodeLine a point :: lines a parent

/-- The lines in the file, after the header. -/
def written (a : Args) (bestNode : Node) : List Line :=
  let linhas := lines a bestNode
  (List.range' 1 (linhas.length - 1)).map (fun w => linhas.getD (linhas.length - 1 - w) (goalLine a))

/-- The file, when the time is over. -/
def output (a : Args) (s : State) : Option (List Line) :=
  if dist s.bestNode.getPoint (a.mission.scale a.mission.goalPoint) < 10 then some (written a s.bestNode) else none

/-! ### What is written -/

/-- The points of the nodes from the child of the root to a node. -/
def Node.path : Node → List (Point ℝ)
  | .root _ _ => []
  | .child point parent _ => parent.path ++ [point]

theorem lines_eq (a : Args) (node : Node) : lines a node = (node.path.map (nodeLine a)).reverse ++ [goalLine a] := by
  induction node with
  | root point cost => rfl
  | child point parent cost ih =>
      rw [lines, ih, Node.path, List.map_append, List.reverse_append]
      rfl

/-- The loop writes the lines before the last one, from the end. -/
theorem written_eq (a : Args) (bestNode : Node) : written a bestNode = bestNode.path.map (nodeLine a) := by
  have hne : lines a bestNode ≠ [] := by
    rw [lines_eq]
    simp
  refine (Lists.map_getD_range' hne (goalLine a)).trans ?_
  rw [lines_eq, List.dropLast_concat, List.reverse_reverse]

/-- The waypoints are those of `route`. -/
theorem written_eq_route (a : Args) (bestNode : Node) : written a bestNode =
    (route a.mission bestNode).map (fun p => ((toGeoPoint p home).longitude, (toGeoPoint p home).latitude, 15)) := by
  have hlinhas : ∀ node : Node,
      (linhas a.mission node).dropLast.reverse = node.path.map a.mission.unscale := by
    intro node
    induction node with
    | root point cost => rfl
    | child point parent cost ih =>
        rw [linhas, List.dropLast_cons_of_ne_nil (linhas_ne_nil _ _), List.reverse_cons, ih, Node.path,
          List.map_append]
        rfl
  rw [written_eq, route_eq, hlinhas, List.map_map]
  rfl

/-- The file that leads to the goal. -/
def wanted (a : Args) (bestNode : Node) : List Line :=
  bestNode.path.map (nodeLine a) ++ [(a.goalLongitude, a.goalLatitude, 15)]

/-- The line of the goal is missing. -/
theorem written_ne_wanted (a : Args) (bestNode : Node) : written a bestNode ≠ wanted a bestNode := by
  intro h
  have hlen := congrArg List.length h
  rw [written_eq, wanted, List.length_append] at hlen
  simp at hlen

theorem eq_written_of_output {a : Args} {s : State} {file : List Line} (h : output a s = some file) :
    file = written a s.bestNode := by
  unfold output at h
  split at h
  · exact (Option.some.inj h).symm
  · cases h

/-- **The goal.**  No run writes a route that leads to the goal. -/
theorem output_ne (a : Args) (ds : List Draw) : ∀ s file, run (grow a.mission) (start a.mission) ds = some s →
    output a s = some file → file ≠ wanted a s.bestNode := by
  intro s file _ hout
  rw [eq_written_of_output hout]
  exact written_ne_wanted a s.bestNode

/-! ### A goal to the north -/

def northArgs : Args where
  initLatitude := home.latitude
  initLongitude := home.longitude
  goalLatitude := home.latitude + 144 / 100000
  goalLongitude := home.longitude
  obstacles := []

def drawNorth : Draw where
  x := ⟨0, by norm_num⟩
  signX := ⟨1 / 2, half_mem_Ico⟩
  y := ⟨7 / 20, by norm_num⟩
  signY := ⟨1 / 2, half_mem_Ico⟩

theorem goal_northArgs : northArgs.mission.scale northArgs.mission.goalPoint = ⟨0, 20⟩ := by
  ext
  · simp [northArgs, Args.mission, Mission.scale, toCartesian, calcX]
  · norm_num [northArgs, Args.mission, Mission.scale, toCartesian, calcY, sizeY]

theorem rand_northArgs : rand northArgs.mission drawNorth = ⟨0, 14⟩ := by
  unfold rand
  rw [goal_northArgs]
  ext <;> norm_num [drawNorth, posNeg]

theorem bestNode_northArgs :
    (step northArgs.mission (start northArgs.mission) drawNorth).bestNode = .child ⟨0, 14⟩ (.root ⟨0, 0⟩ 0) 14 := by
  have hsqrt : dist ⟨0, 14⟩ ⟨0, 0⟩ = 14 := by
    rw [dist, Real.sqrt_eq_iff_mul_self_eq (by norm_num) (by norm_num)]
    norm_num
  have hsqrt' : dist ⟨0, 0⟩ ⟨0, 14⟩ = 14 := by
    rw [dist, Real.sqrt_eq_iff_mul_self_eq (by norm_num) (by norm_num)]
    norm_num
  have hgoal : dist ⟨0, 14⟩ ⟨0, 20⟩ < 10 := by
    rw [dist, Real.sqrt_lt' (by norm_num)]
    norm_num
  have hnew : newPoint northArgs.mission (start northArgs.mission) drawNorth = ⟨0, 14⟩ := by
    rw [newPoint_start, rand_northArgs]
    rw [rand_northArgs, hsqrt', jump]
    norm_num
  obtain ⟨t, ht, heq⟩ := newNode_eq northArgs.mission (start northArgs.mission) drawNorth
  rw [cheapest_start ht, hnew] at heq
  have hcost : costThrough ⟨0, 14⟩ (.root ⟨0, 0⟩ 0) = 14 := by
    rw [costThrough, Node.getPoint_root, hsqrt]
    simp [Node.getCost]
  rw [hcost] at heq
  have hpolys : northArgs.mission.polys = [] := rfl
  have hcheap : (Node.child ⟨0, 14⟩ (.root ⟨0, 0⟩ 0) 14).getCost < (start northArgs.mission).bestNode.getCost := by
    norm_num [start, Node.getCost]
  unfold step keep
  rw [heq, hpolys]
  dsimp only
  rw [List.countP_nil, List.length_nil, if_pos le_rfl]
  dsimp only
  rw [Node.getPoint_child, goal_northArgs, if_pos hgoal, if_pos hcheap]

theorem output_northArgs :
    output northArgs (step northArgs.mission (start northArgs.mission) drawNorth) = some [nodeLine northArgs ⟨0, 14⟩] := by
  have hgoal : dist ⟨0, 14⟩ ⟨0, 20⟩ < 10 := by
    rw [dist, Real.sqrt_lt' (by norm_num)]
    norm_num
  unfold output
  rw [bestNode_northArgs, goal_northArgs, Node.getPoint_child, if_pos hgoal, written_eq]
  rfl

theorem output_ne_northArgs : [nodeLine northArgs ⟨0, 14⟩] ≠
    wanted northArgs (step northArgs.mission (start northArgs.mission) drawNorth).bestNode :=
  output_ne northArgs [drawNorth] _ _ rfl output_northArgs

/-- The file ends 48 m before the goal. -/
theorem output_fails : ¬ ∀ (a : Args) (ds : List Draw) (s : State) (file : List Line),
    run (grow a.mission) (start a.mission) ds = some s → output a s = some file → file = wanted a s.bestNode := by
  intro h
  have hfile := h northArgs [drawNorth] _ _ rfl output_northArgs
  rw [eq_written_of_output output_northArgs] at hfile
  exact written_ne_wanted _ _ hfile

end

end DroneArch.Rrt
