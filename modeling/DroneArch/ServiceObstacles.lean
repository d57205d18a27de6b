import DroneArch.Lists
import DroneArch.ObstacleFitness

/-! # Obstacle fitness of the planner service

`__fitness_obstacles` of `genetic_v2_3.py` with `ray_intersects_segment` and `point_in_polygon` of the
`utils.py` beside it.  The ray test means to move the point up where it is level with an end of
the edge, but `CartesianPoint` is a named tuple there, and an assignment to a field of it raises.
`none` is the exception. -/

namespace DroneArch.Genetic.V2_3

open Planar

section
variable {K : Type*} [Field K] [LinearOrder K]

/-- `ray_intersects_segment`: `P.y += epsilon` raises. -/
def rayIntersectsSegment (P A B : Point K) : Option Bool :=
  if P.y = A.y ∨ P.y = B.y then none else some (rayHits P A B)

/-- `point_in_polygon`. -/
def pointInPolygon (point : Point K) (polygon : List (Point K)) : Option Bool := do
  let count ← (pairwiseCircle polygon).foldlM (fun count e => do
    let AB := if e.1.y < e.2.y then e else (e.2, e.1)
    let hit ← rayIntersectsSegment point AB.1 AB.2
    return if hit then count + 1 else count) 0
  return decide (count % 2 ≠ 0)

/-- `Genetic.__fitness_obstacles`, for the decoded route and the inflated areas of the map. -/
def fitnessObstacles (dnaDecoded : List (Point K)) (areasNInf : List (List (Point K))) : Option ℕ :=
  (pairwise dnaDecoded).foldlM (fun count t =>
    areasNInf.foldlM (fun count area_n => do
      let wp1 := t.1
      let wp2 := t.2
      let inside ← pointInPolygon wp1 area_n
      let count := if inside then count + 1 else count
      return if segmentInPolygon wp1 wp2 area_n then count + 1 else count) count) 0

theorem exists_rayIntersectsSegment_iff (P : Point K) (e : Point K × Point K) :
    (∃ hit, rayIntersectsSegment P (if e.1.y < e.2.y then e else (e.2, e.1)).1
      (if e.1.y < e.2.y then e else (e.2, e.1)).2 = some hit) ↔ e.1.y ≠ P.y ∧ e.2.y ≠ P.y := by
  have hends : (∃ hit, rayIntersectsSegment P (if e.1.y < e.2.y then e else (e.2, e.1)).1
      (if e.1.y < e.2.y then e else (e.2, e.1)).2 = some hit) ↔ ¬ (P.y = e.1.y ∨ P.y = e.2.y) := by
    unfold rayIntersectsSegment
    split
    · simp
    · simp [or_comm]
  rw [hends, not_or, ne_comm, ne_comm (a := e.2.y)]

/-- The point test succeeds where no vertex is level with the point. -/
theorem exists_pointInPolygon_iff (point : Point K) (polygon : List (Point K)) :
    (∃ inside, pointInPolygon point polygon = some inside) ↔ ∀ v ∈ polygon, v.y ≠ point.y := by
  have hstep : ∀ (count : ℕ) (e : Point K × Point K), (∃ count', (do
      let AB := if e.1.y < e.2.y then e else (e.2, e.1)
      let hit ← rayIntersectsSegment point AB.1 AB.2
      return if hit then count + 1 else count : Option ℕ) = some count') ↔ e.1.y ≠ point.y ∧ e.2.y ≠ point.y := by
    intro count e
    rw [← exists_rayIntersectsSegment_iff]
    constructor
    · rintro ⟨count', h⟩
      obtain ⟨hit, hhit, -⟩ := Option.bind_eq_some_iff.mp h
      exact ⟨hit, hhit⟩
    · rintro ⟨hit, hhit⟩
      exact ⟨_, Option.bind_eq_some_iff.mpr ⟨hit, hhit, rfl⟩⟩
  have hloop := Lists.exists_foldlM_iff hstep (l := pairwiseCircle polygon) (b := 0)
  have hends : (∀ e ∈ pairwiseCircle polygon, e.1.y ≠ point.y ∧ e.2.y ≠ point.y) ↔ ∀ v ∈ polygon, v.y ≠ point.y := by
    refine ⟨fun h v hv => ?_, fun h e he => ?_⟩
    · obtain ⟨w, he⟩ := exists_mem_pairwiseCircle hv
      exact (h _ he).1
    · rw [pairwiseCircle_eq_edges] at he
      exact ⟨h _ (mem_of_mem_edges he).1, h _ (mem_of_mem_edges he).2⟩
  rw [← hends, ← hloop]
  constructor
  · rintro ⟨inside, h⟩
    obtain ⟨count, hcount, -⟩ := Option.bind_eq_some_iff.mp h
    exact ⟨count, hcount⟩
  · rintro ⟨count, hcount⟩
    exact ⟨_, Option.bind_eq_some_iff.mpr ⟨count, hcount, rfl⟩⟩

/-- **Exceptions of the obstacle fitness.**  A count is returned exactly when no first point of a leg
is level with a vertex of an area. -/
theorem exists_fitnessObstacles_iff (route : List (Point K)) (areas : List (List (Point K))) :
    (∃ n, fitnessObstacles route areas = some n) ↔
      ∀ t ∈ pairwise route, ∀ area ∈ areas, ∀ v ∈ area, v.y ≠ t.1.y := by
  refine Lists.exists_foldlM_iff fun count t => Lists.exists_foldlM_iff fun count area => ?_
  rw [← exists_pointInPolygon_iff]
  constructor
  · rintro ⟨count', h⟩
    obtain ⟨inside, hinside, -⟩ := Option.bind_eq_some_iff.mp h
    exact ⟨inside, hinside⟩
  · rintro ⟨inside, hinside⟩
    exact ⟨_, Option.bind_eq_some_iff.mpr ⟨inside, hinside, rfl⟩⟩

end

/-- A route from the origin and an area with its lower side level with the origin. -/
theorem fitnessObstacles_raises :
    fitnessObstacles [(⟨0, 0⟩ : Point ℝ), ⟨1, 1⟩] [[⟨4, 0⟩, ⟨4, 4⟩, ⟨9, 4⟩, ⟨9, 0⟩, ⟨4, 0⟩]] = none := by
  norm_num [fitnessObstacles, pairwise, pointInPolygon, pairwiseCircle, rayIntersectsSegment]

end DroneArch.Genetic.V2_3
