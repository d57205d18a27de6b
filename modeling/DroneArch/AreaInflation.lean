import Mathlib.Analysis.SpecialFunctions.Trigonometric.Basic
import DroneArch.Lists
import DroneArch.ObstacleFitness

/-! # Inflated areas

`read_mapa` (`file_manipulation.py`) projects the no-fly areas of a map and repeats the first point
of each at its end.  `Mapa` (`data_definitions.py`) moves the edges of each area outwards and
intersects consecutive lines.  Both walk the same list circularly, so a closed ring has an edge
from its first point to itself.  Everything is over the reals; a division by zero gives `none`.

* `exists_inflateArea_iff`, `mem_inflateArea`: an area is inflated exactly when no two consecutive
  edges are parallel, and then to the intersections of the moved lines.
* `mapaLoads_iff`: a map is built exactly when it has no no-fly area. -/

namespace DroneArch.Genetic

open Planar Real Lists

noncomputable section

/-! ### `utils.py` -/

/-- `_normal`. -/
def normal (A B : Point ℝ) : Point ℝ :=
  let D : Point ℝ := ⟨A.x - B.x, A.y - B.y⟩
  let aux := √(D.y ^ 2 + D.x ^ 2) + 1 / 10 ^ 8
  ⟨D.y / aux, -D.x / aux⟩

/-- `_eq_line`: the coefficients of `A x + B y + C = 0`. -/
def eqLine (P Q : Point ℝ) : ℝ × ℝ × ℝ := (P.y - Q.y, Q.x - P.x, P.x * Q.y - Q.x * P.y)

/-- `_eq_intersection_point`. -/
def eqIntersectionPoint (a b c j k l : ℝ) : Option (ℝ × ℝ) :=
  let aux := b * j - a * k
  if aux = 0 then none else some ((c * k - b * l) / aux, (a * l - c * j) / aux)

/-! ### `Mapa` -/

/-- The line of an edge of `_inflate_area`. -/
def inflatedLine (inflationRate : ℝ) (e : Point ℝ × Point ℝ) : ℝ × ℝ × ℝ :=
  let N := normal e.1 e.2
  eqLine ⟨e.1.x + N.x * inflationRate, e.1.y + N.y * inflationRate⟩
    ⟨e.2.x + N.x * inflationRate, e.2.y + N.y * inflationRate⟩

/-- The vertex of `_inflate_area` between two lines. -/
def inflatedVertex (L : (ℝ × ℝ × ℝ) × (ℝ × ℝ × ℝ)) : Option (Point ℝ) :=
  (eqIntersectionPoint L.1.1 L.1.2.1 L.1.2.2 L.2.1 L.2.2.1 L.2.2.2).map (fun xy => ⟨xy.1, xy.2⟩)

/-- `_inflate_area`. -/
def inflateArea (area : List (Point ℝ)) (inflationRate : ℝ) : Option (List (Point ℝ)) :=
  let lines := (pairwiseCircle area).map (inflatedLine inflationRate)
  (pairwiseCircle lines).mapM inflatedVertex

structure Mapa where
  origin : Point ℝ
  destination : Point ℝ
  areasN : List (List (Point ℝ))
  areasNInf : List (List (Point ℝ))

def Mapa.init (origin destination : Point ℝ) (areasN : List (List (Point ℝ))) (inflationRate : ℝ) : Option Mapa :=
  (areasN.mapM (fun area => inflateArea area inflationRate)).map
    (fun areasNInf => ⟨origin, destination, areasN, areasNInf⟩)

/-! ### `read_mapa` -/

structure GeoPoint where
  latitude : ℝ
  longitude : ℝ
  altitude : ℝ

/-- A point as the file stores it: longitude, latitude and altitude. -/
abbrev Stored := ℝ × ℝ × ℝ

/-- The entry of a map in the file. -/
structure MapaFile where
  geoHome : Stored
  areasNaoNavegaveis : List (List Stored)

/-- `GeoPoint(geo_point[1], geo_point[0], geo_point[2])`. -/
def Stored.geoPoint (p : Stored) : GeoPoint := ⟨p.2.1, p.1, p.2.2⟩

/-- `Conversor.geo_to_cart`. -/
def geoToCart (geoPoint geoHome : GeoPoint) : Point ℝ :=
  ⟨(geoPoint.longitude - geoHome.longitude) * (6400000 * (cos (geoHome.latitude * π / 180) * 2 * π / 360)),
    (geoPoint.latitude - geoHome.latitude) * (10000000 / 90)⟩

/-- The points of an area. -/
def MapaFile.project (file : MapaFile) (area : List Stored) : List (Point ℝ) :=
  area.map (fun p => geoToCart p.geoPoint file.geoHome.geoPoint)

/-- `geo_points.append(geo_points[0])`. -/
def closeRing : List (Point ℝ) → Option (List (Point ℝ))
  | [] => none
  | p :: points => some (p :: (points ++ [p]))

/-- The no-fly areas of `read_mapa`. -/
def readMapa (file : MapaFile) : Option (List (List (Point ℝ))) :=
  file.areasNaoNavegaveis.mapM (fun area => closeRing (file.project area))

/-- `run_genetic` up to the map. -/
def buildMapa (file : MapaFile) (origin destination : Point ℝ) (inflationRate : ℝ) : Option Mapa :=
  (readMapa file).bind (fun areasN => Mapa.init origin destination areasN inflationRate)

end

/-! ### Lines and their intersection -/

/-- The point is on the line. -/
def OnLine (v : Point ℝ) (l : ℝ × ℝ × ℝ) : Prop := l.1 * v.x + l.2.1 * v.y + l.2.2 = 0

/-- Twice the signed area that two edges span. -/
def cross (e f : Point ℝ × Point ℝ) : ℝ :=
  (e.2.x - e.1.x) * (f.2.y - f.1.y) - (e.2.y - e.1.y) * (f.2.x - f.1.x)

/-- The moved line has the direction of the edge. -/
theorem inflatedLine_direction (rate : ℝ) (e : Point ℝ × Point ℝ) :
    (inflatedLine rate e).1 = e.1.y - e.2.y ∧ (inflatedLine rate e).2.1 = e.2.x - e.1.x := by
  unfold inflatedLine eqLine
  constructor
  · ring
  · ring

/-- Cramer's rule: the intersection is found when the lines are not parallel. -/
theorem eqIntersectionPoint_eq_some_iff (a b c j k l x y : ℝ) :
    eqIntersectionPoint a b c j k l = some (x, y) ↔
      b * j - a * k ≠ 0 ∧ a * x + b * y + c = 0 ∧ j * x + k * y + l = 0 := by
  unfold eqIntersectionPoint
  by_cases haux : b * j - a * k = 0
  · rw [if_pos haux]
    exact ⟨fun h => (nomatch h), fun h => absurd haux h.1⟩
  · rw [if_neg haux, Option.some.injEq, Prod.mk.injEq, div_eq_iff haux, div_eq_iff haux]
    constructor
    · rintro ⟨hx, hy⟩
      refine ⟨haux, mul_left_cancel₀ haux ?_, mul_left_cancel₀ haux ?_⟩
      · linear_combination -a * hx - b * hy
      · linear_combination -j * hx - k * hy
    · rintro ⟨_, h1, h2⟩
      constructor
      · linear_combination k * h1 - b * h2
      · linear_combination a * h2 - j * h1

theorem inflatedLine_aux (rate : ℝ) (e f : Point ℝ × Point ℝ) :
    (inflatedLine rate e).2.1 * (inflatedLine rate f).1 - (inflatedLine rate e).1 * (inflatedLine rate f).2.1 =
      - cross e f := by
  obtain ⟨ha, hb⟩ := inflatedLine_direction rate e
  obtain ⟨hj, hk⟩ := inflatedLine_direction rate f
  rw [ha, hb, hj, hk, cross]
  ring

theorem inflatedVertex_eq_some_iff (rate : ℝ) (e f : Point ℝ × Point ℝ) (v : Point ℝ) :
    inflatedVertex (inflatedLine rate e, inflatedLine rate f) = some v ↔
      cross e f ≠ 0 ∧ OnLine v (inflatedLine rate e) ∧ OnLine v (inflatedLine rate f) := by
  unfold inflatedVertex OnLine
  rw [← neg_ne_zero, ← inflatedLine_aux rate, ← eqIntersectionPoint_eq_some_iff, Option.map_eq_some_iff]
  constructor
  · rintro ⟨xy, h, rfl⟩
    exact h
  · exact fun h => ⟨_, h, rfl⟩

theorem exists_inflatedVertex_iff (rate : ℝ) (e f : Point ℝ × Point ℝ) :
    (∃ v, inflatedVertex (inflatedLine rate e, inflatedLine rate f) = some v) ↔ cross e f ≠ 0 := by
  constructor
  · rintro ⟨v, hv⟩
    exact ((inflatedVertex_eq_some_iff rate e f v).mp hv).1
  · intro hcross
    have haux := inflatedLine_aux rate e f
    unfold inflatedVertex eqIntersectionPoint
    rw [if_neg (by rw [haux]; exact neg_ne_zero.mpr hcross)]
    exact ⟨_, rfl⟩

/-! ### Inflating an area -/

/-- The pairs of consecutive edges of a list walked circularly. -/
def consecutive (area : List (Point ℝ)) : List ((Point ℝ × Point ℝ) × (Point ℝ × Point ℝ)) :=
  pairwiseCircle (pairwiseCircle area)

theorem inflateArea_eq (area : List (Point ℝ)) (rate : ℝ) :
    inflateArea area rate =
      ((consecutive area).map (Prod.map (inflatedLine rate) (inflatedLine rate))).mapM inflatedVertex := by
  unfold consecutive
  rw [pairwiseCircle_eq_edges, ← edges_map, ← pairwiseCircle_eq_edges]
  rfl

/-- **Inflating an area** succeeds exactly when no two consecutive edges are parallel. -/
theorem exists_inflateArea_iff (area : List (Point ℝ)) (rate : ℝ) :
    (∃ vs, inflateArea area rate = some vs) ↔ ∀ p ∈ consecutive area, cross p.1 p.2 ≠ 0 := by
  rw [inflateArea_eq, exists_mapM_iff, List.forall_mem_map]
  exact forall₂_congr (fun p _ => exists_inflatedVertex_iff rate p.1 p.2)

/-- The point is the intersection of the moved lines of two consecutive edges of the area. -/
def InflatedVertex (rate : ℝ) (area : List (Point ℝ)) (v : Point ℝ) : Prop :=
  ∃ p ∈ consecutive area, p.1.1 ≠ p.1.2 ∧ p.2.1 ≠ p.2.2 ∧ cross p.1 p.2 ≠ 0 ∧
    OnLine v (inflatedLine rate p.1) ∧ OnLine v (inflatedLine rate p.2)

/-- What an area is inflated to. -/
theorem mem_inflateArea {area vs : List (Point ℝ)} {rate : ℝ} (h : inflateArea area rate = some vs) :
    ∀ v ∈ vs, InflatedVertex rate area v := by
  intro v hv
  rw [inflateArea_eq] at h
  obtain ⟨l, hl, hvertex⟩ := mem_of_mapM h v hv
  obtain ⟨p, hp, rfl⟩ := List.mem_map.mp hl
  obtain ⟨hcross, h1, h2⟩ := (inflatedVertex_eq_some_iff rate p.1 p.2 v).mp hvertex
  refine ⟨p, hp, ?_, ?_, hcross, h1, h2⟩
  · intro heq
    exact hcross (by rw [cross, heq]; ring)
  · intro heq
    exact hcross (by rw [cross, heq]; ring)

/-! ### Closed rings -/

/-- A closed ring has an edge from its first point to itself. -/
theorem loop_mem_pairwiseCircle {area ring : List (Point ℝ)} (h : closeRing area = some ring) :
    ∃ p, (p, p) ∈ pairwiseCircle ring := by
  cases area with
  | nil => cases h
  | cons p points =>
      cases h
      refine ⟨p, ?_⟩
      have hzip : pairwiseCircle (p :: (points ++ [p])) = ((p :: points) ++ [p]).zip ((points ++ [p]) ++ [p]) := rfl
      rw [hzip, List.zip_append (by simp)]
      exact List.mem_append_right _ (List.mem_singleton_self _)

/-- A closed ring cannot be inflated. -/
theorem inflateArea_closeRing {area ring : List (Point ℝ)} (h : closeRing area = some ring) (rate : ℝ) :
    inflateArea ring rate = none := by
  obtain ⟨p, hp⟩ := loop_mem_pairwiseCircle h
  obtain ⟨f, hf⟩ := exists_mem_pairwiseCircle hp
  rw [Option.eq_none_iff_forall_ne_some]
  intro vs hvs
  refine (exists_inflateArea_iff ring rate).mp ⟨vs, hvs⟩ _ hf ?_
  rw [cross]
  ring

/-- A map with a no-fly area is not built. -/
theorem buildMapa_eq_none {file : MapaFile} (hne : file.areasNaoNavegaveis ≠ []) (origin destination : Point ℝ)
    (rate : ℝ) : buildMapa file origin destination rate = none := by
  rw [Option.eq_none_iff_forall_ne_some]
  intro mapa hmapa
  obtain ⟨areasN, hareas, hinit⟩ := Option.bind_eq_some_iff.mp hmapa
  obtain ⟨area, harea⟩ := List.exists_mem_of_ne_nil _ hne
  obtain ⟨ring, hring, hclose⟩ := exists_mem_of_mapM hareas area harea
  obtain ⟨areasNInf, hinf, _⟩ := Option.map_eq_some_iff.mp hinit
  obtain ⟨vs, _, hvs⟩ := exists_mem_of_mapM hinf ring hring
  rw [inflateArea_closeRing hclose] at hvs
  cases hvs

/-- The map is built, and its inflated areas have the intersections of consecutive edges for
vertices. -/
def MapaLoads (file : MapaFile) (origin destination : Point ℝ) (rate : ℝ) : Prop :=
  ∃ mapa, buildMapa file origin destination rate = some mapa ∧
    List.Forall₂ (fun area areaInf => ∀ v ∈ areaInf, InflatedVertex rate (file.project area) v)
      file.areasNaoNavegaveis mapa.areasNInf

/-- **Loading a map.**  A map is built exactly when it has no no-fly area. -/
theorem mapaLoads_iff (file : MapaFile) (origin destination : Point ℝ) (rate : ℝ) :
    MapaLoads file origin destination rate ↔ file.areasNaoNavegaveis = [] := by
  constructor
  · rintro ⟨mapa, hmapa, _⟩
    by_contra hne
    rw [buildMapa_eq_none hne] at hmapa
    cases hmapa
  · intro hnil
    refine ⟨⟨origin, destination, [], []⟩, ?_, ?_⟩
    · unfold buildMapa readMapa
      rw [hnil]
      rfl
    · rw [hnil]
      exact .nil

/-! ### A square -/

/-- The vertices of a simple polygon without two parallel consecutive edges. -/
def GeneralArea (area : List (Point ℝ)) : Prop :=
  (∃ P : SimplePolygon ℝ, P.vertices = area) ∧ ∀ p ∈ consecutive area, cross p.1 p.2 ≠ 0

/-- A point at `p` metres from a base on the equator, as the file stores it. -/
noncomputable def storedAt (p : Point ℝ) : Stored := (9 * p.x / (320000 * π), 9 * p.y / 1000000, 0)

theorem geoToCart_storedAt (p : Point ℝ) : geoToCart (storedAt p).geoPoint ⟨0, 0, 0⟩ = p := by
  have hpi := pi_pos.ne'
  unfold geoToCart storedAt Stored.geoPoint
  simp only [zero_mul, zero_div, cos_zero]
  ext
  · field_simp
    ring
  · ring

/-- A map with one square no-fly area. -/
noncomputable def squareFile : MapaFile := ⟨(0, 0, 0), [(diamond : SimplePolygon ℝ).vertices.map storedAt]⟩

theorem project_squareFile :
    squareFile.project ((diamond : SimplePolygon ℝ).vertices.map storedAt) = (diamond : SimplePolygon ℝ).vertices := by
  rw [MapaFile.project, List.map_map]
  exact List.map_id'' geoToCart_storedAt _

theorem generalArea_diamond : GeneralArea (diamond : SimplePolygon ℝ).vertices := by
  refine ⟨⟨diamond, rfl⟩, ?_⟩
  norm_num [consecutive, pairwiseCircle, diamond, cross]

/-- The map with the square is not built. -/
theorem mapaLoads_fails : ¬ ∀ (file : MapaFile) (origin destination : Point ℝ) (rate : ℝ),
    (∀ area ∈ file.areasNaoNavegaveis, GeneralArea (file.project area)) → MapaLoads file origin destination rate := by
  intro h
  obtain ⟨mapa, hmapa, _⟩ := h squareFile ⟨0, 0⟩ ⟨5, 5⟩ 3 (fun area harea => by
    rw [List.mem_singleton.mp harea, project_squareFile]
    exact generalArea_diamond)
  rw [buildMapa_eq_none (List.cons_ne_nil _ _)] at hmapa
  cases hmapa

end DroneArch.Genetic
