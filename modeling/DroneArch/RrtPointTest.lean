import DroneArch.RrtSafety

/-! # The point test of RRT

`not_colides` is the same function in `rrt.py` and in `rrt_star.py`.  Its loop starts with an edge
from the first vertex to itself, and one variable, `xints`, is set in some passes and read in others.
`notColidesStrict` is the loop that stops where a pass divides by zero or reads an `xints` that
it has not set itself: it never stops (`notColidesStrict_eq`). -/

namespace DroneArch.Rrt

open Planar

noncomputable section

/-- One pass of the loop of `not_colides`, if it divides by no zero and reads no `xints` but its own. -/
def scanStrict (x y : ℝ) (s : Scan) (p2 : Point ℝ) : Option Scan :=
  let p1 := s.p1
  if y > min p1.y p2.y ∧ y ≤ max p1.y p2.y ∧ x ≤ max p1.x p2.x then
    if p1.y ≠ p2.y then
      if p2.y - p1.y = 0 then none
      else
        let xints := (y - p1.y) * (p2.x - p1.x) / (p2.y - p1.y) + p1.x
        if p1.x = p2.x ∨ x ≤ xints then some ⟨!s.inside, p2, some xints⟩ else some ⟨s.inside, p2, some xints⟩
    else if p1.x = p2.x then some ⟨!s.inside, p2, s.xints⟩
    else none
  else some ⟨s.inside, p2, s.xints⟩

/-- `not_colides`, if no pass of its loop stops. -/
def notColidesStrict (x y : ℝ) (poly : Poly) : Option Bool :=
  let n := poly.vertices.length
  ((List.range (n + 1)).foldlM (fun s i => scanStrict x y s (poly.at i)) ⟨true, poly.at 0, none⟩).map Scan.inside

/-- An edge that reaches the test of `xints` is not level. -/
theorem scanStrict_eq (x y : ℝ) (s : Scan) (p2 : Point ℝ) : scanStrict x y s p2 = some (scan x y s p2) := by
  unfold scanStrict scan
  by_cases hin : y > min s.p1.y p2.y ∧ y ≤ max s.p1.y p2.y ∧ x ≤ max s.p1.x p2.x
  · have hne : s.p1.y ≠ p2.y := by
      intro he
      have h1 := hin.1
      have h2 := hin.2.1
      rw [he, min_self] at h1
      rw [he, max_self] at h2
      exact h2.not_gt h1
    simp only [hin, hne, sub_ne_zero.mpr hne.symm, if_true, ne_eq, not_false_eq_true, if_false, Option.mem_def,
      Option.some.injEq, exists_eq_left', and_self]
    split <;> rfl
  · simp only [hin, if_false]

/-- No pass divides by zero or reads a value of an earlier pass. -/
theorem notColidesStrict_eq (x y : ℝ) (poly : Poly) : notColidesStrict x y poly = some (notColides x y poly) := by
  have hloop : ∀ (l : List ℕ) (s : Scan), l.foldlM (fun s i => scanStrict x y s (poly.at i)) s =
      some (l.foldl (fun s i => scan x y s (poly.at i)) s) := by
    intro l
    induction l with
    | nil =>
        intro s
        rfl
    | cons i l ih =>
        intro s
        rw [List.foldlM_cons, scanStrict_eq, List.foldl_cons]
        exact ih _
  rw [notColidesStrict, hloop]
  rfl

/-- **The point test is the even-odd rule.**  Whichever list of a simple polygon the test is given,
it fails for the points of the interior and holds for the points outside, and no pass of its
loop divides by zero or reads an old `xints`. -/
theorem notColides_evenOdd (P : SimplePolygon ℝ) (p : Point ℝ) (hp : ¬ OnBoundary p P.vertices) (poly : Poly)
    (hpoly : SameRing poly.vertices P.vertices) :
    (notColides p.x p.y poly = false ↔ Interior p P.vertices) ∧
    notColidesStrict p.x p.y poly = some (notColides p.x p.y poly) := by
  refine ⟨?_, notColidesStrict_eq p.x p.y poly⟩
  have hoff : ¬ OnBoundary p poly.vertices := fun h => hp (hpoly.onBoundary_iff.mp h)
  rw [← Bool.not_eq_true, notColides_iff hoff, not_not, hpoly.inside_iff]
  exact ⟨fun h => ⟨h, hp⟩, fun h => h.1⟩

theorem interior_peak : Interior ⟨56, 0⟩ peak.vertices := by
  refine ⟨?_, ?_⟩
  · norm_num [Inside, edges_triangle, peak, crosses, intercept]
  · rintro ⟨e, he, hon⟩
    have hdet := hon.det_eq_zero
    simp only [peak, edges_triangle, List.mem_cons, List.not_mem_nil, or_false] at he
    rcases he with rfl | rfl | rfl <;> norm_num [det] at hdet

theorem reverse_peak_ne_nil : peak.vertices.reverse ≠ [] := by simp [peak]

/-- A point in the middle of the triangle, which is listed backwards. -/
theorem notColides_evenOdd_peak : notColides 56 0 ⟨peak.vertices.reverse, reverse_peak_ne_nil⟩ = false ∧
    notColidesStrict 56 0 ⟨peak.vertices.reverse, reverse_peak_ne_nil⟩ = some false := by
  obtain ⟨hiff, hstrict⟩ := notColides_evenOdd peak ⟨56, 0⟩ interior_peak.2
    ⟨peak.vertices.reverse, reverse_peak_ne_nil⟩ (Or.inr (List.IsRotated.refl _))
  have hin := hiff.mpr interior_peak
  exact ⟨hin, hstrict.trans (congrArg some hin)⟩

end

end DroneArch.Rrt
