import DroneArch.AreaInflation
import DroneArch.ConvexPolygon

/-! # Inflated areas of the planner service

`_inflate_area` of `genetic_pathplanning` (`data_definitions.py`) moves the first four points of a ring,
which it takes for the corners of a rectangle: left bottom, left top, right top and right bottom.

* `scalar_covers`: an area with four vertices that are listed like this, with sides that lean by
  45 degrees at most, is inside the inflated one.
* `scalar_covers_fails`: a square that is listed the other way round is not. -/

namespace DroneArch.Genetic.V2_3

open Planar

noncomputable section

/-- The values of `mode`; with any other one `new_area` is unbound. -/
inductive Mode
  | percentage
  | scalar
  | other

/-- `CartesianPoint(p.x + dx, p.y + dy)`. -/
def moved (dx dy : ℝ) (p : Point ℝ) : Point ℝ := ⟨p.x + dx, p.y + dy⟩

/-- `_inflate_area`. -/
def inflateArea (area : List (Point ℝ)) (inflationRate : ℝ) (mode : Mode) : Option (List (Point ℝ)) := do
  let area0 ← area[0]?
  let area1 ← area[1]?
  let area2 ← area[2]?
  let area3 ← area[3]?
  let inc := inflationRate
  let dec := -inflationRate
  match mode with
  | .percentage =>
      let x := area2.x - area0.x
      let y := area1.y - area3.y
      let new_area0 := moved (dec * x) (dec * y) area0
      some [new_area0, moved (dec * x) (inc * y) area1, moved (inc * x) (inc * y) area2,
        moved (inc * x) (dec * y) area3, new_area0]
  | .scalar =>
      let new_area0 := moved dec dec area0
      some [new_area0, moved dec inc area1, moved inc inc area2, moved inc dec area3, new_area0]
  | .other => none

/-! ### Areas that lean -/

/-- The sides go up, to the right, down and to the left, each within 45 degrees. -/
structure Upright (a b c d : Point ℝ) : Prop where
  left : |b.x - a.x| ≤ b.y - a.y
  top : |c.y - b.y| ≤ c.x - b.x
  right : |d.x - c.x| ≤ c.y - d.y
  bottom : |a.y - d.y| ≤ d.x - a.x

/-- A quarter turn to the left. -/
def quarter (p : Point ℝ) : Point ℝ := ⟨-p.y, p.x⟩

theorem det_quarter (a b w : Point ℝ) : det (quarter a) (quarter b) (quarter w) = det a b w := by
  simp only [det, quarter]
  ring

theorem quarter_moved (dx dy : ℝ) (p : Point ℝ) : quarter (moved dx dy p) = moved (-dy) dx (quarter p) := by
  ext
  · simp only [quarter, moved]
    ring
  · rfl

/-- After a quarter turn the top side goes up. -/
theorem Upright.quarter {a b c d : Point ℝ} (h : Upright a b c d) :
    Upright (quarter b) (quarter c) (quarter d) (quarter a) := by
  obtain ⟨hl, ht, hr, hb⟩ := h
  rw [abs_le] at hl ht hr hb
  constructor <;> rw [abs_le] <;> simp only [V2_3.quarter] <;> constructor <;> linarith

/-- A vector that goes up steeply, and one that goes to the right. -/
theorem turn_neg {x y u v : ℝ} (h : |x| < y) (h' : |v| ≤ u) (hu : 0 < u) : x * v - y * u < 0 := by
  have hxv : x * v ≤ |x| * |v| := (le_abs_self _).trans (abs_mul x v).le
  have hle : |x| * |v| ≤ |x| * u := mul_le_mul_of_nonneg_left h' (abs_nonneg x)
  have hlt : |x| * u < y * u := mul_lt_mul_of_pos_right h hu
  linarith

/-- The next corner of the inflated area, and the area, are to the right of the moved left side. -/
theorem det_left_side {a b c d : Point ℝ} (h : Upright a b c d) {r : ℝ} (hr : 0 < r) :
    ∀ w ∈ [moved r r c, a, b, c, d], det (moved (-r) (-r) a) (moved (-r) r b) w < 0 := by
  have hsteep : |b.x - a.x| < b.y - a.y + 2 * r := by
    have := h.left
    linarith
  obtain ⟨-, ht, -, hb⟩ := h
  have hct := (abs_nonneg _).trans ht
  have hcb := (abs_nonneg _).trans hb
  rw [abs_le] at ht hb
  -- from the lower or from the upper end, the way to the point goes to the right
  have key : ∀ {w : Point ℝ} {u v : ℝ}, |v| ≤ u → 0 < u →
      w = ⟨a.x - r + u, a.y - r + v⟩ ∨ w = ⟨b.x - r + u, b.y + r + v⟩ →
      det (moved (-r) (-r) a) (moved (-r) r b) w < 0 := by
    intro w u v huv hu hw
    have hturn := turn_neg hsteep huv hu
    rcases hw with rfl | rfl <;> simp only [det, moved] <;> linarith
  rw [List.forall_mem_cons, List.forall_mem_cons, List.forall_mem_cons, List.forall_mem_cons,
    List.forall_mem_singleton]
  refine ⟨?_, ?_, ?_, ?_, ?_⟩
  · refine key (u := c.x - b.x + 2 * r) (v := c.y - b.y) (abs_le.mpr ⟨?_, ?_⟩) (by linarith) (Or.inr ?_)
    · linarith
    · linarith
    · ext <;> simp only [moved] <;> ring
  · refine key (u := r) (v := r) (abs_of_pos hr).le hr (Or.inl ?_)
    ext <;> ring
  · refine key (u := r) (v := -r) (by rw [abs_neg, abs_of_pos hr]) hr (Or.inr ?_)
    ext <;> ring
  · refine key (u := c.x - b.x + r) (v := c.y - b.y - r) (abs_le.mpr ⟨?_, ?_⟩) (by linarith) (Or.inr ?_)
    · linarith
    · linarith
    · ext <;> ring
  · refine key (u := d.x - a.x + r) (v := d.y - a.y + r) (abs_le.mpr ⟨?_, ?_⟩) (by linarith) (Or.inl ?_)
    · linarith
    · linarith
    · ext <;> ring

/-- A statement about the sides of a line may be proved after a quarter turn. -/
theorem det_neg_of_quarter {p q : Point ℝ} {l : List (Point ℝ)}
    (h : ∀ w ∈ l.map quarter, det (quarter p) (quarter q) w < 0) : ∀ w ∈ l, det p q w < 0 := by
  intro w hw
  rw [← det_quarter]
  exact h _ (List.mem_map_of_mem hw)

theorem det_top_side {a b c d : Point ℝ} (h : Upright a b c d) {r : ℝ} (hr : 0 < r) :
    ∀ w ∈ [moved r (-r) d, b, c, d, a], det (moved (-r) r b) (moved r r c) w < 0 := by
  refine det_neg_of_quarter ?_
  simpa only [List.map_cons, List.map_nil, quarter_moved, neg_neg] using det_left_side h.quarter hr

theorem det_right_side {a b c d : Point ℝ} (h : Upright a b c d) {r : ℝ} (hr : 0 < r) :
    ∀ w ∈ [moved (-r) (-r) a, c, d, a, b], det (moved r r c) (moved r (-r) d) w < 0 := by
  refine det_neg_of_quarter ?_
  simpa only [List.map_cons, List.map_nil, quarter_moved, neg_neg] using det_top_side h.quarter hr

theorem det_bottom_side {a b c d : Point ℝ} (h : Upright a b c d) {r : ℝ} (hr : 0 < r) :
    ∀ w ∈ [moved (-r) r b, d, a, b, c], det (moved r (-r) d) (moved (-r) (-r) a) w < 0 := by
  refine det_neg_of_quarter ?_
  simpa only [List.map_cons, List.map_nil, quarter_moved, neg_neg] using det_right_side h.quarter hr

/-! ### The inflated area -/

/-- The corners of the inflated area. -/
def corners (r : ℝ) (a b c d : Point ℝ) : List (Point ℝ) :=
  [moved (-r) (-r) a, moved (-r) r b, moved r r c, moved r (-r) d]

theorem inflateArea_scalar (a b c d : Point ℝ) (rest : List (Point ℝ)) (r : ℝ) :
    inflateArea (a :: b :: c :: d :: rest) r .scalar = some (corners r a b c d ++ [moved (-r) (-r) a]) := rfl

theorem clockwiseConvex_corners {a b c d : Point ℝ} (h : Upright a b c d) {r : ℝ} (hr : 0 < r) :
    ClockwiseConvex (corners r a b c d) := by
  refine clockwiseConvex_quadrangle ?_ ?_ ?_ ?_
  · exact det_left_side h hr _ List.mem_cons_self
  · exact det_top_side h hr _ List.mem_cons_self
  · exact det_right_side h hr _ List.mem_cons_self
  · exact det_bottom_side h hr _ List.mem_cons_self

theorem interior_corners {a b c d : Point ℝ} (h : Upright a b c d) {r : ℝ} (hr : 0 < r) {v : Point ℝ}
    (hv : v ∈ [a, b, c, d]) : Interior v (corners r a b c d) := by
  rw [(clockwiseConvex_corners h hr).interior_iff, corners, edges_quadrangle]
  simp only [List.mem_cons, List.not_mem_nil, or_false] at hv
  intro e he
  simp only [List.mem_cons, List.not_mem_nil, or_false] at he
  rcases he with rfl | rfl | rfl | rfl
  · exact det_left_side h hr v (by simp [hv])
  · exact det_top_side h hr v (by simp [or_comm, or_left_comm, hv])
  · exact det_right_side h hr v (by simp [or_comm, or_left_comm, hv])
  · exact det_bottom_side h hr v (by simp [or_comm, or_left_comm, hv])

/-- **The scalar inflation covers the area**, if its four vertices are listed left bottom, left top, right top, right
bottom, and its sides lean by 45 degrees at most. -/
theorem scalar_covers {a b c d : Point ℝ} {ring : List (Point ℝ)} (hclose : closeRing [a, b, c, d] = some ring)
    (h : Upright a b c d) {r : ℝ} (hr : 0 < r) :
    ∃ vs, inflateArea ring r .scalar = some vs ∧ ∀ v ∈ ring, Interior v vs := by
  obtain rfl : [a, b, c, d, a] = ring := Option.some_inj.mp hclose
  refine ⟨_, inflateArea_scalar a b c d [a] r, fun v hv => ?_⟩
  refine interior_closed.mpr (interior_corners h hr ?_)
  simp only [List.mem_cons, List.not_mem_nil, or_false] at hv ⊢
  tauto

/-- A leaning area, inflated by three metres. -/
theorem scalar_covers_leaning : ∃ vs, inflateArea [⟨0, 0⟩, ⟨1, 4⟩, ⟨5, 4⟩, ⟨4, 0⟩, ⟨0, 0⟩] 3 .scalar = some vs ∧
    ∀ v ∈ [(⟨0, 0⟩ : Point ℝ), ⟨1, 4⟩, ⟨5, 4⟩, ⟨4, 0⟩, ⟨0, 0⟩], Interior v vs := by
  refine scalar_covers (a := ⟨0, 0⟩) (b := ⟨1, 4⟩) (c := ⟨5, 4⟩) (d := ⟨4, 0⟩) rfl ?_ three_pos
  constructor <;> norm_num [abs_le]

/-- A square on its corner, listed from the right: all points of the inflated area are to the left of that corner. -/
theorem scalar_covers_fails : ∃ ring vs, closeRing (diamond : SimplePolygon ℝ).vertices = some ring ∧
    inflateArea ring (1 / 10) .scalar = some vs ∧ ⟨1, 0⟩ ∈ ring ∧ ¬ Inside ⟨1, 0⟩ vs := by
  refine ⟨_, _, rfl, rfl, List.mem_cons_self, not_inside_of_det_lt (a := ⟨0, 0⟩) (b := ⟨0, 1⟩) fun v hv => ?_⟩
  simp only [List.mem_cons, List.not_mem_nil, or_false] at hv
  rcases hv with rfl | rfl | rfl | rfl | rfl <;> norm_num [moved, det]

end

end DroneArch.Genetic.V2_3
