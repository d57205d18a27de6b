import DroneArch.AreaInflation
import DroneArch.ConvexPolygon

/-! # Inflating convex areas

`_inflate_area` (`data_definitions.py`) of a strictly convex area.  The lines of the edges are moved to
the left of the edges, which is outwards when the area is listed clockwise
(`inflateArea_offsets`) and inwards when it is listed counter-clockwise.

* `interior_inflateArea`: in clockwise order, the whole area is inside the inflated one.
* `exists_rate_inner`, `inflateArea_orders`: in counter-clockwise order, at small rates, no vertex is. -/

namespace DroneArch.Genetic

open Planar Real Lists

noncomputable section

/-! ### Moved lines -/

/-- The length of an edge, as `_normal` computes it. -/
def edgeLength (e : Point ℝ × Point ℝ) : ℝ := √((e.1.y - e.2.y) ^ 2 + (e.1.x - e.2.x) ^ 2)

/-- The distance of a point from the line of an edge, negative to the right of the edge. -/
def leftDistance (e : Point ℝ × Point ℝ) (x : Point ℝ) : ℝ := det e.1 e.2 x / edgeLength e

/-- `rate * len / (len + 1e-8)`. -/
def shift (rate : ℝ) (e : Point ℝ × Point ℝ) : ℝ := rate * edgeLength e / (edgeLength e + 1 / 10 ^ 8)

theorem edgeLength_pos {e : Point ℝ × Point ℝ} (h : e.1 ≠ e.2) : 0 < edgeLength e := by
  have hsq : (e.1.y - e.2.y) ^ 2 + (e.1.x - e.2.x) ^ 2 ≠ 0 := by
    intro hz
    have hy : e.1.y - e.2.y = 0 := by nlinarith [sq_nonneg (e.1.y - e.2.y), sq_nonneg (e.1.x - e.2.x)]
    have hx : e.1.x - e.2.x = 0 := by nlinarith [sq_nonneg (e.1.y - e.2.y), sq_nonneg (e.1.x - e.2.x)]
    exact h (Point.ext (sub_eq_zero.mp hx) (sub_eq_zero.mp hy))
  exact sqrt_pos.mpr (lt_of_le_of_ne (by positivity) hsq.symm)

theorem edgeLength_sq (e : Point ℝ × Point ℝ) : edgeLength e ^ 2 = (e.1.y - e.2.y) ^ 2 + (e.1.x - e.2.x) ^ 2 :=
  sq_sqrt (by positivity)

theorem shift_pos {rate : ℝ} (hrate : 0 < rate) {e : Point ℝ × Point ℝ} (h : e.1 ≠ e.2) : 0 < shift rate e := by
  have hlen := edgeLength_pos h
  unfold shift
  positivity

/-- The points of the line of the edge are at least as far as `leftDistance` says, and the nearest one is. -/
theorem leftDistance_isLeast {e : Point ℝ × Point ℝ} (h : e.1 ≠ e.2) (x : Point ℝ) :
    IsLeast (Set.range fun t => √((x.x - (lerp e.1 e.2 t).x) ^ 2 + (x.y - (lerp e.1 e.2 t).y) ^ 2)) |leftDistance e x| := by
  have hlen := edgeLength_pos h
  have hsq := edgeLength_sq e
  -- the square of the distance splits along the edge and across it
  have hsplit : ∀ t, (x.x - (lerp e.1 e.2 t).x) ^ 2 + (x.y - (lerp e.1 e.2 t).y) ^ 2 =
      leftDistance e x ^ 2 + (((x.x - e.1.x) * (e.2.x - e.1.x) + (x.y - e.1.y) * (e.2.y - e.1.y)) / edgeLength e -
        t * edgeLength e) ^ 2 := by
    intro t
    generalize hp : (x.x - e.1.x) * (e.2.x - e.1.x) + (x.y - e.1.y) * (e.2.y - e.1.y) = p
    have hacross : edgeLength e ^ 2 * leftDistance e x ^ 2 = det e.1 e.2 x ^ 2 := by
      rw [leftDistance]
      field_simp
    have halong : edgeLength e ^ 2 * (p / edgeLength e - t * edgeLength e) ^ 2 = (p - t * edgeLength e ^ 2) ^ 2 := by
      field_simp
    apply mul_left_cancel₀ (pow_ne_zero 2 hlen.ne')
    rw [mul_add _ (leftDistance e x ^ 2), hacross, halong, hsq, ← hp, lerp_x, lerp_y]
    simp only [det]
    ring
  refine ⟨⟨((x.x - e.1.x) * (e.2.x - e.1.x) + (x.y - e.1.y) * (e.2.y - e.1.y)) / edgeLength e / edgeLength e, ?_⟩, ?_⟩
  · dsimp only
    rw [hsplit, div_mul_cancel₀ _ hlen.ne', sub_self, zero_pow two_ne_zero, add_zero, sqrt_sq_eq_abs]
  · rintro d ⟨t, rfl⟩
    refine abs_le_sqrt ?_
    rw [hsplit]
    exact le_add_of_nonneg_right (sq_nonneg _)

/-- The value of the moved line's equation. -/
theorem inflatedLine_value (rate : ℝ) {e : Point ℝ × Point ℝ} (x : Point ℝ) :
    (inflatedLine rate e).1 * x.x + (inflatedLine rate e).2.1 * x.y + (inflatedLine rate e).2.2 =
      det e.1 e.2 x - shift rate e * edgeLength e := by
  have hlen : edgeLength e = √((e.1.y - e.2.y) ^ 2 + (e.1.x - e.2.x) ^ 2) := rfl
  have hpos : 0 < edgeLength e + 1 / 10 ^ 8 := by
    have hnonneg : 0 ≤ edgeLength e := sqrt_nonneg _
    positivity
  have hshift : shift rate e * edgeLength e =
      rate * ((e.1.y - e.2.y) ^ 2 + (e.1.x - e.2.x) ^ 2) / (edgeLength e + 1 / 10 ^ 8) := by
    rw [shift, ← edgeLength_sq]
    ring
  unfold inflatedLine eqLine normal
  dsimp only
  rw [← hlen, hshift]
  simp only [det]
  field_simp
  ring

/-- **A moved line** is parallel to its edge, at the distance `shift` to its left. -/
theorem onLine_inflatedLine_iff (rate : ℝ) {e : Point ℝ × Point ℝ} (h : e.1 ≠ e.2) (x : Point ℝ) :
    OnLine x (inflatedLine rate e) ↔ leftDistance e x = shift rate e := by
  rw [OnLine, inflatedLine_value, sub_eq_zero, leftDistance, div_eq_iff (edgeLength_pos h).ne']

theorem det_of_onLine {rate : ℝ} {e : Point ℝ × Point ℝ} {x : Point ℝ} (h : OnLine x (inflatedLine rate e)) :
    det e.1 e.2 x = shift rate e * edgeLength e := by
  rwa [OnLine, inflatedLine_value, sub_eq_zero] at h

theorem leftDistance_neg_iff {e : Point ℝ × Point ℝ} (h : e.1 ≠ e.2) {x : Point ℝ} :
    leftDistance e x ≤ 0 ↔ det e.1 e.2 x ≤ 0 := by
  rw [leftDistance, div_le_iff₀ (edgeLength_pos h), zero_mul]

/-! ### The corners -/

theorem consecutive_eq_edges (area : List (Point ℝ)) : consecutive area = edges (edges area) := by
  rw [consecutive, pairwiseCircle_eq_edges, pairwiseCircle_eq_edges]

theorem length_edges {α : Type*} (vs : List α) : (edges vs).length = vs.length := by
  simp [edges]

theorem getElem?_edges {α : Type*} {vs : List α} {i : ℕ} {e : α × α} (h : (edges vs)[i]? = some e) :
    vs[i]? = some e.1 ∧ vs[(i + 1) % vs.length]? = some e.2 := by
  obtain ⟨h1, h2⟩ := List.getElem?_zip_eq_some.mp h
  obtain ⟨hi, -⟩ := List.getElem?_eq_some_iff.mp h1
  rw [List.getElem?_rotate hi] at h2
  exact ⟨h1, h2⟩

/-- The two edges of a corner. -/
theorem mem_consecutive {area : List (Point ℝ)} {c : (Point ℝ × Point ℝ) × (Point ℝ × Point ℝ)}
    (h : c ∈ consecutive area) : c.1 ∈ edges area ∧ c.2 ∈ edges area ∧ c.1.2 = c.2.1 := by
  rw [consecutive_eq_edges] at h
  obtain ⟨h1, h2⟩ := mem_of_mem_edges h
  exact ⟨h1, h2, edges_chain h⟩

theorem cross_eq_det {e f : Point ℝ × Point ℝ} (h : e.2 = f.1) : cross e f = det e.1 e.2 f.2 := by
  simp only [cross, det, ← h]
  ring

/-- Consecutive edges of a convex area turn to the right. -/
theorem cross_neg {area : List (Point ℝ)} (h : ClockwiseConvex area) {c : (Point ℝ × Point ℝ) × (Point ℝ × Point ℝ)}
    (hc : c ∈ consecutive area) : cross c.1 c.2 < 0 := by
  obtain ⟨h1, h2, hchain⟩ := mem_consecutive hc
  rw [cross_eq_det hchain]
  exact h.det_next h1 h2 hchain

/-- The corners of an inflated area, one by one. -/
theorem forall₂_inflateArea {area vs : List (Point ℝ)} {rate : ℝ} (h : inflateArea area rate = some vs) :
    List.Forall₂ (fun c v => OnLine v (inflatedLine rate c.1) ∧ OnLine v (inflatedLine rate c.2))
      (consecutive area) vs := by
  rw [inflateArea_eq] at h
  have hall := forall₂_of_mapM h
  rw [List.forall₂_map_left_iff] at hall
  refine hall.imp fun c v hv => ?_
  exact ((inflatedVertex_eq_some_iff rate c.1 c.2 v).mp hv).2

theorem length_inflateArea {area vs : List (Point ℝ)} {rate : ℝ} (h : inflateArea area rate = some vs) :
    vs.length = area.length := by
  rw [← (forall₂_inflateArea h).length_eq, consecutive_eq_edges, length_edges, length_edges]

/-- **Offsetting the edges.**  A strictly convex area in clockwise order is inflated; the corners are
on the moved lines of consecutive edges, these lines are at the distance `shift` to the left of
their edges, and the area is to the right of them. -/
theorem inflateArea_offsets {area : List (Point ℝ)} (h : ClockwiseConvex area) {rate : ℝ} (hrate : 0 < rate) :
    ∃ vs, inflateArea area rate = some vs ∧ vs.length = area.length ∧
      (∀ i v, vs[i]? = some v → ∃ e f, (edges area)[i]? = some e ∧ (edges area)[(i + 1) % area.length]? = some f ∧
        OnLine v (inflatedLine rate e) ∧ OnLine v (inflatedLine rate f)) ∧
      ∀ e ∈ edges area, 0 < shift rate e ∧
        (∀ x, OnLine x (inflatedLine rate e) ↔ leftDistance e x = shift rate e) ∧
        ∀ x, Interior x area ∨ OnBoundary x area → leftDistance e x < shift rate e := by
  obtain ⟨vs, hvs⟩ := (exists_inflateArea_iff area rate).mpr fun c hc => (cross_neg h hc).ne
  refine ⟨vs, hvs, length_inflateArea hvs, fun i v hv => ?_, fun e he => ⟨?_, ?_, fun x hx => ?_⟩⟩
  · obtain ⟨hlen, hall⟩ := List.forall₂_iff_get.mp (forall₂_inflateArea hvs)
    obtain ⟨hi, rfl⟩ := List.getElem?_eq_some_iff.mp hv
    have hi' : i < (consecutive area).length := hlen ▸ hi
    have hc : (edges (edges area))[i]? = some ((consecutive area).get ⟨i, hi'⟩) := by
      rw [← consecutive_eq_edges, List.getElem?_eq_getElem hi']
      rfl
    obtain ⟨h1, h2⟩ := getElem?_edges hc
    rw [length_edges] at h2
    exact ⟨_, _, h1, h2, hall i hi' hi⟩
  · exact shift_pos hrate (h.ne he)
  · exact onLine_inflatedLine_iff rate (h.ne he)
  · have hle : det e.1 e.2 x ≤ 0 := hx.elim (fun hi => h.det_le_of_inside he hi.1) (h.det_le_of_onBoundary he)
    exact ((leftDistance_neg_iff (h.ne he)).mpr hle).trans_lt (shift_pos hrate (h.ne he))

/-- A square with its corners on the axes, clockwise. -/
def cornerSquare : List (Point ℝ) := [⟨1, 0⟩, ⟨0, -1⟩, ⟨-1, 0⟩, ⟨0, 1⟩]

theorem clockwiseConvex_cornerSquare : ClockwiseConvex cornerSquare := by
  refine clockwiseConvex_quadrangle ?_ ?_ ?_ ?_ <;> norm_num [det]

theorem inflateArea_offsets_cornerSquare : ∃ vs, inflateArea cornerSquare 2 = some vs ∧ vs.length = 4 := by
  obtain ⟨vs, hvs, hlen, -⟩ := inflateArea_offsets clockwiseConvex_cornerSquare (two_pos : (0 : ℝ) < 2)
  exact ⟨vs, hvs, hlen⟩

/-! ### Clockwise: the area is covered -/

/-- The points of an area and the corners after its edges: pairs on the two sides of a way out. -/
theorem edges_zip_inflateArea {area vs : List (Point ℝ)} {rate : ℝ} (h : inflateArea area rate = some vs)
    {w : (Point ℝ × Point ℝ) × (Point ℝ × Point ℝ)} (hw : w ∈ edges ((area.rotate 1).zip vs)) :
    ∃ e ∈ edges area, w.1.1 = e.1 ∧ w.2.1 = e.2 ∧ OnLine w.1.2 (inflatedLine rate e) ∧
      OnLine w.2.2 (inflatedLine rate e) := by
  have hall := forall₂_inflateArea h
  have hlen := hall.length_eq
  have hmid : (consecutive area).map (fun c => c.1.2) = area.rotate 1 := by
    have hcomp : (fun c : (Point ℝ × Point ℝ) × (Point ℝ × Point ℝ) => c.1.2) = Prod.snd ∘ Prod.fst := rfl
    rw [hcomp, ← List.map_map, consecutive_eq_edges, map_fst_edges, map_snd_edges]
  -- the pairs as images of the corners with their edges
  have hzip : (area.rotate 1).zip vs = ((consecutive area).zip vs).map (Prod.map (fun c => c.1.2) id) := by
    rw [← hmid, ← List.zip_map, List.map_id]
  rw [hzip, edges_map] at hw
  obtain ⟨⟨x, y⟩, hxy, rfl⟩ := List.mem_map.mp hw
  obtain ⟨hx, hy⟩ := mem_of_mem_edges hxy
  have hcorners : (x.1, y.1) ∈ edges (edges (edges area)) := by
    rw [← consecutive_eq_edges, ← List.map_fst_zip hlen.le, edges_map]
    exact List.mem_map_of_mem hxy
  have hchain : x.1.2 = y.1.1 := edges_chain hcorners
  obtain ⟨-, hx2, hxc⟩ := mem_consecutive (List.of_mem_zip hx).1
  refine ⟨x.1.2, hx2, hxc, congrArg Prod.snd hchain.symm, (List.forall₂_zip hall hx).2, ?_⟩
  rw [hchain]
  exact (List.forall₂_zip hall hy).1

/-- An edge of the inflated area lies on a moved line. -/
theorem det_edges_inflateArea {area vs : List (Point ℝ)} {rate : ℝ} (h : inflateArea area rate = some vs)
    {w : Point ℝ × Point ℝ} (hw : w ∈ edges vs) :
    ∃ e ∈ edges area, det e.1 e.2 w.1 = shift rate e * edgeLength e ∧ det e.1 e.2 w.2 = shift rate e * edgeLength e := by
  have hsnd : ((area.rotate 1).zip vs).map Prod.snd = vs := by
    rw [List.map_snd_zip (by rw [List.length_rotate, length_inflateArea h])]
  rw [← hsnd, edges_map] at hw
  obtain ⟨x, hx, rfl⟩ := List.mem_map.mp hw
  obtain ⟨e, he, -, -, h1, h2⟩ := edges_zip_inflateArea h hx
  exact ⟨e, he, det_of_onLine h1, det_of_onLine h2⟩

/-- Both ends of an edge of the inflated area are to the left of an edge of the area. -/
theorem exists_edge_beyond {area vs : List (Point ℝ)} (h : ClockwiseConvex area) {rate : ℝ} (hrate : 0 < rate)
    (hvs : inflateArea area rate = some vs) {w : Point ℝ × Point ℝ} (hw : w ∈ edges vs) :
    ∃ e ∈ edges area, 0 < det e.1 e.2 w.1 ∧ 0 < det e.1 e.2 w.2 := by
  obtain ⟨e, he, h1, h2⟩ := det_edges_inflateArea hvs hw
  have hout := mul_pos (shift_pos hrate (h.ne he)) (edgeLength_pos (h.ne he))
  rw [← h1] at hout
  exact ⟨e, he, hout, h2 ▸ h1 ▸ hout⟩

/-- On the way from the edges of the area to those of the inflated one, a point of the interior is not passed. -/
theorem inside_inflateArea {area vs : List (Point ℝ)} (h : ClockwiseConvex area) {rate : ℝ} (hrate : 0 < rate)
    (hvs : inflateArea area rate = some vs) {p : Point ℝ} (hp : Interior p area) : Inside p vs := by
  have hmoved : Inside p (((area.rotate 1).zip vs).map Prod.fst) ↔ Inside p (((area.rotate 1).zip vs).map Prod.snd) := by
    refine inside_congr_of_sides fun w hw => ?_
    obtain ⟨e, he, h1, h2, h3, h4⟩ := edges_zip_inflateArea hvs hw
    have hpe := h.det_lt_of_interior hp e he
    have hout := mul_pos (shift_pos hrate (h.ne he)) (edgeLength_pos (h.ne he))
    refine ⟨e.1, e.2, ?_, ?_, ?_, ?_⟩
    · rwa [h1, det_left]
    · rw [det_of_onLine h3]
      exact hpe.trans hout
    · rwa [h2, det_right]
    · rw [det_of_onLine h4]
      exact hpe.trans hout
  have hlen : (area.rotate 1).length = vs.length := by rw [List.length_rotate, length_inflateArea hvs]
  rw [List.map_fst_zip hlen.le, List.map_snd_zip hlen.ge,
    SameRing.inside_iff (Or.inl (List.IsRotated.forall area 1))] at hmoved
  exact hmoved.mp hp.1

/-- **Clockwise inflation covers the area.** -/
theorem interior_inflateArea {area vs : List (Point ℝ)} (h : ClockwiseConvex area) {rate : ℝ} (hrate : 0 < rate)
    (hvs : inflateArea area rate = some vs) {x : Point ℝ} (hx : Interior x area ∨ OnBoundary x area) :
    Interior x vs := by
  have hright : ∀ e ∈ edges area, det e.1 e.2 x ≤ 0 := fun e he =>
    hx.elim (fun hi => h.det_le_of_inside he hi.1) (h.det_le_of_onBoundary he)
  obtain ⟨p, hp⟩ := h.exists_interior
  constructor
  · -- the way from a point of the interior crosses no edge
    refine (inside_congr fun w hw => ?_).mp (inside_inflateArea h hrate hvs hp)
    rintro ⟨z, hz, hzw⟩
    obtain ⟨e, he, h1, h2⟩ := exists_edge_beyond h hrate hvs hw
    exact (hz.det_le (h.det_lt_of_interior hp e he).le (hright e he)).not_gt (hzw.lt_det h1 h2)
  · rintro ⟨w, hw, hon⟩
    obtain ⟨e, he, h1, h2⟩ := exists_edge_beyond h hrate hvs hw
    exact (hright e he).not_gt (hon.lt_det h1 h2)

/-! ### Counter-clockwise: the corners go inwards -/

theorem mem_edges_reverse {α : Type*} {vs : List α} {e : α × α} : e ∈ edges vs.reverse ↔ e.swap ∈ edges vs := by
  rw [(edges_reverse_perm vs).mem_iff, List.mem_map]
  constructor
  · rintro ⟨f, hf, rfl⟩
    rwa [Prod.swap_swap]
  · exact fun h => ⟨e.swap, h, Prod.swap_swap e⟩

/-- Read backwards, an edge is moved to its other side. -/
theorem det_swap_of_onLine {rate : ℝ} {e : Point ℝ × Point ℝ} {x : Point ℝ} (h : OnLine x (inflatedLine rate e)) :
    det e.swap.1 e.swap.2 x = -(rate * (shift 1 e.swap * edgeLength e.swap)) := by
  have hlen : edgeLength e.swap = edgeLength e := by
    unfold edgeLength
    congr 1
    rw [Prod.fst_swap, Prod.snd_swap]
    ring
  have hdet := det_of_onLine h
  rw [Prod.fst_swap, Prod.snd_swap, det_swap, hdet, shift, shift, hlen]
  ring

/-- Where the moved lines of two edges meet is linear in the rate. -/
theorem eq_lerp_corner {c : (Point ℝ × Point ℝ) × (Point ℝ × Point ℝ)} {rate : ℝ} {u v w : Point ℝ}
    (hcross : cross c.1 c.2 ≠ 0) (hu : det c.1.1 c.1.2 u = 0 ∧ det c.2.1 c.2.2 u = 0)
    (hv : OnLine v (inflatedLine 1 c.1) ∧ OnLine v (inflatedLine 1 c.2))
    (hw : OnLine w (inflatedLine rate c.1) ∧ OnLine w (inflatedLine rate c.2)) : w = lerp u v rate := by
  have hline : ∀ e : Point ℝ × Point ℝ, det e.1 e.2 u = 0 → OnLine v (inflatedLine 1 e) →
      OnLine (lerp u v rate) (inflatedLine rate e) := by
    intro e hu hv
    have hdet := det_of_onLine hv
    rw [OnLine, inflatedLine_value, det_lerp, hu, hdet, shift, shift]
    ring
  have h1 := (inflatedVertex_eq_some_iff rate c.1 c.2 w).mpr ⟨hcross, hw⟩
  have h2 := (inflatedVertex_eq_some_iff rate c.1 c.2 (lerp u v rate)).mpr
    ⟨hcross, hline _ hu.1 hv.1, hline _ hu.2 hv.2⟩
  exact Option.some.inj (h1.symm.trans h2)

/-- What holds at small rates for each element holds at small rates for all of a list. -/
theorem exists_rate_forall {α : Type*} {Q : α → ℝ → Prop} {l : List α}
    (h : ∀ a ∈ l, ∃ r₀ > 0, ∀ r, 0 < r → r ≤ r₀ → Q a r) : ∃ r₀ > 0, ∀ r, 0 < r → r ≤ r₀ → ∀ a ∈ l, Q a r := by
  induction l with
  | nil => exact ⟨1, one_pos, by simp⟩
  | cons a l ih =>
      obtain ⟨r₁, h1, hr₁⟩ := h a List.mem_cons_self
      obtain ⟨r₂, h2, hr₂⟩ := ih fun a' ha' => h a' (List.mem_cons_of_mem _ ha')
      refine ⟨min r₁ r₂, lt_min h1 h2, fun r h0 hr => ?_⟩
      rw [List.forall_mem_cons]
      exact ⟨hr₁ r h0 (hr.trans (min_le_left _ _)), hr₂ r h0 (hr.trans (min_le_right _ _))⟩

/-- A linear function that starts at a negative value, or at zero and goes down, is negative at first. -/
theorem exists_rate_neg {a b : ℝ} (ha : a ≤ 0) (h : a < 0 ∨ b < 0) :
    ∃ r₀ > 0, ∀ r, 0 < r → r ≤ r₀ → (1 - r) * a + r * b < 0 := by
  by_cases hb : b < 0
  · refine ⟨1, one_pos, fun r h0 h1 => ?_⟩
    nlinarith [mul_nonneg (sub_nonneg.mpr h1) (neg_nonneg.mpr ha)]
  · have ha' := h.resolve_right hb
    rw [not_lt] at hb
    have hpos : 0 < 2 * (b - a) := by linarith
    refine ⟨-a / (2 * (b - a)), div_pos (neg_pos.mpr ha') hpos, fun r h0 hr => ?_⟩
    rw [le_div_iff₀ hpos] at hr
    linarith

theorem cross_swap (e f : Point ℝ × Point ℝ) : cross e f = -cross f.swap e.swap := by
  simp only [cross, Prod.fst_swap, Prod.snd_swap]
  ring

/-- A corner of the area listed backwards, with the two edges of the area. -/
theorem mem_consecutive_reverse {area : List (Point ℝ)} (h : ClockwiseConvex area)
    {c : (Point ℝ × Point ℝ) × (Point ℝ × Point ℝ)} (hc : c ∈ consecutive area.reverse) :
    c.1.swap ∈ edges area ∧ c.2.swap ∈ edges area ∧ c.1.2 = c.2.1 ∧ cross c.1 c.2 ≠ 0 := by
  obtain ⟨h1, h2, hchain⟩ := mem_consecutive hc
  rw [mem_edges_reverse] at h1 h2
  refine ⟨h1, h2, hchain, ?_⟩
  have hnext := h.det_next (e := c.2.swap) (f := c.1.swap) h2 h1 hchain.symm
  rw [cross_swap, cross_eq_det (by exact hchain.symm)]
  exact neg_ne_zero.mpr hnext.ne

theorem exists_inflateArea_reverse {area : List (Point ℝ)} (h : ClockwiseConvex area) (rate : ℝ) :
    ∃ vs, inflateArea area.reverse rate = some vs :=
  (exists_inflateArea_iff area.reverse rate).mpr fun _ hc => (mem_consecutive_reverse h hc).2.2.2

/-- **Counter-clockwise inflation shrinks the area.**  At small rates all corners are to the right of
all edges. -/
theorem exists_rate_inner {area : List (Point ℝ)} (h : ClockwiseConvex area) : ∃ r₀ > 0, ∀ rate, 0 < rate → rate ≤ r₀ →
    ∀ vs, inflateArea area.reverse rate = some vs → ∀ v ∈ vs, ∀ e ∈ edges area, det e.1 e.2 v < 0 := by
  have hcorner : ∀ c ∈ consecutive area.reverse, ∃ r₀ > 0, ∀ rate, 0 < rate → rate ≤ r₀ → ∀ e ∈ edges area,
      ∀ w, OnLine w (inflatedLine rate c.1) ∧ OnLine w (inflatedLine rate c.2) → det e.1 e.2 w < 0 := by
    intro c hc
    obtain ⟨h1, h2, hchain, hcross⟩ := mem_consecutive_reverse h hc
    obtain ⟨v, hv⟩ := (exists_inflatedVertex_iff 1 c.1 c.2).mpr hcross
    obtain ⟨-, hv1, hv2⟩ := (inflatedVertex_eq_some_iff 1 c.1 c.2 v).mp hv
    have hu : c.1.2 ∈ area := (mem_of_mem_edges h1).1
    refine exists_rate_forall fun e he => ?_
    have hinner : ∀ d : Point ℝ × Point ℝ, d.swap ∈ edges area → OnLine v (inflatedLine 1 d) →
        det d.swap.1 d.swap.2 v < 0 := by
      intro d hd hvd
      rw [det_swap_of_onLine hvd, one_mul, neg_lt_zero]
      exact mul_pos (shift_pos one_pos (h.ne hd)) (edgeLength_pos (h.ne hd))
    -- the two edges of the corner are passed at once, and the vertex is to the right of the others
    have hstart : det e.1 e.2 c.1.2 < 0 ∨ det e.1 e.2 v < 0 := by
      by_cases he1 : c.1.2 = e.1
      · rw [h.eq_of_fst_eq he h1 he1.symm]
        exact Or.inr (hinner c.1 h1 hv1)
      · by_cases he2 : c.1.2 = e.2
        · rw [h.eq_of_snd_eq he h2 (he2.symm.trans hchain)]
          exact Or.inr (hinner c.2 h2 hv2)
        · exact Or.inl (h.right e he _ hu he1 he2)
    obtain ⟨r₀, hpos, hr₀⟩ := exists_rate_neg (h.det_nonpos he hu) hstart
    refine ⟨r₀, hpos, fun rate h0 hle w hw => ?_⟩
    have hzero : det c.2.1 c.2.2 c.1.2 = 0 := by rw [hchain, det_left]
    rw [eq_lerp_corner hcross ⟨det_right _ _, hzero⟩ ⟨hv1, hv2⟩ hw, det_lerp]
    exact hr₀ rate h0 hle
  obtain ⟨r₀, hpos, hr₀⟩ := exists_rate_forall hcorner
  refine ⟨r₀, hpos, fun rate h0 hle vs hvs v hv e he => ?_⟩
  obtain ⟨c, hc, -, -, -, h1, h2⟩ := mem_inflateArea hvs v hv
  exact hr₀ rate h0 hle c hc e he v ⟨h1, h2⟩

/-- The two orders of an area give the same vertices, and all vertices of the area are inside of both polygons, at
every rate. -/
def OrderIndependent (area : List (Point ℝ)) : Prop :=
  ∀ rate, 0 < rate → ∃ vs us, inflateArea area rate = some vs ∧ inflateArea area.reverse rate = some us ∧
    (∀ v, v ∈ vs ↔ v ∈ us) ∧ ∀ v ∈ area, Interior v vs ∧ Interior v us

/-- **The order of the vertices decides.**  In clockwise order every vertex of a convex area is inside the
inflated one at every rate.  In counter-clockwise order there are corners too, but at small rates no
vertex is inside, and the orders have no corner in common. -/
theorem inflateArea_orders {area : List (Point ℝ)} (h : ClockwiseConvex area) :
    (∀ rate, 0 < rate → ∃ vs us, inflateArea area rate = some vs ∧ inflateArea area.reverse rate = some us ∧
      ∀ v ∈ area, Interior v vs) ∧
    (∃ r₀ > 0, ∀ rate, 0 < rate → rate ≤ r₀ → ∀ vs us, inflateArea area rate = some vs →
      inflateArea area.reverse rate = some us → (∀ v ∈ vs, v ∉ us) ∧ ∀ v ∈ area, ¬ Interior v us) ∧
    ¬ OrderIndependent area := by
  have hcover : ∀ rate, 0 < rate → ∃ vs us, inflateArea area rate = some vs ∧ inflateArea area.reverse rate = some us ∧
      ∀ v ∈ area, Interior v vs := by
    intro rate hrate
    obtain ⟨vs, hvs⟩ := (exists_inflateArea_iff area rate).mpr fun c hc => (cross_neg h hc).ne
    obtain ⟨us, hus⟩ := exists_inflateArea_reverse h rate
    refine ⟨vs, us, hvs, hus, fun v hv => interior_inflateArea h hrate hvs (Or.inr ?_)⟩
    obtain ⟨e, he, hev⟩ := exists_edge_from hv
    exact ⟨e, he, hev ▸ onSegment_left e.1 e.2⟩
  have hshrink : ∃ r₀ > 0, ∀ rate, 0 < rate → rate ≤ r₀ → ∀ vs us, inflateArea area rate = some vs →
      inflateArea area.reverse rate = some us → (∀ v ∈ vs, v ∉ us) ∧ ∀ v ∈ area, ¬ Interior v us := by
    obtain ⟨r₀, hpos, hr₀⟩ := exists_rate_inner h
    refine ⟨r₀, hpos, fun rate h0 hle vs us hvs hus => ⟨fun v hv hvu => ?_, fun v hv hin => ?_⟩⟩
    · obtain ⟨w, hw, hwv⟩ := exists_edge_from hv
      obtain ⟨e, he, h1, -⟩ := exists_edge_beyond h h0 hvs hw
      rw [hwv] at h1
      exact h1.not_gt (hr₀ rate h0 hle us hus v hvu e he)
    · obtain ⟨e, he, hev⟩ := exists_edge_from hv
      refine not_inside_of_det_lt (a := e.2) (b := e.1) (fun u hu => ?_) hin.1
      rw [← hev, det_right, det_swap, neg_pos]
      exact hr₀ rate h0 hle us hus u hu e he
  refine ⟨hcover, hshrink, fun hsame => ?_⟩
  obtain ⟨r₀, hpos, hr₀⟩ := hshrink
  obtain ⟨vs, us, hvs, hus, -, hin⟩ := hsame r₀ hpos
  obtain ⟨v, hv⟩ := List.exists_mem_of_length_pos (Nat.lt_of_lt_of_le (by omega) h.three_le)
  exact (hr₀ r₀ hpos le_rfl vs us hvs hus).2 v hv (hin v hv).2

theorem inflateArea_orders_cornerSquare : ¬ OrderIndependent cornerSquare :=
  (inflateArea_orders clockwiseConvex_cornerSquare).2.2

/-- A square with sides of 4 metres, clockwise from its left bottom corner. -/
def sideSquare : List (Point ℝ) := [⟨0, 0⟩, ⟨0, 4⟩, ⟨4, 4⟩, ⟨4, 0⟩]

theorem edgeLength_of_sq {e : Point ℝ × Point ℝ} (h : (e.1.y - e.2.y) ^ 2 + (e.1.x - e.2.x) ^ 2 = 16) :
    edgeLength e = 4 := by
  rw [edgeLength, h, sqrt_eq_iff_mul_self_eq (by norm_num) (by norm_num)]
  norm_num

/-- Listed counter-clockwise, the square is inflated by one metre to a square without its corner. -/
theorem inflateArea_orders_fails : ∃ us, inflateArea sideSquare.reverse 1 = some us ∧ ¬ Interior ⟨0, 0⟩ us := by
  have hcorners : consecutive sideSquare.reverse =
      [((⟨4, 0⟩, ⟨4, 4⟩), (⟨4, 4⟩, ⟨0, 4⟩)), ((⟨4, 4⟩, ⟨0, 4⟩), (⟨0, 4⟩, ⟨0, 0⟩)),
        ((⟨0, 4⟩, ⟨0, 0⟩), (⟨0, 0⟩, ⟨4, 0⟩)), ((⟨0, 0⟩, ⟨4, 0⟩), (⟨4, 0⟩, ⟨4, 4⟩))] := rfl
  obtain ⟨us, hus⟩ : ∃ us, inflateArea sideSquare.reverse 1 = some us := by
    rw [exists_inflateArea_iff, hcorners]
    norm_num [cross]
  refine ⟨us, hus, fun hin => not_inside_of_det_lt (a := ⟨0, 4⟩) (b := ⟨0, 0⟩) (fun u hu => ?_) hin.1⟩
  obtain ⟨c, hc, -, -, -, h1, h2⟩ := mem_inflateArea hus u hu
  -- each corner is on the moved left or right side
  have hleft : OnLine u (inflatedLine 1 (⟨0, 4⟩, ⟨0, 0⟩)) → 0 < u.x := by
    intro h
    have hdet := det_of_onLine h
    rw [shift, edgeLength_of_sq (by norm_num)] at hdet
    norm_num [det] at hdet
    linarith
  have hright : OnLine u (inflatedLine 1 (⟨4, 0⟩, ⟨4, 4⟩)) → 0 < u.x := by
    intro h
    have hdet := det_of_onLine h
    rw [shift, edgeLength_of_sq (by norm_num)] at hdet
    norm_num [det] at hdet
    linarith
  have hx : 0 < u.x := by
    rw [hcorners] at hc
    simp only [List.mem_cons, List.not_mem_nil, or_false] at hc
    rcases hc with rfl | rfl | rfl | rfl
    · exact hright h1
    · exact hleft h2
    · exact hleft h1
    · exact hright h2
  norm_num [det]
  exact hx

end

end DroneArch.Genetic
