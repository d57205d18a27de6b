import Mathlib.Data.List.Forall2
import DroneArch.SimplePolygon

/-! # Half planes and convex polygons

A polygon in a half plane has no point outside of it inside (`not_inside_of_det_lt`).  From this:

* `inside_congr_of_sides`: the vertices of a polygon may be moved, as long as each edge stays on one
  side of the point that is asked about, in a half plane of its own.
* `ClockwiseConvex`: a strictly convex polygon in clockwise order.  It is simple, and its interior
  is the intersection of the half planes to the right of its edges (`ClockwiseConvex.interior_iff`). -/

namespace Planar

section
variable {K : Type*} [Field K]

theorem det_swap (a b w : Point K) : det b a w = -det a b w := by
  simp only [det]
  ring

@[simp] theorem det_left (a b : Point K) : det a b a = 0 := by
  simp [det]

@[simp] theorem det_right (a b : Point K) : det a b b = 0 := by
  simp only [det]
  ring

end

section
variable {K : Type*} [Field K] [LinearOrder K] [IsStrictOrderedRing K]

/-! ### Half planes -/

theorem OnSegment.lt_det {a b u v w : Point K} {c : K} (h : OnSegment w u v) (hu : c < det a b u) (hv : c < det a b v) :
    c < det a b w := by
  obtain ⟨t, h0, h1, rfl⟩ := h
  rw [det_lerp]
  rcases h0.eq_or_lt with rfl | h0
  · linarith
  · nlinarith [mul_nonneg (sub_nonneg.mpr h1) (sub_nonneg.mpr hu.le), mul_pos h0 (sub_pos.mpr hv)]

theorem OnSegment.det_le {a b u v w : Point K} {c : K} (h : OnSegment w u v) (hu : det a b u ≤ c) (hv : det a b v ≤ c) :
    det a b w ≤ c := by
  obtain ⟨t, h0, h1, rfl⟩ := h
  rw [det_lerp]
  nlinarith [mul_nonneg (sub_nonneg.mpr h1) (sub_nonneg.mpr hu), mul_nonneg h0 (sub_nonneg.mpr hv)]

theorem OnSegment.det_lt {a b u v w : Point K} {c : K} (h : OnSegment w u v) (hu : det a b u < c) (hv : det a b v < c) :
    det a b w < c := by
  have hlt := h.lt_det (a := b) (b := a) (c := -c) (by rw [det_swap]; exact neg_lt_neg hu)
    (by rw [det_swap]; exact neg_lt_neg hv)
  rw [det_swap] at hlt
  exact neg_lt_neg_iff.mp hlt

/-- Finitely many values have bounds on both sides. -/
theorem exists_bounds (l : List K) (c : K) : ∃ lo hi, lo < c ∧ c < hi ∧ ∀ y ∈ l, lo < y ∧ y < hi := by
  induction l with
  | nil => exact ⟨c - 1, c + 1, by linarith, by linarith, by simp⟩
  | cons y l ih =>
      obtain ⟨lo, hi, hlo, hhi, hl⟩ := ih
      refine ⟨min lo (y - 1), max hi (y + 1), min_lt_of_left_lt hlo, lt_max_of_lt_left hhi, fun z hz => ?_⟩
      rcases List.mem_cons.mp hz with rfl | hz
      · exact ⟨min_lt_of_right_lt (by linarith), lt_max_of_lt_right (by linarith)⟩
      · exact ⟨min_lt_of_left_lt (hl z hz).1, lt_max_of_lt_left (hl z hz).2⟩

omit [IsStrictOrderedRing K] in
/-- A point above or below all vertices is not inside. -/
theorem not_inside_of_level {p : Point K} {vs : List (Point K)}
    (h : (∀ v ∈ vs, v.y < p.y) ∨ ∀ v ∈ vs, p.y < v.y) : ¬ Inside p vs := by
  have hcount : (edges vs).countP (fun e => crosses p e.1 e.2) = 0 := by
    rw [List.countP_eq_zero]
    intro e he
    obtain ⟨h1, h2⟩ := mem_of_mem_edges he
    unfold crosses
    rcases h with h | h
    · simp [(h _ h1).le, (h _ h2).le]
    · simp [(h _ h1).not_ge, (h _ h2).not_ge]
  rw [Inside, hcount]
  exact Nat.not_odd_zero

/-- **Half planes.**  A point that all vertices are farther to the left than is not inside. -/
theorem not_inside_of_det_lt {a b p : Point K} {vs : List (Point K)} (h : ∀ v ∈ vs, det a b p < det a b v) :
    ¬ Inside p vs := by
  -- a point straight above or below, not farther to the left and beyond all vertices
  obtain ⟨lo, hi, hlo, hhi, hbounds⟩ := exists_bounds (vs.map Point.y) p.y
  have hq : ∃ y, det a b ⟨p.x, y⟩ ≤ det a b p ∧ ((∀ v ∈ vs, v.y < y) ∨ ∀ v ∈ vs, y < v.y) := by
    have hdet : ∀ y, det a b ⟨p.x, y⟩ = det a b p + (b.x - a.x) * (y - p.y) := by
      intro y
      simp only [det]
      ring
    rcases le_total (b.x - a.x) 0 with hx | hx
    · refine ⟨hi, ?_, Or.inl fun v hv => (hbounds _ (List.mem_map_of_mem hv)).2⟩
      rw [hdet]
      nlinarith
    · refine ⟨lo, ?_, Or.inr fun v hv => (hbounds _ (List.mem_map_of_mem hv)).1⟩
      rw [hdet]
      nlinarith
  obtain ⟨y, hle, hfar⟩ := hq
  intro hin
  refine not_inside_of_level (p := ⟨p.x, y⟩) hfar ((inside_congr fun e he => ?_).mp hin)
  rintro ⟨w, hw, hwe⟩
  obtain ⟨h1, h2⟩ := mem_of_mem_edges he
  exact (hwe.lt_det (h _ h1) (h _ h2)).not_ge (hw.det_le le_rfl hle)

/-- The four points are farther to the left of some line than `p`. -/
def OneSide (p u v u' v' : Point K) : Prop :=
  ∃ a b, det a b p < det a b u ∧ det a b p < det a b v ∧ det a b p < det a b u' ∧ det a b p < det a b v'

/-- **Moving a polygon.**  The polygons of the first and of the second points of some pairs agree about a point,
if each edge of one has the matching edge of the other in a half plane without the point. -/
theorem inside_congr_of_sides {p : Point K} {ws : List (Point K × Point K)}
    (h : ∀ e ∈ edges ws, OneSide p e.1.1 e.1.2 e.2.1 e.2.2) :
    Inside p (ws.map Prod.fst) ↔ Inside p (ws.map Prod.snd) := by
  unfold Inside
  rw [edges_map, edges_map, List.countP_map, List.countP_map]
  refine odd_countP_congr (fun w => crosses p w.1 w.2) (fun e he => ?_)
  obtain ⟨a, b, h1, h2, h3, h4⟩ := h e he
  -- the edges and the ways of their ends are a polygon that the point is not in
  have hquad : ¬ Inside p [e.1.1, e.2.1, e.2.2, e.1.2] := by
    refine not_inside_of_det_lt (a := a) (b := b) fun v hv => ?_
    simp only [List.mem_cons, List.not_mem_nil, or_false] at hv
    rcases hv with rfl | rfl | rfl | rfl
    · exact h1
    · exact h3
    · exact h4
    · exact h2
  rw [Inside, edges_quadrangle] at hquad
  simp only [List.countP_cons, List.countP_nil, crosses_comm p e.2.2 e.1.2, crosses_comm p e.1.2 e.1.1] at hquad
  simp only [Function.comp_apply, Prod.map_fst, Prod.map_snd]
  revert hquad
  cases crosses p e.1.1 e.2.1 <;> cases crosses p e.2.1 e.2.2 <;> cases crosses p e.1.2 e.2.2 <;>
    cases crosses p e.1.1 e.1.2 <;> decide

end

/-! ### Closed rings -/

theorem edges_closed {α : Type*} (v : α) (vs : List α) : edges (v :: (vs ++ [v])) = edges (v :: vs) ++ [(v, v)] := by
  rw [edges_cons, edges_cons, ← List.cons_append, List.zip_append (by simp)]
  rfl

section
variable {K : Type*} [Field K] [LinearOrder K] [IsStrictOrderedRing K]

/-- The first vertex may be repeated at the end. -/
theorem interior_closed {p v w : Point K} {vs : List (Point K)} :
    Interior p (v :: w :: (vs ++ [v])) ↔ Interior p (v :: w :: vs) := by
  have hedges : edges (v :: w :: (vs ++ [v])) = edges (v :: w :: vs) ++ [(v, v)] := edges_closed v (w :: vs)
  have hfirst : (v, w) ∈ edges (v :: w :: vs) := by simp [edges_cons]
  have hinside : Inside p (v :: w :: (vs ++ [v])) ↔ Inside p (v :: w :: vs) := by
    rw [Inside, Inside, hedges, List.countP_append]
    simp [crosses]
  have hboundary : OnBoundary p (v :: w :: (vs ++ [v])) ↔ OnBoundary p (v :: w :: vs) := by
    unfold OnBoundary
    rw [hedges]
    constructor
    · rintro ⟨e, he, hon⟩
      rcases List.mem_append.mp he with he | he
      · exact ⟨e, he, hon⟩
      · obtain rfl := List.mem_singleton.mp he
        obtain ⟨t, -, -, rfl⟩ := hon
        have hpoint : lerp v v t = v := by ext <;> simp
        exact ⟨_, hfirst, hpoint.symm ▸ onSegment_left v w⟩
    · rintro ⟨e, he, hon⟩
      exact ⟨e, List.mem_append_left _ he, hon⟩
  rw [Interior, Interior, hinside, hboundary]

end

/-! ### Convex polygons -/

section
variable {α : Type*}

theorem map_fst_edges (vs : List α) : (edges vs).map Prod.fst = vs := by
  rw [edges, List.map_fst_zip (by simp)]

theorem map_snd_edges (vs : List α) : (edges vs).map Prod.snd = vs.rotate 1 := by
  rw [edges, List.map_snd_zip (by simp)]

/-- Every vertex starts an edge. -/
theorem exists_edge_from {vs : List α} {v : α} (h : v ∈ vs) : ∃ e ∈ edges vs, e.1 = v := by
  rw [← map_fst_edges vs] at h
  exact List.mem_map.mp h

/-- Every vertex ends an edge. -/
theorem exists_edge_to {vs : List α} {v : α} (h : v ∈ vs) : ∃ e ∈ edges vs, e.2 = v := by
  rw [← List.mem_rotate (n := 1), ← map_snd_edges vs] at h
  exact List.mem_map.mp h

/-- Two consecutive edges have a vertex in common. -/
theorem edges_chain {vs : List α} {c : (α × α) × (α × α)} (h : c ∈ edges (edges vs)) : c.1.2 = c.2.1 := by
  have hrot : (edges vs).rotate 1 = edges (vs.rotate 1) := (edges_rotate vs 1).symm
  have hsame : (edges (edges vs)).map (fun c => (c.1.2, c.2.1)) = (vs.rotate 1).zip (vs.rotate 1) := by
    have hmap : (fun c : (α × α) × (α × α) => (c.1.2, c.2.1)) = Prod.map Prod.snd Prod.fst := rfl
    rw [hmap, edges, ← List.zip_map, map_snd_edges, hrot, map_fst_edges]
  have hmem : (c.1.2, c.2.1) ∈ (vs.rotate 1).zip (vs.rotate 1) := hsame ▸ List.mem_map_of_mem h
  exact List.forall₂_zip (List.forall₂_same.mpr fun _ _ => rfl) hmem

end

/-- A strictly convex polygon in clockwise order: every vertex is to the right of every edge that
it is no end of. -/
structure ClockwiseConvex {K : Type*} [Field K] [LinearOrder K] (vs : List (Point K)) : Prop where
  three_le : 3 ≤ vs.length
  nodup : vs.Nodup
  right : ∀ e ∈ edges vs, ∀ w ∈ vs, w ≠ e.1 → w ≠ e.2 → det e.1 e.2 w < 0

namespace ClockwiseConvex

section
variable {K : Type*} [Field K] [LinearOrder K] {vs : List (Point K)} {e f : Point K × Point K}

/-- There is a third vertex beside two. -/
theorem exists_third (h : ClockwiseConvex vs) (a b : Point K) : ∃ w ∈ vs, w ≠ a ∧ w ≠ b := by
  by_contra hno
  have hsub : vs ⊆ [a, b] := by
    intro w hw
    by_contra hne
    rw [List.mem_cons, List.mem_singleton, not_or] at hne
    exact hno ⟨w, hw, hne.1, hne.2⟩
  have hle := (List.subperm_of_subset h.nodup hsub).length_le
  have hthree := h.three_le
  rw [List.length_cons, List.length_singleton] at hle
  omega

theorem ne (h : ClockwiseConvex vs) (he : e ∈ edges vs) : e.1 ≠ e.2 := by
  intro heq
  obtain ⟨w, hw, h1, h2⟩ := h.exists_third e.1 e.2
  have hlt := h.right e he w hw h1 h2
  rw [← heq] at hlt
  simp [det] at hlt

theorem det_nonpos (h : ClockwiseConvex vs) (he : e ∈ edges vs) {w : Point K} (hw : w ∈ vs) : det e.1 e.2 w ≤ 0 := by
  by_cases h1 : w = e.1
  · rw [h1, det_left]
  · by_cases h2 : w = e.2
    · rw [h2, det_right]
    · exact (h.right e he w hw h1 h2).le

theorem eq_end (h : ClockwiseConvex vs) (he : e ∈ edges vs) {w : Point K} (hw : w ∈ vs) (hz : det e.1 e.2 w = 0) :
    w = e.1 ∨ w = e.2 := by
  by_contra hne
  rw [not_or] at hne
  exact (h.right e he w hw hne.1 hne.2).ne hz

/-- Two edges from one vertex are one edge. -/
theorem eq_of_fst_eq (h : ClockwiseConvex vs) (he : e ∈ edges vs) (hf : f ∈ edges vs) (heq : e.1 = f.1) : e = f := by
  have hnd : ((edges vs).map Prod.fst).Nodup := (map_fst_edges vs).symm ▸ h.nodup
  exact List.inj_on_of_nodup_map hnd he hf heq

/-- Two edges to one vertex are one edge. -/
theorem eq_of_snd_eq (h : ClockwiseConvex vs) (he : e ∈ edges vs) (hf : f ∈ edges vs) (heq : e.2 = f.2) : e = f := by
  have hnd : ((edges vs).map Prod.snd).Nodup := (map_snd_edges vs).symm ▸ List.nodup_rotate.mpr h.nodup
  exact List.inj_on_of_nodup_map hnd he hf heq

end

section
variable {K : Type*} [Field K] [LinearOrder K] [IsStrictOrderedRing K] {vs : List (Point K)}
  {e f : Point K × Point K}

/-- No edge is traversed backwards by another one. -/
theorem swap_ne (h : ClockwiseConvex vs) (he : e ∈ edges vs) (hf : f ∈ edges vs) (h1 : f.1 = e.2) : f.2 ≠ e.1 := by
  intro h2
  obtain ⟨w, hw, hw1, hw2⟩ := h.exists_third e.1 e.2
  have hlt := h.right e he w hw hw1 hw2
  have hlt' := h.right f hf w hw (h1 ▸ hw2) (h2 ▸ hw1)
  rw [h1, h2, det_swap] at hlt'
  exact absurd (neg_lt_zero.mp hlt') hlt.not_gt

/-- The end of the next edge is to the right. -/
theorem det_next (h : ClockwiseConvex vs) (he : e ∈ edges vs) (hf : f ∈ edges vs) (hef : e.2 = f.1) :
    det e.1 e.2 f.2 < 0 :=
  h.right e he f.2 (mem_of_mem_edges hf).2 (h.swap_ne he hf hef.symm) (hef ▸ (h.ne hf).symm)

theorem shareOnlyEnds (h : ClockwiseConvex vs) (he : e ∈ edges vs) (hf : f ∈ edges vs)
    (hne : e ≠ f) : ShareOnlyEnds e f := by
  intro w hwe ⟨t, h0, h1, hwf⟩
  obtain ⟨hf1, hf2⟩ := mem_of_mem_edges hf
  have hz := hwe.det_eq_zero
  rw [hwf, det_lerp] at hz
  have hd1 := h.det_nonpos he hf1
  have hd2 := h.det_nonpos he hf2
  rcases h0.eq_or_lt with rfl | h0
  · rw [lerp_zero] at hwf
    rw [sub_zero, one_mul, zero_mul, add_zero] at hz
    exact ⟨hwf ▸ h.eq_end he hf1 hz, Or.inl hwf⟩
  rcases h1.eq_or_lt with rfl | h1
  · rw [lerp_one] at hwf
    rw [sub_self, zero_mul, one_mul, zero_add] at hz
    exact ⟨hwf ▸ h.eq_end he hf2 hz, Or.inr hwf⟩
  · -- both ends of the one edge are ends of the other
    exfalso
    have hz1 : det e.1 e.2 f.1 = 0 := by nlinarith [mul_nonneg h0.le (neg_nonneg.mpr hd2)]
    have hz2 : det e.1 e.2 f.2 = 0 := by nlinarith [mul_nonneg (sub_nonneg.mpr h1.le) (neg_nonneg.mpr hd1)]
    rcases h.eq_end he hf1 hz1 with h1 | h1
    · exact hne (h.eq_of_fst_eq he hf h1.symm)
    · rcases h.eq_end he hf2 hz2 with h2 | h2
      · exact h.swap_ne he hf h1 h2
      · exact h.ne hf (h1.trans h2.symm)

/-- A strictly convex polygon is a simple polygon. -/
def toSimple (h : ClockwiseConvex vs) : SimplePolygon K where
  vertices := vs
  three_le := h.three_le
  nodup := h.nodup
  simple := by
    have hnd : (edges vs).Nodup := List.Nodup.of_map Prod.fst ((map_fst_edges vs).symm ▸ h.nodup)
    exact hnd.pairwise_of_forall_ne fun _ he _ hf => h.shareOnlyEnds he hf

/-- A point that is not to the left of any edge, on the line of one, is on the edge. -/
theorem onSegment_of_det_eq_zero (h : ClockwiseConvex vs) (he : e ∈ edges vs) {p : Point K}
    (hp : ∀ f ∈ edges vs, det f.1 f.2 p ≤ 0) (hz : det e.1 e.2 p = 0) : OnSegment p e.1 e.2 := by
  obtain ⟨t, rfl⟩ := eq_lerp_of_det_eq_zero (h.ne he) hz
  obtain ⟨he1, he2⟩ := mem_of_mem_edges he
  refine ⟨t, ?_, ?_, rfl⟩
  · -- before the edge, the point is to the left of the edge before
    obtain ⟨f, hf, hfe⟩ := exists_edge_to he1
    have hle := hp f hf
    have hlt := h.det_next hf he hfe
    rw [det_lerp, ← hfe, det_right, mul_zero, zero_add] at hle
    by_contra hneg
    nlinarith
  · -- behind the edge, it is to the left of the edge behind
    obtain ⟨f, hf, hfe⟩ := exists_edge_from he2
    have hle := hp f hf
    have hlt : det f.1 f.2 e.1 < 0 := h.right f hf e.1 he1 (hfe ▸ h.ne he) (h.swap_ne he hf hfe).symm
    rw [det_lerp, ← hfe, det_left, mul_zero, add_zero] at hle
    by_contra hbig
    nlinarith

/-- No point of the polygon is to the left of an edge. -/
theorem det_le_of_inside (h : ClockwiseConvex vs) (he : e ∈ edges vs) {p : Point K} (hp : Inside p vs) :
    det e.1 e.2 p ≤ 0 := by
  by_contra hpos
  refine not_inside_of_det_lt (a := e.2) (b := e.1) (fun v hv => ?_) hp
  rw [det_swap, det_swap e.1]
  exact neg_lt_neg ((h.det_nonpos he hv).trans_lt (not_le.mp hpos))

theorem det_le_of_onBoundary (h : ClockwiseConvex vs) (he : e ∈ edges vs) {p : Point K} (hp : OnBoundary p vs) :
    det e.1 e.2 p ≤ 0 := by
  obtain ⟨f, hf, hon⟩ := hp
  obtain ⟨h1, h2⟩ := mem_of_mem_edges hf
  exact hon.det_le (h.det_nonpos he h1) (h.det_nonpos he h2)

theorem det_lt_of_interior (h : ClockwiseConvex vs) {p : Point K} (hp : Interior p vs) :
    ∀ e ∈ edges vs, det e.1 e.2 p < 0 := by
  intro e he
  refine lt_of_le_of_ne (h.det_le_of_inside he hp.1) fun hz => hp.2 ⟨e, he, ?_⟩
  exact h.onSegment_of_det_eq_zero he (fun f hf => h.det_le_of_inside hf hp.1) hz

/-- There are points to the right of all edges. -/
theorem exists_interior (h : ClockwiseConvex vs) : ∃ p, Interior p vs := by
  obtain ⟨v, hv⟩ := List.exists_mem_of_length_pos (Nat.lt_of_lt_of_le (by omega) h.three_le)
  obtain ⟨m, hm, hmax⟩ := exists_max (List.ne_nil_of_mem (List.mem_map_of_mem (f := Point.y) hv))
  obtain ⟨w, hw, hwm⟩ := List.mem_map.mp hm
  obtain ⟨p, -, -, hp⟩ := h.toSimple.exists_interior_near_top (fun u hu => hmax _ (List.mem_map_of_mem hu))
    ⟨w, hw, hwm⟩ zero_lt_one
  exact ⟨p, hp⟩

/-- **The interior of a convex polygon** is what is to the right of all its edges. -/
theorem interior_iff (h : ClockwiseConvex vs) (p : Point K) : Interior p vs ↔ ∀ e ∈ edges vs, det e.1 e.2 p < 0 := by
  refine ⟨h.det_lt_of_interior, fun hp => ⟨?_, ?_⟩⟩
  · obtain ⟨q, hq⟩ := h.exists_interior
    refine (inside_congr fun e he => ?_).mpr hq.1
    rintro ⟨w, hw, hwe⟩
    exact (hw.det_lt (hp e he) (h.det_lt_of_interior hq e he)).ne hwe.det_eq_zero
  · rintro ⟨e, he, hon⟩
    exact (hp e he).ne hon.det_eq_zero

end

end ClockwiseConvex

section
variable {K : Type*} [Field K] [LinearOrder K]

/-- A quadrangle that turns right at every vertex. -/
theorem clockwiseConvex_quadrangle {a b c d : Point K} (hb : det a b c < 0) (hc : det b c d < 0) (hd : det c d a < 0)
    (ha : det d a b < 0) : ClockwiseConvex [a, b, c, d] where
  three_le := by simp
  nodup := by
    have hends : ∀ {u v w : Point K}, det u v w < 0 → u ≠ v ∧ u ≠ w ∧ v ≠ w := by
      intro u v w h
      refine ⟨?_, ?_, ?_⟩ <;> rintro rfl
      · simp [det] at h
      · simp at h
      · simp at h
    obtain ⟨hab, hac, hbc⟩ := hends hb
    obtain ⟨-, hbd, hcd⟩ := hends hc
    obtain ⟨hda, -, -⟩ := hends ha
    simp [hab, hac, hda.symm, hbc, hbd, hcd]
  right := by
    intro e he w hw h1 h2
    simp only [edges_quadrangle, List.mem_cons, List.not_mem_nil, or_false] at he hw
    have hb' := hb
    have hc' := hc
    have hd' := hd
    have ha' := ha
    rw [← det_rotate] at hb' hc' hd' ha'
    rcases he with rfl | rfl | rfl | rfl <;> rcases hw with rfl | rfl | rfl | rfl <;>
      first | assumption | exact absurd rfl h1 | exact absurd rfl h2

end

end Planar
