import Mathlib.Algebra.BigOperators.Group.List.Basic
import Mathlib.Algebra.CharP.Two
import Mathlib.Algebra.Field.ZMod
import Mathlib.Data.List.Rotate
import DroneArch.Planar

/-! # The even-odd rule

A point is inside a closed polygon when the horizontal ray to its right crosses an odd number of
edges; an edge has its lower end and not its upper one.  `Interior` is the inside without the
boundary.

The rule does not depend on the way to a point: `inside_congr` states that both ends of a
segment that meets no edge are inside or both are outside.  Its proof compares, edge by edge,
the crossings of the two rays with the two ends of the edge (`crosses_xor`): an edge that
misses the segment from `p` to `q` crosses the boundary of the strip to the right of the
segment as often as one of its ends is in the strip. -/

namespace Planar

/-- The edges of the closed polygon with vertices `vs`. -/
def edges {α : Type*} (vs : List α) : List (α × α) := vs.zip (vs.rotate 1)

/-! ### Sums over the edges -/

section
variable {α : Type*}

theorem countP_eq_sum {β : Type*} (f : β → Bool) (l : List β) :
    ((l.countP f : ℕ) : ZMod 2) = (l.map (fun e => if f e then (1 : ZMod 2) else 0)).sum := by
  induction l with
  | nil => rfl
  | cons e l ih =>
      rw [List.countP_cons, List.map_cons, List.sum_cons, Nat.cast_add, ih, add_comm]
      congr 1
      split <;> simp

/-- What the edges take from their two ends cancels around the polygon. -/
theorem sum_ends (φ : α → ZMod 2) (vs : List α) :
    ((edges vs).map (fun e => φ e.1 + φ e.2)).sum = 0 := by
  have h₁ : ((edges vs).map (fun e => φ e.1)) = vs.map φ := by
    rw [show (fun e : α × α => φ e.1) = φ ∘ Prod.fst from rfl, ← List.map_map, edges,
      List.map_fst_zip (by simp)]
  have h₂ : ((edges vs).map (fun e => φ e.2)) = (vs.rotate 1).map φ := by
    rw [show (fun e : α × α => φ e.2) = φ ∘ Prod.snd from rfl, ← List.map_map, edges,
      List.map_snd_zip (by simp)]
  have hperm : ((vs.rotate 1).map φ).sum = (vs.map φ).sum := ((vs.rotate_perm 1).map φ).sum_eq
  rw [List.sum_map_add, h₁, h₂, hperm, CharTwo.add_self_eq_zero]

/-- Two counts over the edges have the same parity when, on each edge, they differ by what its
two ends contribute. -/
theorem odd_countP_congr {f g : α × α → Bool} (φ : α → Bool) {vs : List α}
    (h : ∀ e ∈ edges vs, (f e ^^ g e) = (φ e.1 ^^ φ e.2)) :
    Odd ((edges vs).countP f) ↔ Odd ((edges vs).countP g) := by
  have hxor : ∀ a b : Bool, (if (a ^^ b) then (1 : ZMod 2) else 0) =
      (if a then 1 else 0) + (if b then 1 else 0) := by decide
  have hsum : ((edges vs).map (fun e => (if f e then (1 : ZMod 2) else 0) + (if g e then 1 else 0))).sum = 0 := by
    refine Eq.trans (congrArg List.sum (List.map_congr_left fun e he => ?_))
      (sum_ends (fun v => if φ v then (1 : ZMod 2) else 0) vs)
    rw [← hxor, ← hxor, h e he]
  rw [List.sum_map_add, ← countP_eq_sum, ← countP_eq_sum, CharTwo.add_eq_zero] at hsum
  rw [← ZMod.natCast_eq_one_iff_odd, ← ZMod.natCast_eq_one_iff_odd, hsum]

end

section
variable {K : Type*} [Field K] [LinearOrder K]

/-- Where the line through `u` and `v` is at the height `h`. -/
def intercept (u v : Point K) (h : K) : K := u.x + (h - u.y) / (v.y - u.y) * (v.x - u.x)

/-- The ray from `p` to the right crosses the edge `u v`. -/
def crosses (p u v : Point K) : Bool :=
  (decide (u.y ≤ p.y) ^^ decide (v.y ≤ p.y)) && decide (p.x < intercept u v p.y)

/-- The point is inside the polygon by the even-odd rule. -/
def Inside (p : Point K) (vs : List (Point K)) : Prop :=
  Odd ((edges vs).countP (fun e => crosses p e.1 e.2))

/-- The point is on an edge of the polygon. -/
def OnBoundary (p : Point K) (vs : List (Point K)) : Prop := ∃ e ∈ edges vs, OnSegment p e.1 e.2

/-- The point is in the interior of the polygon. -/
def Interior (p : Point K) (vs : List (Point K)) : Prop := Inside p vs ∧ ¬ OnBoundary p vs

instance (p : Point K) (vs : List (Point K)) : Decidable (Inside p vs) := inferInstanceAs (Decidable (Odd _))

omit [LinearOrder K] in
theorem intercept_comm {u v : Point K} (h : u.y ≠ v.y) (y : K) : intercept u v y = intercept v u y := by
  have h₁ : v.y - u.y ≠ 0 := sub_ne_zero.mpr h.symm
  have h₂ : u.y - v.y ≠ 0 := sub_ne_zero.mpr h
  unfold intercept
  rw [← neg_sub v.y u.y, div_neg]
  field_simp
  ring

theorem crosses_comm (p u v : Point K) : crosses p u v = crosses p v u := by
  unfold crosses
  by_cases h : u.y = v.y
  · rw [h]
    simp
  · rw [intercept_comm h, Bool.xor_comm]

omit [LinearOrder K] in
@[simp] theorem intercept_left (u v : Point K) : intercept u v u.y = u.x := by simp [intercept]

omit [LinearOrder K] in
theorem intercept_right {u v : Point K} (h : u.y ≠ v.y) : intercept u v v.y = v.x := by
  rw [intercept_comm h, intercept_left]

omit [LinearOrder K] in
/-- The point of a segment at a height. -/
theorem lerp_at_height {u v : Point K} (h : u.y ≠ v.y) (y : K) :
    lerp u v ((y - u.y) / (v.y - u.y)) = ⟨intercept u v y, y⟩ := by
  have h₁ : v.y - u.y ≠ 0 := sub_ne_zero.mpr h.symm
  ext
  · rfl
  · rw [lerp_y, div_mul_cancel₀ _ h₁]
    ring

/-- How far the point `w` is to the right of the line through `p` and `q`. -/
def gap (p q w : Point K) : K := w.x - intercept p q w.y

omit [LinearOrder K] in
theorem gap_lerp (p q u v : Point K) (t : K) : gap p q (lerp u v t) = (1 - t) * gap p q u + t * gap p q v := by
  simp only [gap, intercept, lerp_x, lerp_y]
  ring

variable [IsStrictOrderedRing K]

theorem ratio_mem {a b y : K} (ha : a ≤ y) (hb : y ≤ b) (hab : a < b) :
    0 ≤ (y - a) / (b - a) ∧ (y - a) / (b - a) ≤ 1 := by
  refine ⟨div_nonneg (by linarith) (by linarith), ?_⟩
  rw [div_le_one (by linarith)]
  linarith

/-- A segment that goes up is there at each height between its ends. -/
theorem onSegment_at_height {u v : Point K} {y : K} (hu : u.y ≤ y) (hv : y ≤ v.y) (huv : u.y < v.y) :
    OnSegment ⟨intercept u v y, y⟩ u v := by
  obtain ⟨h0, h1⟩ := ratio_mem hu hv huv
  exact ⟨_, h0, h1, (lerp_at_height huv.ne y).symm⟩

/-- A segment that goes from one side of a height to the other is there at that height. -/
theorem onSegment_intercept {u v : Point K} {y : K} (h : (decide (u.y ≤ y) ^^ decide (v.y ≤ y)) = true) :
    OnSegment ⟨intercept u v y, y⟩ u v := by
  by_cases hu : u.y ≤ y
  · have hv : y < v.y := by simpa [hu] using h
    exact onSegment_at_height hu hv.le (hu.trans_lt hv)
  · have hv : v.y ≤ y := by simpa [hu] using h
    have hlt : v.y < u.y := hv.trans_lt (not_le.mp hu)
    rw [intercept_comm hlt.ne']
    exact (onSegment_at_height hv (not_le.mp hu).le hlt).symm

/-- A point on the line, at a height of the segment, is on the segment. -/
theorem onSegment_of_gap_eq_zero {p q w : Point K} (hpq : p.y < q.y) (hp : p.y ≤ w.y) (hq : w.y ≤ q.y)
    (h : gap p q w = 0) : OnSegment w p q := by
  obtain ⟨h0, h1⟩ := ratio_mem hp hq hpq
  refine ⟨_, h0, h1, ?_⟩
  rw [lerp_at_height hpq.ne]
  ext
  · exact sub_eq_zero.mp h
  · rfl

/-- Between the heights of `p` and `q`, an edge that misses the segment stays on one side of it. -/
theorem gap_pos_congr {p q u v : Point K} (hpq : p.y < q.y) (h : ¬ Meets p q u v) {s t : K}
    (hs : 0 ≤ s ∧ s ≤ 1) (ht : 0 ≤ t ∧ t ≤ 1) (hsy : p.y ≤ (lerp u v s).y ∧ (lerp u v s).y ≤ q.y)
    (hty : p.y ≤ (lerp u v t).y ∧ (lerp u v t).y ≤ q.y) :
    0 < gap p q (lerp u v s) ↔ 0 < gap p q (lerp u v t) := by
  have hsign : ¬ gap p q (lerp u v s) * gap p q (lerp u v t) ≤ 0 := by
    intro hle
    obtain ⟨r, hr0, hr1, hr⟩ := exists_affine_zero hle
    rw [← gap_lerp] at hr
    have hon : OnSegment (lerp (lerp u v s) (lerp u v t) r) u v :=
      OnSegment.of_lerp hs ht ⟨r, hr0, hr1, rfl⟩
    refine h ⟨_, onSegment_of_gap_eq_zero hpq ?_ ?_ hr, hon⟩
    · rw [lerp_y]
      nlinarith [hsy.1, hty.1]
    · rw [lerp_y]
      nlinarith [hsy.2, hty.2]
  rw [not_le, mul_pos_iff] at hsign
  rcases hsign with ⟨h1, h2⟩ | ⟨h1, h2⟩
  · exact ⟨fun _ => h2, fun _ => h1⟩
  · exact ⟨fun h => absurd h h1.not_gt, fun h => absurd h h2.not_gt⟩

/-- `w` is in the strip to the right of the segment from `p` up to `q`. -/
def strip (p q w : Point K) : Bool := decide (p.y < w.y) && decide (w.y ≤ q.y) && decide (0 < gap p q w)

/-- **Crossings along a segment.**  For an edge that misses the segment from `p` up to `q`, the
crossings of the two rays differ by what the ends of the edge contribute to the strip. -/
theorem crosses_xor {p q u v : Point K} (hpq : p.y < q.y) (h : ¬ Meets p q u v) :
    (crosses p u v ^^ crosses q u v) = (strip p q u ^^ strip p q v) := by
  -- the ends of the edge from the lower to the upper one
  wlog huv : u.y ≤ v.y generalizing u v with hsymm
  · rw [crosses_comm p, crosses_comm q, Bool.xor_comm (strip p q u)]
    exact hsymm (fun hm => h (hm.symm.swap.symm)) (le_of_not_ge huv)
  have hgap : ∀ {s t : K}, 0 ≤ s ∧ s ≤ 1 → 0 ≤ t ∧ t ≤ 1 → p.y ≤ (lerp u v s).y ∧ (lerp u v s).y ≤ q.y →
      p.y ≤ (lerp u v t).y ∧ (lerp u v t).y ≤ q.y →
      (0 < gap p q (lerp u v s) ↔ 0 < gap p q (lerp u v t)) := gap_pos_congr hpq h
  have hzero : (0 : K) ≤ 0 ∧ (0 : K) ≤ 1 := ⟨le_rfl, zero_le_one⟩
  have hone : (0 : K) ≤ 1 ∧ (1 : K) ≤ 1 := ⟨zero_le_one, le_rfl⟩
  -- the heights of the two ends
  have hsy : u.y ≠ v.y → p.y ≤ (lerp u v ((p.y - u.y) / (v.y - u.y))).y ∧
      (lerp u v ((p.y - u.y) / (v.y - u.y))).y ≤ q.y := by
    intro hne
    rw [lerp_at_height hne]
    exact ⟨le_rfl, hpq.le⟩
  have hty : u.y ≠ v.y → p.y ≤ (lerp u v ((q.y - u.y) / (v.y - u.y))).y ∧
      (lerp u v ((q.y - u.y) / (v.y - u.y))).y ≤ q.y := by
    intro hne
    rw [lerp_at_height hne]
    exact ⟨hpq.le, le_rfl⟩
  -- the ray from `p` or `q` crosses the edge when the edge is there to the right of the segment
  have hp : u.y ≠ v.y → (0 < gap p q (lerp u v ((p.y - u.y) / (v.y - u.y))) ↔ p.x < intercept u v p.y) := by
    intro hne
    rw [lerp_at_height hne, gap, intercept_left, sub_pos]
  have hq : u.y ≠ v.y → (0 < gap p q (lerp u v ((q.y - u.y) / (v.y - u.y))) ↔ q.x < intercept u v q.y) := by
    intro hne
    rw [lerp_at_height hne, gap, intercept_right hpq.ne, sub_pos]
  unfold crosses strip
  by_cases h1 : v.y ≤ p.y
  · -- below the strip
    have hu : u.y ≤ p.y := huv.trans h1
    simp [h1, hu, hu.not_gt, h1.not_gt, hu.trans hpq.le, h1.trans hpq.le]
  rw [not_le] at h1
  by_cases h2 : q.y < u.y
  · -- above the strip
    simp [h2.not_ge, (h2.trans_le huv).not_ge, (hpq.trans h2).not_ge, h1.not_ge]
  rw [not_lt] at h2
  by_cases h3 : u.y ≤ p.y
  · have hne : u.y < v.y := h3.trans_lt h1
    have hs := ratio_mem h3 h1.le hne
    by_cases h4 : v.y ≤ q.y
    · -- from below into the strip
      have hside := hgap hs hone (hsy hne.ne) (by rw [lerp_one]; exact ⟨h1.le, h4⟩)
      rw [hp hne.ne, lerp_one] at hside
      simp [h3, h3.not_gt, h1, h1.not_ge, h4, h2, hside]
    · -- through the strip
      rw [not_le] at h4
      have ht := ratio_mem h2 h4.le hne
      have hside := hgap hs ht (hsy hne.ne) (hty hne.ne)
      rw [hp hne.ne, hq hne.ne] at hside
      simp [h3, h3.not_gt, h1.not_ge, h4.not_ge, h2, hside]
  · rw [not_le] at h3
    by_cases h4 : v.y ≤ q.y
    · -- within the strip
      have hside := hgap hzero hone (by rw [lerp_zero]; exact ⟨h3.le, h2⟩) (by rw [lerp_one]; exact ⟨h1.le, h4⟩)
      rw [lerp_zero, lerp_one] at hside
      simp [h3, h3.not_ge, h1, h1.not_ge, h4, h2, hside]
    · -- from the strip upwards
      rw [not_le] at h4
      have hne : u.y < v.y := h2.trans_lt h4
      have ht := ratio_mem h2 h4.le hne
      have hside := hgap hzero ht (by rw [lerp_zero]; exact ⟨h3.le, h2⟩) (hty hne.ne)
      rw [hq hne.ne, lerp_zero] at hside
      simp [h3, h3.not_ge, h1.not_ge, h4.not_ge, h2, hside]

/-- An edge that misses a level segment is crossed by both rays or by none. -/
theorem crosses_level {p q u v : Point K} (hpq : p.y = q.y) (h : ¬ Meets p q u v) :
    crosses p u v = crosses q u v := by
  wlog hx : p.x ≤ q.x generalizing p q with hsymm
  · exact (hsymm hpq.symm (fun hm => h hm.swap) (le_of_not_ge hx)).symm
  unfold crosses
  rw [hpq]
  by_cases hxor : (decide (u.y ≤ q.y) ^^ decide (v.y ≤ q.y)) = true
  · rw [hxor, Bool.true_and, Bool.true_and, decide_eq_decide]
    refine ⟨fun hp => ?_, fun hq => hx.trans_lt hq⟩
    by_contra hq
    rw [not_lt] at hq
    have hw : OnSegment ⟨intercept u v q.y, q.y⟩ u v := onSegment_intercept hxor
    have hpq' : p.x < q.x := hp.trans_le hq
    refine h ⟨_, ⟨(intercept u v q.y - p.x) / (q.x - p.x), ?_, ?_, ?_⟩, hw⟩
    · exact (ratio_mem hp.le hq hpq').1
    · exact (ratio_mem hp.le hq hpq').2
    · ext
      · rw [lerp_x, div_mul_cancel₀ _ (sub_ne_zero.mpr hpq'.ne')]
        ring
      · simp [hpq]
  · rw [Bool.not_eq_true] at hxor
    rw [hxor, Bool.false_and, Bool.false_and]

/-- **The even-odd rule along a segment.**  The ends of a segment that meets no edge are both
inside or both outside. -/
theorem inside_congr {p q : Point K} {vs : List (Point K)} (h : ∀ e ∈ edges vs, ¬ Meets p q e.1 e.2) :
    Inside p vs ↔ Inside q vs := by
  rcases lt_trichotomy p.y q.y with hpq | hpq | hpq
  · exact odd_countP_congr (strip p q) (fun e he => crosses_xor hpq (h e he))
  · refine odd_countP_congr (fun _ => false) (fun e he => ?_)
    rw [crosses_level hpq (h e he)]
    simp
  · refine (odd_countP_congr (strip q p) (fun e he => ?_)).symm
    exact crosses_xor hpq (fun hm => h e he hm.swap)

/-- A segment that meets no edge and starts outside stays out of the interior. -/
theorem not_interior_of_onSegment {p q w : Point K} {vs : List (Point K)}
    (h : ∀ e ∈ edges vs, ¬ Meets p q e.1 e.2) (hp : ¬ Inside p vs) (hw : OnSegment w p q) : ¬ Interior w vs := by
  intro hi
  refine hp ((inside_congr fun e he hm => ?_).mpr hi.1)
  obtain ⟨z, hz, hze⟩ := hm
  exact h e he ⟨z, hw.trans hz, hze⟩

end

/-! ### The lists of one polygon -/

section
variable {α : Type*}

theorem edges_rotate (vs : List α) (n : ℕ) : edges (vs.rotate n) = (edges vs).rotate n := by
  have hlen : vs.length = (vs.rotate 1).length := (List.length_rotate vs 1).symm
  rw [edges, edges, List.rotate_rotate, Nat.add_comm n 1, ← List.rotate_rotate]
  exact (List.zipWith_rotate_distrib Prod.mk vs (vs.rotate 1) n hlen).symm

/-- Read backwards, a polygon has the same edges with their ends exchanged. -/
theorem edges_reverse_perm (vs : List α) : (edges vs.reverse).Perm ((edges vs).map Prod.swap) := by
  cases vs with
  | nil => exact List.Perm.refl _
  | cons v t =>
      have hrot : (v :: t).rotate (t.length + 1) = v :: t := (v :: t).rotate_length
      have hback : (v :: t).reverse.rotate 1 = ((v :: t).rotate t.length).reverse := by
        rw [List.rotate_reverse]
        cases t with
        | nil => simp
        | cons w t => rw [Nat.mod_eq_of_lt (by simp), List.length_cons, Nat.add_sub_cancel]
      have hlen : (v :: t).length = ((v :: t).rotate t.length).length := (List.length_rotate _ _).symm
      have hzip : edges (v :: t).reverse = ((v :: t).zip ((v :: t).rotate t.length)).reverse := by
        rw [edges, hback]
        exact (List.reverse_zipWith hlen).symm
      have hswap : ((v :: t).zip ((v :: t).rotate t.length)).rotate 1 = (edges (v :: t)).map Prod.swap := by
        rw [edges, List.zip_swap]
        refine (List.zipWith_rotate_distrib Prod.mk _ _ 1 hlen).trans ?_
        rw [List.rotate_rotate, hrot]
        rfl
      rw [hzip, ← hswap]
      exact (List.reverse_perm _).trans (List.rotate_perm _ 1).symm

/-- The polygons of a list and of a list that goes around it from another vertex or backwards. -/
def SameRing (us vs : List α) : Prop := us ~r vs ∨ us ~r vs.reverse

theorem SameRing.edges_perm {us vs : List α} (h : SameRing us vs) :
    (edges us).Perm (edges vs) ∨ (edges us).Perm ((edges vs).map Prod.swap) := by
  have hrot : ∀ {us vs : List α}, us ~r vs → (edges us).Perm (edges vs) := by
    rintro us _ ⟨n, rfl⟩
    rw [edges_rotate]
    exact (List.rotate_perm _ n).symm
  rcases h with h | h
  · exact Or.inl (hrot h)
  · exact Or.inr ((hrot h).trans (edges_reverse_perm vs))

end

section
variable {K : Type*} [Field K] [LinearOrder K]

theorem SameRing.inside_iff {p : Point K} {us vs : List (Point K)} (h : SameRing us vs) :
    Inside p us ↔ Inside p vs := by
  unfold Inside
  rcases h.edges_perm with hp | hp
  · rw [hp.countP_eq]
  · rw [hp.countP_eq, List.countP_map]
    refine iff_of_eq (congrArg Odd (List.countP_congr fun e _ => ?_))
    rw [Function.comp_apply, Prod.fst_swap, Prod.snd_swap, crosses_comm]

variable [IsStrictOrderedRing K]

theorem SameRing.onBoundary_iff {p : Point K} {us vs : List (Point K)} (h : SameRing us vs) :
    OnBoundary p us ↔ OnBoundary p vs := by
  unfold OnBoundary
  rcases h.edges_perm with hp | hp
  · simp only [hp.mem_iff]
  · simp only [hp.mem_iff, List.mem_map, exists_exists_and_eq_and, Prod.fst_swap, Prod.snd_swap]
    exact exists_congr fun e => and_congr_right fun _ => ⟨OnSegment.symm, OnSegment.symm⟩

end

/-! ### Scaling -/

section
variable {K : Type*} [Field K]

/-- Scale and shift each coordinate. -/
def stretch (k l a b : K) (p : Point K) : Point K := ⟨k * p.x + a, l * p.y + b⟩

theorem stretch_lerp (k l a b : K) (u v : Point K) (t : K) :
    stretch k l a b (lerp u v t) = lerp (stretch k l a b u) (stretch k l a b v) t := by
  ext <;> simp only [stretch, lerp] <;> ring

theorem stretch_injective {k l : K} (hk : k ≠ 0) (hl : l ≠ 0) (a b : K) : Function.Injective (stretch k l a b) := by
  intro p q h
  have hx : k * p.x + a = k * q.x + a := congrArg Point.x h
  have hy : l * p.y + b = l * q.y + b := congrArg Point.y h
  exact Point.ext (mul_left_cancel₀ hk (add_right_cancel hx)) (mul_left_cancel₀ hl (add_right_cancel hy))

theorem edges_map {α β : Type*} (f : α → β) (vs : List α) : edges (vs.map f) = (edges vs).map (Prod.map f f) := by
  rw [edges, edges, ← List.map_rotate, List.zip_map]

variable [LinearOrder K]

theorem onSegment_stretch {k l : K} (hk : k ≠ 0) (hl : l ≠ 0) (a b : K) (p u v : Point K) :
    OnSegment (stretch k l a b p) (stretch k l a b u) (stretch k l a b v) ↔ OnSegment p u v := by
  unfold OnSegment
  simp only [← stretch_lerp, (stretch_injective hk hl a b).eq_iff]

variable [IsStrictOrderedRing K]

theorem crosses_stretch {k l : K} (hk : 0 < k) (hl : 0 < l) (a b : K) (p u v : Point K) :
    crosses (stretch k l a b p) (stretch k l a b u) (stretch k l a b v) = crosses p u v := by
  have hint : intercept (stretch k l a b u) (stretch k l a b v) (stretch k l a b p).y = k * intercept u v p.y + a := by
    have hratio : (l * p.y + b - (l * u.y + b)) / (l * v.y + b - (l * u.y + b)) = (p.y - u.y) / (v.y - u.y) := by
      rw [add_sub_add_right_eq_sub, add_sub_add_right_eq_sub, ← mul_sub, ← mul_sub, mul_div_mul_left _ _ hl.ne']
    simp only [intercept, stretch, hratio]
    ring
  unfold crosses
  rw [hint]
  simp only [stretch, add_le_add_iff_right, add_lt_add_iff_right, mul_le_mul_iff_right₀ hl, mul_lt_mul_iff_right₀ hk]

/-- Scaling does not change what is in the interior. -/
theorem interior_stretch {k l : K} (hk : 0 < k) (hl : 0 < l) (a b : K) (p : Point K) (vs : List (Point K)) :
    Interior (stretch k l a b p) (vs.map (stretch k l a b)) ↔ Interior p vs := by
  unfold Interior Inside OnBoundary
  rw [edges_map, List.countP_map]
  refine and_congr (iff_of_eq ?_) (not_congr ?_)
  · congr 1
    refine List.countP_congr (fun e _ => ?_)
    rw [Function.comp_apply, Prod.map_fst, Prod.map_snd, crosses_stretch hk hl]
  · simp only [List.mem_map, exists_exists_and_eq_and, Prod.map_fst, Prod.map_snd, onSegment_stretch hk.ne' hl.ne']

end

end Planar
