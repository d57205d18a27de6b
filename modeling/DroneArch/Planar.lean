import Mathlib.Algebra.Order.Field.Basic
import Mathlib.Tactic.FieldSimp
import Mathlib.Tactic.Linarith
import Mathlib.Tactic.LinearCombination
import Mathlib.Tactic.Ring
import DroneArch.Numerals

/-! # Points and segments of the plane

Plane geometry over an ordered field: closed segments, the side of a line a point is on, and
when two segments meet.

* `meets_of_det`: two segments on different sides of each other meet.
* `end_onSegment_of_collinear`: two segments on one line that have a common point have an end of one
  on the other.
* `vertex_of_meets_side`: a segment that enters a triangle through one side and leaves it
  through no other has an end in the triangle. -/

namespace Planar

/-- A point of the plane. -/
@[ext]
structure Point (K : Type*) where
  x : K
  y : K
deriving DecidableEq

section
variable {K : Type*} [Field K]

/-- The point that divides the segment from `a` to `b` in the ratio `t : 1 - t`. -/
def lerp (a b : Point K) (t : K) : Point K := ⟨a.x + t * (b.x - a.x), a.y + t * (b.y - a.y)⟩

/-- Twice the signed area of the triangle `a b w`: its sign is the side of the line from `a` to
`b` that `w` is on. -/
def det (a b w : Point K) : K := (b.x - a.x) * (w.y - a.y) - (b.y - a.y) * (w.x - a.x)

@[simp] theorem lerp_x (a b : Point K) (t : K) : (lerp a b t).x = a.x + t * (b.x - a.x) := rfl
@[simp] theorem lerp_y (a b : Point K) (t : K) : (lerp a b t).y = a.y + t * (b.y - a.y) := rfl

@[simp] theorem lerp_zero (a b : Point K) : lerp a b 0 = a := by ext <;> simp
@[simp] theorem lerp_one (a b : Point K) : lerp a b 1 = b := by ext <;> simp

theorem lerp_symm (a b : Point K) (t : K) : lerp a b t = lerp b a (1 - t) := by
  ext <;> simp <;> ring

theorem lerp_lerp (a b : Point K) (s t r : K) :
    lerp (lerp a b s) (lerp a b t) r = lerp a b (s + r * (t - s)) := by
  ext <;> simp <;> ring

theorem det_lerp (a b u v : Point K) (t : K) :
    det a b (lerp u v t) = (1 - t) * det a b u + t * det a b v := by
  simp only [det, lerp_x, lerp_y]
  ring

theorem det_lerp_self (a b : Point K) (t : K) : det a b (lerp a b t) = 0 := by
  simp only [det, lerp_x, lerp_y]
  ring

/-- The sides of a point to a line are those of the line to a point. -/
theorem det_rotate (a b w : Point K) : det b w a = det a b w := by
  simp only [det]
  ring

/-- The two pairs of determinants of two segments have the same difference. -/
theorem det_sub_det (p q u v : Point K) : det p q u - det p q v = det u v q - det u v p := by
  simp only [det]
  ring

end

section
variable {K : Type*} [Field K] [LinearOrder K]

/-- `w` lies on the closed segment from `a` to `b`. -/
def OnSegment (w a b : Point K) : Prop := ∃ t, 0 ≤ t ∧ t ≤ 1 ∧ w = lerp a b t

/-- The closed segments `a b` and `c d` have a point in common. -/
def Meets (a b c d : Point K) : Prop := ∃ w, OnSegment w a b ∧ OnSegment w c d

theorem Meets.symm {a b c d : Point K} (h : Meets a b c d) : Meets c d a b := by
  obtain ⟨w, h1, h2⟩ := h
  exact ⟨w, h2, h1⟩

theorem OnSegment.det_eq_zero {a b w : Point K} (h : OnSegment w a b) : det a b w = 0 := by
  obtain ⟨t, -, -, rfl⟩ := h
  exact det_lerp_self a b t

variable [IsStrictOrderedRing K]

theorem onSegment_left (a b : Point K) : OnSegment a a b := ⟨0, le_rfl, zero_le_one, (lerp_zero a b).symm⟩

theorem onSegment_right (a b : Point K) : OnSegment b a b := ⟨1, zero_le_one, le_rfl, (lerp_one a b).symm⟩

theorem OnSegment.symm {a b w : Point K} (h : OnSegment w a b) : OnSegment w b a := by
  obtain ⟨t, h0, h1, rfl⟩ := h
  exact ⟨1 - t, by linarith, by linarith, lerp_symm a b t⟩

theorem Meets.swap {a b c d : Point K} (h : Meets a b c d) : Meets b a c d := by
  obtain ⟨w, h1, h2⟩ := h
  exact ⟨w, h1.symm, h2⟩

/-- A piece of a segment is part of it. -/
theorem OnSegment.of_lerp {a b w : Point K} {s t : K} (hs : 0 ≤ s ∧ s ≤ 1) (ht : 0 ≤ t ∧ t ≤ 1)
    (h : OnSegment w (lerp a b s) (lerp a b t)) : OnSegment w a b := by
  obtain ⟨r, h0, h1, rfl⟩ := h
  refine ⟨s + r * (t - s), ?_, ?_, lerp_lerp a b s t r⟩
  · nlinarith [mul_nonneg h0 ht.1, mul_nonneg (sub_nonneg.mpr h1) hs.1]
  · nlinarith [mul_nonneg h0 (sub_nonneg.mpr ht.2), mul_nonneg (sub_nonneg.mpr h1) (sub_nonneg.mpr hs.2)]

theorem OnSegment.between {a b p q w : Point K} (hp : OnSegment p a b) (hq : OnSegment q a b)
    (hw : OnSegment w p q) : OnSegment w a b := by
  obtain ⟨s, hs0, hs1, rfl⟩ := hp
  obtain ⟨t, ht0, ht1, rfl⟩ := hq
  exact hw.of_lerp ⟨hs0, hs1⟩ ⟨ht0, ht1⟩

theorem OnSegment.trans {p q r w : Point K} (hr : OnSegment r p q) (hw : OnSegment w p r) : OnSegment w p q :=
  (onSegment_left p q).between hr hw

/-- A value that divides two others is between them. -/
theorem mem_of_ratio {a b t : K} (h0 : 0 ≤ t) (h1 : t ≤ 1) : min a b ≤ a + t * (b - a) ∧ a + t * (b - a) ≤ max a b := by
  rcases le_total a b with hab | hab
  · rw [min_eq_left hab, max_eq_right hab]
    constructor <;> nlinarith
  · rw [min_eq_right hab, max_eq_left hab]
    constructor <;> nlinarith

theorem OnSegment.min_x_le {a b w : Point K} (h : OnSegment w a b) : min a.x b.x ≤ w.x := by
  obtain ⟨t, h0, h1, rfl⟩ := h
  exact (mem_of_ratio h0 h1).1

theorem OnSegment.le_max_x {a b w : Point K} (h : OnSegment w a b) : w.x ≤ max a.x b.x := by
  obtain ⟨t, h0, h1, rfl⟩ := h
  exact (mem_of_ratio h0 h1).2

theorem OnSegment.min_y_le {a b w : Point K} (h : OnSegment w a b) : min a.y b.y ≤ w.y := by
  obtain ⟨t, h0, h1, rfl⟩ := h
  exact (mem_of_ratio h0 h1).1

theorem OnSegment.le_max_y {a b w : Point K} (h : OnSegment w a b) : w.y ≤ max a.y b.y := by
  obtain ⟨t, h0, h1, rfl⟩ := h
  exact (mem_of_ratio h0 h1).2

/-! ### Affine functions along a segment -/

/-- An affine function with values of opposite signs at the ends vanishes in between. -/
theorem exists_affine_zero {f g : K} (h : f * g ≤ 0) : ∃ t, 0 ≤ t ∧ t ≤ 1 ∧ (1 - t) * f + t * g = 0 := by
  by_cases hf : f = 0
  · exact ⟨0, le_rfl, zero_le_one, by rw [hf]; ring⟩
  · have hne : f - g ≠ 0 := by
      intro he
      have hfg : f = g := sub_eq_zero.mp he
      rw [← hfg] at h
      exact hf (by nlinarith [mul_self_nonneg f, mul_self_eq_zero.mp (le_antisymm h (mul_self_nonneg f))])
    refine ⟨f / (f - g), ?_, ?_, ?_⟩
    · rcases lt_or_gt_of_ne hf with hf | hf
      · exact div_nonneg_of_nonpos hf.le (by nlinarith)
      · exact div_nonneg hf.le (by nlinarith)
    · rcases lt_or_gt_of_ne hf with hf | hf
      · have hg : 0 ≤ g := by nlinarith
        have hneg : f - g < 0 := lt_of_le_of_ne (by linarith) hne
        rw [div_le_one_of_neg hneg]
        linarith
      · have hg : g ≤ 0 := by nlinarith
        have hpos : 0 < f - g := by linarith
        rw [div_le_one hpos]
        linarith
    · field_simp
      ring

/-- Two affine functions that are positive at the start, one of them negative at the end: there
is a first point at which one of them vanishes. -/
theorem exists_affine_exit {f₀ f₁ g₀ g₁ : K} (hf : 0 < f₀) (hg : 0 < g₀) (h : f₁ < 0 ∨ g₁ < 0) :
    ∃ t, 0 ≤ t ∧ t ≤ 1 ∧ 0 ≤ (1 - t) * f₀ + t * f₁ ∧ 0 ≤ (1 - t) * g₀ + t * g₁ ∧
      ((1 - t) * f₀ + t * f₁ = 0 ∨ (1 - t) * g₀ + t * g₁ = 0) := by
  -- the zero of the function that is negative at the end, if it comes first
  have key : ∀ {f₀ f₁ g₀ g₁ : K}, 0 < f₀ → 0 < g₀ → f₁ < 0 → (0 ≤ g₁ ∨ f₀ * (g₀ - g₁) ≤ g₀ * (f₀ - f₁)) →
      ∃ t, 0 ≤ t ∧ t ≤ 1 ∧ (1 - t) * f₀ + t * f₁ = 0 ∧ 0 ≤ (1 - t) * g₀ + t * g₁ := by
    intro f₀ f₁ g₀ g₁ hf hg hf₁ hfirst
    have hpos : 0 < f₀ - f₁ := by linarith
    have h1 : f₀ / (f₀ - f₁) ≤ 1 := by
      rw [div_le_one hpos]
      linarith
    have h0 : 0 ≤ f₀ / (f₀ - f₁) := div_nonneg hf.le hpos.le
    refine ⟨f₀ / (f₀ - f₁), h0, h1, ?_, ?_⟩
    · field_simp
      ring
    · rcases hfirst with hg₁ | hle
      · exact add_nonneg (mul_nonneg (by linarith) hg.le) (mul_nonneg h0 hg₁)
      · have hle' : f₀ / (f₀ - f₁) * (g₀ - g₁) ≤ g₀ := by
          rw [div_mul_eq_mul_div, div_le_iff₀ hpos]
          exact hle
        linarith
  by_cases hf₁ : f₁ < 0
  · by_cases hfirst : 0 ≤ g₁ ∨ f₀ * (g₀ - g₁) ≤ g₀ * (f₀ - f₁)
    · obtain ⟨t, h0, h1, hz, hp⟩ := key hf hg hf₁ hfirst
      exact ⟨t, h0, h1, hz.ge, hp, Or.inl hz⟩
    · rw [not_or, not_le, not_le] at hfirst
      obtain ⟨t, h0, h1, hz, hp⟩ := key hg hf hfirst.1 (Or.inr hfirst.2.le)
      exact ⟨t, h0, h1, hp, hz.ge, Or.inr hz⟩
  · have hg₁ : g₁ < 0 := h.resolve_left hf₁
    obtain ⟨t, h0, h1, hz, hp⟩ := key hg hf hg₁ (Or.inl (not_lt.mp hf₁))
    exact ⟨t, h0, h1, hp, hz.ge, Or.inr hz⟩

/-! ### When segments meet -/

omit [IsStrictOrderedRing K] in
/-- Where two segments meet, the ends of one balance around the line of the other. -/
theorem Meets.exists_balance {p q u v : Point K} (h : Meets p q u v) :
    ∃ t, 0 ≤ t ∧ t ≤ 1 ∧ (1 - t) * det p q u + t * det p q v = 0 := by
  obtain ⟨w, hw, t, h0, h1, rfl⟩ := h
  exact ⟨t, h0, h1, (det_lerp p q u v t).symm.trans hw.det_eq_zero⟩

/-- The ends of a segment that meets another are not on the same side of it. -/
theorem Meets.det_mul_det_nonpos {p q u v : Point K} (h : Meets p q u v) : det p q u * det p q v ≤ 0 := by
  obtain ⟨t, h0, h1, hz⟩ := h.exists_balance
  have hsum : det p q u * det p q v + (1 - t) * (det p q u * det p q u) + t * (det p q v * det p q v) = 0 := by
    linear_combination (det p q u + det p q v) * hz
  have hu := mul_nonneg (sub_nonneg.mpr h1) (mul_self_nonneg (det p q u))
  have hv := mul_nonneg h0 (mul_self_nonneg (det p q v))
  linarith

omit [IsStrictOrderedRing K] in
theorem Meets.det_eq_zero_of_eq {p q u v : Point K} (h : Meets p q u v) (he : det p q u = det p q v) :
    det p q u = 0 ∧ det p q v = 0 := by
  obtain ⟨t, -, -, hz⟩ := h.exists_balance
  have hv : det p q v = 0 := by
    rw [he] at hz
    linear_combination hz
  exact ⟨he.trans hv, hv⟩

/-- Two segments with the ends of each on different sides of the other, or on it, meet; a line
that contains both ends of the other segment is excluded. -/
theorem meets_of_det {p q u v : Point K} (h₁ : det p q u * det p q v ≤ 0) (h₂ : det u v p * det u v q ≤ 0)
    (hne : det p q u ≠ det p q v) : Meets p q u v := by
  obtain ⟨s, hs0, hs1, hs⟩ := exists_affine_zero h₁
  obtain ⟨t, ht0, ht1, ht⟩ := exists_affine_zero h₂
  have hd := det_sub_det p q u v
  have hD : det p q u - det p q v ≠ 0 := sub_ne_zero.mpr hne
  have hs' : s * (det p q u - det p q v) = det p q u := by linear_combination -hs
  have ht' : t * (det p q u - det p q v) = -det u v p := by linear_combination t * hd + ht
  refine ⟨lerp p q t, ⟨t, ht0, ht1, rfl⟩, s, hs0, hs1, ?_⟩
  ext
  · apply mul_right_cancel₀ hD
    simp only [lerp_x]
    have hx : (p.x - u.x) * (det p q u - det p q v) - det u v p * (q.x - p.x) - det p q u * (v.x - u.x) = 0 := by
      simp only [det]
      ring
    linear_combination hx + (q.x - p.x) * ht' - (v.x - u.x) * hs'
  · apply mul_right_cancel₀ hD
    simp only [lerp_y]
    have hy : (p.y - u.y) * (det p q u - det p q v) - det u v p * (q.y - p.y) - det p q u * (v.y - u.y) = 0 := by
      simp only [det]
      ring
    linear_combination hy + (q.y - p.y) * ht' - (v.y - u.y) * hs'

omit [IsStrictOrderedRing K] in
/-- A point on the line through two different points divides them in some ratio. -/
theorem eq_lerp_of_det_eq_zero {p q w : Point K} (hpq : p ≠ q) (h : det p q w = 0) : ∃ t, w = lerp p q t := by
  unfold det at h
  by_cases hx : q.x - p.x = 0
  · have hy : q.y - p.y ≠ 0 := by
      intro hy
      exact hpq (Point.ext (sub_eq_zero.mp hx).symm (sub_eq_zero.mp hy).symm)
    refine ⟨(w.y - p.y) / (q.y - p.y), ?_⟩
    have hwx : w.x - p.x = 0 := by
      rw [hx, zero_mul, zero_sub, neg_eq_zero, mul_eq_zero] at h
      exact h.resolve_left hy
    ext
    · rw [lerp_x, hx, mul_zero, add_zero]
      exact sub_eq_zero.mp hwx
    · rw [lerp_y, div_mul_cancel₀ _ hy]
      ring
  · refine ⟨(w.x - p.x) / (q.x - p.x), ?_⟩
    ext
    · rw [lerp_x, div_mul_cancel₀ _ hx]
      ring
    · rw [lerp_y]
      field_simp
      linear_combination h

/-- A point of a line has one ratio. -/
theorem lerp_inj {p q : Point K} (hpq : p ≠ q) {s t : K} (h : lerp p q s = lerp p q t) : s = t := by
  have hx := congrArg Point.x h
  have hy := congrArg Point.y h
  simp only [lerp_x, lerp_y, add_right_inj] at hx hy
  by_cases hx0 : q.x - p.x = 0
  · have hy0 : q.y - p.y ≠ 0 := by
      intro hy0
      exact hpq (Point.ext (sub_eq_zero.mp hx0).symm (sub_eq_zero.mp hy0).symm)
    exact mul_right_cancel₀ hy0 hy
  · exact mul_right_cancel₀ hx0 hx

/-- Points of a line in the order of their ratios. -/
theorem onSegment_lerp {p q : Point K} {a b c : K} (hac : a ≤ c) (hcb : c ≤ b) (hab : a < b) :
    OnSegment (lerp p q c) (lerp p q a) (lerp p q b) := by
  refine ⟨(c - a) / (b - a), div_nonneg (by linarith) (by linarith), ?_, ?_⟩
  · rw [div_le_one (by linarith)]
    linarith
  · rw [lerp_lerp, div_mul_cancel₀ _ (sub_ne_zero.mpr hab.ne')]
    congr 1
    ring

/-- Two segments on one line with a common point: an end of one of them is on the other. -/
theorem end_onSegment_of_collinear {p q u v : Point K} (hu : det p q u = 0) (hv : det p q v = 0)
    (h : Meets p q u v) : OnSegment u p q ∨ OnSegment v p q ∨ OnSegment p u v ∨ OnSegment q u v := by
  obtain ⟨w, hw, r, hr0, hr1, hwr⟩ := h
  by_cases hpq : p = q
  · obtain ⟨t, ht0, ht1, hwt⟩ := hw
    have hwp : w = p := by
      rw [hwt, hpq]
      ext <;> simp
    exact Or.inr (Or.inr (Or.inl ⟨r, hr0, hr1, hwp ▸ hwr⟩))
  · obtain ⟨s₁, rfl⟩ := eq_lerp_of_det_eq_zero hpq hu
    obtain ⟨s₂, rfl⟩ := eq_lerp_of_det_eq_zero hpq hv
    obtain ⟨t, ht0, ht1, rfl⟩ := hw
    -- all points are given by their ratio along the first segment
    have hts : t = s₁ + r * (s₂ - s₁) := by
      rw [lerp_lerp] at hwr
      exact lerp_inj hpq hwr
    by_cases h1 : 0 ≤ s₁ ∧ s₁ ≤ 1
    · exact Or.inl ⟨s₁, h1.1, h1.2, rfl⟩
    by_cases h2 : 0 ≤ s₂ ∧ s₂ ≤ 1
    · exact Or.inr (Or.inl ⟨s₂, h2.1, h2.2, rfl⟩)
    -- both are outside and on different sides, so `p` is between them
    have hp : OnSegment (lerp p q 0) (lerp p q s₁) (lerp p q s₂) := by
      rw [not_and_or, not_le, not_le] at h1 h2
      have hmin : min s₁ s₂ ≤ t ∧ t ≤ max s₁ s₂ := by
        rw [hts]
        exact mem_of_ratio hr0 hr1
      rcases h1 with h1 | h1 <;> rcases h2 with h2 | h2
      · exact absurd (hmin.2.trans_lt (max_lt h1 h2)) (not_lt.mpr ht0)
      · exact onSegment_lerp h1.le (by linarith) (by linarith)
      · exact (onSegment_lerp h2.le (by linarith) (by linarith)).symm
      · exact absurd ((lt_min h1 h2).trans_le hmin.1) (not_lt.mpr ht1)
    rw [lerp_zero] at hp
    exact Or.inr (Or.inr (Or.inl hp))

/-! ### Triangles -/

theorem onSegment_of_weights {p q w : Point K} {α β : K} (hα : 0 ≤ α) (hβ : 0 ≤ β) (h : α + β = 1)
    (hw : w = ⟨α * p.x + β * q.x, α * p.y + β * q.y⟩) : OnSegment w p q := by
  refine ⟨β, hβ, by linarith, ?_⟩
  rw [hw]
  ext
  · rw [lerp_x]
    linear_combination p.x * h
  · rw [lerp_y]
    linear_combination p.y * h

/-- `w` lies in the closed triangle `a b c`. -/
def InTriangle (w a b c : Point K) : Prop :=
  ∃ α β γ, 0 ≤ α ∧ 0 ≤ β ∧ 0 ≤ γ ∧ α + β + γ = 1 ∧
    w = ⟨α * a.x + β * b.x + γ * c.x, α * a.y + β * b.y + γ * c.y⟩

omit [LinearOrder K] [IsStrictOrderedRing K] in
/-- The barycentric coordinates of a point. -/
theorem eq_barycentric {a b c : Point K} (hD : det a b c ≠ 0) (w : Point K) :
    det b c w / det a b c + det c a w / det a b c + det a b w / det a b c = 1 ∧
    w = ⟨det b c w / det a b c * a.x + det c a w / det a b c * b.x + det a b w / det a b c * c.x,
      det b c w / det a b c * a.y + det c a w / det a b c * b.y + det a b w / det a b c * c.y⟩ := by
  refine ⟨?_, ?_⟩
  · rw [← add_div, ← add_div, div_eq_one_iff_eq hD]
    simp only [det]
    ring
  · ext <;> dsimp only
    · rw [div_mul_eq_mul_div, div_mul_eq_mul_div, div_mul_eq_mul_div, ← add_div, ← add_div, eq_div_iff hD]
      simp only [det]
      ring
    · rw [div_mul_eq_mul_div, div_mul_eq_mul_div, div_mul_eq_mul_div, ← add_div, ← add_div, eq_div_iff hD]
      simp only [det]
      ring

/-- From within the side `a b`, the way to a point that is outside of the triangle on the inner
side of that side leaves by another side. -/
theorem exists_exit {a b c e : Point K} (hD : det a b c ≠ 0) {t : K} (h0 : 0 < t) (h1 : t < 1)
    (hγ : 0 ≤ det a b e / det a b c) (hout : det b c e / det a b c < 0 ∨ det c a e / det a b c < 0) :
    ∃ w, OnSegment w (lerp a b t) e ∧ (OnSegment w c b ∨ OnSegment w a c) := by
  have hα₀ : det b c (lerp a b t) / det a b c = 1 - t := by
    rw [div_eq_iff hD]
    simp only [det, lerp_x, lerp_y]
    ring
  have hβ₀ : det c a (lerp a b t) / det a b c = t := by
    rw [div_eq_iff hD]
    simp only [det, lerp_x, lerp_y]
    ring
  obtain ⟨s, hs0, hs1, hα, hβ, hz⟩ := exists_affine_exit (sub_pos.mpr h1) h0 hout
  refine ⟨lerp (lerp a b t) e s, ⟨s, hs0, hs1, rfl⟩, ?_⟩
  have hα' : det b c (lerp (lerp a b t) e s) / det a b c = (1 - s) * (1 - t) + s * (det b c e / det a b c) := by
    rw [det_lerp, add_div, mul_div_assoc, mul_div_assoc, hα₀]
  have hβ' : det c a (lerp (lerp a b t) e s) / det a b c = (1 - s) * t + s * (det c a e / det a b c) := by
    rw [det_lerp, add_div, mul_div_assoc, mul_div_assoc, hβ₀]
  have hγ' : det a b (lerp (lerp a b t) e s) / det a b c = s * (det a b e / det a b c) := by
    rw [det_lerp, det_lerp_self, mul_zero, zero_add, mul_div_assoc]
  have hγ₀ : 0 ≤ det a b (lerp (lerp a b t) e s) / det a b c := hγ' ▸ mul_nonneg hs0 hγ
  obtain ⟨hsum, hw⟩ := eq_barycentric hD (lerp (lerp a b t) e s)
  rw [← hα'] at hα
  rw [← hβ'] at hβ
  rw [← hα', ← hβ'] at hz
  rcases hz with hz | hz
  · rw [hz, zero_add] at hsum
    rw [hz, zero_mul, zero_mul, zero_add, zero_add] at hw
    exact Or.inl (onSegment_of_weights hβ hγ₀ hsum hw).symm
  · rw [hz, add_zero] at hsum
    rw [hz, zero_mul, zero_mul, add_zero, add_zero] at hw
    exact Or.inr (onSegment_of_weights hα hγ₀ hsum hw)

/-- A point that is reached from the side `a b`, on the inner side of it, without meeting another
side is in the triangle. -/
theorem inTriangle_of_inner {a b c r e : Point K} (hD : det a b c ≠ 0) (hr : OnSegment r a b)
    (hac : ¬ Meets a c r e) (hcb : ¬ Meets c b r e) (hγ : 0 ≤ det a b e / det a b c) : InTriangle e a b c := by
  obtain ⟨t, ht0, ht1, rfl⟩ := hr
  have ht1' : t ≠ 1 := by
    rintro rfl
    rw [lerp_one] at hcb
    exact hcb ⟨b, onSegment_right c b, onSegment_left b e⟩
  have ht0' : t ≠ 0 := by
    rintro rfl
    rw [lerp_zero] at hac
    exact hac ⟨a, onSegment_left a c, onSegment_left a e⟩
  obtain ⟨hsum, hw⟩ := eq_barycentric hD e
  by_cases hout : det b c e / det a b c < 0 ∨ det c a e / det a b c < 0
  · exfalso
    obtain ⟨w, hw, hside⟩ := exists_exit hD (lt_of_le_of_ne ht0 ht0'.symm) (lt_of_le_of_ne ht1 ht1') hγ hout
    rcases hside with hside | hside
    · exact hcb ⟨w, hside, hw⟩
    · exact hac ⟨w, hside, hw⟩
  · rw [not_or, not_lt, not_lt] at hout
    exact ⟨_, _, _, hout.1, hout.2, hγ, hsum, hw⟩

/-- A segment that enters a triangle through the side `a b` and meets none of the other sides
ends in the triangle. -/
theorem vertex_of_meets_side {a b c u v : Point K} (hD : det a b c ≠ 0) (hab : Meets a b u v)
    (hac : ¬ Meets a c u v) (hcb : ¬ Meets c b u v) : InTriangle u a b c ∨ InTriangle v a b c := by
  obtain ⟨r, hr, hruv⟩ := hab
  -- from the common point to either end no other side is met
  have hpart : ∀ {p q e : Point K}, OnSegment e u v → ¬ Meets p q u v → ¬ Meets p q r e := by
    rintro p q e he hno ⟨w, hw, hwre⟩
    exact hno ⟨w, hw, hruv.between he hwre⟩
  obtain ⟨t, ht0, ht1, hrt⟩ := hruv
  have hzero : (1 - t) * (det a b u / det a b c) + t * (det a b v / det a b c) = 0 := by
    rw [← mul_div_assoc, ← mul_div_assoc, ← add_div, ← det_lerp, ← hrt, hr.det_eq_zero, zero_div]
  by_cases hu : 0 ≤ det a b u / det a b c
  · exact Or.inl (inTriangle_of_inner hD hr (hpart (onSegment_left u v) hac) (hpart (onSegment_left u v) hcb) hu)
  · refine Or.inr (inTriangle_of_inner hD hr (hpart (onSegment_right u v) hac) (hpart (onSegment_right u v) hcb) ?_)
    rw [not_le] at hu
    by_contra hv
    rw [not_le] at hv
    nlinarith [mul_nonneg ht0 (neg_nonneg.mpr hv.le), mul_nonneg (sub_nonneg.mpr ht1) (neg_nonneg.mpr hu.le)]

end

end Planar
