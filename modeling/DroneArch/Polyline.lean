import Mathlib.Algebra.BigOperators.Group.Finset.Basic
import Mathlib.Algebra.BigOperators.Intervals
import Mathlib.Tactic.Linarith
import Mathlib.Topology.MetricSpace.Defs
import Mathlib.Topology.MetricSpace.Pseudo.Defs
import DroneArch.Numerals

/-! # The length of a polyline

`Polyline.length` sums the distances of consecutive points of a list.

* `length_le_of_sublist`: leaving points out does not make the line longer.
* `length_pairs`: a way over pairs of points, their own lengths and the ways between them.
* `length_eq_zero_iff`: a line has no length when it stays at its first point. -/

namespace Polyline

section pseudo
variable {X : Type*} [PseudoMetricSpace X]

/-- The sum of the distances between consecutive points. -/
noncomputable def length : List X → ℝ
  | [] => 0
  | [_] => 0
  | p :: q :: l => dist p q + length (q :: l)

@[simp] theorem length_nil : length ([] : List X) = 0 := rfl

@[simp] theorem length_singleton (p : X) : length [p] = 0 := rfl

@[simp] theorem length_cons_cons (p q : X) (l : List X) :
    length (p :: q :: l) = dist p q + length (q :: l) := rfl

theorem length_nonneg (l : List X) : 0 ≤ length l := by
  induction l with
  | nil => exact le_rfl
  | cons p l ih =>
      cases l with
      | nil => exact le_rfl
      | cons q l =>
          rw [length_cons_cons]
          exact add_nonneg dist_nonneg ih

/-- The way over a point is not shorter. -/
theorem length_cons_le (p q : X) (l : List X) : length (p :: l) ≤ length (p :: q :: l) := by
  cases l with
  | nil => exact add_nonneg dist_nonneg le_rfl
  | cons r l =>
      rw [length_cons_cons, length_cons_cons, length_cons_cons]
      have := dist_triangle p q r
      linarith

theorem length_cons_le_of_sublist {l l' : List X} (h : List.Sublist l l') (p : X) :
    length (p :: l) ≤ length (p :: l') := by
  induction h generalizing p with
  | slnil => exact le_rfl
  | cons q _ ih => exact (ih p).trans (length_cons_le p q _)
  | cons_cons q _ ih =>
      rw [length_cons_cons, length_cons_cons]
      exact add_le_add_right (ih q) _

/-- **Shortcuts.**  Leaving points out does not make a line longer. -/
theorem length_le_of_sublist {l l' : List X} (h : List.Sublist l l') : length l ≤ length l' := by
  induction h with
  | slnil => exact le_rfl
  | cons q hs ih =>
      rename_i l₁ l₂
      refine ih.trans ?_
      cases l₂ with
      | nil => exact le_rfl
      | cons r l₂ =>
          rw [length_cons_cons]
          exact le_add_of_nonneg_left dist_nonneg
  | cons_cons q hs _ => exact length_cons_le_of_sublist hs q

/-- A way from `p` over the pairs `f i`, `g i` to `q`. -/
theorem length_pairs (f g : ℕ → X) (p q : X) (n : ℕ) :
    length (p :: ((List.range (n + 1)).flatMap (fun i => [f i, g i]) ++ [q])) =
      dist p (f 0) + (∑ i ∈ Finset.range (n + 1), dist (f i) (g i) + ∑ i ∈ Finset.range n, dist (g i) (f (i + 1))) +
        dist (g n) q := by
  induction n generalizing f g p with
  | zero =>
      have hway : length [p, f 0, g 0, q] = dist p (f 0) + (dist (f 0) (g 0) + (dist (g 0) q + 0)) := rfl
      rw [Finset.sum_range_one, Finset.sum_range_zero]
      exact hway.trans (by ring)
  | succ n ih =>
      have hlist : (List.range (n + 1 + 1)).flatMap (fun i => [f i, g i]) =
          f 0 :: g 0 :: (List.range (n + 1)).flatMap (fun i => [f (i + 1), g (i + 1)]) := by
        rw [List.range_succ_eq_map, List.flatMap_cons, List.flatMap_map]
        rfl
      have htail := ih (fun i => f (i + 1)) (fun i => g (i + 1)) (g 0)
      rw [hlist, List.cons_append, List.cons_append, length_cons_cons, length_cons_cons, htail,
        Finset.sum_range_succ' _ (n + 1), Finset.sum_range_succ' (fun i => dist (g i) (f (i + 1))) n]
      ring

end pseudo

section metric
variable {X : Type*} [MetricSpace X]

theorem length_eq_zero_iff (p : X) (l : List X) : length (p :: l) = 0 ↔ ∀ q ∈ l, q = p := by
  induction l generalizing p with
  | nil => simp
  | cons r l ih =>
      have hd : 0 ≤ dist p r := dist_nonneg
      have hl := length_nonneg (r :: l)
      rw [length_cons_cons, add_eq_zero_iff_of_nonneg hd hl, dist_eq_zero, ih, List.forall_mem_cons]
      constructor
      · rintro ⟨rfl, h⟩
        exact ⟨rfl, h⟩
      · rintro ⟨rfl, h⟩
        exact ⟨rfl, h⟩

end metric

end Polyline
