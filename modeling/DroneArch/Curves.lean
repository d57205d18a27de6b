import Mathlib.Topology.EMetricSpace.BoundedVariation
import Mathlib.Topology.Order.IntermediateValue
import Mathlib.Topology.MetricSpace.Pseudo.Constructions

/-! # Walking along a curve

A continuous curve of length at most `n * h` is walked in at most `n + 1` hops of length at most `h` between
points of the curve (`walk`): each hop but the last one uses up the length `h`. -/

namespace Curves

open Set

variable {E : Type*} [PseudoMetricSpace E]

/-- The next point at distance `h`, and the length that is left behind it. -/
theorem exists_hop {γ : ℝ → E} {a b h : ℝ} (hab : a ≤ b) (hγ : ContinuousOn γ (Icc a b)) (hh : 0 ≤ h)
    (hfar : h < dist (γ a) (γ b)) : ∃ c ∈ Icc a b, dist (γ a) (γ c) = h ∧
      ENNReal.ofReal h + eVariationOn γ (Icc c b) ≤ eVariationOn γ (Icc a b) := by
  have hcont : ContinuousOn (fun t => dist (γ a) (γ t)) (Icc a b) := (continuous_const.dist continuous_id).comp_continuousOn hγ
  have hmem : h ∈ Icc (dist (γ a) (γ a)) (dist (γ a) (γ b)) := ⟨by rw [dist_self]; exact hh, hfar.le⟩
  obtain ⟨c, hc, hdist⟩ := intermediate_value_Icc hab hcont hmem
  refine ⟨c, hc, hdist, ?_⟩
  have hsum := eVariationOn.Icc_add_Icc γ hc.1 hc.2 (mem_univ c)
  rw [univ_inter, univ_inter, univ_inter] at hsum
  have hfirst : ENNReal.ofReal h ≤ eVariationOn γ (Icc a c) := by
    rw [← hdist, ← edist_dist]
    exact eVariationOn.edist_le γ (left_mem_Icc.mpr hc.1) (right_mem_Icc.mpr hc.1)
  rw [← hsum]
  gcongr

/-- **Walking.**  What holds at the start of a curve and is carried over hops is carried to its end. -/
theorem walk {γ : ℝ → E} {P : ℕ → E → Prop} {h b : ℝ} (hh : 0 ≤ h) (n : ℕ) {a : ℝ} {k : ℕ} (hab : a ≤ b)
    (hγ : ContinuousOn γ (Icc a b)) (hlen : eVariationOn γ (Icc a b) ≤ ENNReal.ofReal (n * h))
    (hop : ∀ k, ∀ s ∈ Icc a b, ∀ t ∈ Icc a b, P k (γ s) → dist (γ s) (γ t) ≤ h → P (k + 1) (γ t))
    (hstart : P k (γ a)) : ∃ k', k < k' ∧ k' ≤ k + n + 1 ∧ P k' (γ b) := by
  have ha : a ∈ Icc a b := left_mem_Icc.mpr hab
  have hb : b ∈ Icc a b := right_mem_Icc.mpr hab
  induction n generalizing a k with
  | zero =>
      have hdist : dist (γ a) (γ b) ≤ h := by
        have hzero := (eVariationOn.edist_le γ ha hb).trans hlen
        rw [Nat.cast_zero, zero_mul, edist_dist] at hzero
        exact ((ENNReal.ofReal_le_ofReal_iff le_rfl).mp hzero).trans hh
      exact ⟨k + 1, by omega, by omega, hop k a ha b hb hstart hdist⟩
  | succ n ih =>
      by_cases hnear : dist (γ a) (γ b) ≤ h
      · exact ⟨k + 1, by omega, by omega, hop k a ha b hb hstart hnear⟩
      · obtain ⟨c, hc, hdist, hrest⟩ := exists_hop hab hγ hh (not_le.mp hnear)
        have hsub : Icc c b ⊆ Icc a b := Icc_subset_Icc_left hc.1
        have hsplit : ENNReal.ofReal ((n + 1 : ℕ) * h) = ENNReal.ofReal h + ENNReal.ofReal (n * h) := by
          rw [← ENNReal.ofReal_add hh (by positivity)]
          congr 1
          push_cast
          ring
        have hleft : eVariationOn γ (Icc c b) ≤ ENNReal.ofReal (n * h) := by
          rw [hsplit] at hlen
          exact (ENNReal.add_le_add_iff_left ENNReal.ofReal_ne_top).mp (hrest.trans hlen)
        obtain ⟨k', hk, hk', hP⟩ := ih hc.2 (hγ.mono hsub) hleft
          (fun k s hs t ht => hop k s (hsub hs) t (hsub ht)) (hop k a ha c hc hstart hdist.le)
          (left_mem_Icc.mpr hc.2) (right_mem_Icc.mpr hc.2)
        exact ⟨k', by omega, by omega, hP⟩

end Curves
