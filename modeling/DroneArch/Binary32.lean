import DroneArch.Binary64

/-! # Rounding to a floating-point format

The numbers of a binary format with `p` places and the least exponent `e` are the rational numbers that `nearest p e`
leaves unchanged.  There are no infinities here and one zero.  Single precision is `toFloat`.

* `nearest_nearest`: rounding gives a number of the format.
* `le_nearest`: rounding does not cross a number of the format. -/

namespace Binary32

open Binary64 (roundHalfEven roundHalfEven_intCast abs_roundHalfEven_sub_le abs_roundHalfEven_le)

section
variable (p : ℕ) (e : ℤ)

/-- The exponent of the last place of the numbers around `r`. -/
def lastPlace (r : ℚ) : ℤ := max (Int.log 2 |r| + 1 - p) e

/-- The nearest number of the format. -/
def nearest (r : ℚ) : ℚ := roundHalfEven (r / 2 ^ lastPlace p e r) * 2 ^ lastPlace p e r

variable {p e}

theorem nearest_of_multiple {x : ℚ} {m : ℤ} (h : x = m * 2 ^ lastPlace p e x) : nearest p e x = x := by
  have hpos : (2 : ℚ) ^ lastPlace p e x ≠ 0 := by positivity
  have hquot : x / 2 ^ lastPlace p e x = m := by
    rw [div_eq_iff hpos]
    exact h
  unfold nearest
  rw [hquot, roundHalfEven_intCast]
  exact h.symm

/-- A power of two is a multiple of a smaller one. -/
theorem exists_mul_zpow (n : ℤ) {k l : ℤ} (h : l ≤ k) : ∃ m : ℤ, (n : ℚ) * 2 ^ k = m * 2 ^ l := by
  refine ⟨n * 2 ^ (k - l).toNat, ?_⟩
  have hsplit : (2 : ℚ) ^ k = 2 ^ (k - l).toNat * 2 ^ l := by
    rw [← zpow_natCast, ← zpow_add₀ (by norm_num)]
    congr 1
    omega
  rw [hsplit]
  push_cast
  ring

/-- A number with at most `p` places is a multiple of its own last place. -/
theorem exists_multiple (hp : p ≠ 0) {n k : ℤ} (hn : |n| ≤ 2 ^ p) (hk : e ≤ k) :
    ∃ m : ℤ, (n : ℚ) * 2 ^ k = m * 2 ^ lastPlace p e ((n : ℚ) * 2 ^ k) := by
  generalize hx : (n : ℚ) * 2 ^ k = x
  by_cases hle : lastPlace p e x ≤ k
  · rw [← hx] at hle ⊢
    exact exists_mul_zpow n hle
  · by_cases hzero : x = 0
    · exact ⟨0, by rw [hzero]; simp⟩
    · have hlog : Int.log 2 |x| + 1 = p + lastPlace p e x := by
        unfold lastPlace at hle ⊢
        omega
      have hlow : (2 : ℚ) ^ Int.log 2 |x| ≤ |x| := Int.zpow_log_le_self (by decide) (abs_pos.mpr hzero)
      have hcast : |(n : ℚ)| ≤ 2 ^ p := by exact_mod_cast hn
      have hhigh : |x| ≤ (2 : ℚ) ^ Int.log 2 |x| := by
        calc |x| = |(n : ℚ)| * 2 ^ k := by rw [← hx, abs_mul, abs_of_pos (by positivity : (0 : ℚ) < 2 ^ k)]
          _ ≤ 2 ^ p * 2 ^ k := by gcongr
          _ = 2 ^ (p + k) := by rw [zpow_add₀ (by norm_num), zpow_natCast]
          _ ≤ 2 ^ Int.log 2 |x| := zpow_le_zpow_right₀ (by norm_num) (by omega)
      have habs : |x| = 2 ^ Int.log 2 |x| := le_antisymm hhigh hlow
      have hle' : lastPlace p e x ≤ Int.log 2 |x| := by omega
      obtain ⟨m, hm⟩ := exists_mul_zpow 1 hle'
      rw [Int.cast_one, one_mul, ← habs] at hm
      obtain hpos | hneg := abs_choice x
      · exact ⟨m, hpos.symm.trans hm⟩
      · refine ⟨-m, ?_⟩
        rw [Int.cast_neg, neg_mul, ← hm, hneg, neg_neg]

/-- **Rounding.**  Rounding gives a number of the format. -/
theorem nearest_nearest (hp : p ≠ 0) (r : ℚ) : nearest p e (nearest p e r) = nearest p e r := by
  have hpos : (0 : ℚ) < 2 ^ lastPlace p e r := by positivity
  have hplaces : |r / 2 ^ lastPlace p e r| ≤ ((2 ^ p : ℤ) : ℚ) := by
    have hlog : |r| < (2 : ℚ) ^ (Int.log 2 |r| + 1) := Int.lt_zpow_succ_log_self (by decide) _
    have hexp : Int.log 2 |r| + 1 ≤ p + lastPlace p e r := by
      unfold lastPlace
      omega
    rw [abs_div, abs_of_pos hpos, div_le_iff₀ hpos]
    calc |r| ≤ (2 : ℚ) ^ (Int.log 2 |r| + 1) := hlog.le
      _ ≤ (2 : ℚ) ^ (p + lastPlace p e r) := zpow_le_zpow_right₀ (by norm_num) hexp
      _ = ((2 ^ p : ℤ) : ℚ) * 2 ^ lastPlace p e r := by
        rw [zpow_add₀ (by norm_num), zpow_natCast]
        norm_num
  obtain ⟨m, hm⟩ := exists_multiple hp (abs_roundHalfEven_le hplaces) (le_max_right _ _)
  exact nearest_of_multiple hm

/-- Rounding to an integer does not cross one. -/
theorem le_roundHalfEven {m : ℤ} {r : ℚ} (h : (m : ℚ) ≤ r) : m ≤ roundHalfEven r := by
  have herr := (abs_le.mp (abs_roundHalfEven_sub_le r)).1
  have hlt : (m : ℚ) < roundHalfEven r + 1 := by linarith
  have : m < roundHalfEven r + 1 := by exact_mod_cast hlt
  omega

/-- **Order.**  Rounding does not cross a number of the format. -/
theorem le_nearest {x y : ℚ} (hp : p ≠ 0) (hx : nearest p e x = x) (h : x ≤ y) : x ≤ nearest p e y := by
  have hpos : (0 : ℚ) < 2 ^ lastPlace p e y := by positivity
  -- a multiple of the last place of `y` lies between the two
  obtain ⟨m, hlow, hhigh⟩ : ∃ m : ℤ, x ≤ m * 2 ^ lastPlace p e y ∧ (m : ℚ) * 2 ^ lastPlace p e y ≤ y := by
    by_cases hzero : x ≤ 0 ∧ 0 ≤ y
    · exact ⟨0, by simpa using hzero.1, by simpa using hzero.2⟩
    by_cases hplace : lastPlace p e y ≤ lastPlace p e x
    · obtain ⟨m, hm⟩ := exists_mul_zpow (roundHalfEven (x / 2 ^ lastPlace p e x)) hplace
      have hxm : x = m * 2 ^ lastPlace p e y := by
        rw [← hm]
        exact hx.symm
      exact ⟨m, hxm.le, hxm ▸ h⟩
    · have hlog : Int.log 2 |x| + 1 ≤ Int.log 2 |y| ∧ lastPlace p e y = Int.log 2 |y| + 1 - p := by
        unfold lastPlace at hplace ⊢
        omega
      have hxlt : |x| < 2 ^ Int.log 2 |y| :=
        (Int.lt_zpow_succ_log_self (by decide) _).trans_le (zpow_le_zpow_right₀ (by norm_num) hlog.1)
      have hypos : 0 < y := by
        by_contra hneg
        have hy := abs_of_nonpos (not_lt.mp hneg)
        have hx0 : x < 0 := by
          rcases lt_or_eq_of_le (not_lt.mp hneg) with hlt | rfl
          · exact h.trans_lt hlt
          · exact absurd ⟨h, le_rfl⟩ hzero
        have hy0 : y ≠ 0 := fun h0 => hzero ⟨hx0.le, h0.ge⟩
        have hylow : (2 : ℚ) ^ Int.log 2 |y| ≤ |y| := Int.zpow_log_le_self (by decide) (abs_pos.mpr hy0)
        have := abs_of_neg hx0
        linarith
      have hylow : (2 : ℚ) ^ Int.log 2 |y| ≤ |y| := Int.zpow_log_le_self (by decide) (abs_pos.mpr hypos.ne')
      obtain ⟨m, hm⟩ := exists_mul_zpow 1 (show lastPlace p e y ≤ Int.log 2 |y| by omega)
      rw [Int.cast_one, one_mul] at hm
      refine ⟨m, ?_, ?_⟩
      · rw [← hm]
        exact (le_abs_self x).trans hxlt.le
      · rw [← hm]
        exact hylow.trans_eq (abs_of_pos hypos)
  calc x ≤ m * 2 ^ lastPlace p e y := hlow
    _ ≤ nearest p e y := by
      unfold nearest
      refine mul_le_mul_of_nonneg_right ?_ hpos.le
      exact_mod_cast le_roundHalfEven ((le_div_iff₀ hpos).mpr hhigh)

theorem nearest_zero : nearest p e 0 = 0 := nearest_of_multiple (by rw [Int.cast_zero, zero_mul])

theorem nearest_nonneg (hp : p ≠ 0) {r : ℚ} (h : 0 ≤ r) : 0 ≤ nearest p e r := le_nearest hp nearest_zero h

end

/-! ### Single precision -/

/-- The nearest number of single precision. -/
def toFloat (r : ℚ) : ℚ := nearest 24 (-149) r

/-- Integers of up to 24 places are exact. -/
theorem toFloat_intCast {n : ℤ} (h : |n| ≤ 2 ^ 24) : toFloat n = n := by
  obtain ⟨m, hm⟩ := @exists_multiple 24 (-149) (by decide) n 0 h (by decide)
  rw [zpow_zero, mul_one] at hm
  exact nearest_of_multiple hm

theorem toFloat_toFloat (r : ℚ) : toFloat (toFloat r) = toFloat r := nearest_nearest (by decide) r

theorem toFloat_nonneg {r : ℚ} (h : 0 ≤ r) : 0 ≤ toFloat r := nearest_nonneg (by decide) h

/-- A sum is not below a summand when the other is not negative. -/
theorem le_toFloat_add {t d : ℚ} (ht : toFloat t = t) (hd : 0 ≤ d) : t ≤ toFloat (t + d) :=
  le_nearest (by decide) ht (le_add_of_nonneg_right hd)

end Binary32
