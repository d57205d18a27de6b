import Mathlib.Algebra.Order.Field.Power
import Mathlib.Data.Int.Log
import Mathlib.Data.Rat.Floor
import Mathlib.Tactic.Linarith
import Mathlib.Tactic.Positivity
import DroneArch.DecimalText

/-! # Doubles and their decimals

A double is a rational number that rounding to 53 binary digits leaves unchanged.  It is printed
with the fewest decimal digits that round to it.  There are no infinities here and one zero.

* `toDouble_toDouble`: rounding gives a double.
* `atof_str`: reading the text of a double gives the double. -/

namespace Binary64

open DecimalText

/-! ### Rounding to an integer -/

/-- The nearest integer, the even one of two. -/
def roundHalfEven (r : ℚ) : ℤ :=
  if r - ⌊r⌋ < 1 / 2 then ⌊r⌋
  else if 1 / 2 < r - ⌊r⌋ then ⌊r⌋ + 1
  else if ⌊r⌋ % 2 = 0 then ⌊r⌋ else ⌊r⌋ + 1

theorem roundHalfEven_intCast (m : ℤ) : roundHalfEven m = m := by
  unfold roundHalfEven
  rw [Int.floor_intCast, sub_self, if_pos (by norm_num)]

theorem abs_roundHalfEven_sub_le (r : ℚ) : |(roundHalfEven r : ℚ) - r| ≤ 1 / 2 := by
  have hlo := Int.floor_le r
  have hhi := Int.lt_floor_add_one r
  unfold roundHalfEven
  rw [abs_le]
  split_ifs <;> push_cast <;> constructor <;> linarith

theorem abs_roundHalfEven_le {r : ℚ} {n : ℤ} (h : |r| ≤ n) : |roundHalfEven r| ≤ n := by
  have herr := abs_roundHalfEven_sub_le r
  have habs : |(roundHalfEven r : ℚ)| < n + 1 := by
    have htri := abs_sub_abs_le_abs_sub (roundHalfEven r : ℚ) r
    linarith
  rw [← Int.cast_abs] at habs
  have : |roundHalfEven r| < n + 1 := by exact_mod_cast habs
  omega

/-! ### Doubles -/

/-- The exponent of the last place of the doubles around `r`. -/
def lastPlace (r : ℚ) : ℤ := max (Int.log 2 |r| - 52) (-1074)

/-- The nearest double. -/
def toDouble (r : ℚ) : ℚ := roundHalfEven (r / 2 ^ lastPlace r) * 2 ^ lastPlace r

theorem toDouble_of_multiple {x : ℚ} {m : ℤ} (h : x = m * 2 ^ lastPlace x) : toDouble x = x := by
  have hpos : (2 : ℚ) ^ lastPlace x ≠ 0 := by positivity
  have hquot : x / 2 ^ lastPlace x = m := by
    rw [div_eq_iff hpos]
    exact h
  unfold toDouble
  rw [hquot, roundHalfEven_intCast]
  exact h.symm

/-- A number below a power of two has that many places before the last one. -/
theorem abs_le_places (r : ℚ) : |r / 2 ^ lastPlace r| ≤ ((2 ^ 53 : ℤ) : ℚ) := by
  have hpos : (0 : ℚ) < 2 ^ lastPlace r := by positivity
  have hlog : |r| < (2 : ℚ) ^ (Int.log 2 |r| + 1) := Int.lt_zpow_succ_log_self (by decide) _
  have hexp : Int.log 2 |r| + 1 ≤ 53 + lastPlace r := by
    unfold lastPlace
    omega
  rw [abs_div, abs_of_pos hpos, div_le_iff₀ hpos]
  calc |r| ≤ (2 : ℚ) ^ (Int.log 2 |r| + 1) := hlog.le
    _ ≤ (2 : ℚ) ^ (53 + lastPlace r) := zpow_le_zpow_right₀ (by norm_num) hexp
    _ = ((2 ^ 53 : ℤ) : ℚ) * 2 ^ lastPlace r := by
      rw [zpow_add₀ (by norm_num)]
      norm_num

/-- A number with few binary places is a multiple of its own last place. -/
theorem exists_multiple {n e : ℤ} (hn : |n| ≤ 2 ^ 53) (he : -1074 ≤ e) :
    ∃ m : ℤ, (n : ℚ) * 2 ^ e = m * 2 ^ lastPlace ((n : ℚ) * 2 ^ e) := by
  generalize hx : (n : ℚ) * 2 ^ e = x
  by_cases hle : lastPlace x ≤ e
  · refine ⟨n * 2 ^ (e - lastPlace x).toNat, ?_⟩
    have hsplit : (2 : ℚ) ^ e = 2 ^ (e - lastPlace x).toNat * 2 ^ lastPlace x := by
      rw [← zpow_natCast, ← zpow_add₀ (by norm_num)]
      congr 1
      omega
    calc x = (n : ℚ) * (2 ^ (e - lastPlace x).toNat * 2 ^ lastPlace x) := by rw [← hsplit, hx]
      _ = ((n * 2 ^ (e - lastPlace x).toNat : ℤ) : ℚ) * 2 ^ lastPlace x := by
        push_cast
        ring
  · by_cases hzero : x = 0
    · exact ⟨0, by rw [hzero]; simp⟩
    · have hlog : Int.log 2 |x| = 52 + lastPlace x := by
        unfold lastPlace at hle ⊢
        omega
      have hlow : (2 : ℚ) ^ Int.log 2 |x| ≤ |x| := Int.zpow_log_le_self (by decide) (abs_pos.mpr hzero)
      have hcast : |(n : ℚ)| ≤ 2 ^ 53 := by exact_mod_cast hn
      have hhigh : |x| ≤ (2 : ℚ) ^ Int.log 2 |x| := by
        calc |x| = |(n : ℚ)| * 2 ^ e := by rw [← hx, abs_mul, abs_of_pos (by positivity : (0 : ℚ) < 2 ^ e)]
          _ ≤ 2 ^ 53 * 2 ^ e := by gcongr
          _ = 2 ^ (53 + e) := by rw [zpow_add₀ (by norm_num)]; norm_num
          _ ≤ 2 ^ Int.log 2 |x| := zpow_le_zpow_right₀ (by norm_num) (by omega)
      have habs : |x| = 2 ^ 52 * 2 ^ lastPlace x := by
        rw [le_antisymm hhigh hlow, hlog, zpow_add₀ (by norm_num)]
        norm_num
      obtain hpos | hneg := eq_or_eq_neg_of_abs_eq habs
      · exact ⟨2 ^ 52, by push_cast; exact hpos⟩
      · exact ⟨-2 ^ 52, by push_cast; linarith⟩

/-- **Rounding.**  Rounding gives a double. -/
theorem toDouble_toDouble (r : ℚ) : toDouble (toDouble r) = toDouble r := by
  have hplaces : |roundHalfEven (r / 2 ^ lastPlace r)| ≤ 2 ^ 53 := abs_roundHalfEven_le (abs_le_places r)
  obtain ⟨m, hm⟩ := exists_multiple hplaces (le_max_right _ _)
  exact toDouble_of_multiple hm

/-- Only numbers below half of the last place round to zero. -/
theorem abs_le_of_toDouble_eq_zero {r : ℚ} (h : toDouble r = 0) : |r| ≤ 2 ^ (-1075 : ℤ) := by
  have hpos : (0 : ℚ) < 2 ^ lastPlace r := by positivity
  have hround : roundHalfEven (r / 2 ^ lastPlace r) = 0 := by
    unfold toDouble at h
    obtain hzero | hzero := mul_eq_zero.mp h
    · exact_mod_cast hzero
    · exact absurd hzero hpos.ne'
  have hhalf : |r| ≤ 1 / 2 * 2 ^ lastPlace r := by
    have herr := abs_roundHalfEven_sub_le (r / 2 ^ lastPlace r)
    rwa [hround, Int.cast_zero, zero_sub, abs_neg, abs_div, abs_of_pos hpos, div_le_iff₀ hpos] at herr
  have hshift : (1 : ℚ) / 2 * 2 ^ lastPlace r = 2 ^ (lastPlace r - 1) := by
    rw [zpow_sub_one₀ (by norm_num)]
    ring
  rw [hshift] at hhalf
  obtain hlast | hlast : lastPlace r = -1074 ∨ lastPlace r = Int.log 2 |r| - 52 := by
    unfold lastPlace
    omega
  · rwa [hlast] at hhalf
  · by_cases hr : r = 0
    · rw [hr, abs_zero]
      positivity
    · have hlow : (2 : ℚ) ^ Int.log 2 |r| ≤ |r| := Int.zpow_log_le_self (by decide) (abs_pos.mpr hr)
      have hlt : (2 : ℚ) ^ (lastPlace r - 1) < 2 ^ Int.log 2 |r| :=
        zpow_lt_zpow_right₀ (by norm_num) (by omega)
      linarith

theorem toDouble_zero : toDouble 0 = 0 := by
  unfold toDouble
  rw [zero_div, ← Int.cast_zero, roundHalfEven_intCast, Int.cast_zero, zero_mul]

theorem toDouble_intCast_eq_zero {n : ℤ} : toDouble n = 0 ↔ n = 0 := by
  refine ⟨fun h => ?_, ?_⟩
  · have hle : |(n : ℚ)| ≤ 2 ^ (-1075 : ℤ) := abs_le_of_toDouble_eq_zero h
    have hlt : (2 : ℚ) ^ (-1075 : ℤ) < 2 ^ (0 : ℤ) := zpow_lt_zpow_right₀ (by norm_num) (by decide)
    have habs : |(n : ℚ)| < 1 := lt_of_le_of_lt hle (by rwa [zpow_zero] at hlt)
    rw [← Int.cast_abs] at habs
    exact Int.abs_lt_one_iff.mp (by exact_mod_cast habs)
  · rintro rfl
    rw [Int.cast_zero, toDouble_zero]

/-- The doubles; both zeros are one value. -/
abbrev Double := {x : ℚ // toDouble x = x}

/-- The nearest double. -/
def Double.nearest (r : ℚ) : Double := ⟨toDouble r, toDouble_toDouble r⟩

/-- `round(x, ndigits)` in Python. -/
def Double.round (x : Double) (ndigits : ℕ) : Double :=
  Double.nearest (roundHalfEven (x * 10 ^ ndigits) / 10 ^ ndigits)

/-! ### Shortest decimals -/

/-- The places after the point of a decimal with `n + 1` digits. -/
def places (x : ℚ) (n : ℕ) : ℤ := n - Int.log 10 |x|

/-- The decimal with `n + 1` digits that rounds to `x`, the closer one of two. -/
def decimal? (x : ℚ) (n : ℕ) : Option ℤ :=
  [roundHalfEven (x * 10 ^ places x n),
    2 * ⌊x * 10 ^ places x n⌋ + 1 - roundHalfEven (x * 10 ^ places x n)].find?
      (fun m => decide (toDouble (m * 10 ^ (-places x n)) = x))

/-- A multiple of a power of two has finitely many decimal places. -/
theorem exists_int (n : ℤ) {e k : ℤ} (hk : 0 ≤ k) (hke : 0 ≤ e + k) : ∃ m : ℤ, (n : ℚ) * 2 ^ e * 10 ^ k = m := by
  refine ⟨n * 2 ^ (e + k).toNat * 5 ^ k.toNat, ?_⟩
  have htwo : ((2 : ℚ) ^ (e + k).toNat) = 2 ^ e * 2 ^ k := by
    rw [← zpow_natCast, ← zpow_add₀ (by norm_num)]
    congr 1
    omega
  have hten : (10 : ℚ) ^ k = 2 ^ k * 5 ^ k.toNat := by
    rw [← zpow_natCast, Int.toNat_of_nonneg hk, ← mul_zpow]
    norm_num
  push_cast
  rw [htwo, hten]
  ring

/-- With enough digits the decimal is exact. -/
theorem exists_decimal (x : Double) : ∃ n, (decimal? x n).isSome = true := by
  obtain ⟨x, hx⟩ := x
  have hlast : -1074 ≤ lastPlace x := le_max_right _ _
  refine ⟨(max (-lastPlace x) 0 + Int.log 10 |x|).toNat, ?_⟩
  generalize hk : places x (max (-lastPlace x) 0 + Int.log 10 |x|).toNat = k
  have hle : 0 ≤ k ∧ 0 ≤ lastPlace x + k := by
    unfold places at hk
    omega
  obtain ⟨m, hm⟩ := exists_int (roundHalfEven (x / 2 ^ lastPlace x)) hle.1 hle.2
  have hexact : x * 10 ^ k = m := by
    rw [← hm]
    congr 1
    exact hx.symm
  have hback : (m : ℚ) * 10 ^ (-k) = x := by
    rw [← hexact, mul_assoc, ← zpow_add₀ (by norm_num), add_neg_cancel, zpow_zero, mul_one]
  unfold decimal?
  rw [hk, List.find?_isSome]
  refine ⟨m, ?_, ?_⟩
  · rw [hexact, roundHalfEven_intCast]
    exact List.mem_cons_self
  · rw [hback]
    simpa using hx

/-- The digits of `repr`. -/
def shortest (x : Double) : Decimal :=
  (Decimal.ofInt ((decimal? x (Nat.find (exists_decimal x))).get (Nat.find_spec (exists_decimal x)))
    (-places x (Nat.find (exists_decimal x)))).strip

theorem toDouble_value_shortest (x : Double) : toDouble (shortest x).value = x := by
  have hsome := Option.some_get (Nat.find_spec (exists_decimal x))
  unfold shortest
  rw [Decimal.value_strip, Decimal.value_ofInt]
  have := List.find?_some hsome.symm
  simpa using this

theorem value_shortest_zero : (shortest ⟨0, toDouble_zero⟩).value = 0 := by decide +kernel

/-- Only zero is printed as zero. -/
theorem value_shortest_eq_zero (x : Double) : (shortest x).value = 0 ↔ (x : ℚ) = 0 := by
  refine ⟨fun h => ?_, fun h => ?_⟩
  · rw [← toDouble_value_shortest, h, toDouble_zero]
  · obtain ⟨x, hx⟩ := x
    subst h
    exact value_shortest_zero

/-- `str` of a float in Python. -/
def str (x : Double) : List Char := (shortest x).repr

/-- `atof`. -/
def atof (s : List Char) : ℚ := toDouble (strtod s)

/-- **Round trip.**  Reading the text of a double gives the double. -/
theorem atof_str (x : Double) : atof (str x) = x := by
  unfold atof str
  rw [strtod_repr, toDouble_value_shortest]

end Binary64
