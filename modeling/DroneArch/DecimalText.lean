import Mathlib.Algebra.Order.Field.Rat
import Mathlib.Data.List.DropRight
import Mathlib.Tactic.FieldSimp
import Mathlib.Tactic.NormNum
import Mathlib.Tactic.Ring
import DroneArch.Numerals

/-! # Decimal numerals

A decimal is a sign, a digit string and the position of the decimal point.  Its text has the point
in its place, or after the first digit and an exponent.

* `strtod_repr`: reading the text of a decimal gives its value.
* `strtod_intRepr`: the same for an integer.
* `mem_repr`: the characters of the text. -/

namespace DecimalText

/-! ### Digit strings -/

/-- The digits as a natural number, times a power of ten. -/
def number (digits : List Char) (e : ℤ) : ℚ := Nat.ofDigitChars 10 digits 0 * (10 : ℚ) ^ e

theorem isDigit_toDigits (n : ℕ) : ∀ c ∈ Nat.toDigits 10 n, c.isDigit = true :=
  fun _ h => Nat.isDigit_of_mem_toDigits (by omega) (by omega) h

theorem isDigit_zeros (n : ℕ) : ∀ c ∈ List.replicate n '0', c.isDigit = true := by
  intro c hc
  rw [List.eq_of_mem_replicate hc]
  rfl

/-- Zeros in front do not count. -/
theorem number_zeros_append (n : ℕ) (digits : List Char) (e : ℤ) :
    number (List.replicate n '0' ++ digits) e = number digits e := by
  unfold number
  rw [Nat.ofDigitChars_append, Nat.ofDigitChars_replicate_zero, Nat.mul_zero]

/-- Zeros at the end shift the number. -/
theorem number_append_zeros (digits : List Char) (n : ℕ) (e : ℤ) :
    number (digits ++ List.replicate n '0') e = number digits (e + n) := by
  unfold number
  rw [Nat.ofDigitChars_append, Nat.ofDigitChars_replicate_zero, zpow_add₀ (by norm_num), zpow_natCast]
  push_cast
  ring

/-! ### Decimals -/

/-- The number `± 0.digits * 10 ^ decpt`. -/
structure Decimal where
  neg : Bool
  digits : List Char
  decpt : ℤ
  digits_ne_nil : digits ≠ []
  isDigit : ∀ c ∈ digits, c.isDigit = true

namespace Decimal

/-- The sign. -/
def sign (d : Decimal) : ℚ := if d.neg then -1 else 1

/-- The number that the decimal stands for. -/
def value (d : Decimal) : ℚ := d.sign * number d.digits (d.decpt - d.digits.length)

/-- The decimal of `m * 10 ^ e`. -/
def ofInt (m e : ℤ) : Decimal where
  neg := decide (m < 0)
  digits := Nat.toDigits 10 m.natAbs
  decpt := (Nat.toDigits 10 m.natAbs).length + e
  digits_ne_nil := Nat.toDigits_ne_nil
  isDigit := fun _ hc => Nat.isDigit_of_mem_toDigits (by omega) (by omega) hc

theorem sign_mul_natAbs (m e : ℤ) : (ofInt m e).sign * (m.natAbs : ℚ) = m := by
  unfold sign ofInt
  by_cases hm : m < 0
  · have hcast : (m.natAbs : ℤ) = -m := by omega
    have hrat : (m.natAbs : ℚ) = ((-m : ℤ) : ℚ) := by rw [← hcast, Int.cast_natCast]
    simp only [hm, decide_true, if_true, hrat]
    push_cast
    ring
  · have hcast : (m.natAbs : ℤ) = m := by omega
    simp only [hm, decide_false, Bool.false_eq_true, if_false, one_mul]
    rw [← Int.cast_natCast, hcast]

theorem value_ofInt (m e : ℤ) : (ofInt m e).value = m * (10 : ℚ) ^ e := by
  have hexp : (ofInt m e).decpt - (ofInt m e).digits.length = e := by
    dsimp only [ofInt]
    omega
  unfold value number
  rw [hexp, ← mul_assoc, ← sign_mul_natAbs m e]
  congr 2
  exact congrArg Nat.cast Nat.ofDigitChars_ten_toDigits

/-- The decimal without the zeros at the end of its digits. -/
def strip (d : Decimal) : Decimal :=
  if h : d.digits.rdropWhile (fun c => c = '0') = [] then d
  else
    { d with
      digits := d.digits.rdropWhile (fun c => c = '0')
      digits_ne_nil := h
      isDigit := fun c hc => d.isDigit c ((List.rdropWhile_prefix _ _).subset hc) }

theorem value_strip (d : Decimal) : d.strip.value = d.value := by
  unfold strip
  split
  · rfl
  · obtain ⟨n, hn⟩ : ∃ n, d.digits = d.digits.rdropWhile (fun c => c = '0') ++ List.replicate n '0' := by
      refine ⟨(d.digits.rtakeWhile (fun c => c = '0')).length, ?_⟩
      have hzeros : d.digits.rtakeWhile (fun c => c = '0') =
          List.replicate (d.digits.rtakeWhile (fun c => c = '0')).length '0' := by
        rw [List.eq_replicate_iff]
        exact ⟨rfl, fun c hc => by simpa using List.mem_rtakeWhile_imp hc⟩
      rw [← hzeros, List.rdropWhile_append_rtakeWhile]
    have hlen := congrArg List.length hn
    rw [List.length_append, List.length_replicate] at hlen
    unfold value
    congr 1
    conv_rhs => rw [hn, number_append_zeros]
    congr 1
    rw [← hn]
    dsimp only
    omega

end Decimal

/-! ### Reading -/

/-- A signed integer. -/
def readInt : List Char → ℤ
  | '-' :: s => -(Nat.ofDigitChars 10 (s.takeWhile Char.isDigit) 0 : ℤ)
  | '+' :: s => Nat.ofDigitChars 10 (s.takeWhile Char.isDigit) 0
  | s => Nat.ofDigitChars 10 (s.takeWhile Char.isDigit) 0

theorem readInt_neg (s : List Char) :
    readInt ('-' :: s) = -(Nat.ofDigitChars 10 (s.takeWhile Char.isDigit) 0 : ℤ) := rfl

theorem readInt_pos (s : List Char) :
    readInt ('+' :: s) = (Nat.ofDigitChars 10 (s.takeWhile Char.isDigit) 0 : ℤ) := rfl

/-- The exponent, which may be left out. -/
def readExponent : List Char → ℤ
  | 'e' :: s => readInt s
  | 'E' :: s => readInt s
  | _ => 0

/-- A numeral without a sign. -/
def readUnsigned (s : List Char) : ℚ :=
  match s.dropWhile Char.isDigit with
  | '.' :: rest =>
      number (s.takeWhile Char.isDigit ++ rest.takeWhile Char.isDigit)
        (readExponent (rest.dropWhile Char.isDigit) - (rest.takeWhile Char.isDigit).length)
  | rest => number (s.takeWhile Char.isDigit) (readExponent rest)

/-- The value of the longest decimal numeral at the front, 0 when there is none. -/
def strtod : List Char → ℚ
  | '-' :: s => -readUnsigned s
  | '+' :: s => readUnsigned s
  | s => readUnsigned s

/-- There is a numeral without a sign at the front. -/
def startsUnsigned : List Char → Bool
  | '.' :: s => s.head?.any Char.isDigit
  | s => s.head?.any Char.isDigit

/-- There is a numeral at the front. -/
def startsNumeral : List Char → Bool
  | '-' :: s => startsUnsigned s
  | '+' :: s => startsUnsigned s
  | s => startsUnsigned s

/-- The text after the digits does not start with a digit. -/
def NoDigit (rest : List Char) : Prop := ∀ c ∈ rest.head?, c.isDigit = false

theorem noDigit_nil : NoDigit [] := by
  intro c hc
  cases hc

theorem span_digits {digits rest : List Char} (hd : ∀ c ∈ digits, c.isDigit = true) (hr : NoDigit rest) :
    (digits ++ rest).takeWhile Char.isDigit = digits ∧ (digits ++ rest).dropWhile Char.isDigit = rest := by
  rw [List.takeWhile_append_of_pos hd, List.dropWhile_append_of_pos hd]
  cases rest with
  | nil => simp
  | cons c rest =>
      have hc : c.isDigit = false := hr c rfl
      rw [List.takeWhile_cons_of_neg (by simp [hc]), List.dropWhile_cons_of_neg (by simp [hc]), List.append_nil]
      exact ⟨rfl, rfl⟩

theorem readUnsigned_point {whole frac rest : List Char} (hw : ∀ c ∈ whole, c.isDigit = true)
    (hf : ∀ c ∈ frac, c.isDigit = true) (hr : NoDigit rest) :
    readUnsigned (whole ++ '.' :: (frac ++ rest)) = number (whole ++ frac) (readExponent rest - frac.length) := by
  have hpoint : NoDigit ('.' :: (frac ++ rest)) := by
    intro c hc
    cases hc
    rfl
  obtain ⟨htake, hdrop⟩ := span_digits hw hpoint
  obtain ⟨htake', hdrop'⟩ := span_digits hf hr
  unfold readUnsigned
  rw [htake, hdrop]
  change number (whole ++ (frac ++ rest).takeWhile Char.isDigit)
    (readExponent ((frac ++ rest).dropWhile Char.isDigit) - ((frac ++ rest).takeWhile Char.isDigit).length) = _
  rw [htake', hdrop']

/-- A text without an exponent. -/
theorem readUnsigned_plain {whole frac : List Char} (hw : ∀ c ∈ whole, c.isDigit = true)
    (hf : ∀ c ∈ frac, c.isDigit = true) : readUnsigned (whole ++ '.' :: frac) = number (whole ++ frac) (-frac.length) := by
  have h := readUnsigned_point hw hf noDigit_nil
  have hnone : readExponent [] = 0 := rfl
  rwa [List.append_nil, hnone, zero_sub] at h

/-- A text without a point. -/
theorem readUnsigned_digits {digits : List Char} (hd : ∀ c ∈ digits, c.isDigit = true) :
    readUnsigned digits = number digits 0 := by
  obtain ⟨htake, hdrop⟩ := span_digits hd noDigit_nil
  rw [List.append_nil] at htake hdrop
  unfold readUnsigned
  rw [htake, hdrop]
  rfl

theorem readUnsigned_nonneg (s : List Char) : 0 ≤ readUnsigned s := by
  have hnumber : ∀ digits e, 0 ≤ number digits e :=
    fun _ _ => mul_nonneg (Nat.cast_nonneg _) (zpow_nonneg (by norm_num) _)
  unfold readUnsigned
  split
  · exact hnumber _ _
  · exact hnumber _ _

theorem readUnsigned_exponent {whole rest : List Char} (hw : ∀ c ∈ whole, c.isDigit = true) :
    readUnsigned (whole ++ 'e' :: rest) = number whole (readInt rest) := by
  have he : NoDigit ('e' :: rest) := by
    intro c hc
    cases hc
    rfl
  obtain ⟨htake, hdrop⟩ := span_digits hw he
  unfold readUnsigned
  rw [htake, hdrop]
  rfl

/-! ### Writing -/

/-- The text with the point in its place. -/
def fixed (digits : List Char) (decpt : ℤ) : List Char :=
  if decpt ≤ 0 then '0' :: '.' :: (List.replicate (-decpt).toNat '0' ++ digits)
  else if decpt < digits.length then digits.take decpt.toNat ++ '.' :: digits.drop decpt.toNat
  else digits ++ List.replicate (decpt.toNat - digits.length) '0' ++ ['.', '0']

/-- The digits of an exponent, at least two of them. -/
def exponentDigits (n : ℕ) : List Char := if n < 10 then '0' :: Nat.toDigits 10 n else Nat.toDigits 10 n

/-- An exponent with its sign. -/
def exponent (e : ℤ) : List Char := (if e < 0 then '-' else '+') :: exponentDigits e.natAbs

/-- The text with the point after the first digit. -/
def scientific (digits : List Char) (decpt : ℤ) : List Char :=
  digits.take 1 ++ (if digits.length = 1 then [] else '.' :: digits.drop 1) ++ 'e' :: exponent (decpt - 1)

/-- `repr` of a floating-point number with these digits, in Python. -/
def Decimal.repr (d : Decimal) : List Char :=
  (if d.neg then ['-'] else []) ++
    if d.decpt ≤ -4 ∨ 16 < d.decpt then scientific d.digits d.decpt else fixed d.digits d.decpt

theorem isDigit_exponentDigits (n : ℕ) : ∀ c ∈ exponentDigits n, c.isDigit = true := by
  intro c hc
  unfold exponentDigits at hc
  split at hc
  · obtain rfl | hc := List.mem_cons.mp hc
    · rfl
    · exact isDigit_toDigits n c hc
  · exact isDigit_toDigits n c hc

theorem ofDigitChars_exponentDigits (n : ℕ) : Nat.ofDigitChars 10 (exponentDigits n) 0 = n := by
  unfold exponentDigits
  split
  · exact Nat.ofDigitChars_ten_toDigits
  · exact Nat.ofDigitChars_ten_toDigits

theorem readInt_exponent (e : ℤ) : readInt (exponent e) = e := by
  have hall : (exponentDigits e.natAbs).takeWhile Char.isDigit = exponentDigits e.natAbs := by
    rw [List.takeWhile_eq_self_iff]
    exact isDigit_exponentDigits _
  unfold exponent
  by_cases he : e < 0
  · rw [if_pos he, readInt_neg, hall, ofDigitChars_exponentDigits]
    omega
  · rw [if_neg he, readInt_pos, hall, ofDigitChars_exponentDigits]
    omega

theorem readUnsigned_fixed {digits : List Char} (hd : ∀ c ∈ digits, c.isDigit = true) (decpt : ℤ) :
    readUnsigned (fixed digits decpt) = number digits (decpt - digits.length) := by
  unfold fixed
  split
  · have hfrac : ∀ c ∈ List.replicate (-decpt).toNat '0' ++ digits, c.isDigit = true := by
      intro c hc
      rw [List.mem_append] at hc
      exact hc.elim (isDigit_zeros _ c) (hd c)
    refine (readUnsigned_plain (isDigit_zeros 1) hfrac).trans ?_
    rw [number_zeros_append, number_zeros_append, List.length_append, List.length_replicate]
    congr 1
    omega
  · split
    · have htake : ∀ c ∈ digits.take decpt.toNat, c.isDigit = true := fun c hc => hd c (List.mem_of_mem_take hc)
      have hdrop : ∀ c ∈ digits.drop decpt.toNat, c.isDigit = true := fun c hc => hd c (List.mem_of_mem_drop hc)
      rw [readUnsigned_plain htake hdrop, List.take_append_drop, List.length_drop]
      congr 1
      omega
    · have hwhole : ∀ c ∈ digits ++ List.replicate (decpt.toNat - digits.length) '0', c.isDigit = true := by
        intro c hc
        rw [List.mem_append] at hc
        exact hc.elim (hd c) (isDigit_zeros _ c)
      refine (readUnsigned_plain hwhole (isDigit_zeros 1)).trans ?_
      rw [number_append_zeros, number_append_zeros, List.length_replicate]
      congr 1
      omega

theorem readUnsigned_scientific {digits : List Char} (hne : digits ≠ []) (hd : ∀ c ∈ digits, c.isDigit = true)
    (decpt : ℤ) : readUnsigned (scientific digits decpt) = number digits (decpt - digits.length) := by
  have hpos : 0 < digits.length := List.length_pos_iff.mpr hne
  have htake : ∀ c ∈ digits.take 1, c.isDigit = true := fun c hc => hd c (List.mem_of_mem_take hc)
  unfold scientific
  by_cases hone : digits.length = 1
  · rw [if_pos hone, List.append_nil, readUnsigned_exponent htake, readInt_exponent, hone,
      List.take_of_length_le hone.le]
    rfl
  · have he : NoDigit ('e' :: exponent (decpt - 1)) := by
      intro c hc
      cases hc
      rfl
    have hread : readExponent ('e' :: exponent (decpt - 1)) = decpt - 1 := readInt_exponent _
    rw [if_neg hone, List.append_assoc, List.cons_append,
      readUnsigned_point htake (fun c hc => hd c (List.mem_of_mem_drop hc)) he, List.take_append_drop, hread,
      List.length_drop]
    congr 1
    omega

/-- A text that starts with a digit has no sign. -/
theorem strtod_of_isDigit {s : List Char} (h : ∀ c ∈ s.head?, c.isDigit = true) : strtod s = readUnsigned s := by
  unfold strtod
  split
  · exact absurd (h '-' rfl) (by decide)
  · exact absurd (h '+' rfl) (by decide)
  · rfl

theorem head?_fixed {digits : List Char} (hne : digits ≠ []) (hd : ∀ c ∈ digits, c.isDigit = true) (decpt : ℤ) :
    ∀ c ∈ (fixed digits decpt).head?, c.isDigit = true := by
  obtain ⟨c₀, digits, rfl⟩ := List.exists_cons_of_ne_nil hne
  intro c hc
  unfold fixed at hc
  split at hc
  · cases hc
    rfl
  · split at hc
    · obtain ⟨n, hn⟩ : ∃ n, decpt.toNat = n + 1 := ⟨decpt.toNat - 1, by omega⟩
      rw [hn] at hc
      cases hc
      exact hd c₀ List.mem_cons_self
    · cases hc
      exact hd c₀ List.mem_cons_self

theorem head?_scientific {digits : List Char} (hne : digits ≠ []) (hd : ∀ c ∈ digits, c.isDigit = true)
    (decpt : ℤ) : ∀ c ∈ (scientific digits decpt).head?, c.isDigit = true := by
  obtain ⟨c₀, digits, rfl⟩ := List.exists_cons_of_ne_nil hne
  intro c hc
  cases hc
  exact hd c₀ List.mem_cons_self

/-- **Round trip.**  Reading the text of a decimal gives its value. -/
theorem strtod_repr (d : Decimal) : strtod d.repr = d.value := by
  have hunsigned : ∀ s, s = (if d.decpt ≤ -4 ∨ 16 < d.decpt then scientific d.digits d.decpt
      else fixed d.digits d.decpt) → strtod s = number d.digits (d.decpt - d.digits.length) ∧
      readUnsigned s = number d.digits (d.decpt - d.digits.length) := by
    rintro s rfl
    split
    · rw [strtod_of_isDigit (head?_scientific d.digits_ne_nil d.isDigit _)]
      exact ⟨readUnsigned_scientific d.digits_ne_nil d.isDigit _, readUnsigned_scientific d.digits_ne_nil d.isDigit _⟩
    · rw [strtod_of_isDigit (head?_fixed d.digits_ne_nil d.isDigit _)]
      exact ⟨readUnsigned_fixed d.isDigit _, readUnsigned_fixed d.isDigit _⟩
  obtain ⟨hplain, hread⟩ := hunsigned _ rfl
  unfold Decimal.repr Decimal.value Decimal.sign
  by_cases hneg : d.neg = true
  · rw [if_pos hneg, if_pos hneg, ← hread, neg_one_mul]
    rfl
  · rw [if_neg hneg, if_neg hneg, one_mul]
    exact hplain

/-! ### Integers -/

/-- `str` of an integer in Python. -/
def intRepr (n : ℤ) : List Char := (if n < 0 then ['-'] else []) ++ Nat.toDigits 10 n.natAbs

/-- **Round trip.**  Reading the text of an integer gives the integer. -/
theorem strtod_intRepr (n : ℤ) : strtod (intRepr n) = n := by
  have hread : readUnsigned (Nat.toDigits 10 n.natAbs) = n.natAbs := by
    rw [readUnsigned_digits (isDigit_toDigits _), number, Nat.ofDigitChars_ten_toDigits, zpow_zero, mul_one]
  unfold intRepr
  by_cases hn : n < 0
  · have hcast : (n.natAbs : ℤ) = -n := by omega
    rw [if_pos hn]
    calc -readUnsigned (Nat.toDigits 10 n.natAbs) = -((n.natAbs : ℤ) : ℚ) := by rw [hread, Int.cast_natCast]
      _ = n := by rw [hcast, Int.cast_neg, neg_neg]
  · have hcast : (n.natAbs : ℤ) = n := by omega
    have hhead : ∀ c ∈ (Nat.toDigits 10 n.natAbs).head?, c.isDigit = true :=
      fun c hc => isDigit_toDigits _ c (List.mem_of_mem_head? hc)
    rw [if_neg hn, List.nil_append, strtod_of_isDigit hhead, hread, ← Int.cast_natCast, hcast]

/-! ### The front of a text -/

/-- A digit at the front, or a minus in front of it, starts a numeral. -/
theorem startsNumeral_sign {s : List Char} (p : Prop) [Decidable p] (hne : s ≠ [])
    (h : ∀ c ∈ s.head?, c.isDigit = true) : startsNumeral ((if p then ['-'] else []) ++ s) = true := by
  obtain ⟨c, s, rfl⟩ := List.exists_cons_of_ne_nil hne
  have hc : c.isDigit = true := h c rfl
  have hunsigned : startsUnsigned (c :: s) = true := by
    unfold startsUnsigned
    split
    · next heq =>
        cases heq
        exact absurd hc (by decide)
    · exact hc
  split
  · exact hunsigned
  · unfold startsNumeral
    rw [List.nil_append]
    split
    · next heq =>
        cases heq
        exact absurd hc (by decide)
    · next heq =>
        cases heq
        exact absurd hc (by decide)
    · exact hunsigned

theorem fixed_ne_nil (digits : List Char) (decpt : ℤ) : fixed digits decpt ≠ [] := by
  unfold fixed
  split
  · simp
  · split <;> simp

theorem scientific_ne_nil (digits : List Char) (decpt : ℤ) : scientific digits decpt ≠ [] := by
  unfold scientific
  simp

theorem startsNumeral_repr (d : Decimal) : startsNumeral d.repr = true := by
  unfold Decimal.repr
  by_cases hexp : d.decpt ≤ -4 ∨ 16 < d.decpt
  · rw [if_pos hexp]
    exact startsNumeral_sign _ (scientific_ne_nil _ _) (head?_scientific d.digits_ne_nil d.isDigit _)
  · rw [if_neg hexp]
    exact startsNumeral_sign _ (fixed_ne_nil _ _) (head?_fixed d.digits_ne_nil d.isDigit _)

theorem startsNumeral_intRepr (n : ℤ) : startsNumeral (intRepr n) = true :=
  startsNumeral_sign _ Nat.toDigits_ne_nil (fun c hc => isDigit_toDigits _ c (List.mem_of_mem_head? hc))

/-! ### Characters -/

/-- A character of a numeral. -/
def IsNumeral (c : Char) : Prop := c.isDigit = true ∨ c = '-' ∨ c = '+' ∨ c = '.' ∨ c = 'e'

theorem isNumeral_zeros {n : ℕ} {c : Char} (h : c ∈ List.replicate n '0') : IsNumeral c :=
  Or.inl (isDigit_zeros n c h)

theorem mem_fixed {digits : List Char} (hd : ∀ c ∈ digits, c.isDigit = true) (decpt : ℤ) :
    ∀ c ∈ fixed digits decpt, IsNumeral c := by
  have hd' : ∀ c ∈ digits, IsNumeral c := fun c hc => Or.inl (hd c hc)
  intro c hc
  unfold fixed at hc
  split at hc
  · simp only [List.mem_cons, List.mem_append] at hc
    obtain rfl | rfl | hc | hc := hc
    · exact Or.inl rfl
    · simp [IsNumeral]
    · exact isNumeral_zeros hc
    · exact hd' c hc
  · split at hc
    · simp only [List.mem_cons, List.mem_append] at hc
      obtain hc | rfl | hc := hc
      · exact hd' c (List.mem_of_mem_take hc)
      · simp [IsNumeral]
      · exact hd' c (List.mem_of_mem_drop hc)
    · simp only [List.mem_cons, List.mem_append, List.not_mem_nil, or_false] at hc
      obtain (hc | hc) | rfl | rfl := hc
      · exact hd' c hc
      · exact isNumeral_zeros hc
      · simp [IsNumeral]
      · exact Or.inl rfl

theorem mem_exponent (e : ℤ) : ∀ c ∈ exponent e, IsNumeral c := by
  intro c hc
  unfold exponent at hc
  obtain rfl | hc := List.mem_cons.mp hc
  · by_cases he : e < 0 <;> simp [IsNumeral, he]
  · exact Or.inl (isDigit_exponentDigits _ c hc)

theorem mem_scientific {digits : List Char} (hd : ∀ c ∈ digits, c.isDigit = true) (decpt : ℤ) :
    ∀ c ∈ scientific digits decpt, IsNumeral c := by
  have hd' : ∀ c ∈ digits, IsNumeral c := fun c hc => Or.inl (hd c hc)
  intro c hc
  unfold scientific at hc
  simp only [List.mem_cons, List.mem_append] at hc
  obtain (hc | hc) | rfl | hc := hc
  · exact hd' c (List.mem_of_mem_take hc)
  · split at hc
    · cases hc
    · obtain rfl | hc := List.mem_cons.mp hc
      · simp [IsNumeral]
      · exact hd' c (List.mem_of_mem_drop hc)
  · simp [IsNumeral]
  · exact mem_exponent _ c hc

theorem mem_repr (d : Decimal) : ∀ c ∈ d.repr, IsNumeral c := by
  intro c hc
  unfold Decimal.repr at hc
  rw [List.mem_append] at hc
  obtain hc | hc := hc
  · split at hc
    · rw [List.mem_singleton] at hc
      exact Or.inr (Or.inl hc)
    · cases hc
  · split at hc
    · exact mem_scientific d.isDigit _ c hc
    · exact mem_fixed d.isDigit _ c hc

theorem repr_ne_nil (d : Decimal) : d.repr ≠ [] := by
  unfold Decimal.repr
  rw [Ne, List.append_eq_nil_iff, not_and]
  intro _
  split
  · exact scientific_ne_nil _ _
  · exact fixed_ne_nil _ _

theorem mem_intRepr (n : ℤ) : ∀ c ∈ intRepr n, IsNumeral c := by
  intro c hc
  unfold intRepr at hc
  rw [List.mem_append] at hc
  obtain hc | hc := hc
  · split at hc
    · exact Or.inr (Or.inl (List.mem_singleton.mp hc))
    · cases hc
  · exact Or.inl (isDigit_toDigits _ c hc)

example : (Decimal.ofInt (-503) (-1)).repr = ['-', '5', '0', '.', '3'] := by decide

example : (Decimal.ofInt 15 (-7)).repr = ['1', '.', '5', 'e', '-', '0', '6'] := by decide

end DecimalText
