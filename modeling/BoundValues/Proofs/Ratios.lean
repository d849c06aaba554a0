import BoundValues.Decimal.Reading
import Mathlib.Data.Int.Log
import Mathlib.Data.Rat.Floor
import Mathlib.Tactic.FieldSimp
import Mathlib.Tactic.Linarith

namespace BoundValues

namespace Decimal

variable {num den n c : Nat}

theorem roundDiv_mul (num den : Nat) (positive : 0 < c) : roundDiv (num * c) (den * c) = roundDiv num den := by
  have less : ∀ {a b : Nat}, a * c < b * c ↔ a < b := Nat.mul_lt_mul_right positive
  simp only [roundDiv, Nat.mul_div_mul_right _ _ positive, Nat.mul_mod_mul_right, ← Nat.mul_assoc, less]

/-- A quotient times a power: of its two numbers one is multiplied, as the sign of the exponent says. -/
theorem ratio_of_power {base : Nat} (positive : 0 < base) (num : Nat) (denPos : 0 < den) (power : Int) :
    let exact := if 0 ≤ power then (num * base ^ power.toNat, den) else (num, den * base ^ (-power).toNat)
    (exact.1 : ℚ) / exact.2 = num / den * (base : ℚ) ^ power ∧ 0 < exact.2 := by
  intro exact
  by_cases natural : 0 ≤ power
  · obtain ⟨n, rfl⟩ := Int.eq_ofNat_of_zero_le natural
    refine ⟨?_, by simpa [exact] using denPos⟩
    simp only [exact, if_pos natural, Int.toNat_natCast, zpow_natCast]
    push_cast
    ring
  · obtain ⟨n, rfl⟩ := Int.exists_eq_neg_ofNat (Int.le_of_not_le natural)
    simp only [exact, if_neg natural, neg_neg, Int.toNat_natCast, zpow_neg, zpow_natCast]
    refine ⟨?_, Nat.mul_pos denPos (Nat.pow_pos positive)⟩
    push_cast
    rw [div_mul_eq_div_div, div_eq_mul_inv _ ((base : ℚ) ^ n)]

theorem scale_eq (num : Nat) (positive : 0 < den) (power : Int) :
    ((scale num den power).1 : ℚ) / (scale num den power).2 = num / den * 10 ^ power ∧
      0 < (scale num den power).2 :=
  ratio_of_power (by decide : 0 < 10) num positive power

theorem log_eq {x : ℚ} {m : Int} (low : (2 : ℚ) ^ m ≤ x) (high : x < 2 ^ (m + 1)) : Int.log 2 x = m := by
  have positive : 0 < x := lt_of_lt_of_le (zpow_pos two_pos m) low
  have le := (Int.zpow_le_iff_le_log (b := 2) (by decide) positive).mp (by exact_mod_cast low)
  have lt := (Int.lt_zpow_iff_log_lt (b := 2) (by decide) positive).mp (by exact_mod_cast high)
  omega

/-- The binary logarithm of a number counts its digits less one. -/
theorem log2_bounds (nonzero : num ≠ 0) :
    (2 : ℚ) ^ (num.log2 : Int) ≤ num ∧ (num : ℚ) < 2 ^ ((num.log2 : Int) + 1) := by
  constructor
  · exact_mod_cast Nat.log2_self_le nonzero
  · exact_mod_cast Nat.lt_log2_self

namespace Format

theorem quotient_mul (num c : Nat) (power : Int) :
    quotient (num * c) power = ((quotient num power).1 * c, (quotient num power).2) := by
  unfold quotient
  split
  · rw [Nat.mul_right_comm]
  · rfl

theorem quotient_eq (num : Nat) (power : Int) :
    ((quotient num power).1 : ℚ) / (quotient num power).2 = num * 2 ^ power ∧ 0 < (quotient num power).2 := by
  have same : quotient num power =
      if 0 ≤ power then (num * 2 ^ power.toNat, 1) else (num, 2 ^ (-power).toNat) := rfl
  have ratio := ratio_of_power (by decide : 0 < 2) num Nat.one_pos power
  simpa only [same, Nat.one_mul, Nat.cast_one, div_one, Nat.cast_ofNat] using ratio

/-- The difference of the binary logarithms is the logarithm of the quotient, or too large by one, which
a comparison finds out. -/
theorem top_eq (nonzero : num ≠ 0) (positive : 0 < den) :
    let guess : Int := num.log2 - den.log2
    let exact := quotient num (-guess)
    (if exact.1 < exact.2 * den then guess - 1 else guess) = Int.log 2 ((num : ℚ) / den) := by
  intro guess exact
  obtain ⟨value, unit⟩ : (exact.1 : ℚ) / exact.2 = num * 2 ^ (-guess) ∧ 0 < exact.2 := quotient_eq num (-guess)
  obtain ⟨numLow, numHigh⟩ := log2_bounds nonzero
  obtain ⟨denLow, denHigh⟩ := log2_bounds positive.ne'
  have numPos : (0 : ℚ) < num := Nat.cast_pos.mpr (Nat.pos_of_ne_zero nonzero)
  have denPos : (0 : ℚ) < den := Nat.cast_pos.mpr positive
  have below : exact.1 < exact.2 * den ↔ (num : ℚ) / den < 2 ^ guess := by
    have unitPos : (0 : ℚ) < exact.2 := Nat.cast_pos.mpr unit
    calc exact.1 < exact.2 * den ↔ (exact.1 : ℚ) < exact.2 * den := by exact_mod_cast Iff.rfl
      _ ↔ (exact.1 : ℚ) / exact.2 < den := (div_lt_iff₀' unitPos).symm
      _ ↔ (num : ℚ) / 2 ^ guess < den := by rw [value, zpow_neg, div_eq_mul_inv]
      _ ↔ (num : ℚ) / den < 2 ^ guess := div_lt_comm₀ (zpow_pos two_pos guess) denPos
  have least : (2 : ℚ) ^ (guess - 1) ≤ (num : ℚ) / den := by
    have split : guess - 1 = num.log2 - (den.log2 + 1) := by omega
    rw [split, zpow_sub₀ two_ne_zero]
    exact div_le_div₀ numPos.le numLow denPos denHigh.le
  have most : (num : ℚ) / den < 2 ^ (guess + 1) := by
    have split : guess + 1 = num.log2 + 1 - den.log2 := by omega
    rw [split, zpow_sub₀ two_ne_zero]
    exact div_lt_div₀ numHigh denLow (zpow_pos two_pos _).le (zpow_pos two_pos _)
  split
  · rename_i less
    exact (log_eq least (by simpa using below.mp less)).symm
  · rename_i notLess
    exact (log_eq (not_lt.mp (mt below.mpr notLess)) most).symm

/-- A common factor cancels wherever the two numbers are compared or divided. -/
theorem ofRatio_mul (f : Format) (negative : Bool) (num : Nat) (positive : 0 < den) (factor : 0 < c) :
    f.ofRatio negative (num * c) (den * c) = f.ofRatio negative num den := by
  by_cases zero : num = 0
  · simp [zero, ofRatio]
  · have same : ((num * c : Nat) : ℚ) / (den * c : Nat) = num / den := by
      push_cast
      rw [mul_div_mul_right]
      exact_mod_cast factor.ne'
    have scaled := top_eq (Nat.mul_ne_zero zero factor.ne') (Nat.mul_pos positive factor)
    have top := top_eq zero positive
    simp only at scaled top
    simp only [ofRatio, if_neg zero, if_neg (Nat.mul_ne_zero zero factor.ne'), scaled, top, same]
    rw [quotient_mul]
    simp only [← Nat.mul_assoc, roundDiv_mul _ _ factor]

/-- The nearest pattern depends on the quotient alone. -/
theorem ofRatio_congr (f : Format) (negative : Bool) {num den num' den' : Nat} (positive : 0 < den)
    (positive' : 0 < den') (same : (num : ℚ) / den = num' / den') :
    f.ofRatio negative num den = f.ofRatio negative num' den' := by
  have crossed : num * den' = num' * den := by
    rw [div_eq_div_iff (Nat.cast_pos.mpr positive).ne' (Nat.cast_pos.mpr positive').ne'] at same
    exact_mod_cast same
  calc f.ofRatio negative num den
    _ = f.ofRatio negative (num * den') (den * den') := (f.ofRatio_mul negative num positive positive').symm
    _ = f.ofRatio negative (num' * den) (den' * den) := by rw [crossed, Nat.mul_comm den]
    _ = f.ofRatio negative num' den' := f.ofRatio_mul negative num' positive' positive

end Format

namespace Numeral

def value (n : Numeral) : ℚ := n.digits * 10 ^ n.power

theorem length_toDigits_mul (nonzero : n ≠ 0) (k : Nat) :
    (Nat.toDigits 10 (n * 10 ^ k)).length = (Nat.toDigits 10 n).length + k := by
  induction k with
  | zero => simp
  | succ k ih =>
    have positive : 0 < n * 10 ^ k := Nat.mul_pos (Nat.pos_of_ne_zero nonzero) (Nat.pow_pos (by decide))
    have last := Nat.toDigits_append_toDigits (b := 10) (d := 0) (by decide) positive (by decide)
    have shift : 10 * (n * 10 ^ k) + 0 = n * 10 ^ (k + 1) := by
      rw [Nat.pow_succ, Nat.add_zero, Nat.mul_comm, Nat.mul_assoc]
    rw [← shift, ← last, List.length_append, ih, Nat.add_assoc]
    rfl

/-- Zeros at the end of the digits may be put into the power instead. -/
theorem toBits_shift (f : Format) (negative : Bool) (digits k : Nat) (power : Int) :
    toBits f negative ⟨digits * 10 ^ k, power⟩ = toBits f negative ⟨digits, power + k⟩ := by
  by_cases zero : digits = 0
  · simp [toBits, zero]
  · have size : (((Nat.toDigits 10 (digits * 10 ^ k)).length : Int) + power) =
        (Nat.toDigits 10 digits).length + (power + k) := by
      rw [length_toDigits_mul zero]
      omega
    have nonzero : digits * 10 ^ k ≠ 0 := Nat.mul_ne_zero zero (Nat.pow_pos (by decide)).ne'
    obtain ⟨left, leftPos⟩ := scale_eq (digits * 10 ^ k) Nat.one_pos power
    obtain ⟨right, rightPos⟩ := scale_eq digits Nat.one_pos (power + k)
    have ratio := f.ofRatio_congr negative leftPos rightPos (by
      rw [left, right, zpow_add₀ (by norm_num), zpow_natCast]
      push_cast
      ring)
    simp only [toBits, size, zero, nonzero, false_or, ratio]

/-- The numeral of the larger power is written out at the smaller one. -/
theorem toBits_of_le (f : Format) (negative : Bool) {a b : Numeral} (le : a.power ≤ b.power)
    (same : a.value = b.value) : toBits f negative a = toBits f negative b := by
  obtain ⟨digits, power⟩ := a
  obtain ⟨digits', power'⟩ := b
  obtain ⟨k, rfl⟩ := Int.le.dest le
  have shifted : digits = digits' * 10 ^ k := by
    have same : (digits : ℚ) * 10 ^ power = digits' * 10 ^ (power + k) := same
    rw [zpow_add₀ (by norm_num), zpow_natCast, mul_left_comm, mul_comm] at same
    have := mul_left_cancel₀ (zpow_ne_zero power (by norm_num)) same
    exact_mod_cast this
  rw [shifted, toBits_shift]

/-- The pattern of a decimal numeral depends on what it denotes. -/
theorem toBits_congr (f : Format) (negative : Bool) {a b : Numeral} (same : a.value = b.value) :
    toBits f negative a = toBits f negative b := by
  rcases Int.le_total a.power b.power with le | le
  · exact toBits_of_le f negative le same
  · exact (toBits_of_le f negative le same.symm).symm

end Numeral

end Decimal

end BoundValues
