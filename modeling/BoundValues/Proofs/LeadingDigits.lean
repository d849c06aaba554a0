import BoundValues.Proofs.Stripping

namespace BoundValues

namespace Decimal

section Rounding

variable {num den k : Nat}

/-- What lies less than half a unit away from a whole number is rounded to it. -/
theorem roundDiv_eq (low : 2 * k * den < 2 * num + den) (high : 2 * num < (2 * k + 1) * den) :
    roundDiv num den = k := by
  have positive : 0 < den := Nat.pos_of_ne_zero (by rintro rfl; simp at high)
  obtain ⟨above, below⟩ := roundDiv_near num den positive
  rcases Nat.lt_trichotomy (roundDiv num den) k with less | same | more
  · have := Nat.mul_le_mul_right den (Nat.succ_le_of_lt less)
    linarith
  · exact same
  · have := Nat.mul_le_mul_right den (Nat.succ_le_of_lt more)
    linarith

/-- A quotient that is rounded to a multiple of ten can be rounded with one digit less. -/
theorem roundDiv_of_tenfold (positive : 0 < den) (tenfold : roundDiv (num * 10) den = k * 10) :
    roundDiv num den = k := by
  obtain ⟨above, below⟩ := roundDiv_near (num * 10) den positive
  rw [tenfold] at above below
  apply roundDiv_eq <;> linarith

theorem roundDiv_near_ratio (num : Nat) (positive : 0 < den) :
    |(roundDiv num den : ℚ) - num / den| ≤ 1 / 2 := by
  have denPos : (0 : ℚ) < den := Nat.cast_pos.mpr positive
  obtain ⟨above, below⟩ : (2 * num : ℚ) ≤ (2 * roundDiv num den + 1) * den ∧
      (2 * roundDiv num den * den : ℚ) ≤ 2 * num + den := by
    exact_mod_cast roundDiv_near num den positive
  have difference : (roundDiv num den : ℚ) - num / den = (roundDiv num den * den - num) / den := by
    field_simp
  rw [difference, abs_div, abs_of_pos denPos, div_le_iff₀ denPos, abs_le]
  constructor <;> linarith

/-- A quotient rounded at some place is within half a unit of that place. -/
theorem roundDiv_scale_near (num : Nat) (positive : 0 < den) (place : Int) :
    |(roundDiv (scale num den place).1 (scale num den place).2 : ℚ) * 10 ^ (-place) - num / den| ≤
      10 ^ (-place) / 2 := by
  obtain ⟨ratio, scaledPos⟩ := scale_eq num positive place
  generalize scale num den place = scaled at ratio scaledPos
  have unitPos : (0 : ℚ) < 10 ^ (-place) := zpow_pos (by norm_num) _
  have back : (10 : ℚ) ^ place * 10 ^ (-place) = 1 := by
    rw [← zpow_add₀ (by norm_num), add_neg_cancel, zpow_zero]
  have difference : (roundDiv scaled.1 scaled.2 : ℚ) * 10 ^ (-place) - num / den =
      (roundDiv scaled.1 scaled.2 - scaled.1 / scaled.2) * 10 ^ (-place) := by
    rw [ratio, sub_mul, mul_assoc (_ / _), back, mul_one]
  calc |(roundDiv scaled.1 scaled.2 : ℚ) * 10 ^ (-place) - num / den|
    _ = |(roundDiv scaled.1 scaled.2 : ℚ) - scaled.1 / scaled.2| * 10 ^ (-place) := by
      rw [difference, abs_mul, abs_of_pos unitPos]
    _ ≤ 1 / 2 * 10 ^ (-place) :=
      mul_le_mul_of_nonneg_right (roundDiv_near_ratio scaled.1 scaledPos) unitPos.le
    _ = 10 ^ (-place) / 2 := by ring

/-- The leading digits are a rounded quotient, or a power of ten when rounding up has made that one digit
longer. -/
theorem leading_cases (count den : Nat) (nonzero : num ≠ 0) :
    let exact := scale num den (count - exponent num den)
    leading count num den = (roundDiv exact.1 exact.2, exponent num den) ∨
      roundDiv exact.1 exact.2 = tenTo (count + 1) ∧
        leading count num den = (tenTo count, exponent num den + 1) := by
  intro exact
  by_cases carried : roundDiv exact.1 exact.2 = tenTo (count + 1)
  · exact .inr ⟨carried, by simp only [leading, if_neg nonzero, exact, if_pos carried]⟩
  · exact .inl (by simp only [leading, if_neg nonzero, exact, if_neg carried])

/-- Rounded at the place of its last leading digit, a quotient comes to the leading digits. -/
theorem roundDiv_leading {count : Nat} (positive : 0 < den) (nonzero : num ≠ 0)
    (whole : (leading count num den).2 ≤ count) :
    roundDiv (num * tenTo (count - (leading count num den).2).toNat) den = (leading count num den).1 := by
  have atPower : exponent num den ≤ count →
      scale num den (count - exponent num den) = (num * tenTo (count - exponent num den).toNat, den) := by
    intro le
    rw [scale, if_pos (by omega)]
  obtain lead | ⟨carried, lead⟩ := leading_cases count den nonzero
  · rw [lead] at whole ⊢
    rw [atPower whole]
  · rw [lead] at whole ⊢
    have less : exponent num den + 1 ≤ count := whole
    have longer : (count - exponent num den).toNat = (count - (exponent num den + 1)).toNat + 1 := by
      omega
    rw [atPower (by omega), longer] at carried
    refine roundDiv_of_tenfold positive ?_
    simpa [tenTo, Nat.pow_succ, Nat.mul_assoc] using carried

/-- The leading digits are within half a unit of the last of them. -/
theorem leading_near (count num : Nat) (positive : 0 < den) :
    let lead := leading count num den
    |(lead.1 : ℚ) * 10 ^ (lead.2 - count) - num / den| ≤ 10 ^ (lead.2 - count) / 2 := by
  intro lead
  by_cases zero : num = 0
  · have nothing : lead = (0, 0) := if_pos zero
    rw [nothing, zero, Nat.cast_zero, zero_mul, zero_div, sub_zero, abs_zero]
    exact (half_pos (zpow_pos (by norm_num) _)).le
  · have near := roundDiv_scale_near num positive (count - exponent num den)
    rw [neg_sub] at near
    obtain same | ⟨carried, same⟩ := leading_cases count den zero
    · rw [show lead = _ from same]
      exact near
    · have unitPos : (0 : ℚ) < 10 ^ (exponent num den - count) := zpow_pos (by norm_num) _
      have larger : (10 : ℚ) ^ (exponent num den + 1 - count) = 10 * 10 ^ (exponent num den - count) := by
        rw [add_sub_right_comm, zpow_add₀ (by norm_num), zpow_one, mul_comm]
      have digits : ((tenTo (count + 1) : Nat) : ℚ) = tenTo count * 10 := by simp [tenTo, pow_succ]
      rw [carried, digits] at near
      rw [show lead = _ from same, larger, ← mul_assoc]
      linarith

end Rounding

section Writing

theorem isDigit_of_mem_padZeros {width n : Nat} {c : Char} (hc : c ∈ padZeros width (Text.natText n)) :
    c.isDigit = true :=
  Text.isDigit_of_mem_zeros_natText hc

theorem ofDigitChars_padZeros (width n : Nat) :
    Nat.ofDigitChars 10 (padZeros width (Text.natText n)) 0 = n := by
  rw [padZeros, Nat.ofDigitChars_append, Text.ofDigitChars_zeros, Text.natText,
    Nat.ofDigitChars_toDigits (by decide) (by decide)]

theorem le_length_padZeros (width : Nat) (cs : List Char) : width ≤ (padZeros width cs).length := by
  rw [padZeros, List.length_append, List.length_replicate]
  omega

theorem setPoint_eq {places : Nat} {digits : List Char} (short : places < digits.length) :
    setPoint places digits =
      digits.take (digits.length - places) ++ pointed (digits.drop (digits.length - places)) := by
  unfold setPoint
  split
  · rename_i none
    rw [none, Nat.sub_zero, List.take_length, List.drop_length, pointed, List.append_nil]
  · have some : digits.drop (digits.length - places) ≠ [] := by
      rw [List.ne_nil_iff_length_pos, List.length_drop]
      omega
    obtain ⟨d, ds, same⟩ := List.exists_cons_of_ne_nil some
    simp only [same, pointed]

def Signed.ofPower (power : Int) : Signed where
  sign := some (if power < 0 then .minus else .plus)
  digits := padZeros 2 (Text.natText power.natAbs)
  nonempty := List.ne_nil_of_length_pos (Nat.lt_of_lt_of_le (by decide) (le_length_padZeros 2 _))
  areDigits _ := isDigit_of_mem_padZeros

theorem Signed.number_ofPower (power : Int) : (ofPower power).number = power := by
  rw [number, factor, negative, ofPower, ofDigitChars_padZeros]
  by_cases h : power < 0
  · simp only [if_pos h, decide_true, if_true]
    omega
  · simp only [if_neg h, reduceCtorEq, Option.some.injEq, decide_false, Bool.false_eq_true, if_false]
    omega

theorem Signed.text_ofPower (power : Int) : 'e' :: (ofPower power).text = exponentText power := by
  rw [text, ofPower, exponentText]
  split <;> rfl

namespace Literal

/-- The literal of a whole number of units in the last of some places. -/
def ofUnits (negative : Bool) (places n : Nat) (exponent : Option Signed) : Literal where
  whole :=
    { sign := if negative then some .minus else none
      digits := (padZeros (places + 1) (Text.natText n)).take
        ((padZeros (places + 1) (Text.natText n)).length - places)
      nonempty := by
        have := le_length_padZeros (places + 1) (Text.natText n)
        rw [List.ne_nil_iff_length_pos, List.length_take]
        omega
      areDigits := fun _ hc => isDigit_of_mem_padZeros (List.mem_of_mem_take hc) }
  places := (padZeros (places + 1) (Text.natText n)).drop
    ((padZeros (places + 1) (Text.natText n)).length - places)
  exponent
  areDigits _ hc := isDigit_of_mem_padZeros (List.mem_of_mem_drop hc)

variable (negative : Bool) (places n : Nat) (exponent : Option Signed)

/-- A number of units is written with its point set in front of the places. -/
theorem text_ofUnits : (ofUnits negative places n exponent).text =
    withMinus negative (setPoint places (padZeros (places + 1) (Text.natText n)) ++
      (ofUnits negative places n exponent).tail) := by
  rw [setPoint_eq (le_length_padZeros (places + 1) (Text.natText n)), text, Signed.text, withMinus]
  cases negative <;> simp [ofUnits, Sign.char]

/-- The places only scale the number of units. -/
theorem value_ofUnits : (ofUnits negative places n exponent).value =
    (if negative then -1 else 1) * (n * 10 ^ ((ofUnits negative places n exponent).power - places)) := by
  have long := le_length_padZeros (places + 1) (Text.natText n)
  have digits : (ofUnits negative places n exponent).numeral.digits = n := by
    rw [numeral, ofUnits, List.take_append_drop, ofDigitChars_padZeros]
  have behind : (ofUnits negative places n exponent).places.length = places := by
    rw [ofUnits, List.length_drop]
    omega
  have factor : (ofUnits negative places n exponent).whole.factor = if negative then -1 else 1 := by
    cases negative <;> rfl
  rw [value_eq, Numeral.value, digits, numeral, behind, factor]
  cases negative <;> simp

end Literal

variable (negative : Bool) (mantissa : Nat) (power : Int)

/-- Positional notation writes the units of its last place. -/
theorem fixed_eq_text (places : Nat) : fixed places (.finite negative mantissa power) =
    (Literal.ofUnits negative places
      (roundDiv ((Format.quotient mantissa power).1 * tenTo places) (Format.quotient mantissa power).2)
      none).text := by
  rw [Literal.text_ofUnits, Literal.tail, Literal.ofUnits, Option.elim_none, List.append_nil]
  rfl

/-- Scientific notation writes the leading digits as places behind one digit. -/
theorem scientific_eq_text (places : Nat) : scientific places (.finite negative mantissa power) =
    (Literal.ofUnits negative places
      (leading places (Format.quotient mantissa power).1 (Format.quotient mantissa power).2).1
      (some (.ofPower
        (leading places (Format.quotient mantissa power).1 (Format.quotient mantissa power).2).2))).text := by
  rw [Literal.text_ofUnits, Literal.tail, Literal.ofUnits, Option.elim_some, Signed.text_ofPower]
  rfl

theorem quotient_eq_zero : (Format.quotient mantissa power).1 = 0 ↔ mantissa = 0 := by
  unfold Format.quotient
  split
  · have positive : 0 < twoTo power.toNat := Nat.pow_pos (by decide)
    rw [Nat.mul_eq_zero, or_iff_left positive.ne']
  · exact Iff.rfl

end Writing

end Decimal

namespace Template

open Decimal

variable (digits : Nat) (negative : Bool) (mantissa : Nat) (power : Int)

/-- Either notation writes the text of one literal, and then zeros are stripped. -/
theorem exists_literal :
    let count := max digits 1 - 1
    let exact := Format.quotient mantissa power
    let lead := leading count exact.1 exact.2
    ∃ t : Literal, t.text = generalText digits (.finite negative mantissa power) ∧
      t.places.getLast? ≠ some '0' ∧
      t.value = (if negative then -1 else 1) * (lead.1 * 10 ^ (lead.2 - (count : Int))) := by
  intro count exact lead
  have positive : 0 < exact.2 := (Format.quotient_eq mantissa power).2
  have zero : exact.1 = 0 ↔ mantissa = 0 := quotient_eq_zero mantissa power
  by_cases nothing : mantissa = 0
  · have lead_eq : lead = (0, 0) := if_pos (zero.mpr nothing)
    refine ⟨Literal.ofUnits false 0 0 none, ?_, by decide, ?_⟩
    · rw [generalText, if_pos nothing]
      rfl
    · rw [Literal.value_ofUnits, lead_eq]
      simp
  · have text : generalText digits (.finite negative mantissa power) =
        stripZeros (if lead.2 < -4 ∨ (count : Int) < lead.2
          then scientific count (.finite negative mantissa power)
          else fixed (count - lead.2).toNat (.finite negative mantissa power)) := if_neg nothing
    split at text
    · refine ⟨(Literal.ofUnits negative count lead.1 (some (.ofPower lead.2))).stripped, ?_,
        Literal.getLast?_stripped _, ?_⟩
      · rw [text, scientific_eq_text, stripZeros_text]
      · rw [Literal.value_stripped, Literal.value_ofUnits, Literal.power, Literal.ofUnits, Option.elim_some,
          Signed.number_ofPower]
    · rename_i positional
      have whole : lead.2 ≤ count := by omega
      have rounded : roundDiv (exact.1 * tenTo (count - lead.2).toNat) exact.2 = lead.1 :=
        roundDiv_leading positive (mt zero.mp nothing) whole
      refine ⟨(Literal.ofUnits negative (count - lead.2).toNat lead.1 none).stripped, ?_,
        Literal.getLast?_stripped _, ?_⟩
      · rw [text, fixed_eq_text, stripZeros_text, rounded]
      · have places : -((count - lead.2).toNat : Int) = lead.2 - count := by omega
        rw [Literal.value_stripped, Literal.value_ofUnits, Literal.power, Literal.ofUnits, Option.elim_none,
          zero_sub, places]

/-- What the general conversion writes of a finite number is a literal of the number rounded to as many
digits as were asked for, within half a unit of the last of them, and its places do not end with a zero. -/
theorem generalText_near :
    let count := max digits 1 - 1
    let exact := Format.quotient mantissa power
    let lead := leading count exact.1 exact.2
    ∃ t : Literal, t.text = generalText digits (.finite negative mantissa power) ∧
      t.places.getLast? ≠ some '0' ∧
      t.value = (if negative then -1 else 1) * (lead.1 * 10 ^ (lead.2 - (count : Int))) ∧
      |t.value - (if negative then -1 else 1) * (mantissa * 2 ^ power)| ≤
        10 ^ (lead.2 - (count : Int)) / 2 := by
  intro count exact lead
  obtain ⟨ratio, positive⟩ : (exact.1 : ℚ) / exact.2 = mantissa * 2 ^ power ∧ 0 < exact.2 :=
    Format.quotient_eq mantissa power
  have near : |(lead.1 : ℚ) * 10 ^ (lead.2 - (count : Int)) - mantissa * 2 ^ power| ≤
      10 ^ (lead.2 - (count : Int)) / 2 := ratio ▸ leading_near count exact.1 positive
  have unsigned : |if negative then (-1 : ℚ) else 1| = 1 := by cases negative <;> simp
  obtain ⟨t, text, noZero, value⟩ := exists_literal digits negative mantissa power
  refine ⟨t, text, noZero, value, ?_⟩
  rwa [value, ← mul_sub, abs_mul, unsigned, one_mul]

end Template

end BoundValues
