namespace BoundValues.Decimal

def twoTo (n : Nat) : Nat := Nat.pow 2 n

def tenTo (n : Nat) : Nat := Nat.pow 10 n

/-- The whole number nearest to `num / den`; of two equally near ones, the even one. -/
def roundDiv (num den : Nat) : Nat :=
  let low := num / den
  let rest := 2 * (num % den)
  if rest < den then low
  else if den < rest then low + 1
  else low + low % 2

/-- The power of ten of the first digit of `num / den`, for positive `num` and `den`. -/
def exponent (num den : Nat) : Int :=
  if den ≤ num then (Nat.toDigits 10 (num / den)).length - 1
  else -((Nat.toDigits 10 ((den - 1) / num)).length : Int)

def scale (num den : Nat) (power : Int) : Nat × Nat :=
  if 0 ≤ power then (num * tenTo power.toNat, den) else (num, den * tenTo (-power).toNat)

/-- The whole number is at most half away from the quotient. -/
theorem roundDiv_near (num den : Nat) (h : 0 < den) :
    2 * num ≤ (2 * roundDiv num den + 1) * den ∧ 2 * roundDiv num den * den ≤ 2 * num + den := by
  have split : den * (num / den) + num % den = num := Nat.div_add_mod num den
  have comm : num / den * den = den * (num / den) := Nat.mul_comm _ _
  have small : num % den < den := Nat.mod_lt _ h
  have parity : num / den % 2 = 0 ∨ num / den % 2 = 1 := by omega
  simp only [roundDiv]
  split
  · simp only [Nat.add_mul, Nat.mul_assoc, comm]
    omega
  · split
    · simp only [Nat.mul_add, Nat.add_mul, Nat.mul_assoc, comm]
      omega
    · rcases parity with hp | hp <;>
        simp only [hp, Nat.mul_add, Nat.add_mul, Nat.mul_assoc, comm] <;> omega

end BoundValues.Decimal
