import Piezo.Text.Decimal

/-!
Rounded decimals: a number written with two decimal places.

The number is taken exactly as the float holds it, a ratio of two integers, and the nearest
hundredth is written; of two equally near the even one.
-/

namespace Piezo.Text.Rounded

/-- The integer nearest to `num / den`, the even one of two. -/
def divide (num den : Nat) : Nat :=
  let floor := num / den
  let twice := 2 * (num % den)
  if den < twice ∨ (twice = den ∧ floor % 2 = 1) then floor + 1 else floor

/-- A finite float that is not negative, as numerator and denominator. -/
def ratio (x : Float32) : Nat × Nat :=
  let bits := x.toBits.toNat
  let fraction := bits % 1 <<< 23
  let exponent := bits >>> 23 % 256
  if exponent = 0 then (fraction, 1 <<< 149)
  else if 150 ≤ exponent then ((1 <<< 23 + fraction) <<< (exponent - 150), 1)
  else (1 <<< 23 + fraction, 1 <<< (150 - exponent))

/-- A finite float that is not negative, with two decimal places. -/
def hundredths (x : Float32) : String :=
  let (num, den) := ratio x
  let n := divide (num * 100) den
  Decimal.text (n / 100) ++ "." ++ Decimal.text (n % 100 / 10) ++ Decimal.text (n % 10)

/-- The quotient is within half a unit of what was divided. -/
theorem divide_bounds (num den : Nat) (h : 0 < den) :
    2 * num ≤ (2 * divide num den + 1) * den ∧ 2 * (divide num den * den) ≤ 2 * num + den := by
  have split := Nat.div_add_mod num den
  have low := Nat.mod_lt num h
  rw [Nat.mul_comm] at split
  unfold divide
  simp only
  split
  · next up =>
    have : (2 * (num / den + 1) + 1) * den = 2 * (num / den * den) + 3 * den := by
      rw [Nat.add_mul, Nat.mul_add, Nat.add_mul, Nat.mul_assoc]; omega
    have : (num / den + 1) * den = num / den * den + den := by
      rw [Nat.add_mul]; omega
    omega
  · next down =>
    have : (2 * (num / den) + 1) * den = 2 * (num / den * den) + den := by
      rw [Nat.add_mul, Nat.mul_assoc]; omega
    omega

end Piezo.Text.Rounded
