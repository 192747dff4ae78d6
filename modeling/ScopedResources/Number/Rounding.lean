import ScopedResources.Number.Binary64

/-!
# Rounding to binary64

Every operation on magnitudes gives the exact result rounded once, a half going to the even
neighbour. A magnitude is found from a ratio of whole numbers by one exact division: the quotient by
the right power of two, rounded, is at once the significand and, added to the exponent's weight, the
code of the result.
-/

namespace ScopedResources

/-- The quotient rounded to the nearest whole number, a half to the even one. -/
def roundHalfEven (numerator denominator : Nat) : Nat :=
  let quotient := numerator / denominator
  let twice := 2 * (numerator % denominator)
  if denominator < twice ∨ (twice = denominator ∧ quotient % 2 = 1) then quotient + 1 else quotient

theorem roundHalfEven_mul (n : Nat) {d : Nat} (h : 0 < d) : roundHalfEven (n * d) d = n := by
  simp [roundHalfEven, Nat.mul_div_cancel n h]
  omega

/-- The error of rounding is at most half the denominator. -/
theorem two_mul_roundHalfEven_le (n d : Nat) : 2 * (roundHalfEven n d * d) ≤ 2 * n + d := by
  have h := Nat.div_add_mod n d
  simp only [roundHalfEven]
  split <;> grind

/-- The error of rounding is at most half the denominator. -/
theorem le_two_mul_roundHalfEven (n : Nat) {d : Nat} (hd : 0 < d) :
    2 * n ≤ 2 * (roundHalfEven n d * d) + d := by
  have h := Nat.div_add_mod n d
  have hlt := Nat.mod_lt n hd
  simp only [roundHalfEven]
  split <;> grind

theorem even_roundHalfEven_of_tie {n d : Nat} (h : 2 * (n % d) = d) :
    roundHalfEven n d % 2 = 0 := by
  simp only [roundHalfEven]
  split <;> omega

namespace Binary64

/-- The code of the magnitude nearest to `numerator / denominator` units. The scale is the least one
at which the rounded quotient has at most 53 bits; should rounding carry into bit 54, the sum is
still right, because the carry then counts as one step of the exponent. -/
def nearestCode (numerator denominator : Nat) : Nat :=
  let scale := (numerator / denominator).log2 - 52
  scale * fractionCount + roundHalfEven numerator (denominator * Nat.pow 2 scale)

def codeOfNat (n : Nat) : Nat := nearestCode (n * unitsOfOne) 1

def productCode (a b : Nat) : Nat := nearestCode (unitsOfCode a * unitsOfCode b) unitsOfOne

/-- The quotient of two finite magnitudes, of which the second is not zero. -/
def quotientCode (a b : Nat) : Nat := nearestCode (unitsOfCode a * unitsOfOne) (unitsOfCode b)

end Binary64

end ScopedResources
