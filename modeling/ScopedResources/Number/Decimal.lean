import ScopedResources.Number.Rounding

/-!
# Decimal numbers

A decimal is a sign, a natural number of digits and a power of ten. It has a nearest binary64
number, and it has one that is found in steps: the digits are rounded to binary64 first and are then
multiplied or divided by a power of ten, with one rounding each. The two agree for short decimals;
for long or very small ones the stepwise result may miss the nearest number by a few last places.
-/

namespace ScopedResources

structure Decimal where
  negative : Bool
  digits : Nat
  exponent : Int
deriving DecidableEq, Repr

namespace Decimal

/-! ## The nearest number -/

/-- The magnitude in units of `2 ^ -1074`, as numerator and denominator. -/
def unitRatio (d : Decimal) : Nat × Nat :=
  (d.digits * Nat.pow 10 d.exponent.toNat * Binary64.unitsOfOne, Nat.pow 10 (-d.exponent).toNat)

/-- The code of the magnitude nearest to the decimal; it may lie beyond the finite codes. -/
def nearestCode (d : Decimal) : Nat := Binary64.nearestCode d.unitRatio.1 d.unitRatio.2

/-! ## The number found in steps -/

/-- The largest power of ten among the binary64 numbers. -/
def topPower : Nat := 308

def powerCode (k : Nat) : Nat := nearestCode ⟨false, 1, k⟩

/-- Divides a magnitude by `10 ^ places`, by the largest power of ten as long as there are more
places than that. -/
def shrink (code places : Nat) : Nat :=
  if places ≤ topPower then Binary64.quotientCode code (powerCode places)
  else if code = 0 then 0
  else shrink (Binary64.quotientCode code (powerCode topPower)) (places - topPower)
termination_by places
decreasing_by simp only [topPower] at *; omega

/-- Multiplies a magnitude by `10 ^ places`; beyond the largest power of ten only zero stays
finite. -/
def grow (code places : Nat) : Nat :=
  if places ≤ topPower then Binary64.productCode code (powerCode places)
  else if code = 0 then 0
  else Binary64.infinityCode

/-- The code of the magnitude found in steps; it may lie beyond the finite codes. -/
def steppedCode (d : Decimal) : Nat :=
  let code := Binary64.codeOfNat d.digits
  if d.exponent < 0 then shrink code (-d.exponent).toNat else grow code d.exponent.toNat

/-- The binary64 number found in steps; none if it would be infinite. What is too small becomes a
zero of the same sign. -/
def toBinary64? (d : Decimal) : Option Binary64 :=
  if d.steppedCode < Binary64.infinityCode then some (.ofCode d.negative d.steppedCode) else none

end Decimal

/-! ## Written digits -/

def digitValue (c : Char) : Nat := c.toNat - '0'.toNat

def digitsValue (start : Nat) (ds : List Char) : Nat :=
  ds.foldl (fun n d => 10 * n + digitValue d) start

/-- Continues a number of 64 bits, of which `taken` digits have been taken, by as many digits as
fit. -/
def gather (n taken : Nat) : List Char → Nat × Nat
  | [] => (n, taken)
  | d :: ds =>
    if 10 * n + digitValue d < UInt64.size then gather (10 * n + digitValue d) (taken + 1) ds
    else (n, taken)

/-- The decimal with these digits before and behind the point, less the digits that do not fit 64
bits. Digits dropped before the point leave their places; the digits behind it are taken for as long
as they fit what has been gathered. -/
def Decimal.ofDigits (negative : Bool) (whole fraction : List Char) (power : Int) : Decimal :=
  let (n, placed) := gather 0 0 whole
  let (digits, places) := gather n 0 fraction
  { negative, digits, exponent := power + (whole.length - placed : Nat) - (places : Nat) }

end ScopedResources
