import ScopedResources.Number.Decimal

/-!
# The shortest decimal

Among the decimals whose nearest binary64 number is a given one, printing wants those with the
fewest digits, and of these the nearest. The search goes through the decimal grids from coarse to
fine and looks on each at the two points around the number; where a grid has any point that stands
for the number, one of these two does. The first grid is so coarse that its only such point is a
power of ten.
-/

namespace ScopedResources.Binary64

def decimalLength (n : Nat) : Nat := (Nat.toDigits 10 n).length

/-- The power of ten of the leading decimal digit of this many units. Shifting by 330 places makes
even one unit at least one, so the length of the whole part tells the place. -/
def leadingPlace (units : Nat) : Int :=
  (decimalLength (units * Nat.pow 10 330 / unitsOfOne) : Int) - 331

/-- The grid of multiples of `10 ^ place` around this many units: the quotient below, and the
remainder with the divisor that it was taken by. -/
structure GridPoint where
  below : Nat
  remainder : Nat
  divisor : Nat

def gridPoint (units : Nat) (place : Int) : GridPoint :=
  let numerator := units * Nat.pow 10 (-place).toNat
  let divisor := unitsOfOne * Nat.pow 10 place.toNat
  { below := numerator / divisor, remainder := numerator % divisor, divisor }

/-- The lower point is nearer, or as near and even. -/
def GridPoint.prefersBelow (g : GridPoint) : Bool :=
  decide (2 * g.remainder < g.divisor) ||
    (decide (2 * g.remainder = g.divisor) && decide (g.below % 2 = 0))

/-- The magnitude with this code is the nearest to these digits at this place. -/
def standsFor (code : Nat) (place : Int) (digits : Nat) : Bool :=
  (Decimal.mk false digits place).nearestCode == code

/-- The point of the grid at `place` that stands for the number with this code, if one does. -/
def onGrid? (code : Nat) (place : Int) : Option Nat :=
  let g := gridPoint (unitsOfCode code) place
  match standsFor code place g.below, standsFor code place (g.below + 1) with
  | true, true => some (if g.prefersBelow then g.below else g.below + 1)
  | true, false => some g.below
  | false, true => some (g.below + 1)
  | false, false => none

/-- The magnitude written out in full: a unit is `5 ^ 1074` at the place `-1074`. -/
def exactDecimal (code : Nat) : Decimal := ⟨false, unitsOfCode code * Nat.pow 5 1074, -1074⟩

/-- Looks at `grids` grids, each ten times as fine as the one before. -/
def seekDecimal (code : Nat) : Nat → Int → Decimal
  | 0, _ => exactDecimal code
  | grids + 1, place =>
    match onGrid? code place with
    | some digits => ⟨false, digits, place⟩
    | none => seekDecimal code grids (place - 1)

/-- The shortest decimal for a finite number that is not zero. Seventeen digits always tell two
binary64 numbers apart, and the first grid lies one place above the leading digit. -/
def shortest (x : Binary64) : Decimal :=
  { seekDecimal x.code 18 (leadingPlace x.units + 1) with negative := x.isNegative }

end ScopedResources.Binary64
