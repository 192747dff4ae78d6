/-!
# Binary64 numbers

A number is kept as the 64 bits of the IEEE 754 interchange format. Without the sign, the bits of
the finite numbers count them in order of size, and every finite magnitude is a whole number of
units of `2 ^ -1074`. Rounding and printing work on these two natural numbers and never on
approximations.
-/

namespace ScopedResources

/-- A binary64 number by its bits. Numbers that compare equal may still differ here: the two zeros
do. -/
structure Binary64 where
  bits : UInt64
deriving DecidableEq, Repr

namespace Binary64

/-! ## Parts of the bits -/

def signPlace : Nat := Nat.pow 2 63

def fractionCount : Nat := Nat.pow 2 52

def infinityCode : Nat := 2047 * fractionCount

/-- The bits without the sign: the rank of the magnitude among the finite ones. -/
def code (x : Binary64) : Nat := x.bits.toNat % signPlace

def isNegative (x : Binary64) : Bool := decide (signPlace ≤ x.bits.toNat)

def isFinite (x : Binary64) : Bool := decide (x.code < infinityCode)

def isNaN (x : Binary64) : Bool := decide (infinityCode < x.code)

def ofCode (negative : Bool) (code : Nat) : Binary64 :=
  ⟨UInt64.ofNat ((if negative then signPlace else 0) + code)⟩

theorem code_lt (x : Binary64) : x.code < signPlace := Nat.mod_lt _ (Nat.two_pow_pos 63)

theorem ofCode_code (x : Binary64) : ofCode x.isNegative x.code = x := by
  have hw : x.bits.toNat < signPlace + signPlace := Nat.lt_of_lt_of_eq x.bits.toNat_lt (by decide)
  have hx : (if x.isNegative then signPlace else 0) + x.code = x.bits.toNat := by
    rw [isNegative, code]
    by_cases hs : signPlace ≤ x.bits.toNat
    · rw [decide_eq_true hs, if_pos rfl, Nat.mod_eq_sub_mod hs, Nat.mod_eq_of_lt (by omega)]
      omega
    · rw [decide_eq_false hs, if_neg Bool.false_ne_true, Nat.mod_eq_of_lt (by omega), Nat.zero_add]
  rw [ofCode, hx, UInt64.ofNat_toNat]

/-- A magnitude code leaves the sign bit free, so the bits hold both. -/
theorem toNat_bits_ofCode (negative : Bool) {c : Nat} (h : c < signPlace) :
    (ofCode negative c).bits.toNat = (if negative then signPlace else 0) + c := by
  have hw : signPlace + signPlace = 2 ^ 64 := by decide
  rw [ofCode, UInt64.toNat_ofNat', Nat.mod_eq_of_lt]
  split <;> omega

theorem code_ofCode (negative : Bool) {c : Nat} (h : c < signPlace) :
    (ofCode negative c).code = c := by
  rw [code, toNat_bits_ofCode negative h]
  cases negative
  · rw [if_neg Bool.false_ne_true, Nat.zero_add, Nat.mod_eq_of_lt h]
  · rw [if_pos rfl, Nat.add_mod_left, Nat.mod_eq_of_lt h]

theorem isNegative_ofCode (negative : Bool) {c : Nat} (h : c < signPlace) :
    (ofCode negative c).isNegative = negative := by
  rw [isNegative, toNat_bits_ofCode negative h]
  cases negative
  · exact decide_eq_false (by rw [if_neg Bool.false_ne_true]; omega)
  · exact decide_eq_true (by rw [if_pos rfl]; omega)

/-! ## Size -/

/-- The magnitude with this code, counted in units of `2 ^ -1074`. Codes below `fractionCount` have
no hidden leading bit, so they are their own size. -/
def unitsOfCode (code : Nat) : Nat :=
  if code < fractionCount then code
  else (fractionCount + code % fractionCount) * Nat.pow 2 (code / fractionCount - 1)

def unitsOfOne : Nat := Nat.pow 2 1074

def units (x : Binary64) : Nat := unitsOfCode x.code

/-- Equality of numbers: the zeros are equal and NaN equals nothing, itself included. -/
def equal (x y : Binary64) : Bool :=
  !x.isNaN && !y.isNaN && (x == y || (x.code == 0 && y.code == 0))

end Binary64

end ScopedResources
