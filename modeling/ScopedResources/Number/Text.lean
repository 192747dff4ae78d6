import ScopedResources.Number.Shortest

/-!
# Number texts

How the digits of a number are laid out: in place while the leading digit is between `10 ^ -5` and
`10 ^ 15`, and with an exponent beyond. A number in place always shows a decimal point.
-/

namespace ScopedResources.Binary64

/-- Decimal exponents of the leading digit that are written in place. -/
def inPlace (e : Int) : Bool := decide (-5 ≤ e) && decide (e < 16)

/-- Digits in place, the first of them having the weight `10 ^ e`. -/
def placedText (digits : List Char) (e : Int) : List Char :=
  if e < 0 then
    '0' :: '.' :: (List.replicate (-e - 1).toNat '0' ++ digits)
  else
    let whole := e.toNat + 1
    let fraction := digits.drop whole
    digits.take whole ++ List.replicate (whole - digits.length) '0' ++
      '.' :: (if fraction.isEmpty then ['0'] else fraction)

/-- Digits with an exponent, which always carries its sign. -/
def scientificText (digits : List Char) (e : Int) : List Char :=
  let mantissa := match digits with
    | first :: second :: rest => first :: '.' :: second :: rest
    | short => short
  mantissa ++ 'e' :: (if e < 0 then '-' else '+') :: Nat.toDigits 10 e.natAbs

def decimalText (d : Decimal) : List Char :=
  let digits := Nat.toDigits 10 d.digits
  let e := d.exponent + (digits.length : Int) - 1
  (if d.negative then ['-'] else []) ++
    (if inPlace e then placedText digits e else scientificText digits e)

/-- The text of a finite number. The zeros have no leading digit to place, so they are spelt out. -/
def chars (x : Binary64) : List Char :=
  if x.code = 0 then (if x.isNegative then ['-', '0', '.', '0'] else ['0', '.', '0'])
  else decimalText x.shortest

def text (x : Binary64) : String := String.ofList x.chars

end ScopedResources.Binary64
