import ScopedResources.Registry.Basic

/-!
# Names

A name may be anything that is not blank. Free names are found by numbering a base name; among one
more candidates than there are names, one is free, so the search ends.
-/

namespace ScopedResources

/-- The characters with the Unicode property `White_Space`. -/
def isWhiteSpace (c : Char) : Bool :=
  let n := c.toNat
  (0x0009 ≤ n && n ≤ 0x000D) || n == 0x0020 || n == 0x0085 || n == 0x00A0 || n == 0x1680 ||
    (0x2000 ≤ n && n ≤ 0x200A) || n == 0x2028 || n == 0x2029 || n == 0x202F || n == 0x205F ||
    n == 0x3000

theorem isWhiteSpace_of_isWhitespace {c : Char} (h : c.isWhitespace) : isWhiteSpace c := by
  simp only [Char.isWhitespace, Bool.or_eq_true, decide_eq_true_eq] at h
  rcases h with ((rfl | rfl) | rfl) | rfl <;> rfl

def isBlankName (name : String) : Bool := name.toList.all isWhiteSpace

def requireName (name : String) : Except RegistryError Unit :=
  if isBlankName name then throw .blankName else return ()

def numbered (base : String) (n : Nat) : String := base ++ String.ofList (Nat.toDigits 10 n)

/-- The first of at most `limit` candidates from the number `start` on that is not taken, or else
the candidate behind them. -/
def firstFree (taken : List String) (base : String) : Nat → Nat → Nat
  | 0, start => start
  | limit + 1, start =>
    if taken.contains (numbered base start) then firstFree taken base limit (start + 1) else start

namespace Registry

def applicationNames (r : Registry) : List String := (r.inSource .application).map (·.name)

/-- The base name with the least number, from one on, that no application resource goes by. -/
def suggestName (r : Registry) (base : String) : Except RegistryError String := do
  requireName base
  let taken := r.applicationNames
  return numbered base (firstFree taken base taken.length 1)

def suggestNameForType (r : Registry) (t : ValueType) : Except RegistryError String :=
  r.suggestName t.name

def suggestNameForProperty (r : Registry) (p : Property) : Except RegistryError String := do
  r.suggestNameForType (← p.requireType)

end Registry

end ScopedResources
