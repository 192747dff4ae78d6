import ScopedResources.Json.Reader
import ScopedResources.Json.Writer

/-!
# Types of values

The types form a tree under `object`. A property of some type takes the values of that type and of
every type below it, so a property declared as `brush` takes both kinds of brushes.
-/

namespace ScopedResources

inductive ValueType where
  | object
  | brush
  | solidBrush
  | gradientBrush
  | color
  | text
  | number
  | flag
deriving DecidableEq, Repr

namespace ValueType

def all : List ValueType :=
  [object, brush, solidBrush, gradientBrush, color, text, number, flag]

/-- The name shown, which suggested resource names start with. -/
def name : ValueType → String
  | object => "Object"
  | brush => "Brush"
  | solidBrush => "SolidBrush"
  | gradientBrush => "GradientBrush"
  | color => "Color"
  | text => "Text"
  | number => "Number"
  | flag => "Flag"

def base : ValueType → Option ValueType
  | object => none
  | solidBrush | gradientBrush => some brush
  | brush | color | text | number | flag => some object

/-- The type itself and all types above it, nearest first. No type is more than two steps below
`object`. -/
def lineage (t : ValueType) : List ValueType :=
  t :: match t.base with
    | none => []
    | some b => b :: b.base.toList

/-- A place declared as `declared` takes values of the type `actual`. -/
def isAssignableFrom (declared actual : ValueType) : Bool := actual.lineage.contains declared

theorem isAssignableFrom_self (t : ValueType) : t.isAssignableFrom t = true := by
  cases t <;> rfl

theorem isAssignableFrom_object (t : ValueType) : object.isAssignableFrom t = true := by
  cases t <;> rfl

/-- The lineage is complete: what takes the type above takes the type itself. -/
theorem isAssignableFrom_of_base {a b c : ValueType} (h : c.base = some b)
    (hab : a.isAssignableFrom b) : a.isAssignableFrom c := by
  revert h hab
  cases a <;> cases b <;> cases c <;> decide

theorem isAssignableFrom_trans {a b c : ValueType} (hab : a.isAssignableFrom b)
    (hbc : b.isAssignableFrom c) : a.isAssignableFrom c := by
  revert hab hbc
  cases a <;> cases b <;> cases c <;> decide

/-! ## JSON -/

def names : List (String × ValueType) := all.map fun t => (t.name, t)

def reader : Json.Reader ValueType := Json.readName names

def write (t : ValueType) : String := Json.quote t.name

end ValueType

end ScopedResources
