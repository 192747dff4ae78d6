import ScopedResources.Number.Binary64
import ScopedResources.ValueType

/-!
# Values

What a resource holds: a color, a brush, a text, a number or a flag. Values are compared in two
ways. Propositional equality tells any two apart that differ in a bit; `Value.equal` compares the
numbers in them as numbers.
-/

namespace ScopedResources

structure Color where
  red : UInt8
  green : UInt8
  blue : UInt8
  alpha : UInt8
deriving DecidableEq, Repr

namespace Color

/-- The alpha of a color that hides what is behind it. -/
def opaqueAlpha : UInt8 := 255

def rgb (red green blue : UInt8) : Color := ⟨red, green, blue, opaqueAlpha⟩

end Color

structure SolidBrush where
  color : Color
deriving DecidableEq, Repr

namespace SolidBrush

def rgb (red green blue : UInt8) : SolidBrush := ⟨.rgb red green blue⟩

def rgba (red green blue alpha : UInt8) : SolidBrush := ⟨⟨red, green, blue, alpha⟩⟩

end SolidBrush

/-- A color and where along the gradient it is reached. -/
structure GradientStop where
  color : Color
  offset : Binary64
deriving DecidableEq, Repr

def GradientStop.equal (a b : GradientStop) : Bool :=
  a.color == b.color && a.offset.equal b.offset

/-- A brush that goes from color to color. -/
structure GradientBrush where
  stops : List GradientStop
deriving DecidableEq, Repr

/-- Two lists of equal length whose members agree one by one. -/
def agreeBy {α : Type} (agree : α → α → Bool) : List α → List α → Bool
  | [], [] => true
  | a :: as, b :: bs => agree a b && agreeBy agree as bs
  | _, _ => false

def GradientBrush.equal (a b : GradientBrush) : Bool := agreeBy GradientStop.equal a.stops b.stops

inductive Value where
  | color (c : Color)
  | solidBrush (b : SolidBrush)
  | gradientBrush (b : GradientBrush)
  | text (s : String)
  | number (x : Binary64)
  | flag (b : Bool)
deriving DecidableEq, Repr

namespace Value

def type : Value → ValueType
  | color _ => .color
  | solidBrush _ => .solidBrush
  | gradientBrush _ => .gradientBrush
  | text _ => .text
  | number _ => .number
  | flag _ => .flag

/-- Equality with numbers compared as numbers: the two zeros are equal and NaN equals nothing. -/
def equal : Value → Value → Bool
  | color a, color b => a == b
  | solidBrush a, solidBrush b => a == b
  | gradientBrush a, gradientBrush b => a.equal b
  | text a, text b => a == b
  | number a, number b => a.equal b
  | flag a, flag b => a == b
  | _, _ => false

end Value

end ScopedResources
