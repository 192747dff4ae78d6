import ScopedResources.Json.Record
import ScopedResources.Json.Tagged
import ScopedResources.Json.Writer
import ScopedResources.Value.Basic

/-!
# Values in JSON

Each record is read by the rules of records and written with its fields in their order. A value is
written as an object with its kind under `type` and its content under `value`.
-/

namespace ScopedResources

open Json

def readChannel : Reader UInt8 := fun room j => do
  return UInt8.ofNat (← readBelow UInt8.size room j)

def writeChannel (n : UInt8) : String := writeNat n.toNat

/-! ## Colors -/

structure Color.Draft where
  red : Option UInt8
  green : Option UInt8
  blue : Option UInt8
  alpha : Option UInt8

/-- The fields of a color; one without alpha is opaque. -/
def Color.record : Record Color.Draft Color where
  fields := [
    .of "r" readChannel (·.red) fun n d => { d with red := some n },
    .of "g" readChannel (·.green) fun n d => { d with green := some n },
    .of "b" readChannel (·.blue) fun n d => { d with blue := some n },
    .of "a" readChannel (·.alpha) fun n d => { d with alpha := some n }]
  blank := ⟨none, none, none, none⟩
  finish d := do return ⟨← d.red, ← d.green, ← d.blue, d.alpha.getD Color.opaqueAlpha⟩

def Color.write (c : Color) : String :=
  writeObject [("r", writeChannel c.red), ("g", writeChannel c.green), ("b", writeChannel c.blue),
    ("a", writeChannel c.alpha)]

/-! ## Brushes -/

structure SolidBrush.Draft where
  color : Option Color

def SolidBrush.record : Record SolidBrush.Draft SolidBrush where
  fields := [.of "color" Color.record.read (·.color) fun c d => { d with color := some c }]
  blank := ⟨none⟩
  finish d := do return ⟨← d.color⟩

def SolidBrush.write (b : SolidBrush) : String := writeObject [("color", b.color.write)]

structure GradientStop.Draft where
  color : Option Color
  offset : Option Binary64

def GradientStop.record : Record GradientStop.Draft GradientStop where
  fields := [
    .of "color" Color.record.read (·.color) fun c d => { d with color := some c },
    .of "offset" readReal (·.offset) fun x d => { d with offset := some x }]
  blank := ⟨none, none⟩
  finish d := do return ⟨← d.color, ← d.offset⟩

def GradientStop.write (s : GradientStop) : String :=
  writeObject [("color", s.color.write), ("offset", writeReal s.offset)]

structure GradientBrush.Draft where
  stops : Option (List GradientStop)

def GradientBrush.record : Record GradientBrush.Draft GradientBrush where
  fields := [.of "stops" (readList GradientStop.record.read) (·.stops) fun stops d =>
    { d with stops := some stops }]
  blank := ⟨none⟩
  finish d := do return ⟨← d.stops⟩

def GradientBrush.write (b : GradientBrush) : String :=
  writeObject [("stops", writeArray (b.stops.map GradientStop.write))]

/-! ## Values -/

namespace Value

inductive Kind where
  | color
  | solidBrush
  | gradientBrush
  | text
  | number
  | flag
deriving DecidableEq, Repr

def Kind.name : Kind → String
  | color => "color"
  | solidBrush => "solid_brush"
  | gradientBrush => "gradient_brush"
  | text => "text"
  | number => "number"
  | flag => "flag"

def Kind.all : List Kind := [color, solidBrush, gradientBrush, text, number, flag]

def kind : Value → Kind
  | color _ => .color
  | solidBrush _ => .solidBrush
  | gradientBrush _ => .gradientBrush
  | text _ => .text
  | number _ => .number
  | flag _ => .flag

def readContent : Kind → Reader Value
  | .color, room, j => (Color.record.read room j).map color
  | .solidBrush, room, j => (SolidBrush.record.read room j).map solidBrush
  | .gradientBrush, room, j => (GradientBrush.record.read room j).map gradientBrush
  | .text, room, j => (readString room j).map text
  | .number, room, j => (readReal room j).map number
  | .flag, room, j => (readBool room j).map flag

def tagged : Tagged Kind Value where
  tag := "type"
  content := "value"
  kinds := Kind.all.map fun k => (k.name, k)
  read := readContent

def reader : Reader Value := tagged.reader

def writeContent : Value → String
  | color c => c.write
  | solidBrush b => b.write
  | gradientBrush b => b.write
  | text s => quote s
  | number x => writeReal x
  | flag b => writeBool b

def write (v : Value) : String :=
  writeObject [("type", quote v.kind.name), ("value", v.writeContent)]

end Value

end ScopedResources
