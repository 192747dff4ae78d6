import ScopedResources.Registry.Error
import ScopedResources.Value.Basic

/-!
# Properties

A property of a target has a declared type, or is an event and takes no values.
-/

namespace ScopedResources

structure Property where
  name : String
  /-- The declared type; events have none. -/
  type? : Option ValueType
deriving DecidableEq, Repr

namespace Property

/-- The declared type, which operations on values ask for. -/
def requireType (p : Property) : Except RegistryError ValueType :=
  match p.type? with
  | some declared => .ok declared
  | none => .error (.untypedProperty p.name)

def acceptsType (p : Property) (actual : ValueType) : Bool :=
  match p.type? with
  | some declared => declared.isAssignableFrom actual
  | none => false

def accepts (p : Property) (v : Value) : Bool := p.acceptsType v.type

end Property

end ScopedResources
