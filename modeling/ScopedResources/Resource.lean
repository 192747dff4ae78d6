import ScopedResources.Source
import ScopedResources.Value.Basic

/-!
# Resources

A resource is a value with a name in a source.
-/

namespace ScopedResources

structure Resource where
  source : Source
  name : String
  value : Value
deriving Repr

namespace Resource

def type (r : Resource) : ValueType := r.value.type

def equal (a b : Resource) : Bool :=
  a.source == b.source && a.name == b.name && a.value.equal b.value

def equalLists (as bs : List Resource) : Bool := agreeBy equal as bs

end Resource

end ScopedResources
