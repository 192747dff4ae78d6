import ScopedResources.ValueType

/-!
# Refusals

Why the registry or the property store refuses an operation.
-/

namespace ScopedResources

inductive RegistryError where
  | creationDisabled
  | blankName
  /-- The target of a source, shown by its name, is gone. -/
  | unreachableOwner (source : String)
  /-- A property that is an event has no type. -/
  | untypedProperty (property : String)
  | unassignable (actual : ValueType) (property : String) (declared : ValueType)
  /-- A refusal given by its text alone, as stand-ins for a registry give them. -/
  | stated (text : String)
deriving DecidableEq, Repr

namespace RegistryError

def reason : RegistryError → String
  | creationDisabled => "resource creation is disabled for this registry"
  | blankName => "resource name must not be empty"
  | unreachableOwner source => "target of source '" ++ source ++ "' is no longer reachable"
  | untypedProperty property => "property '" ++ property ++ "' has no underlying type"
  | unassignable actual property declared =>
    "a " ++ actual.name ++ " value cannot be assigned to '" ++ property ++ "' (" ++
      declared.name ++ ")"
  | stated text => text

def message (e : RegistryError) : String := "Invalid argument: " ++ e.reason

end RegistryError

end ScopedResources
