import ScopedResources.Registry.Naming

/-!
# Collisions

A name collides with itself in the same source, and shadows the same name in less specific ones. The
first makes a new resource ambiguous, the second is worth a warning.
-/

namespace ScopedResources

/-- What is known about a name in a source. -/
inductive Verdict where
  | clear
  | error (text : String)
  | warning (text : String)
deriving DecidableEq, Repr

namespace Verdict

def nameInUse : Verdict := error "Name in use"

def wouldOverride : Verdict := warning "Resource would override another resource"

def isClear : Verdict → Bool
  | clear => true
  | _ => false

def isError : Verdict → Bool
  | error _ => true
  | _ => false

def isWarning : Verdict → Bool
  | warning _ => true
  | _ => false

def message? : Verdict → Option String
  | clear => none
  | error text | warning text => some text

end Verdict

/-- Whether a warning keeps a resource from being created. -/
inductive OverridePolicy where
  | allow
  | deny
deriving DecidableEq, Repr

namespace OverridePolicy

def default : OverridePolicy := allow

def permits (p : OverridePolicy) : Verdict → Bool
  | .clear => true
  | .warning _ => p == allow
  | .error _ => false

end OverridePolicy

namespace Registry

/-- The owner of the source, if it has one, has to be there. -/
def requireOwner (alive : Liveness) (s : Source) : Except RegistryError Unit :=
  if s.isReachable alive then return () else throw (.unreachableOwner s.name)

def holdsName (r : Registry) (s : Source) (name : String) : Bool :=
  (r.inSource s).any fun resource => resource.name == name

def kindHoldsName (r : Registry) (k : SourceKind) (name : String) : Bool :=
  (r.resourcesOfKind k).any fun resource => resource.name == name

/-- The verdict on a name that may be used, in a source that is there. -/
def verdict (r : Registry) (s : Source) (name : String) : Verdict :=
  if r.holdsName s name then .nameInUse
  else if s.kind.lessSpecific.any fun k => r.kindHoldsName k name then .wouldOverride
  else .clear

/-- The verdict depends on the source and the name alone, whoever is asking. -/
def checkName (alive : Liveness) (r : Registry) (s : Source) (name : String) :
    Except RegistryError Verdict := do
  requireName name
  requireOwner alive s
  return r.verdict s name

end Registry

end ScopedResources
