import ScopedResources.Registry.Creation

/-!
# Requests, replies and calls

Clients talk to a service in requests. Each is answered with a reply of its kind, or with an error
of the registry or of the connection. A call is what a client method does: it sends one request, or
fails before it sends any.
-/

namespace ScopedResources

inductive ServiceError where
  /-- The service takes no more requests. -/
  | closed
  /-- The service gave up the request without an answer. -/
  | dropped
  /-- The service itself failed. -/
  | failed (reason : String)
  | registry (e : RegistryError)
deriving DecidableEq, Repr

def ServiceError.message : ServiceError → String
  | closed => "Actor closed"
  | dropped => "Actor dropped response channel"
  | failed reason => "Actor task failed: " ++ reason
  | registry e => e.message

inductive Request where
  | listSources (target : Target)
  | resourcesFor (target : Target)
  | resourcesForProperty (target : Target) (property : Property)
  | checkName (target : Target) (source : Source) (name : String)
  | create (source : Source) (name : String) (value : Value)
  | createChecked (target : Target) (source : Source) (name : String) (value : Value)
      (policy : OverridePolicy)
  | prune
  | suggestName (base : String)
  | suggestNameForType (type : ValueType)
  | canCreate
deriving Repr

/-- The target that a request keeps until it has been handled. A source mentions its owner and does
not keep it. -/
def Request.target? : Request → Option Target
  | listSources target => some target
  | resourcesFor target => some target
  | resourcesForProperty target _ => some target
  | checkName target _ _ => some target
  | createChecked target _ _ _ _ => some target
  | create _ _ _ => none
  | prune => none
  | suggestName _ => none
  | suggestNameForType _ => none
  | canCreate => none

inductive Reply where
  | sources (sources : List Source)
  | resources (resources : List Resource)
  | verdict (verdict : Verdict)
  | resource (resource : Resource)
  | outcome (outcome : Outcome)
  | count (n : Nat)
  | name (name : String)
  | flag (b : Bool)
deriving Repr

abbrev Answer := Except ServiceError Reply

/-! ## Calls -/

structure Call where
  /-- The request that is sent, or why none is. -/
  request : Except RegistryError Request
  /-- A target that is kept until the call has finished, beyond the request's handling. -/
  keeps : Option Target
deriving Repr

namespace Call

/-- A call that gives its target away with the request. -/
def direct (r : Request) : Call := ⟨.ok r, none⟩

/-- A call that borrows its target for as long as it lasts. -/
def borrowing (r : Request) : Call := ⟨.ok r, r.target?⟩

/-- The sources offered for a property, which has to have a type before anything is sent. -/
def sourcesForProperty (t : Target) (p : Property) : Call :=
  ⟨p.requireType.map fun _ => .listSources t, some t⟩

def suggestNameForProperty (p : Property) : Call :=
  ⟨p.requireType.map fun declared => .suggestName declared.name, none⟩

end Call

end ScopedResources
