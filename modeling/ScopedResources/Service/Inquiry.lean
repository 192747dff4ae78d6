import ScopedResources.Service.Request

/-!
# Inquiries

What an inspector of targets and properties asks a service for. An inquiry is one call that borrows
the target it is about. Inquiries that offer something for a property look at the property first, so
one about an event fails before anything is sent.
-/

namespace ScopedResources

inductive Inquiry where
  | canCreate
  | sources (target : Target)
  | sourcesForProperty (target : Target) (property : Property)
  | resources (target : Target)
  /-- The resources that may be assigned to the property. -/
  | resourcesForProperty (target : Target) (property : Property)
  | checkName (target : Target) (source : Source) (name : String)
  | create (source : Source) (name : String) (value : Value)
  | createChecked (target : Target) (source : Source) (name : String) (value : Value)
      (policy : OverridePolicy)
  | suggestName (base : String)
  | suggestNameForType (type : ValueType)
  | suggestNameForProperty (property : Property)
deriving Repr

namespace Inquiry

def call : Inquiry → Call
  | canCreate => .borrowing .canCreate
  | sources t => .borrowing (.listSources t)
  | sourcesForProperty t p => .sourcesForProperty t p
  | resources t => .borrowing (.resourcesFor t)
  | resourcesForProperty t p => .borrowing (.resourcesForProperty t p)
  | checkName t s name => .borrowing (.checkName t s name)
  | create s name v => .borrowing (.create s name v)
  | createChecked t s name v policy => .borrowing (.createChecked t s name v policy)
  | suggestName base => .borrowing (.suggestName base)
  | suggestNameForType type => .borrowing (.suggestNameForType type)
  | suggestNameForProperty p => .suggestNameForProperty p

end Inquiry

end ScopedResources
