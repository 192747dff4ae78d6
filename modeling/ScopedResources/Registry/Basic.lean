import ScopedResources.Property.Basic
import ScopedResources.Resource
import Std.Data.HashMap

/-!
# The registry

The registry keeps a map from sources to the resources in them, and beside it the sources in the
order in which they were first used. Four built-in sources, one of each scope, are there from the
start and stay, even when empty. Listings go by the kind of the source, least specific first;
within a kind by the order of first use, and within a source by the order of creation.
-/

namespace ScopedResources

structure Registry where
  /-- What has been put into each source. -/
  groups : Std.HashMap Source (List Resource)
  /-- The sources in the order of first use. -/
  registration : List Source
  canCreate : Bool
deriving Repr

/-! ## Built-in sources -/

namespace Source

def system : Source := shared .system "System Resources"

def application : Source := shared .application "App resources"

def sharedDictionary : Source := shared .sharedDictionary "Resources.xaml"

def document : Source := shared .document "Window: <no name>"

def builtin : List Source := [system, application, sharedDictionary, document]

end Source

namespace Registry

/-! ## Growth -/

/-- Opens a source unless it is open already. -/
def register (r : Registry) (s : Source) : Registry :=
  { r with
    groups := r.groups.insertIfNew s []
    registration := if s ∈ r.groups then r.registration else r.registration ++ [s] }

def empty : Registry := Source.builtin.foldl register ⟨∅, [], true⟩

/-- Puts a resource at the end of its source, which is opened if need be. -/
def append (r : Registry) (resource : Resource) : Registry :=
  let opened := r.register resource.source
  { opened with groups := opened.groups.modify resource.source (· ++ [resource]) }

/-- Appends resources one after the other, unchecked: seeds are given, not asked for. -/
def seed (r : Registry) (resources : List Resource) : Registry := resources.foldl append r

/-- Drops the sources of targets that are gone, with their resources, and counts them. -/
def prune (alive : Liveness) (r : Registry) : Nat × Registry :=
  let kept := r.registration.filter fun s => s.isReachable alive
  (r.registration.length - kept.length,
    { r with groups := r.groups.filter fun s _ => s.isReachable alive, registration := kept })

/-! ## Size -/

def size (r : Registry) : Nat := r.groups.fold (fun n _ resources => n + resources.length) 0

def isEmpty (r : Registry) : Bool := r.size == 0

def sourceCount (r : Registry) : Nat := r.registration.length

/-! ## Listings -/

def inSource (r : Registry) (s : Source) : List Resource := r.groups.getD s []

/-- The sources in the order of listings. The sort is stable, so those of one kind stay in the order
of first use. -/
def listing (r : Registry) : List Source :=
  r.registration.mergeSort fun a b => decide (a.kind.listingRank ≤ b.kind.listingRank)

/-- The resources that a target sees; those of other targets are left out. -/
def resourcesFor (r : Registry) (t : Target) : List Resource :=
  (r.listing.filter fun s => s.isVisibleTo t).flatMap r.inSource

def resourcesOfKind (r : Registry) (k : SourceKind) : List Resource :=
  (r.registration.filter fun s => s.kind == k).flatMap r.inSource

/-- The resources that a target sees and that may be assigned to the property. -/
def resourcesForProperty (r : Registry) (t : Target) (p : Property) :
    Except RegistryError (List Resource) := do
  let declared ← p.requireType
  return (r.resourcesFor t).filter fun resource => declared.isAssignableFrom resource.type

end Registry

/-- The sources that resources for a target may be created in, least specific first. -/
def Target.sources (t : Target) : List Source := Source.builtin ++ [.ofTarget t]

def Target.sourcesForProperty (t : Target) (p : Property) : Except RegistryError (List Source) := do
  discard p.requireType
  return t.sources

end ScopedResources
