import ScopedResources.Json.Reader
import ScopedResources.Json.Writer
import ScopedResources.Target

/-!
# Sources

Every resource belongs to a source. The sources of the four scopes are shared by all targets and
known by scope and name; besides, each target has a source of its own, known by the target alone.
Sources are ranked from the most specific kind, a single object, to the least specific, the system.
-/

namespace ScopedResources

/-! ## Kinds -/

inductive SourceKind where
  | system
  | application
  | sharedDictionary
  | document
  | object
deriving DecidableEq, Repr

namespace SourceKind

/-- The order of listings: least specific first. -/
def byListing : List SourceKind := [system, application, sharedDictionary, document, object]

/-- The order of precedence: most specific first. -/
def byPriority : List SourceKind := [object, document, sharedDictionary, application, system]

def priority : SourceKind → Nat
  | object => 0
  | document => 1
  | sharedDictionary => 2
  | application => 3
  | system => 4

def listingRank (k : SourceKind) : Nat := byPriority.length - 1 - k.priority

theorem byListing_eq_reverse : byListing = byPriority.reverse := rfl

/-- Both ranks are places in their orders. -/
theorem getElem?_byPriority (k : SourceKind) : byPriority[k.priority]? = some k := by
  cases k <;> rfl

theorem getElem?_byListing (k : SourceKind) : byListing[k.listingRank]? = some k := by
  cases k <;> rfl

/-- The kinds that are less specific, nearest first. -/
def lessSpecific (k : SourceKind) : List SourceKind := byPriority.drop (k.priority + 1)

/-- The less specific kinds are those that are listed before. -/
theorem mem_lessSpecific {j k : SourceKind} :
    j ∈ k.lessSpecific ↔ j.listingRank < k.listingRank := by
  cases j <;> cases k <;> decide

def name : SourceKind → String
  | system => "System"
  | application => "Application"
  | sharedDictionary => "SharedDictionary"
  | document => "Document"
  | object => "Object"

def names : List (String × SourceKind) := byListing.map fun k => (k.name, k)

def reader : Json.Reader SourceKind := Json.readName names

def write (k : SourceKind) : String := Json.quote k.name

end SourceKind

inductive Scope where
  | system
  | application
  | sharedDictionary
  | document
deriving DecidableEq, Hashable, Repr

def Scope.kind : Scope → SourceKind
  | system => .system
  | application => .application
  | sharedDictionary => .sharedDictionary
  | document => .document

@[simp] theorem Scope.kind_inj {a b : Scope} : a.kind = b.kind ↔ a = b := by
  cases a <;> cases b <;> decide

@[simp] theorem Scope.kind_ne_object (s : Scope) : s.kind ≠ .object := by cases s <;> decide

/-! ## Sources -/

inductive Source where
  | shared (scope : Scope) (name : String)
  | ofTarget (owner : Target)
deriving Repr

inductive SourceKey where
  | shared (scope : Scope) (name : String)
  | ofTarget (owner : Nat)
deriving DecidableEq, Hashable, Repr

namespace Source

def key : Source → SourceKey
  | shared scope name => .shared scope name
  | ofTarget owner => .ofTarget owner.id

/-- Sources are equal if they have the same key. -/
instance : BEq Source where
  beq a b := a.key == b.key

instance : Hashable Source where
  hash s := hash s.key

theorem beq_eq (a b : Source) : (a == b) = (a.key == b.key) := rfl

theorem beq_iff {a b : Source} : a == b ↔ a.key = b.key := by simp [beq_eq]

instance : EquivBEq Source where
  rfl := beq_iff.2 rfl
  symm h := beq_iff.2 (beq_iff.1 h).symm
  trans h k := beq_iff.2 ((beq_iff.1 h).trans (beq_iff.1 k))

instance : LawfulHashable Source where
  hash_eq _ _ h := congrArg (@hash SourceKey _) (beq_iff.1 h)

def kind : Source → SourceKind
  | shared scope _ => scope.kind
  | ofTarget _ => .object

theorem kind_congr {a b : Source} (h : a == b) : a.kind = b.kind := by
  have := beq_iff.1 h
  cases a <;> cases b <;> simp_all [key, kind]

/-- The name shown; the source of a target goes by the target's type. -/
def name : Source → String
  | shared _ name => name
  | ofTarget owner => owner.typeName

def owner? : Source → Option Target
  | shared _ _ => none
  | ofTarget owner => some owner

/-- Shared sources are visible to all, the source of a target to that target. -/
def isVisibleTo (s : Source) (t : Target) : Bool :=
  match s.owner? with
  | none => true
  | some owner => owner == t

/-- The owner, if there is one, is still there. -/
def isReachable (alive : Liveness) (s : Source) : Bool :=
  match s.owner? with
  | none => true
  | some owner => alive owner

theorem isReachable_congr {alive : Liveness} (halive : alive.Consistent) {a b : Source}
    (h : a == b) : a.isReachable alive = b.isReachable alive := by
  have hk := beq_iff.1 h
  cases a <;> cases b <;> simp_all [key, isReachable, owner?]
  exact halive (Target.beq_iff.2 hk)

def countDistinct (sources : List Source) : Nat := (Std.HashSet.ofList sources).size

end Source

end ScopedResources
