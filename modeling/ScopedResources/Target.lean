import Std.Data.HashSet

/-!
# Targets

A target is an inspected object. It is known by its identity; its type name is only shown. Callers
hold targets through named handles, and a target is there for as long as anyone holds it. Whoever
only mentions a target, as the sources and stores of this library do, does not keep it.
-/

namespace ScopedResources

/-- An inspected object. Identities are given out once, so two targets with one identity are one
target and have one type name. -/
structure Target where
  id : Nat
  typeName : String
deriving Repr

namespace Target

/-- Targets are equal if they are the same object. -/
instance : BEq Target where
  beq a b := a.id == b.id

instance : Hashable Target where
  hash t := hash t.id

theorem beq_eq (a b : Target) : (a == b) = (a.id == b.id) := rfl

theorem beq_iff {a b : Target} : a == b ↔ a.id = b.id := by simp [beq_eq]

instance : EquivBEq Target where
  rfl := beq_iff.2 rfl
  symm h := beq_iff.2 (beq_iff.1 h).symm
  trans h k := beq_iff.2 ((beq_iff.1 h).trans (beq_iff.1 k))

instance : LawfulHashable Target where
  hash_eq _ _ h := congrArg (@hash Nat _) (beq_iff.1 h)

def countDistinct (targets : List Target) : Nat := (Std.HashSet.ofList targets).size

end Target

/-- Which targets are still there. -/
abbrev Liveness := Target → Bool

/-- It is the identity of a target that is there or not. -/
def Liveness.Consistent (alive : Liveness) : Prop := ∀ {t u : Target}, t == u → alive t = alive u

/-- The handles that callers hold, and how many targets there have been. -/
structure Handles where
  issued : Nat
  held : List (String × Target)
deriving Repr

namespace Handles

def empty : Handles := ⟨0, []⟩

def find? (h : Handles) (name : String) : Option Target := h.held.lookup name

def release (h : Handles) (name : String) : Handles :=
  { h with held := h.held.filter fun entry => entry.1 != name }

/-- Holds a target under a name, which gives up whatever was held under it. -/
def hold (h : Handles) (name : String) (t : Target) : Handles :=
  { h.release name with held := (name, t) :: (h.release name).held }

/-- The target that the next creation makes. -/
def next (h : Handles) (typeName : String) : Target := ⟨h.issued, typeName⟩

def create (h : Handles) (name typeName : String) : Handles :=
  { h.hold name (h.next typeName) with issued := h.issued + 1 }

def holds (h : Handles) (t : Target) : Bool := h.held.any fun entry => entry.2 == t

theorem holds_iff {h : Handles} {t : Target} : h.holds t ↔ ∃ entry ∈ h.held, entry.2.id = t.id := by
  simp [holds, Target.beq_iff]

theorem holds_consistent (h : Handles) : Liveness.Consistent h.holds := by
  intro t u htu
  rw [Bool.eq_iff_iff, holds_iff, holds_iff, Target.beq_iff.1 htu]

end Handles

end ScopedResources
