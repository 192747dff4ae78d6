import ScopedResources.Property.Basic
import ScopedResources.Registry.Edit
import ScopedResources.Target

/-!
# Values of properties

The values that have been set, each in the slot of a target's identity and a property's name. The
store mentions targets without keeping them, so values outlive their target until they are pruned.
-/

namespace ScopedResources

structure PropertyValue where
  target : Target
  property : String
  value : Value
deriving Repr

/-- Whether the value is in the slot of this target and property. -/
def PropertyValue.isAt (v : PropertyValue) (t : Target) (property : String) : Bool :=
  v.target == t && v.property == property

structure PropertyStore where
  values : List PropertyValue
deriving Repr

namespace PropertyStore

def empty : PropertyStore := ⟨[]⟩

def size (s : PropertyStore) : Nat := s.values.length

def isEmpty (s : PropertyStore) : Bool := s.values.isEmpty

def get? (s : PropertyStore) (t : Target) (p : Property) : Option Value :=
  (s.values.find? (·.isAt t p.name)).map (·.value)

def put (s : PropertyStore) (t : Target) (p : Property) (v : Value) : PropertyStore :=
  ⟨⟨t, p.name, v⟩ :: s.values.filter fun entry => !entry.isAt t p.name⟩

theorem get?_put_self (s : PropertyStore) (t : Target) (p : Property) (v : Value) :
    (s.put t p v).get? t p = some v := by
  simp [get?, put, PropertyValue.isAt]

theorem get?_put_of_ne (s : PropertyStore) {t u : Target} {p q : Property} (v : Value)
    (h : (t == u && p.name == q.name) = false) : (s.put t p v).get? u q = s.get? u q := by
  have hs (e : PropertyValue) (he : e.isAt u q.name = true) : e.isAt t p.name = false := by
    rw [Bool.eq_false_iff]
    intro ht
    simp only [PropertyValue.isAt, Bool.and_eq_true, beq_iff_eq] at he ht
    simp_all [PartialEquivBEq.trans (PartialEquivBEq.symm ht.1) he.1]
  simp only [get?, put, List.find?_cons, PropertyValue.isAt, h, List.find?_filter]
  congr 2
  funext e
  have := hs e
  simp only [PropertyValue.isAt] at this ⊢
  grind

/-- Sets a value in place if its type fits, and gives the one that was there before. -/
def setM (t : Target) (p : Property) (v : Value) : Edit PropertyStore (Option Value) := do
  let declared ← p.requireType
  if declared.isAssignableFrom v.type then
    let previous := (← get).get? t p
    modify (·.put t p v)
    return previous
  else throw (.unassignable v.type p.name declared)

/-- Sets a value, and gives the one that was there before with the new store. -/
def set (s : PropertyStore) (t : Target) (p : Property) (v : Value) :
    Except RegistryError (Option Value × PropertyStore) := (setM t p v).result s

/-- Drops the values of targets that are gone, and counts them. -/
def prune (alive : Liveness) (s : PropertyStore) : Nat × PropertyStore :=
  let kept := s.values.filter fun entry => alive entry.target
  (s.values.length - kept.length, ⟨kept⟩)

end PropertyStore

end ScopedResources
