import ScopedResources.Registry.Collision
import ScopedResources.Registry.Edit

/-!
# Creating resources

A plain creation asks only for permission, a name and a source that is there. A checked creation
also asks for the verdict on the name and goes ahead if the policy permits it. Both are edits of the
registry; for those who keep the old registry where they are refused, there are forms that give the
new one with the result.
-/

namespace ScopedResources

inductive Outcome where
  | created (resource : Resource) (warning : Option String)
  | rejected (verdict : Verdict)
deriving Repr

namespace Registry

/-- Creates a resource in place, whether or not its name collides. -/
def createM (alive : Liveness) (s : Source) (name : String) (v : Value) :
    Edit Registry Resource := do
  unless (← get).canCreate do throw .creationDisabled
  requireName name
  requireOwner alive s
  let resource : Resource := ⟨s, name, v⟩
  modify (·.append resource)
  return resource

def createCheckedM (alive : Liveness) (s : Source) (name : String) (v : Value)
    (policy : OverridePolicy) : Edit Registry Outcome := do
  let verdict ← (← get).checkName alive s name
  if policy.permits verdict then
    let resource ← createM alive s name v
    return .created resource verdict.message?
  else return .rejected verdict

/-- Creates a resource, and gives it with the registry that it is in. -/
def create (alive : Liveness) (r : Registry) (s : Source) (name : String) (v : Value) :
    Except RegistryError (Resource × Registry) := (createM alive s name v).result r

def createChecked (alive : Liveness) (r : Registry) (s : Source) (name : String) (v : Value)
    (policy : OverridePolicy) : Except RegistryError (Outcome × Registry) :=
  (createCheckedM alive s name v policy).result r

/-- Creates resources of one value under the names with these numbers, up to the first refusal. What
was created before it stays. -/
def createNumbered (alive : Liveness) (r : Registry) (s : Source) (base : String) (v : Value) :
    Nat → Nat → Option RegistryError × Registry
  | _, 0 => (none, r)
  | start, count + 1 =>
    match (createM alive s (numbered base start) v).apply r with
    | (.ok _, r) => r.createNumbered alive s base v (start + 1) count
    | (.error e, r) => (some e, r)

end Registry

end ScopedResources
