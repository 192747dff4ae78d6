import ScopedResources.Settings.Basic
import ScopedResources.Value.Json

/-!
# Settings in JSON

Settings are a record of which every field may be missing; they are validated once they are read.
-/

namespace ScopedResources

open Json

/-! ## Seed entries -/

structure SeedEntry.Draft where
  name : Option String
  value : Option Value

def SeedEntry.record : Record SeedEntry.Draft SeedEntry where
  fields := [
    .of "name" readString (·.name) fun s d => { d with name := some s },
    .of "value" Value.reader (·.value) fun v d => { d with value := some v }]
  blank := ⟨none, none⟩
  finish d := do return ⟨← d.name, ← d.value⟩

def SeedEntry.write (e : SeedEntry) : String :=
  writeObject [("name", quote e.name), ("value", e.value.write)]

/-! ## Settings -/

namespace Settings

/-- A capacity is a natural number of 64 bits. -/
def readCapacity : Reader UInt64 := fun room j => do
  return UInt64.ofNat (← readBelow UInt64.size room j)

structure Draft where
  channelCapacity : Option UInt64
  eventCapacity : Option UInt64
  canCreateResources : Option Bool
  includeBuiltinSeed : Option Bool
  applicationResources : Option (List SeedEntry)

def record : Record Draft Settings where
  fields := [
    .of Capacity.channel.field readCapacity (·.channelCapacity) fun n d =>
      { d with channelCapacity := some n },
    .of Capacity.event.field readCapacity (·.eventCapacity) fun n d =>
      { d with eventCapacity := some n },
    .of "can_create_resources" readBool (·.canCreateResources) fun b d =>
      { d with canCreateResources := some b },
    .of "include_builtin_seed" readBool (·.includeBuiltinSeed) fun b d =>
      { d with includeBuiltinSeed := some b },
    .of "application_resources" (readList SeedEntry.record.read) (·.applicationResources)
      fun entries d => { d with applicationResources := some entries }]
  blank := ⟨none, none, none, none, none⟩
  finish d := some {
    channelCapacity := d.channelCapacity.getD Settings.default.channelCapacity
    eventCapacity := d.eventCapacity.getD Settings.default.eventCapacity
    canCreateResources := d.canCreateResources.getD Settings.default.canCreateResources
    includeBuiltinSeed := d.includeBuiltinSeed.getD Settings.default.includeBuiltinSeed
    applicationResources := d.applicationResources.getD Settings.default.applicationResources }

def ofJson (text : String) : Except SettingsError Settings :=
  match Reader.ofText record.read text with
  | .ok s => s.validate
  | .error fault => throw (.unreadable fault)

def write (s : Settings) : String :=
  writeObject [
    (Capacity.channel.field, writeNat s.channelCapacity.toNat),
    (Capacity.event.field, writeNat s.eventCapacity.toNat),
    ("can_create_resources", writeBool s.canCreateResources),
    ("include_builtin_seed", writeBool s.includeBuiltinSeed),
    ("application_resources", writeArray (s.applicationResources.map SeedEntry.write))]

end Settings

end ScopedResources
