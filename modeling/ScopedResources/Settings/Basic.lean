import ScopedResources.Json.Basic
import ScopedResources.Registry.Builtin

/-!
# Settings

What a registry starts with and how much room its service has. Every setting has a default.
-/

namespace ScopedResources

/-- A resource to put into the application source at the start. -/
structure SeedEntry where
  name : String
  value : Value
deriving DecidableEq, Repr

def SeedEntry.equal (a b : SeedEntry) : Bool := a.name == b.name && a.value.equal b.value

structure Settings where
  channelCapacity : UInt64
  /-- How many events are kept for a subscriber that lags behind. -/
  eventCapacity : UInt64
  canCreateResources : Bool
  includeBuiltinSeed : Bool
  /-- Appended to the application source behind the built-in resources. -/
  applicationResources : List SeedEntry
deriving DecidableEq, Repr

inductive Capacity where
  | channel
  | event
deriving DecidableEq, Repr

def Capacity.field : Capacity → String
  | channel => "channel_capacity"
  | event => "event_capacity"

inductive SettingsError where
  | unreadable (fault : Fault)
  | zeroCapacity (capacity : Capacity)
deriving DecidableEq, Repr

namespace Settings

def defaultChannelCapacity : UInt64 := 32

def defaultEventCapacity : UInt64 := 64

def default : Settings := ⟨defaultChannelCapacity, defaultEventCapacity, true, true, []⟩

def equal (a b : Settings) : Bool :=
  a.channelCapacity == b.channelCapacity && a.eventCapacity == b.eventCapacity &&
    a.canCreateResources == b.canCreateResources &&
    a.includeBuiltinSeed == b.includeBuiltinSeed &&
    agreeBy SeedEntry.equal a.applicationResources b.applicationResources

/-- Capacities have to leave room for something. -/
def validate (s : Settings) : Except SettingsError Settings :=
  if s.channelCapacity = 0 then throw (.zeroCapacity .channel)
  else if s.eventCapacity = 0 then throw (.zeroCapacity .event)
  else return s

def registry (s : Settings) : Registry :=
  let start := if s.includeBuiltinSeed then Registry.builtin else Registry.empty
  let seeds := s.applicationResources.map fun entry => ⟨.application, entry.name, entry.value⟩
  { start.seed seeds with canCreate := s.canCreateResources }

end Settings

def SettingsError.message : SettingsError → String
  | .zeroCapacity capacity => capacity.field ++ " must be greater than zero"
  | .unreadable fault => "Invalid registry configuration: " ++ match fault with
    | .malformed => "malformed text"
    | .truncated => "the text ends too early"
    | .unfit => "unexpected data"

end ScopedResources
