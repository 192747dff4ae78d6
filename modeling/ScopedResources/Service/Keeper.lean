import ScopedResources.Service.Exchange
import ScopedResources.Service.Feed
import ScopedResources.Settings.Basic

/-!
# The registry service

The keeper owns a registry and the feed of what is created in it. For each request it goes through
the registry's operation and then acts: it answers, publishes a resource that was created, and after
a creation drops the sources of targets that are gone.
-/

namespace ScopedResources

/-! ## One request -/

/-- What a keeper does after the registry's operation. -/
inductive Act where
  | publish (resource : Resource)
  | answer (a : Answer)
  /-- Drop the sources of targets that are gone. -/
  | prune
deriving Repr

def Act.answer? : Act → Option Answer
  | answer a => some a
  | _ => none

/-- What comes of a request: the registry after its operation, and what is done then, in order. -/
structure Handling where
  registry : Registry
  acts : List Act
deriving Repr

def Handling.reply (r : Registry) (answer : Except RegistryError Reply) : Handling :=
  ⟨r, [.answer (answer.mapError .registry)]⟩

def Registry.handle (alive : Liveness) (r : Registry) : Request → Handling
  | .listSources t => .reply r (.ok (.sources t.sources))
  | .resourcesFor t => .reply r (.ok (.resources (r.resourcesFor t)))
  | .resourcesForProperty t p => .reply r ((r.resourcesForProperty t p).map .resources)
  | .checkName _ s name => .reply r ((r.checkName alive s name).map .verdict)
  | .create s name v =>
    match (createM alive s name v).apply r with
    | (.ok resource, r) => ⟨r, [.publish resource, .answer (.ok (.resource resource)), .prune]⟩
    | (.error e, r) => .reply r (.error e)
  | .createChecked _ s name v policy =>
    match (createCheckedM alive s name v policy).apply r with
    | (.ok (.created resource warning), r) =>
      ⟨r, [.publish resource, .prune, .answer (.ok (.outcome (.created resource warning)))]⟩
    | (.ok (.rejected verdict), r) => .reply r (.ok (.outcome (.rejected verdict)))
    | (.error e, r) => .reply r (.error e)
  | .prune =>
    let (n, r) := r.prune alive
    .reply r (.ok (.count n))
  | .suggestName base => .reply r ((r.suggestName base).map .name)
  | .suggestNameForType t => .reply r ((r.suggestNameForType t).map .name)
  | .canCreate => .reply r (.ok (.flag r.canCreate))

/-! ## The keeper -/

structure Keeper where
  registry : Registry
  feed : Feed Resource
deriving Repr

namespace Keeper

def act (alive : Liveness) (k : Keeper) : Act → Keeper
  | .publish resource => { k with feed := k.feed.publish resource }
  | .answer _ => k
  | .prune => { k with registry := (k.registry.prune alive).2 }

def respond : Server Keeper := fun alive request k =>
  let handling := k.registry.handle alive request
  (handling.acts.findSome? Act.answer?,
    handling.acts.foldl (act alive) { k with registry := handling.registry })

/-! ## The service -/

/-- A service over a registry that is not started yet, with its first client. -/
def service (r : Registry) (channelCapacity eventCapacity : Nat) : Exchange Keeper :=
  .idle channelCapacity ⟨r, .empty eventCapacity⟩

def ofSettings (settings : Settings) : Except SettingsError (Exchange Keeper) := do
  let settings ← settings.validate
  return (service settings.registry settings.channelCapacity.toNat
    settings.eventCapacity.toNat).start

/-- Events may still be published: whoever can send could, and so could the keeper until it has ended
or is given up. -/
def mayPublish (x : Exchange Keeper) : Bool :=
  x.line.hasSenders || (x.line.mailbox.isOpen && !x.hasEnded)

end Keeper

end ScopedResources
