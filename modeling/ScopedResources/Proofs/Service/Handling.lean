import ScopedResources.Proofs.Registry.Creation
import ScopedResources.Service.Keeper

/-! # Requests as operations

`Registry.perform` is what a request means: the registry's own operation, followed by a prune if a
resource was created. A keeper answers each request exactly once, with the answer that the operation
gives; before that it publishes the resource that was created, if one was, and nothing else. -/

namespace ScopedResources

/-- The resource that an answer reports as created. -/
def Answer.created? : Answer → Option Resource
  | .ok (.resource x) => some x
  | .ok (.outcome (.created x _)) => some x
  | _ => none

namespace Registry

/-- Goes through the operation of a request, and after a creation drops the sources of targets that
are gone. -/
def perform (alive : Liveness) (r : Registry) : Request → Answer × Registry
  | .listSources t => (.ok (.sources t.sources), r)
  | .resourcesFor t => (.ok (.resources (r.resourcesFor t)), r)
  | .resourcesForProperty t p =>
    (((r.resourcesForProperty t p).map .resources).mapError .registry, r)
  | .checkName _ s name => (((r.checkName alive s name).map .verdict).mapError .registry, r)
  | .create s name v =>
    match r.create alive s name v with
    | .ok (x, r') => (.ok (.resource x), (r'.prune alive).2)
    | .error e => (.error (.registry e), r)
  | .createChecked _ s name v policy =>
    match r.createChecked alive s name v policy with
    | .ok (.created x warning, r') => (.ok (.outcome (.created x warning)), (r'.prune alive).2)
    | .ok (.rejected verdict, r') => (.ok (.outcome (.rejected verdict)), r')
    | .error e => (.error (.registry e), r)
  | .prune => (.ok (.count (r.prune alive).1), (r.prune alive).2)
  | .suggestName base => (((r.suggestName base).map .name).mapError .registry, r)
  | .suggestNameForType t => (((r.suggestNameForType t).map .name).mapError .registry, r)
  | .canCreate => (.ok (.flag r.canCreate), r)

/-- Performs requests one after the other, each with the targets that are there at its turn. -/
def replay (r : Registry) : List (Liveness × Request) → List Answer × Registry
  | [] => ([], r)
  | (alive, request) :: rest =>
    let (a, r) := r.perform alive request
    let (as, r) := r.replay rest
    (a :: as, r)

theorem replay_append (r : Registry) (xs ys : List (Liveness × Request)) :
    r.replay (xs ++ ys) =
      ((r.replay xs).1 ++ ((r.replay xs).2.replay ys).1, ((r.replay xs).2.replay ys).2) := by
  induction xs generalizing r with
  | nil => rfl
  | cons x xs ih => simp only [List.cons_append, replay, ih]

/-! ## What a request can come to -/

/-- A request is answered as its operation answers it. One that is not answered with a resource
creates none, and changes nothing unless it asks for a prune. One that is has asked for the resource,
in a source that is there and, if it asked for a check, under a name that was not in use; the
resource is entered and published first, and the prune comes before the answer or after it. -/
theorem handle_cases (alive : Liveness) (r : Registry) (request : Request) :
    ∃ a r₁,
      a.created? = none ∧ (request = .prune ∧ r₁ = (r.prune alive).2 ∨ request ≠ .prune ∧ r₁ = r) ∧
          r.perform alive request = (a, r₁) ∧ r.handle alive request = ⟨r₁, [.answer a]⟩ ∨
        ∃ x, a.created? = some x ∧ r₁ = r.append x ∧ x.source.isReachable alive ∧
          (request = .create x.source x.name x.value ∨
            ∃ t policy, request = .createChecked t x.source x.name x.value policy ∧
              r.holdsName x.source x.name = false) ∧
          r.perform alive request = (a, (r₁.prune alive).2) ∧
          (r.handle alive request = ⟨r₁, [.publish x, .answer a, .prune]⟩ ∨
            r.handle alive request = ⟨r₁, [.publish x, .prune, .answer a]⟩) := by
  cases request with
  | create s name v =>
    dsimp only [perform, handle]
    rw [createM_eq_create]
    cases hc : r.create alive s name v with
    | ok created =>
      obtain ⟨x, r₁⟩ := created
      obtain ⟨hallowed, rfl, rfl⟩ := create_eq_ok_iff.mp hc
      exact ⟨_, _, .inr ⟨_, rfl, rfl, hallowed.2.2, .inl rfl, rfl, .inl rfl⟩⟩
    | error e => exact ⟨_, _, .inl ⟨rfl, .inr ⟨nofun, rfl⟩, rfl, rfl⟩⟩
  | createChecked t s name v policy =>
    dsimp only [perform, handle]
    rw [createCheckedM_eq_createChecked]
    cases hc : r.createChecked alive s name v policy with
    | ok outcome =>
      match outcome with
      | (.created x warning, r₁) =>
        obtain ⟨hcreate, hpermits, _⟩ := createChecked_created hc
        obtain ⟨hallowed, rfl, rfl⟩ := create_eq_ok_iff.mp hcreate
        exact ⟨_, _, .inr ⟨_, rfl, rfl, hallowed.2.2,
          .inr ⟨t, policy, rfl, holdsName_of_permits hpermits⟩, rfl, .inr rfl⟩⟩
      | (.rejected verdict, r₁) =>
        exact ⟨_, _, .inl ⟨rfl, .inr ⟨nofun, createChecked_rejected hc⟩, rfl, rfl⟩⟩
    | error e => exact ⟨_, _, .inl ⟨rfl, .inr ⟨nofun, rfl⟩, rfl, rfl⟩⟩
  | resourcesForProperty t p =>
    dsimp only [perform, handle, Handling.reply]
    cases r.resourcesForProperty t p <;> exact ⟨_, _, .inl ⟨rfl, .inr ⟨nofun, rfl⟩, rfl, rfl⟩⟩
  | checkName t s name =>
    dsimp only [perform, handle, Handling.reply]
    cases r.checkName alive s name <;> exact ⟨_, _, .inl ⟨rfl, .inr ⟨nofun, rfl⟩, rfl, rfl⟩⟩
  | suggestName base =>
    dsimp only [perform, handle, Handling.reply]
    cases r.suggestName base <;> exact ⟨_, _, .inl ⟨rfl, .inr ⟨nofun, rfl⟩, rfl, rfl⟩⟩
  | suggestNameForType t =>
    dsimp only [perform, handle, Handling.reply]
    cases r.suggestNameForType t <;> exact ⟨_, _, .inl ⟨rfl, .inr ⟨nofun, rfl⟩, rfl, rfl⟩⟩
  | listSources t => exact ⟨_, _, .inl ⟨rfl, .inr ⟨nofun, rfl⟩, rfl, rfl⟩⟩
  | resourcesFor t => exact ⟨_, _, .inl ⟨rfl, .inr ⟨nofun, rfl⟩, rfl, rfl⟩⟩
  | canCreate => exact ⟨_, _, .inl ⟨rfl, .inr ⟨nofun, rfl⟩, rfl, rfl⟩⟩
  | prune => exact ⟨_, _, .inl ⟨rfl, .inl ⟨rfl, rfl⟩, rfl, rfl⟩⟩

/-- What becomes of the registry. -/
theorem perform_cases {alive : Liveness} {r r' : Registry} {request : Request} {a : Answer}
    (h : r.perform alive request = (a, r')) :
    (a.created? = none ∧ (r' = r ∨ r' = (r.prune alive).2)) ∨
    ∃ x, a.created? = some x ∧ x.source.isReachable alive ∧ r' = ((r.append x).prune alive).2 ∧
      (request = .create x.source x.name x.value ∨
        ∃ t policy, request = .createChecked t x.source x.name x.value policy ∧
          r.holdsName x.source x.name = false) := by
  obtain ⟨b, r₁, ⟨hnone, hr, hp, _⟩ | ⟨x, hsome, rfl, hx, hrequest, hp, _⟩⟩ :=
    r.handle_cases alive request <;> cases h.symm.trans hp
  · rcases hr with ⟨_, hr⟩ | ⟨_, hr⟩
    · exact .inl ⟨hnone, .inr hr⟩
    · exact .inl ⟨hnone, .inl hr⟩
  · exact .inr ⟨x, hsome, hx, rfl, hrequest⟩

/-- Creations are answered as the registry's own operations answer them. -/
theorem perform_create_answer (alive : Liveness) (r : Registry) (s : Source) (name : String)
    (v : Value) : (r.perform alive (.create s name v)).1 =
      (((r.create alive s name v).map (·.1)).map .resource).mapError .registry := by
  dsimp only [perform]
  cases r.create alive s name v <;> rfl

theorem perform_createChecked_answer (alive : Liveness) (r : Registry) (t : Target) (s : Source)
    (name : String) (v : Value) (policy : OverridePolicy) :
    (r.perform alive (.createChecked t s name v policy)).1 =
      (((r.createChecked alive s name v policy).map (·.1)).map .outcome).mapError .registry := by
  dsimp only [perform]
  cases r.createChecked alive s name v policy with
  | error e => rfl
  | ok outcome =>
    obtain ⟨outcome, r'⟩ := outcome
    cases outcome <;> rfl

end Registry

/-! ## What others see -/

/-- What others see of a service. -/
inductive Happening where
  /-- A caller sends a request, or begins to wait until there is room for it. -/
  | sent (ticket : Ticket)
  /-- The mailbox takes the request in. -/
  | accepted (ticket : Ticket)
  /-- The request's turn comes. These are the targets that are there. -/
  | handled (ticket : Ticket) (alive : Liveness)
  | published (resource : Resource)
  | answered (ticket : Ticket) (a : Answer)

namespace Happening

def sent? : Happening → Option Ticket
  | sent ticket => some ticket
  | _ => none

def accepted? : Happening → Option Ticket
  | accepted ticket => some ticket
  | _ => none

def handled? : Happening → Option (Ticket × Liveness)
  | handled ticket alive => some (ticket, alive)
  | _ => none

def published? : Happening → Option Resource
  | published resource => some resource
  | _ => none

def answered? : Happening → Option (Ticket × Answer)
  | answered ticket a => some (ticket, a)
  | _ => none

/-- It came of handling a request. -/
def isOutcome : Happening → Bool
  | published _ | answered _ _ => true
  | _ => false

end Happening

/-- What has happened, oldest first. -/
abbrev History := List Happening

namespace History

def sent (h : History) : List Ticket := h.filterMap Happening.sent?

def accepted (h : History) : List Ticket := h.filterMap Happening.accepted?

def handled (h : History) : List (Ticket × Liveness) := h.filterMap Happening.handled?

def published (h : History) : List Resource := h.filterMap Happening.published?

def answered (h : History) : List (Ticket × Answer) := h.filterMap Happening.answered?

def outcomes (h : History) : History := h.filter Happening.isOutcome

end History

/-- What others see of an act that a request has led to. -/
def Act.happening? (ticket : Ticket) : Act → Option Happening
  | publish resource => some (.published resource)
  | answer a => some (.answered ticket a)
  | prune => none

/-- The answer, after the resource that it reports as created. -/
def Answer.happenings (ticket : Ticket) (a : Answer) : List Happening :=
  a.created?.toList.map .published ++ [.answered ticket a]

namespace History

/-- What callers add to the history: requests that they send and that are taken in. -/
theorem append_requests (h : History) (new taken : List Ticket) :
    let h' : History := h ++ (new.map .sent ++ taken.map .accepted)
    h'.sent = h.sent ++ new ∧ h'.accepted = h.accepted ++ taken ∧ h'.handled = h.handled ∧
      h'.published = h.published ∧ h'.answered = h.answered ∧ h'.outcomes = h.outcomes := by
  simp [sent, accepted, handled, published, answered, outcomes, List.filterMap_map,
    List.filter_map, Function.comp_def, Happening.sent?, Happening.accepted?, Happening.handled?,
    Happening.published?, Happening.answered?, Happening.isOutcome]

/-- What the service adds to the history: a request that it handles, and what comes of it. -/
theorem append_handled (h : History) (ticket : Ticket) (alive : Liveness) (a : Answer) :
    let h' : History := h ++ .handled ticket alive :: a.happenings ticket
    h'.sent = h.sent ∧ h'.accepted = h.accepted ∧ h'.handled = h.handled ++ [(ticket, alive)] ∧
      h'.published = h.published ++ a.created?.toList ∧
      h'.answered = h.answered ++ [(ticket, a)] ∧
      h'.outcomes = h.outcomes ++ a.happenings ticket := by
  unfold Answer.happenings
  simp only [sent, accepted, handled, published, answered, outcomes, List.filterMap_append,
    List.filter_append]
  cases a.created? <;> exact ⟨List.append_nil _, List.append_nil _, rfl, rfl, rfl, rfl⟩

end History

/-! ## Handling -/

/-- What others see of the handling of a request is settled by the answer of its operation. -/
theorem Registry.handle_acts (alive : Liveness) (r : Registry) (ticket : Ticket) :
    (r.handle alive ticket.request).acts.filterMap (Act.happening? ticket) =
      (r.perform alive ticket.request).1.happenings ticket := by
  obtain ⟨a, r₁, ⟨hc, _, hp, h⟩ | ⟨x, hc, _, _, _, hp, h | h⟩⟩ :=
    r.handle_cases alive ticket.request <;>
    rw [h, hp, Answer.happenings, hc] <;> rfl

/-- The keeper's registry goes the way of the operation, and what it publishes comes last in the
feed. -/
theorem Keeper.respond_eq (alive : Liveness) (request : Request) (k : Keeper) :
    Keeper.respond alive request k =
      (some (k.registry.perform alive request).1,
        ⟨(k.registry.perform alive request).2,
          (k.registry.perform alive request).1.created?.toList.foldl Feed.publish k.feed⟩) := by
  obtain ⟨a, r₁, ⟨hc, _, hp, h⟩ | ⟨x, hc, _, _, _, hp, h | h⟩⟩ :=
    k.registry.handle_cases alive request <;>
    rw [Keeper.respond, h, hp, hc] <;> rfl

end ScopedResources
