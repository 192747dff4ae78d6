import ScopedResources.Proofs.Registry.Pruning
import ScopedResources.Proofs.Service.ChangeLog
import ScopedResources.Proofs.Service.Holders

/-! # Upkeep of the registry

Each time a resource is created, and whenever someone asks for it, a service drops the sources of
targets that are gone, and at no other time does it drop anything. As nothing is registered in between,
a source whose target is gone belongs to a target that was still held at the last prune: what is left
over is at most what has died since. -/

namespace ScopedResources

/-! ## When a prune happens -/

/-- Handling the request, with this answer, drops the sources of targets that are gone. -/
def Request.prunes (request : Request) (a : Answer) : Bool :=
  match request with
  | create _ _ _ => a.created?.isSome
  | createChecked _ _ _ _ _ => a.created?.isSome
  | prune => true
  | _ => false

/-- What becomes of the registry: what was created is entered, and then it is pruned if at all. -/
theorem Registry.eq_of_perform {alive : Liveness} {r r' : Registry} {request : Request} {a : Answer}
    (h : r.perform alive request = (a, r')) :
    r' = if request.prunes a then ((r.seed a.created?.toList).prune alive).2 else r := by
  obtain ⟨b, r₁, ⟨hnone, hr, hp, _⟩ | ⟨x, hsome, rfl, _, hrequest, hp, _⟩⟩ :=
    r.handle_cases alive request <;> cases h.symm.trans hp
  · rcases hr with ⟨rfl, rfl⟩ | ⟨hprune, rfl⟩
    · rw [hnone]
      rfl
    · have hkeeps : request.prunes a = false := by
        cases request with
        | prune => exact absurd rfl hprune
        | create _ _ _ | createChecked _ _ _ _ _ => exact congrArg Option.isSome hnone
        | listSources _ | resourcesFor _ | resourcesForProperty _ _ | checkName _ _ _
        | suggestName _ | suggestNameForType _ | canCreate => rfl
      rw [hkeeps]
      rfl
  · have hprunes : request.prunes a := by
      rcases hrequest with hrequest | ⟨t, policy, hrequest, _⟩ <;>
        exact hrequest ▸ congrArg Option.isSome hsome
    rw [if_pos hprunes, hsome]
    rfl

/-- A request drops no source that can be reached. -/
theorem Registry.keeps_of_perform {alive : Liveness} (halive : alive.Consistent) {r r' : Registry}
    {request : Request} {a : Answer} (h : r.perform alive request = (a, r')) {source : Source}
    (hs : source ∈ r.registration) (hreachable : source.isReachable alive) : r.Keeps r' source := by
  rw [eq_of_perform h]
  split
  · have hseed := keeps_seed hs a.created?.toList
    exact hseed.trans (keeps_prune halive hseed.1 hreachable)
  · exact keeps_refl hs

namespace History

/-- The targets that were there at each prune. -/
def prunes (h : History) : List Liveness :=
  (h.handled.zip h.answered).filterMap fun (handled, answered) =>
    if handled.1.request.prunes answered.2 then some handled.2 else none

theorem prunes_requests (h : History) (new taken : List Ticket) :
    History.prunes (h ++ (new.map .sent ++ taken.map .accepted)) = h.prunes := by
  obtain ⟨_, _, hhandled, _, hanswered, _⟩ := h.append_requests new taken
  rw [prunes, hhandled, hanswered, prunes]

theorem prunes_handled {h : History} (haligned : h.answered.map (·.1) = h.handled.map (·.1))
    (ticket : Ticket) (alive : Liveness) (a : Answer) :
    History.prunes (h ++ .handled ticket alive :: a.happenings ticket) =
      h.prunes ++ if ticket.request.prunes a then [alive] else [] := by
  obtain ⟨_, _, hhandled, _, hanswered, _⟩ := h.append_handled ticket alive a
  have hlength : h.handled.length = h.answered.length := by
    simpa using (congrArg List.length haligned).symm
  rw [prunes, hhandled, hanswered, List.zip_append hlength, List.filterMap_append, prunes]
  congr 1
  cases hp : ticket.request.prunes a <;> simp [hp]

end History

namespace Service

variable {s : Service} {first : Liveness}

/-! ## What is left over -/

/-- Every source that is registered could be reached at the last prune, or at the beginning if there
has been none. -/
def Swept (first : Liveness) (s : Service) : Prop :=
  ∀ source ∈ s.registry.registration, source.isReachable (s.history.prunes.getLastD first)

theorem Swept.step (h : s.Swept first) (ha : Accounted s.line s.history) (m : Move) :
    (s.step m).Swept first := by
  rcases s.step_cases m with ⟨hserver, new, taken, hhistory⟩ |
    ⟨ticket, a, r, _, hperform, hserver, hhistory⟩
  · -- Nothing has been registered, and nothing has been pruned.
    have hregistry : (s.step m).registry = s.registry := congrArg Keeper.registry hserver
    rw [Swept, hregistry, hhistory, History.prunes_requests]
    exact h
  · have hregistry : (s.step m).registry = r := congrArg Keeper.registry hserver
    rw [Swept, hregistry, hhistory, History.prunes_handled ha.answered,
      Registry.eq_of_perform hperform]
    cases ticket.request.prunes a with
    | true =>
      -- What the prune has kept could be reached just then.
      rw [if_pos rfl, if_pos rfl, List.getLastD_concat]
      exact fun source hs => (List.mem_filter.mp hs).2
    | false =>
      rw [if_neg Bool.false_ne_true, if_neg Bool.false_ne_true, List.append_nil]
      exact h

theorem run_swept (ha : Accounted s.line s.history) (h : s.Swept first) (moves : List Move) :
    (s.run moves).Swept first :=
  (run_induction (P := fun s => Accounted s.line s.history ∧ s.Swept first) moves
    (fun _ m _ ⟨ha, h⟩ => ⟨step_accounted ha m, h.step ha m⟩) ⟨ha, h⟩).2

/-! ## What stays -/

/-- Whatever is registered has been made. -/
theorem Recorded.isKnown {base log : Log} (hr : s.Recorded base log) {source : Source}
    (hs : source ∈ s.registry.registration) : source.isKnown s.handles := by
  have hregistered : log.sources.contains source := by
    rw [← hr.reflects.registration]
    exact List.contains_iff_exists_mem_beq.mpr ⟨source, hs, BEq.rfl⟩
  rcases Log.mem_sources.mp hregistered with hbuiltin | ⟨x, hx, hxs⟩
  · obtain ⟨shared, hshared, hs⟩ := List.contains_iff_exists_mem_beq.mp hbuiltin
    rw [Source.isKnown_congr hs]
    simp only [Source.builtin, List.mem_cons, List.not_mem_nil, or_false] at hshared
    rcases hshared with rfl | rfl | rfl | rfl <;> rfl
  · rw [← Source.isKnown_congr hxs]
    exact hr.known x (hr.sublist.subset hx)

theorem keeps_step (m : Move) {source : Source} (hs : source ∈ s.registry.registration)
    (hreachable : source.isReachable s.alive) : s.registry.Keeps (s.step m).registry source := by
  rcases s.step_cases m with ⟨hserver, _⟩ | ⟨ticket, a, r, _, hperform, hserver, _⟩
  · rw [show (s.step m).registry = s.registry from congrArg Keeper.registry hserver]
    exact Registry.keeps_refl hs
  · rw [show (s.step m).registry = r from congrArg Keeper.registry hserver]
    exact Registry.keeps_of_perform s.alive_consistent hperform hs hreachable

/-- A source stays registered for as long as it can be reached. -/
theorem keeps_run (ha : Accounted s.line s.history) {source : Source}
    (hknown : source.isKnown s.handles) (hs : source ∈ s.registry.registration)
    (later : List Move) (hreachable : source.isReachable (s.run later).alive) :
    s.registry.Keeps (s.run later).registry source := by
  induction later generalizing s with
  | nil => exact Registry.keeps_refl hs
  | cons m later ih =>
    have hnow : source.isReachable s.alive :=
      Source.isReachable_of_later (fun t ht => alive_of_run ha ht (m :: later)) hknown hreachable
    have hstep := keeps_step m hs hnow
    exact hstep.trans (ih (step_accounted ha m) (Source.isKnown_mono (s.issued_le m) hknown) hstep.1
      hreachable)

/-! ## Upkeep -/

/-- How a service keeps its registry up. `first` are the targets that were there at the beginning. -/
structure Upkeep (first : Liveness) (s : Service) : Prop where
  /-- A target that is gone, and whose source is registered, was there at the last prune, and has lost
  its last holder since. -/
  leftover : ∀ owner, .ofTarget owner ∈ s.registry.registration → s.alive owner = false →
    s.history.prunes.getLastD first owner
  /-- Handling a request prunes the registry if the request asks for it or a resource has been created,
  and otherwise leaves it alone. -/
  serve : ∀ ticket, s.exchange.isServing → s.mailbox.queue.head? = some ticket →
    ∃ a, (s.step .serve).history.answered = s.history.answered ++ [(ticket, a)] ∧
      (s.step .serve).history.prunes =
        s.history.prunes ++ (if ticket.request.prunes a then [s.alive] else []) ∧
      (s.step .serve).registry =
        if ticket.request.prunes a then ((s.registry.seed a.created?.toList).prune s.alive).2
        else s.registry
  /-- Nothing else touches the registry. -/
  others : ∀ m, m ≠ .serve →
    (s.step m).registry = s.registry ∧ (s.step m).history.prunes = s.history.prunes
  /-- Whoever asks for a prune is told how many targets are gone whose sources were registered. Their
  sources are dropped, with all that was in them. -/
  count : ∀ ticket, s.exchange.isServing → s.mailbox.queue.head? = some ticket →
    ticket.request = .prune →
      let gone := (s.registry.goneOwners s.alive).eraseDups
      (s.step .serve).history.answered =
          s.history.answered ++ [(ticket, .ok (.count gone.length))] ∧
        (s.step .serve).registry.sourceCount + gone.length = s.registry.sourceCount ∧
        (s.step .serve).registry.size +
          (gone.flatMap fun t => s.registry.inSource (.ofTarget t)).length = s.registry.size
  /-- A source stays registered, with all that is in it, for as long as it can be reached, and through
  the move with which its target goes. -/
  kept : ∀ source ∈ s.registry.registration, ∀ later, source.isReachable (s.run later).alive →
    ∀ m, s.registry.Keeps ((s.run later).step m).registry source

theorem others_step {m : Move} (hm : m ≠ .serve) :
    (s.step m).registry = s.registry ∧ (s.step m).history.prunes = s.history.prunes := by
  cases m with
  | serve => exact absurd rfl hm
  | turn call => exact ⟨rfl, s.history.prunes_requests _ _⟩
  | openClient =>
    simp only [step]
    split <;> exact ⟨rfl, rfl⟩
  | issue client call =>
    simp only [step]
    split <;> exact ⟨rfl, rfl⟩
  | handles _ | dropClient _ | giveUp _ | start => exact ⟨rfl, rfl⟩

theorem serve_head (ha : Accounted s.line s.history) {ticket : Ticket}
    (hserving : s.exchange.isServing) (hhead : s.mailbox.queue.head? = some ticket) :
    ∃ a, (s.step .serve).history.answered = s.history.answered ++ [(ticket, a)] ∧
      (s.step .serve).history.prunes =
        s.history.prunes ++ (if ticket.request.prunes a then [s.alive] else []) ∧
      (s.step .serve).registry =
        if ticket.request.prunes a then ((s.registry.seed a.created?.toList).prune s.alive).2
        else s.registry := by
  obtain ⟨a, r, hperform, hregistry, hhistory⟩ := serve_of_head hserving hhead
  refine ⟨a, ?_, ?_, ?_⟩
  · rw [hhistory, (s.history.append_handled ticket s.alive a).2.2.2.2.1]
  · rw [hhistory, History.prunes_handled ha.answered]
  · rw [hregistry, Registry.eq_of_perform hperform]

theorem serve_prune {base log : Log} (hr : s.Recorded base log) {ticket : Ticket}
    (hserving : s.exchange.isServing) (hhead : s.mailbox.queue.head? = some ticket)
    (hprune : ticket.request = .prune) :
    let gone := (s.registry.goneOwners s.alive).eraseDups
    (s.step .serve).history.answered =
        s.history.answered ++ [(ticket, .ok (.count gone.length))] ∧
      (s.step .serve).registry.sourceCount + gone.length = s.registry.sourceCount ∧
      (s.step .serve).registry.size +
        (gone.flatMap fun t => s.registry.inSource (.ofTarget t)).length = s.registry.size := by
  intro gone
  have hcount : (s.registry.prune s.alive).1 = gone.length := hr.reflects.count_prune s.alive
  obtain ⟨a, r, hperform, hregistry, hhistory⟩ := serve_of_head hserving hhead
  rw [hprune] at hperform
  cases hperform
  rw [hregistry]
  refine ⟨?_, ?_, ?_⟩
  · rw [hhistory, (s.history.append_handled ticket s.alive _).2.2.2.2.1, hcount]
  · rw [← hcount]
    exact s.registry.sourceCount_prune s.alive
  · rw [show gone = s.registry.goneOwners s.alive from
      eraseDups_of_pairwise (hr.reflects.pairwise_goneOwners s.alive)]
    exact hr.reflects.size_prune s.alive_consistent

/-- A service that has taken over a registry with no source of a target that is gone keeps the
registry up, whatever its callers do. -/
theorem dead_sources_do_not_accumulate (ops : List Session.Op) (channelCapacity eventCapacity : Nat)
    (hfresh : ∀ source ∈ (Session.start.run ops).registry.registration,
      source.isReachable (Session.start.run ops).alive) (moves : List Move) :
    Upkeep (Session.start.run ops).alive
      ((takeOver (Session.start.run ops) channelCapacity eventCapacity).run moves) := by
  have hstart := takeOver_accounted (Session.start.run ops) channelCapacity eventCapacity
  have ha := run_accounted hstart moves
  have hswept : (takeOver (Session.start.run ops) channelCapacity eventCapacity).Swept
      (Session.start.run ops).alive := hfresh
  obtain ⟨log, hr⟩ :=
    run_recorded hstart (takeOver_recorded ops channelCapacity eventCapacity) moves
  refine ⟨?_, ?_, ?_, ?_, ?_⟩
  · exact fun owner howner _ => run_swept hstart hswept moves _ howner
  · exact fun ticket => serve_head ha
  · exact fun m => others_step
  · exact fun ticket => serve_prune hr
  · intro source hs later hreachable m
    have hkept := keeps_run ha (hr.isKnown hs) hs later hreachable
    exact hkept.trans (keeps_step m hkept.1 hreachable)

def furnished : List Session.Op :=
  [.handles (.create "button" "Button"), .seed [⟨.ofTarget ⟨0, "Button"⟩, "Fill", .flag true⟩]]

/-- A popup comes, a resource is created for it, and it goes before a prune is asked for. -/
def visit : List Move :=
  [.handles (.create "popup" "Popup"), .openClient,
    .issue 0 (.direct (.create (.ofTarget ⟨1, "Popup"⟩) "Fill" (.flag false))), .turn 0, .start,
    .serve, .handles (.release "popup"), .issue 1 (.direct .prune), .turn 1, .serve]

/-- The registry is kept up after the popup has gone, pruned for its resource and when asked. -/
theorem dead_sources_do_not_accumulate_visit :
    let s := (takeOver (Session.start.run furnished) 2 4).run visit
    s.alive ⟨1, "Popup"⟩ = false ∧ s.history.prunes.length = 2 ∧
      Upkeep (Session.start.run furnished).alive s := by
  have hlog : (Session.start.run furnished).log =
      [⟨.ofTarget ⟨0, "Button"⟩, "Fill", .flag true⟩] := rfl
  have hreflects : (Session.start.run furnished).registry.Reflects (Session.start.run furnished).log :=
    Session.run_reflects Registry.reflects_empty furnished
  have hfresh : ∀ source ∈ (Session.start.run furnished).registry.registration,
      source.isReachable (Session.start.run furnished).alive := by
    rw [hreflects.registration, hlog]
    decide
  exact ⟨by decide, by decide, dead_sources_do_not_accumulate furnished 2 4 hfresh visit⟩

end Service

end ScopedResources
