import ScopedResources.Proofs.Service.Accounts

/-! # Who keeps a target

A target is there as long as a caller has a handle of it or a request that has not been handled keeps
it. A checked request keeps the target that it is about, so it never finds the source of that target
unreachable. A plain creation keeps nothing, and what becomes of it depends on the others at its turn.
Sources, stored or published resources and answers only mention targets: once nobody has a handle, and
no request is left, the target is gone for good. -/

namespace ScopedResources

/-- The request asks about the source of the very target that it keeps. -/
def Request.keepsItsSource : Request → Bool
  | checkName t (.ofTarget owner) _ => owner == t
  | createChecked t (.ofTarget owner) _ _ _ => owner == t
  | _ => false

/-- Such a request can only be refused for a blank name, or because creation is disabled. -/
theorem Registry.perform_keepsItsSource {alive : Liveness} (halive : alive.Consistent)
    (r : Registry) {request : Request} (hkeeps : request.keepsItsSource)
    (ht : ∀ t, request.target? = some t → alive t) {e : ServiceError}
    (h : (r.perform alive request).1 = .error e) :
    e = .registry .blankName ∨ e = .registry .creationDisabled := by
  have howner {owner t : Target} (hkeeps : owner == t) (ht : alive t) :
      (Source.ofTarget owner).isReachable alive := (halive hkeeps).trans ht
  have hcheck {s : Source} {name : String} {f : RegistryError} (hs : s.isReachable alive)
      (hf : r.checkName alive s name = .error f) : f = .blankName := by
    rcases checkName_eq_error_iff.mp hf with ⟨_, he⟩ | ⟨_, hgone, _⟩
    · exact he
    · exact absurd (hs.symm.trans hgone) nofun
  unfold Request.keepsItsSource at hkeeps
  split at hkeeps
  · next t owner name =>
    have hs := howner hkeeps (ht t rfl)
    dsimp only [perform] at h
    cases hc : r.checkName alive (.ofTarget owner) name with
    | ok verdict => simp [hc, Except.map, Except.mapError] at h
    | error f =>
      rw [hc] at h
      cases h
      exact .inl (congrArg _ (hcheck hs hc))
  · next t owner name v policy =>
    have hs := howner hkeeps (ht t rfl)
    rw [perform_createChecked_answer] at h
    cases hc : r.createChecked alive (.ofTarget owner) name v policy with
    | ok outcome => simp [hc, Except.map, Except.mapError] at h
    | error f =>
      rw [hc] at h
      cases h
      rcases createChecked_error hc with hf | ⟨_, rfl⟩
      · exact .inl (congrArg _ (hcheck hs hf))
      · exact .inr rfl
  · cases hkeeps

/-- What comes of creating a resource that may be created, if its source can be reached. -/
theorem Registry.perform_create_allowed (r : Registry) (alive : Liveness) (hcan : r.canCreate)
    (s : Source) {name : String} (hname : isBlankName name = false) (v : Value) :
    (r.perform alive (.create s name v)).1 =
      if s.isReachable alive then .ok (.resource ⟨s, name, v⟩)
      else .error (.registry (.unreachableOwner s.name)) := by
  rw [perform_create_answer]
  cases hs : s.isReachable alive with
  | true =>
    have hc : r.create alive s name v = .ok (⟨s, name, v⟩, r.append ⟨s, name, v⟩) :=
      create_eq_ok_iff.mpr ⟨⟨hcan, hname, hs⟩, rfl, rfl⟩
    rw [hc]
    rfl
  | false =>
    have hc : r.create alive s name v = .error (.unreachableOwner s.name) :=
      create_eq_error_iff.mpr (.inr (.inr ⟨hcan, hname, hs, rfl⟩))
    rw [hc]
    rfl

namespace Service

variable {s : Service} {t : Target}

/-! ## Holders -/

/-- A caller has a handle of the target under some name, or a call of it that is not over borrows one
or has yet to give it away with its request. -/
def callersHold (s : Service) (t : Target) : Bool :=
  s.handles.holds t || s.line.calls.any (·.holds t)

/-- Some of these requests keeps the target. -/
def requestsHold (tickets : List Ticket) (t : Target) : Bool := tickets.any (·.holds t)

theorem alive_eq (s : Service) (t : Target) :
    s.alive t = (s.callersHold t || requestsHold s.mailbox.contents t) := by
  rw [alive, Line.alive, Line.holds, callersHold, Bool.or_assoc, Bool.or_comm (List.any ..)]
  rfl

/-- A target that has been made is there later only if it is there now. -/
theorem alive_of_run (ha : Accounted s.line s.history) (ht : s.handles.knows t) (moves : List Move)
    (hlater : (s.run moves).alive t) : s.alive t := by
  induction moves generalizing s with
  | nil => exact hlater
  | cons m moves ih =>
    have hknown : (s.step m).handles.knows t := Handles.knows_mono (s.issued_le m) ht
    exact alive_of_step ha.isOpen m t ht (ih (step_accounted ha m) hknown hlater)

/-! ## Answers -/

/-- The first request is handled as its operation says. -/
theorem serve_of_head {ticket : Ticket} (hserving : s.exchange.isServing)
    (hhead : s.mailbox.queue.head? = some ticket) :
    ∃ a r, s.registry.perform s.alive ticket.request = (a, r) ∧ (s.step .serve).registry = r ∧
      (s.step .serve).history = s.history ++ .handled ticket s.alive :: a.happenings ticket := by
  rw [step]
  rcases s.serve_cases with ⟨_, hnone⟩ | ⟨first, a, r, _, hfirst, hp, he⟩
  · rw [hnone hserving] at hhead
    cases hhead
  · cases hfirst.symm.trans hhead
    exact ⟨a, r, hp, by rw [he], by rw [he]⟩

/-- What holds of every answer as it is given holds of all answers of a run. -/
theorem answered_induction {P : Ticket → Answer → Prop}
    (hserve : ∀ (s : Service) ticket, s.mailbox.queue.head? = some ticket →
      P ticket (s.registry.perform s.alive ticket.request).1)
    (h : ∀ entry ∈ s.history.answered, P entry.1 entry.2) (moves : List Move) :
    ∀ entry ∈ (s.run moves).history.answered, P entry.1 entry.2 := by
  refine run_induction (P := fun s => ∀ entry ∈ s.history.answered, P entry.1 entry.2) moves
    (fun s m _ h => ?_) h
  rcases s.step_cases m with ⟨_, new, taken, hhistory⟩ |
    ⟨ticket, a, r, hhead, hperform, _, hhistory⟩ <;> rw [hhistory]
  · rw [(s.history.append_requests new taken).2.2.2.2.1]
    exact h
  · rw [(s.history.append_handled ticket s.alive a).2.2.2.2.1]
    intro entry hentry
    rcases List.mem_append.mp hentry with hentry | hentry
    · exact h entry hentry
    · rw [List.mem_singleton.mp hentry]
      have := hserve s ticket hhead
      rwa [hperform] at this

/-- Whatever its callers do meanwhile, a checked request about the source of its own target is refused
for a blank name or because creation is disabled, and for nothing else. A plain creation in the source
of a target succeeds if, at its turn, a caller has a handle of the target or another request keeps it,
and fails otherwise. A target that has been made and that neither callers nor requests hold is gone,
whatever mentions it, and it is gone for ever. -/
theorem requests_keep_their_targets (ops : List Session.Op) (channelCapacity eventCapacity : Nat)
    (moves : List Move) :
    let s := (takeOver (Session.start.run ops) channelCapacity eventCapacity).run moves
    (∀ entry ∈ s.history.answered, entry.1.request.keepsItsSource → ∀ e, entry.2 = .error e →
      e = .registry .blankName ∨ e = .registry .creationDisabled) ∧
    (∀ ticket t name v, s.exchange.isServing → s.mailbox.queue.head? = some ticket →
      ticket.request = .create (.ofTarget t) name v → isBlankName name = false →
      s.registry.canCreate → (s.step .serve).history.answered = s.history.answered ++ [(ticket,
        if s.callersHold t || requestsHold s.mailbox.contents.tail t
        then .ok (.resource ⟨.ofTarget t, name, v⟩)
        else .error (.registry (.unreachableOwner t.typeName)))]) ∧
    ∀ t, s.handles.knows t → s.callersHold t = false → requestsHold s.mailbox.contents t = false →
      ∀ later, (s.run later).alive t = false := by
  intro s
  have ha : Accounted s.line s.history :=
    run_accounted (takeOver_accounted _ channelCapacity eventCapacity) moves
  refine ⟨?_, ?_, ?_⟩
  · refine answered_induction (P := fun ticket a => ticket.request.keepsItsSource →
      ∀ e, a = .error e → e = .registry .blankName ∨ e = .registry .creationDisabled)
      (fun s ticket hhead hkeeps e => ?_) (fun _ hentry => by cases hentry) moves
    -- The request is still in the mailbox, so its target is there.
    exact Registry.perform_keepsItsSource s.alive_consistent s.registry hkeeps fun t ht =>
      alive_of_head hhead ht
  · intro ticket t name v hserving hhead hcreate hname hcan
    obtain ⟨rest, hqueue⟩ := List.head?_eq_some_iff.mp hhead
    have hnone : ticket.holds t = false := by rw [Ticket.holds, hcreate]; rfl
    have halive : s.alive t = (s.callersHold t || requestsHold s.mailbox.contents.tail t) := by
      rw [alive_eq, Mailbox.contents_eq, hqueue, List.cons_append, List.tail_cons, requestsHold,
        List.any_cons, hnone, Bool.false_or]
      rfl
    obtain ⟨a, r, hp, _, hhistory⟩ := serve_of_head hserving hhead
    have hanswer : a = if s.alive t then .ok (.resource ⟨.ofTarget t, name, v⟩)
        else .error (.registry (.unreachableOwner t.typeName)) := by
      have := s.registry.perform_create_allowed s.alive hcan (.ofTarget t) hname v
      rwa [← hcreate, hp] at this
    rw [hhistory, (s.history.append_handled ticket s.alive a).2.2.2.2.1, hanswer, halive]
  · intro t ht hcallers hrequests later
    have hgone : s.alive t = false := by rw [alive_eq, hcallers, hrequests]; rfl
    exact Bool.eq_false_iff.mpr fun hlater =>
      Bool.eq_false_iff.mp hgone (alive_of_run ha ht later hlater)

end Service

end ScopedResources
