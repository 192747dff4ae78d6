import ScopedResources.Proofs.Service.Accounts

/-! # Runs are linear

Whatever the order of moves, the service answers as the registry's operations would if they were
performed one after the other, in the order in which the requests were accepted. -/

namespace ScopedResources

/-- The requests that have been handled, each with the targets that were there at its turn. -/
def History.requests (h : History) : List (Liveness × Request) :=
  h.handled.map fun entry => (entry.2, entry.1.request)

namespace Service

variable {s : Service}

/-! ## What is published goes through the feed -/

theorem feed_step (s : Service) (m : Move) : ∃ new,
    (s.step m).history.published = s.history.published ++ new ∧
      (s.step m).exchange.server.feed = new.foldl Feed.publish s.exchange.server.feed := by
  rcases s.step_cases m with ⟨hserver, new, taken, hhistory⟩ | ⟨ticket, a, r, _, _, hserver, hhistory⟩
  · obtain ⟨_, _, _, hpublished, _⟩ := s.history.append_requests new taken
    refine ⟨[], ?_, ?_⟩
    · rw [hhistory, hpublished, List.append_nil]
    · rw [hserver]
      rfl
  · obtain ⟨_, _, _, hpublished, _⟩ := s.history.append_handled ticket s.alive a
    refine ⟨a.created?.toList, ?_, ?_⟩
    · rw [hhistory, hpublished]
    · rw [hserver]

theorem feed_run (s : Service) (moves : List Move) : ∃ since,
    (s.run moves).history.published = s.history.published ++ since ∧
      (s.run moves).exchange.server.feed = since.foldl Feed.publish s.exchange.server.feed := by
  refine run_induction (P := fun t => ∃ since, t.history.published = s.history.published ++ since ∧
    t.exchange.server.feed = since.foldl Feed.publish s.exchange.server.feed) moves ?_
    ⟨[], (List.append_nil _).symm, rfl⟩
  rintro t m _ ⟨since, hsince, hfeed⟩
  obtain ⟨new, hpublished, hnew⟩ := t.feed_step m
  refine ⟨since ++ new, ?_, ?_⟩
  · rw [hpublished, hsince, List.append_assoc]
  · rw [hnew, hfeed, List.foldl_append]

/-! ## The keeper follows the operations -/

/-- Since its keeper was this one, the service has handled requests as their operations do. -/
structure Follows (keeper : Keeper) (s : Service) : Prop where
  replay : keeper.registry.replay s.history.requests = (s.history.answered.map (·.2), s.registry)
  feed : s.exchange.server.feed = s.history.published.foldl Feed.publish keeper.feed

theorem Follows.step {keeper : Keeper} (hs : s.Follows keeper) (m : Move) :
    (s.step m).Follows keeper where
  replay := by
    rcases s.step_cases m with ⟨hserver, new, taken, hhistory⟩ |
      ⟨ticket, a, r, _, hperform, hserver, hhistory⟩
    · obtain ⟨_, _, hhandled, _, hanswered, _⟩ := s.history.append_requests new taken
      have hregistry : (s.step m).registry = s.registry := congrArg Keeper.registry hserver
      rw [hhistory, History.requests, hhandled, hanswered, hregistry]
      exact hs.replay
    · obtain ⟨_, _, hhandled, _, hanswered, _⟩ := s.history.append_handled ticket s.alive a
      have hregistry : (s.step m).registry = r := congrArg Keeper.registry hserver
      rw [hhistory, History.requests, hhandled, List.map_append, ← History.requests,
        Registry.replay_append, hs.replay, hanswered, hregistry]
      simp [Registry.replay, hperform]
  feed := by
    obtain ⟨new, hpublished, hfeed⟩ := s.feed_step m
    rw [hfeed, hs.feed, hpublished, List.foldl_append]

theorem Follows.run {keeper : Keeper} (hs : s.Follows keeper) (moves : List Move) :
    (s.run moves).Follows keeper :=
  run_induction moves (fun _ m _ hs => hs.step m) hs

/-! ## Order -/

theorem history_step (s : Service) (m : Move) : s.history <+: (s.step m).history := by
  rcases s.step_cases m with ⟨_, new, taken, hhistory⟩ | ⟨ticket, a, r, _, _, _, hhistory⟩ <;>
    rw [hhistory]
  · exact List.prefix_append ..
  · exact List.prefix_append ..

theorem history_run (s : Service) (moves : List Move) : s.history <+: (s.run moves).history :=
  run_induction (P := fun t => s.history <+: t.history) moves
    (fun t m _ h => h.trans (t.history_step m)) List.prefix_rfl

end Service

/-- What was in a prefix comes before what is not. -/
theorem pair_sublist {α : Type} {old all part : List α} {a b : α} (hold : old <+: all)
    (hpart : part <+: all) (ha : a ∈ old) (hb : b ∈ part) (hnew : b ∉ old) :
    [a, b].Sublist part := by
  rcases List.prefix_or_prefix_of_prefix hold hpart with h | h
  · obtain ⟨rest, rfl⟩ := h
    have hb : b ∈ rest := (List.mem_append.mp hb).resolve_left hnew
    exact (List.singleton_sublist.mpr ha).append (List.singleton_sublist.mpr hb)
  · exact absurd (h.subset hb) hnew

namespace Service

variable {s : Service}

/-- A request that is first sent after another was accepted is handled after it. -/
theorem handled_in_order (ha : Accounted s.line s.history) (moves : List Move) {first second : Ticket}
    (hfirst : first ∈ s.history.accepted)
    (hsecond : second ∈ (s.run moves).history.handled.map (·.1))
    (hnew : second ∉ s.history.sent) :
    [first, second].Sublist ((s.run moves).history.handled.map (·.1)) := by
  have hold : s.history.accepted <+: (s.run moves).history.accepted :=
    (s.history_run moves).filterMap _
  have hpart : (s.run moves).history.handled.map (·.1) <+: (s.run moves).history.accepted := by
    rw [(run_accounted ha moves).accepted]
    exact List.prefix_append ..
  refine pair_sublist hold hpart hfirst hsecond fun hm => hnew ?_
  obtain ⟨lost, hperm⟩ := ha.sent
  exact hperm.mem_iff.mpr (List.mem_append_left _ hm)

/-! ## The end -/

/-- A service that has ended has left nothing behind. -/
theorem contents_of_hasEnded (ha : Accounted s.line s.history) (hend : s.exchange.hasEnded) :
    s.mailbox.contents = [] := by
  simp only [Exchange.hasEnded, Line.hasSenders, Bool.and_eq_true, Bool.not_eq_true',
    Bool.or_eq_false_iff] at hend
  obtain ⟨⟨_, _, hcalls⟩, hqueue⟩ := hend
  rw [Mailbox.contents_eq, List.isEmpty_iff.mp hqueue, List.nil_append]
  refine List.eq_nil_iff_forall_not_mem.mpr fun ticket hm => ?_
  -- The call of a request that waits for room would not be over.
  obtain ⟨c, hc, hp⟩ := Option.map_eq_some_iff.mp (ha.progress?_of_mem_outside hm)
  have hover := List.any_eq_false.mp hcalls c (List.mem_of_getElem? hc)
  simp [CallState.isOver, hp] at hover

/-- A service that has been started can handle all that it has accepted. -/
theorem run_serve (ha : Accounted s.line s.history) (hserving : s.exchange.isServing) :
    (s.run (.replicate s.mailbox.queue.length .serve)).history.handled.map (·.1) =
      s.history.accepted := by
  generalize hn : s.mailbox.queue.length = n
  induction n generalizing s with
  | zero =>
    rw [ha.accepted, List.eq_nil_of_length_eq_zero hn, List.append_nil]
    rfl
  | succ n ih =>
    rcases s.serve_cases with ⟨_, hnone⟩ | ⟨ticket, a, r, _, hhead, _, he⟩
    · rw [hnone hserving] at hn
      cases hn
    · -- One request is handled, and the others are as they were.
      have hstep : Accounted s.serve.line s.serve.history := step_accounted ha .serve
      have hrest : s.serve.mailbox.queue.length = n := by
        rw [he, mailbox, Line.mailbox_answer, Line.mailbox_dropHead, Mailbox.queue_dropFirst,
          List.length_tail, hn]
        rfl
      have haccepted : s.serve.history.accepted = s.history.accepted := by
        rw [he]
        exact (s.history.append_handled ticket s.alive a).2.1
      rw [← haccepted]
      exact ih hstep (congrArg (·.exchange.isServing) he) hrest

/-! ## Linear runs -/

/-- What holds at any time of a service that has taken over this registry. -/
structure Linear (registry : Registry) (s : Service) : Prop where
  /-- Requests are handled in the order in which they were accepted. -/
  arrival : s.history.accepted = s.history.handled.map (·.1) ++ s.mailbox.queue
  /-- No call has two requests. -/
  once : (s.history.accepted.map (·.call)).Nodup
  /-- Each request that was handled has been answered, and no other. -/
  answered : s.history.answered.map (·.1) = s.history.handled.map (·.1)
  /-- The answers and the registry are those of the operations, one after the other. -/
  replay : registry.replay s.history.requests = (s.history.answered.map (·.2), s.registry)
  delivered : ∀ ticket a, (ticket, a) ∈ s.history.answered →
    s.line.progress? ticket.call = some (.answered a) ∨
      s.line.progress? ticket.call = some (.finished a) ∨
      s.line.progress? ticket.call = some .abandoned
  /-- What a caller takes note of is the answer to its request. -/
  received : ∀ ticket ∈ s.history.sent, ∀ a, s.line.result? ticket.call = some a →
    (ticket, a) ∈ s.history.answered
  /-- No request is lost unless its caller has gone away. -/
  kept : ∀ ticket ∈ s.history.sent, ticket ∈ s.history.handled.map (·.1) ∨
    ticket ∈ s.mailbox.contents ∨ s.line.progress? ticket.call = some .abandoned
  ended : s.exchange.hasEnded →
    s.mailbox.contents = [] ∧ s.history.answered.map (·.1) = s.history.accepted

theorem linear_of_accounted (ha : Accounted s.line s.history) {keeper : Keeper}
    (hs : s.Follows keeper) : s.Linear keeper.registry where
  arrival := ha.accepted
  once := by
    obtain ⟨lost, hperm⟩ := ha.sent
    have hall := (hperm.map (·.call)).nodup_iff.mp ha.nodup
    rw [List.map_append] at hall
    exact (List.nodup_append.mp hall).1
  answered := ha.answered
  replay := hs.replay
  delivered ticket a hm := ha.progress?_of_answered hm
  received ticket hm a hr := by
    have hfinished := Line.result?_eq_some.mp hr
    rcases ha.placed_of_sent hm with ⟨hp, _⟩ | ⟨b, hanswered, hp | hp⟩ | ⟨hp, _⟩ <;>
      cases hfinished.symm.trans hp
    exact hanswered
  kept ticket hm := by
    rcases ha.placed_of_sent hm with ⟨_, hc⟩ | ⟨a, hanswered, _⟩ | ⟨hp, _⟩
    · exact .inr (.inl hc)
    · exact .inl (ha.mem_handled_of_answered hanswered)
    · exact .inr (.inr hp)
  ended hend := by
    have hempty := contents_of_hasEnded ha hend
    rw [Mailbox.contents_eq, List.append_eq_nil_iff] at hempty
    refine ⟨contents_of_hasEnded ha hend, ?_⟩
    rw [ha.answered, ha.accepted, hempty.1, List.append_nil]

/-- Over any registry that a session can lead to, and whoever moves when, a service is linear. It
handles a request after those that had been accepted when it was sent, and once started it can
handle all that it has accepted. -/
theorem run_linear (ops : List Session.Op) (channelCapacity eventCapacity : Nat)
    (earlier later : List Move) :
    let session := Session.start.run ops
    let past := (takeOver session channelCapacity eventCapacity).run earlier
    let s := past.run later
    s.Linear session.registry ∧
      (∀ first ∈ past.history.accepted, ∀ second ∈ s.history.handled.map (·.1),
        second ∉ past.history.sent → [first, second].Sublist (s.history.handled.map (·.1))) ∧
      (s.exchange.isServing →
        (s.run (.replicate s.mailbox.queue.length .serve)).history.handled.map (·.1) =
          s.history.accepted) := by
  intro session past s
  have hpast := run_accounted (takeOver_accounted session channelCapacity eventCapacity) earlier
  have hs : Accounted s.line s.history := run_accounted hpast later
  have hfollows : (takeOver session channelCapacity eventCapacity).Follows
      ⟨session.registry, .empty eventCapacity⟩ := ⟨rfl, rfl⟩
  refine ⟨linear_of_accounted hs ((hfollows.run earlier).run later), ?_, run_serve hs⟩
  intro first hfirst second hsecond hnew
  exact handled_in_order hpast later hfirst hsecond hnew

/-- A place becomes free while the third request waits, and the fourth is there before it. -/
def overtaking : List Move :=
  let ask : Move := .issue 0 (.direct .canCreate)
  [ask, ask, ask, .turn 0, .turn 1, .turn 2, .start, .serve, .serve, ask, .turn 3, .turn 2, .serve,
    .serve]

/-- Requests are not handled in the order in which their client has sent them if it does not wait
until they are accepted. -/
theorem overtaking_reorders :
    let s := (takeOver .start 2 4).run overtaking
    (∀ c ∈ s.line.calls, c.client = 0) ∧ s.history.sent.map (·.call) = [0, 1, 2, 3] ∧
      s.history.handled.map (·.1.call) = [0, 1, 3, 2] ∧
      ¬(s.history.handled.map (·.1.call)).Sublist (s.history.sent.map (·.call)) := by
  decide

end Service

end ScopedResources
