import ScopedResources.Proofs.Registry.Agreement
import ScopedResources.Proofs.Service.Linear
import ScopedResources.Proofs.Service.Reading

/-! # The change log

What a service publishes is a log of all changes to its registry: whoever enters it into a copy of the
registry that the service took over has a registry that shows the same. -/

namespace ScopedResources

namespace Service

variable {s : Service} {base log : Log}

/-- The service's registry reflects a part of what the base and the published resources make
together, and the rest is out of reach. -/
structure Recorded (base : Log) (s : Service) (log : Log) : Prop where
  reflects : s.registry.Reflects log
  sublist : log.Sublist (base ++ s.history.published)
  agree : log.reachable s.alive = Log.reachable s.alive (base ++ s.history.published)
  known : ∀ x ∈ base ++ s.history.published, x.source.isKnown s.handles
  held : ∀ t, s.alive t → s.handles.knows t

/-- What is recorded as things stood before a move is so after it. -/
theorem Recorded.advance (hr : s.Recorded base log) (hopen : s.mailbox.isOpen) (m : Move) {log' : Log}
    (hreflects : (s.step m).registry.Reflects log')
    (hsublist : log'.Sublist (base ++ (s.step m).history.published))
    (hagree : log'.reachable s.alive =
      Log.reachable s.alive (base ++ (s.step m).history.published))
    (hknown : ∀ x ∈ base ++ (s.step m).history.published, x.source.isKnown s.handles) :
    (s.step m).Recorded base log' := by
  have hlater : ∀ x ∈ base ++ (s.step m).history.published,
      x.source.isReachable (s.step m).alive → x.source.isReachable s.alive := fun x hx =>
    Source.isReachable_of_later (alive_of_step hopen m) (hknown x hx)
  refine ⟨hreflects, hsublist, ?_, fun x hx => Source.isKnown_mono (s.issued_le m) (hknown x hx),
    knows_step hopen hr.held m⟩
  rw [← Log.reachable_later fun x hx => hlater x (hsublist.subset hx), hagree,
    Log.reachable_later hlater]

theorem Recorded.step (hr : s.Recorded base log) (hopen : s.mailbox.isOpen) (m : Move) :
    ∃ log', (s.step m).Recorded base log' := by
  have hself : ∀ log : Log, (log.reachable s.alive).reachable s.alive = log.reachable s.alive :=
    fun log => Log.reachable_later fun _ _ => id
  rcases s.step_cases m with ⟨hserver, new, taken, hhistory⟩ |
    ⟨ticket, a, r, _, hperform, hserver, hhistory⟩
  · obtain ⟨_, _, _, hpublished, _⟩ := s.history.append_requests new taken
    rw [← hhistory] at hpublished
    have hregistry : (s.step m).registry = s.registry := congrArg Keeper.registry hserver
    refine ⟨log, hr.advance hopen m (hregistry ▸ hr.reflects) ?_ ?_ ?_⟩ <;> rw [hpublished]
    · exact hr.sublist
    · exact hr.agree
    · exact hr.known
  have hregistry : (s.step m).registry = r := congrArg Keeper.registry hserver
  obtain ⟨_, _, _, hpublished, _⟩ := s.history.append_handled ticket s.alive a
  rw [← hhistory] at hpublished
  rcases Registry.perform_cases hperform with ⟨hnone, hr' | hr'⟩ | ⟨x, hsome, hx, hr', _⟩
  · rw [hnone, Option.toList_none, List.append_nil] at hpublished
    refine ⟨log, hr.advance hopen m (by rw [hregistry, hr']; exact hr.reflects) ?_ ?_ ?_⟩ <;>
      rw [hpublished]
    · exact hr.sublist
    · exact hr.agree
    · exact hr.known
  · -- A prune takes away what is out of reach.
    rw [hnone, Option.toList_none, List.append_nil] at hpublished
    refine ⟨log.reachable s.alive, hr.advance hopen m
      (by rw [hregistry, hr']; exact hr.reflects.prune s.alive_consistent) ?_ ?_ ?_⟩ <;>
      rw [hpublished]
    · exact List.filter_sublist.trans hr.sublist
    · rw [hself, hr.agree]
    · exact hr.known
  · -- The new resource is entered on both sides.
    rw [hsome, Option.toList_some] at hpublished
    refine ⟨Log.reachable s.alive (log ++ [x]), hr.advance hopen m
      (by rw [hregistry, hr']; exact (hr.reflects.append x).prune s.alive_consistent) ?_ ?_ ?_⟩ <;>
      rw [hpublished, ← List.append_assoc]
    · exact List.filter_sublist.trans (hr.sublist.append_right [x])
    · rw [hself, Log.reachable_append, hr.agree, ← Log.reachable_append]
    · intro y hy
      rcases List.mem_append.mp hy with hy | hy
      · exact hr.known y hy
      · rw [List.mem_singleton.mp hy]
        exact Source.isKnown_of_isReachable hr.held hx

theorem run_recorded (ha : Accounted s.line s.history) (hr : s.Recorded base log)
    (moves : List Move) : ∃ log', (s.run moves).Recorded base log' := by
  have hrun := run_induction (P := fun s => Accounted s.line s.history ∧
      ∃ log, s.Recorded base log) moves
    (fun s m _ ⟨ha, log, hr⟩ => ⟨step_accounted ha m, hr.step ha.isOpen m⟩) ⟨ha, log, hr⟩
  exact hrun.2

theorem takeOver_recorded (ops : List Session.Op) (channelCapacity eventCapacity : Nat) :
    let session := Session.start.run ops
    (takeOver session channelCapacity eventCapacity).Recorded session.log session.log := by
  intro session
  have hknown : session.Known := Session.run_known Session.start_known ops
  refine ⟨Session.run_reflects Registry.reflects_empty ops, ?_, ?_, ?_, fun t ht => ?_⟩
  · exact List.sublist_append_left ..
  · exact congrArg _ (List.append_nil _).symm
  · intro x hx
    rw [show (takeOver session channelCapacity eventCapacity).history.published = [] from rfl,
      List.append_nil] at hx
    exact hknown.log x hx
  · rcases alive_eq_true.mp ht with ht | ht
    · exact hknown.held t ht
    · cases ht

/-! ## What is published -/

/-- What is published is what is reported as created, each right before the report. -/
structure Announced (s : Service) : Prop where
  outcomes : s.history.outcomes =
    s.history.answered.flatMap fun entry => entry.2.happenings entry.1
  published : s.history.published = s.history.answered.filterMap fun entry => entry.2.created?

theorem Announced.step (h : s.Announced) (m : Move) : (s.step m).Announced := by
  rcases s.step_cases m with ⟨_, new, taken, hhistory⟩ | ⟨ticket, a, r, _, _, _, hhistory⟩
  · obtain ⟨_, _, _, hpublished, hanswered, houtcomes⟩ := s.history.append_requests new taken
    refine ⟨?_, ?_⟩
    · rw [hhistory, houtcomes, hanswered, h.outcomes]
    · rw [hhistory, hpublished, hanswered, h.published]
  · obtain ⟨_, _, _, hpublished, hanswered, houtcomes⟩ :=
      s.history.append_handled ticket s.alive a
    refine ⟨?_, ?_⟩
    · rw [hhistory, houtcomes, hanswered, List.flatMap_append, ← h.outcomes]
      simp
    · rw [hhistory, hpublished, hanswered, List.filterMap_append, ← h.published]
      cases hc : a.created? <;> simp [hc]

theorem Announced.run (h : s.Announced) (moves : List Move) : (s.run moves).Announced :=
  run_induction moves (fun _ m _ h => h.step m) h

/-- Someone subscribes to what is published from now on, under this number. -/
def subscribe (s : Service) : Nat × Service :=
  (s.exchange.server.feed.subscribe.1,
    { s with exchange.server.feed := s.exchange.server.feed.subscribe.2 })

/-- A service publishes what its answers report as created, in the order in which it handles the
requests and each before its answer. Its feed counts all that was published and keeps the last part of
it, and whoever subscribes at some time is given what was published since, as far as it is still kept.
Entered into the registry that the service took over, what was published makes a registry that shows
the same to every target that is there and gives the same verdicts. -/
theorem published_is_change_log (ops : List Session.Op) (channelCapacity eventCapacity : Nat)
    (moves : List Move) :
    let session := Session.start.run ops
    let s := (takeOver session channelCapacity eventCapacity).run moves
    let mirror := session.registry.seed s.history.published
    let feed := s.exchange.server.feed
    let room := Feed.roomFor eventCapacity
    s.history.answered.map (·.1) = s.history.handled.map (·.1) ∧
      session.registry.replay s.history.requests = (s.history.answered.map (·.2), s.registry) ∧
      s.history.outcomes = (s.history.answered.flatMap fun (ticket, a) => a.happenings ticket) ∧
      s.history.published = (s.history.answered.filterMap fun (_, a) => a.created?) ∧
      feed = s.history.published.foldl Feed.publish (.empty eventCapacity) ∧
      feed.published = s.history.published.length ∧
      feed.kept = s.history.published.drop (s.history.published.length - room) ∧
      (∀ later,
        let t := s.subscribe.2.run later
        ∃ since, t.history.published = s.history.published ++ since ∧
          (t.exchange.server.feed.drain s.subscribe.1).1 = since.drop (since.length - room)) ∧
      (∀ t, s.alive t → mirror.resourcesFor t = s.registry.resourcesFor t) ∧
      ∀ source name,
        mirror.checkName s.alive source name = s.registry.checkName s.alive source name := by
  intro session s mirror feed room
  have ha := takeOver_accounted session channelCapacity eventCapacity
  have hannounced : s.Announced := Announced.run ⟨rfl, rfl⟩ moves
  have hfollows : s.Follows ⟨session.registry, .empty eventCapacity⟩ := Follows.run ⟨rfl, rfl⟩ moves
  obtain ⟨log, hr⟩ := run_recorded ha (takeOver_recorded ops channelCapacity eventCapacity) moves
  have hbase : session.registry.Reflects session.log :=
    Session.run_reflects Registry.reflects_empty ops
  have hmirror : mirror.Reflects (session.log ++ s.history.published) := hbase.seed _
  have hfeed : feed.Keeps room s.history.published := by
    rw [show feed = _ from hfollows.feed]
    exact (Feed.Keeps.empty eventCapacity).foldl_publish s.history.published
  have hroom : 0 < room := Nat.pos_of_isPowerOfTwo (Feed.isPowerOfTwo_roomFor eventCapacity)
  refine ⟨(run_accounted ha moves).answered, hfollows.replay, hannounced.outcomes,
    hannounced.published, hfollows.feed, hfeed.published, hfeed.kept,
    fun later => ?_, fun t ht => ?_, fun source name => ?_⟩
  · obtain ⟨since, hpublished, hlater⟩ := s.subscribe.2.feed_run later
    refine ⟨since, hpublished, ?_⟩
    rw [hlater]
    exact Feed.drain_subscribe hfeed hroom since
  · exact hmirror.resourcesFor_agree s.alive_consistent hr.reflects hr.agree.symm ht
  · exact hmirror.checkName_agree s.alive_consistent hr.reflects hr.agree.symm source name

end Service

end ScopedResources
