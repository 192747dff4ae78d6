import ScopedResources.Proofs.Service.ChangeLog
import ScopedResources.Proofs.Service.Veil

/-! # Pruning is invisible

Think of a keeper that hoards: it never drops anything, and whoever asks it to is told some number. The
same moves lead a service with such a keeper to the same happenings, apart from what it says to those
who asked for a prune. For its registry has entered all that was published, and that agrees with the
pruned registry on all sources that are there. -/

namespace ScopedResources

def Request.isPrune : Request → Bool
  | prune => true
  | _ => false

theorem Request.isPrune_iff {request : Request} : request.isPrune ↔ request = .prune := by
  cases request <;> simp [isPrune]

/-! ## A keeper that hoards -/

/-- Handles a request as ever, but a prune drops nothing and is answered with this count. -/
def Registry.hoard (count : Nat) (alive : Liveness) (r : Registry) (request : Request) : Handling :=
  if request.isPrune then .reply r (.ok (.count count)) else r.handle alive request

namespace Keeper

def actHoarding (alive : Liveness) (k : Keeper) : Act → Keeper
  | .prune => k
  | a => k.act alive a

def respondHoarding (count : Nat) : Server Keeper := fun alive request k =>
  let handling := k.registry.hoard count alive request
  (handling.acts.findSome? Act.answer?,
    handling.acts.foldl (actHoarding alive) { k with registry := handling.registry })

end Keeper

namespace Service

/-- A service whose keeper hoards handles the first request. The counts are told by the calls that ask
for them. -/
def serveHoarding (counts : Nat → Nat) (s : Service) : Service :=
  match s.exchange.isServing, s.line.head? with
  | true, some ticket =>
    { s with
      exchange := s.exchange.serve (Keeper.respondHoarding (counts ticket.call)) s.handles.holds
      history := s.history ++ .handled ticket s.alive ::
        (s.registry.hoard (counts ticket.call) s.alive ticket.request).acts.filterMap
          (Act.happening? ticket) }
  | _, _ => s

def stepHoarding (counts : Nat → Nat) (s : Service) : Move → Service
  | .serve => s.serveHoarding counts
  | m => s.step m

def runHoarding (counts : Nat → Nat) (s : Service) (moves : List Move) : Service :=
  moves.foldl (stepHoarding counts) s

end Service

/-- What is said to someone who asked for a prune. -/
def Happening.isCount : Happening → Bool
  | answered ticket _ => ticket.request.isPrune
  | _ => false

def History.exceptCounts (h : History) : History := h.filter fun x => !x.isCount

namespace History

theorem exceptCounts_append (h h' : History) :
    History.exceptCounts (h ++ h') = h.exceptCounts ++ h'.exceptCounts := List.filter_append ..

theorem sent_exceptCounts (h : History) : h.exceptCounts.sent = h.sent := by
  unfold sent exceptCounts
  rw [List.filterMap_filter]
  congr 1
  funext x
  cases x <;> simp [Happening.isCount, Happening.sent?]

theorem published_exceptCounts (h : History) : h.exceptCounts.published = h.published := by
  unfold published exceptCounts
  rw [List.filterMap_filter]
  congr 1
  funext x
  cases x <;> simp [Happening.isCount, Happening.published?]

theorem answered_exceptCounts (h : History) :
    h.exceptCounts.answered = h.answered.filter fun entry => !entry.1.request.isPrune := by
  unfold answered exceptCounts
  rw [List.filterMap_filter, List.filter_filterMap]
  congr 1
  funext x
  cases x <;> simp [Happening.isCount, Happening.answered?, Option.filter]

end History

/-! ## What hoarding comes to -/

/-- The answer of a keeper that hoards. -/
def Registry.hoardAnswer (count : Nat) (alive : Liveness) (r : Registry) (request : Request) :
    Answer :=
  if request.isPrune then .ok (.count count) else (r.perform alive request).1

/-- A keeper that hoards enters what is created and does nothing else to its registry. -/
theorem Keeper.respondHoarding_eq (count : Nat) (alive : Liveness) (request : Request) (k : Keeper) :
    let a := k.registry.hoardAnswer count alive request
    Keeper.respondHoarding count alive request k =
      (some a, ⟨k.registry.seed a.created?.toList, a.created?.toList.foldl Feed.publish k.feed⟩) := by
  intro a
  unfold respondHoarding Registry.hoard
  by_cases hprune : request.isPrune
  · have ha : a = .ok (.count count) := if_pos hprune
    rw [if_pos hprune, ha]
    rfl
  have ha : a = (k.registry.perform alive request).1 := if_neg hprune
  rw [if_neg hprune, ha]
  obtain ⟨b, r₁, ⟨hnone, ⟨rfl, _⟩ | ⟨_, rfl⟩, hp, h⟩ | ⟨x, hsome, rfl, _, _, hp, h | h⟩⟩ :=
    k.registry.handle_cases alive request
  · exact absurd rfl hprune
  · rw [h, hp, hnone]
    rfl
  · rw [h, hp, hsome]
    rfl
  · rw [h, hp, hsome]
    rfl

theorem Registry.hoard_acts (count : Nat) (alive : Liveness) (r : Registry) (ticket : Ticket) :
    (r.hoard count alive ticket.request).acts.filterMap (Act.happening? ticket) =
      (r.hoardAnswer count alive ticket.request).happenings ticket := by
  unfold hoard hoardAnswer
  by_cases hprune : ticket.request.isPrune
  · rw [if_pos hprune, if_pos hprune]
    rfl
  · rw [if_neg hprune, if_neg hprune, r.handle_acts alive ticket]

/-! ## Answers from registries that agree -/

namespace Registry

variable {alive : Liveness} {r r' : Registry} {log log' : Log}

theorem canCreate_perform {request : Request} {a : Answer} (h : r.perform alive request = (a, r')) :
    r'.canCreate = r.canCreate := by
  rcases perform_cases h with ⟨_, rfl | rfl⟩ | ⟨x, _, _, rfl, _⟩ <;> rfl

/-- Whoever asks for no prune, about a target that is there, is answered alike. -/
theorem Reflects.perform_agree (halive : alive.Consistent) (h : r.Reflects log)
    (h' : r'.Reflects log') (hagree : log.reachable alive = log'.reachable alive)
    (hcreate : r.canCreate = r'.canCreate) {request : Request} (hprune : request ≠ .prune)
    (htarget : ∀ t, request.target? = some t → alive t) :
    (r.perform alive request).1 = (r'.perform alive request).1 := by
  have hpart := Source.isPart_isReachable halive
  have hsuggest : ∀ base, r.suggestName base = r'.suggestName base :=
    h.suggestName_of_part hpart h' hagree
  have hlisting : ∀ t, request.target? = some t → r.resourcesFor t = r'.resourcesFor t :=
    fun t ht => h.resourcesFor_agree halive h' hagree (htarget t ht)
  have hcheck : ∀ s name, r.checkName alive s name = r'.checkName alive s name :=
    h.checkName_agree halive h' hagree
  cases request with
  | listSources t => rfl
  | resourcesFor t => simp only [perform, hlisting t rfl]
  | resourcesForProperty t p => simp only [perform, resourcesForProperty_congr (hlisting t rfl)]
  | checkName t s name => simp only [perform, hcheck]
  | create s name v =>
    rw [perform_create_answer, perform_create_answer, create_congr hcreate]
  | createChecked t s name v policy =>
    rw [perform_createChecked_answer, perform_createChecked_answer,
      createChecked_congr hcreate (hcheck s name)]
  | prune => exact absurd rfl hprune
  | suggestName base => simp only [perform, hsuggest]
  | suggestNameForType t => simp only [perform, suggestNameForType, hsuggest]
  | canCreate => simp only [perform, hcreate]

end Registry

/-! ## Both services side by side -/

namespace Service

variable {s u : Service} {base log : Log} {counts : Nat → Nat}

theorem serveHoarding_of_head {ticket : Ticket} (hserving : u.exchange.isServing)
    (hhead : u.mailbox.queue.head? = some ticket) :
    let a := u.registry.hoardAnswer (counts ticket.call) u.alive ticket.request
    u.serveHoarding counts = ⟨u.handles, ⟨u.line.dropHead.answer ticket.call a,
      ⟨u.registry.seed a.created?.toList,
        a.created?.toList.foldl Feed.publish u.exchange.server.feed⟩, true⟩,
      u.history ++ .handled ticket u.alive :: a.happenings ticket⟩ := by
  intro a
  unfold serveHoarding
  rw [hserving, show u.line.head? = some ticket from hhead]
  dsimp only
  rw [Registry.hoard_acts, Exchange.serve, show u.line.head? = some ticket from hhead]
  dsimp only
  rw [Keeper.respondHoarding_eq, hserving]
  rfl

theorem serveHoarding_of_idle (h : u.exchange.isServing → u.mailbox.queue = []) :
    u.serveHoarding counts = u := by
  unfold serveHoarding
  split
  · next ticket hserving hhead =>
    rw [show u.line.head? = u.mailbox.queue.head? from rfl, h hserving] at hhead
    cases hhead
  · rfl

/-- The service `u`, whose keeper hoards, is to be told from `s` by nothing but counts and by what is
out of reach. -/
structure Shadows (base : Log) (s u : Service) : Prop where
  handles : u.handles = s.handles
  isServing : u.exchange.isServing = s.exchange.isServing
  line : u.line.veil = s.line.veil
  feed : u.exchange.server.feed = s.exchange.server.feed
  history : u.history.exceptCounts = s.history.exceptCounts
  canCreate : u.registry.canCreate = s.registry.canCreate
  reflects : u.registry.Reflects (base ++ s.history.published)

namespace Shadows

theorem alive (h : Shadows base s u) : u.alive = s.alive := by
  have hholds : u.line.holds = s.line.holds := by rw [← Line.holds_veil, h.line, Line.holds_veil]
  funext t
  rw [Service.alive, Service.alive, Line.alive, Line.alive, hholds, h.handles]

theorem mailbox (h : Shadows base s u) : u.mailbox = s.mailbox := by
  have hbox := congrArg Line.mailbox h.line
  exact hbox

theorem clients (h : Shadows base s u) : u.line.clients = s.line.clients := by
  have hclients := congrArg Line.clients h.line
  exact hclients

/-- Moves that leave the keepers and the histories alone. -/
theorem transfer (h : Shadows base s u) {s' u' : Service} (hhandles : u'.handles = s'.handles)
    (hserving : u'.exchange.isServing = s'.exchange.isServing) (hline : u'.line.veil = s'.line.veil)
    (hs : s'.exchange.server = s.exchange.server ∧ s'.history = s.history)
    (hu : u'.exchange.server = u.exchange.server ∧ u'.history = u.history) : Shadows base s' u' where
  handles := hhandles
  isServing := hserving
  line := hline
  feed := by rw [hs.1, hu.1, h.feed]
  history := by rw [hs.2, hu.2, h.history]
  canCreate := by rw [registry, registry, hs.1, hu.1, h.canCreate]
  reflects := by
    rw [registry, hs.2, hu.1]
    exact h.reflects

theorem turn (h : Shadows base s u) (call : Nat) : Shadows base (s.turn call) (u.turn call) := by
  have hline : (u.line.callerTurn call).veil = (s.line.callerTurn call).veil := by
    rw [Line.veil_callerTurn, h.line, ← Line.veil_callerTurn]
  have hqueue := congrArg (fun l : Line => l.mailbox.queue) hline
  have hposting : u.line.posting call = s.line.posting call := by
    rw [← Line.posting_veil, h.line, Line.posting_veil]
  let new : History := (s.line.posting call).map .sent ++
    ((s.line.callerTurn call).mailbox.queue.drop s.mailbox.queue.length).map .accepted
  have hs : (s.turn call).history = s.history ++ new := rfl
  have hu : (u.turn call).history = u.history ++ new := by
    simp only [Line.mailbox_veil] at hqueue
    rw [Service.turn, hposting, hqueue, h.mailbox]
  have hpublished : (s.history ++ new).published = s.history.published :=
    (s.history.append_requests _ _).2.2.2.1
  refine ⟨h.handles, h.isServing, hline, h.feed, ?_, h.canCreate, ?_⟩
  · rw [hs, hu, History.exceptCounts_append _ new, History.exceptCounts_append _ new, h.history]
  · rw [hs, hpublished]
    exact h.reflects

/-- Both keepers say the same unless they are asked for a prune, and report the same as created. -/
theorem answer (h : Shadows base s u) (hr : s.Recorded base log) {ticket : Ticket} {a : Answer}
    {r : Registry} (hhead : s.mailbox.queue.head? = some ticket)
    (hperform : s.registry.perform s.alive ticket.request = (a, r)) (count : Nat) :
    let b := u.registry.hoardAnswer count u.alive ticket.request
    b.created? = a.created? ∧ (ticket.request.isPrune = false → b = a) := by
  intro b
  have ha : a = (s.registry.perform s.alive ticket.request).1 := by rw [hperform]
  by_cases hprune : ticket.request.isPrune
  · have hb : b = .ok (.count count) := if_pos hprune
    rw [Request.isPrune_iff.mp hprune] at ha
    refine ⟨?_, fun hno => by rw [hprune] at hno; cases hno⟩
    rw [hb, ha]
    rfl
  · have hb : b = (u.registry.perform s.alive ticket.request).1 := by
      rw [← h.alive]
      exact if_neg hprune
    have hagree : b = a := by
      rw [hb, ha]
      exact (hr.reflects.perform_agree s.alive_consistent h.reflects hr.agree h.canCreate.symm
        (fun he => hprune (Request.isPrune_iff.mpr he)) fun t ht => alive_of_head hhead ht).symm
    exact ⟨congrArg Answer.created? hagree, fun _ => hagree⟩

theorem serve (h : Shadows base s u) (hr : s.Recorded base log) :
    Shadows base s.serve (u.serveHoarding counts) := by
  rcases s.serve_cases with ⟨he, hidle⟩ | ⟨ticket, a, r, hserving, hhead, hperform, he⟩ <;> rw [he]
  · rw [serveHoarding_of_idle fun hserving => ?_]
    · exact h
    · rw [h.mailbox]
      exact hidle (h.isServing ▸ hserving)
  rw [serveHoarding_of_head (h.isServing ▸ hserving) (h.mailbox ▸ hhead)]
  obtain ⟨hcreated, hsame⟩ := h.answer hr hhead hperform (counts ticket.call)
  refine ⟨h.handles, rfl, ?_, ?_, ?_, ?_, ?_⟩
  · rw [Line.veil_answer _ _ _ a, Line.veil_dropHead, h.line, ← Line.veil_dropHead,
      ← Line.veil_answer _ _ a]
  · rw [hcreated, h.feed]
  · rw [History.exceptCounts_append, History.exceptCounts_append, h.history, h.alive]
    refine congrArg (s.history.exceptCounts ++ ·) ?_
    cases hprune : ticket.request.isPrune with
    | false => rw [← h.alive, hsame hprune]
    | true =>
      simp [History.exceptCounts, Answer.happenings, ← h.alive, hcreated, Happening.isCount, hprune]
  · rw [Registry.canCreate_seed, h.canCreate]
    exact (Registry.canCreate_perform hperform).symm
  · obtain ⟨_, _, _, hpublished, _⟩ := s.history.append_handled ticket s.alive a
    rw [hpublished, hcreated, ← List.append_assoc]
    exact h.reflects.seed _

theorem step (h : Shadows base s u) (hr : s.Recorded base log) (m : Move) :
    Shadows base (s.step m) (u.stepHoarding counts m) := by
  cases m with
  | serve => exact h.serve hr
  | turn call => exact h.turn call
  | handles step =>
    have hhandles : u.handles.step u.alive step = s.handles.step s.alive step := by
      rw [h.alive, h.handles]
    exact h.transfer hhandles h.isServing h.line ⟨rfl, rfl⟩ ⟨rfl, rfl⟩
  | openClient =>
    simp only [stepHoarding, Service.step, h.clients]
    split
    · exact h
    · exact h.transfer h.handles h.isServing (congrArg (·.openClient.2) h.line) ⟨rfl, rfl⟩ ⟨rfl, rfl⟩
  | dropClient client =>
    exact h.transfer h.handles h.isServing (congrArg (·.dropClient client) h.line) ⟨rfl, rfl⟩
      ⟨rfl, rfl⟩
  | issue client call =>
    have hline : (u.line.issue client call).2.veil = (s.line.issue client call).2.veil := by
      rw [Line.veil_issue, Line.veil_issue, h.line]
    simp only [stepHoarding, Service.step, h.clients, h.alive]
    split
    · exact h.transfer h.handles h.isServing hline ⟨rfl, rfl⟩ ⟨rfl, rfl⟩
    · exact h
  | giveUp call =>
    have hline : (u.line.giveUp call).veil = (s.line.giveUp call).veil := by
      rw [Line.veil_giveUp, h.line, ← Line.veil_giveUp]
    exact h.transfer h.handles h.isServing hline ⟨rfl, rfl⟩ ⟨rfl, rfl⟩
  | start =>
    have hline : (u.line.wake .server).veil = (s.line.wake .server).veil := by
      rw [Line.veil_wake, Line.veil_wake, h.line]
    exact h.transfer h.handles rfl hline ⟨rfl, rfl⟩ ⟨rfl, rfl⟩

end Shadows

theorem stepHoarding_accounted (ha : Accounted u.line u.history) (m : Move) :
    Accounted (u.stepHoarding counts m).line (u.stepHoarding counts m).history := by
  cases m with
  | serve =>
    rw [stepHoarding]
    cases hserving : u.exchange.isServing with
    | false =>
      rw [serveHoarding_of_idle fun h => by rw [hserving] at h; cases h]
      exact ha
    | true =>
      cases hqueue : u.mailbox.queue with
      | nil =>
        rw [serveHoarding_of_idle fun _ => hqueue]
        exact ha
      | cons ticket rest =>
        have hhead : u.mailbox.queue.head? = some ticket := by rw [hqueue]; rfl
        rw [serveHoarding_of_head hserving hhead]
        exact ha.serve hhead u.alive _
  | handles step => exact step_accounted ha (.handles step)
  | openClient => exact step_accounted ha .openClient
  | dropClient client => exact step_accounted ha (.dropClient client)
  | issue client call => exact step_accounted ha (.issue client call)
  | turn call => exact step_accounted ha (.turn call)
  | giveUp call => exact step_accounted ha (.giveUp call)
  | start => exact step_accounted ha .start

end Service

/-- Behind the veil, callers take note of the same answers if they are given the same. -/
theorem Accounted.result?_of_veil {l l' : Line} {h h' : History} (ha : Accounted l h)
    (ha' : Accounted l' h') (hveil : l.veil = l'.veil) {ticket : Ticket} (hm : ticket ∈ h.sent)
    (hanswered : ∀ a, (ticket, a) ∈ h.answered → (ticket, a) ∈ h'.answered) {a : Answer}
    (hr : l.result? ticket.call = some a) : l'.result? ticket.call = some a := by
  rw [Line.result?_eq_some] at hr ⊢
  have hgiven : (ticket, a) ∈ h.answered := by
    rcases ha.placed_of_sent hm with ⟨hp, _⟩ | ⟨b, hb, hp | hp⟩ | ⟨hp, _⟩ <;> cases hr.symm.trans hp
    exact hb
  obtain ⟨b, hp⟩ := Line.finished_of_veil hveil hr
  rcases ha'.progress?_of_answered (hanswered a hgiven) with h | h | h
  · cases hp.symm.trans h
  · exact h
  · cases hp.symm.trans h

namespace Service

/-- Both services are as accounted for, and one shadows the other, as long as they make the same
moves. -/
theorem Shadows.run (h : Shadows base s u) (hr : s.Recorded base log) (ha : Accounted s.line s.history)
    (ha' : Accounted u.line u.history) (moves : List Move) :
    Shadows base (s.run moves) (u.runHoarding counts moves) ∧
      Accounted (s.run moves).line (s.run moves).history ∧
      Accounted (u.runHoarding counts moves).line (u.runHoarding counts moves).history := by
  induction moves generalizing s u log with
  | nil => exact ⟨h, ha, ha'⟩
  | cons m moves ih =>
    obtain ⟨_, hr'⟩ := hr.step ha.isOpen m
    exact ih (h.step hr m) hr' (step_accounted ha m) (stepHoarding_accounted ha' m)

theorem Shadows.takeOver (ops : List Session.Op) (channelCapacity eventCapacity : Nat) :
    let session := Session.start.run ops
    let first := Service.takeOver session channelCapacity eventCapacity
    Shadows session.log first first := by
  intro session first
  refine ⟨rfl, rfl, rfl, rfl, rfl, rfl, ?_⟩
  rw [show session.log ++ first.history.published = session.log from List.append_nil _]
  exact Session.run_reflects Registry.reflects_empty ops

/-- Whether or not a keeper drops the sources of targets that are gone, and whatever it says to those
who ask it to: all other answers are the same and are given and taken note of at the same time, and
the same is published. -/
theorem pruning_is_invisible (ops : List Session.Op) (channelCapacity eventCapacity : Nat)
    (moves : List Move) (counts : Nat → Nat) :
    let first := takeOver (Session.start.run ops) channelCapacity eventCapacity
    let s := first.run moves
    let u := first.runHoarding counts moves
    u.history.exceptCounts = s.history.exceptCounts ∧
      (u.history.answered.filter fun entry => !entry.1.request.isPrune) =
        (s.history.answered.filter fun entry => !entry.1.request.isPrune) ∧
      u.history.published = s.history.published ∧
      u.exchange.server.feed = s.exchange.server.feed ∧
      ∀ ticket ∈ s.history.sent, ticket.request.isPrune = false →
        u.line.result? ticket.call = s.line.result? ticket.call := by
  intro first s u
  have hfirst : Accounted first.line first.history := takeOver_accounted _ channelCapacity eventCapacity
  obtain ⟨h, ha, ha'⟩ : Shadows _ s u ∧ Accounted s.line s.history ∧ Accounted u.line u.history :=
    (Shadows.takeOver ops channelCapacity eventCapacity).run
      (takeOver_recorded ops channelCapacity eventCapacity) hfirst hfirst moves
  have hanswered : (u.history.answered.filter fun entry => !entry.1.request.isPrune) =
      s.history.answered.filter fun entry => !entry.1.request.isPrune := by
    rw [← History.answered_exceptCounts, h.history, History.answered_exceptCounts]
  have hsent : u.history.sent = s.history.sent := by
    rw [← History.sent_exceptCounts, h.history, History.sent_exceptCounts]
  have hpublished : u.history.published = s.history.published := by
    rw [← History.published_exceptCounts, h.history, History.published_exceptCounts]
  refine ⟨h.history, hanswered, hpublished, h.feed, fun ticket hm hprune => ?_⟩
  have hmem : ∀ a, (ticket, a) ∈ u.history.answered ↔ (ticket, a) ∈ s.history.answered := by
    intro a
    have := congrArg ((ticket, a) ∈ ·) hanswered
    simpa [hprune] using this
  refine Option.ext fun a => ⟨?_, ?_⟩
  · exact ha'.result?_of_veil ha h.line (hsent ▸ hm) fun a => (hmem a).mp
  · exact ha.result?_of_veil ha' h.line.symm hm fun a => (hmem a).mpr

end Service

end ScopedResources
