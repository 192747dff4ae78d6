import ScopedResources.Proofs.Registry.Session
import ScopedResources.Proofs.Service.Handling
import ScopedResources.Proofs.Service.Turns

/-! # Runs of a service

A service is given the handles and the registry of a session. From then on anyone may move at any
time: callers make and release targets, open and drop clients, issue calls, take turns and go away;
the service is started and handles one request after the other. What others see of that is noted in
a history. -/

namespace ScopedResources

structure Service where
  handles : Handles
  exchange : Exchange Keeper
  history : History

/-- What can happen next. -/
inductive Move where
  | handles (step : Handles.Step)
  | openClient
  | dropClient (client : Nat)
  | issue (client : Nat) (call : Call)
  | turn (call : Nat)
  | giveUp (call : Nat)
  | start
  | serve

/-- The targets that a call keeps. -/
def Call.targets (c : Call) : List Target :=
  c.keeps.toList ++ ((Progress.issued c.request).request?.bind Request.target?).toList

namespace Service

abbrev line (s : Service) : Line := s.exchange.line

abbrev mailbox (s : Service) : Mailbox Ticket := s.exchange.line.mailbox

abbrev registry (s : Service) : Registry := s.exchange.server.registry

/-- The targets that are there: those that a handle, a call or a request keeps. -/
def alive (s : Service) : Liveness := s.line.alive s.handles.holds

/-! ## Moves -/

/-- A caller takes its turn, which may put its request into the mailbox. -/
def turn (s : Service) (call : Nat) : Service :=
  let line := s.line.callerTurn call
  { s with
    exchange.line := line
    history := s.history ++ ((s.line.posting call).map .sent ++
      (line.mailbox.queue.drop s.mailbox.queue.length).map .accepted) }

/-- A service that has been started handles the first request in its mailbox. -/
def serve (s : Service) : Service :=
  match s.exchange.isServing, s.line.head? with
  | true, some ticket =>
    { s with
      exchange := s.exchange.serve Keeper.respond s.handles.holds
      history := s.history ++ .handled ticket s.alive ::
        (s.registry.handle s.alive ticket.request).acts.filterMap (Act.happening? ticket) }
  | _, _ => s

def step (s : Service) : Move → Service
  | .handles step => { s with handles := s.handles.step s.alive step }
  | .openClient =>
    -- A client is made from one that is open.
    if s.line.clients.isEmpty then s else { s with exchange.line := s.line.openClient.2 }
  | .dropClient client => { s with exchange.line := s.line.dropClient client }
  | .issue client call =>
    -- Whoever passes a target holds it.
    if client ∈ s.line.clients ∧ call.targets.all s.alive then
      { s with exchange.line := (s.line.issue client call).2 }
    else s
  | .turn call => s.turn call
  | .giveUp call => { s with exchange.line := s.line.giveUp call }
  | .start => { s with exchange := s.exchange.start }
  | .serve => s.serve

def run (s : Service) (moves : List Move) : Service := moves.foldl step s

/-- The service that takes over a session's registry, not started yet and with one client. -/
def takeOver (session : Session) (channelCapacity eventCapacity : Nat) : Service :=
  ⟨session.handles, Keeper.service session.registry channelCapacity eventCapacity, []⟩

/-- What holds at the start and is kept by every move that is made holds after a run. -/
theorem run_induction {P : Service → Prop} (moves : List Move)
    (hstep : ∀ s, ∀ m ∈ moves, P s → P (s.step m)) {s : Service} (h : P s) : P (s.run moves) := by
  induction moves generalizing s with
  | nil => exact h
  | cons m moves ih =>
    have hrest : ∀ s, ∀ m' ∈ moves, P s → P (s.step m') := fun s m' hm' =>
      hstep s m' (List.mem_cons_of_mem m hm')
    exact ih hrest (hstep s m List.mem_cons_self h)

/-! ## What serving comes to -/

/-- Serving answers the first request as its operation answers it, or nothing is there to be done. -/
theorem serve_cases (s : Service) :
    (s.serve = s ∧ (s.exchange.isServing → s.mailbox.queue = [])) ∨
    ∃ ticket a r, s.exchange.isServing ∧ s.mailbox.queue.head? = some ticket ∧
      s.registry.perform s.alive ticket.request = (a, r) ∧
      s.serve = ⟨s.handles, ⟨s.line.dropHead.answer ticket.call a,
        ⟨r, a.created?.toList.foldl Feed.publish s.exchange.server.feed⟩, true⟩,
        s.history ++ .handled ticket s.alive :: a.happenings ticket⟩ := by
  unfold serve
  split
  · next ticket hserving hhead =>
    refine .inr ⟨ticket, _, _, hserving, hhead, rfl, ?_⟩
    rw [Registry.handle_acts, Exchange.serve, hhead]
    dsimp only
    rw [Keeper.respond_eq, hserving]
    rfl
  · next hnone =>
    refine .inl ⟨rfl, fun hserving => ?_⟩
    cases hqueue : s.mailbox.queue with
    | nil => rfl
    | cons ticket rest => exact absurd (congrArg List.head? hqueue) (hnone ticket hserving)

/-- A move that serves nothing leaves the keeper alone and adds at most requests to the history. One
that serves a request handles it as its operation does. -/
theorem step_cases (s : Service) (m : Move) :
    ((s.step m).exchange.server = s.exchange.server ∧ ∃ new taken : List Ticket,
      (s.step m).history = s.history ++ (new.map .sent ++ taken.map .accepted)) ∨
    ∃ ticket a r, s.mailbox.queue.head? = some ticket ∧
      s.registry.perform s.alive ticket.request = (a, r) ∧
      (s.step m).exchange.server =
        ⟨r, a.created?.toList.foldl Feed.publish s.exchange.server.feed⟩ ∧
      (s.step m).history = s.history ++ .handled ticket s.alive :: a.happenings ticket := by
  have hquiet : s.history = s.history ++ (([] : List Ticket).map .sent ++
      ([] : List Ticket).map .accepted) := (List.append_nil _).symm
  cases m with
  | turn call => exact .inl ⟨rfl, _, _, rfl⟩
  | serve =>
    rcases s.serve_cases with ⟨he, _⟩ | ⟨ticket, a, r, _, hhead, hp, he⟩ <;> rw [step, he]
    · exact .inl ⟨rfl, [], [], hquiet⟩
    · exact .inr ⟨ticket, a, r, hhead, hp, rfl, rfl⟩
  | openClient =>
    simp only [step]
    split <;> exact .inl ⟨rfl, [], [], hquiet⟩
  | issue client call =>
    simp only [step]
    split <;> exact .inl ⟨rfl, [], [], hquiet⟩
  | handles step => exact .inl ⟨rfl, [], [], hquiet⟩
  | dropClient client => exact .inl ⟨rfl, [], [], hquiet⟩
  | giveUp call => exact .inl ⟨rfl, [], [], hquiet⟩
  | start => exact .inl ⟨rfl, [], [], hquiet⟩

/-! ## What the line carries -/

/-- Only an issue brings something new to the line. -/
theorem carries_step {s : Service} {q : Request → Prop} {f : CallState → Prop}
    (hi : Line.Inherits q f) (hopen : s.mailbox.isOpen) {m : Move}
    (h : (s.step m).line.Carries q f) :
    s.line.Carries q f ∨ ∃ client call, m = .issue client call ∧ call.targets.all s.alive ∧
      f ⟨client, call.keeps, .issued call.request⟩ := by
  cases m with
  | handles step => exact .inl h
  | openClient =>
    simp only [step] at h
    split at h <;> exact .inl h
  | dropClient client => exact .inl h
  | issue client call =>
    simp only [step] at h
    split at h
    · next hg =>
      exact (Line.carries_issue h).imp_right fun hf => ⟨client, call, rfl, hg.2, hf⟩
    · exact .inl h
  | turn call => exact .inl (Line.carries_callerTurn hi hopen h)
  | giveUp call => exact .inl (Line.carries_giveUp hi h)
  | start =>
    rw [Line.Carries, step, Exchange.start, line, Line.mailbox_wake, Line.calls_wake] at h
    exact .inl h
  | serve =>
    simp only [step] at h
    rcases s.serve_cases with ⟨he, _⟩ | ⟨ticket, a, r, _, _, _, he⟩ <;> rw [he] at h
    · exact .inl h
    · exact .inl (Line.carries_dropHead (Line.carries_answer hi h))

/-! ## Lifetimes -/

theorem alive_eq_true {s : Service} {t : Target} :
    s.alive t ↔ s.handles.holds t ∨ s.line.holds t := by simp [alive, Line.alive]

theorem alive_consistent (s : Service) : s.alive.Consistent := by
  intro t u h
  rw [alive, Line.alive, Line.alive, s.handles.holds_consistent h, s.line.holds_consistent h]

/-- A request keeps its target until it has been handled. -/
theorem alive_of_head {s : Service} {ticket : Ticket} {t : Target}
    (hhead : s.mailbox.queue.head? = some ticket) (ht : ticket.request.target? = some t) :
    s.alive t := by
  refine alive_eq_true.mpr (.inr (Line.holds_iff_carries.mpr (.inl ⟨ticket, ?_, by simp [ht]⟩)))
  rw [Mailbox.contents_eq]
  exact List.mem_append_left _ (List.mem_of_head? hhead)

theorem handles_step (s : Service) (m : Move) : (s.step m).handles = s.handles ∨
    ∃ step, m = .handles step ∧ (s.step m).handles = s.handles.step s.alive step := by
  cases m with
  | handles step => exact .inr ⟨step, rfl, rfl⟩
  | openClient =>
    simp only [step]
    split <;> exact .inl rfl
  | issue client call =>
    simp only [step]
    split <;> exact .inl rfl
  | serve =>
    simp only [step, serve]
    split <;> exact .inl rfl
  | dropClient client => exact .inl rfl
  | turn call => exact .inl rfl
  | giveUp call => exact .inl rfl
  | start => exact .inl rfl

/-- A target that is there after a move was there before, or it is the one that was made. -/
theorem alive_step {s : Service} (hopen : s.mailbox.isOpen) {m : Move} {t : Target}
    (ht : (s.step m).alive t) :
    s.alive t ∨ t.id = s.handles.issued ∧ s.handles.issued < (s.step m).handles.issued := by
  rcases alive_eq_true.mp ht with ht | ht
  · rcases s.handles_step m with he | ⟨step, rfl, he⟩ <;> rw [he] at ht
    · exact .inl (alive_eq_true.mpr (.inl ht))
    · exact Handles.holds_step s.alive_consistent (fun u hu => alive_eq_true.mpr (.inl hu)) ht
  · rcases carries_step (Line.inherits_holds t) hopen (Line.holds_iff_carries.mp ht) with
      h | ⟨client, call, _, hall, hf⟩
    · exact .inl (alive_eq_true.mpr (.inr (Line.holds_iff_carries.mpr h)))
    · -- Whoever issued the call held the target.
      obtain ⟨u, hu, hut⟩ : ∃ u ∈ call.targets, u == t := by
        simpa [CallState.holds, Call.targets, Option.any_eq_true, CallState.isOver, or_and_right,
          exists_or] using hf
      exact .inl (s.alive_consistent hut ▸ List.all_eq_true.mp hall u hu)

/-- A target that had been made before a move is not there after it unless it was there before. -/
theorem alive_of_step {s : Service} (hopen : s.mailbox.isOpen) (m : Move) (t : Target)
    (ht : s.handles.knows t) (hlater : (s.step m).alive t) : s.alive t := by
  rcases alive_step hopen hlater with h | ⟨hid, _⟩
  · exact h
  · have := of_decide_eq_true ht
    omega

theorem issued_le (s : Service) (m : Move) : s.handles.issued ≤ (s.step m).handles.issued := by
  rcases s.handles_step m with he | ⟨step, _, he⟩
  · exact Nat.le_of_eq (congrArg Handles.issued he.symm)
  · rw [he]
    exact s.handles.issued_le_step s.alive step

theorem knows_step {s : Service} (hopen : s.mailbox.isOpen)
    (hheld : ∀ t, s.alive t → s.handles.knows t) (m : Move) (t : Target)
    (ht : (s.step m).alive t) : (s.step m).handles.knows t := by
  have hle := s.issued_le m
  rcases alive_step hopen ht with h | ⟨hid, hlt⟩
  · have := of_decide_eq_true (hheld t h)
    exact decide_eq_true (by omega)
  · exact decide_eq_true (by omega)

end Service

end ScopedResources
