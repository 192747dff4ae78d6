import ScopedResources.Proofs.Service.Accounts

/-! # Lines that are hung up

A server that goes away gives up the requests that it had taken in. Whoever still waits for room then,
or has yet to send, comes too late. An answer that is there stays there, whatever the others do. -/

namespace ScopedResources

namespace Line

variable {l l' : Line} {call d : Nat} {a b : Answer}

/-! ## Progress of other calls -/

theorem calls_post (l : Line) (ticket : Ticket) : (l.post ticket).calls = l.calls := by
  unfold post
  dsimp only
  split
  · exact calls_wake ..
  · rfl

theorem progress?_callerTurn_of_ne (h : d ≠ call) :
    (l.callerTurn call).progress? d = l.progress? d := by
  unfold callerTurn
  split
  · exact progress?_setProgress_of_ne h _
  · split
    · rw [progress?_congr (calls_post ..)]
      exact progress?_setProgress_of_ne h _
    · exact progress?_setProgress_of_ne h _
  · unfold proceed
    dsimp only
    split
    · exact progress?_congr (calls_wake ..) d
    · split
      · exact progress?_setProgress_of_ne h _
      · rfl
  · exact progress?_setProgress_of_ne h _
  · rfl
  · rfl
  · rfl

theorem progress?_giveUp_of_ne (h : d ≠ call) :
    (l.giveUp call).progress? d = l.progress? d := by
  rcases l.giveUp_cases call with he | ⟨_, hcalls, _⟩
  · rw [he]
  · rw [progress?_congr hcalls, progress?_setProgress_of_ne h]

theorem progress?_giveUp (l : Line) (call : Nat) :
    l.giveUp call = l ∨ (l.giveUp call).progress? call = some .abandoned := by
  rcases l.giveUp_cases call with he | ⟨⟨c, hc, _⟩, hcalls, _⟩
  · exact .inl he
  · have hp : l.progress? call = some c.progress := congrArg (Option.map _) hc
    exact .inr ((progress?_congr hcalls call).trans (progress?_setProgress hp))

theorem progress?_issue_of_some {p : Progress} (h : l.progress? call = some p) (client : Nat)
    (c : Call) : (l.issue client c).2.progress? call = some p := by
  rw [progress?_issue, if_neg, h]
  rintro rfl
  rw [progress?_length] at h
  cases h

theorem progress?_answer_of_ne (h : d ≠ call) : (l.answer call a).progress? d = l.progress? d := by
  rcases l.answer_cases call a with ⟨_, hcalls⟩ | ⟨_, he⟩
  · rw [progress?_congr hcalls, progress?_setProgress_of_ne h]
  · rw [he]

/-! ## Moves of callers -/

/-- What clients and callers can do. -/
inductive CallerMove where
  | openClient
  | dropClient (client : Nat)
  | issue (client : Nat) (call : Call)
  | turn (call : Nat)
  | giveUp (call : Nat)

def move (l : Line) : CallerMove → Line
  | .openClient =>
    -- A client is made from one that is open.
    if l.clients.isEmpty then l else l.openClient.2
  | .dropClient client => l.dropClient client
  | .issue client call => if client ∈ l.clients then (l.issue client call).2 else l
  | .turn call => l.callerTurn call
  | .giveUp call => l.giveUp call

/-- Clients come and go without any effect on calls and mailbox. -/
theorem move_cases (l : Line) (m : CallerMove) :
    ((l.move m).calls = l.calls ∧ (l.move m).mailbox = l.mailbox) ∨
      (∃ client c, l.move m = (l.issue client c).2) ∨ (∃ call, l.move m = l.callerTurn call) ∨
        ∃ call, l.move m = l.giveUp call := by
  cases m with
  | openClient =>
    simp only [move]
    split <;> exact .inl ⟨rfl, rfl⟩
  | dropClient client => exact .inl ⟨rfl, rfl⟩
  | issue client c =>
    simp only [move]
    split
    · exact .inr (.inl ⟨client, c, rfl⟩)
    · exact .inl ⟨rfl, rfl⟩
  | turn call => exact .inr (.inr (.inl ⟨call, rfl⟩))
  | giveUp call => exact .inr (.inr (.inr ⟨call, rfl⟩))

/-! ## Answers stay -/

/-- The caller gets the answer in its next turn at the latest, unless it has gone away. -/
def Receives (l : Line) (call : Nat) (a : Answer) : Prop :=
  l.progress? call = some .abandoned ∨ (l.callerTurn call).result? call = some a

/-- The call has been given the answer, unless its caller has gone away. -/
def Delivered (l : Line) (call : Nat) (a : Answer) : Prop :=
  l.progress? call = some (.answered a) ∨ l.progress? call = some (.finished a) ∨
    l.progress? call = some .abandoned

namespace Delivered

theorem of_progress? (h : l'.progress? call = l.progress? call) (hd : l.Delivered call a) :
    l'.Delivered call a := by
  rwa [Delivered, h]

theorem issue (h : l.Delivered call a) (client : Nat) (c : Call) :
    (l.issue client c).2.Delivered call a := by
  rcases h with h | h | h
  · exact .inl (progress?_issue_of_some h client c)
  · exact .inr (.inl (progress?_issue_of_some h client c))
  · exact .inr (.inr (progress?_issue_of_some h client c))

theorem callerTurn (h : l.Delivered call a) (d : Nat) : (l.callerTurn d).Delivered call a := by
  by_cases hd : call = d
  · subst hd
    unfold Line.callerTurn
    rcases h with h | h | h <;> rw [h]
    · exact .inr (.inl (progress?_setProgress h))
    · exact .inr (.inl h)
    · exact .inr (.inr h)
  · exact h.of_progress? (progress?_callerTurn_of_ne hd)

theorem giveUp (h : l.Delivered call a) (d : Nat) : (l.giveUp d).Delivered call a := by
  by_cases hd : call = d
  · subst hd
    rcases l.progress?_giveUp call with he | hp
    · rwa [he]
    · exact .inr (.inr hp)
  · exact h.of_progress? (progress?_giveUp_of_ne hd)

theorem move (h : l.Delivered call a) (m : CallerMove) : (l.move m).Delivered call a := by
  rcases l.move_cases m with ⟨hcalls, hbox⟩ | ⟨client, c, he⟩ | ⟨d, he⟩ | ⟨d, he⟩
  · exact h.of_progress? (progress?_congr hcalls call)
  · exact he ▸ h.issue client c
  · exact he ▸ h.callerTurn d
  · exact he ▸ h.giveUp d

theorem answer (h : l.Delivered call a) (d : Nat) (b : Answer) :
    (l.answer d b).Delivered call a := by
  rcases l.answer_cases d b with ⟨hp, hcalls⟩ | ⟨_, he⟩
  · have hne : call ≠ d := by
      rintro rfl
      rcases h with h | h | h <;> cases hp.symm.trans h
    exact h.of_progress? ((progress?_congr hcalls call).trans (progress?_setProgress_of_ne hne _))
  · rwa [he]

theorem receives (h : l.Delivered call a) : l.Receives call a := by
  rcases h with h | h | h
  · refine .inr (result?_eq_some.mpr ?_)
    rw [callerTurn_of_answered h, progress?_setProgress h]
  · refine .inr (result?_eq_some.mpr ?_)
    rw [callerTurn_of_finished h, h]
  · exact .inl h

end Delivered

/-- An answer is delivered to a call that waits for it. -/
theorem delivered_answer (h : l.progress? call = some .sent ∨ l.Delivered call a) :
    (l.answer call a).Delivered call a := by
  rcases h with h | h
  · rcases l.answer_cases call a with ⟨hp, hcalls⟩ | ⟨hp, _⟩
    · exact .inl ((progress?_congr hcalls call).trans (progress?_setProgress hp))
    · exact absurd h hp
  · exact h.answer call a

/-! ## The same answer to many -/

/-- Answers requests all in the same way. -/
def answerAll (l : Line) (tickets : List Ticket) (a : Answer) : Line :=
  tickets.foldl (fun l ticket => l.answer ticket.call a) l

theorem mailbox_answerAll (l : Line) (tickets : List Ticket) (a : Answer) :
    (l.answerAll tickets a).mailbox = l.mailbox := by
  induction tickets generalizing l with
  | nil => rfl
  | cons ticket tickets ih => exact (ih _).trans (mailbox_answer ..)

theorem Delivered.answerAll (h : l.Delivered call a) (tickets : List Ticket) (b : Answer) :
    (l.answerAll tickets b).Delivered call a := by
  induction tickets generalizing l with
  | nil => exact h
  | cons ticket tickets ih => exact ih (h.answer ticket.call b)

theorem progress?_answerAll {tickets : List Ticket} (h : call ∉ tickets.map (·.call)) :
    (l.answerAll tickets a).progress? call = l.progress? call := by
  induction tickets generalizing l with
  | nil => rfl
  | cons ticket tickets ih =>
    rw [List.map_cons, List.mem_cons, not_or] at h
    exact (ih h.2).trans (progress?_answer_of_ne h.1)

theorem delivered_answerAll {tickets : List Ticket} (hm : call ∈ tickets.map (·.call))
    (h : l.progress? call = some .sent ∨ l.Delivered call a) :
    (l.answerAll tickets a).Delivered call a := by
  induction tickets generalizing l with
  | nil => cases hm
  | cons ticket tickets ih =>
    by_cases hc : call = ticket.call
    · have hfirst : (l.answer ticket.call a).Delivered call a := hc ▸ delivered_answer (hc ▸ h)
      exact hfirst.answerAll tickets a
    · have hsame : (l.answer ticket.call a).progress? call = l.progress? call :=
        progress?_answer_of_ne hc
      rw [List.map_cons, List.mem_cons, or_iff_right hc] at hm
      exact ih hm (h.imp hsame.trans (·.of_progress? hsame))

/-! ## Hanging up -/

/-- The server has gone away. -/
structure Closed (l : Line) : Prop where
  isOpen : l.mailbox.isOpen = false
  queue : l.mailbox.queue = []
  called : l.mailbox.called = []

theorem hangUp_eq (l : Line) : ∃ warned : Line, warned.calls = l.calls ∧
    warned.mailbox = l.mailbox.close ∧
      l.hangUp = warned.answerAll l.mailbox.queue (.error .dropped) := by
  have hwarned (tickets : List Ticket) (l : Line) :
      let warned := tickets.foldl (fun l ticket => l.wake (.caller ticket.call)) l
      warned.calls = l.calls ∧ warned.mailbox = l.mailbox := by
    induction tickets generalizing l with
    | nil => exact ⟨rfl, rfl⟩
    | cons ticket tickets ih =>
      obtain ⟨hcalls, hbox⟩ := ih (l.wake (.caller ticket.call))
      exact ⟨hcalls.trans (calls_wake ..), hbox.trans (mailbox_wake ..)⟩
  let closed : Line := { l with mailbox := l.mailbox.close }
  obtain ⟨hcalls, hbox⟩ := hwarned closed.mailbox.waiting closed
  exact ⟨_, hcalls, hbox, rfl⟩

theorem mailbox_hangUp (l : Line) : l.hangUp.mailbox = l.mailbox.close := by
  obtain ⟨warned, _, hbox, he⟩ := l.hangUp_eq
  rw [he, mailbox_answerAll, hbox]

theorem closed_hangUp (l : Line) : l.hangUp.Closed := by
  refine ⟨?_, ?_, ?_⟩ <;>
    · rw [mailbox_hangUp]
      rfl

theorem Delivered.hangUp (h : l.Delivered call a) : l.hangUp.Delivered call a := by
  obtain ⟨warned, hcalls, _, he⟩ := l.hangUp_eq
  rw [he]
  exact (h.of_progress? (progress?_congr hcalls call)).answerAll _ _

/-! ## Too late -/

/-- The call has yet to send its request, or the request waits for room. -/
def IsOutside (l : Line) (call : Nat) : Prop :=
  (∃ request, l.progress? call = some (.issued (.ok request))) ∨
    l.progress? call = some .sent ∧ call ∈ l.mailbox.waiting.map (·.call)

/-- Once the line is closed the call comes too late, unless its caller goes away. -/
def TurnedAway (l : Line) (call : Nat) : Prop :=
  l.Delivered call (.error .closed) ∨ l.IsOutside call

namespace Closed

variable (h : l.Closed)

include h

/-- A caller no longer puts anything into the mailbox, and takes out what is its own at most. -/
theorem mailbox_callerTurn (call : Nat) : (l.callerTurn call).mailbox = l.mailbox ∨
    (l.callerTurn call).mailbox = l.mailbox.leave fun ticket => ticket.call == call := by
  unfold callerTurn
  split
  · exact .inl rfl
  · rw [h.isOpen]
    exact .inl rfl
  · unfold proceed
    dsimp only
    rw [h.called, h.isOpen]
    split
    · next hcalled => cases hcalled
    · split
      · exact .inr rfl
      · exact .inl rfl
  · exact .inl rfl
  · exact .inl rfl
  · exact .inl rfl
  · exact .inl rfl

theorem mailbox_giveUp (call : Nat) : (l.giveUp call).mailbox = l.mailbox ∨
    (l.giveUp call).mailbox = l.mailbox.leave fun ticket => ticket.call == call := by
  rcases l.giveUp_cases call with he | ⟨_, _, hbox⟩
  · exact .inl (by rw [he])
  · refine .inr (hbox.trans ?_)
    rw [Mailbox.withdraw, h.called]
    rfl

theorem of_mailbox
    (hbox : l'.mailbox = l.mailbox ∨ ∃ p, l'.mailbox = l.mailbox.leave p) : l'.Closed := by
  rcases hbox with hbox | ⟨p, hbox⟩ <;>
    exact ⟨hbox ▸ h.isOpen, hbox ▸ h.queue, hbox ▸ h.called⟩

theorem issue (client : Nat) (c : Call) : (l.issue client c).2.Closed :=
  h.of_mailbox (.inl (mailbox_wake ..))

theorem callerTurn (call : Nat) : (l.callerTurn call).Closed :=
  h.of_mailbox ((h.mailbox_callerTurn call).imp_right fun hbox => ⟨_, hbox⟩)

theorem giveUp (call : Nat) : (l.giveUp call).Closed :=
  h.of_mailbox ((h.mailbox_giveUp call).imp_right fun hbox => ⟨_, hbox⟩)

theorem move (m : CallerMove) : (l.move m).Closed := by
  rcases l.move_cases m with ⟨hcalls, hbox⟩ | ⟨client, c, he⟩ | ⟨d, he⟩ | ⟨d, he⟩
  · exact h.of_mailbox (.inl hbox)
  · exact he ▸ h.issue client c
  · exact he ▸ h.callerTurn d
  · exact he ▸ h.giveUp d

/-- Whoever comes too late is told so in its turn. -/
theorem finished_callerTurn (hlate : l.IsOutside call) :
    (l.callerTurn call).progress? call = some (.finished (.error .closed)) := by
  unfold Line.callerTurn
  rcases hlate with ⟨request, hp⟩ | ⟨hp, hm⟩
  · rw [hp]
    dsimp only
    rw [h.isOpen]
    exact progress?_setProgress hp
  · have hmine : l.mailbox.waiting.any fun ticket => ticket.call == call := by
      obtain ⟨ticket, hticket, hc⟩ := List.mem_map.mp hm
      exact List.any_eq_true.mpr ⟨ticket, hticket, beq_iff_eq.mpr hc⟩
    rw [hp]
    dsimp only
    unfold proceed
    dsimp only
    rw [h.called, h.isOpen, hmine]
    exact progress?_setProgress hp

end Closed

namespace TurnedAway

variable (h : l.TurnedAway call)

include h

theorem receives (hclosed : l.Closed) : l.Receives call (.error .closed) := by
  rcases h with h | hlate
  · exact h.receives
  · exact .inr (result?_eq_some.mpr (hclosed.finished_callerTurn hlate))

/-- What others do does not matter to a call that comes too late. -/
theorem of_ne (hd : call ≠ d) (hp : l'.progress? call = l.progress? call)
    (hbox : l'.mailbox = l.mailbox ∨
      l'.mailbox = l.mailbox.leave fun ticket => ticket.call == d) : l'.TurnedAway call := by
  unfold TurnedAway Delivered IsOutside
  rw [hp]
  refine h.imp_right (.imp_right (.imp_right ?_))
  intro hm
  rcases hbox with hbox | hbox <;> rw [hbox]
  · exact hm
  · obtain ⟨ticket, hticket, hc⟩ := List.mem_map.mp hm
    refine List.mem_map.mpr ⟨ticket, List.mem_filter.mpr ⟨hticket, ?_⟩, hc⟩
    simpa [hc] using hd

theorem callerTurn (hclosed : l.Closed) (d : Nat) : (l.callerTurn d).TurnedAway call := by
  by_cases hd : call = d
  · subst hd
    rcases h with h | hlate
    · exact .inl (h.callerTurn call)
    · exact .inl (.inr (.inl (hclosed.finished_callerTurn hlate)))
  · exact h.of_ne hd (progress?_callerTurn_of_ne hd) (hclosed.mailbox_callerTurn d)

theorem giveUp (hclosed : l.Closed) (d : Nat) : (l.giveUp d).TurnedAway call := by
  by_cases hd : call = d
  · subst hd
    rcases l.progress?_giveUp call with he | hp
    · rwa [he]
    · exact .inl (.inr (.inr hp))
  · exact h.of_ne hd (progress?_giveUp_of_ne hd) (hclosed.mailbox_giveUp d)

theorem issue (client : Nat) (c : Call) : (l.issue client c).2.TurnedAway call := by
  rcases h with h | ⟨request, hp⟩ | ⟨hp, hm⟩
  · exact .inl (h.issue client c)
  · exact .inr (.inl ⟨request, progress?_issue_of_some hp client c⟩)
  · refine .inr (.inr ⟨progress?_issue_of_some hp client c, ?_⟩)
    rwa [Line.issue, mailbox_wake]

theorem move (hclosed : l.Closed) (m : CallerMove) : (l.move m).TurnedAway call := by
  rcases l.move_cases m with ⟨hcalls, hbox⟩ | ⟨client, c, he⟩ | ⟨d, he⟩ | ⟨d, he⟩
  · unfold TurnedAway Delivered IsOutside
    rw [progress?_congr hcalls, hbox]
    exact h
  · exact he ▸ h.issue client c
  · exact he ▸ h.callerTurn hclosed d
  · exact he ▸ h.giveUp hclosed d

end TurnedAway

end Line

namespace Accounted

variable {l : Line} {h : History} {ticket : Ticket}

theorem move (ha : Accounted l h) (m : Line.CallerMove) : ∃ h', Accounted (l.move m) h' := by
  rcases l.move_cases m with ⟨hcalls, hbox⟩ | ⟨client, c, he⟩ | ⟨d, he⟩ | ⟨d, he⟩
  · exact ⟨h, ha.transfer hcalls hbox⟩
  · exact ⟨h, he ▸ ha.issue client c⟩
  · exact ⟨_, he ▸ ha.turn d⟩
  · exact ⟨h, he ▸ ha.giveUp d⟩

/-- The caller of the first request gets the server's answer. -/
theorem delivered_answer (ha : Accounted l h) (hhead : l.mailbox.queue.head? = some ticket)
    (a : Answer) : (l.dropHead.answer ticket.call a).Delivered ticket.call a := by
  refine (ha.serve hhead l.holds a).progress?_of_answered ?_
  rw [(h.append_handled ticket l.holds a).2.2.2.2.1]
  exact List.mem_append_right _ (List.mem_singleton.mpr rfl)

/-- Requests that have been taken in are given up when the server goes away. -/
theorem delivered_hangUp (ha : Accounted l h) (hm : ticket ∈ l.mailbox.queue) :
    l.hangUp.Delivered ticket.call (.error .dropped) := by
  obtain ⟨warned, hcalls, _, he⟩ := l.hangUp_eq
  have hcontents : ticket ∈ l.mailbox.contents := by
    rw [Mailbox.contents_eq]
    exact List.mem_append_left _ hm
  have hp : l.progress? ticket.call = some .sent ∨ l.progress? ticket.call = some .abandoned := by
    rcases ha.placed_of_sent (ha.mem_sent (List.mem_append_right _ hcontents)) with
      ⟨hp, _⟩ | ⟨a, hanswered, _⟩ | ⟨hp, _⟩
    · exact .inl hp
    · exact absurd hcontents (ha.not_mem_contents hanswered)
    · exact .inr hp
  rw [he]
  refine Line.delivered_answerAll (List.mem_map_of_mem hm) ?_
  rw [Line.Delivered, Line.progress?_congr hcalls]
  exact hp.imp_right fun hp => .inr (.inr hp)

/-- Those who wait for room then come too late. -/
theorem turnedAway_hangUp (ha : Accounted l h) (hm : ticket ∈ l.mailbox.outside) :
    l.hangUp.TurnedAway ticket.call := by
  obtain ⟨warned, hcalls, _, he⟩ := l.hangUp_eq
  have hqueued : ticket.call ∉ l.mailbox.queue.map (·.call) := by
    have hnodup := ha.nodup_calls
    rw [Mailbox.contents_eq, ← List.append_assoc, List.map_append, List.map_append] at hnodup
    intro hq
    exact (List.nodup_append.mp hnodup).2.2 _ (List.mem_append_right _ hq) _
      (List.mem_map_of_mem hm) rfl
  refine .inr (.inr ⟨?_, ?_⟩)
  · rw [he, Line.progress?_answerAll hqueued, Line.progress?_congr hcalls]
    exact ha.progress?_of_mem_outside hm
  · rw [Line.mailbox_hangUp]
    exact List.mem_map_of_mem hm

end Accounted

end ScopedResources
