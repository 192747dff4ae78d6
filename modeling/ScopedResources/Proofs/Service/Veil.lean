import ScopedResources.Proofs.Service.Turns

/-! # Lines behind a veil

What callers and the server do to a line does not depend on what answers say: behind a veil that hides
the answers, lines that look the same go on looking the same. -/

namespace ScopedResources

/-- The progress of a call but for what its answer says. -/
def Progress.veil : Progress → Progress
  | answered _ => answered (.error .dropped)
  | finished _ => finished (.error .dropped)
  | p => p

@[simp]
theorem Progress.veil_veil (p : Progress) : p.veil.veil = p.veil := by cases p <;> rfl

namespace CallState

def veil (c : CallState) : CallState := { c with progress := c.progress.veil }

@[simp]
theorem veil_veil (c : CallState) : c.veil.veil = c.veil := by simp [veil]

@[simp]
theorem holds_veil (c : CallState) (t : Target) : c.veil.holds t = c.holds t := by
  obtain ⟨client, keeps, progress⟩ := c
  cases progress <;> rfl

end CallState

namespace Line

variable {l l' : Line}

def veil (l : Line) : Line := { l with calls := l.calls.map CallState.veil }

@[simp]
theorem veil_veil (l : Line) : l.veil.veil = l.veil := by simp [veil]

@[simp]
theorem mailbox_veil (l : Line) : l.veil.mailbox = l.mailbox := rfl

@[simp]
theorem progress?_veil (l : Line) (call : Nat) :
    l.veil.progress? call = (l.progress? call).map Progress.veil := by
  simp only [progress?, veil, List.getElem?_map, Option.map_map]
  rfl

/-- Calls finish at the same time. -/
theorem finished_of_veil (h : l.veil = l'.veil) {call : Nat} {a : Answer}
    (hp : l.progress? call = some (.finished a)) : ∃ b, l'.progress? call = some (.finished b) := by
  have hveil := congrArg (progress? · call) h
  simp only [progress?_veil, hp] at hveil
  obtain ⟨p, hp, hpv⟩ := Option.map_eq_some_iff.mp hveil.symm
  cases p with
  | finished b => exact ⟨b, hp⟩
  | issued _ | sent | answered _ | abandoned => simp [Progress.veil] at hpv

theorem holds_veil (l : Line) : l.veil.holds = l.holds := by
  funext t
  simp only [holds, mailbox_veil]
  simp only [veil, List.any_map, Function.comp_def, CallState.holds_veil]

theorem posting_veil (l : Line) (call : Nat) : l.veil.posting call = l.posting call := by
  simp only [posting, mailbox_veil, progress?_veil]
  rcases l.progress? call with _ | p
  · rfl
  · cases p <;> rfl

/-! ## Turns behind the veil -/

@[simp]
theorem veil_wake (l : Line) (p : Party) : (l.wake p).veil = l.veil.wake p := by
  by_cases h : p ∈ l.woken
  · rw [wake, wake, if_pos h, if_pos (show p ∈ l.veil.woken from h)]
  · rw [wake, wake, if_neg h, if_neg (show p ∉ l.veil.woken from h)]
    rfl

@[simp]
theorem veil_setProgress (l : Line) (call : Nat) (p : Progress) :
    (l.setProgress call p).veil = l.veil.setProgress call p.veil := by
  simp only [veil, setProgress, Line.mk.injEq, true_and, and_true]
  refine List.ext_getElem? fun i => ?_
  simp only [List.getElem?_map, List.getElem?_modify]
  cases l.calls[i]? with
  | none => rfl
  | some c => by_cases h : call = i <;> simp [h, CallState.veil]

@[simp]
theorem veil_issue (l : Line) (client : Nat) (c : Call) :
    (l.issue client c).2.veil = (l.veil.issue client c).2 := by
  rw [issue, issue, veil_wake]
  simp [veil, CallState.veil, Progress.veil]

@[simp]
theorem veil_post (l : Line) (ticket : Ticket) : (l.post ticket).veil = l.veil.post ticket := by
  by_cases h : l.mailbox.hasRoom
  · rw [post, post, if_pos h, if_pos (show l.veil.mailbox.hasRoom from h), veil_wake]
    rfl
  · rw [post, post, if_neg h, if_neg (show ¬l.veil.mailbox.hasRoom from h)]
    rfl

@[simp]
theorem veil_withMailbox (l : Line) (m : Mailbox Ticket) :
    { l with mailbox := m }.veil = { l.veil with mailbox := m } := rfl

theorem veil_proceed (l : Line) (call : Nat) :
    (l.proceed call).veil = (l.veil.proceed call).veil := by
  by_cases hcalled : l.mailbox.called.any fun ticket => ticket.call == call
  · rw [proceed, proceed, if_pos hcalled, if_pos (show l.veil.mailbox.called.any _ from hcalled)]
    simp
  rw [proceed, proceed, if_neg hcalled, if_neg (show ¬l.veil.mailbox.called.any _ from hcalled)]
  by_cases hlate : !l.mailbox.isOpen && l.mailbox.waiting.any fun ticket => ticket.call == call
  · rw [if_pos hlate, if_pos (show !l.veil.mailbox.isOpen && l.veil.mailbox.waiting.any _ from hlate)]
    simp
  · rw [if_neg hlate,
      if_neg (show ¬(!l.veil.mailbox.isOpen && l.veil.mailbox.waiting.any _) from hlate), veil_veil]

theorem veil_callerTurn (l : Line) (call : Nat) :
    (l.callerTurn call).veil = (l.veil.callerTurn call).veil := by
  unfold callerTurn
  rw [progress?_veil, mailbox_veil]
  rcases l.progress? call with _ | p
  · simp
  cases p with
  | issued request =>
    cases request with
    | error e => simp [Progress.veil]
    | ok request =>
      by_cases h : l.mailbox.isOpen <;> simp [Progress.veil, h]
  | sent => exact l.veil_proceed call
  | answered a => simp [Progress.veil]
  | finished a => simp [Progress.veil]
  | abandoned => simp [Progress.veil]

theorem veil_giveUp (l : Line) (call : Nat) : (l.giveUp call).veil = (l.veil.giveUp call).veil := by
  unfold giveUp
  rw [progress?_veil, mailbox_veil]
  rcases l.progress? call with _ | p
  · simp
  cases p with
  | finished a => simp [Progress.veil]
  | abandoned => simp [Progress.veil]
  | issued _ | sent | answered _ =>
    dsimp only [Option.map_some, Progress.veil]
    split <;> simp

theorem veil_dropHead (l : Line) : l.dropHead.veil = l.veil.dropHead := by
  unfold dropHead
  rw [mailbox_veil]
  dsimp only
  split
  · rw [veil_wake]
    rfl
  · rfl

/-- An answer is not told from another. -/
theorem veil_answer (l : Line) (call : Nat) (a b : Answer) :
    (l.answer call a).veil = (l.veil.answer call b).veil := by
  unfold answer isUnanswered
  rw [progress?_veil]
  rcases l.progress? call with _ | p
  · simp
  cases p <;> simp [Progress.veil]

end Line

end ScopedResources
