import ScopedResources.Service.Exchange

/-! # Turns

What callers and the server do to the calls and the mailbox of a line, apart from who is woken. A
line comes to keep a target only when a call is issued. -/

namespace ScopedResources.Line

variable {l : Line} {call : Nat}

@[simp]
theorem calls_wake (l : Line) (p : Party) : (l.wake p).calls = l.calls := by
  unfold wake
  split <;> rfl

@[simp]
theorem mailbox_wake (l : Line) (p : Party) : (l.wake p).mailbox = l.mailbox := by
  unfold wake
  split <;> rfl

/-! ## Progress -/

theorem progress?_congr {l' : Line} (h : l'.calls = l.calls) (d : Nat) :
    l'.progress? d = l.progress? d := by rw [progress?, progress?, h]

theorem progress?_setProgress_of_ne {d : Nat} (h : d ≠ call) (p : Progress) :
    (l.setProgress call p).progress? d = l.progress? d := by
  simp [progress?, setProgress, h.symm]

theorem progress?_setProgress {p q : Progress} (h : l.progress? call = some q) :
    (l.setProgress call p).progress? call = some p := by
  obtain ⟨c, hc, _⟩ := Option.map_eq_some_iff.mp h
  simp [progress?, setProgress, hc]

theorem progress?_issue (client : Nat) (c : Call) (d : Nat) :
    (l.issue client c).2.progress? d =
      if d = l.calls.length then some (.issued c.request) else l.progress? d := by
  simp only [progress?, issue, calls_wake]
  split
  · next h => rw [h, List.getElem?_concat_length]; rfl
  · next h =>
    rcases Nat.lt_or_gt_of_ne h with h | h
    · rw [List.getElem?_append_left h]
    · rw [List.getElem?_eq_none (Nat.le_of_lt h), List.getElem?_eq_none]
      simpa using Nat.succ_le_of_lt h

theorem progress?_issue_self (l : Line) (client : Nat) (c : Call) :
    (l.issue client c).2.progress? l.calls.length = some (.issued c.request) := by
  rw [progress?_issue, if_pos rfl]

/-- The next call has not been made yet. -/
theorem progress?_length (l : Line) : l.progress? l.calls.length = none := by
  rw [progress?, List.getElem?_eq_none (Nat.le_refl _)]
  rfl

theorem result?_eq_some {a : Answer} :
    l.result? call = some a ↔ l.progress? call = some (.finished a) := by
  unfold result?
  split
  · next b hp => simp [hp]
  · next hno => simpa using hno a

/-! ## What a turn comes to -/

/-- The request that a caller sends when its turn comes. -/
def posting (l : Line) (call : Nat) : List Ticket :=
  if l.mailbox.isOpen then ((l.progress? call).bind Progress.request?).toList.map (⟨call, ·⟩) else []

theorem posting_of_progress? {p : Progress} (hopen : l.mailbox.isOpen)
    (h : l.progress? call = some p) : l.posting call = p.request?.toList.map (⟨call, ·⟩) := by
  rw [posting, if_pos hopen, h, Option.bind_some]

theorem call_of_mem_posting {ticket : Ticket} (hm : ticket ∈ l.posting call) :
    ticket.call = call := by
  unfold posting at hm
  split at hm
  · obtain ⟨request, _, rfl⟩ := List.mem_map.mp hm
    rfl
  · cases hm

theorem callerTurn_of_error {e : RegistryError}
    (h : l.progress? call = some (.issued (.error e))) :
    l.callerTurn call = l.setProgress call (.finished (.error (.registry e))) := by
  rw [callerTurn, h]

theorem callerTurn_of_answered {a : Answer} (h : l.progress? call = some (.answered a)) :
    l.callerTurn call = l.setProgress call (.finished a) := by rw [callerTurn, h]

theorem callerTurn_of_finished {a : Answer} (h : l.progress? call = some (.finished a)) :
    l.callerTurn call = l := by rw [callerTurn, h]

/-- A caller that has something to do finishes, posts its request or enters the mailbox. -/
theorem callerTurn_cases (l : Line) (call : Nat) (hopen : l.mailbox.isOpen) :
    (l.callerTurn call = l ∧ l.posting call = []) ∨
    (∃ a, l.callerTurn call = l.setProgress call (.finished a) ∧
      (l.progress? call = some (.answered a) ∨ ∃ e, l.progress? call = some (.issued (.error e)))) ∨
    (∃ request, l.progress? call = some (.issued (.ok request)) ∧
      (l.callerTurn call).calls = (l.setProgress call .sent).calls ∧
      (l.callerTurn call).mailbox = l.mailbox.post ⟨call, request⟩) ∨
    l.progress? call = some .sent ∧ (l.callerTurn call).calls = l.calls ∧
      (l.callerTurn call).mailbox = l.mailbox.enter fun ticket => ticket.call == call := by
  unfold callerTurn
  split
  · next e h => exact .inr (.inl ⟨_, rfl, .inr ⟨e, h⟩⟩)
  · next request h =>
    rw [if_pos hopen]
    refine .inr (.inr (.inl ⟨request, h, ?_, ?_⟩)) <;>
      · unfold post
        split <;> simp [setProgress]
  · next h =>
    unfold proceed
    dsimp only
    split
    · exact .inr (.inr (.inr ⟨h, calls_wake .., mailbox_wake ..⟩))
    · rw [hopen]
      exact .inl ⟨rfl, posting_of_progress? hopen h⟩
  · next a h => exact .inr (.inl ⟨a, rfl, .inl h⟩)
  · next h => exact .inl ⟨rfl, posting_of_progress? hopen h⟩
  · next h => exact .inl ⟨rfl, posting_of_progress? hopen h⟩
  · next h => exact .inl ⟨rfl, by rw [posting, if_pos hopen, h]; rfl⟩

/-- A caller that goes away abandons its call and takes its request back if it can. -/
theorem giveUp_cases (l : Line) (call : Nat) :
    l.giveUp call = l ∨
    (∃ c, l.calls[call]? = some c ∧ c.isOver = false) ∧
      (l.giveUp call).calls = (l.setProgress call .abandoned).calls ∧
      (l.giveUp call).mailbox = l.mailbox.withdraw fun ticket => ticket.call == call := by
  unfold giveUp
  split
  · exact .inl rfl
  · exact .inl rfl
  · exact .inl rfl
  · next p hfinished habandoned h =>
    obtain ⟨c, hc, hp⟩ := Option.map_eq_some_iff.mp h
    have hover : c.isOver = false := by
      unfold CallState.isOver
      split
      · next a hcp => exact (hfinished a (hp.symm.trans hcp)).elim
      · next hcp => exact (habandoned (hp.symm.trans hcp)).elim
      · rfl
    refine .inr ⟨⟨c, hc, hover⟩, ?_⟩
    dsimp only
    split <;> simp [setProgress]

theorem calls_dropHead (l : Line) : l.dropHead.calls = l.calls := by
  unfold dropHead
  dsimp only
  split <;> simp

theorem mailbox_dropHead (l : Line) : l.dropHead.mailbox = l.mailbox.dropFirst := by
  unfold dropHead
  dsimp only
  split <;> simp

theorem mailbox_answer (l : Line) (call : Nat) (a : Answer) :
    (l.answer call a).mailbox = l.mailbox := by
  unfold answer
  split <;> simp [setProgress]

/-- An answer reaches a call that waits for it. -/
theorem answer_cases (l : Line) (call : Nat) (a : Answer) :
    l.progress? call = some .sent ∧
      (l.answer call a).calls = (l.setProgress call (.answered a)).calls ∨
    l.progress? call ≠ some .sent ∧ l.answer call a = l := by
  unfold answer isUnanswered
  split
  · next hp => exact .inl ⟨hp, calls_wake ..⟩
  · next hp => exact .inr ⟨hp, rfl⟩

/-! ## What a line carries -/

/-- This holds of some request in the mailbox, or that of some call. -/
def Carries (q : Request → Prop) (f : CallState → Prop) (l : Line) : Prop :=
  (∃ ticket ∈ l.mailbox.contents, q ticket.request) ∨ ∃ c ∈ l.calls, f c

/-- Requests have it from their calls, and calls have it from the beginning. -/
structure Inherits (q : Request → Prop) (f : CallState → Prop) : Prop where
  posted : ∀ c request, c.progress = .issued (.ok request) → q request → f c
  progress : ∀ c p, c.isOver = false → p.request? = none → f { c with progress := p } → f c

variable {q : Request → Prop} {f : CallState → Prop}

theorem carries_of_setProgress (hi : Inherits q f) {p : Progress} {c d : CallState}
    (hc : l.calls[call]? = some c) (hover : c.isOver = false) (hp : p.request? = none)
    (hd : d ∈ (l.setProgress call p).calls) (hf : f d) : l.Carries q f := by
  obtain ⟨i, hget⟩ := List.mem_iff_getElem?.mp hd
  rw [setProgress, List.getElem?_modify] at hget
  obtain ⟨e, he, rfl⟩ := Option.map_eq_some_iff.mp hget
  refine .inr ⟨e, List.mem_of_getElem? he, ?_⟩
  by_cases h : call = i
  · subst h
    rw [if_pos rfl] at hf
    cases hc.symm.trans he
    exact hi.progress c p hover hp hf
  · rwa [if_neg h] at hf

theorem carries_issue {client : Nat} {c : Call} (h : (l.issue client c).2.Carries q f) :
    l.Carries q f ∨ f ⟨client, c.keeps, .issued c.request⟩ := by
  rw [Carries, issue, mailbox_wake, calls_wake] at h
  rcases h with hm | ⟨d, hd, hf⟩
  · exact .inl (.inl hm)
  · rcases List.mem_append.mp hd with hd | hd
    · exact .inl (.inr ⟨d, hd, hf⟩)
    · exact .inr (List.mem_singleton.mp hd ▸ hf)

theorem carries_callerTurn (hi : Inherits q f) (hopen : l.mailbox.isOpen)
    (h : (l.callerTurn call).Carries q f) : l.Carries q f := by
  rcases l.callerTurn_cases call hopen with
    ⟨he, _⟩ | ⟨a, he, hp⟩ | ⟨request, hp, hcalls, hbox⟩ | ⟨_, hcalls, hbox⟩
  · rwa [he] at h
  · obtain ⟨c, hc, hover⟩ : ∃ c, l.calls[call]? = some c ∧ c.isOver = false := by
      rcases hp with hp | ⟨e, hp⟩ <;>
        · obtain ⟨c, hc, hcp⟩ := Option.map_eq_some_iff.mp hp
          exact ⟨c, hc, by rw [CallState.isOver, hcp]⟩
    rw [he] at h
    rcases h with hm | ⟨d, hd, hf⟩
    · exact .inl hm
    · exact carries_of_setProgress hi hc hover rfl hd hf
  · obtain ⟨c, hc, hcp⟩ := Option.map_eq_some_iff.mp hp
    rw [Carries, hbox, hcalls] at h
    rcases h with ⟨ticket, hm, hq⟩ | ⟨d, hd, hf⟩
    · rw [(Mailbox.contents_post ..).mem_iff, List.mem_cons] at hm
      rcases hm with rfl | hm
      · exact .inr ⟨c, List.mem_of_getElem? hc, hi.posted c request hcp hq⟩
      · exact .inl ⟨ticket, hm, hq⟩
    · exact carries_of_setProgress hi hc (by rw [CallState.isOver, hcp]) rfl hd hf
  · rw [Carries, hbox, hcalls] at h
    refine h.imp_left fun ⟨ticket, hm, hq⟩ => ⟨ticket, ?_, hq⟩
    exact (Mailbox.contents_enter ..).mem_iff.mp hm

theorem carries_giveUp (hi : Inherits q f) (h : (l.giveUp call).Carries q f) : l.Carries q f := by
  rcases l.giveUp_cases call with he | ⟨⟨c, hc, hover⟩, hcalls, hbox⟩
  · rwa [he] at h
  rw [Carries, hbox, hcalls] at h
  rcases h with ⟨ticket, hm, hq⟩ | ⟨d, hd, hf⟩
  · exact .inl ⟨ticket, Mailbox.mem_contents_of_withdraw hm, hq⟩
  · exact carries_of_setProgress hi hc hover rfl hd hf

theorem carries_dropHead (h : l.dropHead.Carries q f) : l.Carries q f := by
  rw [Carries, mailbox_dropHead, calls_dropHead] at h
  exact h.imp_left fun ⟨ticket, hm, hq⟩ => ⟨ticket, Mailbox.mem_contents_of_dropFirst hm, hq⟩

theorem carries_answer (hi : Inherits q f) {a : Answer} (h : (l.answer call a).Carries q f) :
    l.Carries q f := by
  rcases l.answer_cases call a with ⟨hp, hcalls⟩ | ⟨_, he⟩
  · obtain ⟨c, hc, hcp⟩ := Option.map_eq_some_iff.mp hp
    rw [Carries, mailbox_answer, hcalls] at h
    rcases h with hm | ⟨d, hd, hf⟩
    · exact .inl hm
    · exact carries_of_setProgress hi hc (by rw [CallState.isOver, hcp]) rfl hd hf
  · rwa [he] at h

/-! ## Targets that a line keeps -/

variable {t : Target}

theorem holds_consistent (l : Line) : Liveness.Consistent l.holds := by
  intro t u h
  have hc : (fun v : Target => v == t) = fun v => v == u := funext fun v => BEq.congr_right h
  simp only [holds, Ticket.holds, CallState.holds, hc]

theorem holds_iff_carries : l.holds t ↔
    l.Carries (fun request => request.target?.any (· == t)) (fun c => c.holds t) := by
  simp [holds, Carries, Ticket.holds]

/-- A call keeps the target of its request before it sends it. -/
theorem inherits_holds (t : Target) :
    Inherits (fun request => request.target?.any (· == t)) (fun c => c.holds t) where
  posted c request hp ht := by
    simp [CallState.holds, CallState.isOver, hp, Progress.request?, ht]
  progress c p hover hp ht := by
    simp only [CallState.holds, hp, Bool.and_eq_true] at ht
    simp only [CallState.holds, hover, Bool.not_false, Bool.true_and, Bool.or_eq_true]
    exact .inl (by simpa using ht.2)

end ScopedResources.Line
