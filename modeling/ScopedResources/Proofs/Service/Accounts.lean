import Mathlib.Data.List.Nodup
import ScopedResources.Proofs.Service.Run

/-! # Where requests are

Every request that has been sent has been handled, is in the mailbox, waits for room or was taken
back, and it is in one of these places only. How far its call has come tells where. -/

namespace ScopedResources

/-- Requests of one call do not matter to another. -/
theorem mem_calls_append_left {xs ys : List Ticket} {call d : Nat} (hd : d ≠ call)
    (hxs : ∀ ticket ∈ xs, ticket.call = call) :
    d ∈ (xs ++ ys).map (·.call) ↔ d ∈ ys.map (·.call) := by
  rw [List.map_append, List.mem_append, or_iff_right]
  intro h
  obtain ⟨ticket, hm, rfl⟩ := List.mem_map.mp h
  exact hd (hxs ticket hm)

/-- What is taken in and what is lost move on; the rest stays outside. -/
theorem perm_advance {α : Type} {sent accepted outside outside' new taken lost before : List α}
    (hbefore : sent.Perm (accepted ++ (outside ++ before)))
    (houtside : (new ++ outside).Perm (taken ++ (lost ++ outside'))) :
    (sent ++ new).Perm (accepted ++ taken ++ (outside' ++ (lost ++ before))) := by
  have hmoved := (houtside.append_right before).append_left accepted
  have hlast : (taken ++ (lost ++ outside') ++ before).Perm
      (taken ++ (outside' ++ (lost ++ before))) := by
    rw [List.append_assoc, List.append_assoc]
    exact List.perm_append_comm_assoc .. |>.append_left _
  rw [List.append_assoc]
  refine (hbefore.append_right new).trans (List.perm_append_comm.trans ?_)
  refine (List.perm_append_comm_assoc ..).trans ?_
  rw [← List.append_assoc new]
  exact hmoved.trans (hlast.append_left _)

/-- What the progress of a call tells about its request. -/
def Placed (l : Line) (h : History) (call : Nat) : Option Progress → Prop
  | none | some (.issued _) => call ∉ h.sent.map (·.call)
  | some .sent => call ∈ l.mailbox.contents.map (·.call)
  | some (.answered a) => ∃ ticket, ticket.call = call ∧ (ticket, a) ∈ h.answered
  | some (.finished a) =>
    call ∈ h.sent.map (·.call) → ∃ ticket, ticket.call = call ∧ (ticket, a) ∈ h.answered
  | some .abandoned => call ∉ l.mailbox.outside.map (·.call)

structure Accounted (l : Line) (h : History) : Prop where
  isOpen : l.mailbox.isOpen
  accepted : h.accepted = h.handled.map (·.1) ++ l.mailbox.queue
  answered : h.answered.map (·.1) = h.handled.map (·.1)
  /-- The others are the requests that have been taken back. -/
  sent : ∃ lost, h.sent.Perm (h.accepted ++ (l.mailbox.outside ++ lost))
  nodup : (h.sent.map (·.call)).Nodup
  placed : ∀ call, Placed l h call (l.progress? call)

variable {l l' : Line} {h h' : History}

theorem Placed.transfer {call : Nat} {p : Option Progress} (hp : Placed l h call p)
    (hsent : call ∈ h'.sent.map (·.call) → call ∈ h.sent.map (·.call))
    (hcontents : p = some .sent →
      (call ∈ l.mailbox.contents.map (·.call) → call ∈ l'.mailbox.contents.map (·.call)))
    (houtside : call ∈ l'.mailbox.outside.map (·.call) → call ∈ l.mailbox.outside.map (·.call))
    (hanswered : ∀ x, x ∈ h.answered → x ∈ h'.answered) : Placed l' h' call p := by
  match p with
  | none => exact fun hm => hp (hsent hm)
  | some (.issued _) => exact fun hm => hp (hsent hm)
  | some .sent => exact hcontents rfl hp
  | some (.answered _) =>
    obtain ⟨ticket, hc, hm⟩ := hp
    exact ⟨ticket, hc, hanswered _ hm⟩
  | some (.finished _) =>
    intro hs
    obtain ⟨ticket, hc, hm⟩ := hp (hsent hs)
    exact ⟨ticket, hc, hanswered _ hm⟩
  | some .abandoned => exact fun hm => hp (houtside hm)

namespace Accounted

/-- No call has two requests among those that have been handled and those in the mailbox. -/
theorem nodup_calls (ha : Accounted l h) :
    ((h.handled.map (·.1) ++ l.mailbox.contents).map (·.call)).Nodup := by
  obtain ⟨lost, hperm⟩ := ha.sent
  have hall := (hperm.map (·.call)).nodup_iff.mp ha.nodup
  rw [ha.accepted, ← List.append_assoc, List.append_assoc (h.handled.map _), ← Mailbox.contents_eq,
    List.map_append] at hall
  exact (List.nodup_append.mp hall).1

theorem mem_sent (ha : Accounted l h) {ticket : Ticket}
    (hm : ticket ∈ h.handled.map (·.1) ++ l.mailbox.contents) : ticket ∈ h.sent := by
  obtain ⟨lost, hperm⟩ := ha.sent
  rw [hperm.mem_iff, ha.accepted, ← List.append_assoc, List.append_assoc (h.handled.map _),
    ← Mailbox.contents_eq]
  exact List.mem_append_left _ hm

/-! ## Moves of callers -/

/-- A move of a caller keeps account of all requests if it does so of its own: what it has sent is
taken in, waits outside or is lost, as is what had been outside before. -/
theorem advance (ha : Accounted l h) (call : Nat) (new taken lost : List Ticket)
    (hopen : l'.mailbox.isOpen) (hqueue : l'.mailbox.queue = l.mailbox.queue ++ taken)
    (houtside : (new ++ l.mailbox.outside).Perm (taken ++ (lost ++ l'.mailbox.outside)))
    (hmine : ∀ ticket ∈ new ++ (taken ++ lost), ticket.call = call)
    (hnodup : ((h.sent ++ new).map (·.call)).Nodup)
    (hothers : ∀ d, d ≠ call → l'.progress? d = l.progress? d)
    (hplaced : Placed l' (h ++ (new.map .sent ++ taken.map .accepted)) call (l'.progress? call)) :
    Accounted l' (h ++ (new.map .sent ++ taken.map .accepted)) := by
  let h' : History := h ++ (new.map .sent ++ taken.map .accepted)
  obtain ⟨hsent, haccepted, hhandled, _, hanswered, _⟩ := h.append_requests new taken
  obtain ⟨before, hbefore⟩ := ha.sent
  refine ⟨hopen, ?_, ?_, ⟨lost ++ before, ?_⟩, hsent ▸ hnodup, fun d => ?_⟩
  · rw [haccepted, hhandled, hqueue, ha.accepted, List.append_assoc]
  · rw [hanswered, hhandled, ha.answered]
  · rw [hsent, haccepted]
    exact perm_advance hbefore houtside
  · by_cases hd : d = call
    · exact hd ▸ hplaced
    rw [hothers d hd]
    have hnew : ∀ ticket ∈ new, ticket.call = call := fun ticket hm => hmine ticket (by simp [hm])
    have htaken : ∀ ticket ∈ taken, ticket.call = call := fun ticket hm =>
      hmine ticket (by simp [hm])
    have hlost : ∀ ticket ∈ lost, ticket.call = call := fun ticket hm => hmine ticket (by simp [hm])
    have hsame : d ∈ l'.mailbox.outside.map (·.call) ↔ d ∈ l.mailbox.outside.map (·.call) := by
      have hall := (houtside.map (·.call)).mem_iff (a := d)
      rw [mem_calls_append_left hd hnew, mem_calls_append_left hd htaken,
        mem_calls_append_left hd hlost] at hall
      exact hall.symm
    have hqueued : d ∈ l'.mailbox.queue.map (·.call) ↔ d ∈ l.mailbox.queue.map (·.call) := by
      rw [hqueue, (List.perm_append_comm.map _).mem_iff, mem_calls_append_left hd htaken]
    refine (ha.placed d).transfer (Iff.mp ?_) (fun _ => Iff.mpr ?_) hsame.mp fun x hx => hanswered ▸ hx
    · rw [hsent, (List.perm_append_comm.map _).mem_iff, mem_calls_append_left hd hnew]
    · rw [Mailbox.contents_eq, Mailbox.contents_eq, List.map_append, List.map_append,
        List.mem_append, List.mem_append, hqueued, hsame]

/-- The mailbox stays as it is, and one call at most gets on. -/
theorem stay (ha : Accounted l h) (call : Nat) (hbox : l'.mailbox = l.mailbox)
    (hothers : ∀ d, d ≠ call → l'.progress? d = l.progress? d)
    (hplaced : Placed l h call (l'.progress? call)) : Accounted l' h := by
  have hplaced : Placed l' (h ++ []) call (l'.progress? call) := by
    rw [List.append_nil]
    exact hplaced.transfer id (fun _ => hbox ▸ id) (hbox ▸ id) fun _ => id
  have := ha.advance call [] [] [] (hbox ▸ ha.isOpen) (by simp [hbox]) (by simp [hbox]) (by simp)
    (by simpa using ha.nodup) hothers hplaced
  simpa using this

theorem transfer (ha : Accounted l h) (hcalls : l'.calls = l.calls) (hbox : l'.mailbox = l.mailbox) :
    Accounted l' h := by
  have hprogress := Line.progress?_congr hcalls
  exact ha.stay 0 hbox (fun d _ => hprogress d) (hprogress 0 ▸ ha.placed 0)

theorem issue (ha : Accounted l h) (client : Nat) (call : Call) :
    Accounted (l.issue client call).2 h := by
  have hprogress := l.progress?_issue client call
  refine ha.stay l.calls.length (Line.mailbox_wake ..) (fun d hd => ?_) ?_
  · rw [hprogress, if_neg hd]
  · have hunsent := ha.placed l.calls.length
    rw [l.progress?_length] at hunsent
    rw [l.progress?_issue_self]
    exact hunsent

/-- A call finishes when its request has been answered, or when it sends none. -/
theorem finish (ha : Accounted l h) {call : Nat} {a : Answer}
    (hp : l.progress? call = some (.answered a) ∨
      ∃ e, l.progress? call = some (.issued (.error e))) :
    Accounted (l.setProgress call (.finished a)) h := by
  have hplaced := ha.placed call
  refine ha.stay call rfl (fun d hd => Line.progress?_setProgress_of_ne hd _) ?_
  rcases hp with hp | ⟨e, hp⟩ <;> rw [Line.progress?_setProgress hp] <;> rw [hp] at hplaced
  · exact fun _ => hplaced
  · exact fun hs => absurd hs hplaced

/-- A request that is sent is taken in or has to wait. -/
theorem post (ha : Accounted l h) {call : Nat} {request : Request}
    (hp : l.progress? call = some (.issued (.ok request)))
    (hcalls : l'.calls = (l.setProgress call .sent).calls)
    (hbox : l'.mailbox = l.mailbox.post ⟨call, request⟩) :
    ∃ taken, l'.mailbox.queue = l.mailbox.queue ++ taken ∧
      Accounted l' (h ++ ([⟨call, request⟩].map .sent ++ taken.map .accepted)) := by
  obtain ⟨taken, hqueue, hsub, houtside⟩ := l.mailbox.queue_post ⟨call, request⟩
  have hunsent := ha.placed call
  rw [hp] at hunsent
  have hprogress := Line.progress?_congr hcalls
  rw [← hbox] at hqueue houtside
  have hopen : l'.mailbox.isOpen := by rw [hbox, Mailbox.isOpen_post, ha.isOpen]
  let ticket : Ticket := ⟨call, request⟩
  have hmine : ∀ other ∈ [ticket] ++ (taken ++ []), other.call = call := by
    intro other hm
    rw [List.append_nil, List.mem_append] at hm
    rcases hm with hm | hm
    · rw [List.mem_singleton.mp hm]
    · rw [List.mem_singleton.mp (hsub.subset hm)]
  have hnodup : ((h.sent ++ [ticket]).map (·.call)).Nodup := by
    rw [List.map_append]
    refine List.nodup_append.mpr ⟨ha.nodup, by simp, fun c hc d hd => ?_⟩
    rintro rfl
    rw [List.map_singleton, List.mem_singleton] at hd
    exact hunsent (by rwa [hd] at hc)
  refine ⟨taken, hqueue, ha.advance call [ticket] taken [] hopen hqueue houtside hmine hnodup
    (fun d hd => ?_) ?_⟩
  · rw [hprogress, Line.progress?_setProgress_of_ne hd]
  · rw [hprogress, Line.progress?_setProgress hp]
    refine List.mem_map.mpr ⟨ticket, ?_, rfl⟩
    rw [hbox, (Mailbox.contents_post ..).mem_iff]
    exact List.mem_cons_self

/-- A request that has been called is taken in. -/
theorem enter (ha : Accounted l h) {call : Nat} (hp : l.progress? call = some .sent)
    (hcalls : l'.calls = l.calls)
    (hbox : l'.mailbox = l.mailbox.enter fun ticket => ticket.call == call) :
    ∃ taken, l'.mailbox.queue = l.mailbox.queue ++ taken ∧
      Accounted l' (h ++ (([] : List Ticket).map .sent ++ taken.map .accepted)) := by
  have hcontents := ha.placed call
  rw [hp] at hcontents
  have hprogress := Line.progress?_congr hcalls
  have houtside := l.mailbox.outside_enter fun ticket => ticket.call == call
  rw [← hbox] at houtside
  have hqueue : l'.mailbox.queue = l.mailbox.queue ++ l.mailbox.called.filter (·.call == call) :=
    congrArg Mailbox.queue hbox
  refine ⟨_, hqueue, ha.advance call [] _ [] (by rw [hbox]; exact ha.isOpen) hqueue houtside ?_
    (by simpa using ha.nodup) (fun d _ => hprogress d) ?_⟩
  · intro ticket hm
    simp only [List.nil_append, List.append_nil, List.mem_filter, beq_iff_eq] at hm
    exact hm.2
  · rw [hprogress, hp]
    change call ∈ _
    rw [hbox, ((Mailbox.contents_enter ..).map _).mem_iff]
    exact hcontents

theorem turn (ha : Accounted l h) (call : Nat) :
    Accounted (l.callerTurn call) (h ++ ((l.posting call).map .sent ++
      ((l.callerTurn call).mailbox.queue.drop l.mailbox.queue.length).map .accepted)) := by
  rcases l.callerTurn_cases call ha.isOpen with
    ⟨he, hpost⟩ | ⟨a, he, hp⟩ | ⟨request, hp, hcalls, hbox⟩ | ⟨hp, hcalls, hbox⟩
  · simpa [he, hpost] using ha
  · have hpost : l.posting call = [] := by
      rcases hp with hp | ⟨e, hp⟩ <;> exact Line.posting_of_progress? ha.isOpen hp
    simpa [he, hpost, Line.setProgress] using ha.finish hp
  · obtain ⟨taken, hqueue, hpost⟩ := ha.post hp hcalls hbox
    rw [Line.posting_of_progress? ha.isOpen hp, hqueue, List.drop_left]
    exact hpost
  · obtain ⟨taken, hqueue, henter⟩ := ha.enter hp hcalls hbox
    rw [Line.posting_of_progress? ha.isOpen hp, hqueue, List.drop_left]
    exact henter

/-- Once the request of a call has been taken back, nothing of the call waits for room. -/
theorem not_mem_outside_withdraw (ha : Accounted l h) (call : Nat) :
    call ∉ (l.mailbox.withdraw fun ticket => ticket.call == call).outside.map (·.call) := by
  obtain ⟨lost, hperm, hmine, hall⟩ := l.mailbox.outside_withdraw fun ticket => ticket.call == call
  intro hm
  obtain ⟨ticket, hm, hc⟩ := List.mem_map.mp hm
  cases lost with
  | nil => exact hall rfl ticket hm (beq_iff_eq.mpr hc)
  | cons first rest =>
    -- The call would have had two requests.
    have hsub : l.mailbox.outside.Sublist (h.handled.map (·.1) ++ l.mailbox.contents) := by
      rw [Mailbox.contents_eq]
      exact (List.sublist_append_right ..).trans (List.sublist_append_right ..)
    have hnodup := (hperm.map (·.call)).nodup_iff.mp (ha.nodup_calls.sublist (hsub.map _))
    rw [List.cons_append, List.map_cons, List.nodup_cons] at hnodup
    have hfirst := beq_iff_eq.mp (hmine first List.mem_cons_self)
    refine hnodup.1 (List.mem_map.mpr ⟨ticket, List.mem_append_right _ hm, ?_⟩)
    rw [hc, hfirst]

theorem giveUp (ha : Accounted l h) (call : Nat) : Accounted (l.giveUp call) h := by
  rcases l.giveUp_cases call with he | ⟨⟨c, hc, _⟩, hcalls, hbox⟩
  · rwa [he]
  have hp : l.progress? call = some c.progress := congrArg (Option.map _) hc
  have hprogress := Line.progress?_congr hcalls
  have hgone := ha.not_mem_outside_withdraw call
  obtain ⟨lost, hperm, hmine, _⟩ := l.mailbox.outside_withdraw fun ticket => ticket.call == call
  rw [← hbox] at hgone hperm
  have hopen : (l.giveUp call).mailbox.isOpen := by rw [hbox, Mailbox.isOpen_withdraw, ha.isOpen]
  have hqueue : (l.giveUp call).mailbox.queue = l.mailbox.queue := by
    rw [hbox, Mailbox.queue_withdraw]
  have hothers : ∀ d, d ≠ call → (l.giveUp call).progress? d = l.progress? d := fun d hd => by
    rw [hprogress, Line.progress?_setProgress_of_ne hd]
  have := ha.advance call [] [] lost hopen (by simp [hqueue]) (by simpa using hperm)
    (by simpa using hmine) (by simpa using ha.nodup) hothers
    (by rw [hprogress, Line.progress?_setProgress hp]; exact hgone)
  simpa using this

/-! ## Serving -/

theorem serve (ha : Accounted l h) {ticket : Ticket} (hhead : l.mailbox.queue.head? = some ticket)
    (alive : Liveness) (a : Answer) :
    Accounted (l.dropHead.answer ticket.call a)
      (h ++ .handled ticket alive :: a.happenings ticket) := by
  obtain ⟨rest, hqueue⟩ := List.head?_eq_some_iff.mp hhead
  obtain ⟨hsent, haccepted, hhandled, _, hanswered, _⟩ := h.append_handled ticket alive a
  let l' := l.dropHead.answer ticket.call a
  have hbox : l'.mailbox = l.mailbox.dropFirst :=
    (Line.mailbox_answer ..).trans l.mailbox_dropHead
  have hrest : l'.mailbox.queue = rest := by rw [hbox, Mailbox.queue_dropFirst, hqueue]; rfl
  have houtside : l'.mailbox.outside = l.mailbox.outside := by rw [hbox, Mailbox.outside_dropFirst]
  have hmem : ticket ∈ h.sent := ha.mem_sent (by
    rw [Mailbox.contents_eq, hqueue]
    simp)
  refine ⟨by rw [hbox, Mailbox.isOpen_dropFirst, ha.isOpen], ?_, ?_, ?_, hsent ▸ ha.nodup,
    fun d => ?_⟩
  · rw [haccepted, hhandled, hrest, ha.accepted, hqueue]
    simp
  · rw [hanswered, hhandled, List.map_append, List.map_append, ha.answered]
    rfl
  · rw [hsent, haccepted, houtside]
    exact ha.sent
  · have hstays : ∀ p, (d = ticket.call → p ≠ some .sent) → Placed l h d p →
        Placed l' (h ++ .handled ticket alive :: a.happenings ticket) d p := by
      intro p hp hd
      refine hd.transfer (hsent ▸ id) (fun hps hm => ?_) (houtside ▸ id) fun x hx =>
        hanswered ▸ List.mem_append_left _ hx
      -- Only the request that is handled leaves the mailbox.
      rw [Mailbox.contents_eq, hqueue, List.cons_append, List.map_cons, List.mem_cons] at hm
      rw [Mailbox.contents_eq, hrest, houtside]
      exact hm.resolve_left fun he => hp he hps
    have hprogress := Line.progress?_congr l.calls_dropHead
    rcases l.dropHead.answer_cases ticket.call a with ⟨hp, hcalls⟩ | ⟨hp, he⟩
    · rw [Line.progress?_congr hcalls]
      by_cases hd : d = ticket.call
      · rw [hd, Line.progress?_setProgress hp]
        exact ⟨ticket, rfl, hanswered ▸ List.mem_append_right _ (List.mem_singleton.mpr rfl)⟩
      · rw [Line.progress?_setProgress_of_ne hd, hprogress]
        exact hstays _ (fun he => absurd he hd) (ha.placed d)
    · have hsame : l'.progress? d = l.progress? d :=
        (congrArg (Line.progress? · d) he).trans (hprogress d)
      rw [hsame]
      rw [hprogress] at hp
      exact hstays _ (fun hd => hd ▸ hp) (ha.placed d)

/-! ## What the accounts tell -/

theorem mem_handled_of_answered (ha : Accounted l h) {ticket : Ticket} {a : Answer}
    (hm : (ticket, a) ∈ h.answered) : ticket ∈ h.handled.map (·.1) := by
  rw [← ha.answered]
  exact List.mem_map.mpr ⟨(ticket, a), hm, rfl⟩

/-- A request that has been answered is no longer in the mailbox. -/
theorem not_mem_contents (ha : Accounted l h) {ticket : Ticket} {a : Answer}
    (hm : (ticket, a) ∈ h.answered) : ticket ∉ l.mailbox.contents := by
  intro hc
  have hnodup := ha.nodup_calls
  rw [List.map_append] at hnodup
  exact (List.nodup_append.mp hnodup).2.2 _
    (List.mem_map_of_mem (ha.mem_handled_of_answered hm)) _ (List.mem_map_of_mem hc) rfl

theorem answer_unique (ha : Accounted l h) {ticket : Ticket} {a b : Answer}
    (hm : (ticket, a) ∈ h.answered) (ho : (ticket, b) ∈ h.answered) : a = b := by
  have hnodup := ha.nodup_calls
  rw [List.map_append, ← ha.answered, List.map_map] at hnodup
  exact congrArg Prod.snd (List.inj_on_of_nodup_map (List.nodup_append.mp hnodup).1 hm ho rfl)

/-- How far a call has come tells where the request is that it has sent. -/
theorem placed_of_sent (ha : Accounted l h) {ticket : Ticket} (hm : ticket ∈ h.sent) :
    l.progress? ticket.call = some .sent ∧ ticket ∈ l.mailbox.contents ∨
    (∃ a, (ticket, a) ∈ h.answered ∧ (l.progress? ticket.call = some (.answered a) ∨
      l.progress? ticket.call = some (.finished a))) ∨
    l.progress? ticket.call = some .abandoned ∧ ticket ∉ l.mailbox.outside := by
  have hsame : ∀ other ∈ h.sent, other.call = ticket.call → other = ticket := fun other ho hc =>
    List.inj_on_of_nodup_map ha.nodup ho hm hc
  have hanswered : ∀ a, (∃ other, other.call = ticket.call ∧ (other, a) ∈ h.answered) →
      (ticket, a) ∈ h.answered := by
    rintro a ⟨other, hc, ho⟩
    rwa [← hsame other (ha.mem_sent (List.mem_append_left _ (ha.mem_handled_of_answered ho))) hc]
  have hcall : ticket.call ∈ h.sent.map (·.call) := List.mem_map_of_mem hm
  have hplaced := ha.placed ticket.call
  cases hp : l.progress? ticket.call with
  | none =>
    rw [hp] at hplaced
    exact absurd hcall hplaced
  | some p =>
    rw [hp] at hplaced
    cases p with
    | issued request => exact absurd hcall hplaced
    | sent =>
      obtain ⟨other, ho, hc⟩ := List.mem_map.mp hplaced
      have : other = ticket := hsame other (ha.mem_sent (List.mem_append_right _ ho)) hc
      exact .inl ⟨rfl, this ▸ ho⟩
    | answered a => exact .inr (.inl ⟨a, hanswered a hplaced, .inl rfl⟩)
    | finished a => exact .inr (.inl ⟨a, hanswered a (hplaced hcall), .inr rfl⟩)
    | abandoned => exact .inr (.inr ⟨rfl, fun ho => hplaced (List.mem_map_of_mem ho)⟩)

/-- Whoever waits for room has not gone away. -/
theorem progress?_of_mem_outside (ha : Accounted l h) {ticket : Ticket}
    (hm : ticket ∈ l.mailbox.outside) : l.progress? ticket.call = some .sent := by
  have hcontents : ticket ∈ l.mailbox.contents := by
    rw [Mailbox.contents_eq]
    exact List.mem_append_right _ hm
  rcases ha.placed_of_sent (ha.mem_sent (List.mem_append_right _ hcontents)) with
    ⟨hp, _⟩ | ⟨a, hanswered, _⟩ | ⟨_, hout⟩
  · exact hp
  · exact absurd hcontents (ha.not_mem_contents hanswered)
  · exact absurd hm hout

/-- Whoever has sent a request that has been answered gets that answer, unless it has gone away. -/
theorem progress?_of_answered (ha : Accounted l h) {ticket : Ticket} {a : Answer}
    (hm : (ticket, a) ∈ h.answered) :
    l.progress? ticket.call = some (.answered a) ∨ l.progress? ticket.call = some (.finished a) ∨
      l.progress? ticket.call = some .abandoned := by
  have hsent := ha.mem_sent (List.mem_append_left _ (ha.mem_handled_of_answered hm))
  rcases ha.placed_of_sent hsent with ⟨_, hc⟩ | ⟨b, hb, hp⟩ | ⟨hp, _⟩
  · exact absurd hc (ha.not_mem_contents hm)
  · cases ha.answer_unique hm hb
    exact hp.imp_right .inl
  · exact .inr (.inr hp)

end Accounted

namespace Service

theorem step_accounted {s : Service} (ha : Accounted s.line s.history) (m : Move) :
    Accounted (s.step m).line (s.step m).history := by
  cases m with
  | handles step => exact ha
  | openClient =>
    simp only [step]
    split
    · exact ha
    · exact ha.transfer rfl rfl
  | dropClient client => exact ha.transfer rfl rfl
  | issue client call =>
    simp only [step]
    split
    · exact ha.issue client call
    · exact ha
  | turn call => exact ha.turn call
  | giveUp call => exact ha.giveUp call
  | start => exact ha.transfer (Line.calls_wake ..) (Line.mailbox_wake ..)
  | serve =>
    simp only [step]
    rcases s.serve_cases with ⟨he, _⟩ | ⟨ticket, a, r, _, hhead, _, he⟩ <;> rw [he]
    · exact ha
    · exact ha.serve hhead s.alive a

theorem run_accounted {s : Service} (ha : Accounted s.line s.history) (moves : List Move) :
    Accounted (s.run moves).line (s.run moves).history :=
  run_induction (P := fun s => Accounted s.line s.history) moves
    (fun _ m _ ha => step_accounted ha m) ha

theorem takeOver_accounted (session : Session) (channelCapacity eventCapacity : Nat) :
    Accounted (takeOver session channelCapacity eventCapacity).line [] :=
  ⟨rfl, rfl, rfl, ⟨[], .nil⟩, .nil, fun _ => List.not_mem_nil⟩

end Service

end ScopedResources
