import ScopedResources.Proofs.Service.Rehearsal

/-! # Mismatches

A scripted service answers in the order of its expectations until a request meets none, or one of
another kind. Then it is over: that request and those behind it are dropped, and whoever comes later
finds the service closed. -/

namespace ScopedResources.Rehearsal

variable {s : Rehearsal}

/-! ## After a mismatch -/

/-- Whoever comes too late is turned away, whatever is expected by then. -/
theorem Over.turnedAway_step (hs : s.Over) {call : Nat} (h : s.line.TurnedAway call) (m : Move) :
    (s.step m).line.TurnedAway call := by
  cases m with
  | expect e => exact h
  | caller m => exact h.move hs.closed m
  | serve held => rwa [Rehearsal.step, hs.serve_eq]

theorem Over.receives (hs : s.Over) {call : Nat} (h : s.line.TurnedAway call) (moves : List Move) :
    (s.run moves).line.Receives call (.error .closed) := by
  have hrun : (s.run moves).Over ∧ (s.run moves).line.TurnedAway call :=
    run_induction (P := fun t => t.Over ∧ t.line.TurnedAway call)
      (fun t m ht => ⟨(ht.1.step m).1, ht.1.turnedAway_step ht.2 m⟩) ⟨hs, h⟩ moves
  exact hrun.2.receives hrun.1.closed

/-- The service handles requests as long as each has met an expectation of its kind. -/
theorem Phase.isServing_iff (hs : s.Phase) : s.exchange.isServing ↔ ∀ x ∈ s.met, x.isMatch := by
  cases hs with
  | running _ hserving _ hmatched => exact iff_of_true hserving hmatched
  | ended before last hover hmet _ hlast =>
    rw [hover.serving]
    refine iff_of_false Bool.false_ne_true ?_
    intro hall
    rw [hmet] at hall
    rw [hall last (List.mem_append_right _ List.mem_cons_self)] at hlast
    cases hlast

/-- A request that does not meet an expectation of its kind is the last one to be handled. It is
dropped with those behind it, and whoever waits for room comes too late. -/
theorem Orderly.serve_mismatch (hs : s.Orderly) {ticket : Ticket} {behind : List Ticket}
    (hserving : s.exchange.isServing) (hqueue : s.mailbox.queue = ticket :: behind)
    (hnone : (s.next ticket).isMatch = false) (held : Liveness) :
    let t := s.step (.serve held)
    t.Over ∧ t.met = s.met ++ [s.next ticket] ∧
      (∀ k ∈ ticket :: behind, t.line.Delivered k.call (.error .dropped)) ∧
      ∀ k ∈ s.mailbox.outside, t.line.TurnedAway k.call := by
  intro t
  obtain ⟨h, ha⟩ := hs.phase.accounted hserving
  have hhead : s.mailbox.queue.head? = some ticket := by rw [hqueue, List.head?_cons]
  let l := s.line.dropHead.answer ticket.call (.error .dropped)
  have hbox : l.mailbox = s.mailbox.dropFirst := (Line.mailbox_answer ..).trans s.line.mailbox_dropHead
  have ha' : Accounted l _ := ha.serve hhead s.line.holds (.error .dropped)
  have ht : t = ⟨⟨l.hangUp, ⟨s.script.expectations.tail⟩, false⟩, s.pushed,
      s.met ++ [s.next ticket]⟩ := by
    rcases s.serve_cases held with ⟨_, hidle⟩ | ⟨k, _, hk, hcases⟩
    · rw [hidle hserving] at hqueue
      cases hqueue
    · obtain rfl := Option.some.inj (hk.symm.trans hhead)
      rcases hcases with ⟨e, hmeets, _⟩ | ⟨_, he⟩
      · rw [Encounter.isMatch_iff.mpr ⟨e, hmeets⟩] at hnone
        cases hnone
      · exact he
  rw [ht]
  refine ⟨⟨rfl, l.closed_hangUp⟩, rfl, ?_, ?_⟩
  · intro k hk
    rcases List.mem_cons.mp hk with rfl | hk
    · exact (ha.delivered_answer hhead _).hangUp
    · refine ha'.delivered_hangUp ?_
      rwa [hbox, Mailbox.queue_dropFirst, hqueue]
  · intro k hk
    refine ha'.turnedAway_hangUp ?_
    rwa [hbox, Mailbox.outside_dropFirst]

/-- Each request that is handled gets the answer of the expectation in its place, be it a reply or an
error, until one does not meet an expectation of its kind. That request is the last: it is dropped, as
are those behind it, and whoever has not been let in by then finds the service closed, whatever is
expected later. -/
theorem answers_until_mismatch (earlier : List Move) (held : Liveness) (mid late : List Move) :
    let s := opening.run earlier
    (∀ (i : Nat) (x : Encounter) (e : Expectation), s.met[i]? = some x → x.Meets e →
      s.pushed[i]? = some e ∧ (s.run late).line.Receives x.ticket.call e.answer) ∧
    (s.exchange.isServing ↔ ∀ x ∈ s.met, x.isMatch) ∧
    ∀ ticket behind, s.exchange.isServing → s.mailbox.queue = ticket :: behind →
      (s.next ticket).isMatch = false →
      let t := (s.step (.serve held)).run mid
      let u := t.run late
      u.met = s.met ++ [s.next ticket] ∧
        (∀ k ∈ ticket :: behind, u.line.Receives k.call (.error .dropped)) ∧
        (∀ k ∈ s.mailbox.outside, u.line.Receives k.call (.error .closed)) ∧
        ∀ call request, t.line.progress? call = some (.issued (.ok request)) →
          u.line.Receives call (.error .closed) := by
  intro s
  have hs : s.Orderly := run_orderly earlier
  refine ⟨fun i x e hx hmeets => ⟨hs.pushed_eq hx hmeets, ?_⟩, hs.phase.isServing_iff, ?_⟩
  · have hdelivered := hs.delivered x (List.mem_of_getElem? hx) e hmeets
    exact (delivered_run hdelivered late).receives
  · intro ticket behind hserving hqueue hnone t u
    obtain ⟨hover, hmet, hdropped, hturned⟩ := hs.serve_mismatch hserving hqueue hnone held
    obtain ⟨ht, hmet'⟩ := hover.run mid
    have hu : u = (s.step (.serve held)).run (mid ++ late) := (run_append ..).symm
    refine ⟨(ht.run late).2.trans (hmet'.trans hmet), ?_, ?_, ?_⟩
    · intro k hk
      exact (delivered_run (delivered_run (hdropped k hk) mid) late).receives
    · intro k hk
      rw [hu]
      exact hover.receives (hturned k hk) (mid ++ late)
    · intro call request hp
      exact ht.receives (.inr (.inl ⟨request, hp⟩)) late

/-- Creation is asked about as expected. Then a suggestion comes where a prune is expected, and with it
another question. -/
def mixUp : List Move :=
  let ask (request : Request) : Move := .caller (.issue 0 (.direct request))
  [.expect (.canCreate (.ok true)), .expect (.prune (.error .closed)), ask .canCreate,
    ask (.suggestName "Color"), ask .canCreate, .caller (.turn 0), .caller (.turn 1),
    .caller (.turn 2), .serve fun _ => false]

/-- The first question is answered, the suggestion and the second one are dropped, and a third one comes
too late although there is an answer for it. -/
theorem answers_until_mismatch_mixUp :
    let s := opening.run mixUp
    let late : List Move :=
      [.expect (.canCreate (.ok true)), .caller (.issue 0 (.direct .canCreate))]
    let t := (s.step (.serve fun _ => false)).run late
    s.pushed[0]?.map (·.kind) = some .canCreate ∧ s.line.Receives 0 (.ok (.flag true)) ∧
      t.line.Receives 1 (.error .dropped) ∧ t.line.Receives 2 (.error .dropped) ∧
        t.line.Receives 3 (.error .closed) := by
  intro s late t
  obtain ⟨hfirst, _, hlast⟩ := answers_until_mismatch mixUp (fun _ => false) late []
  obtain ⟨hpushed, hreceives⟩ := hfirst 0 ⟨⟨0, .canCreate⟩, some (.canCreate (.ok true))⟩
    (.canCreate (.ok true)) rfl ⟨rfl, rfl⟩
  obtain ⟨_, hdropped, _, hclosed⟩ :=
    hlast ⟨1, .suggestName "Color"⟩ [⟨2, .canCreate⟩] rfl rfl rfl
  refine ⟨by rw [hpushed]; rfl, ?_, ?_, ?_, hclosed 3 .canCreate rfl⟩
  · exact hreceives
  · exact hdropped _ List.mem_cons_self
  · exact hdropped _ (List.mem_cons_of_mem _ List.mem_cons_self)

end ScopedResources.Rehearsal
