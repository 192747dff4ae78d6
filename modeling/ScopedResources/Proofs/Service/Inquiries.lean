import ScopedResources.Proofs.Registry.FreeNames
import ScopedResources.Proofs.Service.Closing
import ScopedResources.Proofs.Service.Linear
import ScopedResources.Service.Inquiry

/-! # Inquiries are answered as by the registry

An inquiry goes through a call, a request and the service. If no other request is handled before it, it
comes back with what the registry's own operation returns, and the registry is left as that operation
leaves it, pruned after a creation. Where a property has no type the call fails as the operation does,
and sends nothing. -/

namespace ScopedResources

/-! ## Asking the registry itself -/

namespace Inquiry

/-- The registry's own operation, with the registry that it leaves. -/
def operation (alive : Liveness) (r : Registry) :
    Inquiry → Except RegistryError (Reply × Registry)
  | canCreate => .ok (.flag r.canCreate, r)
  | sources t => .ok (.sources t.sources, r)
  | sourcesForProperty t p => (t.sourcesForProperty p).map (.sources ·, r)
  | resources t => .ok (.resources (r.resourcesFor t), r)
  | resourcesForProperty t p => (r.resourcesForProperty t p).map (.resources ·, r)
  | checkName _ s name => (r.checkName alive s name).map (.verdict ·, r)
  | create s name v => (r.create alive s name v).map fun (x, r') => (.resource x, r')
  | createChecked _ s name v policy =>
    (r.createChecked alive s name v policy).map fun (outcome, r') => (.outcome outcome, r')
  | suggestName base => (r.suggestName base).map (.name ·, r)
  | suggestNameForType type => (r.suggestNameForType type).map (.name ·, r)
  | suggestNameForProperty p => (r.suggestNameForProperty p).map (.name ·, r)

/-- What the operation returns and what the registry is then. One that has created a resource is
pruned, and one that has refused is as it was. -/
def onRegistry (alive : Liveness) (r : Registry) (m : Inquiry) :
    Except RegistryError Reply × Registry :=
  match m.operation alive r with
  | .ok (reply, r') =>
    (.ok reply, if (Answer.created? (.ok reply)).isSome then (r'.prune alive).2 else r')
  | .error e => (.error e, r)

/-- An operation that only reads leaves the registry as it is. -/
theorem onRegistry_of_reading {alive : Liveness} {r : Registry} (m : Inquiry) {α : Type}
    (f : α → Reply) (hf : ∀ a, Answer.created? (.ok (f a)) = none) {x : Except RegistryError α}
    (hx : m.operation alive r = x.map (f ·, r)) : m.onRegistry alive r = (x.map f, r) := by
  rw [onRegistry, hx]
  cases x with
  | error e => rfl
  | ok a =>
    dsimp only [Except.map]
    rw [hf]
    rfl

/-- The request of an inquiry is performed as the operation of the inquiry. -/
theorem perform_request {m : Inquiry} {request : Request} (h : m.call.request = .ok request)
    (alive : Liveness) (r : Registry) : r.perform alive request =
      ((m.onRegistry alive r).1.mapError .registry, (m.onRegistry alive r).2) := by
  cases m with
  | create s name v =>
    cases h
    dsimp only [Registry.perform, onRegistry, operation]
    cases r.create alive s name v <;> rfl
  | createChecked t s name v policy =>
    cases h
    dsimp only [Registry.perform, onRegistry, operation]
    cases r.createChecked alive s name v policy with
    | error e => rfl
    | ok result =>
      obtain ⟨outcome, r'⟩ := result
      cases outcome <;> rfl
  | sourcesForProperty t p =>
    obtain ⟨name, type?⟩ := p
    cases type? <;> cases h
    rfl
  | suggestNameForProperty p =>
    rw [onRegistry_of_reading (.suggestNameForProperty p) .name (fun _ => rfl) rfl]
    obtain ⟨name, type?⟩ := p
    cases type? <;> cases h
    rfl
  | resourcesForProperty t p =>
    cases h
    rw [onRegistry_of_reading (.resourcesForProperty t p) .resources (fun _ => rfl) rfl]
    rfl
  | checkName t s name =>
    cases h
    rw [onRegistry_of_reading (.checkName t s name) .verdict (fun _ => rfl) rfl]
    rfl
  | suggestName base =>
    cases h
    rw [onRegistry_of_reading (.suggestName base) .name (fun _ => rfl) rfl]
    rfl
  | suggestNameForType type =>
    cases h
    rw [onRegistry_of_reading (.suggestNameForType type) .name (fun _ => rfl) rfl]
    rfl
  | canCreate => cases h; rfl
  | sources t => cases h; rfl
  | resources t => cases h; rfl

/-- An inquiry that sends no request fails as its operation does. -/
theorem onRegistry_of_error {m : Inquiry} {e : RegistryError} (h : m.call.request = .error e)
    (alive : Liveness) (r : Registry) : m.onRegistry alive r = (.error e, r) := by
  cases m with
  | sourcesForProperty t p =>
    obtain ⟨name, type?⟩ := p
    cases type? <;> cases h
    rfl
  | suggestNameForProperty p =>
    obtain ⟨name, type?⟩ := p
    cases type? <;> cases h
    rfl
  | _ => cases h

/-- About an event, nothing is sent by the inquiries that need a type. -/
theorem request_of_untyped {m : Inquiry} {p : Property} (hp : p.type? = none)
    (hm : m = .suggestNameForProperty p ∨ ∃ t, m = .sourcesForProperty t p) :
    m.call.request = .error (.untypedProperty p.name) := by
  have hrequire : p.requireType = .error (.untypedProperty p.name) := by
    rw [Property.requireType, hp]
  rcases hm with rfl | ⟨t, rfl⟩
  · rw [call, Call.suggestNameForProperty, hrequire]
    rfl
  · rw [call, Call.sourcesForProperty, hrequire]
    rfl

end Inquiry

namespace Service

variable {s t : Service} {call : Nat} {request : Except RegistryError Request}

/-! ## What becomes of a call -/

/-- A call that was made with this request has sent no other, and it has finished without one only if
there was none to send. -/
structure Asked (call : Nat) (request : Except RegistryError Request) (s : Service) : Prop where
  isMade : s.line.progress? call ≠ none
  issued : ∀ q, s.line.progress? call = some (.issued q) → q = request
  sent : ∀ ticket ∈ s.history.sent, ticket.call = call → request = .ok ticket.request
  finished : ∀ a, s.line.progress? call = some (.finished a) →
    (∃ ticket ∈ s.history.sent, ticket.call = call) ∨
      ∃ e, request = .error e ∧ a = .error (.registry e)

namespace Asked

/-- Moves of others. -/
theorem transfer (h : Asked call request s) (hp : t.line.progress? call = s.line.progress? call)
    {new : List Ticket} (hsent : t.history.sent = s.history.sent ++ new)
    (hnew : ∀ ticket ∈ new, ticket.call ≠ call) : Asked call request t := by
  refine ⟨hp ▸ h.isMade, hp ▸ h.issued, fun ticket hm hc => ?_, fun a ha => ?_⟩
  · rw [hsent] at hm
    exact h.sent ticket ((List.mem_append.mp hm).resolve_right fun hm => hnew ticket hm hc) hc
  · rw [hp] at ha
    refine (h.finished a ha).imp_left fun ⟨ticket, hm, hc⟩ => ⟨ticket, ?_, hc⟩
    rw [hsent]
    exact List.mem_append_left _ hm

theorem keep (h : Asked call request s) (hp : t.line.progress? call = s.line.progress? call)
    (hsent : t.history.sent = s.history.sent) : Asked call request t :=
  h.transfer hp (hsent.trans (List.append_nil _).symm) (fun _ hm => by cases hm)

/-- The call gets on. It may send its request, and may finish for one of the two reasons. -/
theorem advance (h : Asked call request s) {p : Progress} (hp : t.line.progress? call = some p)
    (hissued : ∀ q, p ≠ .issued q) {new : List Ticket}
    (hsent : t.history.sent = s.history.sent ++ new)
    (hnew : ∀ ticket ∈ new, request = .ok ticket.request)
    (hfinished : ∀ a, p = .finished a → (∃ ticket ∈ s.history.sent, ticket.call = call) ∨
      ∃ e, request = .error e ∧ a = .error (.registry e)) : Asked call request t := by
  refine ⟨by simp [hp], fun q hq => ?_, fun ticket hm hc => ?_, fun a ha => ?_⟩
  · exact absurd (Option.some.inj (hp.symm.trans hq)) (hissued q)
  · rw [hsent] at hm
    rcases List.mem_append.mp hm with hm | hm
    · exact h.sent ticket hm hc
    · exact hnew ticket hm
  · refine (hfinished a (Option.some.inj (hp.symm.trans ha))).imp_left ?_
    rintro ⟨ticket, hm, hc⟩
    exact ⟨ticket, hsent ▸ List.mem_append_left _ hm, hc⟩

theorem turn (h : Asked call request s) (ha : Accounted s.line s.history) :
    Asked call request (s.turn call) := by
  have hsent : (s.turn call).history.sent = s.history.sent ++ s.line.posting call :=
    (s.history.append_requests ..).1
  have hline : (s.turn call).line = s.line.callerTurn call := rfl
  rcases s.line.callerTurn_cases call ha.isOpen with
    ⟨he, hpost⟩ | ⟨a, he, hp | ⟨e, hp⟩⟩ | ⟨q, hp, hcalls, _⟩ | ⟨hp, hcalls, _⟩
  · exact h.keep (congrArg (Line.progress? · call) he) (by rw [hsent, hpost, List.append_nil])
  · -- The answer was given to a request, which the call has sent.
    have hplaced := ha.placed call
    rw [hp] at hplaced
    obtain ⟨ticket, hc, hm⟩ := hplaced
    have hticket := ha.mem_sent (List.mem_append_left _ (ha.mem_handled_of_answered hm))
    rw [Line.posting_of_progress? ha.isOpen hp] at hsent
    refine h.advance (p := .finished a) ?_ (by simp) hsent (by simp [Progress.request?])
      fun _ _ => .inl ⟨ticket, hticket, hc⟩
    rw [hline, he]
    exact Line.progress?_setProgress hp
  · have hrequest := h.issued _ hp
    rw [Line.posting_of_progress? ha.isOpen hp] at hsent
    refine h.advance (p := .finished (.error (.registry e))) ?_ (by simp) hsent
      (by simp [Progress.request?]) fun a ha => .inr ⟨e, hrequest.symm, (Progress.finished.inj ha).symm⟩
    rw [hline, Line.callerTurn_of_error hp]
    exact Line.progress?_setProgress hp
  · have hrequest := h.issued _ hp
    rw [Line.posting_of_progress? ha.isOpen hp] at hsent
    refine h.advance (p := .sent) ?_ (by simp) hsent (fun ticket hm => ?_) (by simp)
    · rw [hline, Line.progress?_congr hcalls]
      exact Line.progress?_setProgress hp
    · cases List.mem_singleton.mp hm
      exact hrequest.symm
  · rw [Line.posting_of_progress? ha.isOpen hp] at hsent
    exact h.keep (Line.progress?_congr hcalls call) (hsent.trans (List.append_nil _))

theorem step (h : Asked call request s) (ha : Accounted s.line s.history) (m : Move) :
    Asked call request (s.step m) := by
  obtain ⟨p, hp⟩ := Option.ne_none_iff_exists'.mp h.isMade
  cases m with
  | handles step => exact h.keep rfl rfl
  | openClient =>
    simp only [Service.step]
    split
    · exact h
    · exact h.keep rfl rfl
  | dropClient client => exact h.keep rfl rfl
  | issue client c =>
    simp only [Service.step]
    split
    · exact h.keep ((Line.progress?_issue_of_some hp client c).trans hp.symm) rfl
    · exact h
  | turn d =>
    by_cases hd : call = d
    · exact hd ▸ h.turn ha
    · exact h.transfer (Line.progress?_callerTurn_of_ne hd) (s.history.append_requests ..).1
        fun ticket hm hc => hd (hc.symm.trans (Line.call_of_mem_posting hm))
  | giveUp d =>
    by_cases hd : call = d
    · subst hd
      rcases s.line.progress?_giveUp call with he | hp
      · exact h.keep (congrArg (Line.progress? · call) he) rfl
      · exact h.advance hp (by simp) (List.append_nil _).symm (by simp) (by simp)
    · exact h.keep (Line.progress?_giveUp_of_ne hd) rfl
  | start => exact h.keep (Line.progress?_congr (Line.calls_wake ..) call) rfl
  | serve =>
    rw [Service.step]
    rcases s.serve_cases with ⟨he, _⟩ | ⟨ticket, a, r, _, _, _, he⟩ <;> rw [he]
    · exact h
    have hsent := (s.history.append_handled ticket s.alive a).1
    have hrest : s.line.dropHead.progress? call = s.line.progress? call :=
      Line.progress?_congr s.line.calls_dropHead call
    by_cases hd : call = ticket.call
    · subst hd
      rcases s.line.dropHead.answer_cases ticket.call a with ⟨hp, hcalls⟩ | ⟨_, he⟩
      · refine h.advance (p := .answered a) ?_ (by simp) (hsent.trans (List.append_nil _).symm)
          (by simp) (by simp)
        exact (Line.progress?_congr hcalls _).trans (Line.progress?_setProgress hp)
      · exact h.keep ((congrArg (Line.progress? · ticket.call) he).trans hrest) hsent
    · exact h.keep ((Line.progress?_answer_of_ne hd).trans hrest) hsent

theorem run (h : Asked call request s) (ha : Accounted s.line s.history) (moves : List Move) :
    Asked call request (s.run moves) :=
  (run_induction (P := fun s => Accounted s.line s.history ∧ Asked call request s) moves
    (fun _ m _ ⟨ha, h⟩ => ⟨step_accounted ha m, h.step ha m⟩) ⟨ha, h⟩).2

end Asked

/-! ## From the call to its answer -/

/-- No request belongs to a call that has not been made. -/
theorem call_ne_of_sent (ha : Accounted s.line s.history) {ticket : Ticket}
    (hm : ticket ∈ s.history.sent) : ticket.call ≠ s.line.calls.length := by
  intro hc
  have hunsent := ha.placed s.line.calls.length
  rw [s.line.progress?_length] at hunsent
  exact hunsent (List.mem_map.mpr ⟨ticket, hm, hc⟩)

theorem asked_issue (ha : Accounted s.line s.history) (client : Nat) (c : Call) :
    Asked s.line.calls.length c.request
      { s with exchange.line := (s.line.issue client c).2 } := by
  have hp := s.line.progress?_issue_self client c
  refine ⟨by simp [hp], fun q hq => ?_, fun ticket hm hc => ?_, fun a hfinished => ?_⟩
  · cases hp.symm.trans hq
    rfl
  · exact absurd hc (call_ne_of_sent ha hm)
  · cases hp.symm.trans hfinished

/-- The first request that is handled after `s` is performed on the registry of `s`. -/
theorem first_handled {keeper : Keeper} (hs : s.Follows keeper) (ht : t.Follows keeper)
    (has : Accounted s.line s.history) (hat : Accounted t.line t.history)
    (hgrown : s.history <+: t.history) {ticket : Ticket} {alive : Liveness}
    {rest : List (Ticket × Liveness)}
    (hhandled : t.history.handled = s.history.handled ++ (ticket, alive) :: rest) :
    (ticket, (s.registry.perform alive ticket.request).1) ∈ t.history.answered ∧
      (rest = [] → t.registry = (s.registry.perform alive ticket.request).2) := by
  obtain ⟨new, hnew⟩ : s.history.answered <+: t.history.answered := hgrown.filterMap _
  have hreplay := ht.replay
  rw [History.requests, hhandled, List.map_append, ← History.requests, Registry.replay_append,
    hs.replay, ← hnew, List.map_append, Prod.mk.injEq, List.append_cancel_left_eq] at hreplay
  obtain ⟨hanswers, hregistry⟩ := hreplay
  have hcalls := hat.answered
  rw [← hnew, hhandled, List.map_append, List.map_append, has.answered,
    List.append_cancel_left_eq] at hcalls
  refine ⟨?_, fun hrest => ?_⟩
  · cases new with
    | nil => cases hcalls
    | cons entry new =>
      have hentry : entry = (ticket, (s.registry.perform alive ticket.request).1) :=
        Prod.ext (List.cons.inj hcalls).1 (List.cons.inj hanswers).1.symm
      rw [← hnew, hentry]
      exact List.mem_append_right _ List.mem_cons_self
  · rw [← hregistry, hrest]
    rfl

/-- If nothing is handled before its request, an inquiry comes back with what the operation returns on
the registry of `s`, and if nothing is handled after it the registry is as the operation leaves it. -/
theorem Asked.agrees {keeper : Keeper} (hs : s.Follows keeper) (ht : t.Follows keeper)
    (has : Accounted s.line s.history) (hat : Accounted t.line t.history)
    (hgrown : s.history <+: t.history) {m : Inquiry}
    (h : Asked s.line.calls.length m.call.request t) {a : Answer}
    (hr : t.line.result? s.line.calls.length = some a) :
    let since := t.history.handled.drop s.history.handled.length
    (∀ first ∈ since.head?, first.1.call = s.line.calls.length) →
      ∃ alive, (∀ first ∈ since.head?, first.2 = alive) ∧
        a = (m.onRegistry alive s.registry).1.mapError .registry ∧
        (since.length ≤ 1 → t.registry = (m.onRegistry alive s.registry).2) := by
  intro since hfirst
  have hreceived := (linear_of_accounted hat ht).received
  obtain ⟨new, hnew⟩ : s.history.handled <+: t.history.handled := hgrown.filterMap _
  have hsince : since = new := (congrArg (List.drop _) hnew.symm).trans List.drop_left
  rw [hsince] at hfirst ⊢
  cases new with
  | cons first rest =>
    obtain ⟨ticket, alive⟩ := first
    have hc : ticket.call = s.line.calls.length := hfirst _ rfl
    have hsent : ticket ∈ t.history.sent := hat.mem_sent (List.mem_append_left _
      (List.mem_map.mpr ⟨_, hnew ▸ List.mem_append_right _ List.mem_cons_self, rfl⟩))
    obtain ⟨hanswered, hregistry⟩ := first_handled hs ht has hat hgrown hnew.symm
    rw [m.perform_request (h.sent ticket hsent hc)] at hanswered hregistry
    refine ⟨alive, fun _ hf => by cases hf; rfl, ?_, fun hlast => hregistry ?_⟩
    · exact hat.answer_unique (hreceived ticket hsent a (hc ▸ hr)) hanswered
    · exact List.eq_nil_of_length_eq_zero (by simpa using hlast)
  | nil =>
    rw [List.append_nil] at hnew
    rcases h.finished a (Line.result?_eq_some.mp hr) with ⟨ticket, hm, hc⟩ | ⟨e, he, rfl⟩
    · -- The request would have been handled before it was sent.
      have hhandled := hat.mem_handled_of_answered (hreceived ticket hm a (hc ▸ hr))
      rw [← hnew] at hhandled
      exact absurd hc (call_ne_of_sent has (has.mem_sent (List.mem_append_left _ hhandled)))
    · have hsame := ht.replay
      rw [History.requests, ← hnew, ← History.requests, hs.replay] at hsame
      refine ⟨s.alive, by simp, ?_⟩
      rw [m.onRegistry_of_error he]
      exact ⟨rfl, fun _ => (congrArg Prod.snd hsame).symm⟩

/-! ## A call whose turn comes at once -/

/-- Once its caller has taken a turn, an issued request is on its way. -/
theorem posted (hopen : s.mailbox.isOpen) (client : Nat) {c : Call} {request : Request}
    (hc : c.request = .ok request) :
    let l := (s.line.issue client c).2.callerTurn s.line.calls.length
    l.calls = s.line.calls ++ [⟨client, c.keeps, .sent⟩] ∧
      l.mailbox = s.mailbox.post ⟨s.line.calls.length, request⟩ := by
  intro l
  let issued : Line := (s.line.issue client c).2
  have hbox : issued.mailbox = s.mailbox := Line.mailbox_wake ..
  have hp : issued.progress? s.line.calls.length = some (.issued (.ok request)) := by
    rw [Line.progress?_issue_self, hc]
  rcases issued.callerTurn_cases s.line.calls.length (hbox ▸ hopen) with
    ⟨_, hpost⟩ | ⟨a, _, hq | ⟨e, hq⟩⟩ | ⟨q, hq, hcalls, hmail⟩ | ⟨hq, _⟩
  · rw [Line.posting_of_progress? (hbox ▸ hopen) hp] at hpost
    cases hpost
  · cases hp.symm.trans hq
  · cases hp.symm.trans hq
  · cases hp.symm.trans hq
    have hissued : issued.calls = s.line.calls ++ [⟨client, c.keeps, .issued c.request⟩] :=
      Line.calls_wake ..
    refine ⟨hcalls.trans ?_, hmail.trans (by rw [hbox])⟩
    simp [Line.setProgress, hissued, List.modify_eq_take_drop]
  · cases hp.symm.trans hq

/-- A request keeps nothing that was not there when its call was made. -/
theorem alive_posted (client : Nat) {c : Call} {request : Request}
    (hc : c.request = .ok request) (htargets : c.targets.all s.alive) {l : Line}
    (hcalls : l.calls = s.line.calls ++ [⟨client, c.keeps, .sent⟩])
    (hbox : l.mailbox = s.mailbox.post ⟨s.line.calls.length, request⟩) :
    l.alive s.handles.holds = s.alive := by
  funext t
  have hall : c.targets = c.keeps.toList ++ request.target?.toList := by
    rw [Call.targets, hc]
    rfl
  have hnew : c.targets.any (· == t) = (c.keeps.any (· == t) || request.target?.any (· == t)) := by
    rw [hall]
    cases c.keeps <;> cases request.target? <;> simp
  have hcall : CallState.holds ⟨client, c.keeps, .sent⟩ t = c.keeps.any (· == t) := by
    simp [CallState.holds, CallState.isOver, Progress.request?]
  have hline : l.holds t = (s.line.holds t || c.targets.any (· == t)) := by
    simp only [Line.holds, hcalls, hbox, (Mailbox.contents_post ..).any_eq, List.any_cons,
      List.any_append, List.any_nil, Ticket.holds, hcall, hnew, Bool.or_false]
    ac_rfl
  rw [Line.alive, hline, ← Bool.or_assoc]
  change (s.alive t || _) = s.alive t
  cases hany : c.targets.any (· == t) with
  | false => rw [Bool.or_false]
  | true =>
    obtain ⟨u, hu, hut⟩ := List.any_eq_true.mp hany
    rw [← s.alive_consistent hut, List.all_eq_true.mp htargets u hu]
    rfl

/-- A caller that is alone with a running service is answered in three moves. -/
theorem answered_at_once (ha : Accounted s.line s.history) {client : Nat} {m : Inquiry}
    (hclient : client ∈ s.line.clients) (htargets : m.call.targets.all s.alive)
    (hserving : s.exchange.isServing) (hqueue : s.mailbox.queue = []) (hroom : s.mailbox.hasRoom) :
    let n := s.line.calls.length
    let t := (s.step (.issue client m.call)).run [.turn n, .serve, .turn n]
    t.line.result? n = some ((m.onRegistry s.alive s.registry).1.mapError .registry) ∧
      t.registry = (m.onRegistry s.alive s.registry).2 := by
  intro n t
  let asked : Service := { s with exchange.line := (s.line.issue client m.call).2 }
  let sent := asked.turn n
  have ht : t = sent.serve.turn n := by
    have hasked : s.step (.issue client m.call) = asked := if_pos ⟨hclient, htargets⟩
    simp only [t, hasked]
    rfl
  have hlast : t.line = sent.serve.line.callerTurn n := congrArg line ht
  have hregistry : t.registry = sent.serve.registry := (congrArg registry ht).trans rfl
  rw [Line.result?_eq_some, hlast, hregistry]
  cases hrequest : m.call.request with
  | error e =>
    have hp : asked.line.progress? n = some (.issued (.error e)) := by
      rw [Line.progress?_issue_self, hrequest]
    have hsent : sent.line = asked.line.setProgress n (.finished (.error (.registry e))) :=
      Line.callerTurn_of_error hp
    have hfailed := hsent ▸ Line.progress?_setProgress hp
    have hidle : sent.serve = sent := by
      rcases sent.serve_cases with ⟨he, _⟩ | ⟨ticket, _, _, _, hhead, _⟩
      · exact he
      · have hissued : asked.mailbox = s.mailbox := Line.mailbox_wake ..
        have hempty : sent.mailbox.queue = asked.mailbox.queue :=
          congrArg (·.mailbox.queue) hsent
        rw [hempty, hissued, hqueue] at hhead
        cases hhead
    rw [hidle, Line.callerTurn_of_finished hfailed, m.onRegistry_of_error hrequest]
    exact ⟨hfailed, rfl⟩
  | ok request =>
    obtain ⟨hcalls, hbox⟩ := posted ha.isOpen client hrequest
    have halive : sent.alive = s.alive := alive_posted client hrequest htargets hcalls hbox
    have hsent : sent.mailbox.queue = [⟨n, request⟩] := by
      rw [show sent.mailbox = _ from hbox, Mailbox.post, if_pos hroom, hqueue]
      rfl
    rcases sent.serve_cases with ⟨_, hnone⟩ | ⟨ticket, a, r, _, hhead, hperform, he⟩
    · rw [hnone hserving] at hsent
      cases hsent
    rw [hsent] at hhead
    cases hhead
    have hwaiting : sent.line.dropHead.progress? n = some .sent := by
      rw [Line.progress?, Line.calls_dropHead, show sent.line.calls = _ from hcalls,
        List.getElem?_concat_length]
      rfl
    have hanswered : sent.serve.line.progress? n = some (.answered a) := by
      rcases sent.line.dropHead.answer_cases n a with ⟨_, hcalls⟩ | ⟨hp, _⟩
      · rw [he, Line.progress?_congr hcalls]
        exact Line.progress?_setProgress hwaiting
      · exact absurd hwaiting hp
    have hanswer : s.registry.perform s.alive request = (a, r) := halive ▸ hperform
    rw [m.perform_request hrequest] at hanswer
    cases hanswer
    rw [Line.callerTurn_of_answered hanswered]
    exact ⟨Line.progress?_setProgress hanswered, by rw [he]⟩

/-! ## Agreement -/

/-- Over any registry, an inquiry is answered as the registry itself would answer it, and leaves the
registry as that would. A caller that is alone with a running service gets the answer in three moves.
Whatever others do meanwhile, an inquiry whose request is handled first agrees with the registry as it
was before. About an event the inquiries that need a type fail at once, and they never send anything. -/
theorem inquiries_agree_with_registry (session : Session) (channelCapacity eventCapacity : Nat)
    (earlier : List Move) (client : Nat) (m : Inquiry) :
    let s := (takeOver session channelCapacity eventCapacity).run earlier
    let n := s.line.calls.length
    let asked := s.step (.issue client m.call)
    client ∈ s.line.clients → m.call.targets.all s.alive →
    (s.exchange.isServing → s.mailbox.queue = [] → s.mailbox.hasRoom →
      let t := asked.run [.turn n, .serve, .turn n]
      t.line.result? n = some ((m.onRegistry s.alive s.registry).1.mapError .registry) ∧
        t.registry = (m.onRegistry s.alive s.registry).2) ∧
    (∀ later a,
      let t := asked.run later
      let since := t.history.handled.drop s.history.handled.length
      t.line.result? n = some a → (∀ first ∈ since.head?, first.1.call = n) →
        ∃ alive, (∀ first ∈ since.head?, first.2 = alive) ∧
          a = (m.onRegistry alive s.registry).1.mapError .registry ∧
          (since.length ≤ 1 → t.registry = (m.onRegistry alive s.registry).2)) ∧
    (∀ p : Property, p.type? = none →
      (m = .suggestNameForProperty p ∨ ∃ t, m = .sourcesForProperty t p) →
        (asked.step (.turn n)).line.result? n =
          some (.error (.registry (.untypedProperty p.name))) ∧
        ∀ later, ∀ ticket ∈ (asked.run later).history.sent, ticket.call ≠ n) ∧
    ∀ e : RegistryError, (ServiceError.registry e).message = e.message := by
  intro s n asked hclient htargets
  have hstart := takeOver_accounted session channelCapacity eventCapacity
  have ha : Accounted s.line s.history := run_accounted hstart earlier
  have hfollows : s.Follows ⟨session.registry, .empty eventCapacity⟩ :=
    Follows.run ⟨rfl, rfl⟩ earlier
  have hissue : asked = { s with exchange.line := (s.line.issue client m.call).2 } :=
    if_pos ⟨hclient, htargets⟩
  have hasked : Asked n m.call.request asked := hissue ▸ asked_issue ha client m.call
  have haccounted : Accounted asked.line asked.history := step_accounted ha _
  refine ⟨fun hserving hqueue hroom => ?_, fun later a => ?_, fun p hp hm => ⟨?_, ?_⟩, fun _ => rfl⟩
  · exact answered_at_once ha hclient htargets hserving hqueue hroom
  · intro t since hr hfirst
    exact Asked.agrees hfollows ((hfollows.step _).run later) ha (run_accounted haccounted later)
      ((s.history_step _).trans (asked.history_run later)) (hasked.run haccounted later) hr hfirst
  · have hissued : asked.line.progress? n = some (.issued m.call.request) := by
      rw [hissue, line, Line.progress?_issue_self]
    rw [m.request_of_untyped hp hm] at hissued
    have hturn : (asked.turn n).line = _ := Line.callerTurn_of_error hissued
    rw [Line.result?_eq_some, step, hturn]
    exact Line.progress?_setProgress hissued
  · intro later ticket hticket hc
    have hsent := (hasked.run haccounted later).sent ticket hticket hc
    rw [m.request_of_untyped hp hm] at hsent
    cases hsent

/-- An application that has a brush, and a button to inspect. -/
def showroom : List Session.Op :=
  [.handles (.create "button" "Button"), .seed [⟨.application, "Brush1", .flag true⟩]]

/-- A name for the button's background is suggested by the service, and none for its click event. -/
theorem inquiries_agree_with_registry_showroom :
    let s := (takeOver (Session.start.run showroom) 1 1).run [.start]
    let background : Inquiry := .suggestNameForProperty ⟨"Background", some .brush⟩
    let click : Inquiry := .sourcesForProperty ⟨0, "Button"⟩ ⟨"Click", none⟩
    0 ∈ s.line.clients ∧ s.exchange.isServing ∧ s.mailbox.hasRoom ∧
      click.call.targets.all s.alive ∧
      ((s.step (.issue 0 background.call)).run [.turn 0, .serve, .turn 0]).line.result? 0 =
        some (.ok (.name "Brush2")) ∧
      ((s.step (.issue 0 click.call)).step (.turn 0)).line.result? 0 =
        some (.error (.registry (.untypedProperty "Click"))) := by
  intro s background click
  have hagree := inquiries_agree_with_registry (Session.start.run showroom) 1 1 [.start] 0
  have hclient : 0 ∈ s.line.clients := by decide
  have hbutton : click.call.targets.all s.alive := by decide
  have hsuggested : s.registry.suggestName "Brush" = .ok "Brush2" := by
    have hregistry : s.registry.Reflects (Session.start.run showroom).log :=
      Session.run_reflects Registry.reflects_empty showroom
    have hnames : s.registry.applicationNames = ["Brush1"] := by
      rw [Registry.applicationNames, hregistry.inSource]
      rfl
    rw [Registry.suggestName_eq_ok _ (by decide), Registry.freeNumber, hnames]
    decide
  refine ⟨hclient, rfl, rfl, hbutton, ?_, ?_⟩
  · obtain ⟨hanswered, _⟩ := (hagree background hclient rfl).1 rfl rfl rfl
    have hanswer := congrArg Prod.fst (background.perform_request rfl s.alive s.registry)
    rw [Registry.perform, show ValueType.brush.name = "Brush" from rfl, hsuggested] at hanswer
    exact hanswered.trans (congrArg some hanswer.symm)
  · exact ((hagree click hclient hbutton).2.2.1 ⟨"Click", none⟩ rfl (.inr ⟨_, rfl⟩)).1

end Service

end ScopedResources
