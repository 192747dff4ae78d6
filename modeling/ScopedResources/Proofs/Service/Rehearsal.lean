import ScopedResources.Proofs.Service.Closing
import ScopedResources.Service.Script

/-! # Rehearsals

A rehearsal is a run of a service that answers from a script. Anyone may move at any time: more is
expected, clients come and go, callers make their calls, and the service handles one request after the
other. A request that has been handled is noted with the expectation that it met. -/

namespace ScopedResources

/-! ## Kinds of requests -/

inductive RequestKind where
  | listSources
  | resourcesFor
  | resourcesForProperty
  | checkName
  | create
  | createChecked
  | prune
  | suggestName
  | canCreate
deriving DecidableEq

/-- Suggestions by base and by type are one kind. -/
def Request.kind : Request → RequestKind
  | listSources _ => .listSources
  | resourcesFor _ => .resourcesFor
  | resourcesForProperty _ _ => .resourcesForProperty
  | checkName _ _ _ => .checkName
  | create _ _ _ => .create
  | createChecked _ _ _ _ _ => .createChecked
  | prune => .prune
  | suggestName _ => .suggestName
  | suggestNameForType _ => .suggestName
  | canCreate => .canCreate

namespace Expectation

def kind : Expectation → RequestKind
  | listSources _ => .listSources
  | resourcesFor _ => .resourcesFor
  | resourcesForProperty _ => .resourcesForProperty
  | checkName _ => .checkName
  | create _ => .create
  | createChecked _ => .createChecked
  | prune _ => .prune
  | suggestName _ => .suggestName
  | canCreate _ => .canCreate

/-- The answer that is held ready, be it a reply or an error. -/
def answer : Expectation → Answer
  | listSources answer => answer.map .sources
  | resourcesFor answer => answer.map .resources
  | resourcesForProperty answer => answer.map .resources
  | checkName answer => answer.map .verdict
  | create answer => answer.map .resource
  | createChecked answer => answer.map .outcome
  | prune answer => answer.map .count
  | suggestName answer => answer.map .name
  | canCreate answer => answer.map .flag

/-- The answer is given to requests of the kind, and to no others. -/
theorem answer?_eq (e : Expectation) (request : Request) :
    e.answer? request = if e.kind = request.kind then some e.answer else none := by
  cases e <;> cases request <;> rfl

end Expectation

/-! ## Encounters -/

/-- A request that has been handled, and the expectation that it met, if one was left. -/
structure Encounter where
  ticket : Ticket
  expectation : Option Expectation

namespace Encounter

/-- The request met this expectation, and it is of the kind that was expected. -/
def Meets (x : Encounter) (e : Expectation) : Prop :=
  x.expectation = some e ∧ e.kind = x.ticket.request.kind

def isMatch (x : Encounter) : Bool := x.expectation.any (·.kind = x.ticket.request.kind)

theorem isMatch_iff {x : Encounter} : x.isMatch ↔ ∃ e, x.Meets e := by
  simp [isMatch, Meets, Option.any_eq_true]

theorem Meets.expectation_unique {x : Encounter} {e e' : Expectation} (h : x.Meets e)
    (h' : x.Meets e') : e = e' := Option.some.inj (h.1.symm.trans h'.1)

end Encounter

theorem Script.respond_eq (alive : Liveness) (request : Request) (s : Script) :
    Script.respond alive request s =
      (s.expectations.head?.bind (·.answer? request), ⟨s.expectations.tail⟩) := by
  unfold Script.respond
  split
  · next h =>
    rw [h]
    exact congrArg _ (congrArg Script.mk h)
  · next h => rw [h]; rfl

/-! ## Moves -/

structure Rehearsal where
  exchange : Exchange Script
  /-- All that has ever been expected, in order. -/
  pushed : List Expectation
  /-- The requests that have been handled, in order. -/
  met : List Encounter

namespace Rehearsal

abbrev line (s : Rehearsal) : Line := s.exchange.line

abbrev mailbox (s : Rehearsal) : Mailbox Ticket := s.exchange.line.mailbox

abbrev script (s : Rehearsal) : Script := s.exchange.server

inductive Move where
  | expect (e : Expectation)
  | caller (m : Line.CallerMove)
  /-- The service handles a request while others hold these targets. -/
  | serve (held : Liveness)

/-- What a request meets if it is handled now. -/
def next (s : Rehearsal) (ticket : Ticket) : Encounter := ⟨ticket, s.script.expectations.head?⟩

def serve (s : Rehearsal) (held : Liveness) : Rehearsal :=
  match s.exchange.isServing, s.line.head? with
  | true, some ticket =>
    { s with exchange := s.exchange.serve Script.respond held, met := s.met ++ [s.next ticket] }
  | _, _ => s

def step (s : Rehearsal) : Move → Rehearsal
  | .expect e => { s with exchange.server := s.script.expect e, pushed := s.pushed ++ [e] }
  | .caller m => { s with exchange.line := s.line.move m }
  | .serve held => s.serve held

def run (s : Rehearsal) (moves : List Move) : Rehearsal := moves.foldl step s

/-- A scripted service that expects nothing yet, with its first client. -/
def opening : Rehearsal := ⟨Script.service, [], []⟩

theorem run_append (s : Rehearsal) (moves moves' : List Move) :
    s.run (moves ++ moves') = (s.run moves).run moves' := List.foldl_append ..

theorem run_induction {P : Rehearsal → Prop} (hstep : ∀ s m, P s → P (s.step m)) {s : Rehearsal}
    (h : P s) (moves : List Move) : P (s.run moves) := by
  induction moves generalizing s with
  | nil => exact h
  | cons m moves ih => exact ih (hstep s m h)

/-! ## What serving comes to -/

/-- The service answers the first request as the next expectation tells it to. If it cannot, it goes
away. -/
theorem serve_cases (s : Rehearsal) (held : Liveness) :
    (s.serve held = s ∧ (s.exchange.isServing → s.mailbox.queue = [])) ∨
    ∃ ticket, s.exchange.isServing ∧ s.mailbox.queue.head? = some ticket ∧
      let script : Script := ⟨s.script.expectations.tail⟩
      let met := s.met ++ [s.next ticket]
      ((∃ e, (s.next ticket).Meets e ∧ s.serve held =
          ⟨⟨s.line.dropHead.answer ticket.call e.answer, script, true⟩, s.pushed, met⟩) ∨
        (s.next ticket).isMatch = false ∧ s.serve held =
          ⟨⟨(s.line.dropHead.answer ticket.call (.error .dropped)).hangUp, script, false⟩,
            s.pushed, met⟩) := by
  unfold serve
  split
  · next ticket hserving hhead =>
    refine .inr ⟨ticket, hserving, hhead, ?_⟩
    rw [Exchange.serve, hhead]
    dsimp only
    rw [Script.respond_eq]
    cases hnext : s.script.expectations.head? with
    | none =>
      exact .inr ⟨by rw [next, hnext]; rfl, rfl⟩
    | some e =>
      rw [Option.bind_some, Expectation.answer?_eq]
      by_cases hkind : e.kind = ticket.request.kind
      · refine .inl ⟨e, ⟨hnext, hkind⟩, ?_⟩
        rw [if_pos hkind, hserving]
      · refine .inr ⟨by simp [Encounter.isMatch, next, hnext, hkind], ?_⟩
        rw [if_neg hkind]
  · next hidle =>
    refine .inl ⟨rfl, ?_⟩
    intro hserving
    cases hqueue : s.mailbox.queue with
    | nil => rfl
    | cons ticket rest => exact absurd (congrArg List.head? hqueue) (hidle ticket hserving)

/-! ## What every move keeps -/

/-- Whoever has been given an answer keeps it. -/
theorem delivered_step {s : Rehearsal} {call : Nat} {a : Answer} (h : s.line.Delivered call a)
    (m : Move) : (s.step m).line.Delivered call a := by
  cases m with
  | expect e => exact h
  | caller m => exact h.move m
  | serve held =>
    have hrest : s.line.dropHead.Delivered call a :=
      h.of_progress? (Line.progress?_congr s.line.calls_dropHead call)
    simp only [step]
    rcases s.serve_cases held with ⟨he, _⟩ | ⟨ticket, _, _, ⟨e, _, he⟩ | ⟨_, he⟩⟩ <;> rw [he]
    · exact h
    · exact hrest.answer _ _
    · exact (hrest.answer _ _).hangUp

theorem delivered_run {s : Rehearsal} {call : Nat} {a : Answer} (h : s.line.Delivered call a)
    (moves : List Move) : (s.run moves).line.Delivered call a :=
  run_induction (P := fun s => s.line.Delivered call a) (fun _ m h => delivered_step h m) h moves

/-- The service has gone away. -/
structure Over (s : Rehearsal) : Prop where
  serving : s.exchange.isServing = false
  closed : s.line.Closed

namespace Over

variable {s : Rehearsal} (hs : s.Over)

include hs

theorem serve_eq (held : Liveness) : s.serve held = s := by
  unfold serve
  rw [hs.serving]

/-- Nothing is handled any more. -/
theorem step (m : Move) : (s.step m).Over ∧ (s.step m).met = s.met := by
  cases m with
  | expect e => exact ⟨⟨hs.serving, hs.closed⟩, rfl⟩
  | caller m => exact ⟨⟨hs.serving, hs.closed.move m⟩, rfl⟩
  | serve held =>
    rw [Rehearsal.step, hs.serve_eq]
    exact ⟨hs, rfl⟩

theorem run (moves : List Move) : (s.run moves).Over ∧ (s.run moves).met = s.met := by
  refine run_induction (P := fun t => t.Over ∧ t.met = s.met) ?_ ⟨hs, rfl⟩ moves
  intro t m ht
  obtain ⟨hover, hmet⟩ := ht.1.step m
  exact ⟨hover, hmet.trans ht.2⟩

end Over

/-- How far the service has come: it runs as long as each request meets an expectation of its kind. -/
inductive Phase (s : Rehearsal) : Prop where
  | running (h : History) (serving : s.exchange.isServing) (accounted : Accounted s.line h)
      (matched : ∀ x ∈ s.met, x.isMatch)
  | ended (before : List Encounter) (last : Encounter) (gone : s.Over)
      (met : s.met = before ++ [last]) (matched : ∀ x ∈ before, x.isMatch)
      (mismatch : last.isMatch = false)

theorem Phase.accounted {s : Rehearsal} (hs : s.Phase) (hserving : s.exchange.isServing) :
    ∃ h, Accounted s.line h := by
  cases hs with
  | running h _ ha _ => exact ⟨h, ha⟩
  | ended _ _ hover _ _ _ =>
    rw [hover.serving] at hserving
    cases hserving

theorem step_phase {s : Rehearsal} (hs : s.Phase) (m : Move) : (s.step m).Phase := by
  cases hs with
  | ended before last hover hmet hmatched hlast =>
    obtain ⟨hover, hsame⟩ := hover.step m
    exact .ended before last hover (hsame.trans hmet) hmatched hlast
  | running h hserving ha hmatched =>
    cases m with
    | expect e => exact .running h hserving ha hmatched
    | caller m =>
      obtain ⟨h', ha'⟩ := ha.move m
      exact .running h' hserving ha' hmatched
    | serve held =>
      simp only [step]
      rcases s.serve_cases held with ⟨he, _⟩ | ⟨ticket, _, hhead, ⟨e, hmeets, he⟩ | ⟨hnone, he⟩⟩ <;>
        rw [he]
      · exact .running h hserving ha hmatched
      · refine .running _ rfl (ha.serve hhead s.line.holds e.answer) ?_
        intro x hx
        rcases List.mem_append.mp hx with hx | hx
        · exact hmatched x hx
        · rw [List.mem_singleton.mp hx]
          exact Encounter.isMatch_iff.mpr ⟨e, hmeets⟩
      · exact .ended s.met _ ⟨rfl, Line.closed_hangUp _⟩ rfl hmatched hnone

/-- Expectations are used up in order, and those that are met are answered with. -/
structure Orderly (s : Rehearsal) : Prop where
  pushed : s.pushed = s.met.filterMap (·.expectation) ++ s.script.expectations
  delivered : ∀ x ∈ s.met, ∀ e, x.Meets e → s.line.Delivered x.ticket.call e.answer
  phase : s.Phase

/-- Whatever a request meets, it is the first of the expectations that are left. -/
theorem filterMap_met_concat (s : Rehearsal) (ticket : Ticket) :
    s.met.filterMap (·.expectation) ++ s.script.expectations =
      (s.met ++ [s.next ticket]).filterMap (·.expectation) ++ s.script.expectations.tail := by
  rw [List.filterMap_append, List.append_assoc]
  refine congrArg _ ?_
  cases h : s.script.expectations with
  | nil => simp [next, h]
  | cons e rest => simp [next, h]

theorem Orderly.step {s : Rehearsal} (hs : s.Orderly) (m : Move) : (s.step m).Orderly := by
  have hdelivered : ∀ x ∈ s.met, ∀ e, x.Meets e →
      (s.step m).line.Delivered x.ticket.call e.answer := fun x hx e hmeets =>
    delivered_step (hs.delivered x hx e hmeets) m
  have hphase := step_phase hs.phase m
  cases m with
  | expect e =>
    refine ⟨?_, hdelivered, hphase⟩
    rw [Rehearsal.step, hs.pushed]
    exact List.append_assoc ..
  | caller m => exact ⟨hs.pushed, hdelivered, hphase⟩
  | serve held =>
    simp only [Rehearsal.step] at hdelivered hphase ⊢
    rcases s.serve_cases held with ⟨he, _⟩ | ⟨ticket, hserving, hhead, ⟨e, hmeets, he⟩ | ⟨hnone, he⟩⟩ <;>
      rw [he] at hdelivered hphase ⊢
    · exact hs
    · refine ⟨hs.pushed.trans (s.filterMap_met_concat ticket), ?_, hphase⟩
      intro x hx e' hmeets'
      rcases List.mem_append.mp hx with hx | hx
      · exact hdelivered x hx e' hmeets'
      · obtain rfl := List.mem_singleton.mp hx
        obtain ⟨h, ha⟩ := hs.phase.accounted hserving
        rw [hmeets'.expectation_unique hmeets]
        exact ha.delivered_answer hhead e.answer
    · refine ⟨hs.pushed.trans (s.filterMap_met_concat ticket), ?_, hphase⟩
      intro x hx e' hmeets'
      rcases List.mem_append.mp hx with hx | hx
      · exact hdelivered x hx e' hmeets'
      · rw [List.mem_singleton.mp hx] at hmeets'
        rw [Encounter.isMatch_iff.mpr ⟨e', hmeets'⟩] at hnone
        cases hnone

theorem opening_accounted : Accounted opening.line [] :=
  ⟨rfl, rfl, rfl, ⟨[], .nil⟩, .nil, fun _ => List.not_mem_nil⟩

theorem opening_orderly : opening.Orderly where
  pushed := rfl
  delivered _ hx := absurd hx List.not_mem_nil
  phase := .running [] rfl opening_accounted fun _ hx => absurd hx List.not_mem_nil

theorem run_orderly (moves : List Move) : (opening.run moves).Orderly :=
  run_induction (fun _ m hs => hs.step m) opening_orderly moves

/-! ## The order of expectations -/

/-- All requests but the last one have met an expectation of their kind, and it may have too. -/
theorem Phase.met_eq {s : Rehearsal} (hs : s.Phase) : ∃ before after,
    s.met = before ++ after ∧ (∀ x ∈ before, x.isMatch) ∧ (∀ x ∈ after, x.isMatch = false) ∧
      after.length ≤ 1 := by
  cases hs with
  | running _ _ _ hmatched =>
    exact ⟨s.met, [], (List.append_nil _).symm, hmatched, fun _ hx => absurd hx List.not_mem_nil,
      Nat.zero_le 1⟩
  | ended before last _ hmet hmatched hlast =>
    refine ⟨before, [last], hmet, hmatched, ?_, Nat.le_refl 1⟩
    intro x hx
    rwa [List.mem_singleton.mp hx]

/-- Requests that all meet an expectation of their kind use up one each. -/
theorem getElem?_expectations {met : List Encounter} (h : ∀ x ∈ met, x.isMatch) (i : Nat) :
    (met.filterMap (·.expectation))[i]? = met[i]?.bind (·.expectation) := by
  induction met generalizing i with
  | nil => rfl
  | cons x met ih =>
    obtain ⟨e, hx, _⟩ := Encounter.isMatch_iff.mp (h x List.mem_cons_self)
    rw [List.filterMap_cons_some hx]
    cases i with
    | zero => exact hx.symm
    | succ i => exact ih (fun y hy => h y (List.mem_cons_of_mem x hy)) i

/-- A request that meets an expectation of its kind meets the one that was pushed in its place. -/
theorem Orderly.pushed_eq {s : Rehearsal} (hs : s.Orderly) {i : Nat} {x : Encounter} {e : Expectation}
    (hx : s.met[i]? = some x) (hmeets : x.Meets e) : s.pushed[i]? = some e := by
  obtain ⟨before, after, hmet, hmatched, hrest, _⟩ := hs.phase.met_eq
  have hbefore : before[i]? = some x := by
    rw [hmet, List.getElem?_append] at hx
    split at hx
    · exact hx
    · have hmatch : x.isMatch := Encounter.isMatch_iff.mpr ⟨e, hmeets⟩
      rw [hrest x (List.mem_of_getElem? hx)] at hmatch
      cases hmatch
  have hused : (before.filterMap (·.expectation))[i]? = some e := by
    rw [getElem?_expectations hmatched, hbefore]
    exact hmeets.1
  rw [hs.pushed, hmet, List.filterMap_append, List.append_assoc,
    List.getElem?_append_left (List.getElem?_eq_some_iff.mp hused).1, hused]

end Rehearsal

end ScopedResources
