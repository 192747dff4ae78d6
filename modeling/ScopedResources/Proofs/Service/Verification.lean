import Mathlib.Data.List.Basic
import ScopedResources.Proofs.Service.Rehearsal

/-! # Verification

Verification looks at what remains of the expectations. What has been answered with does not remain, but
neither does an expectation that a request of another kind has met: it is used up and nobody gets its
answer. -/

namespace ScopedResources

theorem Script.verify_eq_ok {script : Script} : script.verify = .ok () ↔ script.remaining = 0 := by
  unfold verify
  split
  · next h => exact iff_of_true rfl h
  · next h => exact iff_of_false nofun h

/-- The request met an expectation, and it was of another kind. -/
def Encounter.isMismatch (x : Encounter) : Bool := x.expectation.isSome && !x.isMatch

theorem Encounter.isSome_of_isMatch {x : Encounter} (h : x.isMatch) : x.expectation.isSome := by
  obtain ⟨e, he, _⟩ := isMatch_iff.mp h
  rw [he, Option.isSome_some]

/-- Each expectation that has been met was of the request's kind or of another. -/
theorem length_expectations (met : List Encounter) :
    (met.filterMap (·.expectation)).length =
      (met.filter (·.isMatch)).length + (met.filter (·.isMismatch)).length := by
  let isSome (x : Encounter) : Bool := x.expectation.isSome
  have hmatch : (met.filter (·.isMatch)).countP isSome = (met.filter (·.isMatch)).length :=
    List.countP_eq_length.mpr fun x hx => Encounter.isSome_of_isMatch (List.mem_filter.mp hx).2
  calc
    (met.filterMap (·.expectation)).length = met.countP isSome := List.length_filterMap_eq_countP
    _ = (met.filter (·.isMatch)).countP isSome + (met.filter (!·.isMatch)).countP isSome :=
      List.countP_eq_countP_filter_add ..
    _ = (met.filter (·.isMatch)).length + (met.filter (·.isMismatch)).length := by
      rw [hmatch, List.countP_filter, List.countP_eq_length_filter]
      rfl

namespace Rehearsal

variable {s : Rehearsal}

/-- The requests that have met an expectation of their kind, and so have been answered with it. -/
def answered (s : Rehearsal) : List Encounter := s.met.filter (·.isMatch)

/-- The requests that have met an expectation of another kind. -/
def mismatched (s : Rehearsal) : List Encounter := s.met.filter (·.isMismatch)

theorem Orderly.remaining_eq (hs : s.Orderly) :
    s.script.remaining + s.answered.length + s.mismatched.length = s.pushed.length := by
  rw [hs.pushed, List.length_append, length_expectations, Script.remaining, answered, mismatched]
  omega

/-- Only the last request can have met an expectation of another kind. -/
theorem Phase.length_mismatched_le (hs : s.Phase) : s.mismatched.length ≤ 1 := by
  obtain ⟨before, after, hmet, hmatched, _, hlength⟩ := hs.met_eq
  have hbefore : before.filter (·.isMismatch) = [] := by
    refine List.filter_eq_nil_iff.mpr ?_
    intro x hx
    rw [Encounter.isMismatch, hmatched x hx, Bool.not_true, Bool.and_false]
    exact Bool.false_ne_true
  rw [mismatched, hmet, List.filter_append, hbefore, List.nil_append]
  exact Nat.le_trans (List.length_filter_le ..) hlength

/-- If nothing remains and no request has met an expectation of another kind, every expectation has
been met by the request in its place. -/
theorem Orderly.met_of_pushed (hs : s.Orderly) (hnone : s.mismatched = [])
    (hremaining : s.script.remaining = 0) {i : Nat} {e : Expectation}
    (he : s.pushed[i]? = some e) : ∃ x, s.met[i]? = some x ∧ x.Meets e := by
  obtain ⟨before, after, hmet, hmatched, hrest, _⟩ := hs.phase.met_eq
  have hafter : after.filterMap (·.expectation) = [] := by
    refine List.filterMap_eq_nil_iff.mpr ?_
    intro x hx
    have hmem : x ∈ s.met := hmet ▸ List.mem_append_right before hx
    have hmismatch := List.filter_eq_nil_iff.mp hnone x hmem
    rw [Encounter.isMismatch, hrest x hx, Bool.not_false, Bool.and_true] at hmismatch
    exact Option.not_isSome_iff_eq_none.mp hmismatch
  rw [hs.pushed, List.eq_nil_of_length_eq_zero hremaining, List.append_nil, hmet,
    List.filterMap_append, hafter, List.append_nil, getElem?_expectations hmatched] at he
  obtain ⟨x, hx, hxe⟩ := Option.bind_eq_some_iff.mp he
  refine ⟨x, ?_, ?_⟩
  · rw [hmet, List.getElem?_append_left (List.getElem?_eq_some_iff.mp hx).1, hx]
  · obtain ⟨e', hmeets⟩ := Encounter.isMatch_iff.mp (hmatched x (List.mem_of_getElem? hx))
    obtain rfl := Option.some.inj (hmeets.1.symm.trans hxe)
    exact hmeets

/-- What remains and what has been answered with make up what has been pushed, except for an expectation
that a request of another kind has met. Unless there is one, verification passes only if each
expectation has been answered with, to a request of its kind. -/
theorem verify_sound (moves : List Move) :
    let s := opening.run moves
    s.script.remaining + s.answered.length + s.mismatched.length = s.pushed.length ∧
      s.mismatched.length ≤ 1 ∧
      (s.mismatched = [] → s.script.verify = .ok () → s.answered.length = s.pushed.length ∧
        ∀ (i : Nat) (e : Expectation), s.pushed[i]? = some e →
          ∃ x, s.met[i]? = some x ∧ x.Meets e ∧ s.line.Receives x.ticket.call e.answer) := by
  intro s
  have hs : s.Orderly := run_orderly moves
  have hcount := hs.remaining_eq
  refine ⟨hcount, hs.phase.length_mismatched_le, ?_⟩
  intro hnone hverify
  have hremaining := Script.verify_eq_ok.mp hverify
  rw [hremaining, hnone, List.length_nil, Nat.zero_add, Nat.add_zero] at hcount
  refine ⟨hcount, ?_⟩
  intro i e he
  obtain ⟨x, hx, hmeets⟩ := hs.met_of_pushed hnone hremaining he
  exact ⟨x, hx, hmeets, (hs.delivered x (List.mem_of_getElem? hx) e hmeets).receives⟩

/-- A question is expected, and a suggestion is asked for. -/
def mistaken : List Move :=
  [.expect (.canCreate (.ok true)), .caller (.issue 0 (.direct (.suggestName "Color"))),
    .caller (.turn 0), .serve fun _ => false, .caller (.turn 0)]

/-- Nothing has been answered with, yet nothing remains and verification passes. -/
theorem verify_passes_mistaken :
    let s := opening.run mistaken
    s.pushed.length = 1 ∧ s.answered.length = 0 ∧ s.line.result? 0 = some (.error .dropped) ∧
      s.script.remaining ≠ s.pushed.length - s.answered.length ∧ s.script.verify = .ok () := by
  refine ⟨rfl, rfl, rfl, ?_, rfl⟩
  decide

end Rehearsal

end ScopedResources
