import ScopedResources.Proofs.Property.Assignments

/-! # Reading through another description

Types are checked when a value is set, not when it is read, and a slot is known by the name of the
property alone. So a value fits the property that it was set through, and any other that takes all
that this one takes. Whoever describes the slot in yet another way may read what does not fit. -/

namespace ScopedResources

namespace Property

/-- Both have a type, and what the type of the second takes is taken by that of the first. -/
def covers (p q : Property) : Bool := q.type?.any p.acceptsType

theorem covers_iff {p q : Property} : p.covers q ↔
    ∃ declared own, p.type? = some declared ∧ q.type? = some own ∧ declared.isAssignableFrom own := by
  unfold covers acceptsType
  cases p.type? <;> cases q.type? <;> simp

theorem accepts_of_covers {p q : Property} {v : Value} (h : p.covers q) (hv : q.accepts v) :
    p.accepts v := by
  obtain ⟨declared, own, hp, hq, hown⟩ := covers_iff.mp h
  simp only [accepts, acceptsType, hq] at hv
  simp only [accepts, acceptsType, hp]
  exact ValueType.isAssignableFrom_trans hown hv

/-- An event takes nothing. -/
theorem not_covers_of_event {p q : Property} (hp : p.type? = none) : ¬p.covers q := by
  intro h
  obtain ⟨_, _, hdeclared, _⟩ := covers_iff.mp h
  cases hp.symm.trans hdeclared

end Property

namespace Inspection

/-- A value that is read is the one that was assigned last and fits the property that it was assigned
through. It fits the property that it is read through if that covers the other one. If it covers all
that values have been assigned through to this target under the name, whatever is read fits, and
through an event nothing is read. -/
theorem values_fit_their_assignment (ops : List Op) (t : Target) (p : Property) :
    let s := start.run ops
    (∀ v, s.store.get? t p = some v → ∃ a, s.made.last? t p.name = some a ∧ a.value = v ∧
      a.property.accepts v ∧ (p.covers a.property → p.accepts v)) ∧
    ((∀ a ∈ s.made, a.isAt t p.name → p.covers a.property) →
      (∀ v, s.store.get? t p = some v → p.accepts v) ∧
        (p.type? = none → s.store.get? t p = none)) := by
  intro s
  have h : s.Sound := Sound.start.run ops
  have hread : ∀ v, s.store.get? t p = some v →
      ∃ a ∈ s.made, a.isAt t p.name ∧ s.made.last? t p.name = some a ∧ a.value = v := by
    intro v hv
    rw [h.holds.get?] at hv
    obtain ⟨a, ha, hav⟩ := Option.map_eq_some_iff.mp hv
    have hlast := h.last?_standing ha
    obtain ⟨hmade, hat⟩ := Assignments.mem_of_last? hlast
    exact ⟨a, hmade, hat, hlast, hav⟩
  refine ⟨fun v hv => ?_, fun hcovers => ⟨fun v hv => ?_, fun hp => ?_⟩⟩
  · obtain ⟨a, ha, _, hlast, rfl⟩ := hread v hv
    have haccepts := h.accepted a ha
    exact ⟨a, hlast, rfl, haccepts, fun hc => Property.accepts_of_covers hc haccepts⟩
  · obtain ⟨a, ha, hat, _, rfl⟩ := hread v hv
    exact Property.accepts_of_covers (hcovers a ha hat) (h.accepted a ha)
  · cases hv : s.store.get? t p with
    | none => rfl
    | some v =>
      obtain ⟨a, ha, hat, _⟩ := hread v hv
      exact absurd (hcovers a ha hat) (Property.not_covers_of_event hp)

/-- A text is set through a property that takes texts. -/
def labelled : List Op :=
  [.handles (.create "save" "Button"), .set ⟨0, "Button"⟩ ⟨"Content", some .text⟩ (.text "Save")]

/-- The text is read through a property of the same name that takes flags, and through an event. -/
theorem labelled_is_read_as_flag_and_event :
    let s := start.run labelled
    let button : Target := ⟨0, "Button"⟩
    let checked : Property := ⟨"Content", some .flag⟩
    let clicked : Property := ⟨"Content", none⟩
    s.alive button ∧ s.store.get? button checked = some (.text "Save") ∧
      checked.accepts (.text "Save") = false ∧
      clicked.type? = none ∧ s.store.get? button clicked = some (.text "Save") := by
  decide

end Inspection

end ScopedResources
