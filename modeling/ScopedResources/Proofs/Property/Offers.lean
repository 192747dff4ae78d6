import ScopedResources.Proofs.Property.Descriptions
import ScopedResources.Registry.Naming

/-! # What is offered for a property

The registry lists the resources for a property, the property tells which values it accepts, and the
store of property values checks what is set. All three go by the declared type, so what is offered is
what can be set. A wider type is offered all that a narrower one is. -/

namespace ScopedResources

theorem Property.accepts_of_event {p : Property} (h : p.type? = none) (v : Value) :
    p.accepts v = false := by
  rw [accepts, acceptsType, h]

namespace Registry

variable {r : Registry} {t : Target} {p q : Property}

/-- The resources whose values the property accepts, in the order of the listing. -/
theorem resourcesForProperty_of_type {declared : ValueType} (h : p.type? = some declared) :
    r.resourcesForProperty t p = .ok ((r.resourcesFor t).filter fun x => p.accepts x.value) := by
  unfold resourcesForProperty Property.requireType Property.accepts Property.acceptsType
  rw [h]
  rfl

/-- Nothing is offered for an event, neither resources nor sources nor a name. -/
theorem refused_of_event (h : p.type? = none) (r : Registry) (t : Target) :
    r.resourcesForProperty t p = .error (.untypedProperty p.name) ∧
      t.sourcesForProperty p = .error (.untypedProperty p.name) ∧
      r.suggestNameForProperty p = .error (.untypedProperty p.name) := by
  have htype : p.requireType = .error (.untypedProperty p.name) := by
    rw [Property.requireType, h]
  rw [resourcesForProperty, Target.sourcesForProperty, suggestNameForProperty, htype]
  exact ⟨rfl, rfl, rfl⟩

/-- What is offered for the narrower property is offered for the wider one, in the same order. -/
theorem resourcesForProperty_sublist (h : p.covers q) (r : Registry) (t : Target) :
    ∃ fewer more, r.resourcesForProperty t q = .ok fewer ∧ r.resourcesForProperty t p = .ok more ∧
      fewer.Sublist more := by
  obtain ⟨declared, own, hp, hq, _⟩ := Property.covers_iff.mp h
  refine ⟨_, _, resourcesForProperty_of_type hq, resourcesForProperty_of_type hp, ?_⟩
  exact List.monotone_filter_right _ fun x hx => Property.accepts_of_covers h hx

end Registry

/-- The resources that are offered for a property are those of the target's listing, in order and as
often, whose values the store lets be set, which are the values that the property accepts. A value that
is set is read back. Any other is refused, and nothing is changed. For an event everything is refused.
A property whose type takes the type of another is offered all that the other one is. -/
theorem offered_is_assignable (r : Registry) (t : Target) (p : Property) (i : Inspection) :
    (∀ declared, p.type? = some declared → r.resourcesForProperty t p =
      .ok ((r.resourcesFor t).filter fun x => (i.store.set t p x.value).isOk)) ∧
    (∀ v, (i.store.set t p v).isOk = p.accepts v) ∧
    (∀ v, p.accepts v → ∃ store, i.store.set t p v = .ok (i.store.get? t p, store) ∧
      store.get? t p = some v ∧ (i.alive t → (i.step (.set t p v)).store = store)) ∧
    (∀ v, p.accepts v = false →
      (∃ e, (PropertyStore.setM t p v).apply i.store = (.error e, i.store) ∧
        i.store.set t p v = .error e) ∧ i.step (.set t p v) = i) ∧
    (p.type? = none →
      r.resourcesForProperty t p = .error (.untypedProperty p.name) ∧
      t.sourcesForProperty p = .error (.untypedProperty p.name) ∧
      r.suggestNameForProperty p = .error (.untypedProperty p.name) ∧
      ∀ v, i.store.set t p v = .error (.untypedProperty p.name)) ∧
    ∀ q declared own, p.type? = some declared → q.type? = some own →
      declared.isAssignableFrom own →
      ∃ fewer more, r.resourcesForProperty t q = .ok fewer ∧
        r.resourcesForProperty t p = .ok more ∧ fewer.Sublist more := by
  have hset : ∀ v, (i.store.set t p v).isOk = p.accepts v := by
    intro v
    rw [i.store.set_eq]
    cases p.accepts v <;> rfl
  refine ⟨fun declared hp => ?_, hset, fun v hv => ?_, fun v hv => ?_, fun hp => ?_, ?_⟩
  · rw [funext fun x : Resource => hset x.value]
    exact r.resourcesForProperty_of_type hp
  · refine ⟨i.store.put t p v, ?_, i.store.get?_put_self t p v, fun ht => ?_⟩
    · rw [i.store.set_eq, if_pos hv]
    · rw [i.step_set, ht, hv]
      rfl
  · refine ⟨⟨PropertyStore.refusal p v, ?_, ?_⟩, ?_⟩
    · rw [PropertyStore.setM_apply, hv]
      rfl
    · rw [i.store.set_eq, hv]
      rfl
    · rw [i.step_set, hv, Bool.and_false]
      rfl
  · obtain ⟨hresources, hsources, hname⟩ := r.refused_of_event hp t
    refine ⟨hresources, hsources, hname, fun v => ?_⟩
    rw [i.store.set_eq, Property.accepts_of_event hp, PropertyStore.refusal, hp]
    rfl
  · intro q declared own hp hq hown
    exact r.resourcesForProperty_sublist (Property.covers_iff.mpr ⟨_, _, hp, hq, hown⟩) t

end ScopedResources
