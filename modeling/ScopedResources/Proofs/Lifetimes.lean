import ScopedResources.Source

/-! # Lifetimes of targets

Callers make targets, take further handles of targets that are there, and release handles. Identities
are given out once, so a target that has been made and is gone stays gone. -/

namespace ScopedResources

namespace Handles

/-- What callers do with handles. -/
inductive Step where
  | create (name typeName : String)
  /-- Another handle of a target that is there, through a handle or a mention of it. -/
  | hold (name : String) (t : Target)
  | release (name : String)

def step (alive : Liveness) (h : Handles) : Step → Handles
  | .create name typeName => h.create name typeName
  | .hold name t => if alive t then h.hold name t else h
  | .release name => h.release name

/-- The target has been made. -/
def knows (h : Handles) (t : Target) : Bool := decide (t.id < h.issued)

theorem holds_release {h : Handles} {name : String} {t : Target} (ht : (h.release name).holds t) :
    h.holds t := by
  obtain ⟨entry, hm, he⟩ := holds_iff.mp ht
  exact holds_iff.mpr ⟨entry, (List.mem_filter.mp hm).1, he⟩

theorem holds_hold {h : Handles} {name : String} {t u : Target} (ht : (h.hold name u).holds t) :
    u == t ∨ h.holds t := by
  obtain ⟨entry, hm, he⟩ := holds_iff.mp ht
  rcases List.mem_cons.mp hm with rfl | hm
  · exact .inl (Target.beq_iff.mpr he)
  · exact .inr (holds_release (holds_iff.mpr ⟨entry, hm, he⟩))

theorem issued_le_step (alive : Liveness) (h : Handles) (s : Step) :
    h.issued ≤ (h.step alive s).issued := by
  cases s with
  | create name typeName => exact Nat.le_succ _
  | hold name t =>
    simp only [step]
    split <;> exact Nat.le_refl _
  | release name => exact Nat.le_refl _

/-- A target that is held after a step was there before, or is the one that was made. -/
theorem holds_step {alive : Liveness} (halive : alive.Consistent) {h : Handles} {s : Step}
    {t : Target} (hheld : ∀ u, h.holds u → alive u) (ht : (h.step alive s).holds t) :
    alive t ∨ t.id = h.issued ∧ h.issued < (h.step alive s).issued := by
  cases s with
  | create name typeName =>
    rcases holds_hold ht with hn | ht
    · exact .inr ⟨(Target.beq_iff.mp hn).symm, Nat.lt_succ_self _⟩
    · exact .inl (hheld t ht)
  | hold name u =>
    simp only [step] at ht
    split at ht
    · next hu =>
      rcases holds_hold ht with hn | ht
      · exact .inl (halive hn ▸ hu)
      · exact .inl (hheld t ht)
    · exact .inl (hheld t ht)
  | release name => exact .inl (hheld t (holds_release ht))

theorem knows_mono {h h' : Handles} (hle : h.issued ≤ h'.issued) {t : Target} (ht : h.knows t) :
    h'.knows t :=
  decide_eq_true (Nat.lt_of_lt_of_le (of_decide_eq_true ht) hle)

/-- What is held has been made. -/
theorem knows_step {alive : Liveness} (halive : alive.Consistent) {h : Handles}
    (hheld : ∀ u, h.holds u → alive u) (hknown : ∀ u, alive u → h.knows u) {s : Step} {t : Target}
    (ht : (h.step alive s).holds t) : (h.step alive s).knows t := by
  rcases holds_step halive hheld ht with ht | ⟨hid, hlt⟩
  · exact knows_mono (h.issued_le_step alive s) (hknown t ht)
  · exact decide_eq_true (hid ▸ hlt)

end Handles

namespace Source

/-- The owner of the source, if it has one, has been made. -/
def isKnown (h : Handles) (s : Source) : Bool := s.owner?.all h.knows

variable {h h' : Handles} {alive later : Liveness} {s : Source}

theorem isKnown_congr {a b : Source} (hab : a == b) : a.isKnown h = b.isKnown h := by
  have hkey := beq_iff.mp hab
  cases a <;> cases b <;> simp_all [key, isKnown, owner?, Handles.knows]

theorem isKnown_mono (hle : h.issued ≤ h'.issued) (hs : s.isKnown h) : s.isKnown h' := by
  cases s with
  | shared scope name => rfl
  | ofTarget owner =>
    have : owner.id < h.issued := of_decide_eq_true hs
    exact decide_eq_true (Nat.lt_of_lt_of_le this hle)

theorem isKnown_of_isReachable (halive : ∀ t, alive t → h.knows t) (hs : s.isReachable alive) :
    s.isKnown h := by
  cases s with
  | shared scope name => rfl
  | ofTarget owner => exact halive owner hs

/-- A source that is known does not come back once its owner is gone. -/
theorem isReachable_of_later (hlater : ∀ t, h.knows t → later t → alive t) (hknown : s.isKnown h)
    (hs : s.isReachable later) : s.isReachable alive := by
  cases s with
  | shared scope name => rfl
  | ofTarget owner => exact hlater owner hknown hs

end Source

end ScopedResources
