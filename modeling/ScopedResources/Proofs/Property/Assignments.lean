import Mathlib.Data.List.Basic
import ScopedResources.Proofs.FirstOccurrences
import ScopedResources.Proofs.Lifetimes
import ScopedResources.Property.Store

/-! # Assignments to properties

An inspection is a run of operations on handles and on one store of property values. Beside the store
it keeps the assignments that have succeeded, and those of them that still stand: a prune strikes out
all that was assigned to targets that are gone at that moment. The store holds the latest assignment
that stands in each slot, and nothing else. As a target that is gone does not come back, a target that
is there reads what was assigned to it last. -/

namespace ScopedResources

/-! ## The latest of each slot -/

/-- A value that has been set, and the property that it was set through. -/
structure Assignment where
  target : Target
  property : Property
  value : Value

namespace Assignment

/-- What the store tells apart: an identity and a name. -/
def slot (a : Assignment) : Nat × String := (a.target.id, a.property.name)

/-- What the store keeps of it. -/
def stored (a : Assignment) : PropertyValue := ⟨a.target, a.property.name, a.value⟩

def isAt (a : Assignment) (t : Target) (name : String) : Bool := a.stored.isAt t name

theorem isAt_iff {a : Assignment} {t : Target} {name : String} :
    a.isAt t name ↔ a.slot = (t.id, name) := by
  simp [isAt, stored, PropertyValue.isAt, slot, Target.beq_iff]

/-- Only assignments to the target can be in a slot of it. -/
theorem isAt_eq (a : Assignment) (t : Target) (name : String) :
    a.isAt t name = (a.target == t && a.property.name == name) := rfl

end Assignment

/-- Assignments, the latest first. -/
abbrev Assignments := List Assignment

namespace Assignments

/-- The assignment in a slot that was made last. -/
def last? (as : Assignments) (t : Target) (name : String) : Option Assignment :=
  as.find? fun a => a.isAt t name

def ofTarget (as : Assignments) (t : Target) : Assignments := as.filter fun a => a.target == t

/-- The last assignment in each slot. -/
def latest : Assignments → Assignments
  | [] => []
  | a :: as => a :: (latest as).filter fun b => !b.isAt a.target a.property.name

theorem mem_of_last? {as : Assignments} {t : Target} {name : String} {a : Assignment}
    (h : as.last? t name = some a) : a ∈ as ∧ a.isAt t name := by
  rw [last?] at h
  exact ⟨List.mem_of_find?_eq_some h, by simpa using List.find?_some h⟩

theorem last?_ofTarget (as : Assignments) (t : Target) (name : String) :
    (as.ofTarget t).last? t name = as.last? t name := by
  rw [last?, ofTarget, List.find?_filter]
  refine congrArg (List.find? · as) (funext fun a => ?_)
  rw [a.isAt_eq, Bool.eq_iff_iff]
  simp only [decide_eq_true_eq, Bool.and_eq_true, and_self_left]

theorem last?_latest (as : Assignments) (t : Target) (name : String) :
    as.latest.last? t name = as.last? t name := by
  induction as with
  | nil => rfl
  | cons a as ih =>
    rw [latest, last?, last?, List.find?_cons, List.find?_cons]
    cases ha : a.isAt t name with
    | true => rfl
    | false =>
      rw [List.find?_filter, ← last?, ← ih]
      refine congrArg (List.find? · (latest as)) (funext fun b => ?_)
      rw [Bool.eq_iff_iff, decide_eq_true_eq, and_iff_right_iff_imp]
      -- What is in the slot is not in that of the first.
      intro hb
      rw [Bool.not_eq_true', Bool.eq_false_iff, ne_eq, Assignment.isAt_iff,
        Assignment.isAt_iff.mp hb]
      exact fun h => Bool.eq_false_iff.mp ha (Assignment.isAt_iff.mpr h.symm)

section
variable {p : Target → Bool} (hp : ∀ {t u : Target}, t == u → p t = p u) (as : Assignments)
include hp

/-- The assignments to one target go together. -/
theorem ofTarget_filter (t : Target) :
    ofTarget (as.filter fun a => p a.target) t = if p t then as.ofTarget t else [] := by
  rw [ofTarget, List.filter_filter]
  split
  · next ht =>
    refine List.filter_congr fun a _ => ?_
    by_cases hat : a.target == t
    · simp [hat, hp hat, ht]
    · simp [hat]
  · next ht =>
    refine List.filter_eq_nil_iff.mpr fun a _ hat => ?_
    rw [Bool.and_eq_true] at hat
    exact ht (hp hat.1 ▸ hat.2)

theorem last?_filter (t : Target) (name : String) :
    last? (as.filter fun a => p a.target) t name = if p t then as.last? t name else none := by
  rw [← last?_ofTarget, ofTarget_filter hp]
  split
  · exact as.last?_ofTarget t name
  · rfl

/-- Whether targets are left out before or after makes no difference. -/
theorem latest_filter :
    latest (as.filter fun a => p a.target) = as.latest.filter fun a => p a.target := by
  induction as with
  | nil => rfl
  | cons a as ih =>
    rw [latest, List.filter_cons, List.filter_cons, List.filter_filter]
    cases ha : p a.target with
    | true =>
      rw [if_pos rfl, if_pos rfl, latest, ih, List.filter_filter]
      simp only [Bool.and_comm]
    | false =>
      rw [if_neg Bool.false_ne_true, if_neg Bool.false_ne_true, ih]
      -- What is left out with the first has its target.
      refine List.filter_congr fun b _ => ?_
      cases hb : b.isAt a.target a.property.name with
      | false => simp
      | true =>
        rw [b.isAt_eq, Bool.and_eq_true] at hb
        rw [hp hb.1, ha]
        rfl

end

theorem map_slot_latest (as : Assignments) :
    as.latest.map (·.slot) = (as.map (·.slot)).eraseDups := by
  induction as with
  | nil => rfl
  | cons a as ih =>
    have hslot : ∀ c d : Nat × String, c == d → (!c == a.slot) = !d == a.slot := fun c d h => by
      rw [eq_of_beq h]
    rw [latest, List.map_cons, List.map_cons, List.eraseDups_cons, eraseDups_filter hslot, ← ih,
      List.filter_map]
    refine congrArg (fun bs => a.slot :: List.map Assignment.slot bs) (List.filter_congr fun b _ => ?_)
    rw [Bool.eq_iff_iff, Bool.not_eq_true', Bool.eq_false_iff, ne_eq, Assignment.isAt_iff]
    simp [Assignment.slot]

/-- As many slots as are in use. -/
theorem length_latest (as : Assignments) :
    as.latest.length = (as.map (·.slot)).eraseDups.length := by
  rw [← map_slot_latest, List.length_map]

end Assignments

/-! ## The store -/

namespace PropertyStore

/-- The store holds the last assignment in each slot, and nothing else. -/
def Holds (s : PropertyStore) (as : Assignments) : Prop := s.values = as.latest.map (·.stored)

variable {s : PropertyStore} {as : Assignments}

theorem Holds.get? (h : s.Holds as) (t : Target) (p : Property) :
    s.get? t p = (as.last? t p.name).map (·.value) := by
  rw [PropertyStore.get?, h, List.find?_map, Option.map_map, ← as.last?_latest]
  rfl

theorem Holds.put (h : s.Holds as) (t : Target) (p : Property) (v : Value) :
    (s.put t p v).Holds (⟨t, p, v⟩ :: as) := by
  rw [Holds, PropertyStore.put, h, List.filter_map]
  rfl

theorem Holds.size (h : s.Holds as) : s.size = (as.map (·.slot)).eraseDups.length := by
  rw [PropertyStore.size, h, List.length_map, as.length_latest]

variable {alive : Liveness}

theorem Holds.prune (halive : alive.Consistent) (h : s.Holds as) :
    (s.prune alive).2.Holds (as.filter fun a => alive a.target) := by
  rw [Holds, as.latest_filter halive, PropertyStore.prune, h, List.filter_map]
  rfl

/-- A prune counts the slots of targets that are gone. -/
theorem Holds.count_prune (halive : alive.Consistent) (h : s.Holds as) : (s.prune alive).1 =
    ((as.filter fun a => !alive a.target).map (·.slot)).eraseDups.length := by
  have hgone : ∀ {t u : Target}, t == u → (!alive t) = !alive u := fun htu => by rw [halive htu]
  rw [← Assignments.length_latest, Assignments.latest_filter hgone, PropertyStore.prune, h,
    List.filter_map]
  simp only [List.length_map]
  exact Nat.sub_eq_of_eq_add' (List.length_eq_length_filter_add fun a : Assignment =>
    alive a.target)

/-! ## Setting a value -/

/-- Why the store refuses a value for the property. -/
def refusal (p : Property) (v : Value) : RegistryError :=
  match p.type? with
  | some declared => .unassignable v.type p.name declared
  | none => .untypedProperty p.name

/-- A value is put in only once it is accepted. -/
theorem setM_apply (t : Target) (p : Property) (v : Value) (s : PropertyStore) :
    (setM t p v).apply s =
      if p.accepts v then (.ok (s.get? t p), s.put t p v) else (.error (refusal p v), s) := by
  unfold setM Property.requireType Property.accepts Property.acceptsType refusal
  cases p.type? with
  | none => rfl
  | some declared =>
    cases hfits : declared.isAssignableFrom v.type <;> simp [hfits, Except.map]

theorem set_eq (s : PropertyStore) (t : Target) (p : Property) (v : Value) :
    s.set t p v = if p.accepts v then .ok (s.get? t p, s.put t p v) else .error (refusal p v) := by
  rw [set, Edit.result, setM_apply]
  cases p.accepts v <;> rfl

end PropertyStore

/-! ## Inspections -/

structure Inspection where
  handles : Handles
  store : PropertyStore
  /-- The assignments that have succeeded. -/
  made : Assignments
  /-- Those of them that no prune has struck out. -/
  standing : Assignments

namespace Inspection

/-- Reading is no operation here, because it changes nothing. -/
inductive Op where
  | handles (step : Handles.Step)
  | set (target : Target) (property : Property) (value : Value)
  | prune

def alive (s : Inspection) : Liveness := s.handles.holds

theorem alive_consistent (s : Inspection) : s.alive.Consistent := s.handles.holds_consistent

def step (s : Inspection) : Op → Inspection
  | .handles step => { s with handles := s.handles.step s.alive step }
  | .set t p v =>
    -- Whoever sets a value holds the target.
    if s.alive t then
      match (PropertyStore.setM t p v).apply s.store with
      | (.ok _, store) =>
        { s with store, made := ⟨t, p, v⟩ :: s.made, standing := ⟨t, p, v⟩ :: s.standing }
      | (.error _, store) => { s with store }
    else s
  | .prune =>
    { s with
      store := (s.store.prune s.alive).2
      standing := s.standing.filter fun a => s.alive a.target }

/-- No handles, and a store that holds nothing. -/
def start : Inspection := ⟨.empty, .empty, [], []⟩

def run (s : Inspection) (ops : List Op) : Inspection := ops.foldl step s

/-- Enters an assignment. -/
def enter (s : Inspection) (t : Target) (p : Property) (v : Value) : Inspection :=
  ⟨s.handles, s.store.put t p v, ⟨t, p, v⟩ :: s.made, ⟨t, p, v⟩ :: s.standing⟩

/-- A value that is accepted is entered, and any other is refused. -/
theorem step_set (s : Inspection) (t : Target) (p : Property) (v : Value) :
    s.step (.set t p v) = if s.alive t && p.accepts v then s.enter t p v else s := by
  rw [step, PropertyStore.setM_apply]
  cases s.alive t <;> cases p.accepts v <;> rfl

/-- What is kept of the run so far. -/
structure Sound (s : Inspection) : Prop where
  holds : s.store.Holds s.standing
  /-- What was assigned to a target stands, or the target is gone and nothing of it stands. -/
  whole : ∀ t, s.standing.ofTarget t = s.made.ofTarget t ∨
    s.alive t = false ∧ s.standing.ofTarget t = []
  accepted : ∀ a ∈ s.made, a.property.accepts a.value
  known : ∀ a ∈ s.made, s.handles.knows a.target
  held : ∀ t, s.alive t → s.handles.knows t

namespace Sound

variable {s : Inspection}

theorem start : start.Sound where
  holds := rfl
  whole _ := .inl rfl
  accepted _ ha := by cases ha
  known _ ha := by cases ha
  held _ ht := by cases ht

theorem handles (h : s.Sound) (m : Handles.Step) : (s.step (.handles m)).Sound := by
  have hle := s.handles.issued_le_step s.alive m
  refine ⟨h.holds, fun t => ?_, h.accepted, fun a ha => Handles.knows_mono hle (h.known a ha),
    fun t ht => Handles.knows_step s.alive_consistent (fun _ => id) h.held ht⟩
  rcases h.whole t with hall | ⟨hgone, hnone⟩
  · exact .inl hall
  cases ht : (s.step (.handles m)).alive t with
  | false => exact .inr ⟨rfl, hnone⟩
  | true =>
    -- It has been made just now, so nothing was assigned to it before.
    rcases Handles.holds_step s.alive_consistent (fun _ => id) ht with halive | ⟨hid, _⟩
    · exact absurd (hgone.symm.trans halive) Bool.false_ne_true
    · refine .inl (hnone.trans (List.filter_eq_nil_iff.mpr fun a ha hat => ?_).symm)
      have hmade : a.target.id < s.handles.issued := of_decide_eq_true (h.known a ha)
      have := Target.beq_iff.mp hat
      omega

theorem enter (h : s.Sound) {t : Target} {p : Property} {v : Value} (ht : s.alive t)
    (hv : p.accepts v) : (s.enter t p v).Sound := by
  refine ⟨h.holds.put t p v, fun u => ?_, ?_, ?_, h.held⟩
  · rw [Inspection.enter, Assignments.ofTarget, Assignments.ofTarget, List.filter_cons,
      List.filter_cons]
    by_cases htu : t == u
    · have hu : s.alive u := s.alive_consistent htu ▸ ht
      have hall := (h.whole u).resolve_right fun hgone => by simp [hu] at hgone
      rw [if_pos htu, if_pos htu]
      exact .inl (congrArg _ hall)
    · rw [if_neg htu, if_neg htu]
      exact h.whole u
  · intro a ha
    rcases List.mem_cons.mp ha with rfl | ha
    · exact hv
    · exact h.accepted a ha
  · intro a ha
    rcases List.mem_cons.mp ha with rfl | ha
    · exact h.held t ht
    · exact h.known a ha

theorem prune (h : s.Sound) : (s.step .prune).Sound := by
  refine ⟨h.holds.prune s.alive_consistent, fun t => ?_, h.accepted, h.known, h.held⟩
  rw [step, Assignments.ofTarget_filter s.alive_consistent]
  cases ht : s.alive t with
  | true => exact .inl ((h.whole t).resolve_right fun hgone => by simp [ht] at hgone)
  | false => exact .inr ⟨ht, rfl⟩

theorem step (h : s.Sound) (op : Op) : (s.step op).Sound := by
  cases op with
  | handles m => exact h.handles m
  | prune => exact h.prune
  | set t p v =>
    rw [step_set]
    split
    · next hset =>
      rw [Bool.and_eq_true] at hset
      exact h.enter hset.1 hset.2
    · exact h

theorem run (h : s.Sound) (ops : List Op) : (s.run ops).Sound := by
  induction ops generalizing s with
  | nil => exact h
  | cons op ops ih => exact ih (h.step op)

/-- What stands in a slot is what was assigned to it last. -/
theorem last?_standing (h : s.Sound) {t : Target} {name : String} {a : Assignment}
    (ha : s.standing.last? t name = some a) : s.made.last? t name = some a := by
  rw [← Assignments.last?_ofTarget] at ha ⊢
  rcases h.whole t with hall | ⟨_, hnone⟩
  · rwa [← hall]
  · rw [hnone] at ha
    cases ha

theorem last?_of_alive (h : s.Sound) {t : Target} (ht : s.alive t) (name : String) :
    s.standing.last? t name = s.made.last? t name := by
  have hall := (h.whole t).resolve_right fun hgone => by simp [ht] at hgone
  rw [← Assignments.last?_ofTarget, hall, Assignments.last?_ofTarget]

end Sound

/-! ## Last write wins -/

/-- A store of property values behaves as a map from slots in which the last write wins. -/
structure LastWriteWins (s : Inspection) : Prop where
  read : ∀ t p, s.alive t → s.store.get? t p = (s.made.last? t p.name).map (·.value)
  /-- Whoever sets a value is told what was read just before. -/
  set : ∀ t p v, s.alive t → p.accepts v →
    ∃ store, s.store.set t p v = .ok (s.store.get? t p, store) ∧
      s.step (.set t p v) = ⟨s.handles, store, ⟨t, p, v⟩ :: s.made, ⟨t, p, v⟩ :: s.standing⟩
  /-- A refused value leaves the store as it was. -/
  refused : ∀ t p v, p.accepts v = false →
    (PropertyStore.setM t p v).apply s.store = (.error (PropertyStore.refusal p v), s.store) ∧
      s.store.set t p v = .error (PropertyStore.refusal p v) ∧ s.step (.set t p v) = s
  size : s.store.size = (s.standing.map (·.slot)).eraseDups.length
  /-- A prune counts the slots that are in use and whose target is gone. -/
  count_prune : (s.store.prune s.alive).1 =
    ((s.standing.filter fun a => !s.alive a.target).map (·.slot)).eraseDups.length
  size_prune : (s.step .prune).store.size + (s.store.prune s.alive).1 = s.store.size
  /-- It takes away what can be read of them, and nothing of any other target. -/
  read_prune : ∀ t p,
    (s.step .prune).store.get? t p = if s.alive t then s.store.get? t p else none

theorem lastWriteWins_run (ops : List Op) : (start.run ops).LastWriteWins := by
  have h : (start.run ops).Sound := Sound.start.run ops
  generalize start.run ops = s at h
  refine
    { read := fun t p ht => ?_
      set := fun t p v ht hv => ⟨s.store.put t p v, ?_, ?_⟩
      refused := fun t p v hv => ⟨?_, ?_, ?_⟩
      size := h.holds.size
      count_prune := h.holds.count_prune s.alive_consistent
      size_prune := ?_
      read_prune := fun t p => ?_ }
  · rw [h.holds.get?, h.last?_of_alive ht]
  · rw [s.store.set_eq, if_pos hv]
  · rw [step_set, ht, hv]
    rfl
  · rw [PropertyStore.setM_apply, hv]
    rfl
  · rw [s.store.set_eq, hv]
    rfl
  · rw [step_set, hv, Bool.and_false]
    rfl
  · exact Nat.add_sub_of_le (List.length_filter_le ..)
  · rw [h.prune.holds.get?, h.holds.get?, step, Assignments.last?_filter s.alive_consistent]
    split <;> rfl

end Inspection

end ScopedResources
