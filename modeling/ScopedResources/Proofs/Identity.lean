import Mathlib.Data.List.Induction
import ScopedResources.Proofs.FirstOccurrences
import ScopedResources.Source

/-! # Identities and places

Whether two handles or mentions are of one target shows in where it is: they lead to the same place.
As long as a target is held, or a source mentions it, its place is given to no other target; later
it may be. So places tell the owners of the sources that there are apart as well as identities do,
and comparing and hashing sources by the places of their owners comes to comparing and hashing their
keys, whether or not the owners are still there. -/

namespace ScopedResources

namespace Handles

variable {h : Handles} {name : String} {t : Target} {entry : String × Target}

theorem mem_held_release (hm : entry ∈ (h.release name).held) : entry ∈ h.held :=
  (List.mem_filter.mp hm).1

theorem mem_held_hold (hm : entry ∈ (h.hold name t).held) : entry.2 = t ∨ entry ∈ h.held := by
  rcases List.mem_cons.mp hm with rfl | hm
  · exact .inl rfl
  · exact .inr (mem_held_release hm)

end Handles

/-- What a hasher is fed. -/
inductive Datum where
  | kind (k : SourceKind)
  | place (n : Nat)
  | text (s : String)
deriving DecidableEq, Repr

/-- The handles that are held, the sources that there are, and where the targets are. -/
structure Placement where
  handles : Handles
  sources : List Source
  /-- Where the target of this identity is, or has been. -/
  place : Nat → Nat

namespace Placement

/-! ## Comparing by place -/

/-- Compares the kinds and then the owners, by their places, or the names. -/
def same (p : Placement) (a b : Source) : Bool :=
  a.kind == b.kind && match a.owner?, b.owner? with
    | some t, some u => p.place t.id == p.place u.id
    | none, none => a.name == b.name
    | _, _ => false

/-- The kind and then the place of the owner, or the name. -/
def hashed (p : Placement) (s : Source) : List Datum :=
  [.kind s.kind, match s.owner? with
    | some owner => .place (p.place owner.id)
    | none => .text s.name]

def shows (p : Placement) (t : Target) (s : Source) : Bool :=
  match s.owner? with
  | some owner => p.place owner.id == p.place t.id
  | none => true

/-- Sources are the same exactly if a hasher is fed the same. -/
theorem same_iff_hashed (p : Placement) (a b : Source) : p.same a b ↔ p.hashed a = p.hashed b := by
  cases a <;> cases b <;> simp [same, hashed, Source.owner?, Source.name]

theorem same_equivalence (p : Placement) : Equivalence fun a b => p.same a b = true where
  refl a := (p.same_iff_hashed a a).mpr rfl
  symm h := (p.same_iff_hashed _ _).mpr ((p.same_iff_hashed _ _).mp h).symm
  trans h h' := (p.same_iff_hashed _ _).mpr
    (((p.same_iff_hashed _ _).mp h).trans ((p.same_iff_hashed _ _).mp h'))

/-! ## What happens to targets and sources -/

inductive Op where
  | make (name typeName : String) (place : Nat)
  /-- Another handle of the target that is held under a name. -/
  | clone (held name : String)
  /-- A handle of the owner of a source, if it is still there. -/
  | upgrade (source : Nat) (name : String)
  | release (name : String)
  | share (scope : Scope) (name : String)
  /-- The source of the target that is held under a name. -/
  | own (held : String)
  | copy (source : Nat)
  | drop (source : Nat)

/-- The targets that are held or that a source mentions. -/
def mentioned (p : Placement) : List Target :=
  p.handles.held.map (·.2) ++ p.sources.filterMap Source.owner?

def isTaken (p : Placement) (place : Nat) : Bool := p.mentioned.any fun t => p.place t.id == place

def step (p : Placement) : Op → Placement
  | .make name typeName place =>
    -- The place is given out again once nobody holds or mentions the target that was there.
    if p.isTaken place then p
    else ⟨p.handles.create name typeName, p.sources,
      fun id => if id = p.handles.issued then place else p.place id⟩
  | .clone held name =>
    match p.handles.find? held with
    | some t => { p with handles := p.handles.hold name t }
    | none => p
  | .upgrade source name =>
    match p.sources[source]?.bind Source.owner? with
    | some t => if p.handles.holds t then { p with handles := p.handles.hold name t } else p
    | none => p
  | .release name => { p with handles := p.handles.release name }
  | .share scope name => { p with sources := p.sources ++ [.shared scope name] }
  | .own held =>
    match p.handles.find? held with
    | some t => { p with sources := p.sources ++ [.ofTarget t] }
    | none => p
  | .copy source => { p with sources := p.sources ++ p.sources[source]?.toList }
  | .drop source => { p with sources := p.sources.eraseIdx source }

def start : Placement := ⟨.empty, [], fun _ => 0⟩

def run (p : Placement) (ops : List Op) : Placement := ops.foldl step p

variable {p : Placement} {a b : Source} {t u : Target}

/-! ## Who is mentioned -/

theorem mem_mentioned : t ∈ p.mentioned ↔ (∃ name, (name, t) ∈ p.handles.held) ∨
    ∃ s ∈ p.sources, s.owner? = some t := by
  simp [mentioned]

theorem mem_mentioned_of_find? {name : String} (h : p.handles.find? name = some t) :
    t ∈ p.mentioned := by
  obtain ⟨before, after, hheld, _⟩ := List.lookup_eq_some_iff.mp h
  exact mem_mentioned.mpr (.inl ⟨name, hheld ▸ List.mem_append_right _ List.mem_cons_self⟩)

theorem mem_mentioned_of_source (ha : a ∈ p.sources) (h : a.owner? = some t) : t ∈ p.mentioned :=
  mem_mentioned.mpr (.inr ⟨a, ha, h⟩)

/-- Holding a target that is mentioned brings in no other. -/
theorem mem_mentioned_hold {name : String} (hu : u ∈ p.mentioned)
    (ht : t ∈ mentioned { p with handles := p.handles.hold name u }) : t ∈ p.mentioned := by
  rcases mem_mentioned.mp ht with ⟨other, hm⟩ | hm
  · rcases Handles.mem_held_hold hm with rfl | hm
    · exact hu
    · exact mem_mentioned.mpr (.inl ⟨other, hm⟩)
  · exact mem_mentioned.mpr (.inr hm)

/-- Making a target brings in that target. -/
theorem mem_mentioned_create {name typeName : String} {place : Nat → Nat}
    (ht : t ∈ mentioned ⟨p.handles.create name typeName, p.sources, place⟩) :
    t = p.handles.next typeName ∨ t ∈ p.mentioned := by
  rcases mem_mentioned.mp ht with ⟨other, hm⟩ | hm
  · exact (Handles.mem_held_hold hm).imp_right fun hm => mem_mentioned.mpr (.inl ⟨other, hm⟩)
  · exact .inr (mem_mentioned.mpr (.inr hm))

/-- A source brings in no target if its owner is mentioned. -/
theorem mem_mentioned_sources {sources : List Source}
    (h : ∀ s ∈ sources, s ∈ p.sources ∨ ∀ u, s.owner? = some u → u ∈ p.mentioned)
    (ht : t ∈ mentioned { p with sources }) : t ∈ p.mentioned := by
  rcases mem_mentioned.mp ht with hm | ⟨s, hs, hm⟩
  · exact mem_mentioned.mpr (.inl hm)
  · rcases h s hs with hs | hs
    · exact mem_mentioned_of_source hs hm
    · exact hs t hm

/-- Only the making of a target brings a target in, at a place that is not taken. -/
theorem step_cases (p : Placement) (op : Op) :
    (p.step op).handles.issued = p.handles.issued ∧ (p.step op).place = p.place ∧
      (∀ t ∈ (p.step op).mentioned, t ∈ p.mentioned) ∨
    ∃ name typeName place, p.isTaken place = false ∧ p.step op =
      ⟨p.handles.create name typeName, p.sources,
        fun id => if id = p.handles.issued then place else p.place id⟩ := by
  cases op with
  | make name typeName place =>
    cases htaken : p.isTaken place with
    | true => simp [step, htaken]
    | false => exact .inr ⟨name, typeName, place, htaken, by simp [step, htaken]⟩
  | clone held name =>
    simp only [step]
    split
    · next u hu => exact .inl ⟨rfl, rfl, fun t => mem_mentioned_hold (mem_mentioned_of_find? hu)⟩
    · exact .inl ⟨rfl, rfl, fun t => id⟩
  | upgrade source name =>
    simp only [step]
    split
    · next u hu =>
      obtain ⟨s, hs, howner⟩ := Option.bind_eq_some_iff.mp hu
      have hu : u ∈ p.mentioned := mem_mentioned_of_source (List.mem_of_getElem? hs) howner
      split
      · exact .inl ⟨rfl, rfl, fun t => mem_mentioned_hold hu⟩
      · exact .inl ⟨rfl, rfl, fun t => id⟩
    · exact .inl ⟨rfl, rfl, fun t => id⟩
  | release name =>
    refine .inl ⟨rfl, rfl, fun t ht => ?_⟩
    rcases mem_mentioned.mp ht with ⟨other, hm⟩ | hm
    · exact mem_mentioned.mpr (.inl ⟨other, Handles.mem_held_release hm⟩)
    · exact mem_mentioned.mpr (.inr hm)
  | share scope name =>
    refine .inl ⟨rfl, rfl, fun t => mem_mentioned_sources fun s hs => ?_⟩
    rcases List.mem_append.mp hs with hs | hs
    · exact .inl hs
    · rw [List.mem_singleton.mp hs]
      exact .inr nofun
  | own held =>
    simp only [step]
    split
    · next u hu =>
      refine .inl ⟨rfl, rfl, fun t => mem_mentioned_sources fun s hs => ?_⟩
      rcases List.mem_append.mp hs with hs | hs
      · exact .inl hs
      · rw [List.mem_singleton.mp hs]
        refine .inr fun v hv => ?_
        cases hv
        exact mem_mentioned_of_find? hu
    · exact .inl ⟨rfl, rfl, fun t => id⟩
  | copy source =>
    refine .inl ⟨rfl, rfl, fun t => mem_mentioned_sources fun s hs => .inl ?_⟩
    rcases List.mem_append.mp hs with hs | hs
    · exact hs
    · exact List.mem_of_getElem? (Option.mem_toList.mp hs)
  | drop source =>
    exact .inl ⟨rfl, rfl, fun t => mem_mentioned_sources fun s hs =>
      .inl (List.mem_of_mem_eraseIdx hs)⟩

/-! ## Places tell apart -/

/-- No two targets that are held or mentioned are in one place. -/
structure Sound (p : Placement) : Prop where
  known : ∀ t ∈ p.mentioned, t.id < p.handles.issued
  apart : ∀ t ∈ p.mentioned, ∀ u ∈ p.mentioned, p.place t.id = p.place u.id → t = u

theorem start_sound : start.Sound := ⟨nofun, nofun⟩

theorem Sound.step (h : p.Sound) (op : Op) : (p.step op).Sound := by
  rcases p.step_cases op with ⟨hissued, hplace, hmentioned⟩ | ⟨name, typeName, place, hfree, hstep⟩
  · refine ⟨fun t ht => ?_, fun t ht u hu => ?_⟩
    · rw [hissued]
      exact h.known t (hmentioned t ht)
    · rw [hplace]
      exact h.apart t (hmentioned t ht) u (hmentioned u hu)
  · -- The new target has a new identity and a place of its own.
    let new := p.handles.next typeName
    have hcases : ∀ t ∈ (p.step op).mentioned, t = new ∨ t ∈ p.mentioned := by
      intro t ht
      rw [hstep] at ht
      exact mem_mentioned_create ht
    have hnew : (p.step op).place new.id = place := by simp [hstep, new, Handles.next]
    have hold : ∀ t ∈ p.mentioned, (p.step op).place t.id = p.place t.id := by
      intro t ht
      simp [hstep, Nat.ne_of_lt (h.known t ht)]
    have hother : ∀ t ∈ p.mentioned, p.place t.id ≠ place := by
      intro t ht heq
      rw [isTaken, List.any_eq_false] at hfree
      exact hfree t ht (beq_iff_eq.mpr heq)
    refine ⟨fun t ht => ?_, fun t ht u hu heq => ?_⟩
    · have hissued : (p.step op).handles.issued = p.handles.issued + 1 := by rw [hstep]; rfl
      rw [hissued]
      rcases hcases t ht with rfl | ht
      · exact Nat.lt_succ_self _
      · exact Nat.lt_succ_of_lt (h.known t ht)
    · rcases hcases t ht with rfl | ht <;> rcases hcases u hu with rfl | hu
      · rfl
      · rw [hnew, hold u hu] at heq
        exact absurd heq.symm (hother u hu)
      · rw [hnew, hold t ht] at heq
        exact absurd heq (hother t ht)
      · rw [hold t ht, hold u hu] at heq
        exact h.apart t ht u hu heq

theorem Sound.run (h : p.Sound) (ops : List Op) : (p.run ops).Sound := by
  induction ops generalizing p with
  | nil => exact h
  | cons op ops ih => exact ih (h.step op)

namespace Sound

variable (h : p.Sound) (ha : a ∈ p.sources) (hb : b ∈ p.sources)
include h

theorem place_eq_iff (ht : t ∈ p.mentioned) (hu : u ∈ p.mentioned) :
    p.place t.id = p.place u.id ↔ t.id = u.id :=
  ⟨fun heq => congrArg Target.id (h.apart t ht u hu heq), fun heq => congrArg p.place heq⟩

include ha hb

theorem same_eq : p.same a b = (a == b) := by
  rw [Bool.eq_iff_iff, Source.beq_iff]
  cases a with
  | shared scope name =>
    cases b with
    | shared other name' => simp [same, Source.kind, Source.owner?, Source.name, Source.key]
    | ofTarget u => simp [same, Source.owner?, Source.key]
  | ofTarget t =>
    cases b with
    | shared other name' => simp [same, Source.owner?, Source.key]
    | ofTarget u =>
      have hplace := h.place_eq_iff (mem_mentioned_of_source ha rfl)
        (mem_mentioned_of_source hb rfl)
      simp [same, Source.kind, Source.owner?, Source.key, hplace]

/-- Each identity has been given out with one type name. -/
theorem name_eq (hab : a == b) : a.name = b.name := by
  rw [Source.beq_iff] at hab
  cases a with
  | shared scope name =>
    cases b with
    | shared other name' => simp_all [Source.key, Source.name]
    | ofTarget u => cases hab
  | ofTarget t =>
    cases b with
    | shared other name' => cases hab
    | ofTarget u =>
      have hid : t.id = u.id := by simpa [Source.key] using hab
      have htu : t = u := h.apart t (mem_mentioned_of_source ha rfl) u
        (mem_mentioned_of_source hb rfl) (congrArg p.place hid)
      rw [htu]

end Sound

/-- A target that is held is shown the sources that are visible to it. -/
theorem Sound.shows_eq (h : p.Sound) (ha : a ∈ p.sources) (ht : t ∈ p.mentioned) :
    p.shows t a = a.isVisibleTo t := by
  cases a with
  | shared scope name => rfl
  | ofTarget owner =>
    have hplace := h.place_eq_iff (mem_mentioned_of_source ha rfl) ht
    rw [Bool.eq_iff_iff]
    simp [shows, Source.isVisibleTo, Source.owner?, Target.beq_iff, hplace]

theorem shows_congr (hab : p.same a b) (t : Target) : p.shows t a = p.shows t b := by
  have hhashed := (p.same_iff_hashed a b).mp hab
  revert hhashed
  cases a <;> cases b <;> simp +contextual [hashed, shows, Source.owner?]

/-! ## Places stay -/

theorem place_step (op : Op) {id : Nat} (hid : id < p.handles.issued) :
    (p.step op).place id = p.place id ∧ id < (p.step op).handles.issued := by
  rcases p.step_cases op with ⟨hissued, hplace, _⟩ | ⟨name, typeName, place, _, hstep⟩
  · exact ⟨by rw [hplace], by rwa [hissued]⟩
  · rw [hstep]
    exact ⟨if_neg (Nat.ne_of_lt hid), Nat.lt_succ_of_lt hid⟩

theorem place_run (ops : List Op) {id : Nat} (hid : id < p.handles.issued) :
    (p.run ops).place id = p.place id := by
  induction ops generalizing p with
  | nil => rfl
  | cons op ops ih =>
    obtain ⟨hplace, hlater⟩ := p.place_step op hid
    exact (ih hlater).trans hplace

theorem Sound.hashed_run (h : p.Sound) (ha : a ∈ p.sources) (ops : List Op) :
    (p.run ops).hashed a = p.hashed a := by
  cases a with
  | shared scope name => rfl
  | ofTarget owner =>
    have hplace := place_run ops (h.known owner (mem_mentioned_of_source ha rfl))
    simp [hashed, Source.owner?, hplace]

end Placement

/-! ## Distinct sources -/

/-- Sources of scopes are known by kind and name, those of targets by the identity of the owner. -/
theorem Source.beq_iff_identity {a b : Source} : a == b ↔ a.kind = b.kind ∧
    if a.kind = .object then a.owner?.map Target.id = b.owner?.map Target.id
    else a.name = b.name := by
  rw [beq_iff]
  cases a <;> cases b <;> simp [key, kind, owner?, name, eq_comm (a := SourceKind.object)]

/-- A hash set of a list has a member for each first occurrence. -/
theorem size_ofList {α : Type} [BEq α] [Hashable α] [EquivBEq α] [LawfulHashable α] (l : List α) :
    (Std.HashSet.ofList l).size = l.eraseDups.length := by
  induction l using List.reverseRecOn with
  | nil => exact Std.HashSet.size_empty
  | append_singleton l a ih =>
    have hinsert : Std.HashSet.ofList (l ++ [a]) = (Std.HashSet.ofList l).insert a := by
      simp only [Std.HashSet.ofList_eq_insertMany_empty, Std.HashSet.insertMany_append,
        Std.HashSet.insertMany_list_singleton]
    have hmem : a ∈ Std.HashSet.ofList l ↔ l.contains a := by
      rw [Std.HashSet.mem_iff_contains, Std.HashSet.contains_ofList]
    rw [hinsert, Std.HashSet.size_insert, ih, eraseDups_concat]
    simp only [hmem]
    split
    · rfl
    · rw [List.length_append, List.length_singleton]

/-- There are as many as a comparison by any other means finds that tells them apart as well. -/
theorem Source.countDistinct_eq {β : Type} [BEq β] {f : Source → β} {l : List Source}
    (hf : ∀ a ∈ l, ∀ b ∈ l, (f a == f b) = (a == b)) :
    countDistinct l = (l.map f).eraseDups.length := by
  rw [countDistinct, size_ofList, eraseDups_map hf, List.length_map]

namespace Placement

/-- Comparing sources as they are, by the places of their owners, is an equivalence, and sources
that are the same feed a hasher the same. They are the same exactly if they are of one kind and go
by one name, or are owned by one target, whatever has become of it, and that does not change. Then
they also have one name and are visible to the same targets. So a set of sources has a member for
each key. -/
theorem source_identity_is_stable (ops : List Op) :
    let p := start.run ops
    (Equivalence fun a b => p.same a b = true) ∧
    (∀ a b, p.same a b ↔ p.hashed a = p.hashed b) ∧
    (∀ a ∈ p.sources, ∀ b ∈ p.sources,
      (p.same a b = (a == b) ∧ (p.same a b → hash a = hash b)) ∧
      (p.same a b ↔ a.kind = b.kind ∧
        if a.kind = .object then a.owner?.map Target.id = b.owner?.map Target.id
        else a.name = b.name) ∧
      (p.same a b → a.name = b.name ∧ ∀ t, p.shows t a = p.shows t b) ∧
      ∀ more, (p.run more).same a b = p.same a b ∧ (p.run more).hashed a = p.hashed a) ∧
    (∀ a ∈ p.sources, ∀ name t, p.handles.find? name = some t → p.shows t a = a.isVisibleTo t) ∧
    ∀ l : List Source, (∀ a ∈ l, a ∈ p.sources) →
      Source.countDistinct l = (l.map Source.key).eraseDups.length ∧
      Source.countDistinct l = (l.map p.hashed).eraseDups.length := by
  intro p
  have h : p.Sound := start_sound.run ops
  refine ⟨p.same_equivalence, p.same_iff_hashed, fun a ha b hb => ?_, fun a ha name t ht => ?_,
    fun l hl => ⟨?_, ?_⟩⟩
  · have hsame : p.same a b = (a == b) := h.same_eq ha hb
    refine ⟨⟨hsame, fun hab => LawfulHashable.hash_eq a b (hsame ▸ hab)⟩, ?_, fun hab => ?_,
      fun more => ?_⟩
    · rw [hsame]
      exact Source.beq_iff_identity
    · exact ⟨h.name_eq ha hb (hsame ▸ hab), shows_congr hab⟩
    · have hhashed : ∀ s ∈ p.sources, (p.run more).hashed s = p.hashed s := fun s hs =>
        h.hashed_run hs more
      refine ⟨?_, hhashed a ha⟩
      rw [Bool.eq_iff_iff, same_iff_hashed, same_iff_hashed, hhashed a ha, hhashed b hb]
  · exact h.shows_eq ha (mem_mentioned_of_find? ht)
  · refine Source.countDistinct_eq fun a _ b _ => ?_
    rfl
  · refine Source.countDistinct_eq fun a ha b hb => ?_
    rw [← h.same_eq (hl a ha) (hl b hb), Bool.eq_iff_iff, same_iff_hashed, beq_iff_eq]

/-- The place of a target that is gone is given out again, but not while a source mentions it. -/
example :
    let gone : List Op := [.make "a" "Button" 7, .own "a", .release "a"]
    (start.run (gone ++ [.make "b" "Label" 7])).handles.issued = 1 ∧
      (start.run (gone ++ [.drop 0, .make "b" "Label" 7])).handles.issued = 2 := ⟨rfl, rfl⟩

end Placement

end ScopedResources
