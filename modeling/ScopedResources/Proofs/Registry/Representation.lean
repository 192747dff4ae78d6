import ScopedResources.Proofs.Registry.Pruning
import ScopedResources.Proofs.Registry.Session
import ScopedResources.Settings.Basic

/-! # The two containers of a registry

A registry has its sources twice, in a map and in the order of first use, and every query relies on
the two being in step: a source missing from one would hide its resources, a source registered twice
would show them twice. However a registry has come about and whatever has been done to it since,
both have the same sources, and what is filed under a source belongs there. -/

namespace ScopedResources

theorem Source.isSome_owner?_iff (s : Source) : s.owner?.isSome ↔ s.kind = .object := by
  cases s <;> simp [owner?, kind]

namespace Registry

/-- What the queries rely on. -/
structure WellFormed (r : Registry) : Prop where
  /-- No source is registered twice. -/
  distinct : r.registration.Pairwise fun a b => (a == b) = false
  /-- The registered sources are the keys of the map. -/
  mem_groups : ∀ s, s ∈ r.groups ↔ r.registration.contains s
  /-- The built-in sources come first, whatever is in them. -/
  builtin : Source.builtin <+: r.registration
  /-- Any other source is registered for what is in it. -/
  filled : ∀ s ∈ r.registration, Source.builtin.contains s = false → r.inSource s ≠ []
  /-- What is filed under a source belongs there. -/
  filed : ∀ (s : Source) (xs : List Resource), r.groups[s]? = some xs → ∀ x ∈ xs, x.source == s
  /-- The sources of single objects have owners, and no others. -/
  owned : ∀ s ∈ r.registration, s.owner?.isSome ↔ s.kind = .object

theorem builtin_sources : Log.sources [] = Source.builtin :=
  eraseDups_of_pairwise (by decide)

/-- A registry that reflects a log has its containers in step. -/
theorem Reflects.wellFormed {r : Registry} {log : Log} (h : r.Reflects log) : r.WellFormed where
  distinct := h.pairwise_registration
  mem_groups s := by rw [h.mem_groups, h.registration]
  builtin := by
    rw [h.registration, ← builtin_sources]
    exact Log.sources_prefix [] log
  filled s hs hother := by
    have hsource : log.sources.contains s :=
      List.contains_iff_exists_mem_beq.mpr ⟨s, h.registration ▸ hs, BEq.rfl⟩
    obtain hbuiltin | ⟨x, hx, hxs⟩ := Log.mem_sources.mp hsource
    · rw [hother] at hbuiltin
      cases hbuiltin
    · rw [h.inSource]
      exact List.ne_nil_of_mem (List.mem_filter.mpr ⟨hx, hxs⟩)
  filed s xs hxs x hx := by
    have hin : log.inSource s = xs := by
      rw [← h.inSource, Registry.inSource, Std.HashMap.getD_eq_getD_getElem?, hxs, Option.getD_some]
    rw [← hin] at hx
    exact (List.mem_filter.mp hx).2
  owned s _ := s.isSome_owner?_iff

/-! ## Origins -/

/-- The ways in which a registry comes about. -/
inductive Origin where
  | empty
  | builtin
  | seeded (resources : List Resource)
  | configured (settings : Settings)

namespace Origin

def registry : Origin → Registry
  | empty => .empty
  | builtin => .builtin
  | seeded resources => Registry.empty.seed resources
  | configured settings => settings.registry

/-- What is in the registry from the start. -/
def log : Origin → Log
  | empty => []
  | builtin => builtinResources
  | seeded resources => resources
  | configured settings => (if settings.includeBuiltinSeed then builtinResources else []) ++
      settings.applicationResources.map fun entry => ⟨.application, entry.name, entry.value⟩

theorem reflects (o : Origin) : o.registry.Reflects o.log := by
  cases o with
  | empty => exact reflects_empty
  | builtin => exact reflects_empty.seed builtinResources
  | seeded resources => exact reflects_empty.seed resources
  | configured settings =>
    have hstart : Reflects (if settings.includeBuiltinSeed then .builtin else .empty)
        (if settings.includeBuiltinSeed then builtinResources else []) := by
      split
      · exact reflects_empty.seed builtinResources
      · exact reflects_empty
    have hseeded := hstart.seed
      (settings.applicationResources.map fun entry => ⟨.application, entry.name, entry.value⟩)
    exact ⟨hseeded.registration, hseeded.mem_groups, hseeded.inSource⟩

end Origin

end Registry

namespace Session

/-- A session that begins with these handles and a registry that has just come about. -/
def opened (handles : Handles) (origin : Registry.Origin) : Session :=
  ⟨handles, origin.registry, origin.log⟩

theorem opened_reflects (handles : Handles) (origin : Registry.Origin) (ops : List Op) :
    ((opened handles origin).run ops).registry.Reflects ((opened handles origin).run ops).log :=
  run_reflects origin.reflects ops

/-- However the registry has come about, whatever is done to it and whichever targets die, its two
containers stay in step. -/
theorem registry_wellFormed (handles : Handles) (origin : Registry.Origin) (ops : List Op) :
    ((opened handles origin).run ops).registry.WellFormed :=
  (opened_reflects handles origin ops).wellFormed

end Session

end ScopedResources
