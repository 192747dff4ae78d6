import ScopedResources.Proofs.FirstOccurrences
import ScopedResources.Registry.Creation

/-! # The log behind a registry

All that a registry shows can be read off a log: the resources that were put in and have not been
pruned, oldest first. `Reflects` says that the map of sources and their registration are in step
with a log, and each operation keeps them so. -/

namespace ScopedResources

abbrev Log := List Resource

namespace Log

/-- The sources in the order of first use, after the built-in ones. -/
def sources (log : Log) : List Source := (Source.builtin ++ log.map (·.source)).eraseDups

def inSource (log : Log) (s : Source) : List Resource := log.filter fun r => r.source == s

/-- What is left once the sources of targets that are gone have been dropped. -/
def reachable (alive : Liveness) (log : Log) : Log := log.filter fun r => r.source.isReachable alive

theorem sources_concat (log : Log) (r : Resource) :
    sources (log ++ [r]) =
      if log.sources.contains r.source then log.sources else log.sources ++ [r.source] := by
  unfold sources
  rw [List.map_append, ← List.append_assoc, List.map_singleton, eraseDups_concat, contains_eraseDups]

theorem inSource_concat (log : Log) (r : Resource) (s : Source) :
    inSource (log ++ [r]) s = if r.source == s then log.inSource s ++ [r] else log.inSource s := by
  unfold inSource
  rw [List.filter_append, List.filter_cons, List.filter_nil]
  split <;> simp

theorem mem_sources {log : Log} {s : Source} :
    log.sources.contains s ↔ Source.builtin.contains s ∨ ∃ r ∈ log, r.source == s := by
  simp [sources, contains_eraseDups, List.contains_iff_exists_mem_beq, BEq.comm (a := s)]

/-- Sources keep their places when the log grows. -/
theorem sources_prefix (log more : Log) : log.sources <+: Log.sources (log ++ more) := by
  induction more generalizing log with
  | nil => exact (List.append_nil log).symm ▸ List.prefix_rfl
  | cons x more ih =>
    have hstep : log.sources <+: Log.sources (log ++ [x]) := by
      rw [sources_concat]
      split
      · exact List.prefix_rfl
      · exact List.prefix_append ..
    rw [List.append_cons]
    exact hstep.trans (ih (log ++ [x]))

end Log

/-! ## Parts of a log -/

/-- A part of the sources: with a source it has all that are equal, and it has the shared ones. -/
structure Source.IsPart (p : Source → Bool) : Prop where
  congr : ∀ {a b : Source}, a == b → p a = p b
  shared : ∀ scope name, p (.shared scope name)

theorem Source.isPart_isReachable {alive : Liveness} (halive : alive.Consistent) :
    IsPart fun s => s.isReachable alive where
  congr := isReachable_congr halive
  shared _ _ := rfl

namespace Log

variable {p : Source → Bool}

/-- The entries of the sources in a part. -/
def part (p : Source → Bool) (log : Log) : Log := log.filter fun r => p r.source

/-- The built-in sources are there even if nothing is in them. -/
theorem sources_part (hp : Source.IsPart p) (log : Log) :
    (log.part p).sources = log.sources.filter p := by
  have hbuiltin : Source.builtin.filter p = Source.builtin := by
    simp [Source.builtin, Source.system, Source.application, Source.sharedDictionary,
      Source.document, hp.shared]
  unfold sources part
  rw [← eraseDups_filter fun _ _ => hp.congr, List.filter_append, List.filter_map, hbuiltin]
  rfl

theorem inSource_part (hp : Source.IsPart p) (log : Log) (s : Source) :
    (log.part p).inSource s = if p s then log.inSource s else [] := by
  unfold inSource part
  rw [List.filter_filter]
  split
  · next h =>
    refine List.filter_congr fun r _ => ?_
    by_cases hs : r.source == s
    · simp [hs, hp.congr hs, h]
    · simp [hs]
  · next h =>
    refine List.filter_eq_nil_iff.mpr fun r _ hr => ?_
    rw [Bool.and_eq_true] at hr
    exact h (hp.congr hr.1 ▸ hr.2)

/-- The built-in sources stay, whoever is gone. -/
theorem sources_reachable {alive : Liveness} (halive : alive.Consistent) (log : Log) :
    (log.reachable alive).sources = log.sources.filter fun s => s.isReachable alive :=
  sources_part (Source.isPart_isReachable halive) log

theorem inSource_reachable {alive : Liveness} (halive : alive.Consistent) (log : Log) (s : Source) :
    (log.reachable alive).inSource s = if s.isReachable alive then log.inSource s else [] :=
  inSource_part (Source.isPart_isReachable halive) log s

end Log

namespace Registry

/-- The map holds what the log has for each source, and knows the sources that the registration
lists. -/
structure Reflects (r : Registry) (log : Log) : Prop where
  registration : r.registration = log.sources
  mem_groups : ∀ s, s ∈ r.groups ↔ log.sources.contains s
  inSource : ∀ s, r.inSource s = log.inSource s

/-! ## Growth -/

theorem mem_groups_register {r : Registry} {s u : Source} :
    u ∈ (r.register s).groups ↔ s == u ∨ u ∈ r.groups :=
  Std.HashMap.mem_insertIfNew

theorem inSource_register (r : Registry) (s u : Source) :
    (r.register s).inSource u = r.inSource u := by
  unfold inSource register
  rw [Std.HashMap.getD_insertIfNew]
  split
  · next h =>
    have hu : u ∉ r.groups := fun hu => h.2 ((Std.HashMap.mem_congr h.1).mpr hu)
    rw [Std.HashMap.getD_eq_fallback hu]
  · rfl

theorem mem_groups_append {r : Registry} {x : Resource} {s : Source} :
    s ∈ (r.append x).groups ↔ x.source == s ∨ s ∈ r.groups :=
  Std.HashMap.mem_modify.trans mem_groups_register

theorem inSource_append (r : Registry) (x : Resource) (s : Source) :
    (r.append x).inSource s = if x.source == s then r.inSource s ++ [x] else r.inSource s := by
  rw [← inSource_register r x.source s]
  unfold inSource append
  rw [Std.HashMap.getD_modify]
  split
  · next h =>
    have hx : x.source ∈ (r.register x.source).groups := mem_groups_register.mpr (.inl BEq.rfl)
    rw [← Std.HashMap.getD_congr h, Std.HashMap.getD_eq_getD_getElem?,
      Std.HashMap.getElem?_eq_some_getElem hx]
    rfl
  · rfl

theorem Reflects.append {r : Registry} {log : Log} (h : r.Reflects log) (x : Resource) :
    (r.append x).Reflects (log ++ [x]) where
  registration := by
    rw [Log.sources_concat, ← h.registration]
    change (if x.source ∈ r.groups then _ else _) = _
    simp only [h.mem_groups, ← h.registration]
  mem_groups s := by
    rw [mem_groups_append, h.mem_groups, Log.mem_sources, Log.mem_sources]
    simp only [List.mem_append, List.mem_singleton, or_and_right, exists_or, exists_eq_left]
    rw [or_comm, or_assoc]
  inSource s := by rw [inSource_append, Log.inSource_concat, h.inSource]

theorem Reflects.seed {r : Registry} {log : Log} (h : r.Reflects log) (xs : List Resource) :
    (r.seed xs).Reflects (log ++ xs) := by
  induction xs generalizing r log with
  | nil => simpa [Registry.seed] using h
  | cons x xs ih => simpa [Registry.seed] using ih (h.append x)

theorem reflects_empty : empty.Reflects [] where
  registration := by
    simp [empty, Source.builtin, register, Std.HashMap.mem_insertIfNew, Source.beq_eq, Source.key,
      Source.system, Source.application, Source.sharedDictionary, Source.document, Log.sources,
      List.eraseDups_cons]
  mem_groups s := by
    simp only [empty, Source.builtin, List.foldl_cons, List.foldl_nil, mem_groups_register,
      Log.mem_sources, List.contains_cons, List.contains_nil, BEq.comm (a := s)]
    simp only [Std.HashMap.not_mem_empty, Bool.or_eq_true, List.not_mem_nil]
    grind
  inSource s := by
    simp only [empty, Source.builtin, List.foldl_cons, List.foldl_nil, inSource_register]
    exact Std.HashMap.getD_empty

/-! ## Pruning -/

theorem mem_groups_prune {alive : Liveness} (halive : alive.Consistent) {r : Registry} {s : Source} :
    s ∈ (r.prune alive).2.groups ↔ s ∈ r.groups ∧ s.isReachable alive := by
  refine Std.HashMap.mem_filter.trans ?_
  constructor
  · rintro ⟨hm, hr⟩
    exact ⟨hm, by rwa [Source.isReachable_congr halive (Std.HashMap.getKey_beq hm)] at hr⟩
  · rintro ⟨hm, hr⟩
    exact ⟨hm, by rwa [Source.isReachable_congr halive (Std.HashMap.getKey_beq hm)]⟩

theorem inSource_prune {alive : Liveness} (halive : alive.Consistent) (r : Registry) (s : Source) :
    (r.prune alive).2.inSource s = if s.isReachable alive then r.inSource s else [] := by
  unfold inSource prune
  cases hk : r.groups.getKey? s with
  | none =>
    have hs : s ∉ r.groups := fun hs => by simp [Std.HashMap.getKey?_eq_some_getKey hs] at hk
    rw [Std.HashMap.getD_eq_fallback hs, Std.HashMap.getD_eq_fallback fun hm =>
      hs (Std.HashMap.mem_of_mem_filter hm), ite_self]
  | some k =>
    have hks : k == s := by simpa [hk] using @Std.HashMap.getKey?_beq _ _ _ _ r.groups _ _ s
    rw [Std.HashMap.getD_filter_of_getKey?_eq_some hk, Source.isReachable_congr halive hks,
      Std.HashMap.getD_eq_getD_getElem?]
    cases s.isReachable alive <;> cases r.groups[s]? <;> rfl

theorem Reflects.prune {alive : Liveness} (halive : alive.Consistent) {r : Registry} {log : Log}
    (h : r.Reflects log) : (r.prune alive).2.Reflects (log.reachable alive) where
  registration := by
    rw [Log.sources_reachable halive, ← h.registration]
    rfl
  mem_groups s := by
    rw [mem_groups_prune halive, h.mem_groups, Log.sources_reachable halive,
      contains_filter fun _ hs => Source.isReachable_congr halive hs, Bool.and_eq_true, and_comm]
  inSource s := by rw [inSource_prune halive, Log.inSource_reachable halive, h.inSource]

end Registry

end ScopedResources
