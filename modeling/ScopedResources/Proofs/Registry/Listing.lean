import ScopedResources.Proofs.Registry.Log

/-! # Listings of a log

What a registry lists, counts and finds is what its log holds. The listing of a target takes the
kinds from least to most specific, within a kind the sources in the order of first use, and within
a source the resources in the order of the log. -/

namespace ScopedResources

/-! ## The stable sort by kind -/

/-- In an order by rank each kind is one stretch. -/
theorem eq_flatMap_filter_kind {l : List Source}
    (h : l.Pairwise fun a b => a.kind.listingRank ≤ b.kind.listingRank) :
    l = SourceKind.byListing.flatMap fun k => l.filter fun s => s.kind == k := by
  induction l with
  | nil => rfl
  | cons s l ih =>
    obtain ⟨hs, hl⟩ := List.pairwise_cons.mp h
    have hlow : ∀ k : SourceKind, k.listingRank < s.kind.listingRank →
        (l.filter fun u => u.kind == k) = [] := by
      intro k hk
      refine List.filter_eq_nil_iff.mpr fun u hu huk => ?_
      have := hs u hu
      rw [eq_of_beq huk] at this
      omega
    have hrest := ih hl
    simp only [SourceKind.byListing, List.flatMap_cons, List.flatMap_nil] at hrest ⊢
    cases hk : s.kind <;> rw [hk] at hlow <;>
      simp [hk, hlow, SourceKind.listingRank, SourceKind.priority, SourceKind.byPriority] at hrest ⊢ <;>
      exact hrest

/-- Sorting by rank keeps the order within each kind. -/
theorem mergeSort_eq_flatMap_filter_kind (l : List Source) :
    (l.mergeSort fun a b => decide (a.kind.listingRank ≤ b.kind.listingRank)) =
      SourceKind.byListing.flatMap fun k => l.filter fun s => s.kind == k := by
  have htrans : ∀ a b c : Source, decide (a.kind.listingRank ≤ b.kind.listingRank) →
      decide (b.kind.listingRank ≤ c.kind.listingRank) →
      decide (a.kind.listingRank ≤ c.kind.listingRank) := by
    simp only [decide_eq_true_eq]
    omega
  have htotal : ∀ a b : Source, (decide (a.kind.listingRank ≤ b.kind.listingRank) ||
      decide (b.kind.listingRank ≤ a.kind.listingRank)) := by
    simp only [Bool.or_eq_true, decide_eq_true_eq]
    omega
  have hsorted := List.pairwise_mergeSort htrans htotal l
  simp only [decide_eq_true_eq] at hsorted
  rw [eq_flatMap_filter_kind hsorted]
  congr 1
  funext k
  -- The members of one kind are in order already, so the sort keeps them as a sublist.
  have hkind : (l.filter fun s => s.kind == k).Pairwise fun a b =>
      decide (a.kind.listingRank ≤ b.kind.listingRank) := by
    refine List.Pairwise.imp_of_mem ?_ (List.pairwise_of_forall (R := fun _ _ => True) (by simp))
    intro a b ha hb _
    simp [eq_of_beq (List.mem_filter.mp ha).2, eq_of_beq (List.mem_filter.mp hb).2]
  have hsub := (List.sublist_mergeSort htrans htotal hkind List.filter_sublist).filter
    fun s => s.kind == k
  rw [List.filter_filter, List.filter_congr (q := fun s => s.kind == k) (by simp)] at hsub
  exact (hsub.eq_of_length ((List.mergeSort_perm _ _).filter _).length_eq.symm).symm

/-! ## Less specific kinds -/

/-- The sources of single objects are the most specific ones. -/
theorem SourceKind.ne_object_of_mem_lessSpecific {j k : SourceKind} (h : j ∈ k.lessSpecific) :
    j ≠ .object := by
  rintro rfl
  revert h
  cases k <;> decide

/-- Of two kinds one is less specific than the other. -/
theorem SourceKind.mem_lessSpecific_of_not_mem {j k : SourceKind} (hne : j ≠ k)
    (h : k ∉ j.lessSpecific) : j ∈ k.lessSpecific := by
  revert hne h
  cases j <;> cases k <;> decide

/-! ## Sources that concern a target -/

namespace Source

/-- All targets share the source, or it is the target's own. -/
def concerns (t : Target) (s : Source) : Bool := s.kind != .object || s == .ofTarget t

theorem concerns_congr {a b : Source} (h : a == b) (t : Target) : a.concerns t = b.concerns t := by
  rw [concerns, concerns, kind_congr h, BEq.congr_left h]

theorem isVisibleTo_eq (s : Source) (t : Target) : s.isVisibleTo t = s.concerns t := by
  cases s with
  | shared scope name => cases scope <;> rfl
  | ofTarget owner =>
    rw [Bool.eq_iff_iff]
    simp [concerns, isVisibleTo, owner?, kind, beq_iff, key, Target.beq_iff]

end Source

/-! ## Log entries by source -/

namespace Log

/-- The resources of some sources are the entries that belong to one of them. -/
theorem flatMap_inSource_perm (log : Log) {ss : List Source}
    (h : ss.Pairwise fun a b => (a == b) = false) :
    (ss.flatMap log.inSource).Perm (log.filter fun r => ss.contains r.source) := by
  induction ss with
  | nil => simp
  | cons s ss ih =>
    obtain ⟨hs, hss⟩ := List.pairwise_cons.mp h
    let both := log.filter fun r => (s :: ss).contains r.source
    have hfirst : log.inSource s = both.filter fun r => r.source == s := by
      rw [List.filter_filter]
      refine List.filter_congr fun r _ => ?_
      rw [List.contains_cons]
      cases r.source == s <;> simp
    have hrest : (log.filter fun r => ss.contains r.source) =
        both.filter fun r => !r.source == s := by
      rw [List.filter_filter]
      refine List.filter_congr fun r _ => ?_
      rw [List.contains_cons]
      by_cases hr : r.source == s
      · have : ss.contains r.source = false := by
          rw [contains_congr hr, Bool.eq_false_iff]
          intro hm
          obtain ⟨u, hu, hsu⟩ := List.contains_iff_exists_mem_beq.mp hm
          rw [hs u hu] at hsu
          cases hsu
        simp [hr, this]
      · simp [hr]
    rw [List.flatMap_cons, hfirst]
    refine ((ih hss).append_left _).trans ?_
    rw [hrest]
    exact List.filter_append_perm _ _

/-- What a target is shown: kind by kind, in the order of listings, and source by source, in the
order of first use. -/
def resourcesFor (log : Log) (t : Target) : List Resource :=
  SourceKind.byListing.flatMap fun k =>
    (log.sources.filter fun s => s.kind == k && s.concerns t).flatMap log.inSource

def holdsName (log : Log) (s : Source) (name : String) : Bool :=
  log.any fun r => r.source == s && r.name == name

def kindHoldsName (log : Log) (k : SourceKind) (name : String) : Bool :=
  log.any fun r => r.source.kind == k && r.name == name

/-- The verdict on a name in a source, from the entries there are. -/
def verdict (log : Log) (s : Source) (name : String) : Verdict :=
  if log.holdsName s name then .nameInUse
  else if s.kind.lessSpecific.any fun k => log.kindHoldsName k name then .wouldOverride
  else .clear

end Log

/-- Each entry of a source that concerns the target is shown once, and no other. -/
theorem Log.resourcesFor_perm (log : Log) (t : Target) :
    (log.resourcesFor t).Perm (log.filter fun r => r.source.concerns t) := by
  let visible := log.sources.filter fun s => s.concerns t
  have hlisting : log.resourcesFor t =
      (visible.mergeSort fun a b =>
        decide (a.kind.listingRank ≤ b.kind.listingRank)).flatMap log.inSource := by
    rw [mergeSort_eq_flatMap_filter_kind, List.flatMap_assoc]
    simp only [visible, List.filter_filter]
    rfl
  have hdistinct : visible.Pairwise fun a b => (a == b) = false :=
    (pairwise_eraseDups _).sublist List.filter_sublist
  have hvisible : (log.filter fun r => visible.contains r.source) =
      log.filter fun r => r.source.concerns t := by
    refine List.filter_congr fun r hr => ?_
    rw [contains_filter fun s hs => Source.concerns_congr hs t,
      mem_sources.mpr (.inr ⟨r, hr, BEq.rfl⟩), Bool.and_true]
  rw [hlisting, ← hvisible]
  exact ((List.mergeSort_perm visible _).flatMap_right _).trans
    (log.flatMap_inSource_perm hdistinct)

/-! ## Listings of parts -/

theorem Source.isPart_concerns (t : Target) : IsPart (concerns t) where
  congr h := concerns_congr h t
  shared scope _ := by cases scope <;> rfl

namespace Log

variable {p : Source → Bool}

/-- A target is shown the same as long as the sources that concern it are left. -/
theorem resourcesFor_part (hp : Source.IsPart p) (log : Log) {t : Target}
    (ht : ∀ s : Source, s.concerns t → p s) :
    (log.part p).resourcesFor t = log.resourcesFor t := by
  unfold resourcesFor
  refine congrArg (List.flatMap · _) (funext fun k => ?_)
  have hsources : ((log.part p).sources.filter fun s => s.kind == k && s.concerns t) =
      log.sources.filter fun s => s.kind == k && s.concerns t := by
    rw [sources_part hp, List.filter_filter]
    refine List.filter_congr fun s _ => ?_
    cases hs : s.concerns t with
    | true => simp [ht s hs]
    | false => simp
  rw [hsources, List.flatMap, List.flatMap]
  refine congrArg List.flatten (List.map_congr_left fun s hs => ?_)
  have hs := (List.mem_filter.mp hs).2
  rw [Bool.and_eq_true] at hs
  rw [inSource_part hp, if_pos (ht s hs.2)]

theorem holdsName_part (hp : Source.IsPart p) (log : Log) {s : Source} (hs : p s) (name : String) :
    (log.part p).holdsName s name = log.holdsName s name := by
  unfold holdsName part
  rw [List.any_filter]
  refine congrArg (List.any log) (funext fun r => ?_)
  by_cases hr : r.source == s
  · simp [hp.congr hr, hs]
  · simp [hr]

/-- Only sources of single objects may be left out. -/
theorem kindHoldsName_part (hp : Source.IsPart p) (log : Log) {k : SourceKind} (hk : k ≠ .object)
    (name : String) : (log.part p).kindHoldsName k name = log.kindHoldsName k name := by
  unfold kindHoldsName part
  rw [List.any_filter]
  refine congrArg (List.any log) (funext fun r => ?_)
  cases hr : r.source with
  | shared scope name => simp [hp.shared]
  | ofTarget owner =>
    have : ((Source.ofTarget owner).kind == k) = false := beq_false_of_ne hk.symm
    simp [this]

theorem verdict_part (hp : Source.IsPart p) (log : Log) {s : Source} (hs : p s) (name : String) :
    (log.part p).verdict s name = log.verdict s name := by
  have hkinds : (s.kind.lessSpecific.any fun k => (log.part p).kindHoldsName k name) =
      s.kind.lessSpecific.any fun k => log.kindHoldsName k name := by
    rw [Bool.eq_iff_iff, List.any_eq_true, List.any_eq_true]
    refine exists_congr fun k => and_congr_right fun hk => ?_
    rw [log.kindHoldsName_part hp (SourceKind.ne_object_of_mem_lessSpecific hk)]
  rw [verdict, verdict, log.holdsName_part hp hs, hkinds]

end Log

namespace Registry.Reflects

variable {r : Registry} {log : Log}

theorem size (h : r.Reflects log) : r.size = log.length := by
  have hlists : r.groups.toList.flatMap (·.2) = r.groups.keys.flatMap log.inSource := by
    rw [← Std.HashMap.map_fst_toList_eq_keys, List.flatMap_map, List.flatMap, List.flatMap]
    refine congrArg _ (List.map_congr_left fun kv hkv => ?_)
    have hv := (Std.HashMap.mem_toList_iff_getKey?_eq_some_and_getElem?_eq_some.mp hkv).2
    rw [← h.inSource, Registry.inSource, Std.HashMap.getD_eq_getD_getElem?, hv]
    rfl
  have hlength : ∀ (l : List (Source × List Resource)) (n : Nat),
      l.foldl (fun n kv => n + kv.2.length) n = n + (l.flatMap (·.2)).length := by
    intro l
    induction l with
    | nil => simp
    | cons kv l ih =>
      intro n
      rw [List.foldl_cons, ih, List.flatMap_cons, List.length_append, Nat.add_assoc]
  have hall : (log.filter fun x => r.groups.keys.contains x.source) = log := by
    refine List.filter_eq_self.mpr fun x hx => ?_
    rw [Std.HashMap.contains_keys]
    exact (h.mem_groups _).mpr (Log.mem_sources.mpr (.inr ⟨x, hx, BEq.rfl⟩))
  rw [Registry.size, Std.HashMap.fold_eq_foldl_toList, hlength, Nat.zero_add, hlists,
    (log.flatMap_inSource_perm Std.HashMap.distinct_keys).length_eq, hall]

theorem resourcesFor (h : r.Reflects log) (t : Target) : r.resourcesFor t = log.resourcesFor t := by
  have hin : r.inSource = log.inSource := funext h.inSource
  rw [Registry.resourcesFor, listing, h.registration, hin, mergeSort_eq_flatMap_filter_kind,
    List.filter_flatMap, List.flatMap_assoc]
  simp only [List.filter_filter, Source.isVisibleTo_eq, Bool.and_comm (Source.concerns t _)]
  rfl

theorem holdsName (h : r.Reflects log) (s : Source) (name : String) :
    r.holdsName s name = log.holdsName s name := by
  rw [Registry.holdsName, h.inSource, Log.inSource, List.any_filter]
  rfl

theorem kindHoldsName (h : r.Reflects log) (k : SourceKind) (name : String) :
    r.kindHoldsName k name = log.kindHoldsName k name := by
  have hin : r.inSource = log.inSource := funext h.inSource
  rw [Registry.kindHoldsName, resourcesOfKind, h.registration, hin, Bool.eq_iff_iff]
  simp only [Log.kindHoldsName, List.any_eq_true, List.mem_flatMap, List.mem_filter, Bool.and_eq_true]
  constructor
  · rintro ⟨x, ⟨s, ⟨_, hk⟩, hx⟩, hn⟩
    obtain ⟨hx, hs⟩ := List.mem_filter.mp hx
    exact ⟨x, hx, by rwa [Source.kind_congr hs], hn⟩
  · rintro ⟨x, hx, hk, hn⟩
    obtain ⟨s, hs, hxs⟩ := List.contains_iff_exists_mem_beq.mp
      (Log.mem_sources.mpr (.inr ⟨x, hx, BEq.rfl⟩))
    exact ⟨x, ⟨s, ⟨hs, by rwa [← Source.kind_congr hxs]⟩, List.mem_filter.mpr ⟨hx, hxs⟩⟩, hn⟩

theorem verdict (h : r.Reflects log) (s : Source) (name : String) :
    r.verdict s name = log.verdict s name := by
  have hkinds : (fun k => r.kindHoldsName k name) = fun k => log.kindHoldsName k name :=
    funext fun k => h.kindHoldsName k name
  rw [Registry.verdict, Log.verdict, h.holdsName, hkinds]

end Registry.Reflects

end ScopedResources
