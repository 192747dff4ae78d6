import Mathlib.Data.List.Nodup
import ScopedResources.Proofs.Property.Offers
import ScopedResources.Proofs.Registry.Agreement
import ScopedResources.Proofs.Registry.Representation

/-! # Creations that do not depend on each other

Two creations in different sources may be done in either order. Sources that are used for the first
time are then registered in another order, but a listing goes by kind first and a target sees one
source of a single object at most. So the order shows only if both sources are shared, of one kind
and new: then their two resources, which are next to each other, change places. -/

namespace ScopedResources

/-! ## Neighbours that change places -/

/-- The lists are the same but for two neighbours, which have changed places. -/
def Swapped {α : Type} (x y : α) (l l' : List α) : Prop :=
  ∃ before after, l = before ++ [x, y] ++ after ∧ l' = before ++ [y, x] ++ after

namespace Swapped

variable {α : Type} {x y : α} {l l' : List α} {p : α → Bool}

theorem filter_pair (hp : ¬(p x ∧ p y)) : [x, y].filter p = [y, x].filter p := by
  cases hx : p x with
  | false => simp [List.filter_cons, hx]
  | true =>
    have hy : p y = false := by simpa [hx] using hp
    simp [List.filter_cons, hy]

theorem filter (h : Swapped x y l l') (hx : p x) (hy : p y) :
    Swapped x y (l.filter p) (l'.filter p) := by
  obtain ⟨before, after, rfl, rfl⟩ := h
  exact ⟨before.filter p, after.filter p, by simp [hx, hy], by simp [hx, hy]⟩

/-- The order does not show where one of the two is left out. -/
theorem filter_eq (h : Swapped x y l l') (hp : ¬(p x ∧ p y)) : l.filter p = l'.filter p := by
  obtain ⟨before, after, rfl, rfl⟩ := h
  simp only [List.filter_append, filter_pair hp]

/-- The order does show if the two differ. -/
theorem ne (h : Swapped x y l l') (hne : x ≠ y) : l ≠ l' := by
  obtain ⟨before, after, rfl, rfl⟩ := h
  simp [hne]

end Swapped

/-- Two shared sources of one kind, neither of which is registered. -/
structure Source.Rivals (registered : List Source) (a b : Source) : Prop where
  kind : a.kind = b.kind
  shared : a.kind ≠ .object
  left : registered.contains a = false
  right : registered.contains b = false

theorem Source.Rivals.symm {registered : List Source} {a b : Source} (h : Rivals registered a b) :
    Rivals registered b a :=
  ⟨h.kind.symm, h.kind ▸ h.shared, h.right, h.left⟩

/-- Each kind is listed once. -/
theorem SourceKind.exists_byListing (k : SourceKind) :
    ∃ before after, byListing = before ++ k :: after ∧ k ∉ before ∧ k ∉ after := by
  have hlisted : k ∈ byListing := List.mem_of_getElem? k.getElem?_byListing
  obtain ⟨before, after, hlist⟩ := List.append_of_mem hlisted
  have hnodup : byListing.Nodup := by decide
  rw [hlist, List.nodup_middle, List.nodup_cons, List.mem_append, not_or] at hnodup
  exact ⟨before, after, hlist, hnodup.1⟩

/-! ## Two entries in either order -/

namespace Log

variable {log : Log} {x y : Resource}

/-- The source, if an entry in it is the first. -/
def newSource (log : Log) (s : Source) : List Source := if log.sources.contains s then [] else [s]

theorem sources_concat_eq (log : Log) (x : Resource) :
    sources (log ++ [x]) = log.sources ++ log.newSource x.source := by
  rw [sources_concat, newSource]
  split
  · rw [List.append_nil]
  · rfl

theorem newSource_concat (log : Log) {s : Source} (h : (x.source == s) = false) :
    newSource (log ++ [x]) s = log.newSource s := by
  have hother : (log.newSource x.source).contains s = false := by
    unfold newSource
    split
    · rfl
    · rw [List.contains_cons, BEq.comm, h]
      rfl
  rw [newSource, newSource, sources_concat_eq, List.contains_append, hother, Bool.or_false]

theorem sources_pair (log : Log) (h : (x.source == y.source) = false) :
    sources (log ++ [x, y]) =
      log.sources ++ (log.newSource x.source ++ log.newSource y.source) := by
  rw [List.append_cons, sources_concat_eq, sources_concat_eq, log.newSource_concat h,
    List.append_assoc]

theorem sources_pair_perm (log : Log) (h : (x.source == y.source) = false) :
    (sources (log ++ [x, y])).Perm (sources (log ++ [y, x])) := by
  rw [log.sources_pair h, log.sources_pair (BEq.comm.trans h)]
  exact List.perm_append_comm.append_left _

/-- Within a source the order of entries in different sources does not show. -/
theorem inSource_pair (log : Log) (h : (x.source == y.source) = false) :
    inSource (log ++ [x, y]) = inSource (log ++ [y, x]) := by
  funext s
  have hone : ¬(x.source == s ∧ y.source == s) := by
    rintro ⟨hx, hy⟩
    rw [BEq.trans hx (BEq.symm hy)] at h
    cases h
  rw [inSource, inSource, List.filter_append, List.filter_append, Swapped.filter_pair hone]

theorem verdict_perm {log' : Log} (h : log.Perm log') (s : Source) (name : String) :
    log.verdict s name = log'.verdict s name := by
  have hown : log.holdsName s name = log'.holdsName s name := h.any_eq
  have hkinds : (fun k => log.kindHoldsName k name) = fun k => log'.kindHoldsName k name :=
    funext fun k => h.any_eq
  rw [verdict, verdict, hown, hkinds]

theorem inSource_of_new {s : Source} (h : log.sources.contains s = false) :
    log.inSource s = [] := by
  refine List.filter_eq_nil_iff.mpr fun x hx hxs => ?_
  rw [mem_sources.mpr (.inr ⟨x, hx, hxs⟩)] at h
  cases h

theorem inSource_pair_of_new (h : (x.source == y.source) = false)
    (hx : log.sources.contains x.source = false) : inSource (log ++ [x, y]) x.source = [x] := by
  have hnone := inSource_of_new hx
  rw [inSource] at hnone ⊢
  rw [List.filter_append, hnone]
  simp [BEq.comm.trans h]

/-! ## Listings -/

/-- What a target is shown of one kind. -/
def resourcesOfKindFor (log : Log) (t : Target) (k : SourceKind) : List Resource :=
  (log.sources.filter fun s => s.kind == k && s.concerns t).flatMap log.inSource

theorem resourcesFor_eq (log : Log) (t : Target) :
    log.resourcesFor t = SourceKind.byListing.flatMap (log.resourcesOfKindFor t) := rfl

theorem filter_newSource {s : Source} {p : Source → Bool}
    (h : ¬(log.sources.contains s = false ∧ p s)) : (log.newSource s).filter p = [] := by
  unfold newSource
  split
  · rfl
  · next hs => simpa [hs] using h

/-- The order shows in a kind only if both sources are new, of this kind, and seen by the target. -/
theorem resourcesOfKindFor_pair (h : (x.source == y.source) = false) {t : Target} {k : SourceKind}
    (hpair : ¬((log.sources.contains x.source = false ∧ x.source.kind == k && x.source.concerns t) ∧
      (log.sources.contains y.source = false ∧ y.source.kind == k && y.source.concerns t))) :
    resourcesOfKindFor (log ++ [x, y]) t k = resourcesOfKindFor (log ++ [y, x]) t k := by
  have hsources : ((sources (log ++ [x, y])).filter fun s => s.kind == k && s.concerns t) =
      (sources (log ++ [y, x])).filter fun s => s.kind == k && s.concerns t := by
    rw [log.sources_pair h, log.sources_pair (BEq.comm.trans h)]
    simp only [List.filter_append]
    rcases Decidable.not_and_iff_or_not.mp hpair with hx | hy
    · have hnone : ((log.newSource x.source).filter fun s => s.kind == k && s.concerns t) = [] :=
        filter_newSource hx
      rw [hnone, List.nil_append, List.append_nil]
    · have hnone : ((log.newSource y.source).filter fun s => s.kind == k && s.concerns t) = [] :=
        filter_newSource hy
      rw [hnone, List.nil_append, List.append_nil]
  rw [resourcesOfKindFor, resourcesOfKindFor, hsources, log.inSource_pair h]

/-- A target sees one source of a single object at most. -/
theorem resourcesFor_pair (h : (x.source == y.source) = false)
    (hrivals : ¬Source.Rivals log.sources x.source y.source) (t : Target) :
    resourcesFor (log ++ [x, y]) t = resourcesFor (log ++ [y, x]) t := by
  have hkind : resourcesOfKindFor (log ++ [x, y]) t = resourcesOfKindFor (log ++ [y, x]) t := by
    funext k
    refine resourcesOfKindFor_pair h ?_
    rintro ⟨⟨hx, hxk⟩, ⟨hy, hyk⟩⟩
    simp only [Bool.and_eq_true, beq_iff_eq] at hxk hyk
    refine hrivals ⟨hxk.1.trans hyk.1.symm, fun hobject => ?_, hx, hy⟩
    have hxt : x.source == .ofTarget t := by simpa [Source.concerns, hobject] using hxk.2
    have hyt : y.source == .ofTarget t := by
      simpa [Source.concerns, hyk.1, ← hxk.1, hobject] using hyk.2
    rw [BEq.trans hxt (BEq.symm hyt)] at h
    cases h
  rw [resourcesFor_eq, resourcesFor_eq, hkind]

/-- If both sources are shared, of one kind and new, the two resources are the last of this kind. -/
theorem resourcesOfKindFor_rivals (h : (x.source == y.source) = false)
    (hrivals : Source.Rivals log.sources x.source y.source) (t : Target) :
    resourcesOfKindFor (log ++ [x, y]) t x.source.kind =
      ((log.sources.filter fun s => s.kind == x.source.kind && s.concerns t).flatMap
        (inSource (log ++ [x, y]))) ++ [x, y] := by
  have hnew : (log.newSource x.source ++ log.newSource y.source).filter
      (fun s => s.kind == x.source.kind && s.concerns t) = [x.source, y.source] := by
    simp [newSource, hrivals.left, hrivals.right, ← hrivals.kind, Source.concerns, hrivals.shared]
  have hx : inSource (log ++ [x, y]) x.source = [x] := inSource_pair_of_new h hrivals.left
  have hy : inSource (log ++ [x, y]) y.source = [y] := by
    rw [log.inSource_pair h]
    exact inSource_pair_of_new (BEq.comm.trans h) hrivals.right
  rw [resourcesOfKindFor, log.sources_pair h, List.filter_append, List.flatMap_append, hnew,
    List.flatMap_cons, List.flatMap_cons, hx, hy]
  rfl

/-- Then they are shown in the order in which they were put in, and all else is shown the same. -/
theorem resourcesFor_rivals (h : (x.source == y.source) = false)
    (hrivals : Source.Rivals log.sources x.source y.source) (t : Target) :
    Swapped x y (resourcesFor (log ++ [x, y]) t) (resourcesFor (log ++ [y, x]) t) := by
  obtain ⟨before, after, hlist, hbefore, hafter⟩ := SourceKind.exists_byListing x.source.kind
  have hothers : ∀ kinds : List SourceKind, x.source.kind ∉ kinds →
      kinds.flatMap (resourcesOfKindFor (log ++ [y, x]) t) =
        kinds.flatMap (resourcesOfKindFor (log ++ [x, y]) t) := by
    intro kinds hkinds
    rw [List.flatMap, List.flatMap]
    refine congrArg List.flatten (List.map_congr_left fun k hk => ?_)
    refine (resourcesOfKindFor_pair h ?_).symm
    rintro ⟨⟨_, hxk⟩, _⟩
    simp only [Bool.and_eq_true, beq_iff_eq] at hxk
    exact hkinds (hxk.1 ▸ hk)
  let others := before.flatMap (resourcesOfKindFor (log ++ [x, y]) t)
  let earlier := (log.sources.filter fun s => s.kind == x.source.kind && s.concerns t).flatMap
    (inSource (log ++ [x, y]))
  refine ⟨others ++ earlier, after.flatMap (resourcesOfKindFor (log ++ [x, y]) t), ?_, ?_⟩
  · rw [resourcesFor_eq, hlist, List.flatMap_append, List.flatMap_cons,
      resourcesOfKindFor_rivals h hrivals]
    simp only [others, earlier, List.append_assoc]
  · have hkind := resourcesOfKindFor_rivals (BEq.comm.trans h) hrivals.symm t
    rw [← hrivals.kind, ← log.inSource_pair h] at hkind
    rw [resourcesFor_eq, hlist, List.flatMap_append, List.flatMap_cons, hkind,
      hothers before hbefore, hothers after hafter]
    simp only [others, earlier, List.append_assoc]

end Log

/-! ## Two creations in either order -/

namespace Registry

/-- No query tells the registries apart, but for listings. -/
structure Alike (r r' : Registry) : Prop where
  canCreate : r.canCreate = r'.canCreate
  checkName : ∀ alive s name, r.checkName alive s name = r'.checkName alive s name
  suggestName : ∀ base, r.suggestName base = r'.suggestName base
  suggestNameForType : ∀ type, r.suggestNameForType type = r'.suggestNameForType type
  suggestNameForProperty : ∀ p, r.suggestNameForProperty p = r'.suggestNameForProperty p
  size : r.size = r'.size
  isEmpty : r.isEmpty = r'.isEmpty
  sourceCount : r.sourceCount = r'.sourceCount
  prune : ∀ alive, (r.prune alive).1 = (r'.prune alive).1

variable {r : Registry} {log : Log} {x y : Resource}

theorem Reflects.append_pair (h : r.Reflects log) (x y : Resource) :
    ((r.append x).append y).Reflects (log ++ [x, y]) := by
  rw [List.append_cons]
  exact (h.append x).append y

theorem Reflects.alike_pair (h : r.Reflects log) (hne : (x.source == y.source) = false) :
    ((r.append x).append y).Alike ((r.append y).append x) := by
  have hxy := h.append_pair x y
  have hyx := h.append_pair y x
  have hperm : (log ++ [x, y]).Perm (log ++ [y, x]) := (List.Perm.swap y x []).append_left log
  have hregistration : ((r.append x).append y).registration.Perm
      ((r.append y).append x).registration := by
    rw [hxy.registration, hyx.registration]
    exact log.sources_pair_perm hne
  have hsize : ((r.append x).append y).size = ((r.append y).append x).size := by
    rw [hxy.size, hyx.size, hperm.length_eq]
  have hsuggest : ∀ base, ((r.append x).append y).suggestName base =
      ((r.append y).append x).suggestName base := by
    intro base
    rw [suggestName, suggestName, applicationNames, applicationNames, hxy.inSource, hyx.inSource,
      log.inSource_pair hne]
  exact {
    canCreate := rfl
    checkName := fun alive s name => checkName_congr fun _ => by
      rw [hxy.verdict, hyx.verdict, Log.verdict_perm hperm]
    suggestName := hsuggest
    suggestNameForType := fun type => hsuggest type.name
    suggestNameForProperty := fun p => by
      simp only [suggestNameForProperty, suggestNameForType, hsuggest]
    size := hsize
    isEmpty := by rw [isEmpty, isEmpty, hsize]
    sourceCount := hregistration.length_eq
    prune := fun alive => by
      simp only [Registry.prune, hregistration.length_eq,
        (hregistration.filter fun s => s.isReachable alive).length_eq] }

/-- What is offered for a property follows the listing. The order shows if the property accepts
both. -/
theorem resourcesForProperty_swapped {r' : Registry} {t : Target}
    (h : Swapped x y (r.resourcesFor t) (r'.resourcesFor t)) (p : Property) :
    if p.accepts x.value ∧ p.accepts y.value then
      ∃ l l', Swapped x y l l' ∧ r.resourcesForProperty t p = .ok l ∧
        r'.resourcesForProperty t p = .ok l'
    else r.resourcesForProperty t p = r'.resourcesForProperty t p := by
  cases hp : p.type? with
  | none =>
    rw [Property.accepts_of_event hp, if_neg (by simp), (refused_of_event hp r t).1,
      (refused_of_event hp r' t).1]
  | some declared =>
    rw [resourcesForProperty_of_type hp, resourcesForProperty_of_type hp]
    split
    · next hboth => exact ⟨_, _, h.filter hboth.1 hboth.2, rfl, rfl⟩
    · next hboth => exact congrArg Except.ok (h.filter_eq hboth)

end Registry

namespace Session

/-- Two creations that are allowed, in different sources, may be done in either order. No query
tells afterwards which was first, unless both sources are shared, of one kind and were not
registered. Then the listings show it, by the order of the two resources and by nothing else. -/
theorem independent_creations_commute (handles : Handles) (origin : Registry.Origin) (ops : List Op)
    {a b : Source} {m n : String} (v w : Value)
    (hcan : ((opened handles origin).run ops).registry.canCreate)
    (hm : isBlankName m = false) (hn : isBlankName n = false)
    (ha : a.isReachable ((opened handles origin).run ops).alive)
    (hb : b.isReachable ((opened handles origin).run ops).alive) (hne : (a == b) = false) :
    let s := (opened handles origin).run ops
    let r := s.registry
    let x : Resource := ⟨a, m, v⟩
    let y : Resource := ⟨b, n, w⟩
    let rxy := (r.append x).append y
    let ryx := (r.append y).append x
    (r.create s.alive a m v = .ok (x, r.append x) ∧
      (r.append x).create s.alive b n w = .ok (y, rxy)) ∧
    (r.create s.alive b n w = .ok (y, r.append y) ∧
      (r.append y).create s.alive a m v = .ok (x, ryx)) ∧
    rxy.Alike ryx ∧
    (¬Source.Rivals r.registration a b → ∀ t, rxy.resourcesFor t = ryx.resourcesFor t ∧
      ∀ p, rxy.resourcesForProperty t p = ryx.resourcesForProperty t p) ∧
    (Source.Rivals r.registration a b → ∀ t, rxy.resourcesFor t ≠ ryx.resourcesFor t ∧
      Swapped x y (rxy.resourcesFor t) (ryx.resourcesFor t) ∧
      ∀ p, if p.accepts v ∧ p.accepts w then
          ∃ l l', Swapped x y l l' ∧ rxy.resourcesForProperty t p = .ok l ∧
            ryx.resourcesForProperty t p = .ok l'
        else rxy.resourcesForProperty t p = ryx.resourcesForProperty t p) := by
  intro s r x y rxy ryx
  have h : r.Reflects s.log := opened_reflects handles origin ops
  have hxy : rxy.Reflects (s.log ++ [x, y]) := h.append_pair x y
  have hyx : ryx.Reflects (s.log ++ [y, x]) := h.append_pair y x
  refine ⟨⟨?_, ?_⟩, ⟨?_, ?_⟩, h.alike_pair hne, fun hrivals t => ?_, fun hrivals t => ?_⟩
  · exact Registry.create_eq_ok_iff.mpr ⟨⟨hcan, hm, ha⟩, rfl, rfl⟩
  · exact Registry.create_eq_ok_iff.mpr ⟨⟨hcan, hn, hb⟩, rfl, rfl⟩
  · exact Registry.create_eq_ok_iff.mpr ⟨⟨hcan, hn, hb⟩, rfl, rfl⟩
  · exact Registry.create_eq_ok_iff.mpr ⟨⟨hcan, hm, ha⟩, rfl, rfl⟩
  · rw [h.registration] at hrivals
    have hlisting : rxy.resourcesFor t = ryx.resourcesFor t := by
      rw [hxy.resourcesFor, hyx.resourcesFor, Log.resourcesFor_pair hne hrivals]
    exact ⟨hlisting, Registry.resourcesForProperty_congr hlisting⟩
  · rw [h.registration] at hrivals
    have hlisting : Swapped x y (rxy.resourcesFor t) (ryx.resourcesFor t) := by
      rw [hxy.resourcesFor, hyx.resourcesFor]
      exact Log.resourcesFor_rivals hne hrivals t
    have hdiffer : x ≠ y := by
      intro heq
      have hsource : a = b := congrArg Resource.source heq
      rw [hsource, BEq.rfl] at hne
      cases hne
    exact ⟨hlisting.ne hdiffer, hlisting, Registry.resourcesForProperty_swapped hlisting⟩

/-- A button with a margin. -/
def padded : List Op :=
  [.handles (.create "button" "Button"), .create (.ofTarget ⟨0, "Button"⟩) "Margin" (.flag true)]

/-- It does not matter whether the button or a window gets its title first. If two windows get
theirs, they are listed in that order. -/
theorem independent_creations_commute_windows :
    let button : Target := ⟨0, "Button"⟩
    let main : Source := .shared .document "Main"
    let popup : Source := .shared .document "Popup"
    let s := (opened .empty .builtin).run padded
    let r := s.registry
    let own : Resource := ⟨.ofTarget button, "Title", .text "OK"⟩
    let x : Resource := ⟨main, "Title", .text "Editor"⟩
    let y : Resource := ⟨popup, "Title", .text "Help"⟩
    (r.canCreate ∧ isBlankName "Title" = false ∧ own.source.isReachable s.alive ∧
        main.isReachable s.alive ∧ popup.isReachable s.alive ∧ (own.source == main) = false ∧
        (main == popup) = false) ∧
      ((r.append own).append x).resourcesFor button =
        ((r.append x).append own).resourcesFor button ∧
      Source.Rivals r.registration main popup ∧
      Swapped x y (((r.append x).append y).resourcesFor button)
        (((r.append y).append x).resourcesFor button) := by
  intro button main popup s r own x y
  have hcan : r.canCreate := rfl
  have hname : isBlankName "Title" = false := by decide
  have hown : own.source.isReachable s.alive := by decide
  have hne : (own.source == main) = false := by decide
  have hne' : (main == popup) = false := by decide
  have hrivals : Source.Rivals r.registration main popup := by
    rw [(opened_reflects .empty .builtin padded).registration]
    exact ⟨rfl, nofun, by decide, by decide⟩
  obtain ⟨_, _, _, hlisting, _⟩ := independent_creations_commute .empty .builtin padded
    (.text "OK") (.text "Editor") hcan hname hname hown rfl hne
  obtain ⟨_, _, _, _, hswapped⟩ := independent_creations_commute .empty .builtin padded
    (.text "Editor") (.text "Help") hcan hname hname rfl rfl hne'
  refine ⟨⟨hcan, hname, hown, rfl, rfl, hne, hne'⟩, ?_, hrivals, (hswapped hrivals button).2.1⟩
  exact (hlisting (fun h => nomatch h.kind) button).1

end Session

end ScopedResources
