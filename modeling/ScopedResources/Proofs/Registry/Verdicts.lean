import ScopedResources.Proofs.Registry.Agreement
import ScopedResources.Proofs.Registry.Session
import ScopedResources.Proofs.Service.Handling

/-! # Verdicts and listings

The check of a name and the listing of a target go through the registry in different ways: the check
looks into one source and then through the less specific kinds, the listing goes through all sources
that the target sees. They agree all the same, because less specific sources are shared. So the verdict
can be read off what any target that sees the source is shown. -/

namespace ScopedResources

/-- The verdict on a name in a source that can be read off a listing. -/
def Verdict.ofListing (shown : List Resource) (s : Source) (name : String) : Verdict :=
  if shown.any fun x => x.name == name && x.source == s then .nameInUse
  else if shown.any fun x => x.name == name && decide (x.source.kind.listingRank < s.kind.listingRank)
    then .wouldOverride
  else .clear

namespace Verdict

/-- Which of the three verdicts it is. -/
theorem ofListing_iff (shown : List Resource) (s : Source) (name : String) :
    let clashes := ∃ x ∈ shown, x.name = name ∧ x.source == s
    let overrides := ∃ x ∈ shown, x.name = name ∧ x.source.kind.listingRank < s.kind.listingRank
    (ofListing shown s name = .nameInUse ↔ clashes) ∧
      (ofListing shown s name = .wouldOverride ↔ ¬clashes ∧ overrides) ∧
      (ofListing shown s name = .clear ↔ ¬clashes ∧ ¬overrides) := by
  intro clashes overrides
  have hclashes : (shown.any fun x => x.name == name && x.source == s) = true ↔ clashes := by
    simp [clashes]
  have hoverrides : (shown.any fun x => x.name == name &&
      decide (x.source.kind.listingRank < s.kind.listingRank)) = true ↔ overrides := by
    simp [overrides]
  rw [← hclashes, ← hoverrides, ofListing]
  split
  · next h => simp [h, nameInUse, wouldOverride]
  · next h => split <;> next h' => simp [h, h', nameInUse, wouldOverride]

end Verdict

/-- All targets see the less specific sources. -/
theorem Source.concerns_of_lessSpecific {s : Source} {k : SourceKind} (t : Target)
    (h : s.kind ∈ k.lessSpecific) : s.concerns t := by
  simp [concerns, SourceKind.ne_object_of_mem_lessSpecific h]

namespace Log

variable {log : Log} {t : Target} {s : Source} {name : String}

theorem any_resourcesFor (log : Log) (t : Target) (p : Resource → Bool) :
    (log.resourcesFor t).any p = log.any fun x => x.source.concerns t && p x := by
  rw [(log.resourcesFor_perm t).any_eq, List.any_filter]

/-- The source itself is among those that the target sees. -/
theorem any_resourcesFor_source (log : Log) (hs : s.concerns t) (name : String) :
    ((log.resourcesFor t).any fun x => x.name == name && x.source == s) = log.holdsName s name := by
  rw [any_resourcesFor, holdsName]
  refine congrArg log.any (funext fun x => ?_)
  by_cases hx : x.source == s
  · simp [hx, Source.concerns_congr hx t, hs]
  · simp [hx]

theorem any_resourcesFor_kind (log : Log) (t : Target) (k : SourceKind) (name : String) :
    ((log.resourcesFor t).any fun x =>
        x.name == name && decide (x.source.kind.listingRank < k.listingRank)) =
      k.lessSpecific.any fun j => log.kindHoldsName j name := by
  rw [any_resourcesFor, Bool.eq_iff_iff]
  simp only [List.any_eq_true, kindHoldsName, Bool.and_eq_true, beq_iff_eq, decide_eq_true_eq]
  constructor
  · rintro ⟨x, hx, _, hname, hrank⟩
    exact ⟨x.source.kind, SourceKind.mem_lessSpecific.mpr hrank, x, hx, rfl, hname⟩
  · rintro ⟨j, hj, x, hx, rfl, hname⟩
    exact ⟨x, hx, Source.concerns_of_lessSpecific t hj, hname, SourceKind.mem_lessSpecific.mp hj⟩

/-- The verdict is the one that can be read off what a target is shown that sees the source. -/
theorem verdict_eq_ofListing (log : Log) (hs : s.concerns t) (name : String) :
    log.verdict s name = .ofListing (log.resourcesFor t) s name := by
  rw [verdict, Verdict.ofListing, log.any_resourcesFor_source hs, log.any_resourcesFor_kind]

end Log

namespace Session

/-- The verdict on a name that is not blank, in a source that some target sees that is there, agrees
with what this target is shown: the name is in use if it is shown in an equal source, it would override
another if it is shown in a less specific kind of source only, and else it is clear. Whoever asks for
the check gets this verdict. -/
theorem verdict_agrees_with_listing (ops : List Op) {t : Target} {source : Source} {name : String}
    (ht : (start.run ops).alive t) (hsource : source.isVisibleTo t)
    (hname : isBlankName name = false) :
    let s := start.run ops
    let shown := s.registry.resourcesFor t
    let clashes := ∃ x ∈ shown, x.name = name ∧ x.source == source
    let overrides := ∃ x ∈ shown,
      x.name = name ∧ x.source.kind.listingRank < source.kind.listingRank
    ∃ verdict, s.registry.checkName s.alive source name = .ok verdict ∧
      (verdict = .nameInUse ↔ clashes) ∧ (verdict = .wouldOverride ↔ ¬clashes ∧ overrides) ∧
      (verdict = .clear ↔ ¬clashes ∧ ¬overrides) ∧
      ∀ u, s.registry.perform s.alive (.checkName u source name) =
        (.ok (.verdict verdict), s.registry) := by
  intro s shown clashes overrides
  have h : s.registry.Reflects s.log := run_reflects Registry.reflects_empty ops
  have hconcerns : source.concerns t := (source.isVisibleTo_eq t).symm.trans hsource
  have hreachable := Source.isReachable_of_concerns s.handles.holds_consistent ht hconcerns
  have hverdict : s.registry.verdict source name = .ofListing shown source name := by
    rw [h.verdict, s.log.verdict_eq_ofListing hconcerns, ← h.resourcesFor]
  have hcheck : s.registry.checkName s.alive source name = .ok (.ofListing shown source name) :=
    Registry.checkName_eq_ok_iff.mpr ⟨⟨hname, hreachable⟩, hverdict.symm⟩
  obtain ⟨herror, hwarning, hclear⟩ := Verdict.ofListing_iff shown source name
  refine ⟨_, hcheck, herror, hwarning, hclear, fun u => ?_⟩
  rw [Registry.perform, hcheck]
  rfl

/-- The application and a button have an accent, and the button a margin. -/
def themed : List Op :=
  [.handles (.create "button" "Button"),
    .seed [⟨.ofTarget ⟨0, "Button"⟩, "Margin", .flag true⟩, ⟨.application, "Accent", .flag true⟩,
      ⟨.ofTarget ⟨0, "Button"⟩, "Accent", .flag false⟩]]

/-- In a document, an accent would override that of the application, whoever asks. -/
theorem verdict_agrees_with_listing_themed :
    let s := start.run themed
    s.alive ⟨0, "Button"⟩ ∧ Source.document.isVisibleTo ⟨0, "Button"⟩ ∧
      isBlankName "Accent" = false ∧
      s.registry.checkName s.alive .document "Accent" = .ok .wouldOverride := by
  intro s
  have ht : s.alive ⟨0, "Button"⟩ := by decide
  have hsource : Source.document.isVisibleTo ⟨0, "Button"⟩ := by decide
  have hname : isBlankName "Accent" = false := by decide
  obtain ⟨verdict, hcheck, _, hwarning, _⟩ := verdict_agrees_with_listing themed ht hsource hname
  have hshown : s.registry.resourcesFor ⟨0, "Button"⟩ = [⟨.application, "Accent", .flag true⟩,
      ⟨.ofTarget ⟨0, "Button"⟩, "Margin", .flag true⟩,
      ⟨.ofTarget ⟨0, "Button"⟩, "Accent", .flag false⟩] :=
    (run_reflects Registry.reflects_empty themed).resourcesFor ⟨0, "Button"⟩
  rw [hshown] at hwarning
  have hverdict : verdict = .wouldOverride := hwarning.mpr (by decide)
  exact ⟨ht, hsource, hname, hverdict ▸ hcheck⟩

end Session

end ScopedResources
