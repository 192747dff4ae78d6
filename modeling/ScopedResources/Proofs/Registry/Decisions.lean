import ScopedResources.Proofs.Registry.Session

/-! # What creations decide and what they change

A checked creation is decided by four questions in turn: may the name be used, is the source there,
does the policy permit the verdict, and is creation enabled. Whatever is not created leaves everything
as it was. What is created changes the verdicts on its own name only, in its own source and in the more
specific ones. -/

namespace ScopedResources

/-! ## The decision -/

theorem OverridePolicy.permits_eq_false_iff {policy : OverridePolicy} {v : Verdict} :
    policy.permits v = false ↔ v.isError ∨ v.isWarning ∧ policy = .deny := by
  cases v <;> cases policy <;> simp [permits, Verdict.isError, Verdict.isWarning]

/-- The text that comes with a verdict that a policy permits. -/
theorem Verdict.message?_of_permits {policy : OverridePolicy} {r : Registry} {s : Source}
    {name : String} (h : policy.permits (r.verdict s name)) : (r.verdict s name).message? =
      if (r.verdict s name).isWarning then wouldOverride.message? else none := by
  revert h
  unfold Registry.verdict
  split
  · exact nofun
  · split <;> exact fun _ => rfl

namespace Registry

variable {alive : Liveness} {r r' : Registry} {s : Source} {name : String} {v : Value}
  {policy : OverridePolicy}

/-- The questions in the order in which they are asked. -/
theorem createChecked_eq (alive : Liveness) (r : Registry) (s : Source) (name : String) (v : Value)
    (policy : OverridePolicy) : r.createChecked alive s name v policy =
      if isBlankName name then .error .blankName
      else if s.isReachable alive = false then .error (.unreachableOwner s.name)
      else if policy.permits (r.verdict s name) = false then .ok (.rejected (r.verdict s name), r)
      else if r.canCreate = false then .error .creationDisabled
      else .ok (.created ⟨s, name, v⟩ (r.verdict s name).message?, r.append ⟨s, name, v⟩) := by
  rw [createChecked_eq_bind, checkName, requireName_eq, requireOwner_eq, create, Edit.result,
    createM_apply]
  cases isBlankName name <;> cases s.isReachable alive <;>
    cases hpermits : policy.permits (r.verdict s name) <;> cases r.canCreate <;>
    simp [bind, Except.bind, pure, Except.pure, hpermits]

theorem createChecked_fails_iff : (∃ e, r.createChecked alive s name v policy = .error e) ↔
    isBlankName name ∨ s.isReachable alive = false ∨
      policy.permits (r.verdict s name) ∧ r.canCreate = false := by
  rw [createChecked_eq]
  cases isBlankName name <;> cases s.isReachable alive <;>
    cases policy.permits (r.verdict s name) <;> cases r.canCreate <;> simp

theorem createChecked_eq_rejected_iff {verdict : Verdict} :
    r.createChecked alive s name v policy = .ok (.rejected verdict, r') ↔
      (isBlankName name = false ∧ s.isReachable alive) ∧
        policy.permits (r.verdict s name) = false ∧ verdict = r.verdict s name ∧ r' = r := by
  rw [createChecked_eq]
  cases isBlankName name <;> cases s.isReachable alive <;>
    cases policy.permits (r.verdict s name) <;> cases r.canCreate <;> simp [eq_comm]

theorem createChecked_eq_created_iff {x : Resource} {warning : Option String} :
    r.createChecked alive s name v policy = .ok (.created x warning, r') ↔
      policy.permits (r.verdict s name) ∧ warning = (r.verdict s name).message? ∧
        r.create alive s name v = .ok (x, r') := by
  constructor
  · intro h
    obtain ⟨hcreate, hpermits, hwarning⟩ := createChecked_created h
    exact ⟨hpermits, hwarning, hcreate⟩
  · rintro ⟨hpermits, rfl, hcreate⟩
    exact createChecked_of_create hcreate hpermits

end Registry

namespace Session

/-- A checked creation fails exactly if the name is blank, the owner of the source is gone, or the
policy permits the verdict and creation is disabled. It is rejected exactly if name and source are
valid and the verdict is an error, or a warning under denial, whether or not creation is enabled. Else
it creates what was asked for, with the text of the warning if there is one, as a plain creation would.
No creation that fails or is rejected changes anything: the edit leaves the registry as it found it, and
so does the session. -/
theorem creations_decide_and_fail_cleanly (ops : List Op) (source : Source) (name : String)
    (v : Value) (policy : OverridePolicy) :
    let s := start.run ops
    let r := s.registry
    let verdict := r.verdict source name
    let valid := isBlankName name = false ∧ source.isReachable s.alive
    let refused := verdict.isError ∨ verdict.isWarning ∧ policy = .deny
    let result := r.createChecked s.alive source name v policy
    let plain := (Registry.createM s.alive source name v).apply r
    let checked := (Registry.createCheckedM s.alive source name v policy).apply r
    (valid → r.checkName s.alive source name = .ok verdict) ∧
      ((∃ e, result = .error e) ↔ isBlankName name ∨ source.isReachable s.alive = false ∨
        ¬refused ∧ r.canCreate = false) ∧
      (∀ v' r', result = .ok (.rejected v', r') ↔ valid ∧ refused ∧ v' = verdict ∧ r' = r) ∧
      (∀ x warning r', result = .ok (.created x warning, r') ↔
        (valid ∧ ¬refused ∧ r.canCreate) ∧ x = ⟨source, name, v⟩ ∧
          warning = (if verdict.isWarning then Verdict.wouldOverride.message? else none) ∧
          r.create s.alive source name v = .ok (x, r')) ∧
      (plain.1 = (r.create s.alive source name v).map (·.1) ∧
        ((∃ e, plain.1 = .error e) → plain.2 = r)) ∧
      (checked.1 = result.map (·.1) ∧
        ((∀ x warning, checked.1 ≠ .ok (.created x warning)) → checked.2 = r)) ∧
      ∀ op, op = .create source name v ∨ op = .createChecked source name v policy →
        (∀ x warning, s.outcome? op ≠ some (.ok (.created x warning))) → s.step op = s := by
  intro s r verdict valid refused result plain checked
  have hrefused : policy.permits verdict = false ↔ refused := OverridePolicy.permits_eq_false_iff
  have hpermits : policy.permits verdict ↔ ¬refused := by
    rw [← hrefused, Bool.not_eq_false]
  refine ⟨fun hvalid => Registry.checkName_eq_ok_iff.mpr ⟨hvalid, rfl⟩, ?_, ?_, ?_,
    ⟨Edit.fst_apply _ r, ?_⟩, ⟨Edit.fst_apply _ r, ?_⟩, ?_⟩
  · rw [← hpermits]
    exact Registry.createChecked_fails_iff
  · intro v' r'
    rw [← hrefused]
    exact Registry.createChecked_eq_rejected_iff
  · intro x warning r'
    rw [← hpermits]
    refine Registry.createChecked_eq_created_iff.trans ⟨?_, ?_⟩
    · rintro ⟨hp, rfl, hcreate⟩
      obtain ⟨⟨hcan, hvalid⟩, hx, _⟩ := Registry.create_eq_ok_iff.mp hcreate
      exact ⟨⟨hvalid, hp, hcan⟩, hx, Verdict.message?_of_permits hp, hcreate⟩
    · rintro ⟨⟨_, hp, _⟩, _, hwarning, hcreate⟩
      exact ⟨hp, hwarning.trans (Verdict.message?_of_permits hp).symm, hcreate⟩
  · rintro ⟨e, he⟩
    exact Registry.createM_isClean s.alive source name v (Prod.ext he rfl)
  · exact fun hnone => Registry.createCheckedM_unchanged rfl hnone
  · intro op hop hnone
    have hsource : op.source? = some source := by rcases hop with rfl | rfl <;> rfl
    rcases step_of_source hsource with ⟨hstep, _⟩ | ⟨x, warning, hcreated, _⟩
    · exact hstep
    · exact absurd hcreated (hnone x warning)

end Session

/-! ## The change -/

namespace Log

variable (log : Log) (x : Resource) (s : Source) (name : String)

theorem holdsName_concat : holdsName (log ++ [x]) s name =
    (log.holdsName s name || x.source == s && x.name == name) := by
  simp [holdsName, List.any_append]

theorem kindHoldsName_concat (k : SourceKind) : kindHoldsName (log ++ [x]) k name =
    (log.kindHoldsName k name || x.source.kind == k && x.name == name) := by
  simp [kindHoldsName, List.any_append]

theorem isError_verdict : (log.verdict s name).isError = log.holdsName s name := by
  unfold verdict
  split
  · next h => exact h.symm
  · next h => split <;> exact (Bool.eq_false_iff.mpr h).symm

/-- An entry puts its name in use in its own source. In the sources that are more specific it would be
overridden, unless the name is in use there. -/
theorem verdict_concat : verdict (log ++ [x]) s name =
    if x.source == s ∧ x.name = name then .nameInUse
    else if x.name = name ∧ x.source.kind.listingRank < s.kind.listingRank ∧
      (log.verdict s name).isError = false then .wouldOverride
    else log.verdict s name := by
  have hkinds : (s.kind.lessSpecific.any fun k => kindHoldsName (log ++ [x]) k name) =
      ((s.kind.lessSpecific.any fun k => log.kindHoldsName k name) ||
        decide (x.name = name ∧ x.source.kind.listingRank < s.kind.listingRank)) := by
    rw [Bool.eq_iff_iff]
    simp only [kindHoldsName_concat, List.any_eq_true, Bool.or_eq_true, Bool.and_eq_true, beq_iff_eq,
      decide_eq_true_eq, and_or_left, exists_or, ← SourceKind.mem_lessSpecific]
    refine or_congr_right ⟨?_, ?_⟩
    · rintro ⟨_, hk, rfl, hname⟩
      exact ⟨hname, hk⟩
    · rintro ⟨hname, hk⟩
      exact ⟨_, hk, rfl, hname⟩
  rw [isError_verdict, verdict, holdsName_concat, hkinds, verdict]
  by_cases hown : x.source == s ∧ x.name = name
  · simp [hown]
  · have hother : (x.source == s && x.name == name) = false := by simpa using hown
    rw [if_neg hown, hother, Bool.or_false]
    cases log.holdsName s name with
    | true => simp
    | false =>
      by_cases hover : x.name = name ∧ x.source.kind.listingRank < s.kind.listingRank <;>
        simp [hover]

end Log

namespace Session

theorem step_of_created {s : Session} {op : Op} {x : Resource} {warning : Option String}
    (h : s.outcome? op = some (.ok (.created x warning))) : s.step op = s.grow x := by
  have hcreates : ∃ source, op.source? = some source := by
    cases op with
    | create source _ _ | createChecked source _ _ _ => exact ⟨source, rfl⟩
    | handles _ | seed _ | setCanCreate _ | prune => cases h
  obtain ⟨source, hsource⟩ := hcreates
  rcases step_of_source hsource with ⟨_, hnone⟩ | ⟨y, warning', hsome, _, _, hstep⟩
  · exact absurd h (hnone x warning)
  · rw [h] at hsome
    cases hsome
    exact hstep

/-- A creation that succeeds changes the verdict on its own name alone. In its own source the name is
in use, and in a more specific one that does not hold the name it would override another resource. -/
theorem creation_changes_verdicts (ops : List Op) {op : Op} {x : Resource} {warning : Option String}
    (hcreated : (start.run ops).outcome? op = some (.ok (.created x warning))) {source : Source}
    {name : String} (hsource : source.isReachable (start.run ops).alive)
    (hname : isBlankName name = false) :
    let s := start.run ops
    let s' := s.step op
    ∃ before after, s.registry.checkName s.alive source name = .ok before ∧
      s'.registry.checkName s'.alive source name = .ok after ∧
      after = if x.source == source ∧ x.name = name then .nameInUse
        else if x.name = name ∧ x.source.kind.listingRank < source.kind.listingRank ∧
          before.isError = false then .wouldOverride
        else before := by
  intro s s'
  have h : s.registry.Reflects s.log := run_reflects Registry.reflects_empty ops
  have hgrown : s' = s.grow x := step_of_created hcreated
  have hbefore : s.registry.checkName s.alive source name = .ok (s.log.verdict source name) :=
    Registry.checkName_eq_ok_iff.mpr ⟨⟨hname, hsource⟩, (h.verdict source name).symm⟩
  have hafter : s'.registry.checkName s'.alive source name =
      .ok (Log.verdict (s.log ++ [x]) source name) := by
    rw [hgrown]
    exact Registry.checkName_eq_ok_iff.mpr
      ⟨⟨hname, hsource⟩, ((h.append x).verdict source name).symm⟩
  refine ⟨_, _, hbefore, hafter, ?_⟩
  exact s.log.verdict_concat x source name

/-- A button that holds a margin is there, and the application gets an accent. -/
theorem creation_changes_verdicts_accented :
    let button : Target := ⟨0, "Button"⟩
    let ops : List Op :=
      [.handles (.create "button" "Button"), .seed [⟨.ofTarget button, "Margin", .flag true⟩]]
    let s := start.run ops
    let op : Op := .create .application "Accent" (.flag true)
    let s' := s.step op
    s.outcome? op = some (.ok (.created ⟨.application, "Accent", .flag true⟩ none)) ∧
      (Source.ofTarget button).isReachable s.alive ∧ isBlankName "Accent" = false ∧
      s.registry.checkName s.alive (.ofTarget button) "Accent" = .ok .clear ∧
      s'.registry.checkName s'.alive (.ofTarget button) "Accent" = .ok .wouldOverride := by
  intro button ops s op s'
  have h : s.registry.Reflects s.log := run_reflects Registry.reflects_empty ops
  have hcreated : s.outcome? op = some (.ok (.created ⟨.application, "Accent", .flag true⟩ none)) :=
    rfl
  have hsource : (Source.ofTarget button).isReachable s.alive := by decide
  have hname : isBlankName "Accent" = false := by decide
  obtain ⟨before, after, hbefore, hafter, hchange⟩ :=
    creation_changes_verdicts ops hcreated hsource hname
  have hclear : before = .clear := by
    have := Registry.checkName_eq_ok_iff.mp hbefore
    rw [this.2, h.verdict]
    decide
  subst hclear
  have hoverride : after = .wouldOverride := hchange.trans (by decide)
  exact ⟨hcreated, hsource, hname, hbefore, hoverride ▸ hafter⟩

end Session

end ScopedResources
