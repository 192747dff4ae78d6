import ScopedResources.Proofs.Registry.Listing

/-! # What a creation can come to

A plain creation succeeds exactly when it is allowed, the name may be used and the source is there,
and then it appends one resource. A checked one that creates has passed the check, and otherwise
changes nothing. All that can refuse a creation is asked before the registry is touched, so the registry
that a refused one leaves behind is the old one. -/

namespace ScopedResources.Registry

variable {alive : Liveness} {r r' : Registry} {s : Source} {name : String} {v : Value}

theorem canCreate_seed (r : Registry) (xs : List Resource) :
    (r.seed xs).canCreate = r.canCreate := by
  induction xs generalizing r with
  | nil => rfl
  | cons x xs ih => exact ih (r.append x)

theorem requireName_eq (name : String) :
    requireName name = if isBlankName name then .error .blankName else .ok () := rfl

theorem requireOwner_eq (alive : Liveness) (s : Source) : requireOwner alive s =
    if s.isReachable alive then .ok () else .error (.unreachableOwner s.name) := rfl

/-- The requirements are asked for in turn, and the registry grows only once all are met. -/
theorem createM_apply (alive : Liveness) (s : Source) (name : String) (v : Value) (r : Registry) :
    (createM alive s name v).apply r =
      if r.canCreate = false then (.error .creationDisabled, r)
      else if isBlankName name then (.error .blankName, r)
      else if s.isReachable alive = false then (.error (.unreachableOwner s.name), r)
      else (.ok ⟨s, name, v⟩, r.append ⟨s, name, v⟩) := by
  rw [createM, requireName_eq, requireOwner_eq]
  cases hcan : r.canCreate <;> cases isBlankName name <;> cases s.isReachable alive <;>
    simp [hcan, Except.map]

theorem createM_isClean (alive : Liveness) (s : Source) (name : String) (v : Value) :
    (createM alive s name v).IsClean := by
  intro r refusal r' h
  rw [createM_apply] at h
  cases hcan : r.canCreate <;> cases hname : isBlankName name <;>
    cases hsource : s.isReachable alive <;> simp_all

/-- A creation that is refused leaves the registry as it was. -/
theorem createM_eq_create (alive : Liveness) (s : Source) (name : String) (v : Value) (r : Registry) :
    (createM alive s name v).apply r = match r.create alive s name v with
      | .ok (x, r') => (.ok x, r')
      | .error refusal => (.error refusal, r) := by
  rw [(createM_isClean alive s name v).apply_eq, create]
  cases (createM alive s name v).result r <;> rfl

theorem create_eq_ok_iff {x : Resource} : r.create alive s name v = .ok (x, r') ↔
    (r.canCreate ∧ isBlankName name = false ∧ s.isReachable alive) ∧
      x = ⟨s, name, v⟩ ∧ r' = r.append ⟨s, name, v⟩ := by
  unfold create Edit.result
  rw [createM_apply]
  cases r.canCreate <;> cases isBlankName name <;> cases s.isReachable alive <;> simp [eq_comm]

theorem checkName_eq_ok_iff {verdict : Verdict} : r.checkName alive s name = .ok verdict ↔
    (isBlankName name = false ∧ s.isReachable alive) ∧ verdict = r.verdict s name := by
  unfold checkName requireName requireOwner
  cases isBlankName name <;> cases s.isReachable alive <;>
    simp [bind, Except.bind, pure, Except.pure, throw, throwThe, MonadExceptOf.throw, eq_comm]

/-- The first requirement that is not met is the one that is reported. -/
theorem create_eq_error_iff {e : RegistryError} : r.create alive s name v = .error e ↔
    r.canCreate = false ∧ e = .creationDisabled ∨
    r.canCreate ∧ isBlankName name ∧ e = .blankName ∨
    r.canCreate ∧ isBlankName name = false ∧ s.isReachable alive = false ∧
      e = .unreachableOwner s.name := by
  unfold create Edit.result
  rw [createM_apply]
  cases r.canCreate <;> cases isBlankName name <;> cases s.isReachable alive <;> simp [eq_comm]

theorem checkName_eq_error_iff {e : RegistryError} : r.checkName alive s name = .error e ↔
    isBlankName name ∧ e = .blankName ∨
    isBlankName name = false ∧ s.isReachable alive = false ∧ e = .unreachableOwner s.name := by
  unfold checkName requireName requireOwner
  cases isBlankName name <;> cases s.isReachable alive <;>
    simp [bind, Except.bind, pure, Except.pure, throw, throwThe, MonadExceptOf.throw, eq_comm]

variable {policy : OverridePolicy}

/-- The check comes first, and the registry grows only if the policy permits what it says. -/
theorem createCheckedM_apply (alive : Liveness) (s : Source) (name : String) (v : Value)
    (policy : OverridePolicy) (r : Registry) : (createCheckedM alive s name v policy).apply r =
      match r.checkName alive s name with
      | .error refusal => (.error refusal, r)
      | .ok verdict =>
        if policy.permits verdict then
          match r.create alive s name v with
          | .error refusal => (.error refusal, r)
          | .ok (x, r') => (.ok (.created x verdict.message?), r')
        else (.ok (.rejected verdict), r) := by
  simp only [createCheckedM, Edit.apply_bind, Edit.apply_get, Edit.apply_liftM]
  cases r.checkName alive s name with
  | error refusal => rfl
  | ok verdict =>
    dsimp only
    split
    · rw [Edit.apply_bind, createM_eq_create]
      cases r.create alive s name v <;> rfl
    · rfl

/-- A checked creation is a check and then, if the policy permits the verdict, a plain creation. -/
theorem createChecked_eq_bind (alive : Liveness) (r : Registry) (s : Source) (name : String)
    (v : Value) (policy : OverridePolicy) : r.createChecked alive s name v policy = do
      let verdict ← r.checkName alive s name
      if policy.permits verdict then
        let (x, r) ← r.create alive s name v
        return (.created x verdict.message?, r)
      else return (.rejected verdict, r) := by
  unfold createChecked Edit.result
  rw [createCheckedM_apply]
  cases r.checkName alive s name with
  | error refusal => rfl
  | ok verdict =>
    dsimp only [bind, Except.bind]
    cases policy.permits verdict with
    | false => rfl
    | true => cases r.create alive s name v <;> rfl

theorem createCheckedM_isClean (alive : Liveness) (s : Source) (name : String) (v : Value)
    (policy : OverridePolicy) : (createCheckedM alive s name v policy).IsClean := by
  intro r refusal r' h
  rw [createCheckedM_apply] at h
  split at h
  · cases h
    rfl
  · split at h
    · split at h <;> cases h
      rfl
    · cases h

/-- A checked creation that is refused leaves the registry as it was. -/
theorem createCheckedM_eq_createChecked (alive : Liveness) (s : Source) (name : String) (v : Value)
    (policy : OverridePolicy) (r : Registry) : (createCheckedM alive s name v policy).apply r =
      match r.createChecked alive s name v policy with
      | .ok (outcome, r') => (.ok outcome, r')
      | .error refusal => (.error refusal, r) := by
  rw [(createCheckedM_isClean alive s name v policy).apply_eq, createChecked]
  cases (createCheckedM alive s name v policy).result r <;> rfl

/-- A checked creation fails at the check, or because creation is disabled. -/
theorem createChecked_error {e : RegistryError}
    (h : r.createChecked alive s name v policy = .error e) :
    r.checkName alive s name = .error e ∨ r.canCreate = false ∧ e = .creationDisabled := by
  rw [createChecked_eq_bind] at h
  cases hv : r.checkName alive s name with
  | error f =>
    rw [hv] at h
    cases h
    exact .inl rfl
  | ok verdict =>
    obtain ⟨⟨hname, hsource⟩, _⟩ := checkName_eq_ok_iff.mp hv
    simp only [hv, bind, Except.bind] at h
    split at h
    · cases hc : r.create alive s name v with
      | ok created => simp [hc, pure, Except.pure] at h
      | error f =>
        rw [hc] at h
        cases h
        simpa [hname, hsource] using create_eq_error_iff.mp hc
    · cases h

theorem createChecked_created {x : Resource} {warning : Option String}
    (h : r.createChecked alive s name v policy = .ok (.created x warning, r')) :
    r.create alive s name v = .ok (x, r') ∧ policy.permits (r.verdict s name) ∧
      warning = (r.verdict s name).message? := by
  rw [createChecked_eq_bind] at h
  cases hv : r.checkName alive s name with
  | error e => simp [hv, bind, Except.bind] at h
  | ok verdict =>
    obtain ⟨_, rfl⟩ := checkName_eq_ok_iff.mp hv
    simp only [hv, bind, Except.bind] at h
    split at h
    · next hp =>
      cases hc : r.create alive s name v with
      | error e => simp [hc] at h
      | ok created =>
        simp only [hc, pure, Except.pure, Except.ok.injEq, Prod.mk.injEq, Outcome.created.injEq] at h
        obtain ⟨⟨rfl, rfl⟩, rfl⟩ := h
        exact ⟨rfl, hp, rfl⟩
    · simp [pure, Except.pure] at h

theorem createChecked_rejected {verdict : Verdict}
    (h : r.createChecked alive s name v policy = .ok (.rejected verdict, r')) : r' = r := by
  rw [createChecked_eq_bind] at h
  cases hv : r.checkName alive s name with
  | error e => simp [hv, bind, Except.bind] at h
  | ok verdict =>
    simp only [hv, bind, Except.bind] at h
    split at h
    · cases hc : r.create alive s name v <;> simp [hc, pure, Except.pure] at h
    · simp only [pure, Except.pure, Except.ok.injEq, Prod.mk.injEq] at h
      exact h.2.symm

/-- A checked creation that creates nothing leaves the registry as it was. -/
theorem createCheckedM_unchanged {answer : Except RegistryError Outcome}
    (h : (createCheckedM alive s name v policy).apply r = (answer, r'))
    (hnone : ∀ x warning, answer ≠ .ok (.created x warning)) : r' = r := by
  rw [createCheckedM_eq_createChecked] at h
  cases hc : r.createChecked alive s name v policy with
  | error refusal =>
    rw [hc] at h
    cases h
    rfl
  | ok checked =>
    obtain ⟨outcome, r₁⟩ := checked
    rw [hc] at h
    cases h
    cases outcome with
    | created x warning => exact absurd rfl (hnone x warning)
    | rejected verdict => exact createChecked_rejected hc

/-- A checked creation goes ahead if the policy permits the verdict. -/
theorem createChecked_of_create {x : Resource} (h : r.create alive s name v = .ok (x, r'))
    (hpermits : policy.permits (r.verdict s name)) : r.createChecked alive s name v policy =
      .ok (.created x (r.verdict s name).message?, r') := by
  obtain ⟨⟨_, hname, hsource⟩, _⟩ := create_eq_ok_iff.mp h
  have hcheck : r.checkName alive s name = .ok (r.verdict s name) :=
    checkName_eq_ok_iff.mpr ⟨⟨hname, hsource⟩, rfl⟩
  simp only [createChecked_eq_bind, hcheck, h, hpermits, bind, Except.bind, pure, Except.pure, if_true]

/-- A verdict that a policy permits is not that the name is in use. -/
theorem holdsName_of_permits (h : policy.permits (r.verdict s name)) : r.holdsName s name = false := by
  unfold verdict at h
  split at h
  · cases h
  · simpa using ‹¬r.holdsName s name›

end ScopedResources.Registry
