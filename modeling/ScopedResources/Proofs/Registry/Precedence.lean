import ScopedResources.Proofs.Registry.Suggestions

/-! # Names that come first

A checked creation that denies overrides goes ahead only if the verdict is clear: neither its source
nor a less specific kind holds the name. What is in a shared source stays there. So if nothing else puts
resources in, then of two resources of one name in sources of different kinds the one in the more
specific source was created first. -/

namespace ScopedResources

theorem OverridePolicy.permits_deny {v : Verdict} : deny.permits v ↔ v = .clear := by
  cases v <;> simp [permits]

theorem Log.verdict_ne_clear_of_mem {log : Log} {x : Resource} {s : Source} (hx : x ∈ log)
    (hkind : x.source.kind ∈ s.kind.lessSpecific) : log.verdict s x.name ≠ .clear := by
  have hheld : s.kind.lessSpecific.any fun k => log.kindHoldsName k x.name :=
    List.any_eq_true.mpr ⟨_, hkind, List.any_eq_true.mpr ⟨x, hx, by simp⟩⟩
  rw [verdict, if_pos hheld]
  split <;> decide

theorem Source.isReachable_of_kind {s : Source} (h : s.kind ≠ .object) (alive : Liveness) :
    s.isReachable alive := by
  cases s with
  | shared scope name => rfl
  | ofTarget owner => exact absurd rfl h

/-- Under denial a resource is created exactly if nothing at all stands against it. -/
theorem Registry.Reflects.createChecked_deny_iff {alive : Liveness} {r r' : Registry} {log : Log}
    (h : r.Reflects log) {s : Source} {name : String} {v : Value} {x : Resource}
    {warning : Option String} :
    r.createChecked alive s name v .deny = .ok (.created x warning, r') ↔
      (r.canCreate ∧ isBlankName name = false ∧ s.isReachable alive) ∧ log.verdict s name = .clear ∧
        x = ⟨s, name, v⟩ ∧ warning = none ∧ r' = r.append ⟨s, name, v⟩ := by
  rw [← h.verdict]
  constructor
  · intro hc
    obtain ⟨hcreate, hpermits, hwarning⟩ := createChecked_created hc
    obtain ⟨hallowed, hx, hr⟩ := create_eq_ok_iff.mp hcreate
    have hclear := OverridePolicy.permits_deny.mp hpermits
    rw [hclear] at hwarning
    exact ⟨hallowed, hclear, hx, hwarning, hr⟩
  · rintro ⟨hallowed, hclear, rfl, rfl, rfl⟩
    have hcreate : r.create alive s name v = .ok (⟨s, name, v⟩, r.append ⟨s, name, v⟩) :=
      create_eq_ok_iff.mpr ⟨hallowed, rfl, rfl⟩
    rw [createChecked_of_create hcreate (OverridePolicy.permits_deny.mpr hclear), hclear]
    rfl

namespace Session

variable {s : Session} {ops : List Op} {i j : Nat} {x y : Resource}

/-! ## When resources are put in -/

/-- The operation with this number puts the resource in. -/
def PutIn (s : Session) (ops : List Op) (i : Nat) (x : Resource) : Prop :=
  ∃ op, ops[i]? = some op ∧ x ∈ (s.run (ops.take i)).entered op

/-- What a creation puts in is what it reports as created. -/
theorem mem_entered_iff {op : Op} {source : Source} (hop : op.source? = some source) :
    x ∈ s.entered op ↔ ∃ warning, s.outcome? op = some (.ok (.created x warning)) := by
  rw [entered_of_source hop]
  rcases s.outcome? op with _ | e | ⟨y, warning⟩ | verdict <;>
    simp [Except.toOption, Outcome.created?, eq_comm]

theorem mem_log_of_entered {op : Op} (hx : x ∈ s.entered op) : x ∈ (s.step op).log := by
  rcases s.log_step op with hlog | ⟨_, hnone⟩
  · rw [hlog]
    exact List.mem_append_right _ hx
  · rw [hnone] at hx
    cases hx

/-- What is in the log at the end was there at the start or has been put in. -/
theorem exists_putIn (hx : x ∈ (s.run ops).log) : x ∈ s.log ∨ ∃ i, s.PutIn ops i x := by
  induction ops generalizing s with
  | nil => exact .inl hx
  | cons op ops ih =>
    have hstep : x ∈ (s.step op).log → x ∈ s.log ∨ x ∈ s.entered op := by
      rcases s.log_step op with hlog | ⟨hlog, _⟩ <;> rw [hlog]
      · exact List.mem_append.mp
      · exact fun h => .inl (List.mem_filter.mp h).1
    rcases ih hx with hx | ⟨i, hi⟩
    · exact (hstep hx).imp_right fun hentered => ⟨0, op, rfl, hentered⟩
    · exact .inr ⟨i + 1, hi⟩

/-- What is in a shared source stays there. -/
theorem mem_log_run (hx : x ∈ s.log) (hkind : x.source.kind ≠ .object) (ops : List Op) :
    x ∈ (s.run ops).log := by
  induction ops generalizing s with
  | nil => exact hx
  | cons op ops ih =>
    refine ih (s := s.step op) ?_
    rcases s.log_step op with hlog | ⟨hlog, _⟩ <;> rw [hlog]
    · exact List.mem_append_left _ hx
    · exact List.mem_filter.mpr ⟨hx, Source.isReachable_of_kind hkind s.alive⟩

/-- The operations up to a later one go through this one. -/
theorem run_take_of_lt (s : Session) {op : Op} (hop : ops[i]? = some op) (hij : i < j) :
    s.run (ops.take j) = ((s.run (ops.take i)).step op).run ((ops.take j).drop (i + 1)) := by
  have htake : (ops.take j).take (i + 1) = ops.take i ++ [op] := by
    rw [List.take_take, Nat.min_eq_left hij, List.take_add_one, hop, Option.toList_some]
  calc
    s.run (ops.take j) = s.run ((ops.take i ++ [op]) ++ (ops.take j).drop (i + 1)) := by
      rw [← htake, List.take_append_drop]
    _ = ((s.run (ops.take i)).step op).run ((ops.take j).drop (i + 1)) := by
      rw [run_append, run_append]
      rfl

/-- What has been put into a shared source is there at each later operation. -/
theorem PutIn.mem_log (hx : s.PutIn ops i x) (hkind : x.source.kind ≠ .object) (hij : i < j) :
    x ∈ (s.run (ops.take j)).log := by
  obtain ⟨op, hop, hentered⟩ := hx
  rw [s.run_take_of_lt hop hij]
  exact mem_log_run (mem_log_of_entered hentered) hkind _

/-! ## Denial -/

/-- Whatever is put in is put in by a checked creation that denies overrides. -/
def OnlyUnderDenial (s : Session) (ops : List Op) : Prop :=
  ∀ i x, s.PutIn ops i x → ∃ source name v, ops[i]? = some (.createChecked source name v .deny)

/-- The operation puts nothing in, or is a checked creation that denies overrides. -/
def Op.deniesOverrides : Op → Bool
  | .createChecked _ _ _ policy => policy == .deny
  | .seed _ | .create _ _ _ => false
  | .handles _ | .setCanCreate _ | .prune => true

theorem onlyUnderDenial_of_forall (h : ∀ op ∈ ops, op.deniesOverrides) : s.OnlyUnderDenial ops := by
  rintro i x ⟨op, hop, hx⟩
  have hdenies := h op (List.mem_of_getElem? hop)
  cases op with
  | createChecked source name v policy =>
    obtain rfl : policy = .deny := eq_of_beq hdenies
    exact ⟨source, name, v, hop⟩
  | seed _ | create _ _ _ => cases hdenies
  | handles _ | setCanCreate _ | prune => cases hx

/-- A checked creation under denial puts in a resource whose verdict is clear, without a warning. -/
theorem outcome?_deny (hs : s.registry.Reflects s.log) {source : Source} {name : String} {v : Value}
    {warning : Option String}
    (h : s.outcome? (.createChecked source name v .deny) = some (.ok (.created x warning))) :
    s.log.verdict source name = .clear ∧ x = ⟨source, name, v⟩ ∧ warning = none := by
  rw [outcome?] at h
  cases hc : s.registry.createChecked s.alive source name v .deny with
  | error e =>
    rw [hc] at h
    cases h
  | ok outcome =>
    obtain ⟨outcome, r⟩ := outcome
    rw [hc] at h
    cases h
    obtain ⟨_, hclear, hx, hwarning, _⟩ := hs.createChecked_deny_iff.mp hc
    exact ⟨hclear, hx, hwarning⟩

/-- A creation under denial that nothing stands against goes ahead. -/
theorem step_deny (hs : s.registry.Reflects s.log) {source : Source} {name : String} (v : Value)
    (hallowed : s.registry.canCreate ∧ isBlankName name = false ∧ source.isReachable s.alive)
    (hclear : s.log.verdict source name = .clear) :
    s.step (.createChecked source name v .deny) = s.grow ⟨source, name, v⟩ := by
  rw [step, Registry.createCheckedM_eq_createChecked,
    hs.createChecked_deny_iff.mpr ⟨hallowed, hclear, rfl, rfl, rfl⟩]
  rfl

namespace OnlyUnderDenial

variable (hdeny : s.OnlyUnderDenial ops) (hs : s.registry.Reflects s.log)
include hdeny hs

theorem putIn (hx : s.PutIn ops i x) :
    ops[i]? = some (.createChecked x.source x.name x.value .deny) ∧
      (s.run (ops.take i)).log.verdict x.source x.name = .clear := by
  obtain ⟨source, name, v, hdenied⟩ := hdeny i x hx
  obtain ⟨op, hop, hentered⟩ := hx
  cases hop.symm.trans hdenied
  obtain ⟨warning, houtcome⟩ := (mem_entered_iff rfl).mp hentered
  obtain ⟨hclear, rfl, _⟩ := outcome?_deny (run_reflects hs _) houtcome
  exact ⟨hdenied, hclear⟩

theorem warning_eq_none {op : Op} {warning : Option String} (hop : ops[i]? = some op)
    (h : (s.run (ops.take i)).outcome? op = some (.ok (.created x warning))) : warning = none := by
  have hcreates : ∃ source, op.source? = some source := by
    cases op with
    | create source _ _ | createChecked source _ _ _ => exact ⟨source, rfl⟩
    | handles _ | seed _ | setCanCreate _ | prune => cases h
  obtain ⟨_, hsource⟩ := hcreates
  obtain ⟨source, name, v, hdenied⟩ :=
    hdeny i x ⟨op, hop, (mem_entered_iff hsource).mpr ⟨warning, h⟩⟩
  cases hop.symm.trans hdenied
  exact (outcome?_deny (run_reflects hs _) h).2.2

/-- What is put into a less specific source under the same name is put in later. -/
theorem lt (hx : s.PutIn ops i x) (hy : s.PutIn ops j y) (hname : x.name = y.name)
    (hkind : y.source.kind ∈ x.source.kind.lessSpecific) : i < j := by
  obtain ⟨hxop, hclear⟩ := hdeny.putIn hs hx
  by_contra hlt
  rcases Nat.eq_or_lt_of_le (Nat.le_of_not_lt hlt) with rfl | hji
  · -- One operation puts in one resource.
    have hsame := hxop.symm.trans (hdeny.putIn hs hy).1
    simp only [Option.some.injEq, Op.createChecked.injEq] at hsame
    rw [hsame.1, SourceKind.mem_lessSpecific] at hkind
    exact Nat.lt_irrefl _ hkind
  · -- The other one would have been there, and stood against it.
    have hthere := hy.mem_log (SourceKind.ne_object_of_mem_lessSpecific hkind) hji
    exact Log.verdict_ne_clear_of_mem hthere hkind (hname ▸ hclear)

end OnlyUnderDenial

/-- If nothing is put in but by checked creations that deny overrides, no creation comes with a
warning. Of two resources of one name that are there at the same time, in sources of different kinds,
the one in the more specific source was put in first. -/
theorem more_specific_comes_first (ops : List Op) (hdeny : start.OnlyUnderDenial ops) :
    (∀ i op x warning, ops[i]? = some op →
      (start.run (ops.take i)).outcome? op = some (.ok (.created x warning)) → warning = none) ∧
    ∀ a b x y, x ∈ (start.run ops).registry.inSource a → y ∈ (start.run ops).registry.inSource b →
      x.name = y.name → a.kind ≠ b.kind →
        (∃ i, start.PutIn ops i x) ∧ (∃ j, start.PutIn ops j y) ∧
          ∀ i j, start.PutIn ops i x → start.PutIn ops j y →
            (i < j ↔ b.kind ∈ a.kind.lessSpecific) := by
  have hstart : start.registry.Reflects start.log := Registry.reflects_empty
  have hput : ∀ s x, x ∈ (start.run ops).registry.inSource s →
      x.source.kind = s.kind ∧ ∃ i, start.PutIn ops i x := by
    intro s x hx
    rw [(run_reflects hstart ops).inSource] at hx
    obtain ⟨hlog, hsource⟩ := List.mem_filter.mp hx
    exact ⟨Source.kind_congr hsource, (exists_putIn hlog).resolve_left List.not_mem_nil⟩
  refine ⟨fun i op x warning hop h => hdeny.warning_eq_none hstart hop h, ?_⟩
  intro a b x y hx hy hname hkinds
  obtain ⟨hxa, hxput⟩ := hput a x hx
  obtain ⟨hyb, hyput⟩ := hput b y hy
  refine ⟨hxput, hyput, fun i j hi hj => ⟨fun hlt => ?_, fun hkind => ?_⟩⟩
  · -- Otherwise the other one would be the more specific one, and so the first.
    by_contra hkind
    have hother := SourceKind.mem_lessSpecific_of_not_mem hkinds hkind
    have := hdeny.lt hstart hj hi hname.symm (by rwa [hxa, hyb])
    omega
  · exact hdeny.lt hstart hi hj hname (by rwa [hxa, hyb])

/-- A button gets an accent, and then the application. -/
def layering : List Op :=
  [.handles (.create "button" "Button"),
    .createChecked (.ofTarget ⟨0, "Button"⟩) "Accent" (.flag true) .deny,
    .createChecked .application "Accent" (.flag false) .deny, .prune]

/-- Both are there, and that of the button came first. -/
theorem more_specific_comes_first_layering :
    let own : Resource := ⟨.ofTarget ⟨0, "Button"⟩, "Accent", .flag true⟩
    let shared : Resource := ⟨.application, "Accent", .flag false⟩
    let r := (start.run layering).registry
    start.OnlyUnderDenial layering ∧ own ∈ r.inSource own.source ∧
      shared ∈ r.inSource shared.source ∧
      ∃ i j, start.PutIn layering i own ∧ start.PutIn layering j shared ∧ i < j := by
  intro own shared r
  have hdeny : start.OnlyUnderDenial layering := onlyUnderDenial_of_forall (by decide)
  have hstart : start.registry.Reflects start.log := Registry.reflects_empty
  let opened := start.step (.handles (.create "button" "Button"))
  have hopened : opened.registry.Reflects opened.log := hstart
  have hown : opened.step (.createChecked own.source own.name own.value .deny) = opened.grow own :=
    step_deny hopened own.value (by decide) (by decide)
  have hshared : (opened.grow own).step
      (.createChecked shared.source shared.name shared.value .deny) = (opened.grow own).grow shared :=
    step_deny (hopened.append own) shared.value (by decide) (by decide)
  have hrun : start.run layering = ((opened.grow own).grow shared).step .prune := by
    rw [← hshared, ← hown]
    rfl
  have hlog : (start.run layering).log = [own, shared] := by
    rw [hrun]
    rfl
  have hreflects : r.Reflects [own, shared] := hlog ▸ run_reflects hstart layering
  have hin : own ∈ r.inSource own.source ∧ shared ∈ r.inSource shared.source := by
    rw [hreflects.inSource, hreflects.inSource]
    exact ⟨List.mem_cons_self, List.mem_cons_self⟩
  obtain ⟨_, hfirst⟩ := more_specific_comes_first layering hdeny
  obtain ⟨⟨i, hi⟩, ⟨j, hj⟩, horder⟩ := hfirst _ _ own shared hin.1 hin.2 rfl (by decide)
  exact ⟨hdeny, hin.1, hin.2, i, j, hi, hj, (horder i j hi hj).mpr (by decide)⟩

end Session

end ScopedResources
