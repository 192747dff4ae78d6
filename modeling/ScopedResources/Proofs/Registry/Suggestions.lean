import ScopedResources.Proofs.Registry.FreeNames
import ScopedResources.Proofs.Registry.Session

/-! # Suggestions

No name of an application resource is ever given up. So over a session the numbers of the names that
are suggested never go down, and go up once a name has been used. A name that has just been suggested
can be used at once. -/

namespace ScopedResources

/-- The resource that was created, if one was. -/
def Outcome.created? : Outcome → Option Resource
  | created x _ => some x
  | rejected _ => none

namespace Session

variable {s : Session} {base : String}

/-! ## What is put in -/

/-- The resources that an operation puts into the registry. -/
def entered (s : Session) : Op → List Resource
  | .seed resources => if resources.all fun x => x.source.isKnown s.handles then resources else []
  | op => ((s.outcome? op).bind fun outcome => outcome.toOption.bind Outcome.created?).toList

theorem entered_of_source {op : Op} {source : Source} (h : op.source? = some source) :
    s.entered op =
      ((s.outcome? op).bind fun outcome => outcome.toOption.bind Outcome.created?).toList := by
  cases op with
  | create _ _ _ | createChecked _ _ _ _ => rfl
  | handles _ | seed _ | setCanCreate _ | prune => cases h

/-- Apart from a prune, the log grows by what is put in. -/
theorem log_step (s : Session) (op : Op) :
    (s.step op).log = s.log ++ s.entered op ∨
      (s.step op).log = s.log.reachable s.alive ∧ s.entered op = [] := by
  cases hop : op.source? with
  | some source =>
    refine .inl ?_
    rw [entered_of_source hop]
    rcases step_of_source hop with ⟨he, hnone⟩ | ⟨x, warning, hsome, _, _, he⟩
    · rw [he]
      cases ho : s.outcome? op with
      | none => exact (List.append_nil _).symm
      | some outcome =>
        rcases outcome with e | ⟨x, warning⟩ | verdict
        · exact (List.append_nil _).symm
        · exact absurd ho (hnone x warning)
        · exact (List.append_nil _).symm
    · rw [he, hsome]
      rfl
  | none =>
    cases op with
    | create _ _ _ | createChecked _ _ _ _ => cases hop
    | handles step => exact .inl (List.append_nil _).symm
    | setCanCreate enabled => exact .inl (List.append_nil _).symm
    | prune => exact .inr ⟨rfl, rfl⟩
    | seed resources =>
      refine .inl ?_
      simp only [step, entered]
      split
      · rfl
      · exact (List.append_nil _).symm

/-- What is put into the application's source is put behind what is there, and stays. -/
theorem applicationNames_step (h : s.registry.Reflects s.log) (op : Op) :
    (s.step op).registry.applicationNames =
      s.registry.applicationNames ++ (Log.inSource (s.entered op) .application).map (·.name) := by
  rw [Registry.applicationNames, Registry.applicationNames, (step_reflects h op).inSource,
    h.inSource, ← List.map_append]
  rcases s.log_step op with he | ⟨he, hnone⟩
  · rw [he, Log.inSource, List.filter_append]
    rfl
  · have hkept : (s.log.reachable s.alive).inSource .application = s.log.inSource .application :=
      (Log.inSource_reachable s.handles.holds_consistent s.log .application).trans (if_pos rfl)
    rw [he, hnone, hkept]
    exact congrArg (List.map _) (List.append_nil _).symm

theorem applicationNames_run (h : s.registry.Reflects s.log) (ops : List Op) :
    s.registry.applicationNames ⊆ (s.run ops).registry.applicationNames := by
  induction ops generalizing s with
  | nil => exact List.Subset.refl _
  | cons op ops ih =>
    refine List.Subset.trans ?_ (ih (step_reflects h op))
    rw [applicationNames_step h op]
    exact List.subset_append_left ..

/-- A name that is put into the application's source is taken from then on. -/
theorem mem_applicationNames_of_entered (h : s.registry.Reflects s.log) {op : Op} {x : Resource}
    (hx : x ∈ s.entered op) (hsource : x.source == .application) (ops : List Op) :
    x.name ∈ ((s.step op).run ops).registry.applicationNames := by
  refine applicationNames_run (step_reflects h op) ops ?_
  rw [applicationNames_step h op]
  exact List.mem_append_right _ (List.mem_map_of_mem (List.mem_filter.mpr ⟨hx, hsource⟩))

end Session

/-! ## Using a suggestion -/

namespace Registry

variable {alive : Liveness} {r : Registry} {log : Log} {base : String}

/-- Some source of the kind holds the name. -/
theorem Reflects.kindHoldsName_iff (h : r.Reflects log) (k : SourceKind) (name : String) :
    r.kindHoldsName k name ↔ ∃ source : Source, source.kind = k ∧ r.holdsName source name := by
  rw [h.kindHoldsName, Log.kindHoldsName, List.any_eq_true]
  constructor
  · rintro ⟨x, hx, hboth⟩
    obtain ⟨hkind, hname⟩ := Bool.and_eq_true_iff.mp hboth
    refine ⟨x.source, beq_iff_eq.mp hkind, ?_⟩
    rw [h.holdsName, Log.holdsName, List.any_eq_true]
    exact ⟨x, hx, Bool.and_eq_true_iff.mpr ⟨BEq.rfl, hname⟩⟩
  · rintro ⟨source, hkind, hholds⟩
    rw [h.holdsName, Log.holdsName, List.any_eq_true] at hholds
    obtain ⟨x, hx, hboth⟩ := hholds
    obtain ⟨hsource, hname⟩ := Bool.and_eq_true_iff.mp hboth
    refine ⟨x, hx, Bool.and_eq_true_iff.mpr ⟨?_, hname⟩⟩
    rw [Source.kind_congr hsource, hkind, beq_self_eq_true]

/-- A resource can be created under the name that is suggested, unless creation is disabled. All that
can be said against it is that the name overrides one of the system's. -/
theorem createChecked_suggested (hallowed : r.canCreate) (hbase : isBlankName base = false)
    (alive : Liveness) (v : Value) :
    let name := numbered base (r.freeNumber base)
    let x : Resource := ⟨.application, name, v⟩
    r.createChecked alive .application name v .allow =
      .ok (.created x (if r.kindHoldsName .system name then Verdict.wouldOverride.message? else none),
        r.append x) := by
  intro name x
  have hfree : r.holdsName .application name = false := by
    rw [Bool.eq_false_iff, Ne, holdsName_application]
    exact (r.isLeast_freeNumber base).1.2
  have hverdict : r.verdict .application name =
      if r.kindHoldsName .system name then .wouldOverride else .clear := by
    rw [verdict, hfree]
    cases hsystem : r.kindHoldsName .system name <;>
      simp [Source.application, Source.kind, Scope.kind, SourceKind.lessSpecific,
        SourceKind.priority, SourceKind.byPriority, hsystem]
  have hcreate : r.create alive .application name v = .ok (x, r.append x) :=
    create_eq_ok_iff.mpr ⟨⟨hallowed, isBlankName_numbered hbase _, rfl⟩, rfl, rfl⟩
  have hpermits : OverridePolicy.allow.permits (r.verdict .application name) := by
    rw [hverdict]
    split <;> rfl
  rw [createChecked_of_create hcreate hpermits, hverdict]
  split <;> rfl

end Registry

namespace Session

variable {s : Session} {base : String}

/-- No operation disables creation. -/
def Op.leavesEnabled : Op → Bool
  | .setCanCreate enabled => enabled
  | _ => true

theorem canCreate_step (h : s.registry.canCreate) {op : Op} (hop : op.leavesEnabled) :
    (s.step op).registry.canCreate := by
  cases hsource : op.source? with
  | some source => rcases step_of_source hsource with ⟨he, _⟩ | ⟨_, _, _, _, _, he⟩ <;> rwa [he]
  | none =>
    cases op with
    | create _ _ _ | createChecked _ _ _ _ => cases hsource
    | handles _ | prune => exact h
    | setCanCreate enabled => exact hop
    | seed resources =>
      simp only [step]
      split
      · exact (Registry.canCreate_seed ..).trans h
      · exact h

theorem canCreate_run (h : s.registry.canCreate) {ops : List Op}
    (hops : ∀ op ∈ ops, op.leavesEnabled) : (s.run ops).registry.canCreate := by
  induction ops generalizing s with
  | nil => exact h
  | cons op ops ih =>
    exact ih (canCreate_step h (hops op List.mem_cons_self)) fun op hop =>
      hops op (List.mem_cons_of_mem _ hop)

/-! ## Suggestions over time -/

theorem freeNumber_run (h : s.registry.Reflects s.log) (ops : List Op) (base : String) :
    s.registry.freeNumber base ≤ (s.run ops).registry.freeNumber base :=
  Registry.freeNumber_mono (applicationNames_run h ops) base

/-- Once a resource has been put in under the name that was suggested, later names are suggested. -/
theorem freeNumber_lt_run (h : s.registry.Reflects s.log) (first rest : List Op) {op : Op}
    {x : Resource} (hx : x ∈ (s.run first).entered op) (hsource : x.source == .application)
    (hname : x.name = numbered base (s.registry.freeNumber base)) :
    s.registry.freeNumber base < (((s.run first).step op).run rest).registry.freeNumber base := by
  have hlater := applicationNames_run h (first ++ op :: rest)
  rw [run_append] at hlater
  refine Registry.freeNumber_lt hlater ?_
  rw [← hname]
  exact mem_applicationNames_of_entered (run_reflects h first) hx hsource rest

/-- Goes through rounds: other operations, a suggestion and the checked creation of a resource under
the name that is suggested. Gives the names under which resources were created. -/
def useSuggestions (base : String) (s : Session) : List (List Op × Value) → List String
  | [] => []
  | (ops, v) :: rounds =>
    let s := s.run ops
    match s.registry.suggestName base with
    | .error _ => s.useSuggestions base rounds
    | .ok name =>
      let op := Op.createChecked .application name v .allow
      (s.entered op).map (·.name) ++ (s.step op).useSuggestions base rounds

theorem useSuggestions_cons (hbase : isBlankName base = false) (ops : List Op) (v : Value)
    (rounds : List (List Op × Value)) :
    let name := numbered base ((s.run ops).registry.freeNumber base)
    let op := Op.createChecked .application name v .allow
    s.useSuggestions base ((ops, v) :: rounds) =
      ((s.run ops).entered op).map (·.name) ++ ((s.run ops).step op).useSuggestions base rounds := by
  intro name op
  rw [useSuggestions]
  dsimp only
  rw [Registry.suggestName_eq_ok _ hbase]

theorem entered_createChecked (s : Session) (source : Source) (name : String) (v : Value)
    (policy : OverridePolicy) : s.entered (.createChecked source name v policy) = [] ∨
      s.entered (.createChecked source name v policy) = [⟨source, name, v⟩] := by
  simp only [entered, outcome?]
  cases hc : s.registry.createChecked s.alive source name v policy with
  | error e => exact .inl rfl
  | ok outcome =>
    obtain ⟨⟨x, warning⟩ | verdict, r⟩ := outcome
    · obtain ⟨_, rfl, _⟩ := Registry.create_eq_ok_iff.mp (Registry.createChecked_created hc).1
      exact .inr rfl
    · exact .inl rfl

theorem entered_suggested (hallowed : s.registry.canCreate) (hbase : isBlankName base = false)
    (v : Value) : let name := numbered base (s.registry.freeNumber base)
    s.entered (.createChecked .application name v .allow) = [⟨.application, name, v⟩] := by
  intro name
  simp only [entered, outcome?, name]
  rw [Registry.createChecked_suggested hallowed hbase]
  rfl

/-- The names that are used have greater and greater numbers. -/
theorem useSuggestions_numbers (h : s.registry.Reflects s.log) (hbase : isBlankName base = false)
    (rounds : List (List Op × Value)) :
    ∃ numbers : List Nat, s.useSuggestions base rounds = numbers.map (numbered base) ∧
      numbers.Pairwise (· < ·) ∧ ∀ n ∈ numbers, s.registry.freeNumber base ≤ n := by
  induction rounds generalizing s with
  | nil => exact ⟨[], rfl, .nil, nofun⟩
  | cons round rounds ih =>
    obtain ⟨ops, v⟩ := round
    let k := (s.run ops).registry.freeNumber base
    let op := Op.createChecked .application (numbered base k) v .allow
    have hrun := run_reflects h ops
    obtain ⟨numbers, hnames, hordered, hbound⟩ := ih (step_reflects hrun op)
    have hle : s.registry.freeNumber base ≤ k := freeNumber_run h ops base
    have hstep : k ≤ ((s.run ops).step op).registry.freeNumber base :=
      freeNumber_run hrun [op] base
    rw [useSuggestions_cons hbase, hnames]
    rcases (s.run ops).entered_createChecked .application (numbered base k) v .allow with he | he
    · rw [he]
      exact ⟨numbers, rfl, hordered, fun n hn => hle.trans (hstep.trans (hbound n hn))⟩
    · -- The name has been used, so the rest have later numbers.
      have hused : ⟨.application, numbered base k, v⟩ ∈ (s.run ops).entered op := by
        rw [he]
        exact List.mem_cons_self
      have hlt := freeNumber_lt_run hrun [] [] hused BEq.rfl rfl
      rw [he]
      refine ⟨k :: numbers, rfl, List.pairwise_cons.mpr ⟨?_, hordered⟩, ?_⟩
      · intro n hn
        exact Nat.lt_of_lt_of_le hlt (hbound n hn)
      · intro n hn
        rcases List.mem_cons.mp hn with rfl | hn
        · exact hle
        · exact hle.trans (hstep.trans (hbound n hn))

/-- As long as creation is enabled every suggestion can be used. -/
theorem length_useSuggestions (hallowed : s.registry.canCreate) (hbase : isBlankName base = false)
    {rounds : List (List Op × Value)} (hrounds : ∀ round ∈ rounds, ∀ op ∈ round.1, op.leavesEnabled) :
    (s.useSuggestions base rounds).length = rounds.length := by
  induction rounds generalizing s with
  | nil => rfl
  | cons round rounds ih =>
    obtain ⟨ops, v⟩ := round
    have hrun := canCreate_run hallowed (hrounds _ List.mem_cons_self)
    let name := numbered base ((s.run ops).registry.freeNumber base)
    let op := Op.createChecked .application name v .allow
    have hop : op.leavesEnabled := rfl
    have hrest := ih (canCreate_step hrun hop) fun round hr =>
      hrounds round (List.mem_cons_of_mem _ hr)
    rw [useSuggestions_cons hbase, entered_suggested hrun hbase, List.length_append, hrest,
      List.length_cons, Nat.add_comm]
    rfl

/-- A name that is suggested later has no lesser number, and a greater one if the first suggestion has
been used since. As long as creation is enabled a suggestion can be used at once, with a warning if and
only if the system has the name; names that are suggested and used one after the other have greater
and greater numbers. -/
theorem suggestions_stay_fresh (earlier later : List Op) (hbase : isBlankName base = false) :
    let s := start.run earlier
    let t := s.run later
    ∃ k₁ k₂, s.registry.suggestName base = .ok (numbered base k₁) ∧
      t.registry.suggestName base = .ok (numbered base k₂) ∧ k₁ ≤ k₂ ∧
      ((∃ first op rest, later = first ++ op :: rest ∧ ∃ x ∈ (s.run first).entered op,
        x.source == .application ∧ x.name = numbered base k₁) → k₁ < k₂) ∧
      (s.registry.canCreate → ∀ v, ∃ warning,
        s.outcome? (.createChecked .application (numbered base k₁) v .allow) =
          some (.ok (.created ⟨.application, numbered base k₁, v⟩ warning)) ∧
        (warning.isSome ↔ ∃ source : Source,
          source.kind = .system ∧ s.registry.holdsName source (numbered base k₁))) ∧
      ∀ rounds, ∃ numbers : List Nat,
        s.useSuggestions base rounds = numbers.map (numbered base) ∧ numbers.Pairwise (· < ·) ∧
          (s.useSuggestions base rounds).Nodup ∧
          (s.registry.canCreate → (∀ round ∈ rounds, ∀ op ∈ round.1, op.leavesEnabled) →
            numbers.length = rounds.length) := by
  intro s t
  have h : s.registry.Reflects s.log := run_reflects Registry.reflects_empty earlier
  refine ⟨s.registry.freeNumber base, t.registry.freeNumber base,
    s.registry.suggestName_eq_ok hbase, t.registry.suggestName_eq_ok hbase,
    freeNumber_run h later base, ?_, ?_, ?_⟩
  · rintro ⟨first, op, rest, rfl, x, hx, hsource, hname⟩
    have ht : t = ((s.run first).step op).run rest := s.run_append first (op :: rest)
    rw [ht]
    exact freeNumber_lt_run h first rest hx hsource hname
  · intro hallowed v
    let name := numbered base (s.registry.freeNumber base)
    refine ⟨if s.registry.kindHoldsName .system name then Verdict.wouldOverride.message? else none,
      ?_, ?_⟩
    · rw [outcome?, Registry.createChecked_suggested hallowed hbase]
      rfl
    · rw [← h.kindHoldsName_iff]
      cases s.registry.kindHoldsName .system name <;> decide
  · intro rounds
    obtain ⟨numbers, hnames, hordered, _⟩ := useSuggestions_numbers h hbase rounds
    refine ⟨numbers, hnames, hordered, ?_, ?_⟩
    · rw [hnames]
      exact List.Nodup.map (numbered_injective base) (hordered.imp Nat.ne_of_lt)
    · intro hallowed hrounds
      rw [← length_useSuggestions hallowed hbase hrounds, hnames, List.length_map]

/-- The application has one color, the system another. -/
def palette : List Op :=
  [.seed [⟨.application, "Color1", .flag true⟩, ⟨.system, "Color2", .flag true⟩]]

/-- Then the application takes the color that is suggested. -/
def painting : List Op :=
  [.createChecked .application "Color2" (.flag false) .allow, .prune]

/-- The color that is taken is suggested no more. Two further ones that are taken are distinct. -/
theorem suggestions_stay_fresh_palette :
    isBlankName "Color" = false ∧
      let s := start.run palette
      s.registry.suggestName "Color" = .ok "Color2" ∧
        (∃ k, (s.run painting).registry.suggestName "Color" = .ok (numbered "Color" k) ∧ 2 < k) ∧
        (s.useSuggestions "Color" [([], .flag true), ([.prune], .flag false)]).Nodup := by
  have hbase : isBlankName "Color" = false := by decide
  refine ⟨hbase, ?_⟩
  intro s
  obtain ⟨k₁, k₂, hfirst, hsecond, _, hlt, _, hrounds⟩ :=
    suggestions_stay_fresh palette painting hbase
  have hnames : s.registry.applicationNames = ["Color1"] := by
    rw [Registry.applicationNames, (run_reflects Registry.reflects_empty palette).inSource]
    rfl
  have hsuggested : s.registry.suggestName "Color" = .ok "Color2" := by
    rw [Registry.suggestName_eq_ok _ hbase, Registry.freeNumber, hnames]
    decide
  have hk₁ : "Color2" = numbered "Color" k₁ := Except.ok.inj (hsuggested.symm.trans hfirst)
  have htaken : s.entered (.createChecked .application "Color2" (.flag false) .allow) =
      [⟨.application, "Color2", .flag false⟩] := by
    have henabled : ∀ op ∈ palette, op.leavesEnabled := by decide
    have hallowed : s.registry.canCreate := canCreate_run (s := start) rfl henabled
    have hentered := entered_suggested hallowed hbase (.flag false)
    rwa [Registry.freeNumber, hnames] at hentered
  obtain ⟨_, _, _, hnodup, _⟩ := hrounds [([], .flag true), ([.prune], .flag false)]
  refine ⟨hsuggested, ⟨k₂, hsecond, ?_⟩, hnodup⟩
  have htwo : k₁ = 2 := numbered_injective "Color" (hk₁.symm.trans (by decide))
  rw [← htwo]
  refine hlt ⟨[], _, [.prune], rfl, ⟨.application, "Color2", .flag false⟩, ?_, BEq.rfl, hk₁⟩
  exact htaken ▸ List.mem_cons_self

end Session

end ScopedResources
