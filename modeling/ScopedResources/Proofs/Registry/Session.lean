import ScopedResources.Proofs.Lifetimes
import ScopedResources.Proofs.Registry.Creation

/-! # Sessions

A session is a run of operations on handles and on one registry. Beside the registry it keeps the
log of what the operations reported: seeds are entered as they are given, creations as they are
answered, and a prune strikes out the entries whose target is gone at that moment. The registry
reflects the log throughout. -/

namespace ScopedResources

structure Session where
  handles : Handles
  registry : Registry
  log : Log

namespace Session

inductive Op where
  | handles (step : Handles.Step)
  | seed (resources : List Resource)
  | create (source : Source) (name : String) (value : Value)
  | createChecked (source : Source) (name : String) (value : Value) (policy : OverridePolicy)
  | setCanCreate (enabled : Bool)
  | prune

def alive (s : Session) : Liveness := s.handles.holds

def step (s : Session) : Op → Session
  | .handles step => { s with handles := s.handles.step s.alive step }
  | .seed resources =>
    -- The source of a target can be had only once the target has been made.
    if resources.all fun r => r.source.isKnown s.handles then
      { s with registry := s.registry.seed resources, log := s.log ++ resources }
    else s
  | .create source name value =>
    match (Registry.createM s.alive source name value).apply s.registry with
    | (.ok resource, registry) => { s with registry, log := s.log ++ [resource] }
    | (.error _, registry) => { s with registry }
  | .createChecked source name value policy =>
    match (Registry.createCheckedM s.alive source name value policy).apply s.registry with
    | (.ok (.created resource _), registry) => { s with registry, log := s.log ++ [resource] }
    | (.ok (.rejected _), registry) | (.error _, registry) => { s with registry }
  | .setCanCreate enabled => { s with registry.canCreate := enabled }
  | .prune => { s with registry := (s.registry.prune s.alive).2, log := s.log.reachable s.alive }

/-- No handles, and a registry that holds nothing. -/
def start : Session := ⟨.empty, .empty, []⟩

def run (s : Session) (ops : List Op) : Session := ops.foldl step s

theorem run_append (s : Session) (ops ops' : List Op) :
    s.run (ops ++ ops') = (s.run ops).run ops' := List.foldl_append ..

/-! ## Creations -/

/-- The source that a resource is created in. -/
def Op.source? : Op → Option Source
  | .create source _ _ => some source
  | .createChecked source _ _ _ => some source
  | _ => none

/-- What a creation comes to. -/
def outcome? (s : Session) : Op → Option (Except RegistryError Outcome)
  | .create source name value =>
    some (((s.registry.create s.alive source name value).map (·.1)).map (.created · none))
  | .createChecked source name value policy =>
    some ((s.registry.createChecked s.alive source name value policy).map (·.1))
  | _ => none

/-- Puts a resource in, on the record. -/
def grow (s : Session) (x : Resource) : Session := ⟨s.handles, s.registry.append x, s.log ++ [x]⟩

/-- A creation puts in what it reports as created, in a source that is there, and does nothing else. -/
theorem step_of_source {s : Session} {op : Op} {source : Source} (h : op.source? = some source) :
    s.step op = s ∧ (∀ x warning, s.outcome? op ≠ some (.ok (.created x warning))) ∨
    ∃ x warning, s.outcome? op = some (.ok (.created x warning)) ∧ x.source = source ∧
      x.source.isReachable s.alive ∧ s.step op = s.grow x := by
  cases op with
  | create _ name value =>
    cases h
    rw [step, outcome?, Registry.createM_eq_create]
    cases hc : s.registry.create s.alive source name value with
    | error e => exact .inl ⟨rfl, fun _ _ h => by cases h⟩
    | ok created =>
      obtain ⟨x, r⟩ := created
      obtain ⟨hallowed, rfl, rfl⟩ := Registry.create_eq_ok_iff.mp hc
      exact .inr ⟨_, none, rfl, rfl, hallowed.2.2, rfl⟩
  | createChecked _ name value policy =>
    cases h
    rw [step, outcome?, Registry.createCheckedM_eq_createChecked]
    cases hc : s.registry.createChecked s.alive source name value policy with
    | error e => exact .inl ⟨rfl, fun _ _ h => by cases h⟩
    | ok outcome =>
      obtain ⟨outcome, r⟩ := outcome
      cases outcome with
      | rejected verdict =>
        obtain rfl := Registry.createChecked_rejected hc
        exact .inl ⟨rfl, fun _ _ h => by cases h⟩
      | created x warning =>
        obtain ⟨hallowed, rfl, rfl⟩ :=
          Registry.create_eq_ok_iff.mp (Registry.createChecked_created hc).1
        exact .inr ⟨_, warning, rfl, rfl, hallowed.2.2, rfl⟩
  | handles _ | seed _ | setCanCreate _ | prune => cases h

/-! ## What every operation keeps -/

theorem step_reflects {s : Session} (h : s.registry.Reflects s.log) (op : Op) :
    (s.step op).registry.Reflects (s.step op).log := by
  cases hop : op.source? with
  | some source =>
    rcases step_of_source hop with ⟨he, _⟩ | ⟨x, _, _, _, _, he⟩ <;> rw [he]
    · exact h
    · exact h.append x
  | none =>
  cases op with
  | create _ _ _ | createChecked _ _ _ _ => cases hop
  | handles step => exact h
  | seed resources =>
    simp only [step]
    split
    · exact h.seed resources
    · exact h
  | setCanCreate enabled => exact ⟨h.registration, h.mem_groups, h.inSource⟩
  | prune => exact h.prune s.handles.holds_consistent

theorem run_reflects {s : Session} (h : s.registry.Reflects s.log) (ops : List Op) :
    (s.run ops).registry.Reflects (s.run ops).log := by
  induction ops generalizing s with
  | nil => exact h
  | cons op ops ih => exact ih (step_reflects h op)

/-- Nothing is mentioned that has not been made. -/
structure Known (s : Session) : Prop where
  held : ∀ t, s.handles.holds t → s.handles.knows t
  log : ∀ x ∈ s.log, x.source.isKnown s.handles

theorem step_known {s : Session} (h : s.Known) (op : Op) : (s.step op).Known := by
  cases hop : op.source? with
  | some source =>
    rcases step_of_source hop with ⟨he, _⟩ | ⟨x, _, _, _, hx, he⟩ <;> rw [he]
    · exact h
    · refine ⟨h.held, fun y hy => ?_⟩
      rcases List.mem_append.mp hy with hy | hy
      · exact h.log y hy
      · rw [List.mem_singleton.mp hy]
        exact Source.isKnown_of_isReachable h.held hx
  | none =>
  cases op with
  | create _ _ _ | createChecked _ _ _ _ => cases hop
  | handles step =>
    have hle := s.handles.issued_le_step s.alive step
    refine ⟨fun t ht => ?_, fun x hx => Source.isKnown_mono hle (h.log x hx)⟩
    rcases Handles.holds_step s.handles.holds_consistent (fun _ => id) ht with ht | ⟨hid, hlt⟩
    · have := of_decide_eq_true (h.held t ht)
      exact decide_eq_true (Nat.lt_of_lt_of_le this hle)
    · exact decide_eq_true (hid ▸ hlt)
  | seed resources =>
    simp only [step]
    split
    · next hall =>
      refine ⟨h.held, fun x hx => ?_⟩
      rcases List.mem_append.mp hx with hx | hx
      · exact h.log x hx
      · exact List.all_eq_true.mp hall x hx
    · exact h
  | setCanCreate enabled => exact ⟨h.held, h.log⟩
  | prune => exact ⟨h.held, fun x hx => h.log x (List.mem_filter.mp hx).1⟩

theorem run_known {s : Session} (h : s.Known) (ops : List Op) : (s.run ops).Known := by
  induction ops generalizing s with
  | nil => exact h
  | cons op ops ih => exact ih (step_known h op)

theorem start_known : start.Known where
  held t ht := by cases ht
  log x hx := by cases hx

/-- Whatever has happened, a target is shown what the log has for it, each entry once and in the
order of listings, and the size is that of the log. -/
theorem resourcesFor_run (ops : List Op) (t : Target) :
    let s := start.run ops
    s.registry.resourcesFor t = s.log.resourcesFor t ∧
      (s.registry.resourcesFor t).Perm (s.log.filter fun r => r.source.concerns t) ∧
      s.registry.size = s.log.length := by
  intro s
  have h : s.registry.Reflects s.log := run_reflects Registry.reflects_empty ops
  refine ⟨h.resourcesFor t, ?_, h.size⟩
  rw [h.resourcesFor t]
  exact s.log.resourcesFor_perm t

end Session

end ScopedResources
