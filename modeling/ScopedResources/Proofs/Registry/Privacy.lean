import ScopedResources.Proofs.Registry.Agreement
import ScopedResources.Proofs.Registry.Session
import ScopedResources.Proofs.Service.Handling

/-! # Resources of other targets

What is put into the sources of other targets does not influence what a target is shown. A session is
compared with the one in which these operations are left out: at every point of both, the logs have
the same entries that concern the target, and the operations that concern it come to the same. Two
sessions that are the same once the operations are left out can therefore not be told apart. -/

namespace ScopedResources

namespace Log

variable {p : Source → Bool}

theorem part_append (log log' : Log) : Log.part p (log ++ log') = log.part p ++ log'.part p :=
  List.filter_append ..

theorem part_reachable (alive : Liveness) (log : Log) :
    (log.reachable alive).part p = (log.part p).reachable alive := by
  simp only [part, reachable, List.filter_filter, Bool.and_comm]

end Log

namespace Session

/-! ## The part of a session that concerns a target -/

namespace Op

/-- Nothing is created in the source of another target. -/
def concerns (t : Target) (op : Op) : Bool := op.source?.all (Source.concerns t)

def handlesAfter (h : Handles) : Op → Handles
  | .handles step => h.step h.holds step
  | _ => h

/-- What is left of an operation without what goes into the sources of other targets. Seeds are taken
one by one, and seeds that cannot be had are no seeds. -/
def partFor (t : Target) (h : Handles) : Op → List Op
  | .seed resources =>
    if resources.all fun x => x.source.isKnown h then
      (resources.filter fun x => x.source.concerns t).map fun x => .seed [x]
    else []
  | op => if op.concerns t then [op] else []

/-- All that is put in goes into the sources of other targets. -/
def isForeign (t : Target) : Op → Bool
  | .seed resources => resources.all fun x => !x.source.concerns t
  | .create source _ _ => !source.concerns t
  | .createChecked source _ _ _ => !source.concerns t
  | _ => false

theorem partFor_of_isForeign {t : Target} {op : Op} (hop : op.isForeign t) (h : Handles) :
    op.partFor t h = [] ∧ op.handlesAfter h = h := by
  cases op with
  | seed resources =>
    refine ⟨?_, rfl⟩
    have hnone : (resources.filter fun x => x.source.concerns t) = [] :=
      List.filter_eq_nil_iff.mpr fun x hx => by simpa using List.all_eq_true.mp hop x hx
    rw [partFor, hnone]
    split <;> rfl
  | create source name value | createChecked source name value policy =>
    refine ⟨if_neg fun hconcerns => ?_, rfl⟩
    have hsource : source.concerns t := hconcerns
    simp [isForeign, hsource] at hop
  | handles _ | setCanCreate _ | prune => cases hop

end Op

def partFor (t : Target) (h : Handles) : List Op → List Op
  | [] => []
  | op :: ops => op.partFor t h ++ partFor t (op.handlesAfter h) ops

/-- Operations for other targets may be put in anywhere, and left out. -/
theorem partFor_insert {t : Target} {op : Op} (hop : op.isForeign t) (h : Handles)
    (earlier later : List Op) : partFor t h (earlier ++ op :: later) = partFor t h (earlier ++ later) := by
  induction earlier generalizing h with
  | nil =>
    obtain ⟨hnone, hsame⟩ := Op.partFor_of_isForeign hop h
    rw [List.nil_append, partFor, hnone, hsame]
    rfl
  | cons first earlier ih => rw [List.cons_append, List.cons_append, partFor, partFor, ih]

/-- What the creations that concern the target come to, one after the other. -/
def outcomesFor (t : Target) (s : Session) : List Op → List (Except RegistryError Outcome)
  | [] => []
  | op :: ops => (if op.concerns t then (s.outcome? op).toList else []) ++ (s.step op).outcomesFor t ops

variable {t : Target} {s s' : Session} {op : Op}

theorem outcomesFor_append (t : Target) (s : Session) (ops ops' : List Op) :
    s.outcomesFor t (ops ++ ops') = s.outcomesFor t ops ++ (s.run ops).outcomesFor t ops' := by
  induction ops generalizing s with
  | nil => rfl
  | cons op ops ih => simp [outcomesFor, ih, run]

theorem outcomesFor_seeds (t : Target) (s : Session) (xs : List Resource) :
    s.outcomesFor t (xs.map fun x => .seed [x]) = [] := by
  induction xs generalizing s with
  | nil => rfl
  | cons x xs ih => exact ih _

/-- What is left of an operation comes to the same if the operation concerns the target. -/
theorem outcomesFor_partFor (t : Target) (h : Handles) (s : Session) (op : Op) :
    s.outcomesFor t (op.partFor t h) = if op.concerns t then (s.outcome? op).toList else [] := by
  have hself : s.outcomesFor t (if op.concerns t then [op] else []) =
      if op.concerns t then (s.outcome? op).toList else [] := by
    cases hop : op.concerns t <;> simp [outcomesFor, hop]
  cases op with
  | seed resources =>
    simp only [Op.partFor]
    split
    · exact outcomesFor_seeds t s _
    · rfl
  | create _ _ _ | createChecked _ _ _ _ | handles _ | setCanCreate _ | prune => exact hself

theorem handles_step (s : Session) (op : Op) : (s.step op).handles = op.handlesAfter s.handles := by
  cases op with
  | seed resources =>
    simp only [step]
    split <;> rfl
  | create _ _ _ | createChecked _ _ _ _ =>
    simp only [step]
    split <;> rfl
  | handles _ | setCanCreate _ | prune => rfl

/-! ## Seeds one by one -/

def growAll (s : Session) (xs : List Resource) : Session := xs.foldl grow s

theorem growAll_eq (s : Session) (xs : List Resource) :
    s.growAll xs = ⟨s.handles, s.registry.seed xs, s.log ++ xs⟩ := by
  induction xs generalizing s with
  | nil => simp [growAll, Registry.seed]
  | cons x xs ih =>
    rw [growAll, List.foldl_cons]
    refine (ih (s.grow x)).trans ?_
    simp [grow, Registry.seed]

theorem step_seed {xs : List Resource} (h : xs.all fun x => x.source.isKnown s.handles) :
    s.step (.seed xs) = s.growAll xs := by
  rw [growAll_eq]
  exact if_pos h

/-- Seeds that can be had may as well be given one by one. -/
theorem run_seeds {xs : List Resource} (h : xs.all fun x => x.source.isKnown s.handles) :
    s.run (xs.map fun x => .seed [x]) = s.growAll xs := by
  induction xs generalizing s with
  | nil => rfl
  | cons x xs ih =>
    rw [List.all_cons, Bool.and_eq_true] at h
    have hx : s.step (.seed [x]) = s.grow x := step_seed (by simpa using h.1)
    rw [List.map_cons, run, List.foldl_cons, hx]
    exact ih h.2

/-! ## Sessions that are alike for a target -/

/-- The sessions differ by nothing that concerns the target. -/
structure AlikeFor (t : Target) (s s' : Session) : Prop where
  handles : s.handles = s'.handles
  canCreate : s.registry.canCreate = s'.registry.canCreate
  log : s.log.part (Source.concerns t) = s'.log.part (Source.concerns t)
  reflects : s.registry.Reflects s.log
  reflects' : s'.registry.Reflects s'.log

namespace AlikeFor

theorem alive (h : AlikeFor t s s') : s.alive = s'.alive := congrArg Handles.holds h.handles

theorem symm (h : AlikeFor t s s') : AlikeFor t s' s :=
  ⟨h.handles.symm, h.canCreate.symm, h.log.symm, h.reflects', h.reflects⟩

theorem trans {s'' : Session} (h : AlikeFor t s s') (h' : AlikeFor t s' s'') : AlikeFor t s s'' :=
  ⟨h.handles.trans h'.handles, h.canCreate.trans h'.canCreate, h.log.trans h'.log, h.reflects,
    h'.reflects'⟩

/-! ### What a target is shown -/

theorem resourcesFor (h : AlikeFor t s s') :
    s.registry.resourcesFor t = s'.registry.resourcesFor t :=
  h.reflects.resourcesFor_of_part (Source.isPart_concerns t) h.reflects' h.log fun _ => id

theorem suggestName (h : AlikeFor t s s') (base : String) :
    s.registry.suggestName base = s'.registry.suggestName base :=
  h.reflects.suggestName_of_part (Source.isPart_concerns t) h.reflects' h.log base

theorem checkName (h : AlikeFor t s s') {source : Source} (hs : source.concerns t) (name : String) :
    s.registry.checkName s.alive source name = s'.registry.checkName s'.alive source name := by
  rw [← h.alive]
  exact Registry.checkName_congr fun _ =>
    h.reflects.verdict_of_part (Source.isPart_concerns t) h.reflects' h.log hs name

/-- Creations that concern the target come to the same. -/
theorem outcome? (h : AlikeFor t s s') (hop : op.concerns t) : s.outcome? op = s'.outcome? op := by
  cases op with
  | create source name value =>
    simp only [Session.outcome?, ← h.alive, Registry.create_congr h.canCreate]
  | createChecked source name value policy =>
    have hsource : source.concerns t := hop
    have hcheck := h.checkName hsource name
    rw [← h.alive] at hcheck
    simp only [Session.outcome?, ← h.alive, Registry.createChecked_congr h.canCreate hcheck]
  | handles _ | seed _ | setCanCreate _ | prune => rfl

/-! ### What operations do -/

theorem grow (h : AlikeFor t s s') (x : Resource) : AlikeFor t (s.grow x) (s'.grow x) where
  handles := h.handles
  canCreate := h.canCreate
  log := by rw [Session.grow, Session.grow, Log.part_append, Log.part_append, h.log]
  reflects := h.reflects.append x
  reflects' := h.reflects'.append x

/-- What does not concern the target makes no difference. -/
theorem grow_left (h : AlikeFor t s s') {x : Resource} (hx : x.source.concerns t = false) :
    AlikeFor t (s.grow x) s' where
  handles := h.handles
  canCreate := h.canCreate
  log := by
    rw [Session.grow, Log.part_append, h.log]
    simp [Log.part, hx]
  reflects := h.reflects.append x
  reflects' := h.reflects'

theorem growAll (h : AlikeFor t s s') (xs : List Resource) :
    AlikeFor t (s.growAll xs) (s'.growAll (xs.filter fun x => x.source.concerns t)) := by
  induction xs generalizing s s' with
  | nil => exact h
  | cons x xs ih =>
    cases hx : x.source.concerns t with
    | true =>
      rw [List.filter_cons_of_pos (by exact hx)]
      exact ih (h.grow x)
    | false =>
      rw [List.filter_cons_of_neg (by simp [hx])]
      exact ih (h.grow_left hx)

theorem creation (h : AlikeFor t s s') {source : Source} (hsource : op.source? = some source) :
    AlikeFor t (s.step op) (s'.run (if op.concerns t then [op] else [])) := by
  have hconcerns : op.concerns t = source.concerns t := by simp [Op.concerns, hsource]
  cases hop : op.concerns t with
  | true =>
    have houtcome := h.outcome? hop
    change AlikeFor t (s.step op) (s'.step op)
    rcases s.step_of_source hsource with ⟨he, hnone⟩ | ⟨x, warning, hx, _, _, he⟩ <;>
      rcases s'.step_of_source hsource with ⟨he', hnone'⟩ | ⟨x', warning', hx', _, _, he'⟩ <;>
      rw [he, he']
    · exact h
    · exact absurd (houtcome.trans hx') (hnone x' warning')
    · exact absurd (houtcome.symm.trans hx) (hnone' x warning)
    · rw [hx, hx'] at houtcome
      cases houtcome
      exact h.grow x
  | false =>
    change AlikeFor t (s.step op) s'
    rcases step_of_source hsource with ⟨he, _⟩ | ⟨x, _, _, hx, _, he⟩ <;> rw [he]
    · exact h
    · exact h.grow_left (by rw [hx, ← hconcerns, hop])

theorem step (h : AlikeFor t s s') (op : Op) :
    AlikeFor t (s.step op) (s'.run (op.partFor t s.handles)) := by
  cases op with
  | create source name value => exact h.creation rfl
  | createChecked source name value policy => exact h.creation rfl
  | seed resources =>
    simp only [Op.partFor]
    split
    · next hall =>
      have hpart : (resources.filter fun x => x.source.concerns t).all fun x =>
          x.source.isKnown s'.handles := by
        rw [← h.handles, List.all_eq_true]
        exact fun x hx => List.all_eq_true.mp hall x (List.mem_filter.mp hx).1
      rw [step_seed hall, run_seeds hpart]
      exact h.growAll resources
    · next hall =>
      rw [show s.step (.seed resources) = s from if_neg hall]
      exact h
  | handles step =>
    refine ⟨?_, h.canCreate, h.log, h.reflects, h.reflects'⟩
    change s.handles.step s.alive step = s'.handles.step s'.alive step
    rw [h.alive, h.handles]
  | setCanCreate enabled =>
    exact ⟨h.handles, rfl, h.log, step_reflects h.reflects (.setCanCreate enabled),
      step_reflects h.reflects' (.setCanCreate enabled)⟩
  | prune =>
    refine ⟨h.handles, h.canCreate, ?_, step_reflects h.reflects .prune,
      step_reflects h.reflects' .prune⟩
    change (s.log.reachable s.alive).part _ = (s'.log.reachable s'.alive).part _
    rw [← h.alive, Log.part_reachable, Log.part_reachable, h.log]

/-- Leaving out what goes into the sources of other targets makes no difference. -/
theorem run (h : AlikeFor t s s') (ops : List Op) :
    AlikeFor t (s.run ops) (s'.run (Session.partFor t s.handles ops)) ∧
      s.outcomesFor t ops = s'.outcomesFor t (Session.partFor t s.handles ops) := by
  induction ops generalizing s s' with
  | nil => exact ⟨h, rfl⟩
  | cons op ops ih =>
    obtain ⟨hrun, houtcomes⟩ := ih (h.step op)
    rw [s.handles_step] at hrun houtcomes
    rw [Session.partFor, run_append, outcomesFor_append, ← houtcomes, outcomesFor,
      outcomesFor_partFor]
    refine ⟨hrun, congrArg (· ++ _) ?_⟩
    split
    · next hop => rw [h.outcome? hop]
    · rfl

end AlikeFor

theorem start_alikeFor (t : Target) : AlikeFor t start start :=
  ⟨rfl, rfl, rfl, Registry.reflects_empty, Registry.reflects_empty⟩

/-- If two sessions differ only in what goes into the sources of other targets, a target is shown the
same after both, names are judged and suggested alike, and all other creations have come to the
same. -/
theorem other_targets_do_not_interfere (t : Target) (ops ops' : List Op)
    (h : partFor t .empty ops = partFor t .empty ops') :
    let s := start.run ops
    let s' := start.run ops'
    s.registry.resourcesFor t = s'.registry.resourcesFor t ∧
      (∀ p, s.registry.resourcesForProperty t p = s'.registry.resourcesForProperty t p) ∧
      (s.registry.perform s.alive (.listSources t)).1 =
        (s'.registry.perform s'.alive (.listSources t)).1 ∧
      (∀ base, s.registry.suggestName base = s'.registry.suggestName base) ∧
      (∀ source : Source, source.concerns t → ∀ name,
        s.registry.checkName s.alive source name = s'.registry.checkName s'.alive source name) ∧
      start.outcomesFor t ops = start.outcomesFor t ops' := by
  intro s s'
  obtain ⟨hs, houtcomes⟩ := (start_alikeFor t).run ops
  obtain ⟨hs', houtcomes'⟩ := (start_alikeFor t).run ops'
  have hpart : partFor t start.handles ops = partFor t start.handles ops' := h
  rw [← hpart] at hs' houtcomes'
  have halike : AlikeFor t s s' := hs.trans hs'.symm
  exact ⟨halike.resourcesFor, Registry.resourcesForProperty_congr halike.resourcesFor, rfl,
    halike.suggestName, fun _ hs => halike.checkName hs, houtcomes.trans houtcomes'.symm⟩

/-- A button and a slider get a margin each. -/
def neighbours : List Op :=
  [.handles (.create "button" "Button"), .handles (.create "slider" "Slider"),
    .seed [⟨.ofTarget ⟨1, "Slider"⟩, "Margin", .flag true⟩, ⟨.application, "Accent", .flag true⟩],
    .createChecked (.ofTarget ⟨1, "Slider"⟩) "Accent" (.flag false) .allow,
    .createChecked (.ofTarget ⟨0, "Button"⟩) "Margin" (.flag false) .deny, .handles (.release "slider"),
    .prune]

/-- The same with nothing for the slider. -/
def alone : List Op :=
  [.handles (.create "button" "Button"), .handles (.create "slider" "Slider"),
    .seed [⟨.application, "Accent", .flag true⟩],
    .createChecked (.ofTarget ⟨0, "Button"⟩) "Margin" (.flag false) .deny, .handles (.release "slider"),
    .prune]

/-- The button is shown the same, whether or not there is something for the slider. -/
theorem other_targets_do_not_interfere_neighbours :
    let button : Target := ⟨0, "Button"⟩
    partFor button .empty neighbours = partFor button .empty alone ∧
      (start.run neighbours).registry.resourcesFor button =
        (start.run alone).registry.resourcesFor button ∧
      start.outcomesFor button neighbours = start.outcomesFor button alone := by
  have h := other_targets_do_not_interfere ⟨0, "Button"⟩ neighbours alone rfl
  exact ⟨rfl, h.1, h.2.2.2.2.2⟩

end Session

end ScopedResources
