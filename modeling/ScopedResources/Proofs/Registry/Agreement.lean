import ScopedResources.Proofs.Lifetimes
import ScopedResources.Proofs.Registry.Creation

/-! # Logs that agree

Two logs agree on a part of the sources if they have the same entries there. Where the part has all
that concerns a target, nobody can tell two registries apart by what the target is shown, nor by the
verdict on a name in a source of the part. Logs that agree on the sources that are there go on to
agree when targets die. -/

namespace ScopedResources

namespace Log

variable {alive later : Liveness} {log log' : Log}

theorem mem_reachable {r : Resource} :
    r ∈ log.reachable alive ↔ r ∈ log ∧ r.source.isReachable alive := List.mem_filter

theorem reachable_append (alive : Liveness) (log log' : Log) :
    Log.reachable alive (log ++ log') = log.reachable alive ++ log'.reachable alive :=
  List.filter_append ..

/-- Entries that are unreachable stay so. -/
theorem reachable_later (h : ∀ r ∈ log, r.source.isReachable later → r.source.isReachable alive) :
    (log.reachable alive).reachable later = log.reachable later := by
  unfold reachable
  rw [List.filter_filter]
  refine List.filter_congr fun r hr => ?_
  by_cases hl : r.source.isReachable later
  · simp [hl, h r hr hl]
  · simp [hl]

end Log

/-- The source of a target that is there can be reached, as can all shared ones. -/
theorem Source.isReachable_of_concerns {alive : Liveness} (halive : alive.Consistent) {t : Target}
    (ht : alive t) {s : Source} (hs : s.concerns t) : s.isReachable alive := by
  cases s with
  | shared scope name => rfl
  | ofTarget owner =>
    have howner : Source.ofTarget owner == .ofTarget t := by
      simpa [Source.concerns, Source.kind] using hs
    rw [Source.isReachable_congr halive howner]
    exact ht

namespace Registry

variable {alive : Liveness} {r r' : Registry} {log log' : Log}

/-! ## Agreement on a part -/

section
variable {p : Source → Bool} (hp : Source.IsPart p) (h : r.Reflects log) (h' : r'.Reflects log')
  (hagree : log.part p = log'.part p)
include hp h h' hagree

theorem Reflects.resourcesFor_of_part {t : Target} (ht : ∀ s : Source, s.concerns t → p s) :
    r.resourcesFor t = r'.resourcesFor t := by
  rw [h.resourcesFor, h'.resourcesFor, ← log.resourcesFor_part hp ht, hagree,
    log'.resourcesFor_part hp ht]

theorem Reflects.verdict_of_part {s : Source} (hs : p s) (name : String) :
    r.verdict s name = r'.verdict s name := by
  rw [h.verdict, h'.verdict, ← log.verdict_part hp hs, hagree, log'.verdict_part hp hs]

theorem Reflects.suggestName_of_part (base : String) : r.suggestName base = r'.suggestName base := by
  have hin : r.inSource .application = r'.inSource .application := by
    have hlogs := congrArg (Log.inSource · .application) hagree
    simp only [Log.inSource_part hp, Source.application, hp.shared, if_true] at hlogs
    rw [h.inSource, h'.inSource]
    exact hlogs
  rw [suggestName, suggestName, applicationNames, applicationNames, hin]

end

/-! ## What follows from equal listings and verdicts -/

theorem resourcesForProperty_congr {t : Target} (h : r.resourcesFor t = r'.resourcesFor t)
    (p : Property) : r.resourcesForProperty t p = r'.resourcesForProperty t p := by
  rw [resourcesForProperty, resourcesForProperty, h]

theorem checkName_congr {s : Source} {name : String}
    (h : s.isReachable alive → r.verdict s name = r'.verdict s name) :
    r.checkName alive s name = r'.checkName alive s name := by
  unfold checkName requireOwner
  by_cases hs : s.isReachable alive
  · rw [h hs]
  · rw [if_neg hs]
    rfl

/-- Creations that are as free come to the same. -/
theorem create_congr (h : r.canCreate = r'.canCreate) (alive : Liveness) (s : Source)
    (name : String) (v : Value) :
    (r.create alive s name v).map (·.1) = (r'.create alive s name v).map (·.1) := by
  unfold create Edit.result
  rw [createM_apply, createM_apply, h]
  cases r'.canCreate <;> cases isBlankName name <;> cases s.isReachable alive <;> rfl

theorem createChecked_congr {s : Source} {name : String} (h : r.canCreate = r'.canCreate)
    (hcheck : r.checkName alive s name = r'.checkName alive s name) (v : Value)
    (policy : OverridePolicy) :
    (r.createChecked alive s name v policy).map (·.1) =
      (r'.createChecked alive s name v policy).map (·.1) := by
  rw [createChecked_eq_bind, createChecked_eq_bind, hcheck]
  cases r'.checkName alive s name with
  | error e => rfl
  | ok verdict =>
    simp only [bind, Except.bind]
    split
    · let outcome (x : Resource) : Outcome := .created x verdict.message?
      have hcreate := congrArg (Except.map outcome) (create_congr h alive s name v)
      revert hcreate
      cases r.create alive s name v <;> cases r'.create alive s name v <;> exact id
    · rfl

/-! ## Agreement on what is there -/

namespace Reflects

/-- Registries whose logs agree show the same to every target that is there. -/
theorem resourcesFor_agree (halive : alive.Consistent) (h : r.Reflects log) (h' : r'.Reflects log')
    (hagree : log.reachable alive = log'.reachable alive) {t : Target} (ht : alive t) :
    r.resourcesFor t = r'.resourcesFor t :=
  h.resourcesFor_of_part (Source.isPart_isReachable halive) h' hagree fun _ =>
    Source.isReachable_of_concerns halive ht

/-- Registries whose logs agree give the same verdicts. -/
theorem checkName_agree (halive : alive.Consistent) (h : r.Reflects log) (h' : r'.Reflects log')
    (hagree : log.reachable alive = log'.reachable alive) (s : Source) (name : String) :
    r.checkName alive s name = r'.checkName alive s name :=
  checkName_congr fun hs => h.verdict_of_part (Source.isPart_isReachable halive) h' hagree hs name

end Reflects

end Registry

end ScopedResources
