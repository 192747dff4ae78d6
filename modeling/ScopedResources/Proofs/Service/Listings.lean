import Mathlib.Data.List.Flatten
import Mathlib.Data.List.Perm.Subperm
import ScopedResources.Proofs.Service.ChangeLog

/-! # Listings over time

A target that is there is shown what has been created for it, and goes on being shown it: resources
come in between, but none goes and no two change places. For what a log lists for a target is a
sublist of what any longer log lists, and whoever asks is answered as from the log of all that has
been created so far. -/

namespace ScopedResources

/-! ## Longer logs -/

namespace Log

theorem inSource_prefix (log more : Log) (s : Source) :
    log.inSource s <+: Log.inSource (log ++ more) s := by
  unfold inSource
  rw [List.filter_append]
  exact List.prefix_append ..

/-- New entries come in between the others. -/
theorem resourcesFor_sublist (log more : Log) (t : Target) :
    (log.resourcesFor t).Sublist (Log.resourcesFor (log ++ more) t) := by
  refine List.Sublist.flatMap_right _ fun k _ => ?_
  have hsources := (log.sources_prefix more).sublist.filter fun s => s.kind == k && s.concerns t
  have hentries : ∀ s ∈ log.sources.filter fun s => s.kind == k && s.concerns t,
      (log.inSource s).Sublist (Log.inSource (log ++ more) s) := fun s _ =>
    (log.inSource_prefix more s).sublist
  exact (List.Sublist.flatMap_right _ hentries).trans (hsources.flatMap _)

theorem resourcesFor_congr (log : Log) {t u : Target} (h : t == u) :
    log.resourcesFor t = log.resourcesFor u := by
  have howner : Source.ofTarget t == .ofTarget u :=
    Source.beq_iff.mpr (congrArg SourceKey.ofTarget (Target.beq_iff.mp h))
  have hconcerns : Source.concerns t = Source.concerns u := by
    funext s
    rw [Source.concerns, Source.concerns, BEq.congr_right howner]
  unfold resourcesFor
  rw [hconcerns]

end Log

/-! ## What is answered -/

/-- The resources that answers have reported as created, in their order. -/
def History.created (h : History) : List Resource := h.answered.filterMap fun entry => entry.2.created?

/-- If a request is handled after `before`, the resources published before it are those reported as
created before it. If it asks for the resources of a target it is answered at once, with what the
base and these resources list for the target. -/
structure History.Listed (base : Log) (before : History) (ticket : Ticket) (after : History) :
    Prop where
  created : before.published = before.created
  answer : ∀ t, ticket.request = .resourcesFor t → ∃ rest, after =
    .answered ticket (.ok (.resources (Log.resourcesFor (base ++ before.created) t))) :: rest

namespace Service

variable {s : Service} {base log : Log}

theorem Recorded.resourcesFor (hr : s.Recorded base log) {t : Target} (ht : s.alive t) :
    s.registry.resourcesFor t = Log.resourcesFor (base ++ s.history.published) t := by
  have hp := Source.isPart_isReachable s.alive_consistent
  have hconcerns : ∀ u : Source, u.concerns t → u.isReachable s.alive := fun _ =>
    Source.isReachable_of_concerns s.alive_consistent ht
  rw [hr.reflects.resourcesFor, ← log.resourcesFor_part hp hconcerns]
  exact (congrArg (Log.resourcesFor · t) hr.agree).trans (Log.resourcesFor_part hp _ hconcerns)

/-- Whenever a request is handled. -/
def Listed (base : Log) (s : Service) : Prop :=
  ∀ before ticket alive after, s.history = before ++ .handled ticket alive :: after →
    History.Listed base before ticket after

/-- What is listed is not changed by what happens later. -/
theorem Listed.grow (hl : s.Listed base) {new : History} {before : History} {ticket : Ticket}
    {alive : Liveness} {after : History}
    (h : s.history ++ new = before ++ .handled ticket alive :: after) :
    History.Listed base before ticket after ∨
      ∃ between, before = s.history ++ between ∧ new = between ++ .handled ticket alive :: after := by
  rcases List.append_eq_append_iff.mp h with ⟨between, hbefore, hnew⟩ | ⟨rest, hold, hafter⟩
  · exact .inr ⟨between, hbefore, hnew⟩
  cases rest with
  | nil =>
    rw [List.append_nil] at hold
    exact .inr ⟨[], by rw [hold, List.append_nil], hafter.symm⟩
  | cons x rest =>
    obtain ⟨rfl, rfl⟩ := List.cons.inj hafter
    obtain ⟨hcreated, hanswer⟩ := hl before ticket alive rest hold
    refine .inl ⟨hcreated, fun t ht => ?_⟩
    obtain ⟨more, rfl⟩ := hanswer t ht
    exact ⟨more ++ new, rfl⟩

theorem Listed.step (hl : s.Listed base) (hr : s.Recorded base log) (hannounced : s.Announced)
    (m : Move) : (s.step m).Listed base := by
  intro before ticket alive after hsplit
  rcases s.step_cases m with ⟨_, new, taken, hhistory⟩ |
    ⟨served, a, r, hhead, hperform, _, hhistory⟩ <;> rw [hhistory] at hsplit
  · -- Callers handle nothing.
    refine (hl.grow hsplit).resolve_right ?_
    rintro ⟨between, _, hnew⟩
    have hm : Happening.handled ticket alive ∈ new.map .sent ++ taken.map .accepted := by
      rw [hnew]
      exact List.mem_append_right _ List.mem_cons_self
    simp at hm
  · rcases hl.grow hsplit with h | ⟨between, hbefore, hnew⟩
    · exact h
    -- What comes of a request is no handling, so the request is the one that is served now.
    have hnone : ∀ x ∈ a.happenings served, x ≠ .handled ticket alive := by
      rintro x hx rfl
      simp [Answer.happenings] at hx
    cases between with
    | cons x between =>
      obtain ⟨_, hrest⟩ := List.cons.inj hnew
      exact absurd rfl (hnone _ (hrest ▸ List.mem_append_right _ List.mem_cons_self))
    | nil =>
      rw [List.append_nil] at hbefore
      obtain ⟨hserved, rfl⟩ := List.cons.inj hnew
      cases hserved
      subst hbefore
      refine ⟨hannounced.published, fun t ht => ?_⟩
      have halive : s.alive t := alive_of_head hhead (by rw [ht]; rfl)
      rw [ht] at hperform
      cases hperform
      rw [← show s.history.published = s.history.created from hannounced.published,
        ← hr.resourcesFor halive]
      exact ⟨[], rfl⟩

theorem run_listed (ops : List Session.Op) (channelCapacity eventCapacity : Nat)
    (moves : List Move) :
    ((takeOver (Session.start.run ops) channelCapacity eventCapacity).run moves).Listed
      (Session.start.run ops).log := by
  let base := (Session.start.run ops).log
  have hstart : (takeOver (Session.start.run ops) channelCapacity eventCapacity).Listed base := by
    intro before ticket alive after h
    exact absurd h (by simp [takeOver])
  have hrun := run_induction (P := fun s => Accounted s.line s.history ∧ s.Announced ∧
      (∃ log, s.Recorded base log) ∧ s.Listed base) moves
    (fun s m _ ⟨ha, hannounced, ⟨log, hr⟩, hl⟩ => ⟨step_accounted ha m, hannounced.step m,
      hr.step ha.isOpen m, hl.step hr hannounced m⟩)
    ⟨takeOver_accounted _ channelCapacity eventCapacity, ⟨rfl, rfl⟩,
      ⟨_, takeOver_recorded ops channelCapacity eventCapacity⟩, hstart⟩
  exact hrun.2.2.2

/-- Whoever asks for the resources of a target is shown each resource that was reported as created
before for the target to see. Whoever asks later is shown all that was shown before, in the same
order. The target is there all the time, because the later request keeps it. -/
theorem listings_only_grow (ops : List Session.Op) (channelCapacity eventCapacity : Nat)
    (moves : List Move) :
    let s := (takeOver (Session.start.run ops) channelCapacity eventCapacity).run moves
    (∀ (before : History) ticket alive after t,
      s.history = before ++ .handled ticket alive :: after →
      ticket.request = .resourcesFor t →
        ∃ shown rest, after = .answered ticket (.ok (.resources shown)) :: rest ∧
          (before.created.filter fun x => x.source.isVisibleTo t).Subperm shown) ∧
      ∀ (before : History) first alive shown between second alive' shown' after t u,
        s.history = before ++ .handled first alive :: .answered first (.ok (.resources shown)) ::
          (between ++ .handled second alive' :: .answered second (.ok (.resources shown')) ::
            after) →
        first.request = .resourcesFor t → second.request = .resourcesFor u → t == u →
          shown.Sublist shown' := by
  intro s
  have hl : s.Listed (Session.start.run ops).log :=
    run_listed ops channelCapacity eventCapacity moves
  refine ⟨fun before ticket alive after t h ht => ?_, ?_⟩
  · obtain ⟨rest, hafter⟩ := (hl before ticket alive after h).answer t ht
    refine ⟨_, rest, hafter, ?_⟩
    have hvisible : (before.created.filter fun x => x.source.isVisibleTo t).Sublist
        (((Session.start.run ops).log ++ before.created).filter fun x => x.source.concerns t) := by
      simp only [Source.isVisibleTo_eq]
      exact (List.sublist_append_right ..).filter _
    exact hvisible.subperm.trans (Log.resourcesFor_perm _ t).symm.subperm
  · intro before first alive shown between second alive' shown' after t u h ht hu htu
    obtain ⟨_, hfirst⟩ := (hl before first alive _ h).answer t ht
    obtain ⟨hshown, _⟩ := List.cons.inj hfirst
    let middle : History := .handled first alive :: .answered first (.ok (.resources shown)) :: between
    have hsplit : s.history = (before ++ middle) ++ .handled second alive' ::
        .answered second (.ok (.resources shown')) :: after := by simp [h, middle]
    obtain ⟨_, hsecond⟩ := (hl _ second alive' _ hsplit).answer u hu
    obtain ⟨hshown', _⟩ := List.cons.inj hsecond
    simp only [Happening.answered.injEq, Except.ok.injEq, Reply.resources.injEq, true_and]
      at hshown hshown'
    rw [hshown, hshown', Log.resourcesFor_congr _ htu]
    have hcreated : (before ++ middle).created = before.created ++ History.created middle := by
      simp only [History.created, History.answered, List.filterMap_append]
    rw [hcreated, ← List.append_assoc]
    exact Log.resourcesFor_sublist ..

end Service

end ScopedResources
