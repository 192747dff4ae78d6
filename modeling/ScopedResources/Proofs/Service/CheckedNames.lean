import ScopedResources.Proofs.Registry.Names
import ScopedResources.Proofs.Service.ChangeLog

/-! # Checked creations keep names unique

As long as clients ask for checked creations only, no name is given twice in one source: not while
the first resource is there, and not after its target is gone. -/

namespace ScopedResources

/-- The request creates without a check. -/
def Request.isUnchecked : Request → Bool
  | .create _ _ _ => true
  | _ => false

/-- No call that creates without a check is issued. -/
def Move.isChecked : Move → Bool
  | .issue _ call => !(Progress.issued call.request).request?.any Request.isUnchecked
  | _ => true

namespace Service

variable {s : Service} {base log : Log}

/-- Some request that creates without a check is on its way. -/
def Unchecked (l : Line) : Prop :=
  l.Carries (·.isUnchecked) fun c => c.progress.request?.any Request.isUnchecked

theorem inherits_unchecked :
    Line.Inherits (·.isUnchecked) fun c => c.progress.request?.any Request.isUnchecked where
  posted c request hp hq := by
    rw [hp]
    exact hq
  progress c p _ hp hf := by
    simp [hp] at hf

theorem step_unchecked (hopen : s.mailbox.isOpen) (hs : ¬Unchecked s.line) {m : Move}
    (hm : m.isChecked) : ¬Unchecked (s.step m).line := by
  intro h
  rcases carries_step inherits_unchecked hopen h with h | ⟨client, call, rfl, _, hf⟩
  · exact hs h
  · rw [Move.isChecked, hf] at hm
    cases hm

/-- An entry that has been recorded does not clash with a resource whose name is not in use: were it in
the same source it would be within reach, and the registry would have it. -/
theorem Recorded.not_clashes (hr : s.Recorded base log) {x : Resource}
    (hx : x.source.isReachable s.alive) (hfree : s.registry.holdsName x.source x.name = false) :
    ∀ y ∈ base ++ s.history.published, ¬y.Clashes x := by
  intro y hy hclash
  have hreachable : y ∈ log.reachable s.alive := by
    rw [hr.agree]
    exact Log.mem_reachable.mpr ⟨hy, by rwa [Source.isReachable_congr s.alive_consistent hclash.1]⟩
  have hholds : log.holdsName x.source x.name = true :=
    List.any_eq_true.mpr ⟨y, (Log.mem_reachable.mp hreachable).1,
      Bool.and_eq_true_iff.mpr ⟨hclash.1, beq_iff_eq.mpr hclash.2⟩⟩
  rw [← hr.reflects.holdsName, hfree] at hholds
  cases hholds

/-- Entries that were there from the beginning and entries that were published never clash. -/
structure Checked (base : Log) (s : Service) : Prop where
  distinct : Log.Distinct (base ++ s.history.published)
  created : ∀ entry ∈ s.history.answered, ∀ x, entry.2.created? = some x →
    ∃ t policy, entry.1.request = .createChecked t x.source x.name x.value policy

theorem Checked.step (hc : s.Checked base) (hr : s.Recorded base log) (hs : ¬Unchecked s.line)
    (m : Move) : (s.step m).Checked base := by
  rcases s.step_cases m with ⟨_, new, taken, hhistory⟩ |
    ⟨ticket, a, r, hhead, hperform, _, hhistory⟩
  · obtain ⟨_, _, _, hpublished, hanswered, _⟩ := s.history.append_requests new taken
    refine ⟨?_, ?_⟩
    · rw [hhistory, hpublished]
      exact hc.distinct
    · rw [hhistory, hanswered]
      exact hc.created
  obtain ⟨_, _, _, hpublished, hanswered, _⟩ := s.history.append_handled ticket s.alive a
  rw [← hhistory] at hpublished hanswered
  rcases Registry.perform_cases hperform with ⟨hnone, _⟩ | ⟨x, hsome, hx, _, hrequest⟩
  · refine ⟨?_, fun entry hentry y hy => ?_⟩
    · rw [hpublished, hnone, Option.toList_none, List.append_nil]
      exact hc.distinct
    · rw [hanswered, List.mem_append, List.mem_singleton] at hentry
      rcases hentry with hentry | rfl
      · exact hc.created entry hentry y hy
      · cases hnone.symm.trans hy
  · obtain ⟨t, policy, hrequest, hfree⟩ : ∃ t policy,
        ticket.request = .createChecked t x.source x.name x.value policy ∧
          s.registry.holdsName x.source x.name = false := by
      refine hrequest.resolve_left fun hcreate => hs (.inl ⟨ticket, ?_, by rw [hcreate]; rfl⟩)
      rw [Mailbox.contents_eq]
      exact List.mem_append_left _ (List.mem_of_head? hhead)
    refine ⟨?_, fun entry hentry y hy => ?_⟩
    · rw [hpublished, hsome, Option.toList_some, ← List.append_assoc]
      refine List.pairwise_append.mpr ⟨hc.distinct, List.pairwise_singleton _ _, ?_⟩
      intro y hy z hz
      rw [List.mem_singleton.mp hz]
      exact hr.not_clashes hx hfree y hy
    · rw [hanswered, List.mem_append, List.mem_singleton] at hentry
      rcases hentry with hentry | rfl
      · exact hc.created entry hentry y hy
      · cases hsome.symm.trans hy
        exact ⟨t, policy, hrequest⟩

theorem run_checked (ha : Accounted s.line s.history) (hr : s.Recorded base log)
    (hs : ¬Unchecked s.line) (hc : s.Checked base) {moves : List Move}
    (hmoves : ∀ m ∈ moves, m.isChecked) : (s.run moves).Checked base := by
  have hstep : ∀ s : Service, ∀ m ∈ moves,
      (Accounted s.line s.history ∧ (∃ log, s.Recorded base log) ∧ ¬Unchecked s.line ∧
        s.Checked base) →
      Accounted (s.step m).line (s.step m).history ∧ (∃ log, (s.step m).Recorded base log) ∧
        ¬Unchecked (s.step m).line ∧ (s.step m).Checked base := by
    rintro s m hm ⟨ha, ⟨log, hr⟩, hs, hc⟩
    exact ⟨step_accounted ha m, hr.step ha.isOpen m, step_unchecked ha.isOpen hs (hmoves m hm),
      hc.step hr hs m⟩
  exact (run_induction moves hstep ⟨ha, ⟨log, hr⟩, hs, hc⟩).2.2.2

/-- If names were unique when the service took over the registry and only checked creations are asked
for, they stay unique, and no two requests are answered with one name in one source. -/
theorem names_stay_unique (ops : List Session.Op) (channelCapacity eventCapacity : Nat)
    (moves : List Move) (hunique : (Session.start.run ops).registry.NamesUnique)
    (hmoves : ∀ m ∈ moves, m.isChecked) :
    let s := (takeOver (Session.start.run ops) channelCapacity eventCapacity).run moves
    s.registry.NamesUnique ∧
      (∀ entry ∈ s.history.answered, ∀ x, entry.2.created? = some x →
        ∃ t policy, entry.1.request = .createChecked t x.source x.name x.value policy) ∧
      s.history.answered.Pairwise fun first second => ∀ x y,
        first.2.created? = some x → second.2.created? = some y →
          ¬(x.source == y.source ∧ x.name = y.name) := by
  intro s
  have ha := takeOver_accounted (Session.start.run ops) channelCapacity eventCapacity
  have hr := takeOver_recorded ops channelCapacity eventCapacity
  have hs : ¬Unchecked (takeOver (Session.start.run ops) channelCapacity eventCapacity).line := by
    rintro (⟨ticket, hm, _⟩ | ⟨c, hm, _⟩) <;> cases hm
  have hbase : (takeOver (Session.start.run ops) channelCapacity eventCapacity).Checked
      (Session.start.run ops).log := by
    refine ⟨?_, fun entry hm => by cases hm⟩
    rw [show (takeOver (Session.start.run ops) channelCapacity eventCapacity).history.published = []
      from rfl, List.append_nil]
    exact (Session.run_reflects Registry.reflects_empty ops).namesUnique_iff.mp hunique
  have hchecked : s.Checked (Session.start.run ops).log := run_checked ha hr hs hbase hmoves
  have hannounced : s.Announced := Announced.run ⟨rfl, rfl⟩ moves
  obtain ⟨log, hlog⟩ := run_recorded ha hr moves
  refine ⟨?_, hchecked.created, ?_⟩
  · exact hlog.reflects.namesUnique_iff.mpr (hchecked.distinct.sublist hlog.sublist)
  · have hpublished := (List.pairwise_append.mp hchecked.distinct).2.1
    rw [hannounced.published, List.pairwise_filterMap] at hpublished
    exact hpublished.imp fun h x y hx hy => h x hx y hy

def seeded : List Session.Op :=
  [.handles (.create "button" "Button"), .seed [⟨.application, "Accent", .flag true⟩]]

/-- Two clients ask for one name at the same time. -/
def rivalry : List Move :=
  let ask : Call := .direct (.createChecked ⟨0, "Button"⟩ .application "Margin" (.flag false) .allow)
  [.openClient, .issue 0 ask, .issue 1 ask, .turn 1, .turn 0, .start, .serve, .serve]

/-- The names stay unique in a run in which two requests rival. -/
theorem names_stay_unique_rivalry :
    let s := (takeOver (Session.start.run seeded) 2 4).run rivalry
    s.registry.NamesUnique ∧
      (∀ entry ∈ s.history.answered, ∀ x, entry.2.created? = some x →
        ∃ t policy, entry.1.request = .createChecked t x.source x.name x.value policy) ∧
      s.history.answered.Pairwise fun first second => ∀ x y,
        first.2.created? = some x → second.2.created? = some y →
          ¬(x.source == y.source ∧ x.name = y.name) := by
  have hlog : (Session.start.run seeded).log = [⟨.application, "Accent", .flag true⟩] := rfl
  have hdistinct : (Session.start.run seeded).log.Distinct := by
    rw [hlog]
    exact List.pairwise_singleton _ _
  have hunique := (Session.run_reflects Registry.reflects_empty seeded).namesUnique_iff.mpr hdistinct
  exact names_stay_unique seeded 2 4 rivalry hunique (by decide)

end Service

end ScopedResources
