import Mathlib.Data.List.Basic
import ScopedResources.Proofs.Registry.Listing

/-! # What a prune takes away

A prune drops the sources of targets that are gone, each such target having one, and counts them. The
registry gets smaller by what is in them. All other sources stay, with all that is in them. -/

namespace ScopedResources.Registry

/-- The targets that are gone and whose sources are registered. -/
def goneOwners (alive : Liveness) (r : Registry) : List Target :=
  (r.registration.filterMap Source.owner?).filter fun t => !alive t

variable {alive : Liveness} {r : Registry} {log : Log}

/-- Only the sources of targets can be out of reach. -/
theorem filter_not_isReachable (alive : Liveness) (r : Registry) :
    (r.registration.filter fun s => !s.isReachable alive) = (r.goneOwners alive).map .ofTarget := by
  unfold goneOwners
  induction r.registration with
  | nil => rfl
  | cons s ss ih =>
    cases s with
    | shared scope name => exact ih
    | ofTarget owner =>
      have hreachable : (Source.ofTarget owner).isReachable alive = alive owner := rfl
      have howners : (Source.ofTarget owner :: ss).filterMap Source.owner? =
          owner :: ss.filterMap Source.owner? := rfl
      rw [howners, List.filter_cons, List.filter_cons, hreachable, ih]
      split <;> rfl

theorem length_goneOwners (alive : Liveness) (r : Registry) :
    (r.goneOwners alive).length = (r.prune alive).1 := by
  rw [← List.length_map Source.ofTarget, ← filter_not_isReachable]
  exact (Nat.sub_eq_of_eq_add' (List.length_eq_length_filter_add fun s : Source =>
    s.isReachable alive)).symm

theorem sourceCount_prune (alive : Liveness) (r : Registry) :
    (r.prune alive).2.sourceCount + (r.prune alive).1 = r.sourceCount :=
  Nat.add_sub_of_le (List.length_filter_le ..)

namespace Reflects

/-- No source is registered twice. -/
theorem pairwise_registration (h : r.Reflects log) :
    r.registration.Pairwise fun a b => (a == b) = false :=
  h.registration ▸ pairwise_eraseDups _

theorem pairwise_goneOwners (h : r.Reflects log) (alive : Liveness) :
    (r.goneOwners alive).Pairwise fun a b => (a == b) = false := by
  have hsources := h.pairwise_registration.sublist
    (List.filter_sublist (p := fun s => !s.isReachable alive))
  rw [filter_not_isReachable, List.pairwise_map] at hsources
  refine hsources.imp fun {a b} hab => ?_
  rw [Bool.eq_false_iff, ne_eq, Target.beq_iff]
  exact fun hid => Bool.eq_false_iff.mp hab (Source.beq_iff.mpr (congrArg SourceKey.ofTarget hid))

/-- A prune counts each target that is gone once. -/
theorem count_prune (h : r.Reflects log) (alive : Liveness) :
    (r.prune alive).1 = (r.goneOwners alive).eraseDups.length := by
  rw [eraseDups_of_pairwise (h.pairwise_goneOwners alive), length_goneOwners]

/-- What is in their sources goes with them, and nothing else. -/
theorem size_prune (halive : alive.Consistent) (h : r.Reflects log) : (r.prune alive).2.size +
    ((r.goneOwners alive).flatMap fun t => r.inSource (.ofTarget t)).length = r.size := by
  let gone := r.registration.filter fun s => !s.isReachable alive
  have hgone : ((r.goneOwners alive).flatMap fun t => r.inSource (.ofTarget t)) =
      gone.flatMap log.inSource := by
    rw [show gone = _ from filter_not_isReachable alive r, List.flatMap_map, ← funext h.inSource]
  have hentries : (log.filter fun x => gone.contains x.source) =
      log.filter fun x => !x.source.isReachable alive := by
    refine List.filter_congr fun x hx => ?_
    have hregistered : r.registration.contains x.source := by
      rw [h.registration]
      exact Log.mem_sources.mpr (.inr ⟨x, hx, BEq.rfl⟩)
    rw [contains_filter fun s hs => by rw [Source.isReachable_congr halive hs], hregistered,
      Bool.and_true]
  have hlost := log.flatMap_inSource_perm (h.pairwise_registration.sublist
    (List.filter_sublist (p := fun s => !s.isReachable alive)))
  rw [(h.prune halive).size, h.size, hgone, hlost.length_eq, hentries]
  exact (List.length_eq_length_filter_add fun x : Resource => x.source.isReachable alive).symm

end Reflects

/-! ## What stays -/

/-- The second registry still has the source, with all that was in it. -/
def Keeps (r r' : Registry) (s : Source) : Prop :=
  s ∈ r'.registration ∧ r.inSource s <+: r'.inSource s

variable {s : Source}

theorem keeps_refl (hs : s ∈ r.registration) : r.Keeps r s := ⟨hs, List.prefix_rfl⟩

theorem Keeps.trans {r' r'' : Registry} (h : r.Keeps r' s) (h' : r'.Keeps r'' s) : r.Keeps r'' s :=
  ⟨h'.1, h.2.trans h'.2⟩

theorem keeps_append (hs : s ∈ r.registration) (x : Resource) : r.Keeps (r.append x) s := by
  refine ⟨?_, ?_⟩
  · change s ∈ if x.source ∈ r.groups then r.registration else r.registration ++ [x.source]
    split
    · exact hs
    · exact List.mem_append_left _ hs
  · rw [inSource_append]
    split
    · exact List.prefix_append ..
    · exact List.prefix_rfl

theorem keeps_seed (hs : s ∈ r.registration) (xs : List Resource) : r.Keeps (r.seed xs) s := by
  induction xs generalizing r with
  | nil => exact keeps_refl hs
  | cons x xs ih =>
    have hx := keeps_append hs x
    exact hx.trans (ih hx.1)

theorem keeps_prune (halive : alive.Consistent) (hs : s ∈ r.registration)
    (hreachable : s.isReachable alive) : r.Keeps (r.prune alive).2 s := by
  have hsame : (r.prune alive).2.inSource s = r.inSource s := by
    rw [inSource_prune halive, if_pos hreachable]
  exact ⟨List.mem_filter.mpr ⟨hs, hreachable⟩, hsame ▸ List.prefix_rfl⟩

end ScopedResources.Registry
