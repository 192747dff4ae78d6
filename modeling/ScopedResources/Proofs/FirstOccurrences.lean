/-! # First occurrences

`List.eraseDups` keeps the first of members that are equal. The lemmas here ask of equality only
that it is an equivalence, because equal sources and equal targets need not be identical. -/

namespace ScopedResources

variable {α : Type} [BEq α]

theorem contains_filter {l : List α} {p : α → Bool} {a : α} (hp : ∀ b, a == b → p a = p b) :
    (l.filter p).contains a = (p a && l.contains a) := by
  induction l with
  | nil => simp
  | cons b l ih =>
    rw [List.filter_cons, List.contains_cons]
    cases hb : p b with
    | true =>
      rw [if_pos rfl, List.contains_cons, ih]
      by_cases h : a == b
      · simp [h, hp b h, hb]
      · simp [h]
    | false =>
      rw [if_neg Bool.false_ne_true, ih]
      by_cases h : a == b
      · simp [hp b h, hb]
      · simp [h]

theorem eraseDups_filter {l : List α} {p : α → Bool} (hp : ∀ a b, a == b → p a = p b) :
    (l.filter p).eraseDups = l.eraseDups.filter p := by
  match l with
  | [] => rfl
  | b :: l =>
    have ih := eraseDups_filter (l := l.filter fun c => !c == b) hp
    rw [List.eraseDups_cons, List.filter_cons, List.filter_cons, ← ih, List.filter_filter]
    by_cases h : p b
    · simp only [h, if_true, List.eraseDups_cons, List.filter_filter, Bool.and_comm]
    · rw [if_neg h, if_neg h]
      congr 1
      -- Members equal to the one that goes do not satisfy `p` either.
      refine List.filter_congr fun c _ => ?_
      by_cases hc : c == b
      · simp [hp c b hc, h]
      · simp [hc]
termination_by l.length
decreasing_by exact Nat.lt_succ_of_le (List.length_filter_le _ _)

/-- It makes no difference to compare by something that tells the members apart as well. -/
theorem eraseDups_map {β : Type} [BEq β] {f : α → β} {l : List α}
    (hf : ∀ a ∈ l, ∀ b ∈ l, (f a == f b) = (a == b)) : (l.map f).eraseDups = l.eraseDups.map f := by
  match l with
  | [] => rfl
  | b :: l =>
    let rest := l.filter fun c => !c == b
    have hrest : (l.map f).filter (fun c => !c == f b) = rest.map f := by
      rw [List.filter_map]
      refine congrArg (List.map f) (List.filter_congr fun c hc => ?_)
      rw [Function.comp_apply, hf c (List.mem_cons_of_mem b hc) b List.mem_cons_self]
    have ih := eraseDups_map (l := rest) fun c hc d hd =>
      hf c (List.mem_cons_of_mem b (List.mem_filter.mp hc).1) d
        (List.mem_cons_of_mem b (List.mem_filter.mp hd).1)
    rw [List.map_cons, List.eraseDups_cons, List.eraseDups_cons, List.map_cons, hrest, ih]
termination_by l.length
decreasing_by exact Nat.lt_succ_of_le (List.length_filter_le _ _)

variable [EquivBEq α]

theorem contains_congr {l : List α} {a b : α} (h : a == b) : l.contains a = l.contains b := by
  induction l with
  | nil => rfl
  | cons c l ih => rw [List.contains_cons, List.contains_cons, ih, BEq.congr_left h]

theorem contains_eraseDups (l : List α) (a : α) : l.eraseDups.contains a = l.contains a := by
  match l with
  | [] => rfl
  | b :: l =>
    rw [List.eraseDups_cons, List.contains_cons, List.contains_cons, contains_eraseDups]
    rw [contains_filter fun c h => by rw [BEq.congr_left h]]
    cases a == b <;> simp
termination_by l.length
decreasing_by exact Nat.lt_succ_of_le (List.length_filter_le _ _)

/-- A new member comes last, and one that is there already changes nothing. -/
theorem eraseDups_concat (l : List α) (a : α) :
    (l ++ [a]).eraseDups = if l.contains a then l.eraseDups else l.eraseDups ++ [a] := by
  match l with
  | [] => rfl
  | b :: l =>
    rw [List.cons_append, List.eraseDups_cons, List.eraseDups_cons, List.filter_append,
      List.contains_cons]
    by_cases h : a == b
    · simp [h]
    · have hf : [a].filter (fun c => !c == b) = [a] := by simp [h]
      rw [hf, eraseDups_concat, contains_filter fun c hc => by rw [BEq.congr_left hc]]
      simp only [Bool.not_eq_true] at h
      simp only [h, Bool.not_false, Bool.true_and, Bool.false_or]
      split <;> rfl
termination_by l.length
decreasing_by exact Nat.lt_succ_of_le (List.length_filter_le _ _)

/-- No two members of what is kept are equal. -/
theorem pairwise_eraseDups (l : List α) : l.eraseDups.Pairwise fun a b => (a == b) = false := by
  match l with
  | [] => exact .nil
  | b :: l =>
    rw [List.eraseDups_cons]
    refine .cons (fun c hc => ?_) (pairwise_eraseDups _)
    have hm : (l.filter fun c => !c == b).contains c := by
      rw [← contains_eraseDups]
      exact List.contains_iff_exists_mem_beq.mpr ⟨c, hc, BEq.rfl⟩
    rw [contains_filter fun d h => by rw [BEq.congr_left h], Bool.and_eq_true] at hm
    rw [BEq.comm]
    simpa using hm.1
termination_by l.length
decreasing_by exact Nat.lt_succ_of_le (List.length_filter_le _ _)

/-- Nothing is dropped if no two members are equal. -/
theorem eraseDups_of_pairwise {l : List α} (h : l.Pairwise fun a b => (a == b) = false) :
    l.eraseDups = l := by
  induction l with
  | nil => rfl
  | cons b l ih =>
    obtain ⟨hb, hl⟩ := List.pairwise_cons.mp h
    have hkept : (l.filter fun c => !c == b) = l := by
      refine List.filter_eq_self.mpr fun c hc => ?_
      rw [BEq.comm, hb c hc]
      rfl
    rw [List.eraseDups_cons, hkept, ih hl]

end ScopedResources
