import Mathlib.Data.List.Dedup
import ScopedResources.Proofs.Registry.FreeNames

/-! # The search for a name

Nothing bounds the search for a free name but the names that are taken. It tries one candidate after
the other with a counter, and as the candidates are distinct it runs out of names that are taken. So
it ends, at the least number whose name is free, and its counter goes no further than one more than
there are distinct names. -/

namespace ScopedResources

/-- Tries one candidate after the other, from a number on, and ends at the first whose name is free.
The counter cannot go beyond the limit. -/
inductive Search (taken : List String) (base : String) (limit : Nat) : Nat → Nat → Prop where
  | found {n : Nat} (hlimit : n ≤ limit) (hfree : numbered base n ∉ taken) :
    Search taken base limit n n
  | next {n k : Nat} (hlimit : n < limit) (htaken : numbered base n ∈ taken)
    (hrest : Search taken base limit (n + 1) k) : Search taken base limit n k

namespace Search

variable {taken : List String} {base : String} {limit start k : Nat}

theorem le_limit (h : Search taken base limit start k) : k ≤ limit := by
  induction h with
  | found hlimit _ => exact hlimit
  | next _ _ _ ih => exact ih

theorem isLeast (h : Search taken base limit start k) :
    IsLeast {n | start ≤ n ∧ numbered base n ∉ taken} k := by
  induction h with
  | found _ hfree => exact ⟨⟨Nat.le_refl _, hfree⟩, fun n hn => hn.1⟩
  | @next start k _ htaken _ ih =>
    obtain ⟨⟨hle, hfree⟩, hleast⟩ := ih
    refine ⟨⟨Nat.le_of_succ_le hle, hfree⟩, ?_⟩
    rintro n ⟨hn, hnfree⟩
    have hne : start ≠ n := by
      rintro rfl
      exact hnfree htaken
    exact hleast ⟨Nat.lt_of_le_of_ne hn hne, hnfree⟩

/-- A search gets to the least number whose name is free if its counter can. -/
theorem of_isLeast (hleast : IsLeast {n | start ≤ n ∧ numbered base n ∉ taken} k)
    (hlimit : k ≤ limit) : Search taken base limit start k := by
  obtain ⟨⟨hle, hfree⟩, hbelow⟩ := hleast
  -- The induction is on how many candidates are left before the free one.
  obtain ⟨left, rfl⟩ := Nat.exists_eq_add_of_le hle
  induction left generalizing start with
  | zero => exact found hlimit hfree
  | succ left ih =>
    have htaken : numbered base start ∈ taken := by
      by_contra hnfree
      have := hbelow ⟨Nat.le_refl start, hnfree⟩
      omega
    refine next (by omega) htaken ?_
    rw [Nat.add_comm left 1, ← Nat.add_assoc] at hfree hlimit hbelow ⊢
    refine ih hlimit ?_ (Nat.le_add_right ..) hfree
    rintro n ⟨hn, hnfree⟩
    exact hbelow ⟨Nat.le_of_succ_le hn, hnfree⟩

end Search

theorem search_iff {taken : List String} {base : String} {limit start k : Nat} :
    Search taken base limit start k ↔
      k ≤ limit ∧ IsLeast {n | start ≤ n ∧ numbered base n ∉ taken} k :=
  ⟨fun h => ⟨h.le_limit, h.isLeast⟩, fun ⟨hlimit, hleast⟩ => .of_isLeast hleast hlimit⟩

namespace Registry

/-- One of the candidates up to one more than there are distinct names is free. -/
theorem freeNumber_le (r : Registry) (base : String) :
    r.freeNumber base ≤ 1 + r.applicationNames.dedup.length := by
  have hleast := r.isLeast_freeNumber base
  have hone : 1 ≤ r.freeNumber base := hleast.1.1
  have hcount : r.freeNumber base - 1 ≤ r.applicationNames.dedup.length := by
    refine le_length_of_numbered_mem base 1 ?_
    intro n hn hlt
    rw [List.mem_dedup]
    by_contra hfree
    have := hleast.2 ⟨hn, hfree⟩
    omega
  omega

/-- The name that is suggested is the base name with the least number, from one on, whose name no
resource of the application goes by; a blank base name is refused. The search for it ends there and
nowhere else, with any counter that can go beyond the number of distinct names. -/
theorem suggestName_ends (r : Registry) (base : String) :
    ∃ k, r.suggestName base =
        (if isBlankName base then .error .blankName else .ok (numbered base k)) ∧
      IsLeast {n | 1 ≤ n ∧ ¬∃ x ∈ r.inSource .application, x.name = numbered base n} k ∧
      k ≤ 1 + r.applicationNames.dedup.length ∧
      (∀ limit, r.applicationNames.dedup.length < limit → Search r.applicationNames base limit 1 k) ∧
      ∀ limit n, Search r.applicationNames base limit 1 n → n = k := by
  have hleast := r.isLeast_freeNumber base
  have hle := r.freeNumber_le base
  refine ⟨r.freeNumber base, ?_, ?_, hle, ?_, ?_⟩
  · cases hbase : isBlankName base with
    | true =>
      rw [suggestName, requireName, hbase]
      rfl
    | false => exact r.suggestName_eq_ok hbase
  · simpa [applicationNames] using hleast
  · intro limit hlimit
    exact search_iff.mpr ⟨by omega, hleast⟩
  · intro limit n hsearch
    exact (search_iff.mp hsearch).2.unique hleast

end Registry

end ScopedResources
