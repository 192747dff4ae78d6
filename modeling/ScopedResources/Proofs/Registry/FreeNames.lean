import Mathlib.Data.List.Nodup
import Mathlib.Data.List.Range
import Mathlib.Data.List.Perm.Subperm
import Mathlib.Order.Bounds.Basic
import ScopedResources.Registry.Collision

/-! # Free names

Different numbers make different names. So among one more candidate than there are names taken one is
free, and the search for a name ends with the least number whose name is. -/

namespace ScopedResources

/-! ## Numbered names -/

theorem numbered_injective (base : String) : Function.Injective (numbered base) := by
  intro m n h
  have hdigits : Nat.toDigits 10 m = Nat.toDigits 10 n := by
    simpa [numbered, ← String.toList_inj] using h
  calc
    m = Nat.ofDigitChars 10 (Nat.toDigits 10 m) 0 := Nat.ofDigitChars_ten_toDigits.symm
    _ = n := by rw [hdigits, Nat.ofDigitChars_ten_toDigits]

theorem isBlankName_numbered {base : String} (h : isBlankName base = false) (n : Nat) :
    isBlankName (numbered base n) = false := by
  unfold isBlankName at h ⊢
  rw [numbered, String.toList_append, List.all_append, h, Bool.false_and]

/-! ## The search -/

variable {taken : List String} {base : String}

theorem firstFree_bounds (taken : List String) (base : String) (limit start : Nat) :
    start ≤ firstFree taken base limit start ∧ firstFree taken base limit start ≤ start + limit := by
  induction limit generalizing start with
  | zero => exact ⟨Nat.le_refl _, Nat.le_refl _⟩
  | succ limit ih =>
    have hrest := ih (start + 1)
    rw [firstFree]
    split <;> omega

/-- The search passes over names that are taken. -/
theorem mem_of_lt_firstFree {limit start n : Nat} (hstart : start ≤ n)
    (hn : n < firstFree taken base limit start) : numbered base n ∈ taken := by
  induction limit generalizing start with
  | zero =>
    rw [firstFree] at hn
    omega
  | succ limit ih =>
    rw [firstFree] at hn
    split at hn
    · next h =>
      rcases Nat.eq_or_lt_of_le hstart with rfl | hlt
      · exact List.contains_iff_mem.mp h
      · exact ih hlt hn
    · omega

/-- It ends at a free name, or behind all candidates. -/
theorem firstFree_cases (taken : List String) (base : String) (limit start : Nat) :
    numbered base (firstFree taken base limit start) ∉ taken ∨
      firstFree taken base limit start = start + limit := by
  induction limit generalizing start with
  | zero => exact .inr rfl
  | succ limit ih =>
    rw [firstFree]
    split
    · have hrest := ih (start + 1)
      rwa [Nat.add_right_comm, Nat.add_assoc start limit 1] at hrest
    · next h => exact .inl fun hm => h (List.contains_iff_mem.mpr hm)

/-- The candidates cannot all be taken if there are more of them than names. -/
theorem le_length_of_numbered_mem (base : String) (start : Nat) {count : Nat}
    (h : ∀ n, start ≤ n → n < start + count → numbered base n ∈ taken) : count ≤ taken.length := by
  let candidates := (List.range' start count).map (numbered base)
  have hnodup : candidates.Nodup := List.Nodup.map (numbered_injective base) List.nodup_range'
  have hsubset : candidates ⊆ taken := by
    intro name hm
    obtain ⟨n, hn, rfl⟩ := List.mem_map.mp hm
    obtain ⟨hle, hlt⟩ := List.mem_range'_1.mp hn
    exact h n hle hlt
  have hlength := (List.subperm_of_subset hnodup hsubset).length_le
  rwa [List.length_map, List.length_range'] at hlength

theorem firstFree_not_mem {limit : Nat} (hlimit : taken.length ≤ limit) (start : Nat) :
    numbered base (firstFree taken base limit start) ∉ taken := by
  rcases firstFree_cases taken base limit start with hfree | hend
  · exact hfree
  · intro hm
    -- Otherwise one more candidate would be taken than there are names.
    have hcount : limit + 1 ≤ taken.length := by
      refine le_length_of_numbered_mem base start ?_
      intro n hle hlt
      rcases Nat.lt_or_ge n (firstFree taken base limit start) with hn | hn
      · exact mem_of_lt_firstFree hle hn
      · have : n = firstFree taken base limit start := by omega
        rwa [this]
    omega

namespace Registry

variable {r r' : Registry}

/-- The number of the name that is suggested. -/
def freeNumber (r : Registry) (base : String) : Nat :=
  firstFree r.applicationNames base r.applicationNames.length 1

theorem suggestName_eq_ok (r : Registry) (h : isBlankName base = false) :
    r.suggestName base = .ok (numbered base (r.freeNumber base)) := by
  rw [suggestName, requireName, h]
  rfl

/-- The name that is suggested is the first one, from number one on, that no application resource
goes by. -/
theorem isLeast_freeNumber (r : Registry) (base : String) :
    IsLeast {n | 1 ≤ n ∧ numbered base n ∉ r.applicationNames} (r.freeNumber base) := by
  refine ⟨⟨(firstFree_bounds ..).1, firstFree_not_mem (Nat.le_refl _) 1⟩, ?_⟩
  rintro n ⟨hone, hfree⟩
  by_contra hlt
  exact hfree (mem_of_lt_firstFree hone (Nat.lt_of_not_le hlt))

/-- The more names are taken, the later the first one that is free. -/
theorem freeNumber_mono (h : r.applicationNames ⊆ r'.applicationNames) (base : String) :
    r.freeNumber base ≤ r'.freeNumber base := by
  obtain ⟨⟨hone, hfree⟩, _⟩ := r'.isLeast_freeNumber base
  exact (r.isLeast_freeNumber base).2 ⟨hone, fun hm => hfree (h hm)⟩

theorem freeNumber_lt (h : r.applicationNames ⊆ r'.applicationNames)
    (htaken : numbered base (r.freeNumber base) ∈ r'.applicationNames) :
    r.freeNumber base < r'.freeNumber base := by
  refine Nat.lt_of_le_of_ne (freeNumber_mono h base) ?_
  intro he
  rw [he] at htaken
  exact (r'.isLeast_freeNumber base).1.2 htaken

theorem holdsName_application (r : Registry) (name : String) :
    r.holdsName .application name = true ↔ name ∈ r.applicationNames := by
  simp [holdsName, applicationNames]

end Registry

end ScopedResources
