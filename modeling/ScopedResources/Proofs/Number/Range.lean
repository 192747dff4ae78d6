import Mathlib.Algebra.Group.Nat.Defs
import ScopedResources.Number.Decimal

/-! # Numbers in range

Bounds on codes and sizes: what is small enough has a finite code, whichever way it is rounded. The
natural numbers of 64 bits are therefore numbers in range, and all numbers that are read are
finite. -/

namespace ScopedResources

namespace Binary64

theorem roundHalfEven_le (n d : Nat) : roundHalfEven n d ≤ n / d + 1 := by
  simp only [roundHalfEven]
  split <;> omega

/-- Each power of two takes one block of codes. -/
theorem nearestCode_le {n d m : Nat} (hm : 53 ≤ m) (h : n < 2 ^ m * d) :
    nearestCode n d ≤ (m - 51) * fractionCount := by
  have hd : 0 < d := Nat.pos_of_ne_zero fun hd => by simp [hd] at h
  have hq : n / d < 2 ^ m := (Nat.div_lt_iff_lt_mul hd).mpr h
  let scale := (n / d).log2 - 52
  have hscale : scale ≤ m - 53 := by
    by_cases h0 : n / d = 0
    · simp [scale, h0]
    · have := (Nat.log2_lt h0).mpr hq
      omega
  have hrounded : roundHalfEven n (d * Nat.pow 2 scale) ≤ 2 * fractionCount := by
    refine Nat.le_trans (roundHalfEven_le _ _) ?_
    rw [← Nat.div_div_eq_div_mul]
    have : n / d < 2 ^ (53 + scale) :=
      Nat.lt_of_lt_of_le Nat.lt_log2_self (Nat.pow_le_pow_right (by omega) (by omega))
    have : n / d / 2 ^ scale < 2 ^ 53 := by
      rw [Nat.div_lt_iff_lt_mul (Nat.two_pow_pos scale), ← Nat.pow_add]
      exact this
    exact this
  calc scale * fractionCount + roundHalfEven n (d * Nat.pow 2 scale)
      ≤ (m - 53) * fractionCount + 2 * fractionCount :=
        Nat.add_le_add (Nat.mul_le_mul_right _ hscale) hrounded
    _ = (m - 51) * fractionCount := by rw [← Nat.add_mul]; congr 1; omega

theorem unitsOfCode_lt {code blocks : Nat} (hb : 0 < blocks) (h : code ≤ blocks * fractionCount) :
    unitsOfCode code < 2 ^ (blocks + 52) := by
  have hfraction : fractionCount = 2 ^ 52 := rfl
  unfold unitsOfCode
  split
  · next hlow =>
    rw [hfraction] at hlow
    exact Nat.lt_of_lt_of_le hlow (Nat.pow_le_pow_right (by omega) (by omega))
  · have hblock : code / fractionCount ≤ blocks :=
      Nat.div_le_of_le_mul (by rw [Nat.mul_comm]; exact h)
    have hmod : code % fractionCount < fractionCount := Nat.mod_lt _ (by rw [hfraction]; omega)
    calc (fractionCount + code % fractionCount) * 2 ^ (code / fractionCount - 1)
        < 2 ^ 53 * 2 ^ (code / fractionCount - 1) :=
          Nat.mul_lt_mul_of_pos_right (by omega) (Nat.two_pow_pos _)
      _ ≤ 2 ^ 53 * 2 ^ (blocks - 1) :=
          Nat.mul_le_mul_left _ (Nat.pow_le_pow_right (by omega) (by omega))
      _ = 2 ^ (blocks + 52) := by rw [← Nat.pow_add]; congr 1; omega

/-- The exponent is kept apart, so that nothing computes the power. -/
theorem exists_unitsOfOne : ∃ e, e = 1074 ∧ unitsOfOne = Nat.pow 2 e := by
  refine ⟨1074, rfl, ?_⟩
  unfold unitsOfOne
  rfl

theorem codeOfNat_le {n e : Nat} (hone : unitsOfOne = 2 ^ e) (h : n < 2 ^ 64) :
    codeOfNat n ≤ (64 + e - 51) * fractionCount := by
  have hn : n * unitsOfOne < 2 ^ (64 + e) * 1 := by
    rw [hone, Nat.mul_one, Nat.pow_add]
    exact Nat.mul_lt_mul_of_pos_right h (Nat.two_pow_pos e)
  exact nearestCode_le (by omega) hn

theorem isFinite_ofCode (negative : Bool) {c : Nat} (h : c < infinityCode) :
    (ofCode negative c).isFinite := by
  have hinfinity : infinityCode < signPlace := by decide
  rw [isFinite, code_ofCode negative (Nat.lt_trans h hinfinity)]
  exact decide_eq_true h

end Binary64

/-! ## Decimals -/

namespace Decimal

open Binary64

theorem isFinite_of_toBinary64? {d : Decimal} {x : Binary64} (h : d.toBinary64? = some x) :
    x.isFinite := by
  unfold toBinary64? at h
  split at h
  · next hc =>
    cases h
    exact isFinite_ofCode d.negative hc
  · cases h

theorem powerCode_zero_le {e : Nat} (hone : unitsOfOne = 2 ^ e) (he : 52 ≤ e) :
    powerCode 0 ≤ (e + 1 - 51) * fractionCount := by
  have hratio : unitsOfOne < 2 ^ (e + 1) * 1 := by
    rw [hone, Nat.mul_one]
    exact Nat.pow_lt_pow_right (by omega) (by omega)
  have hpower : powerCode 0 = Binary64.nearestCode unitsOfOne 1 := by
    simp [powerCode, nearestCode, unitRatio]
  rw [hpower]
  exact nearestCode_le (by omega) hratio

/-- A natural number of 64 bits is in range. -/
theorem toBinary64?_nat (negative : Bool) {n : Nat} (h : n < 2 ^ 64) :
    ∃ x, (Decimal.mk negative n 0).toBinary64? = some x := by
  obtain ⟨e, he, hone⟩ := exists_unitsOfOne
  have hproduct : unitsOfCode (codeOfNat n) * unitsOfCode (powerCode 0) <
      2 ^ (67 + e) * unitsOfOne := by
    calc unitsOfCode (codeOfNat n) * unitsOfCode (powerCode 0)
        < 2 ^ (64 + e - 51 + 52) * 2 ^ (e + 1 - 51 + 52) :=
          Nat.mul_lt_mul'' (unitsOfCode_lt (by omega) (codeOfNat_le hone h))
            (unitsOfCode_lt (by omega) (powerCode_zero_le hone (by omega)))
      _ = 2 ^ (67 + e) * unitsOfOne := by
          rw [hone, ← Nat.pow_add]
          exact (congrArg (2 ^ ·) (by omega)).trans (Nat.pow_add 2 (67 + e) e)
  have hcode : productCode (codeOfNat n) (powerCode 0) ≤ (67 + e - 51) * fractionCount :=
    nearestCode_le (by omega) hproduct
  have hstepped : (Decimal.mk negative n 0).steppedCode < infinityCode :=
    Nat.lt_of_le_of_lt hcode (Nat.mul_lt_mul_of_pos_right (by omega) (by decide))
  exact ⟨_, if_pos hstepped⟩

end Decimal

/-! ## Digits -/

theorem digitsValue_eq (start : Nat) (ds : List Char) :
    digitsValue start ds = Nat.ofDigitChars 10 ds start := Nat.ofDigitChars_eq_foldl.symm

theorem digitsValue_toDigits (n : Nat) : digitsValue 0 (Nat.toDigits 10 n) = n := by
  rw [digitsValue_eq, Nat.ofDigitChars_ten_toDigits]

theorem le_digitsValue (start : Nat) (ds : List Char) : start ≤ digitsValue start ds := by
  induction ds generalizing start with
  | nil => exact Nat.le_refl _
  | cons d ds ih => exact Nat.le_trans (by omega) (ih (10 * start + digitValue d))

/-- All digits are taken as long as they fit. -/
theorem gather_eq {n : Nat} {ds : List Char} (h : digitsValue n ds < UInt64.size) (taken : Nat) :
    gather n taken ds = (digitsValue n ds, taken + ds.length) := by
  induction ds generalizing n taken with
  | nil => rfl
  | cons d ds ih =>
    have hfirst := Nat.lt_of_le_of_lt (le_digitsValue (10 * n + digitValue d) ds) h
    rw [gather, if_pos hfirst, ih h, List.length_cons, Nat.add_assoc, Nat.add_comm 1]
    rfl

theorem Decimal.ofDigits_nat (negative : Bool) {ds : List Char} (h : digitsValue 0 ds < UInt64.size) :
    Decimal.ofDigits negative ds [] 0 = ⟨negative, digitsValue 0 ds, 0⟩ := by
  rw [ofDigits, gather_eq h]
  simp [gather]

end ScopedResources
