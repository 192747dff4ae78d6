import Mathlib.Data.List.TakeWhile
import ScopedResources.Json.Reader
import ScopedResources.Json.Writer
import ScopedResources.Proofs.Json.Grammar
import ScopedResources.Proofs.Number.Range

/-! # Numbers

What stands behind a value cannot go on with it, so a number is taken the same way whatever stands
there. Numbers are written without blanks and begin with a digit or a minus sign. -/

namespace ScopedResources.Json

theorem of_bind_eq_ok {α β : Type} {x : Except Fault α} {f : α → Except Fault β} {b : β}
    (h : x >>= f = .ok b) : ∃ a, x = .ok a ∧ f a = .ok b := by
  cases x with
  | error fault => cases h
  | ok a => exact ⟨a, rfl, h⟩

/-- The text ends here, or goes on with what stands behind a value. -/
inductive Fence : List Char → Prop
  | nil : Fence []
  | comma (cs : List Char) : Fence (',' :: cs)
  | bracket (cs : List Char) : Fence (']' :: cs)
  | brace (cs : List Char) : Fence ('\x7d' :: cs)
  | blank {c : Char} (h : isBlank c) (cs : List Char) : Fence (c :: cs)

variable {tail : List Char}

namespace Fence

/-- No digit, point or exponent stands there, so no number goes on. -/
theorem ends (h : Fence tail) {c : Char} {cs : List Char} (htail : tail = c :: cs) :
    c.isDigit = false ∧ c ≠ '.' ∧ ¬(c = 'e' ∨ c = 'E') := by
  cases h with
  | nil => cases htail
  | comma _ | bracket _ | brace _ =>
    cases htail
    decide
  | blank hblank _ =>
    cases htail
    simp only [isBlank, Bool.or_eq_true, beq_iff_eq] at hblank
    rcases hblank with ((rfl | rfl) | rfl) | rfl <;> decide

theorem takeWhile_tail (h : Fence tail) : tail.takeWhile Char.isDigit = [] := by
  cases tail with
  | nil => rfl
  | cons c cs => rw [List.takeWhile_cons_of_neg (by simp [(h.ends rfl).1])]

theorem takeWhile_digits (h : Fence tail) (cs : List Char) :
    (cs ++ tail).takeWhile Char.isDigit = cs.takeWhile Char.isDigit := by
  have htail := h.takeWhile_tail
  rw [List.takeWhile_append, htail, List.append_nil]
  split
  · next hall => exact ((List.takeWhile_prefix _).eq_of_length hall).symm
  · rfl

theorem dropWhile_digits (h : Fence tail) (cs : List Char) :
    (cs ++ tail).dropWhile Char.isDigit = cs.dropWhile Char.isDigit ++ tail := by
  have htail : tail.dropWhile Char.isDigit = tail := by
    have hsplit := List.takeWhile_append_dropWhile (p := Char.isDigit) (l := tail)
    rwa [h.takeWhile_tail, List.nil_append] at hsplit
  rw [List.dropWhile_append, htail]
  split
  · next hall => rw [List.isEmpty_iff.mp hall, List.nil_append]
  · rfl

end Fence

/-! ## Numbers whatever stands behind them -/

/-- Where a part of a number has been taken, the same is taken from a text that goes on, and what is
left of it is left. -/
def IsLocal {α : Type} (take : List Char → Except Fault (α × List Char)) : Prop :=
  ∀ {cs rest : List Char} {a : α}, take cs = .ok (a, rest) →
    rest <:+ cs ∧ ∀ tail, Fence tail → take (cs ++ tail) = .ok (a, rest ++ tail)

/-- Digits are taken in one way before the point, behind it and in the exponent. -/
def takeDigits (cs : List Char) : Except Fault (List Char × List Char) :=
  match cs.takeWhile Char.isDigit with
  | [] => .error (digitFault cs)
  | ds => .ok (ds, cs.dropWhile Char.isDigit)

theorem takeDigits_eq_ok {cs ds rest : List Char} : takeDigits cs = .ok (ds, rest) ↔
    cs.takeWhile Char.isDigit = ds ∧ ds ≠ [] ∧ cs.dropWhile Char.isDigit = rest := by
  unfold takeDigits
  split
  · next hnone =>
    rw [hnone]
    constructor
    · intro h
      cases h
    · rintro ⟨rfl, hnil, _⟩
      exact absurd rfl hnil
  · next hsome =>
    simp only [Except.ok.injEq, Prod.mk.injEq]
    refine and_congr_right fun hds => ?_
    rw [← hds]
    exact (and_iff_right hsome).symm

theorem isLocal_takeDigits : IsLocal takeDigits := by
  intro cs rest ds h
  obtain ⟨hds, hsome, rfl⟩ := takeDigits_eq_ok.mp h
  refine ⟨List.dropWhile_suffix _, fun tail hf => takeDigits_eq_ok.mpr ⟨?_, hsome, ?_⟩⟩
  · rw [hf.takeWhile_digits, hds]
  · exact hf.dropWhile_digits cs

theorem takeFraction_point (cs : List Char) :
    takeFraction ('.' :: cs) = (takeDigits cs).map fun (ds, rest) => (some ds, rest) := by
  simp only [takeFraction, takeDigits]
  cases cs.takeWhile Char.isDigit <;> rfl

theorem takeFraction_of_ne {cs : List Char} (h : ∀ rest, cs ≠ '.' :: rest) :
    takeFraction cs = .ok (none, cs) := by
  rw [takeFraction]
  exact h

def takeSign : List Char → Bool × List Char
  | '-' :: rest => (true, rest)
  | '+' :: rest => (false, rest)
  | rest => (false, rest)

/-- An exponent with its sign. -/
def signed (negative : Bool) (ds : List Char) : Int :=
  if negative then -(digitsValue 0 ds : Int) else digitsValue 0 ds

theorem takeExponent_cons {e : Char} (he : e = 'e' ∨ e = 'E') (cs : List Char) :
    takeExponent (e :: cs) = (takeDigits (takeSign cs).2).map fun (ds, rest) =>
      (some (signed (takeSign cs).1 ds), rest) := by
  have hdigits : ∀ (negative : Bool) (cs : List Char),
      (match cs.takeWhile Char.isDigit with
        | [] => .error (digitFault cs)
        | ds => .ok (some (signed negative ds), cs.dropWhile Char.isDigit)) =
      (takeDigits cs).map fun (ds, rest) => (some (signed negative ds), rest) := by
    intro negative cs
    unfold takeDigits
    cases cs.takeWhile Char.isDigit <;> rfl
  rw [← hdigits]
  simp only [takeExponent, if_pos he]
  rfl

theorem takeExponent_of_ne {e : Char} (he : ¬(e = 'e' ∨ e = 'E')) (cs : List Char) :
    takeExponent (e :: cs) = .ok (none, e :: cs) := by
  simp only [takeExponent, if_neg he]

theorem takeSign_append {cs : List Char} (h : cs ≠ []) (tail : List Char) :
    takeSign (cs ++ tail) = ((takeSign cs).1, (takeSign cs).2 ++ tail) := by
  cases cs with
  | nil => exact absurd rfl h
  | cons c cs =>
    unfold takeSign
    rw [List.cons_append]
    by_cases hminus : c = '-'
    · subst hminus
      rfl
    by_cases hplus : c = '+'
    · subst hplus
      rfl
    simp [hminus, hplus]

theorem takeSign_suffix (cs : List Char) : (takeSign cs).2 <:+ cs := by
  unfold takeSign
  split
  · exact List.suffix_cons ..
  · exact List.suffix_cons ..
  · exact List.suffix_refl _

theorem takeWhole_of_ne {cs : List Char} (h : ∀ rest, cs ≠ '0' :: rest) :
    takeWhole cs = takeDigits cs := by
  rw [takeWhole]
  · rfl
  · exact h

theorem IsLocal.map {α β : Type} {take : List Char → Except Fault (α × List Char)}
    (h : IsLocal take) (g : α → β) : IsLocal fun cs => (take cs).map fun (a, rest) => (g a, rest) := by
  intro cs rest b hb
  cases ha : take cs with
  | error fault => simp [ha, Except.map] at hb
  | ok taken =>
    obtain ⟨a, left⟩ := taken
    simp only [ha, Except.map, Except.ok.injEq, Prod.mk.injEq] at hb
    obtain ⟨rfl, rfl⟩ := hb
    obtain ⟨hs, happend⟩ := h ha
    exact ⟨hs, fun tail hf => by simp [happend tail hf, Except.map]⟩

theorem isLocal_takeWhole : IsLocal takeWhole := by
  intro cs rest ds h
  by_cases hzero : ∃ cs', cs = '0' :: cs'
  · obtain ⟨cs', rfl⟩ := hzero
    cases cs' with
    | nil =>
      cases h
      refine ⟨List.suffix_cons _ _, fun tail hf => ?_⟩
      cases tail with
      | nil => rfl
      | cons c cs => simp [takeWhole, (hf.ends rfl).1]
    | cons d cs' =>
      simp only [takeWhole] at h
      split at h
      · cases h
      next hd =>
      cases h
      refine ⟨List.suffix_cons _ _, fun tail _ => ?_⟩
      simp [takeWhole, hd]
  · rw [takeWhole_of_ne fun cs' he => hzero ⟨cs', he⟩] at h
    obtain ⟨hs, happend⟩ := isLocal_takeDigits h
    refine ⟨hs, fun tail hf => ?_⟩
    rw [takeWhole_of_ne, happend tail hf]
    intro cs' he
    cases cs with
    | nil => cases h
    | cons c cs => exact hzero ⟨cs, by rw [(List.cons.inj he).1]⟩

theorem isLocal_takeFraction : IsLocal takeFraction := by
  intro cs rest fraction h
  by_cases hpoint : ∃ cs', cs = '.' :: cs'
  · obtain ⟨cs', rfl⟩ := hpoint
    rw [takeFraction_point] at h
    obtain ⟨hs, happend⟩ := isLocal_takeDigits.map some h
    refine ⟨hs.trans (List.suffix_cons _ _), fun tail hf => ?_⟩
    rw [List.cons_append, takeFraction_point]
    exact happend tail hf
  · rw [takeFraction_of_ne fun cs' he => hpoint ⟨cs', he⟩] at h
    cases h
    refine ⟨List.suffix_refl _, fun tail hf => takeFraction_of_ne fun cs' he => ?_⟩
    cases cs with
    | nil => exact (hf.ends he).2.1 rfl
    | cons c cs => exact hpoint ⟨cs, by rw [(List.cons.inj he).1]⟩

theorem isLocal_takeExponent : IsLocal takeExponent := by
  intro cs rest power h
  cases cs with
  | nil =>
    cases h
    refine ⟨List.suffix_refl _, fun tail hf => ?_⟩
    cases tail with
    | nil => rfl
    | cons c cs => exact takeExponent_of_ne (hf.ends rfl).2.2 cs
  | cons e cs =>
    by_cases he : e = 'e' ∨ e = 'E'
    · rw [takeExponent_cons he] at h
      obtain ⟨hs, happend⟩ := isLocal_takeDigits.map (fun ds => some (signed (takeSign cs).1 ds)) h
      refine ⟨(hs.trans (takeSign_suffix cs)).trans (List.suffix_cons _ _), fun tail hf => ?_⟩
      have hsome : cs ≠ [] := by
        rintro rfl
        cases h
      rw [List.cons_append, takeExponent_cons he, takeSign_append hsome]
      exact happend tail hf
    · rw [takeExponent_of_ne he] at h
      cases h
      exact ⟨List.suffix_refl _, fun tail _ => takeExponent_of_ne he (cs ++ tail)⟩

theorem isLocal_takeNumeral (negative : Bool) : IsLocal (takeNumeral negative) := by
  intro cs rest n h
  obtain ⟨⟨whole, cs₁⟩, hw, h⟩ := of_bind_eq_ok h
  obtain ⟨⟨fraction, cs₂⟩, hfr, h⟩ := of_bind_eq_ok h
  obtain ⟨⟨power, cs₃⟩, he, h⟩ := of_bind_eq_ok h
  cases h
  obtain ⟨hs₁, hw⟩ := isLocal_takeWhole hw
  obtain ⟨hs₂, hfr⟩ := isLocal_takeFraction hfr
  obtain ⟨hs₃, he⟩ := isLocal_takeExponent he
  refine ⟨(hs₃.trans hs₂).trans hs₁, fun tail hf => ?_⟩
  simp only [takeNumeral, hw tail hf, hfr tail hf, he tail hf, bind, Except.bind, pure, Except.pure]

/-! ## Numbers as values -/

theorem dropBlanks_cons {c : Char} (h : isBlank c = false) (cs : List Char) :
    dropBlanks (c :: cs) = c :: cs := by
  rw [dropBlanks, List.dropWhile_cons_of_neg (by simp [h])]

theorem isBlank_of_isDigit {c : Char} (h : c.isDigit) : isBlank c = false := by
  rw [Bool.eq_false_iff]
  intro hb
  simp only [isBlank, Bool.or_eq_true, beq_iff_eq] at hb
  rcases hb with ((rfl | rfl) | rfl) | rfl <;> cases h

/-- A minus sign or a digit begins a number. -/
theorem scanValue_number (fuel : Nat) (negative : Bool) {d : Char} (hd : d.isDigit) (cs : List Char) :
    scanValue (fuel + 1) ((if negative then ['-'] else []) ++ d :: cs) =
      scanNumber negative (d :: cs) := by
  cases negative with
  | true => rfl
  | false =>
    simp only [Bool.false_eq_true, if_false, List.nil_append, scanValue,
      dropBlanks_cons (isBlank_of_isDigit hd)]
    split <;> rename_i he <;> cases he
    -- None of the other signs is a digit.
    all_goals first | cases hd | exact if_pos hd

/-! ## Any number -/

theorem takeDigits_append {ds : List Char} (h : Digits ds)
    (htail : tail.takeWhile Char.isDigit = []) : takeDigits (ds ++ tail) = .ok (ds, tail) := by
  obtain ⟨hsome, hdigits⟩ := h
  have hsplit := List.takeWhile_append_dropWhile (p := Char.isDigit) (l := tail)
  rw [htail, List.nil_append] at hsplit
  refine takeDigits_eq_ok.mpr ⟨?_, hsome, ?_⟩
  · rw [List.takeWhile_append_of_pos hdigits, htail, List.append_nil]
  · rw [List.dropWhile_append_of_pos hdigits, hsplit]

theorem takeWhole_append {whole : List Char} (h : Digits whole)
    (hzero : ∀ ds, whole = '0' :: ds → ds = []) (htail : tail.takeWhile Char.isDigit = []) :
    takeWhole (whole ++ tail) = .ok (whole, tail) := by
  obtain ⟨d, ds, rfl⟩ := List.exists_cons_of_ne_nil h.1
  by_cases hd : d = '0'
  · subst hd
    obtain rfl := hzero ds rfl
    cases tail with
    | nil => rfl
    | cons c cs =>
      have hc : c.isDigit = false := by
        rw [Bool.eq_false_iff]
        intro hc
        rw [List.takeWhile_cons_of_pos hc] at htail
        cases htail
      simp [takeWhole, hc]
  · have hne : ∀ rest, (d :: ds) ++ tail ≠ '0' :: rest := fun rest he => hd (List.cons.inj he).1
    rw [takeWhole_of_ne hne]
    exact takeDigits_append h htail

theorem PowerText.takeExponent {cs : List Char} {power : Option Int} (h : PowerText cs power) :
    Json.takeExponent cs = .ok (power, []) := by
  cases h with
  | none => rfl
  | @some e sign ds negative he hsign hds =>
    have hsigned : takeSign (sign ++ ds) = (negative, ds) := by
      obtain ⟨d, ds, rfl⟩ := List.exists_cons_of_ne_nil hds.1
      cases hsign with
      | plus | minus => rfl
      | none =>
        have hd : d.isDigit := hds.2 d List.mem_cons_self
        unfold takeSign
        split
        · next heq => cases heq; cases hd
        · next heq => cases heq; cases hd
        · rfl
    have htake : takeDigits (ds ++ []) = .ok (ds, []) := takeDigits_append hds rfl
    rw [List.append_nil] at htake
    rw [takeExponent_cons he, hsigned, htake]
    rfl

theorem PowerText.takeWhile_digits {cs : List Char} {power : Option Int} (h : PowerText cs power) :
    cs.takeWhile Char.isDigit = [] := by
  cases h with
  | none => rfl
  | some he _ _ => rcases he with rfl | rfl <;> rfl

theorem FractionText.takeFraction {cs : List Char} {fraction : Option (List Char)}
    (h : FractionText cs fraction) {cs' : List Char} {power : Option Int} (h' : PowerText cs' power) :
    Json.takeFraction (cs ++ cs') = .ok (fraction, cs') := by
  cases h with
  | none =>
    refine takeFraction_of_ne fun rest he => ?_
    cases h' with
    | none => cases he
    | some he' _ _ =>
      cases (List.cons.inj he).1
      rcases he' with h | h <;> cases h
  | some hds =>
    rw [List.cons_append, takeFraction_point, takeDigits_append hds h'.takeWhile_digits]
    rfl

theorem FractionText.takeWhile_digits {cs : List Char} {fraction : Option (List Char)}
    (h : FractionText cs fraction) {cs' : List Char} {power : Option Int} (h' : PowerText cs' power) :
    (cs ++ cs').takeWhile Char.isDigit = [] := by
  cases h with
  | none => exact h'.takeWhile_digits
  | some _ => rfl

/-- A number in any spelling is taken, whatever stands behind it. -/
theorem NumeralText.scanValue {cs : List Char} {n : Numeral} (h : NumeralText cs n) (fuel : Nat)
    (hf : Fence tail) : Json.scanValue (fuel + 1) (cs ++ tail) = (.number n, some tail) := by
  obtain @⟨negative, whole, cs, cs', fraction, power, hwhole, hzero, hfraction, hpower⟩ := h
  have htake : takeNumeral negative (whole ++ (cs ++ cs')) =
      .ok (⟨negative, whole, fraction, power⟩, []) := by
    have hdigits := hfraction.takeWhile_digits hpower
    simp only [takeNumeral, takeWhole_append hwhole hzero hdigits, hfraction.takeFraction hpower,
      hpower.takeExponent, bind, Except.bind, pure, Except.pure]
  obtain ⟨_, hlocal⟩ := isLocal_takeNumeral negative htake
  have hlocal := hlocal tail hf
  obtain ⟨d, ds, rfl⟩ := List.exists_cons_of_ne_nil hwhole.1
  rw [List.cons_append, List.cons_append] at hlocal
  rw [List.append_assoc, List.cons_append, List.cons_append,
    scanValue_number fuel negative (hwhole.2 d List.mem_cons_self), scanNumber, hlocal]
  rfl

theorem NumeralText.first {cs : List Char} {n : Numeral} (h : NumeralText cs n) :
    ∃ c rest, cs = c :: rest ∧ (c = '-' ∨ c.isDigit) := by
  obtain @⟨negative, whole, cs, cs', fraction, power, hwhole, _, _, _⟩ := h
  obtain ⟨d, ds, rfl⟩ := List.exists_cons_of_ne_nil hwhole.1
  cases negative with
  | true => exact ⟨'-', _, rfl, .inl rfl⟩
  | false => exact ⟨d, _, rfl, .inr (hwhole.2 d List.mem_cons_self)⟩

/-! ## Natural numbers -/

theorem head_toDigits_ne_zero {n : Nat} (h : n ≠ 0) (cs : List Char) :
    Nat.toDigits 10 n ≠ '0' :: cs := by
  induction n using Nat.strongRecOn generalizing cs with
  | ind n ih =>
    by_cases hn : n < 10
    · rw [Nat.toDigits_of_lt_base hn]
      intro he
      have hd := congrArg Char.toNat (List.cons.inj he).1
      rw [Nat.toNat_digitChar_of_lt_ten hn, show '0'.toNat = 48 from rfl] at hd
      omega
    · rw [Nat.toDigits_of_base_le (by omega) (by omega)]
      intro he
      cases hds : Nat.toDigits 10 (n / 10) with
      | nil => exact Nat.toDigits_ne_nil hds
      | cons d ds =>
        rw [hds] at he
        refine ih (n / 10) (by omega) (by omega) ds ?_
        rw [hds, (List.cons.inj he).1]

theorem numeralText_nat (n : Nat) :
    NumeralText (Nat.toDigits 10 n) ⟨false, Nat.toDigits 10 n, none, none⟩ := by
  have hdigits : Digits (Nat.toDigits 10 n) :=
    ⟨Nat.toDigits_ne_nil, fun c hc => Nat.isDigit_of_mem_toDigits (by omega) (by omega) hc⟩
  have hzero : ∀ ds, Nat.toDigits 10 n = '0' :: ds → ds = [] := by
    intro ds hds
    by_cases hn : n = 0
    · subst hn
      exact (List.cons.inj hds).2.symm
    · exact absurd hds (head_toDigits_ne_zero hn ds)
  have htext := @NumeralText.mk false _ [] [] none none hdigits hzero .none .none
  rwa [List.append_nil, List.append_nil] at htext

/-- No natural number of 64 bits is out of range. -/
theorem real_nat {n : Nat} (h : n < UInt64.size) :
    ∃ x, (Numeral.mk false (Nat.toDigits 10 n) none none).real = .ok x := by
  have hvalue : digitsValue 0 (Nat.toDigits 10 n) = n := digitsValue_toDigits n
  have hdecimal : (Numeral.mk false (Nat.toDigits 10 n) none none).decimal = ⟨false, n, 0⟩ := by
    refine (Decimal.ofDigits_nat false ?_).trans ?_ <;> rw [hvalue]
    exact h
  obtain ⟨x, hx⟩ := Decimal.toBinary64?_nat false h
  exact ⟨x, by rw [Numeral.real, hdecimal, hx]⟩

/-- A natural number of 64 bits is read as itself. -/
theorem readBelow_nat {n bound : Nat} (h : n < bound) (hbound : bound ≤ UInt64.size) (room : Nat) :
    readBelow bound room (.number ⟨false, Nat.toDigits 10 n, none, none⟩) = .ok n := by
  have hvalue : digitsValue 0 (Nat.toDigits 10 n) = n := digitsValue_toDigits n
  obtain ⟨x, hreal⟩ := real_nat (Nat.lt_of_lt_of_le h hbound)
  simp [readBelow, hreal, Numeral.natural?, hvalue, h, bind, Except.bind, pure, Except.pure,
    discard, Functor.mapConst, Except.map]

/-! ## Real numbers -/

/-- A text that begins with a digit and holds no blanks. -/
structure IsBody (cs : List Char) : Prop where
  first : ∃ d rest, cs = d :: rest ∧ d.isDigit
  blankless : ∀ c ∈ cs, isBlank c = false

section
variable {digits : List Char} (hsome : digits ≠ []) (hdigits : ∀ c ∈ digits, c.isDigit)
include hsome hdigits

theorem isBody_placedText (e : Int) : IsBody (Binary64.placedText digits e) := by
  have hblankless : ∀ c ∈ digits, isBlank c = false := fun c hc => isBlank_of_isDigit (hdigits c hc)
  unfold Binary64.placedText
  split
  · refine ⟨⟨'0', _, rfl, rfl⟩, fun c hc => ?_⟩
    simp only [List.mem_cons, List.mem_append, List.mem_replicate] at hc
    rcases hc with rfl | rfl | ⟨_, rfl⟩ | hc
    · rfl
    · rfl
    · rfl
    · exact hblankless c hc
  · refine ⟨?_, fun c hc => ?_⟩
    · obtain ⟨d, ds, rfl⟩ := List.exists_cons_of_ne_nil hsome
      exact ⟨d, _, rfl, hdigits d List.mem_cons_self⟩
    · simp only [List.mem_cons, List.mem_append, List.mem_replicate] at hc
      rcases hc with (hc | ⟨_, rfl⟩) | rfl | hc
      · exact hblankless c (List.mem_of_mem_take hc)
      · rfl
      · rfl
      · split at hc
        · rw [List.mem_singleton.mp hc]
          rfl
        · exact hblankless c (List.mem_of_mem_drop hc)

theorem isBody_scientificText (e : Int) : IsBody (Binary64.scientificText digits e) := by
  have hblankless : ∀ c ∈ digits, isBlank c = false := fun c hc => isBlank_of_isDigit (hdigits c hc)
  have hpower : ∀ c ∈ 'e' :: (if e < 0 then '-' else '+') :: Nat.toDigits 10 e.natAbs,
      isBlank c = false := by
    intro c hc
    rcases List.mem_cons.mp hc with rfl | hc
    · rfl
    rcases List.mem_cons.mp hc with rfl | hc
    · split <;> rfl
    · exact isBlank_of_isDigit (Nat.isDigit_of_mem_toDigits (by omega) (by omega) hc)
  obtain ⟨d, ds, rfl⟩ := List.exists_cons_of_ne_nil hsome
  have hd : d.isDigit := hdigits d List.mem_cons_self
  unfold Binary64.scientificText
  cases ds with
  | nil =>
    refine ⟨⟨d, _, rfl, hd⟩, fun c hc => ?_⟩
    rcases List.mem_append.mp hc with hc | hc
    · exact hblankless c hc
    · exact hpower c hc
  | cons second rest =>
    refine ⟨⟨d, _, rfl, hd⟩, fun c hc => ?_⟩
    rcases List.mem_append.mp hc with hc | hc
    · rcases List.mem_cons.mp hc with rfl | hc
      · exact isBlank_of_isDigit hd
      rcases List.mem_cons.mp hc with rfl | hc
      · rfl
      · exact hblankless c (List.mem_cons_of_mem d hc)
    · exact hpower c hc

end

end ScopedResources.Json

namespace ScopedResources.Binary64

open Json

/-- A sign, and a text that begins with a digit. -/
theorem exists_body (x : Binary64) : ∃ (negative : Bool) (body : List Char),
    x.chars = (if negative then ['-'] else []) ++ body ∧ IsBody body := by
  unfold chars
  split
  · have hzero : ∀ c ∈ ['0'], c.isDigit := List.forall_mem_singleton.mpr rfl
    refine ⟨x.isNegative, _, ?_, isBody_placedText (List.cons_ne_nil _ _) hzero 0⟩
    cases x.isNegative <;> rfl
  · unfold decimalText
    have hdigits : ∀ c ∈ Nat.toDigits 10 x.shortest.digits, c.isDigit := fun c hc =>
      Nat.isDigit_of_mem_toDigits (by omega) (by omega) hc
    refine ⟨x.shortest.negative, _, rfl, ?_⟩
    split
    · exact isBody_placedText Nat.toDigits_ne_nil hdigits _
    · exact isBody_scientificText Nat.toDigits_ne_nil hdigits _

/-- Reading what is written for the number gives the number back. -/
def ComesBack (x : Binary64) : Prop := Reader.ofText readReal (writeReal x) = .ok x

instance (x : Binary64) : Decidable x.ComesBack := inferInstanceAs (Decidable (_ = _))

/-- Not all numbers come back, for reading rounds in steps. -/
example : ¬ComesBack ⟨0x3fb7a0d2df1a67e0⟩ := by decide +kernel

/-- Both zeros come back as they are. -/
theorem comesBack_of_code_eq_zero {x : Binary64} (h : x.code = 0) : x.ComesBack := by
  rw [← x.ofCode_code, h]
  cases x.isNegative <;> decide +kernel

/-- A number that comes back is read as itself in any place. -/
theorem ComesBack.scanValue {x : Binary64} (h : x.ComesBack) (hfinite : x.isFinite) :
    ∃ n : Numeral, n.real = .ok x ∧ ∀ fuel tail, Fence tail →
      Json.scanValue (fuel + 1) (x.chars ++ tail) = (.number n, some tail) := by
  obtain ⟨negative, body, hchars, ⟨d, cs, rfl, hd⟩, hblankless⟩ := x.exists_body
  have hscan : scan (writeReal x) = scanNumber negative (d :: cs) := by
    rw [scan, writeReal, if_pos hfinite, text, String.toList_ofList, hchars]
    exact scanValue_number _ negative hd cs
  unfold ComesBack Reader.ofText at h
  rw [hscan, scanNumber] at h
  cases htake : takeNumeral negative (d :: cs) with
  | error fault =>
    rw [htake] at h
    cases h
  | ok taken =>
  obtain ⟨n, rest⟩ := taken
  obtain ⟨hsuffix, hlocal⟩ := isLocal_takeNumeral negative htake
  rw [htake] at h
  obtain ⟨y, hreal, h⟩ := of_bind_eq_ok h
  dsimp only at h
  split at h
  · next hrest =>
    cases h
    -- The text has no blanks, so nothing at all is left behind the number.
    have hnil : rest = [] := by
      cases rest with
      | nil => rfl
      | cons c rest =>
        have hc : isBlank c = false := hblankless c (hsuffix.subset List.mem_cons_self)
        rw [dropBlanks_cons hc] at hrest
        cases hrest
    refine ⟨n, hreal, fun fuel tail hf => ?_⟩
    rw [hchars, List.append_assoc, List.cons_append, scanValue_number fuel negative hd, scanNumber,
      ← List.cons_append, hlocal tail hf, hnil]
    rfl
  · cases h

end ScopedResources.Binary64
