import ScopedResources.Json.Writer
import ScopedResources.Proofs.Json.Grammar

/-! # Strings

A string of the grammar is scanned as what it spells: each character, escaped or not, is taken as one
piece, or as two if it is a surrogate pair, and the pieces are put together to the text again. If they
make no text, half a surrogate pair is among them. What is written for a text is such a string. -/

namespace ScopedResources.Json

/-! ## Strings of the grammar -/

theorem takePieces_plain (done : List Piece) {c : Char} (hquote : c ≠ '"') (hslash : c ≠ '\\')
    (hcontrol : ¬c.toNat < 0x20) (cs : List Char) :
    takePieces done (c :: cs) = takePieces (.char c :: done) cs := by
  rw [takePieces, if_neg hcontrol] <;> simp [hquote, hslash]

theorem takePieces_escape (done : List Piece) {c e : Char} (h : escape? e = some c)
    (cs : List Char) : takePieces done ('\\' :: e :: cs) = takePieces (.char c :: done) cs := by
  have hu : e ≠ 'u' := by
    rintro rfl
    cases h
  rw [takePieces, h]
  exact hu

theorem takePieces_unit (done : List Piece) {h₁ h₂ h₃ h₄ : Char} {n : Nat}
    (h : hexUnit? h₁ h₂ h₃ h₄ = some n) (cs : List Char) :
    takePieces done ('\\' :: 'u' :: h₁ :: h₂ :: h₃ :: h₄ :: cs) = takePieces (.unit n :: done) cs := by
  rw [takePieces, h]

theorem assemble_unit (done : List Char) {n : Nat} (hleading : isLeading n = false)
    (htrailing : isTrailing n = false) (pieces : List Piece) :
    assemble done (.unit n :: pieces) = assemble (Char.ofNat n :: done) pieces := by
  rcases pieces with _ | ⟨_ | _, pieces⟩ <;> simp [assemble, hleading, htrailing]

/-- All of the string is taken, up to the mark that closes it. -/
theorem StringBody.takePieces {body : List Char} {pieces : List Piece} (h : StringBody body pieces)
    (done : List Piece) (tail : List Char) :
    Json.takePieces done (body ++ '"' :: tail) = (done.reverse ++ pieces, .ok tail) := by
  induction h generalizing done with
  | nil => rw [List.append_nil, List.nil_append, Json.takePieces]
  | plain hquote hslash hcontrol _ ih =>
    rw [List.cons_append, takePieces_plain done hquote hslash (by omega), ih]
    simp
  | escape he _ ih =>
    rw [List.cons_append, List.cons_append, takePieces_escape done he, ih]
    simp
  | unit hn _ ih =>
    simp only [List.cons_append, takePieces_unit done hn, ih]
    simp

/-- Pieces are put together to the text that they spell. -/
theorem Spelled.assemble {pieces : List Piece} {text : List Char} (h : Spelled pieces text)
    (done : List Char) : Json.assemble done pieces = some (done.reverse ++ text) := by
  induction h generalizing done with
  | nil => rw [List.append_nil, Json.assemble]
  | char c _ ih => simp [Json.assemble, ih]
  | unit hleading htrailing _ ih => simp [assemble_unit done hleading htrailing, ih]
  | pair hleading htrailing _ ih => simp [Json.assemble, hleading, htrailing, ih]

/-- Pieces that can be put together spell a text. -/
theorem exists_spelled {done : List Char} {pieces : List Piece} {result : List Char}
    (h : assemble done pieces = some result) : ∃ text, Spelled pieces text := by
  fun_induction assemble done pieces with
  | case1 => exact ⟨[], .nil⟩
  | case2 done c rest ih =>
    obtain ⟨text, htext⟩ := ih h
    exact ⟨_, .char c htext⟩
  | case3 done n hleading m rest htrailing ih =>
    obtain ⟨text, htext⟩ := ih h
    exact ⟨_, .pair hleading htrailing htext⟩
  | case4 | case5 | case6 => cases h
  | case7 done n rest hleading htrailing ih =>
    obtain ⟨text, htext⟩ := ih h
    exact ⟨_, .unit (by simpa using hleading) (by simpa using htrailing) htext⟩

/-- A string is scanned as what it spells, whatever stands behind it. -/
theorem StringText.scanQuoted {cs : List Char} {q : Quoted} (h : StringText cs q) :
    ∃ body, cs = '"' :: (body ++ ['"']) ∧
      ∀ tail, Json.scanQuoted (body ++ '"' :: tail) = (q, some tail) := by
  cases h with
  | plain hbody hspelled =>
    refine ⟨_, rfl, fun tail => ?_⟩
    simp [Json.scanQuoted, hbody.takePieces, hspelled.assemble]
  | @unpaired _ pieces hbody hnone =>
    have hassemble : assemble [] pieces = none := by
      cases hresult : assemble [] pieces with
      | none => rfl
      | some result =>
        obtain ⟨text, htext⟩ := exists_spelled hresult
        exact absurd htext (hnone text)
    refine ⟨_, rfl, fun tail => ?_⟩
    simp [Json.scanQuoted, hbody.takePieces, hassemble]

/-! ## Written strings -/

/-- The short form of a character stands for it. -/
theorem escape?_of_shortEscape? {c e : Char} (h : shortEscape? c = some e) : escape? e = some c := by
  unfold shortEscape? at h
  split at h <;> cases h <;> rfl

theorem hexUnit?_control :
    ∀ n < 0x20, hexUnit? '0' '0' (hexChar (n / 16)) (hexChar (n % 16)) = some n := by decide

/-- No control character is half a surrogate pair. -/
theorem not_surrogate_of_control {n : Nat} (h : n < 0x20) :
    isLeading n = false ∧ isTrailing n = false := by
  simp only [isLeading, isTrailing, Bool.and_eq_false_iff, decide_eq_false_iff_not]
  omega

/-- What is written for a character is one piece, which spells it. -/
theorem exists_piece_escaped (c : Char) : ∃ piece,
    (∀ {cs pieces}, StringBody cs pieces → StringBody (escaped c ++ cs) (piece :: pieces)) ∧
      ∀ {pieces text}, Spelled pieces text → Spelled (piece :: pieces) (c :: text) := by
  unfold escaped
  split
  · next hc => exact ⟨.char c, .escape (by rcases hc with rfl | rfl <;> rfl), .char c⟩
  next hc =>
  split
  · next hcontrol =>
    split
    · next e he => exact ⟨.char c, .escape (escape?_of_shortEscape? he), .char c⟩
    · obtain ⟨hleading, htrailing⟩ := not_surrogate_of_control hcontrol
      refine ⟨.unit c.toNat, .unit (hexUnit?_control _ hcontrol), fun h => ?_⟩
      have hunit := Spelled.unit hleading htrailing h
      rwa [Char.ofNat_toNat] at hunit
  · next hcontrol =>
    exact ⟨.char c, .plain (fun h => hc (.inl h)) (fun h => hc (.inr h)) (by omega), .char c⟩

theorem stringText_quote (s : String) : StringText (quote s).toList (.plain s) := by
  have hbody : ∀ text : List Char,
      ∃ pieces, StringBody (text.flatMap escaped) pieces ∧ Spelled pieces text := by
    intro text
    induction text with
    | nil => exact ⟨[], .nil, .nil⟩
    | cons c text ih =>
      obtain ⟨pieces, hpieces, hspelled⟩ := ih
      obtain ⟨piece, hpiece, hspells⟩ := exists_piece_escaped c
      exact ⟨piece :: pieces, hpiece hpieces, hspells hspelled⟩
  have htext : (quote s).toList = '"' :: (s.toList.flatMap escaped ++ ['"']) := String.toList_ofList
  obtain ⟨pieces, hpieces, hspelled⟩ := hbody s.toList
  exact htext ▸ .plain hpieces hspelled

end ScopedResources.Json
