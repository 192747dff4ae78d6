import ScopedResources.Json.Scan

/-! # The grammar of JSON texts

Which trees a text may stand for, by the rules of JSON and without a scanner: blanks may stand between
any two parts, a string may spell its characters by escapes, and a number may be written with a fraction
and an exponent. A string may also have an escape of half a surrogate pair; then it spells no text. -/

namespace ScopedResources

def Items.ofList : List Json → Items
  | [] => .closed
  | j :: js => .item j (ofList js)

def Members.ofQuoted : List (Json.Quoted × Json) → Members
  | [] => .closed
  | (name, j) :: members => .member name j (ofQuoted members)

/-- Members whose names spell texts. -/
def Members.ofList : List (String × Json) → Members
  | [] => .closed
  | (name, j) :: members => .member (.plain name) j (ofList members)

theorem Members.ofList_eq (members : List (String × Json)) :
    ofList members = ofQuoted (members.map fun member => (.plain member.1, member.2)) := by
  induction members with
  | nil => rfl
  | cons member members ih => rw [ofList, ih, List.map_cons, ofQuoted]

namespace Json

def Blanks (cs : List Char) : Prop := ∀ c ∈ cs, isBlank c

/-! ## Strings -/

/-- What stands between the quotation marks of a string, and its pieces. -/
inductive StringBody : List Char → List Piece → Prop
  | nil : StringBody [] []
  | plain {c : Char} {cs : List Char} {pieces : List Piece} : c ≠ '"' → c ≠ '\\' →
      0x20 ≤ c.toNat → StringBody cs pieces → StringBody (c :: cs) (.char c :: pieces)
  | escape {e c : Char} {cs : List Char} {pieces : List Piece} : escape? e = some c →
      StringBody cs pieces → StringBody ('\\' :: e :: cs) (.char c :: pieces)
  | unit {h₁ h₂ h₃ h₄ : Char} {n : Nat} {cs : List Char} {pieces : List Piece} :
      hexUnit? h₁ h₂ h₃ h₄ = some n → StringBody cs pieces →
      StringBody ('\\' :: 'u' :: h₁ :: h₂ :: h₃ :: h₄ :: cs) (.unit n :: pieces)

/-- The pieces spell a text: each is a character, but the halves of a surrogate pair are one together. -/
inductive Spelled : List Piece → List Char → Prop
  | nil : Spelled [] []
  | char (c : Char) {pieces : List Piece} {text : List Char} : Spelled pieces text →
      Spelled (.char c :: pieces) (c :: text)
  | unit {n : Nat} {pieces : List Piece} {text : List Char} : isLeading n = false →
      isTrailing n = false → Spelled pieces text → Spelled (.unit n :: pieces) (Char.ofNat n :: text)
  | pair {m n : Nat} {pieces : List Piece} {text : List Char} : isLeading m → isTrailing n →
      Spelled pieces text → Spelled (.unit m :: .unit n :: pieces) (pairChar m n :: text)

inductive StringText : List Char → Quoted → Prop
  | plain {body : List Char} {pieces : List Piece} {s : String} : StringBody body pieces →
      Spelled pieces s.toList → StringText ('"' :: (body ++ ['"'])) (.plain s)
  | unpaired {body : List Char} {pieces : List Piece} : StringBody body pieces →
      (∀ text, ¬Spelled pieces text) → StringText ('"' :: (body ++ ['"'])) .unpaired

/-! ## Numbers -/

def Digits (ds : List Char) : Prop := ds ≠ [] ∧ ∀ d ∈ ds, d.isDigit

inductive FractionText : List Char → Option (List Char) → Prop
  | none : FractionText [] none
  | some {ds : List Char} : Digits ds → FractionText ('.' :: ds) (some ds)

inductive SignText : List Char → Bool → Prop
  | none : SignText [] false
  | plus : SignText ['+'] false
  | minus : SignText ['-'] true

inductive PowerText : List Char → Option Int → Prop
  | none : PowerText [] none
  | some {e : Char} {sign ds : List Char} {negative : Bool} : e = 'e' ∨ e = 'E' →
      SignText sign negative → Digits ds →
      PowerText (e :: (sign ++ ds))
        (some (if negative then -(digitsValue 0 ds : Int) else digitsValue 0 ds))

/-- A number; before the point a zero stands alone. -/
inductive NumeralText : List Char → Numeral → Prop
  | mk {negative : Bool} {whole cs cs' : List Char} {fraction : Option (List Char)}
      {power : Option Int} : Digits whole → (∀ ds, whole = '0' :: ds → ds = []) →
      FractionText cs fraction → PowerText cs' power →
      NumeralText ((if negative then ['-'] else []) ++ (whole ++ (cs ++ cs')))
        ⟨negative, whole, fraction, power⟩

/-! ## Values -/

section
variable {α : Type}

/-- What is left of a list behind one of its entries: the other entries, each behind a comma, and the
closing bracket. -/
inductive Following (close : Char) (p : List Char → α → Prop) : List Char → List α → Prop
  | closed {ws : List Char} : Blanks ws → Following close p (ws ++ [close]) []
  | next {ws ws' cs rest : List Char} {a : α} {as : List α} : Blanks ws → Blanks ws' → p cs a →
      Following close p rest as → Following close p (ws ++ ',' :: (ws' ++ (cs ++ rest))) (a :: as)

/-- A list in brackets. -/
inductive Bracketed (opening close : Char) (p : List Char → α → Prop) : List Char → List α → Prop
  | empty {ws : List Char} : Blanks ws → Bracketed opening close p (opening :: (ws ++ [close])) []
  | full {ws cs rest : List Char} {a : α} {as : List α} : Blanks ws → p cs a →
      Following close p rest as → Bracketed opening close p (opening :: (ws ++ (cs ++ rest))) (a :: as)

end

inductive MemberText (p : List Char → Json → Prop) : List Char → Quoted × Json → Prop
  | mk {name ws ws' cs : List Char} {q : Quoted} {j : Json} : StringText name q → Blanks ws →
      Blanks ws' → p cs j → MemberText p (name ++ (ws ++ ':' :: (ws' ++ cs))) (q, j)

inductive LeafText : List Char → Json → Prop
  | null : LeafText ['n', 'u', 'l', 'l'] .null
  | true : LeafText ['t', 'r', 'u', 'e'] (.bool true)
  | false : LeafText ['f', 'a', 'l', 's', 'e'] (.bool false)
  | number {cs : List Char} {n : Numeral} : NumeralText cs n → LeafText cs (.number n)
  | string {cs : List Char} {q : Quoted} : StringText cs q → LeafText cs (.string q)

/-- The text of a value, without blanks around it. -/
inductive ValueText : List Char → Json → Prop
  | leaf {cs : List Char} {j : Json} : LeafText cs j → ValueText cs j
  | array {cs : List Char} {js : List Json} : Bracketed '[' ']' ValueText cs js →
      ValueText cs (.array (.ofList js))
  | object {cs : List Char} {members : List (Quoted × Json)} :
      Bracketed '\x7b' '\x7d' (MemberText ValueText) cs members →
      ValueText cs (.object (.ofQuoted members))

/-- What holds of the leaves, and of a value in brackets if it holds of what is between them, holds of
all values. -/
theorem ValueText.closed {q : List Char → Json → Prop} (leaf : ∀ {cs j}, LeafText cs j → q cs j)
    (array : ∀ {cs js}, Bracketed '[' ']' q cs js → q cs (.array (.ofList js)))
    (object : ∀ {cs members}, Bracketed '\x7b' '\x7d' (MemberText q) cs members →
      q cs (.object (.ofQuoted members)))
    {cs : List Char} {j : Json} (h : ValueText cs j) : q cs j :=
  @ValueText.rec (fun cs j _ => q cs j) (fun cs js _ => Bracketed '[' ']' q cs js)
    (fun cs members _ => Bracketed '\x7b' '\x7d' (MemberText q) cs members)
    (fun cs js _ => Following ']' q cs js) (fun cs member _ => MemberText q cs member)
    (fun cs members _ => Following '\x7d' (MemberText q) cs members)
    (fun h => leaf h) (fun _ h => array h) (fun _ h => object h)
    (fun hws => .empty hws) (fun hws _ _ h hrest => .full hws h hrest)
    (fun hws => .empty hws) (fun hws _ _ h hrest => .full hws h hrest)
    (fun hws => .closed hws) (fun hws hws' _ _ h hrest => .next hws hws' h hrest)
    (fun hname hws hws' _ h => .mk hname hws hws' h)
    (fun hws => .closed hws) (fun hws hws' _ _ h hrest => .next hws hws' h hrest) cs j h

/-- A whole text stands for a tree. -/
inductive TextOf (text : String) (j : Json) : Prop
  | mk {ws cs ws' : List Char} : Blanks ws → ValueText cs j → Blanks ws' →
      text.toList = ws ++ (cs ++ ws') → TextOf text j

end Json

end ScopedResources
