import Mathlib.Data.List.Forall2
import ScopedResources.Proofs.Json.Numerals
import ScopedResources.Proofs.Json.Strings

/-! # Texts that spell a tree

A text of the grammar is scanned as one tree wherever a value may stand. The scan of an array or an
object takes up the texts of its items or members one after the other, each up to the comma or the
bracket behind it, so the texts can be put together as the trees are. What is written for values is put
together in the same way. -/

namespace ScopedResources.Json

/-- In the place of a value the text is scanned as the tree, whatever stands behind it. The text
begins in such a way that it is not taken for the end of an array. -/
structure Spells (cs : List Char) (j : Json) : Prop where
  first : ∃ c rest, cs = c :: rest ∧ isBlank c = false ∧ c ≠ ']'
  scan : ∀ fuel tail, 3 * cs.length ≤ fuel → Fence tail → scanValue fuel (cs ++ tail) = (j, some tail)

variable {cs tail : List Char} {j : Json}

/-- There is fuel for one step. -/
theorem exists_fuel {fuel : Nat} {c : Char} {cs : List Char} (h : 3 * (c :: cs).length ≤ fuel) :
    ∃ less, fuel = less + 3 ∧ 3 * cs.length ≤ less := by
  rw [List.length_cons] at h
  exact ⟨fuel - 3, by omega, by omega⟩

/-! ## Leaves -/

theorem LeafText.spells (h : LeafText cs j) : Spells cs j := by
  cases h with
  | null | true | false =>
    refine ⟨⟨_, _, rfl, rfl, by decide⟩, fun fuel tail hfuel _ => ?_⟩
    obtain ⟨fuel, rfl, _⟩ := exists_fuel hfuel
    rfl
  | string hstring =>
    obtain ⟨body, rfl, hscan⟩ := hstring.scanQuoted
    refine ⟨⟨_, _, rfl, rfl, by decide⟩, fun fuel tail hfuel _ => ?_⟩
    obtain ⟨fuel, rfl, _⟩ := exists_fuel hfuel
    simp only [List.cons_append, List.append_assoc, List.nil_append]
    rw [scanValue, dropBlanks_cons rfl]
    simp only [hscan]
  | number hnumeral =>
    obtain ⟨c, rest, rfl, hc⟩ := hnumeral.first
    refine ⟨⟨c, rest, rfl, ?_, ?_⟩, fun fuel tail hfuel hf => ?_⟩
    · rcases hc with rfl | hc
      · rfl
      · exact isBlank_of_isDigit hc
    · rintro rfl
      rcases hc with hc | hc <;> cases hc
    · obtain ⟨fuel, rfl, _⟩ := exists_fuel hfuel
      exact hnumeral.scanValue (fuel + 2) hf

/-! ## Blanks -/

theorem dropBlanks_append {ws : List Char} (h : Blanks ws) (cs : List Char) :
    dropBlanks (ws ++ cs) = dropBlanks cs := List.dropWhile_append_of_pos h

theorem Fence.blanks {ws : List Char} (h : Blanks ws) (hf : Fence tail) : Fence (ws ++ tail) := by
  cases ws with
  | nil => exact hf
  | cons c ws => exact .blank (h c List.mem_cons_self) (ws ++ tail)

theorem scanValue_blanks {ws : List Char} (h : Blanks ws) (fuel : Nat) (cs : List Char) :
    scanValue fuel (ws ++ cs) = scanValue fuel cs := by
  cases fuel with
  | zero => rfl
  | succ fuel => rw [scanValue, scanValue, dropBlanks_append h]

/-! ## What stands between brackets -/

section
variable {α : Type} {close : Char} {p : List Char → α → Prop} {text : List Char} {as : List α}

theorem Following.fence (h : Following close p text as) (hclose : ∀ cs, Fence (close :: cs))
    (tail : List Char) : Fence (text ++ tail) := by
  cases h with
  | closed hws =>
    rw [List.append_assoc]
    exact .blanks hws (hclose _)
  | next hws _ _ _ =>
    rw [List.append_assoc]
    exact .blanks hws (.comma _)

end

variable {text : List Char} {js : List Json}

theorem scanItem_spelled {fuel : Nat} {items : Items} {rest : List Char} (h : Spells cs j)
    (hfuel : 3 * cs.length ≤ fuel) (hrest : Fence rest)
    (hitems : scanItems fuel false rest = (items, some tail)) :
    scanItem (fuel + 1) (cs ++ rest) = (.item j items, some tail) := by
  simp [scanItem, h.scan fuel rest hfuel hrest, hitems]

theorem scanItem_blanks {ws : List Char} (h : Blanks ws) (fuel : Nat) (cs : List Char) :
    scanItem (fuel + 1) (ws ++ cs) = scanItem (fuel + 1) cs := by
  rw [scanItem, scanItem, scanValue_blanks h]

theorem scanItems_closed {ws : List Char} (h : Blanks ws) (fuel : Nat) (first : Bool)
    (tail : List Char) : scanItems (fuel + 1) first (ws ++ ']' :: tail) = (.closed, some tail) := by
  rw [scanItems, dropBlanks_append h]
  rfl

/-- The first item stands behind no comma. -/
theorem scanItems_first {ws : List Char} (hws : Blanks ws) (h : Spells cs j) (fuel : Nat)
    (rest : List Char) : scanItems (fuel + 1) true (ws ++ (cs ++ rest)) = scanItem fuel (cs ++ rest) := by
  obtain ⟨c, cs, rfl, hblank, hclose⟩ := h.first
  rw [scanItems, dropBlanks_append hws, List.cons_append, dropBlanks_cons hblank]
  split
  · next he => cases he
  · next he => exact absurd (List.cons.inj he).1 hclose
  · next he =>
    obtain ⟨rfl, rfl⟩ := List.cons.inj he
    rfl

theorem Following.scanItems (h : Following ']' Spells text js) (tail : List Char) {fuel : Nat}
    (hfuel : 3 * text.length ≤ fuel) :
    Json.scanItems fuel false (text ++ tail) = (.ofList js, some tail) := by
  induction h generalizing fuel with
  | @closed ws hws =>
    obtain ⟨fuel, rfl⟩ : ∃ less, fuel = less + 1 := ⟨fuel - 1, by simp at hfuel; omega⟩
    rw [List.append_assoc]
    exact scanItems_closed hws fuel false tail
  | @next ws ws' cs rest j js hws hws' hspells hrest ih =>
    simp only [List.length_append, List.length_cons] at hfuel
    obtain ⟨fuel, rfl⟩ : ∃ less, fuel = less + 3 := ⟨fuel - 3, by omega⟩
    have hitems : Json.scanItems (fuel + 1) false (rest ++ tail) = (.ofList js, some tail) :=
      ih (by omega)
    have hitem := scanItem_spelled hspells (by omega) (hrest.fence .bracket tail) hitems
    simp only [List.append_assoc, List.cons_append]
    rw [Json.scanItems, dropBlanks_append hws, dropBlanks_cons rfl]
    exact (scanItem_blanks hws' _ _).trans hitem

/-- A list of values in brackets is scanned as an array. -/
theorem Bracketed.spells_array (h : Bracketed '[' ']' Spells text js) :
    Spells text (.array (.ofList js)) := by
  have hitems : ∀ rest, text = '[' :: rest → ∀ fuel tail, 3 * rest.length ≤ fuel →
      scanItems (fuel + 2) true (rest ++ tail) = (.ofList js, some tail) := by
    intro rest htext fuel tail hfuel
    cases h with
    | @empty ws hws =>
      obtain rfl := (List.cons.inj htext).2
      rw [List.append_assoc]
      exact scanItems_closed hws _ true tail
    | @full ws cs rest j js hws hspells hrest =>
      obtain rfl := (List.cons.inj htext).2
      simp only [List.length_append] at hfuel
      have hrest' : scanItems fuel false (rest ++ tail) = (.ofList js, some tail) :=
        hrest.scanItems tail (by omega)
      rw [List.append_assoc, List.append_assoc, scanItems_first hws hspells]
      exact scanItem_spelled hspells (by omega) (hrest.fence .bracket tail) hrest'
  obtain ⟨rest, htext⟩ : ∃ rest, text = '[' :: rest := by cases h <;> exact ⟨_, rfl⟩
  refine ⟨⟨'[', rest, htext, rfl, by decide⟩, fun fuel tail hfuel _ => ?_⟩
  rw [htext] at hfuel ⊢
  obtain ⟨fuel, rfl, hless⟩ := exists_fuel hfuel
  rw [List.cons_append, scanValue, dropBlanks_cons rfl]
  simp only [hitems rest htext fuel tail hless]

/-! ## What stands between braces -/

variable {members : List (Quoted × Json)}

theorem MemberText.scanMember {member : Quoted × Json} (h : MemberText Spells text member) {fuel : Nat}
    {ms : Members} {rest : List Char} (hfuel : 3 * text.length ≤ fuel) (hrest : Fence rest)
    (hmembers : scanMembers fuel false rest = (ms, some tail)) :
    Json.scanMember (fuel + 1) (text ++ rest) =
      (.member member.1 member.2 ms, some tail) := by
  obtain @⟨_, ws, ws', cs, q, j, hname, hws, hws', hspells⟩ := h
  obtain ⟨body, rfl, hscan⟩ := hname.scanQuoted
  simp only [List.length_append, List.length_cons] at hfuel
  have hvalue : scanValue fuel (ws' ++ (cs ++ rest)) = (j, some rest) := by
    rw [scanValue_blanks hws', hspells.scan fuel rest (by omega) hrest]
  have hcolon : dropBlanks (ws ++ ':' :: (ws' ++ (cs ++ rest))) = ':' :: (ws' ++ (cs ++ rest)) := by
    rw [dropBlanks_append hws, dropBlanks_cons rfl]
  simp only [List.cons_append, List.append_assoc, List.nil_append]
  rw [Json.scanMember, dropBlanks_cons rfl]
  simp only [hscan, hcolon, hvalue, hmembers]

theorem scanMember_blanks {ws : List Char} (h : Blanks ws) (fuel : Nat) (cs : List Char) :
    scanMember (fuel + 1) (ws ++ cs) = scanMember (fuel + 1) cs := by
  rw [scanMember, scanMember, dropBlanks_append h]

theorem scanMembers_closed {ws : List Char} (h : Blanks ws) (fuel : Nat) (first : Bool)
    (tail : List Char) :
    scanMembers (fuel + 1) first (ws ++ '\x7d' :: tail) = (.closed, some tail) := by
  rw [scanMembers, dropBlanks_append h]
  rfl

/-- The first member stands behind no comma. -/
theorem scanMembers_first {ws : List Char} (hws : Blanks ws) {member : Quoted × Json}
    (h : MemberText Spells text member) (fuel : Nat) (rest : List Char) :
    scanMembers (fuel + 1) true (ws ++ (text ++ rest)) = scanMember fuel (text ++ rest) := by
  obtain ⟨hname, _, _, _⟩ := h
  obtain ⟨body, rfl, _⟩ := hname.scanQuoted
  rw [scanMembers, dropBlanks_append hws]
  rfl

theorem Following.scanMembers (h : Following '\x7d' (MemberText Spells) text members)
    (tail : List Char) {fuel : Nat} (hfuel : 3 * text.length ≤ fuel) :
    Json.scanMembers fuel false (text ++ tail) = (.ofQuoted members, some tail) := by
  induction h generalizing fuel with
  | @closed ws hws =>
    obtain ⟨fuel, rfl⟩ : ∃ less, fuel = less + 1 := ⟨fuel - 1, by simp at hfuel; omega⟩
    rw [List.append_assoc]
    exact scanMembers_closed hws fuel false tail
  | @next ws ws' cs rest member members hws hws' hspells hrest ih =>
    simp only [List.length_append, List.length_cons] at hfuel
    obtain ⟨fuel, rfl⟩ : ∃ less, fuel = less + 3 := ⟨fuel - 3, by omega⟩
    have hmembers : Json.scanMembers (fuel + 1) false (rest ++ tail) = (.ofQuoted members, some tail) :=
      ih (by omega)
    have hmember := hspells.scanMember (by omega) (hrest.fence .brace tail) hmembers
    simp only [List.append_assoc, List.cons_append]
    rw [Json.scanMembers, dropBlanks_append hws, dropBlanks_cons rfl]
    exact (scanMember_blanks hws' _ _).trans hmember

/-- A list of members in braces is scanned as an object. -/
theorem Bracketed.spells_object (h : Bracketed '\x7b' '\x7d' (MemberText Spells) text members) :
    Spells text (.object (.ofQuoted members)) := by
  have hmembers : ∀ rest, text = '\x7b' :: rest → ∀ fuel tail, 3 * rest.length ≤ fuel →
      scanMembers (fuel + 2) true (rest ++ tail) = (.ofQuoted members, some tail) := by
    intro rest htext fuel tail hfuel
    cases h with
    | @empty ws hws =>
      obtain rfl := (List.cons.inj htext).2
      rw [List.append_assoc]
      exact scanMembers_closed hws _ true tail
    | @full ws cs rest member members hws hspells hrest =>
      obtain rfl := (List.cons.inj htext).2
      simp only [List.length_append] at hfuel
      have hrest' : scanMembers fuel false (rest ++ tail) = (.ofQuoted members, some tail) :=
        hrest.scanMembers tail (by omega)
      rw [List.append_assoc, List.append_assoc, scanMembers_first hws hspells]
      exact hspells.scanMember (by omega) (hrest.fence .brace tail) hrest'
  obtain ⟨rest, htext⟩ : ∃ rest, text = '\x7b' :: rest := by cases h <;> exact ⟨_, rfl⟩
  refine ⟨⟨'\x7b', rest, htext, rfl, by decide⟩, fun fuel tail hfuel _ => ?_⟩
  rw [htext] at hfuel ⊢
  obtain ⟨fuel, rfl, hless⟩ := exists_fuel hfuel
  rw [List.cons_append, scanValue, dropBlanks_cons rfl]
  simp only [hmembers rest htext fuel tail hless]

/-! ## Texts of the grammar -/

theorem ValueText.spells (h : ValueText cs j) : Spells cs j :=
  h.closed LeafText.spells Bracketed.spells_array Bracketed.spells_object

/-- A whole text is scanned as the tree that it stands for, and nothing but blanks is left. -/
theorem TextOf.scan {text : String} (h : TextOf text j) :
    ∃ ws, Blanks ws ∧ Json.scan text = (j, some ws) := by
  obtain @⟨ws, cs, ws', hws, hvalue, hws', htext⟩ := h
  have hfence : Fence ws' := List.append_nil ws' ▸ Fence.blanks hws' .nil
  have hscan : scanValue (3 * text.toList.length + 3) (cs ++ ws') = (j, some ws') := by
    refine hvalue.spells.scan _ ws' ?_ hfence
    rw [htext, List.length_append, List.length_append]
    omega
  refine ⟨ws', hws', ?_⟩
  rw [← scanValue_blanks hws, ← htext] at hscan
  exact hscan

/-! ## Written leaves -/

theorem leafText_bool (b : Bool) : LeafText (writeBool b).toList (.bool b) := by
  cases b with
  | true => exact .true
  | false => exact .false

theorem leafText_nat (n : Nat) :
    LeafText (writeNat n).toList (.number ⟨false, Nat.toDigits 10 n, none, none⟩) := by
  rw [writeNat, String.toList_ofList]
  exact .number (numeralText_nat n)

theorem spells_bool (b : Bool) : Spells (writeBool b).toList (.bool b) := (leafText_bool b).spells

theorem spells_quote (s : String) : Spells (quote s).toList (.string (.plain s)) :=
  (LeafText.string (stringText_quote s)).spells

theorem spells_nat (n : Nat) :
    Spells (writeNat n).toList (.number ⟨false, Nat.toDigits 10 n, none, none⟩) :=
  (leafText_nat n).spells

theorem spells_real {x : Binary64} (h : x.ComesBack) (hfinite : x.isFinite) :
    ∃ n : Numeral, n.real = .ok x ∧ Spells (writeReal x).toList (.number n) := by
  obtain ⟨n, hreal, hscan⟩ := h.scanValue hfinite
  obtain ⟨negative, body, hchars, ⟨d, cs, rfl, hd⟩, _⟩ := x.exists_body
  have htext : (writeReal x).toList = x.chars := by
    rw [writeReal, if_pos hfinite, Binary64.text, String.toList_ofList]
  have hfirst : ∃ c rest, x.chars = c :: rest ∧ isBlank c = false ∧ c ≠ ']' := by
    rw [hchars]
    cases negative with
    | true => exact ⟨'-', _, rfl, rfl, by decide⟩
    | false =>
      refine ⟨d, _, rfl, isBlank_of_isDigit hd, ?_⟩
      rintro rfl
      cases hd
  refine ⟨n, hreal, htext ▸ hfirst, fun fuel tail hfuel hf => ?_⟩
  rw [htext] at hfuel ⊢
  obtain ⟨c, rest, hc, _⟩ := hfirst
  rw [hc] at hfuel
  obtain ⟨fuel, rfl, _⟩ := exists_fuel hfuel
  exact hscan (fuel + 2) tail hf

/-! ## Written lists -/

section
variable {α : Type} {p : List Char → α → Prop} {entries : List String} {as : List α}

theorem blanks_nil : Blanks [] := nofun

/-- The entries behind the first one follow without blanks. -/
theorem exists_following (close : Char)
    (h : List.Forall₂ (fun entry a => p entry.toList a) entries as) (entry : String) :
    ∃ rest, (",".intercalate (entry :: entries)).toList ++ [close] = entry.toList ++ rest ∧
      Following close p rest as := by
  induction h generalizing entry with
  | nil => exact ⟨[close], by simp, .closed blanks_nil⟩
  | @cons next a entries as hnext _ ih =>
    obtain ⟨rest, htext, hrest⟩ := ih next
    refine ⟨',' :: (next.toList ++ rest), ?_, .next blanks_nil blanks_nil hnext hrest⟩
    rw [String.intercalate_cons_cons, String.toList_append, String.toList_append, List.append_assoc,
      List.append_assoc, htext]
    rfl

/-- Texts between commas are a list in brackets. -/
theorem bracketed_intercalate (h : List.Forall₂ (fun entry a => p entry.toList a) entries as)
    (opening close : Char) :
    Bracketed opening close p (opening :: ((",".intercalate entries).toList ++ [close])) as := by
  cases h with
  | nil => exact .empty blanks_nil
  | @cons entry a entries as hentry hrest =>
    obtain ⟨rest, htext, hrest⟩ := exists_following close hrest entry
    rw [htext]
    exact .full blanks_nil hentry hrest

end

section
variable {p : List Char → Json → Prop}

theorem bracketed_writeArray {texts : List String} {js : List Json}
    (h : List.Forall₂ (fun text j => p text.toList j) texts js) :
    Bracketed '[' ']' p (writeArray texts).toList js := by
  have htext : (writeArray texts).toList = '[' :: ((",".intercalate texts).toList ++ [']']) := by
    rw [writeArray, String.toList_append, String.toList_append, List.append_assoc]
    rfl
  exact htext ▸ bracketed_intercalate h '[' ']'

theorem bracketed_writeObject {members : List (String × String)} {trees : List (String × Json)}
    (h : List.Forall₂ (fun member tree => member.1 = tree.1 ∧ p member.2.toList tree.2) members trees) :
    Bracketed '\x7b' '\x7d' (MemberText p) (writeObject members).toList
      (trees.map fun tree => (.plain tree.1, tree.2)) := by
  let memberText (member : String × String) : String := quote member.1 ++ ":" ++ member.2
  have htext : (writeObject members).toList =
      '\x7b' :: ((",".intercalate (members.map memberText)).toList ++ ['\x7d']) := by
    rw [writeObject, String.toList_append, String.toList_append, List.append_assoc]
    rfl
  have hmembers : List.Forall₂ (fun text member => MemberText p text.toList member)
      (members.map memberText) (trees.map fun tree => (.plain tree.1, tree.2)) := by
    refine List.forall₂_map_left_iff.mpr (List.forall₂_map_right_iff.mpr (h.imp ?_))
    rintro ⟨name, text⟩ ⟨_, j⟩ ⟨rfl, hvalue⟩
    have hmember := MemberText.mk (stringText_quote name) blanks_nil blanks_nil hvalue
    rwa [List.nil_append, List.nil_append, show (':' :: text.toList) = ":".toList ++ text.toList from rfl,
      ← List.append_assoc, ← String.toList_append, ← String.toList_append] at hmember
  exact htext ▸ bracketed_intercalate hmembers '\x7b' '\x7d'

end

theorem valueText_writeArray {texts : List String} {js : List Json}
    (h : List.Forall₂ (fun text j => ValueText text.toList j) texts js) :
    ValueText (writeArray texts).toList (.array (.ofList js)) := .array (bracketed_writeArray h)

theorem valueText_writeObject {members : List (String × String)} {trees : List (String × Json)}
    (h : List.Forall₂ (fun member tree => member.1 = tree.1 ∧ ValueText member.2.toList tree.2)
      members trees) :
    ValueText (writeObject members).toList (.object (.ofList trees)) :=
  Members.ofList_eq trees ▸ .object (bracketed_writeObject h)

theorem spells_array {texts : List String} {js : List Json}
    (h : List.Forall₂ (fun text j => Spells text.toList j) texts js) :
    Spells (writeArray texts).toList (.array (.ofList js)) := (bracketed_writeArray h).spells_array

theorem spells_object {members : List (String × String)} {trees : List (String × Json)}
    (h : List.Forall₂ (fun member tree => member.1 = tree.1 ∧ Spells member.2.toList tree.2)
      members trees) :
    Spells (writeObject members).toList (.object (.ofList trees)) :=
  Members.ofList_eq trees ▸ (bracketed_writeObject h).spells_object

end ScopedResources.Json
