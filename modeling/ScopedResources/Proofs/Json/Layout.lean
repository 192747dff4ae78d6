import Mathlib.Data.List.Forall2
import ScopedResources.Json.Survey
import ScopedResources.Proofs.Json.Grammar

/-! # Layouts

A record may be laid out as an object with its parts in any order and members under other names between
them, or as an array of its parts. A tagged value may have its tag before its content or behind it. What
stands under other names, and a content before its tag, is looked through; of that nothing is said but
what a survey asks for. -/

namespace ScopedResources

/-! ## Values that are looked through -/

mutual

/-- The leaves of a value, and the names in it as strings. -/
def Json.leaves : Json → List Json
  | .array items => items.leaves
  | .object members => members.leaves
  | j => [j]

def Items.leaves : Items → List Json
  | .item j rest => j.leaves ++ rest.leaves
  | _ => []

def Members.leaves : Members → List Json
  | .member name j rest => .string name :: (j.leaves ++ rest.leaves)
  | _ => []

end

theorem Items.leaves_ofList (js : List Json) : (Items.ofList js).leaves = js.flatMap (·.leaves) := by
  induction js with
  | nil => rfl
  | cons j js ih => rw [ofList, leaves, ih, List.flatMap_cons]

theorem Members.leaves_ofQuoted (members : List (Json.Quoted × Json)) : (ofQuoted members).leaves =
    members.flatMap fun member => .string member.1 :: member.2.leaves := by
  induction members with
  | nil => rfl
  | cons member members ih => rw [ofQuoted, leaves, ih, List.flatMap_cons, List.cons_append]

namespace Json

/-- A leaf that can be kept for later: a number has to be in range by the rule that numbers are read
by, and a string has to spell a text. -/
inductive CanBeKept : Json → Prop
  | null : CanBeKept .null
  | bool (b : Bool) : CanBeKept (.bool b)
  | number {n : Numeral} {x : Binary64} : n.real = .ok x → CanBeKept (.number n)
  | string (s : String) : CanBeKept (.string (.plain s))

def Keepable (j : Json) : Prop := ∀ leaf ∈ j.leaves, CanBeKept leaf

/-- Names that spell texts can be kept. -/
theorem keepable_object {members : List (String × Json)} (h : ∀ member ∈ members, member.2.Keepable) :
    Keepable (.object (.ofList members)) := by
  rw [Keepable, leaves, Members.ofList_eq, Members.leaves_ofQuoted]
  intro leaf hleaf
  obtain ⟨_, hquoted, hleaf⟩ := List.mem_flatMap.mp hleaf
  obtain ⟨member, hmember, rfl⟩ := List.mem_map.mp hquoted
  rcases List.mem_cons.mp hleaf with rfl | hleaf
  · exact .string member.1
  · exact h member hmember leaf hleaf

theorem Keepable.item {js : List Json} (h : Keepable (.array (.ofList js))) {j : Json} (hj : j ∈ js) :
    j.Keepable := by
  rw [Keepable, leaves, Items.leaves_ofList] at h
  exact fun leaf hleaf => h leaf (List.mem_flatMap_of_mem hj hleaf)

theorem Keepable.member {members : List (Quoted × Json)} (h : Keepable (.object (.ofQuoted members)))
    {member : Quoted × Json} (hmember : member ∈ members) :
    CanBeKept (.string member.1) ∧ member.2.Keepable := by
  rw [Keepable, leaves, Members.leaves_ofQuoted] at h
  exact List.forall_mem_cons.mp fun leaf hleaf => h leaf (List.mem_flatMap_of_mem hmember hleaf)

/-- The string is closed, whether or not it spells a text. -/
inductive Quoted.IsClosed : Quoted → Prop
  | plain (s : String) : IsClosed (.plain s)
  | unpaired : IsClosed .unpaired

/-- Nothing is wrong in the outline of the value, and it is nested at most `depth` levels. -/
inductive IsWhole : Nat → Json → Prop
  | null {depth : Nat} : IsWhole depth .null
  | bool {depth : Nat} (b : Bool) : IsWhole depth (.bool b)
  | number {depth : Nat} (n : Numeral) : IsWhole depth (.number n)
  | string {depth : Nat} {q : Quoted} : q.IsClosed → IsWhole depth (.string q)
  | array {depth : Nat} {js : List Json} : (∀ j ∈ js, IsWhole depth j) →
      IsWhole (depth + 1) (.array (.ofList js))
  | object {depth : Nat} {members : List (Quoted × Json)} :
      (∀ member ∈ members, member.1.IsClosed) → (∀ member ∈ members, IsWhole depth member.2) →
      IsWhole (depth + 1) (.object (.ofQuoted members))

theorem IsWhole.text {depth : Nat} (s : String) : IsWhole depth (.string (.plain s)) := .string (.plain s)

theorem IsWhole.members {depth : Nat} {members : List (String × Json)}
    (h : ∀ member ∈ members, IsWhole depth member.2) :
    IsWhole (depth + 1) (.object (.ofList members)) := by
  rw [Members.ofList_eq]
  exact .object (List.forall_mem_map.mpr fun member _ => .plain member.1) (List.forall_mem_map.mpr h)

theorem IsWhole.mono {depth deeper : Nat} {j : Json} (h : IsWhole depth j) (hle : depth ≤ deeper) :
    IsWhole deeper j := by
  induction h generalizing deeper with
  | null => exact .null
  | bool b => exact .bool b
  | number n => exact .number n
  | string hq => exact .string hq
  | array _ ih =>
    obtain ⟨less, rfl⟩ : ∃ less, deeper = less + 1 := ⟨deeper - 1, by omega⟩
    exact .array fun j hj => ih j hj (by omega)
  | object hnames _ ih =>
    obtain ⟨less, rfl⟩ : ∃ less, deeper = less + 1 := ⟨deeper - 1, by omega⟩
    exact .object hnames fun member hmember => ih member hmember (by omega)

theorem surveyItems_ofList {care : Care} {room : Nat} {js : List Json}
    (h : ∀ j ∈ js, survey care room j = .ok ()) : surveyItems care room (.ofList js) = .ok () := by
  induction js with
  | nil => rfl
  | cons j js ih =>
    obtain ⟨hj, hjs⟩ := List.forall_mem_cons.mp h
    rw [Items.ofList, surveyItems, hj]
    exact ih hjs

theorem surveyMembers_ofQuoted {care : Care} {room : Nat} {members : List (Quoted × Json)}
    (h : ∀ member ∈ members, care.quoted member.1 = .ok () ∧ survey care room member.2 = .ok ()) :
    surveyMembers care room (.ofQuoted members) = .ok () := by
  induction members with
  | nil => rfl
  | cons member members ih =>
    obtain ⟨⟨hname, hvalue⟩, hmembers⟩ := List.forall_mem_cons.mp h
    rw [Members.ofQuoted, surveyMembers, hname, hvalue]
    exact ih hmembers

/-- A value that is kept for later has to fit in its room, and all that is in it can be kept. -/
def Care.Asks (care : Care) (depth room : Nat) (j : Json) : Prop :=
  care = .kept → depth < room ∧ j.Keepable

theorem Care.enter_of_asks {care : Care} {depth room : Nat} {j : Json}
    (h : care.Asks (depth + 1) room j) :
    ∃ room', care.enter room = .ok room' ∧ (care = .kept → depth < room') := by
  cases care with
  | kept =>
    obtain ⟨hroom, _⟩ := h rfl
    exact ⟨room - 1, if_neg (by omega), fun _ => by omega⟩
  | skimmed => exact ⟨room, rfl, nofun⟩

theorem Care.quoted_of_closed {care : Care} {q : Quoted} (hclosed : q.IsClosed)
    (hkept : care = .kept → CanBeKept (.string q)) : care.quoted q = .ok () := by
  cases care with
  | kept =>
    cases hkept rfl
    rfl
  | skimmed => cases hclosed <;> rfl

theorem IsWhole.survey {care : Care} {depth room : Nat} {j : Json} (h : IsWhole depth j)
    (hasks : care.Asks depth room j) : Json.survey care room j = .ok () := by
  induction h generalizing room with
  | null | bool _ => rfl
  | number n =>
    cases care with
    | kept =>
      cases (hasks rfl).2 _ List.mem_cons_self with
      | number hreal =>
        rw [Json.survey, Care.numeral, hreal]
        rfl
    | skimmed => rfl
  | string hq => exact Care.quoted_of_closed hq fun hkept => (hasks hkept).2 _ List.mem_cons_self
  | @array depth js _ ih =>
    obtain ⟨room', henter, hroom⟩ := Care.enter_of_asks hasks
    rw [Json.survey, henter]
    exact surveyItems_ofList fun j hj => ih j hj fun hkept => ⟨hroom hkept, (hasks hkept).2.item hj⟩
  | @object depth members hnames _ ih =>
    obtain ⟨room', henter, hroom⟩ := Care.enter_of_asks hasks
    rw [Json.survey, henter]
    refine surveyMembers_ofQuoted fun member hmember => ⟨?_, ?_⟩
    · exact Care.quoted_of_closed (hnames member hmember) fun hkept =>
        ((hasks hkept).2.member hmember).1
    · exact ih member hmember fun hkept => ⟨hroom hkept, ((hasks hkept).2.member hmember).2⟩

theorem IsWhole.skim {depth : Nat} {j : Json} (h : IsWhole depth j) : Json.skim j = .ok () :=
  h.survey nofun

/-! ## Layouts of records -/

/-- The values of all members under the name. -/
def valuesOf (name : String) (members : List (String × Json)) : List Json :=
  (members.filter (·.1 == name)).map (·.2)

section
variable {name other : String} {j : Json} {members : List (String × Json)}

theorem valuesOf_self : valuesOf name ((name, j) :: members) = j :: valuesOf name members := by
  simp [valuesOf]

theorem valuesOf_of_ne (h : other ≠ name) :
    valuesOf name ((other, j) :: members) = valuesOf name members := by
  simp [valuesOf, h]

theorem valuesOf_eq_nil : valuesOf name ((other, j) :: members) = [] ↔
    other ≠ name ∧ valuesOf name members = [] := by
  by_cases h : other = name <;> simp [valuesOf, h]

theorem valuesOf_eq_singleton {found : Json} : valuesOf name ((name, j) :: members) = [found] ↔
    j = found ∧ valuesOf name members = [] := by
  rw [valuesOf_self, List.cons.injEq]

theorem mem_valuesOf {member : String × Json} (h : member ∈ members) :
    member.2 ∈ valuesOf member.1 members :=
  List.mem_map_of_mem (List.mem_filter.mpr ⟨h, by simp⟩)

end

/-- A part of a record: under which name, what it may stand as, and when it may be left out. -/
structure RecordPart (α : Type) where
  name : String
  Stands : α → Json → Prop
  mayMiss : α → Bool

inductive RecordPart.Given {α : Type} (part : RecordPart α) (a : α) (members : List (String × Json)) :
    Prop
  | once {j : Json} : valuesOf part.name members = [j] → part.Stands a j → Given part a members
  | missing : valuesOf part.name members = [] → part.mayMiss a → Given part a members

/-- How deep the values under unknown names may be nested. -/
def spareDepth : Nat := 100

/-- What stands under all other names is not nested too deep. -/
def SparesWhole (names : List String) (members : List (String × Json)) : Prop :=
  ∀ member ∈ members, member.1 ∉ names → IsWhole spareDepth member.2

/-- The ways to lay out a record: with its parts among other members, or one behind the other, where
those at the end may be left out. -/
inductive LaidOut {α : Type} (parts : List (RecordPart α)) (a : α) : Json → Prop
  | object {members : List (String × Json)} : (∀ part ∈ parts, part.Given a members) →
      SparesWhole (parts.map (·.name)) members → LaidOut parts a (.object (.ofList members))
  | array {given missing : List (RecordPart α)} {js : List Json} : parts = given ++ missing →
      List.Forall₂ (fun part j => part.Stands a j) given js → (∀ part ∈ missing, part.mayMiss a) →
      LaidOut parts a (.array (.ofList js))

theorem exists_of_forall₂ {α β : Type} {rel : α → β → Prop} {as : List α} {bs : List β}
    (h : List.Forall₂ rel as bs) {b : β} (hb : b ∈ bs) : ∃ a ∈ as, rel a b := by
  induction h with
  | nil => cases hb
  | @cons a c as bs hrel _ ih =>
    rcases List.mem_cons.mp hb with rfl | hb
    · exact ⟨a, List.mem_cons_self, hrel⟩
    · obtain ⟨a, ha, hrel⟩ := ih hb
      exact ⟨a, List.mem_cons_of_mem _ ha, hrel⟩

section
variable {α : Type} {parts : List (RecordPart α)} {a : α} {j : Json} {depth : Nat}

theorem LaidOut.isWhole (h : LaidOut parts a j) (hdepth : spareDepth ≤ depth)
    (hparts : ∀ part ∈ parts, ∀ j, part.Stands a j → IsWhole depth j) : IsWhole (depth + 1) j := by
  cases h with
  | @object members hgiven hspares =>
    refine .members fun member hmember => ?_
    by_cases hname : member.1 ∈ parts.map (·.name)
    · obtain ⟨part, hpart, hname⟩ := List.mem_map.mp hname
      have hmem := mem_valuesOf hmember
      rw [← hname] at hmem
      cases hgiven part hpart with
      | once hvalues hstands =>
        rw [hvalues, List.mem_singleton] at hmem
        exact hmem ▸ hparts part hpart _ hstands
      | missing hvalues _ =>
        rw [hvalues] at hmem
        cases hmem
    · exact (hspares member hmember hname).mono hdepth
  | @array given missing js hsplit hstands _ =>
    refine .array fun j hj => ?_
    obtain ⟨part, hpart, hstands⟩ := exists_of_forall₂ hstands hj
    exact hparts part (hsplit ▸ List.mem_append_left _ hpart) j hstands

end

/-! ## Other layouts -/

def IsBool (b : Bool) (j : Json) : Prop := j = .bool b

def IsText (s : String) (j : Json) : Prop := j = .string (.plain s)

def IsNat (n : Nat) (j : Json) : Prop := j = .number ⟨false, Nat.toDigits 10 n, none, none⟩

/-- There is more than one way to write a number; the one that is used has to be read as the number. -/
def IsReal (x : Binary64) (j : Json) : Prop := ∃ n : Numeral, j = .number n ∧ n.real = .ok x

def IsList {α : Type} (Stands : α → Json → Prop) (as : List α) (j : Json) : Prop :=
  ∃ js, j = .array (.ofList js) ∧ List.Forall₂ Stands as js

theorem IsNat.isWhole {n depth : Nat} {j : Json} (h : IsNat n j) : IsWhole depth j := h ▸ .number _

theorem IsReal.isWhole {x : Binary64} {depth : Nat} {j : Json} (h : IsReal x j) : IsWhole depth j := by
  obtain ⟨n, rfl, _⟩ := h
  exact .number n

theorem IsList.isWhole {α : Type} {Stands : α → Json → Prop} {as : List α} {depth : Nat} {j : Json}
    (h : IsList Stands as j) (hitems : ∀ a j, Stands a j → IsWhole depth j) : IsWhole (depth + 1) j := by
  obtain ⟨js, rfl, hstands⟩ := h
  refine .array fun j hj => ?_
  obtain ⟨a, _, hstands⟩ := exists_of_forall₂ hstands hj
  exact hitems a j hstands

/-- The ways to lay out a value with its tag. Before the tag it is not known what the content is asked
for, so of a content that stands there all has to be such that it can be kept, what is unknown too. -/
inductive TaggedOut (tag content name : String) (Stands : Json → Prop) : Json → Prop
  | object {members : List (String × Json)} {j : Json} :
      valuesOf tag members = [.string (.plain name)] → valuesOf content members = [j] → Stands j →
      (∀ before after, members = before ++ (content, j) :: after → valuesOf tag before = [] →
        j.Keepable) →
      SparesWhole [tag, content] members → TaggedOut tag content name Stands (.object (.ofList members))
  | array {j : Json} : Stands j →
      TaggedOut tag content name Stands (.array (.ofList [.string (.plain name), j]))

end Json

end ScopedResources
