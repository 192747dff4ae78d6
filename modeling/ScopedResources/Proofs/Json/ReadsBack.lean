import ScopedResources.Json.Record
import ScopedResources.Json.Tagged
import ScopedResources.Proofs.Json.Spelling

/-! # Texts that are read back

A text is read back by a reader if it spells a tree from which the reader takes the value, provided
there is room for its levels of nesting. What is written for lists, records and tagged values is read
back if what is written for their parts is. -/

namespace ScopedResources.Json

/-- The reader takes the text for the value if it may enter more than `depth` levels. -/
def ReadsBack {α : Type} (reader : Reader α) (depth : Nat) (text : String) (a : α) : Prop :=
  ∃ j, Spells text.toList j ∧ ∀ room, depth < room → reader room j = .ok a

variable {α β : Type} {reader : Reader α} {depth : Nat} {text : String} {a : α}

namespace ReadsBack

theorem map (h : ReadsBack reader depth text a) (f : α → β) :
    ReadsBack (fun room j => (reader room j).map f) depth text (f a) := by
  obtain ⟨j, hspells, hread⟩ := h
  exact ⟨j, hspells, fun room hroom => by simp only [hread room hroom, Except.map]⟩

theorem thenReturn (h : ReadsBack reader depth text a) (f : α → β) :
    ReadsBack (fun room j => do return f (← reader room j)) depth text (f a) := by
  obtain ⟨j, hspells, hread⟩ := h
  refine ⟨j, hspells, fun room hroom => ?_⟩
  simp only [hread room hroom]
  rfl

theorem mono (h : ReadsBack reader depth text a) {deeper : Nat} (hle : depth ≤ deeper) :
    ReadsBack reader deeper text a := by
  obtain ⟨j, hspells, hread⟩ := h
  exact ⟨j, hspells, fun room hroom => hread room (Nat.lt_of_le_of_lt hle hroom)⟩

theorem ofText (h : ReadsBack reader depth text a) (hdepth : depth < depthLimit) :
    reader.ofText text = .ok a := by
  obtain ⟨j, hspells, hread⟩ := h
  have hscan : scan text = (j, some []) := by
    have := hspells.scan (3 * text.toList.length + 3) [] (by omega) .nil
    rwa [List.append_nil] at this
  simp only [Reader.ofText, hscan, hread depthLimit hdepth]
  rfl

end ReadsBack

/-! ## Leaves -/

theorem readsBack_bool (b : Bool) : ReadsBack readBool 0 (writeBool b) b :=
  ⟨_, spells_bool b, fun _ _ => rfl⟩

theorem readsBack_text (s : String) : ReadsBack readString 0 (quote s) s :=
  ⟨_, spells_quote s, fun _ _ => rfl⟩

theorem readsBack_nat {n bound : Nat} (h : n < bound) (hbound : bound ≤ UInt64.size) :
    ReadsBack (readBelow bound) 0 (writeNat n) n :=
  ⟨_, spells_nat n, fun room _ => readBelow_nat h hbound room⟩

theorem readsBack_real {x : Binary64} (h : x.ComesBack) (hfinite : x.isFinite) :
    ReadsBack readReal 0 (writeReal x) x := by
  obtain ⟨n, hreal, hspells⟩ := spells_real h hfinite
  exact ⟨_, hspells, fun _ _ => hreal⟩

/-! ## Lists -/

theorem enter_of_lt {room : Nat} (h : depth + 1 < room) :
    enter room = .ok (room - 1) ∧ depth < room - 1 := by
  refine ⟨?_, by omega⟩
  rw [enter, Care.enter]
  exact if_neg (by omega)

theorem readsBack_items {write : α → String} {as : List α}
    (h : ∀ a ∈ as, ReadsBack reader depth (write a) a) :
    ∃ js, List.Forall₂ (fun text j => Spells text.toList j) (as.map write) js ∧
      ∀ room, depth < room → readItems reader room (.ofList js) = .ok as := by
  induction as with
  | nil => exact ⟨[], .nil, fun _ _ => rfl⟩
  | cons a as ih =>
    obtain ⟨j, hspells, hread⟩ := h a List.mem_cons_self
    obtain ⟨js, hrest, hitems⟩ := ih fun b hb => h b (List.mem_cons_of_mem a hb)
    refine ⟨j :: js, .cons hspells hrest, fun room hroom => ?_⟩
    rw [Items.ofList, readItems, hread room hroom, hitems room hroom]
    rfl

theorem readsBack_list {write : α → String} {as : List α}
    (h : ∀ a ∈ as, ReadsBack reader depth (write a) a) :
    ReadsBack (readList reader) (depth + 1) (writeArray (as.map write)) as := by
  obtain ⟨js, hspells, hitems⟩ := readsBack_items h
  refine ⟨_, spells_array hspells, fun room hroom => ?_⟩
  obtain ⟨henter, hless⟩ := enter_of_lt hroom
  rw [readList, henter]
  exact hitems _ hless

/-! ## Records -/

namespace Record

variable {δ : Type} {r : Record δ α}

/-- The members fill the draft field by field, each a field that is not filled yet. -/
inductive Fills (r : Record δ α) (depth : Nat) : δ → List (String × String) → δ → Prop
  | nil {draft : δ} : Fills r depth draft [] draft
  | cons {draft filled last : δ} {name text : String} {members : List (String × String)}
      {field : Field δ} :
      r.fields.find? (·.name == name) = some field → field.isRead draft = false →
      ReadsBack (fun room j => field.read room j draft) depth text filled →
      Fills r depth filled members last → Fills r depth draft ((name, text) :: members) last

theorem Fills.readMembers {draft last : δ} {members : List (String × String)}
    (h : r.Fills depth draft members last) (hfinish : r.finish last = some a) :
    ∃ trees, List.Forall₂ (fun member tree => member.1 = tree.1 ∧ Spells member.2.toList tree.2)
        members trees ∧
      ∀ room, depth < room → r.readMembers room draft (.ofList trees) = .ok a := by
  induction h with
  | nil =>
    refine ⟨[], .nil, fun _ _ => ?_⟩
    rw [Members.ofList, Record.readMembers, complete, hfinish]
  | @cons draft filled last name text members field hfind hfresh hfield _ ih =>
    obtain ⟨j, hspells, hread⟩ := hfield
    obtain ⟨trees, hrest, htrees⟩ := ih hfinish
    refine ⟨(name, j) :: trees, .cons ⟨rfl, hspells⟩ hrest, fun room hroom => ?_⟩
    have hread : field.read room j draft = .ok filled := hread room hroom
    simp only [Members.ofList, Record.readMembers, Quoted.kept, bind, Except.bind, hfind, hfresh, hread]
    exact htrees room hroom

/-- A field that is kept in the draft is read back as its value is. -/
theorem readsBack_field {name : String} {get : δ → Option α} {put : α → δ → δ} (draft : δ)
    (h : ReadsBack reader depth text a) :
    ReadsBack (fun room j => (Field.of name reader get put).read room j draft) depth text
      (put a draft) := h.thenReturn fun a => put a draft

theorem readsBack {last : δ} {members : List (String × String)}
    (h : r.Fills depth r.blank members last) (hfinish : r.finish last = some a) :
    ReadsBack r.read (depth + 1) (writeObject members) a := by
  obtain ⟨trees, hspells, htrees⟩ := h.readMembers hfinish
  refine ⟨_, spells_object hspells, fun room hroom => ?_⟩
  obtain ⟨henter, hless⟩ := enter_of_lt hroom
  rw [read, henter]
  exact htrees _ hless

end Record

/-! ## Tagged values -/

theorem Tagged.readsBack {κ : Type} {t : Tagged κ α} (hnames : t.content ≠ t.tag) {name : String}
    {kind : κ} (hkind : t.kinds.lookup name = some kind)
    (h : ReadsBack (t.read kind) depth text a) :
    ReadsBack t.reader (depth + 1) (writeObject [(t.tag, quote name), (t.content, text)]) a := by
  obtain ⟨j, hspells, hread⟩ := h
  have hmembers : List.Forall₂ (fun member tree => member.1 = tree.1 ∧ Spells member.2.toList tree.2)
      [(t.tag, quote name), (t.content, text)]
      [(t.tag, .string (.plain name)), (t.content, j)] :=
    .cons ⟨rfl, spells_quote name⟩ (.cons ⟨rfl, hspells⟩ .nil)
  refine ⟨_, spells_object hmembers, fun room hroom => ?_⟩
  obtain ⟨henter, hless⟩ := enter_of_lt hroom
  simp [reader, henter, Members.ofList, readMembers, readContent, readRest, readName, lookUp, hkind,
    Quoted.kept, hnames, hread _ hless, bind, Except.bind]

end ScopedResources.Json
