import ScopedResources.Proofs.Json.Layout
import ScopedResources.Proofs.Json.ReadsBack

/-! # Reading whatever is laid out

However a value is laid out, its reader takes it for the same. For a record this goes by the names that
have been read so far: they tell what is in the draft, and which parts are still to come. -/

namespace ScopedResources.Json

/-- The reader takes every tree that stands for a value for this value, if it may enter more than `depth`
levels. -/
def Takes {α : Type} (reader : Reader α) (depth : Nat) (Stands : α → Json → Prop) : Prop :=
  ∀ ⦃a room j⦄, depth < room → Stands a j → reader room j = .ok a

section
variable {α β : Type} {reader : Reader α} {depth : Nat} {Stands : α → Json → Prop}

theorem Takes.mono (h : Takes reader depth Stands) {deeper : Nat} (hle : depth ≤ deeper) :
    Takes reader deeper Stands := fun _ _ _ hroom => h (Nat.lt_of_le_of_lt hle hroom)

theorem Takes.ofText (h : Takes reader depth Stands) (hdepth : depth < depthLimit) {text : String}
    {j : Json} {a : α} (htext : TextOf text j) (hstands : Stands a j) : reader.ofText text = .ok a := by
  obtain ⟨ws, hws, hscan⟩ := htext.scan
  have hblanks : dropBlanks ws = [] := by
    have := dropBlanks_append hws []
    rwa [List.append_nil] at this
  simp only [Reader.ofText, hscan, h hdepth hstands, hblanks, if_true]
  rfl

/-! ## Leaves and lists -/

theorem takes_bool : Takes readBool 0 IsBool := by
  rintro b room _ _ rfl
  rfl

theorem takes_text : Takes readString 0 IsText := by
  rintro s room _ _ rfl
  rfl

theorem takes_real : Takes readReal 0 IsReal := by
  rintro x room _ _ ⟨n, rfl, hreal⟩
  exact hreal

theorem takes_items (h : Takes reader depth Stands) {room : Nat} (hroom : depth < room) {as : List α}
    {js : List Json} (hstands : List.Forall₂ Stands as js) :
    readItems reader room (.ofList js) = .ok as := by
  induction hstands with
  | nil => rfl
  | cons hj _ ih =>
    rw [Items.ofList, readItems, h hroom hj, ih]
    rfl

theorem takes_list (h : Takes reader depth Stands) :
    Takes (readList reader) (depth + 1) (IsList Stands) := by
  rintro as room _ hroom ⟨js, rfl, hstands⟩
  obtain ⟨henter, hless⟩ := enter_of_lt hroom
  rw [readList, henter]
  exact takes_items h hless hstands

end

/-! ## Records -/

section
variable {α : Type} {part : RecordPart α} {a : α} {seen : List String} {other : String} {j : Json}
  {members : List (String × Json)}

/-- The part has been read and does not come again, or it has not and is still to come. -/
inductive RecordPart.Open (part : RecordPart α) (a : α) (seen : List String)
    (members : List (String × Json)) : Prop
  | done : part.name ∈ seen → valuesOf part.name members = [] → Open part a seen members
  | left : part.name ∉ seen → part.Given a members → Open part a seen members

theorem RecordPart.Open.skip (h : part.Open a seen ((other, j) :: members)) (hne : other ≠ part.name) :
    part.Open a seen members := by
  cases h with
  | done hseen hvalues => exact .done hseen (valuesOf_of_ne hne ▸ hvalues)
  | left hseen hgiven =>
    refine .left hseen ?_
    cases hgiven with
    | once hvalues hstands => exact .once (valuesOf_of_ne hne ▸ hvalues) hstands
    | missing hvalues hmiss => exact .missing (valuesOf_of_ne hne ▸ hvalues) hmiss

theorem RecordPart.Open.push (h : part.Open a seen members) (hne : other ≠ part.name) :
    part.Open a (other :: seen) members := by
  cases h with
  | done hseen hvalues => exact .done (List.mem_cons_of_mem _ hseen) hvalues
  | left hseen hgiven => exact .left (fun hmem => hseen (List.mem_of_ne_of_mem hne.symm hmem)) hgiven

/-- The part's own member can only be the one in which it is given. -/
theorem RecordPart.Open.take (h : part.Open a seen ((part.name, j) :: members)) :
    part.name ∉ seen ∧ part.Stands a j ∧ valuesOf part.name members = [] := by
  cases h with
  | done _ hvalues =>
    rw [valuesOf_self] at hvalues
    cases hvalues
  | left hseen hgiven =>
    cases hgiven with
    | once hvalues hstands =>
      obtain ⟨rfl, hrest⟩ := valuesOf_eq_singleton.mp hvalues
      exact ⟨hseen, hstands, hrest⟩
    | missing hvalues _ =>
      rw [valuesOf_self] at hvalues
      cases hvalues

theorem RecordPart.Open.closed (h : part.Open a seen []) : part.name ∈ seen ∨ part.mayMiss a := by
  cases h with
  | done hseen _ => exact .inl hseen
  | left _ hgiven =>
    cases hgiven with
    | once hvalues _ => cases hvalues
    | missing _ hmiss => exact .inr hmiss

end

/-- Fills a place of a draft if its name is among those that have been read. -/
def ifRead {β : Type} (seen : List String) (name : String) (b : β) : Option β :=
  if name ∈ seen then some b else none

section
variable {α β δ : Type} {depth : Nat} {draft : α → List String → δ}

/-- The field reads the part. What a draft holds of `a` is told by the names that have been read. -/
structure Field.Reads (depth : Nat) (draft : α → List String → δ) (field : Field δ)
    (part : RecordPart α) : Prop where
  name : field.name = part.name
  isRead : ∀ a seen, field.isRead (draft a seen) = decide (part.name ∈ seen)
  read : ∀ ⦃a room j⦄ seen, depth < room → part.Stands a j →
    field.read room j (draft a seen) = .ok (draft a (part.name :: seen))

theorem Field.reads_of {name : String} {reader : Reader β} {get : δ → Option β} {put : β → δ → δ}
    {Stands : β → Json → Prop} (component : α → β) {mayMiss : α → Bool}
    (h : Takes reader depth Stands)
    (hget : ∀ a seen, get (draft a seen) = ifRead seen name (component a))
    (hput : ∀ a seen, put (component a) (draft a seen) = draft a (name :: seen)) :
    (Field.of name reader get put).Reads depth draft ⟨name, fun a => Stands (component a), mayMiss⟩ where
  name := rfl
  isRead a seen := by
    simp only [Field.of, hget, ifRead]
    split <;> simp [*]
  read a room j seen hroom hstands := by
    simp only [Field.of, h hroom hstands, ← hput]
    rfl

/-- The record is read part by part. -/
structure Record.Reads (r : Record δ α) (parts : List (RecordPart α)) (depth : Nat)
    (draft : α → List String → δ) : Prop where
  blank : ∀ a, draft a [] = r.blank
  fields : List.Forall₂ (Field.Reads depth draft) r.fields parts
  finish : ∀ a seen, (∀ part ∈ parts, part.name ∈ seen ∨ part.mayMiss a) →
    r.finish (draft a seen) = some a

namespace Record.Reads

variable {r : Record δ α} {parts : List (RecordPart α)} {a : α} {room : Nat}

theorem complete (h : r.Reads parts depth draft) {seen : List String}
    (hparts : ∀ part ∈ parts, part.name ∈ seen ∨ part.mayMiss a) :
    r.complete (draft a seen) = .ok a := by
  rw [Record.complete, h.finish a seen hparts]

/-- A name is that of a part, which is read by the field of that name, or it is unknown. -/
theorem find? (h : r.Reads parts depth draft) (name : String) :
    (∃ field part, r.fields.find? (·.name == name) = some field ∧ part ∈ parts ∧ part.name = name ∧
      field.Reads depth draft part) ∨
    (r.fields.find? (·.name == name) = none ∧ name ∉ parts.map (·.name)) := by
  cases hfind : r.fields.find? (·.name == name) with
  | some field =>
    obtain ⟨part, hpart, hreads⟩ := exists_of_forall₂ h.fields.flip (List.mem_of_find?_eq_some hfind)
    have hname : field.name = name := by simpa using List.find?_some hfind
    exact .inl ⟨field, part, rfl, hpart, hreads.name ▸ hname, hreads⟩
  | none =>
    refine .inr ⟨rfl, fun hmem => ?_⟩
    obtain ⟨part, hpart, rfl⟩ := List.mem_map.mp hmem
    obtain ⟨field, hfield, hreads⟩ := exists_of_forall₂ h.fields hpart
    have hne := List.find?_eq_none.mp hfind field hfield
    simp [hreads.name] at hne

theorem readMembers (h : r.Reads parts depth draft) (hroom : depth < room) {seen : List String}
    {members : List (String × Json)} (hparts : ∀ part ∈ parts, part.Open a seen members)
    (hspares : SparesWhole (parts.map (·.name)) members) :
    r.readMembers room (draft a seen) (.ofList members) = .ok a := by
  induction members generalizing seen with
  | nil => exact h.complete fun part hpart => (hparts part hpart).closed
  | cons member members ih =>
    obtain ⟨name, j⟩ := member
    obtain ⟨hspare, hothers⟩ := List.forall_mem_cons.mp hspares
    simp only [Members.ofList, Record.readMembers, Quoted.kept, bind, Except.bind]
    rcases h.find? name with ⟨field, part, hfind, hpart, rfl, hreads⟩ | ⟨hfind, hname⟩
    · -- From here on the part is among those that have been read, and no member of its name is left.
      obtain ⟨hseen, hstands, hrest⟩ := (hparts part hpart).take
      simp only [hfind, hreads.isRead, hseen, decide_false, Bool.false_eq_true, if_false,
        hreads.read seen hroom hstands]
      refine ih (fun other hother => ?_) hothers
      by_cases hne : part.name = other.name
      · exact .done (hne ▸ List.mem_cons_self) (hne ▸ hrest)
      · exact ((hparts other hother).skip hne).push hne
    · simp only [hfind, (hspare hname).skim]
      refine ih (fun part hpart => (hparts part hpart).skip ?_) hothers
      rintro rfl
      exact hname (List.mem_map_of_mem hpart)

theorem readPositions (h : r.Reads parts depth draft) (hroom : depth < room) {seen : List String}
    {fields : List (Field δ)} {given missing : List (RecordPart α)} {js : List Json}
    (hfields : List.Forall₂ (Field.Reads depth draft) fields (given ++ missing))
    (hstands : List.Forall₂ (fun part j => part.Stands a j) given js)
    (hseen : ∀ part ∈ parts, part.name ∈ seen ∨ part ∈ given ++ missing)
    (hmissing : ∀ part ∈ missing, part.mayMiss a) :
    r.readPositions room (draft a seen) fields (.ofList js) = .ok a := by
  -- With each item that is read, one part moves from those that are given to those that have been read.
  induction hstands generalizing fields seen with
  | nil =>
    rw [Items.ofList, Record.readPositions]
    exact h.complete fun part hpart => (hseen part hpart).imp_right (hmissing part)
  | @cons part j given js hj _ ih =>
    obtain _ | @⟨field, _, fields, _, hreads, hfields⟩ := hfields
    rw [Items.ofList, Record.readPositions, hreads.read seen hroom hj]
    refine ih hfields fun other hother => ?_
    rcases hseen other hother with hseen | hleft
    · exact .inl (List.mem_cons_of_mem _ hseen)
    · rcases List.mem_cons.mp hleft with rfl | hleft
      · exact .inl List.mem_cons_self
      · exact .inr hleft

/-- The record is read whatever is its layout. -/
theorem takes (h : r.Reads parts depth draft) : Takes r.read (depth + 1) (LaidOut parts) := by
  intro a room j hroom hj
  obtain ⟨henter, hless⟩ := enter_of_lt hroom
  cases hj with
  | object hgiven hspares =>
    rw [Record.read, henter, ← h.blank a]
    exact h.readMembers hless (fun part hpart => .left List.not_mem_nil (hgiven part hpart)) hspares
  | array hsplit hstands hmissing =>
    rw [Record.read, henter, ← h.blank a]
    exact h.readPositions hless (hsplit ▸ h.fields) hstands (fun part hpart => .inr (hsplit ▸ hpart))
      hmissing

end Record.Reads

end

/-! ## Tagged values -/

namespace Tagged

variable {κ α : Type} {t : Tagged κ α} {kind : κ} {name : String} {a : α} {j : Json} {depth room : Nat}
  {members : List (String × Json)}

theorem readRest_spares (a : α) (htag : valuesOf t.tag members = [])
    (hcontent : valuesOf t.content members = []) (hspares : SparesWhole [t.tag, t.content] members) :
    t.readRest a (.ofList members) = .ok a := by
  induction members with
  | nil => rfl
  | cons member members ih =>
    obtain ⟨other, spare⟩ := member
    obtain ⟨hspare, hothers⟩ := List.forall_mem_cons.mp hspares
    obtain ⟨htag, hrest⟩ := valuesOf_eq_nil.mp htag
    obtain ⟨hcontent, hrest'⟩ := valuesOf_eq_nil.mp hcontent
    have hskim := (hspare (by simp [htag, hcontent])).skim
    simpa [Members.ofList, readRest, Quoted.kept, bind, Except.bind, htag, hcontent, hskim]
      using ih hrest hrest' hothers

theorem readContent_spares (hread : t.read kind room j = .ok a) (htag : valuesOf t.tag members = [])
    (hcontent : valuesOf t.content members = [j]) (hspares : SparesWhole [t.tag, t.content] members) :
    t.readContent room kind (.ofList members) = .ok a := by
  induction members with
  | nil => cases hcontent
  | cons member members ih =>
    obtain ⟨other, value⟩ := member
    obtain ⟨hspare, hothers⟩ := List.forall_mem_cons.mp hspares
    obtain ⟨hne, hrest⟩ := valuesOf_eq_nil.mp htag
    by_cases hother : other = t.content
    · obtain ⟨rfl, hrest'⟩ := valuesOf_eq_singleton.mp (hother ▸ hcontent)
      have hne : t.content ≠ t.tag := hother ▸ hne
      simpa [Members.ofList, readContent, Quoted.kept, bind, Except.bind, hother, hne, hread]
        using readRest_spares a hrest hrest' hothers
    · have hskim := (hspare (by simp [hne, hother])).skim
      simpa [Members.ofList, readContent, Quoted.kept, bind, Except.bind, hne, hother, hskim]
        using ih hrest (valuesOf_of_ne hother ▸ hcontent) hothers

theorem readKind_spares (hkind : t.kinds.lookup name = some kind) (hread : t.read kind room j = .ok a)
    (htag : valuesOf t.tag members = [.string (.plain name)]) (hcontent : valuesOf t.content members = [])
    (hspares : SparesWhole [t.tag, t.content] members) :
    t.readKind room j (.ofList members) = .ok a := by
  induction members with
  | nil => cases htag
  | cons member members ih =>
    obtain ⟨other, value⟩ := member
    obtain ⟨hspare, hothers⟩ := List.forall_mem_cons.mp hspares
    obtain ⟨hne, hrest⟩ := valuesOf_eq_nil.mp hcontent
    by_cases hother : other = t.tag
    · obtain ⟨rfl, hrest'⟩ := valuesOf_eq_singleton.mp (hother ▸ htag)
      have hne : t.tag ≠ t.content := hother ▸ hne
      simpa [Members.ofList, readKind, readName, lookUp, Quoted.kept, bind, Except.bind, hne,
        hother, hkind, hread] using readRest_spares a hrest' hrest hothers
    · have hskim := (hspare (by simp [hne, hother])).skim
      simpa [Members.ofList, readKind, Quoted.kept, bind, Except.bind, hne, hother, hskim]
        using ih (valuesOf_of_ne hother ▸ htag) hrest hothers

/-- The tag and the content are found in either order. -/
theorem readMembers_spares (hnames : t.content ≠ t.tag) (hkind : t.kinds.lookup name = some kind)
    (hread : t.read kind room j = .ok a) (htag : valuesOf t.tag members = [.string (.plain name)])
    (hcontent : valuesOf t.content members = [j])
    (hsurvey : ∀ before after, members = before ++ (t.content, j) :: after →
      valuesOf t.tag before = [] → survey .kept room j = .ok ())
    (hspares : SparesWhole [t.tag, t.content] members) :
    t.readMembers room (.ofList members) = .ok a := by
  induction members with
  | nil => cases htag
  | cons member members ih =>
    obtain ⟨other, value⟩ := member
    obtain ⟨hspare, hothers⟩ := List.forall_mem_cons.mp hspares
    by_cases hother : other = t.tag
    · obtain ⟨rfl, hrest⟩ := valuesOf_eq_singleton.mp (hother ▸ htag)
      have hrest' := valuesOf_of_ne (fun h => hnames (h.symm.trans hother)) ▸ hcontent
      simpa [Members.ofList, readMembers, readName, lookUp, Quoted.kept, bind, Except.bind, hother,
        hkind] using readContent_spares hread hrest hrest' hothers
    by_cases hother' : other = t.content
    · obtain ⟨rfl, hrest⟩ := valuesOf_eq_singleton.mp (hother' ▸ hcontent)
      have hsurvey := hsurvey [] members (by rw [hother']; rfl) rfl
      have hrest' := valuesOf_of_ne hother ▸ htag
      simpa [Members.ofList, readMembers, Quoted.kept, bind, Except.bind, hother', hnames, hsurvey]
        using readKind_spares hkind hread hrest' hrest hothers
    · -- A member that is skimmed does not come between the tag and the content.
      have hskim := (hspare (by simp [hother, hother'])).skim
      have hsurvey : ∀ before after, members = before ++ (t.content, j) :: after →
          valuesOf t.tag before = [] → survey .kept room j = .ok () := by
        intro before after hsplit hbefore
        refine hsurvey ((other, value) :: before) after (by rw [hsplit]; rfl) ?_
        rwa [valuesOf_of_ne hother]
      simpa [Members.ofList, readMembers, Quoted.kept, bind, Except.bind, hother, hother', hskim]
        using ih (valuesOf_of_ne hother ▸ htag) (valuesOf_of_ne hother' ▸ hcontent) hsurvey hothers

/-- A tagged value is read whatever is its layout. -/
theorem takes (hnames : t.content ≠ t.tag) {nameOf : α → String} {kindOf : α → κ}
    {Stands : α → Json → Prop} (hkind : ∀ a, t.kinds.lookup (nameOf a) = some (kindOf a))
    (hread : ∀ ⦃a room j⦄, depth < room → Stands a j → t.read (kindOf a) room j = .ok a)
    (hwhole : ∀ ⦃a j⦄, Stands a j → IsWhole depth j) :
    Takes t.reader (depth + 1) fun a => TaggedOut t.tag t.content (nameOf a) (Stands a) := by
  intro a room j hroom hj
  obtain ⟨henter, hless⟩ := enter_of_lt hroom
  cases hj with
  | @object members j htag hcontent hstands hkeepable hspares =>
    rw [reader, henter]
    refine readMembers_spares hnames (hkind a) (hread hless hstands) htag hcontent ?_ hspares
    intro before after hsplit hbefore
    exact (hwhole hstands).survey fun _ => ⟨hless, hkeepable before after hsplit hbefore⟩
  | @array j hstands =>
    have hread := hread hless hstands
    simp [reader, henter, Items.ofList, readPositions, readPlainName, lookUp, Quoted.kept, hkind, hread,
      bind, Except.bind, pure, Except.pure]

end Tagged

end ScopedResources.Json
