import ScopedResources.Json.Record
import ScopedResources.Json.Tagged
import ScopedResources.Proofs.Json.Numerals

/-! # What readers yield

What a reader takes a value for has a property, whatever the value is, if the property holds of what
the readers of the parts yield. For a record the property goes by way of the draft: it has to hold of
the blank one and to be kept by every field. -/

namespace ScopedResources.Json

/-- All that the reader takes a value for has the property. -/
def Yields {α : Type} (reader : Reader α) (p : α → Prop) : Prop :=
  ∀ ⦃room j a⦄, reader room j = .ok a → p a

variable {α β : Type} {reader : Reader α} {p : α → Prop}

theorem Yields.map {q : β → Prop} {f : α → β} (h : Yields reader p) (hf : ∀ a, p a → q (f a)) :
    Yields (fun room j => (reader room j).map f) q := by
  intro room j b hb
  cases ha : reader room j with
  | error fault => simp [ha, Except.map] at hb
  | ok a =>
    simp only [ha, Except.map, Except.ok.injEq] at hb
    exact hb ▸ hf a (h ha)

theorem yields_true (reader : Reader α) : Yields reader fun _ => True := fun _ _ _ _ => trivial

/-! ## Numbers and lists -/

theorem yields_real : Yields readReal fun x => x.isFinite := by
  intro room j x h
  unfold readReal at h
  split at h
  · next n =>
    unfold Numeral.real at h
    split at h
    · next hx =>
      cases h
      exact Decimal.isFinite_of_toBinary64? hx
    · cases h
  · cases h

theorem Yields.items (h : Yields reader p) {room : Nat} {items : Items} {as : List α}
    (hread : readItems reader room items = .ok as) : ∀ a ∈ as, p a := by
  fun_induction readItems reader room items generalizing as with
  | case1 =>
    cases hread
    intro a ha
    cases ha
  | case2 fault => cases hread
  | case3 value rest ih =>
    obtain ⟨a, ha, hread⟩ := of_bind_eq_ok hread
    obtain ⟨as', has, hread⟩ := of_bind_eq_ok hread
    cases hread
    intro b hb
    rcases List.mem_cons.mp hb with rfl | hb
    · exact h ha
    · exact ih has b hb

theorem Yields.list (h : Yields reader p) : Yields (readList reader) fun as => ∀ a ∈ as, p a := by
  intro room j as hread
  unfold readList at hread
  split at hread
  · obtain ⟨room', _, hread⟩ := of_bind_eq_ok hread
    exact h.items hread
  · cases hread

/-! ## Records -/

variable {δ : Type}

def Field.Keeps (field : Field δ) (inv : δ → Prop) : Prop :=
  ∀ ⦃room j draft draft'⦄, field.read room j draft = .ok draft' → inv draft → inv draft'

theorem Field.keeps_of {q : β → Prop} {name : String} {reader : Reader β} {get : δ → Option β}
    {put : β → δ → δ} {inv : δ → Prop} (h : Yields reader q)
    (hput : ∀ b draft, q b → inv draft → inv (put b draft)) : (Field.of name reader get put).Keeps inv := by
  intro room j draft draft' hread hinv
  obtain ⟨b, hb, hread⟩ := of_bind_eq_ok hread
  cases hread
  exact hput b draft (h hb) hinv

/-- What the draft says of the field's own value. -/
theorem Field.keeps_own {q : β → Prop} {name : String} {reader : Reader β} {get : δ → Option β}
    {put : β → δ → δ} (h : Yields reader q) (hput : ∀ b draft, get (put b draft) = some b) :
    (Field.of name reader get put).Keeps fun draft => ∀ b ∈ get draft, q b := by
  refine keeps_of h fun b draft hb _ c hc => ?_
  rw [hput] at hc
  exact Option.some.inj hc ▸ hb

/-- What the draft says of the values of other fields. -/
theorem Field.keeps_of_put {name : String} {reader : Reader β} {get : δ → Option β} {put : β → δ → δ}
    {inv : δ → Prop} (hput : ∀ b draft, inv draft → inv (put b draft)) :
    (Field.of name reader get put).Keeps inv :=
  keeps_of (yields_true reader) fun b draft _ => hput b draft

namespace Record

variable {r : Record δ α} {inv : δ → Prop}

theorem complete_yields (hfinish : ∀ draft a, r.finish draft = some a → inv draft → p a) {draft : δ}
    {a : α} (h : r.complete draft = .ok a) (hinv : inv draft) : p a := by
  unfold complete at h
  split at h
  · next hb =>
    cases h
    exact hfinish draft a hb hinv
  · cases h

section
variable (hkeeps : ∀ field ∈ r.fields, field.Keeps inv)
  (hfinish : ∀ draft a, r.finish draft = some a → inv draft → p a)
include hkeeps hfinish

theorem readMembers_yields {room : Nat} {draft : δ} {members : Members} {a : α}
    (h : r.readMembers room draft members = .ok a) (hinv : inv draft) : p a := by
  fun_induction readMembers r room draft members with
  | case1 draft => exact complete_yields hfinish h hinv
  | case2 draft fault => cases h
  | case3 draft found => cases h
  | case4 draft name value rest ihSkimmed ihRead =>
    obtain ⟨name, _, h⟩ := of_bind_eq_ok h
    split at h
    · obtain ⟨_, _, h⟩ := of_bind_eq_ok h
      exact ihSkimmed h hinv
    · next field hfield =>
      split at h
      · cases h
      · obtain ⟨draft', hread, h⟩ := of_bind_eq_ok h
        exact ihRead draft' h (hkeeps field (List.mem_of_find?_eq_some hfield) hread hinv)

theorem readPositions_yields {room : Nat} {draft : δ} {fields : List (Field δ)} {items : Items}
    {a : α} (hfields : ∀ field ∈ fields, field ∈ r.fields)
    (h : r.readPositions room draft fields items = .ok a) (hinv : inv draft) : p a := by
  fun_induction readPositions r room draft fields items with
  | case1 draft fields => exact complete_yields hfinish h hinv
  | case2 draft fields fault => cases h
  | case3 draft value rest => cases h
  | case4 draft field fields value rest ih =>
    obtain ⟨draft', hread, h⟩ := of_bind_eq_ok h
    have hmem := hfields field List.mem_cons_self
    exact ih draft' (fun other hother => hfields other (List.mem_cons_of_mem field hother)) h
      (hkeeps field hmem hread hinv)

end

/-- What holds of the blank draft and is kept by every field holds of the last draft. -/
theorem yields (inv : δ → Prop) (hblank : inv r.blank) (hkeeps : ∀ field ∈ r.fields, field.Keeps inv)
    (hfinish : ∀ draft a, r.finish draft = some a → inv draft → p a) : Yields r.read p := by
  intro room j a h
  unfold read at h
  split at h
  · obtain ⟨_, _, h⟩ := of_bind_eq_ok h
    exact readMembers_yields hkeeps hfinish h hblank
  · obtain ⟨_, _, h⟩ := of_bind_eq_ok h
    exact readPositions_yields hkeeps hfinish (fun _ => id) h hblank
  · cases h

end Record

/-! ## Tagged values -/

namespace Tagged

variable {κ : Type} {t : Tagged κ α}

theorem readRest_eq {a b : α} {members : Members} (h : t.readRest a members = .ok b) : b = a := by
  fun_induction readRest t a members with
  | case1 => exact (Except.ok.inj h).symm
  | case2 fault => cases h
  | case3 found => cases h
  | case4 name value rest ih =>
    obtain ⟨name, _, h⟩ := of_bind_eq_ok h
    dsimp only at h
    split at h
    · cases h
    · obtain ⟨_, _, h⟩ := of_bind_eq_ok h
      exact ih h

section
variable (hread : ∀ kind, Yields (t.read kind) p)
include hread

theorem readContent_yields {room : Nat} {kind : κ} {members : Members} {a : α}
    (h : t.readContent room kind members = .ok a) : p a := by
  fun_induction readContent t room kind members with
  | case1 => cases h
  | case2 fault => cases h
  | case3 found => cases h
  | case4 name value rest ih =>
    obtain ⟨name, _, h⟩ := of_bind_eq_ok h
    dsimp only at h
    split at h
    · cases h
    split at h
    · obtain ⟨b, hb, h⟩ := of_bind_eq_ok h
      rw [readRest_eq h]
      exact hread kind hb
    · obtain ⟨_, _, h⟩ := of_bind_eq_ok h
      exact ih h

theorem readKind_yields {room : Nat} {content : Json} {members : Members} {a : α}
    (h : t.readKind room content members = .ok a) : p a := by
  fun_induction readKind t room content members with
  | case1 => cases h
  | case2 fault => cases h
  | case3 found => cases h
  | case4 name value rest ih =>
    obtain ⟨name, _, h⟩ := of_bind_eq_ok h
    dsimp only at h
    split at h
    · cases h
    split at h
    · obtain ⟨kind, _, h⟩ := of_bind_eq_ok h
      split at h
      · next b hb =>
        rw [readRest_eq h]
        exact hread kind hb
      · cases h
    · obtain ⟨_, _, h⟩ := of_bind_eq_ok h
      exact ih h

theorem readMembers_yields {room : Nat} {members : Members} {a : α}
    (h : t.readMembers room members = .ok a) : p a := by
  fun_induction readMembers t room members with
  | case1 => cases h
  | case2 fault => cases h
  | case3 found => cases h
  | case4 name value rest ih =>
    obtain ⟨name, _, h⟩ := of_bind_eq_ok h
    split at h
    · obtain ⟨kind, _, h⟩ := of_bind_eq_ok h
      exact readContent_yields hread h
    split at h
    · obtain ⟨_, _, h⟩ := of_bind_eq_ok h
      exact readKind_yields hread h
    · obtain ⟨_, _, h⟩ := of_bind_eq_ok h
      exact ih h

theorem readPositions_yields {room : Nat} {items : Items} {a : α}
    (h : t.readPositions room items = .ok a) : p a := by
  unfold readPositions at h
  split at h
  · cases h
  · cases h
  obtain ⟨kind, _, h⟩ := of_bind_eq_ok h
  split at h
  · cases h
  · cases h
  obtain ⟨b, hb, h⟩ := of_bind_eq_ok h
  split at h
  · rw [← Except.ok.inj h]
    exact hread kind hb
  · cases h
  · cases h

theorem yields : Yields t.reader p := by
  intro room j a h
  unfold reader at h
  split at h
  · obtain ⟨_, _, h⟩ := of_bind_eq_ok h
    exact readMembers_yields hread h
  · obtain ⟨_, _, h⟩ := of_bind_eq_ok h
    exact readPositions_yields hread h
  · cases h

end

end Tagged

end ScopedResources.Json
