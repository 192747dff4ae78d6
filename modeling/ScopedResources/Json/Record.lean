import ScopedResources.Json.Reader

/-!
# Records

A record is an object with named fields, or an array of the fields in their order. In an object the
fields may come in any order and among other members, which are skimmed; a field may not come twice.
In an array, fields at the end may be left out. Whether a missing field is made good is for the
record to say once all has been read.
-/

namespace ScopedResources.Json

/-- A field of a record whose fields read so far are held in a draft. -/
structure Field (δ : Type) where
  name : String
  isRead : δ → Bool
  read : Nat → Json → δ → Except Fault δ

/-- A field read by `reader`, kept in the draft by `put` and found there by `get`. -/
def Field.of {δ β : Type} (name : String) (reader : Reader β) (get : δ → Option β)
    (put : β → δ → δ) : Field δ where
  name
  isRead draft := (get draft).isSome
  read room j draft := do return put (← reader room j) draft

/-- How a record is read: its fields in order, the draft before the first field, and what the last
draft amounts to. -/
structure Record (δ α : Type) where
  fields : List (Field δ)
  blank : δ
  finish : δ → Option α

namespace Record

variable {δ α : Type}

def complete (r : Record δ α) (draft : δ) : Except Fault α :=
  match r.finish draft with
  | some a => .ok a
  | none => .error .unfit

/-- Reads the members that are left. A name is settled before its value is looked at, so a repeated
field is refused at its name. -/
def readMembers (r : Record δ α) (room : Nat) (draft : δ) : Members → Except Fault α
  | .closed => r.complete draft
  | .cut fault => .error fault
  | .nameless found => .error (namelessFault found)
  | .member name value rest => do
    let name ← name.kept
    match r.fields.find? (·.name == name) with
    | none => do
      skim value
      r.readMembers room draft rest
    | some field =>
      if field.isRead draft then throw .unfit
      else do
        let draft ← field.read room value draft
        r.readMembers room draft rest

/-- Reads the items that are left into the fields that are left. -/
def readPositions (r : Record δ α) (room : Nat) (draft : δ) :
    List (Field δ) → Items → Except Fault α
  | _, .closed => r.complete draft
  | _, .cut fault => .error fault
  | [], .item _ _ => .error .malformed
  | field :: fields, .item value rest => do
    let draft ← field.read room value draft
    r.readPositions room draft fields rest

def read (r : Record δ α) : Reader α
  | room, .object members => do r.readMembers (← enter room) r.blank members
  | room, .array items => do r.readPositions (← enter room) r.blank r.fields items
  | _, j => .error j.misfit

end Record

end ScopedResources.Json
