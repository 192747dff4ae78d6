import ScopedResources.Json.Reader

/-!
# Tagged values

A value of one of several kinds is an object with a member that names the kind and a member for the
content, or an array of the two. Where the kind comes first the content is read as what it is; where
the content comes first it is surveyed as it stands and read once the kind is known, and whatever
does not fit then is the content's fault and no longer the text's.
-/

namespace ScopedResources.Json

/-- Names of the two members, the kinds by name, and how the content of each kind is read. -/
structure Tagged (κ α : Type) where
  tag : String
  content : String
  kinds : List (String × κ)
  read : κ → Reader α

namespace Tagged

variable {κ α : Type}

/-- A value whose two members have been read, and whose other members have not. -/
def readRest (t : Tagged κ α) (a : α) : Members → Except Fault α
  | .closed => .ok a
  | .cut fault => .error fault
  | .nameless found => .error (namelessFault found)
  | .member name value rest => do
    let name ← name.kept
    if name = t.tag ∨ name = t.content then throw .unfit
    skim value
    t.readRest a rest

def readContent (t : Tagged κ α) (room : Nat) (kind : κ) : Members → Except Fault α
  | .closed => .error .unfit
  | .cut fault => .error fault
  | .nameless found => .error (namelessFault found)
  | .member name value rest => do
    let name ← name.kept
    if name = t.tag then throw .unfit
    if name = t.content then do
      let a ← t.read kind room value
      t.readRest a rest
    else do
      skim value
      t.readContent room kind rest

/-- Looks for the kind of a content that has been surveyed. -/
def readKind (t : Tagged κ α) (room : Nat) (content : Json) : Members → Except Fault α
  | .closed => .error .unfit
  | .cut fault => .error fault
  | .nameless found => .error (namelessFault found)
  | .member name value rest => do
    let name ← name.kept
    if name = t.content then throw .unfit
    if name = t.tag then do
      let kind ← readName t.kinds room value
      match t.read kind room content with
      | .ok a => t.readRest a rest
      | .error _ => throw .unfit
    else do
      skim value
      t.readKind room content rest

def readMembers (t : Tagged κ α) (room : Nat) : Members → Except Fault α
  | .closed => .error .unfit
  | .cut fault => .error fault
  | .nameless found => .error (namelessFault found)
  | .member name value rest => do
    let name ← name.kept
    if name = t.tag then do
      let kind ← readName t.kinds room value
      t.readContent room kind rest
    else if name = t.content then do
      survey .kept room value
      t.readKind room value rest
    else do
      skim value
      t.readMembers room rest

/-- Reads the kind and the content by position, where the kind is a plain name. -/
def readPositions (t : Tagged κ α) (room : Nat) : Items → Except Fault α
  | .closed => .error .unfit
  | .cut fault => .error fault
  | .item value rest => do
    let kind ← readPlainName t.kinds room value
    match rest with
    | .closed => throw .unfit
    | .cut fault => throw fault
    | .item value rest => do
      let a ← t.read kind room value
      match rest with
      | .closed => return a
      | .cut fault => throw fault
      | .item _ _ => throw .malformed

def reader (t : Tagged κ α) : Reader α
  | room, .object members => do t.readMembers (← enter room) members
  | room, .array items => do t.readPositions (← enter room) items
  | _, j => .error j.misfit

end Tagged

end ScopedResources.Json
