import ScopedResources.Json.Basic

/-!
# Surveying values of unknown shape

A value that no type asks for is looked through for the first fault in reading order. One that is
kept for later has to be right in every respect, and nested no deeper than its room allows; one that
is only skimmed has to be right in its outline.
-/

namespace ScopedResources.Json

inductive Care where
  | kept
  | skimmed
deriving DecidableEq, Repr

/-- Goes one level down. Of the levels in `room`, the last may not be entered, unless the value is
only skimmed. -/
def Care.enter (care : Care) (room : Nat) : Except Fault Nat :=
  match care with
  | .kept => if room ≤ 1 then .error .malformed else .ok (room - 1)
  | .skimmed => .ok room

def Care.numeral (care : Care) (n : Numeral) : Except Fault Unit :=
  match care with
  | .kept => n.real.map fun _ => ()
  | .skimmed => .ok ()

def Care.quoted (care : Care) (q : Quoted) : Except Fault Unit :=
  match care with
  | .kept => q.kept.map fun _ => ()
  | .skimmed => q.skimmed

def Care.badNumber (care : Care) (kept : Fault) : Fault :=
  match care with
  | .kept => kept
  | .skimmed => .malformed

mutual

def survey (care : Care) (room : Nat) : Json → Except Fault Unit
  | .absent => .error .truncated
  | .stray fault => .error fault
  | .null => .ok ()
  | .bool _ => .ok ()
  | .number n => care.numeral n
  | .badNumber kept => .error (care.badNumber kept)
  | .string q => care.quoted q
  | .array items => do surveyItems care (← care.enter room) items
  | .object members => do surveyMembers care (← care.enter room) members

def surveyItems (care : Care) (room : Nat) : Items → Except Fault Unit
  | .closed => .ok ()
  | .cut fault => .error fault
  | .item value rest => do
    survey care room value
    surveyItems care room rest

def surveyMembers (care : Care) (room : Nat) : Members → Except Fault Unit
  | .closed => .ok ()
  | .cut fault => .error fault
  | .nameless found => .error (namelessFault found)
  | .member name value rest => do
    care.quoted name
    survey care room value
    surveyMembers care room rest

end

/-- Looks through a value that is not asked for. -/
def skim (j : Json) : Except Fault Unit := survey .skimmed 0 j

end ScopedResources.Json
