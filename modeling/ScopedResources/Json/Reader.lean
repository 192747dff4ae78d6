import ScopedResources.Json.Scan
import ScopedResources.Json.Survey

/-!
# Readers of typed data

A reader takes a value of the tree for a value of its type, or gives the first fault that it meets.
Readers know how many levels of nesting they may still enter.
-/

namespace ScopedResources.Json

/-- Reads a value with room for this many levels of nesting. -/
abbrev Reader (α : Type) := Nat → Json → Except Fault α

/-- How many levels a whole text may use, the last of them excluded. -/
def depthLimit : Nat := 128

/-- Reads a whole text, behind whose value only blanks may stand. -/
def Reader.ofText {α : Type} (reader : Reader α) (text : String) : Except Fault α := do
  let (j, rest) := scan text
  let a ← reader depthLimit j
  match rest with
  | some cs => if dropBlanks cs = [] then return a else throw .malformed
  | none => throw .truncated

def enter (room : Nat) : Except Fault Nat := Care.kept.enter room

/-! ## Single values -/

def readBool : Reader Bool
  | _, .bool b => .ok b
  | _, j => .error j.misfit

def readString : Reader String
  | _, .string q => q.kept
  | _, j => .error j.misfit

def readReal : Reader Binary64
  | _, .number n => n.real
  | _, j => .error j.misfit

/-- A natural number below the bound. A number out of the range of all numbers is malformed before
it is anything else. -/
def readBelow (bound : Nat) : Reader Nat
  | _, .number n => do
    discard n.real
    match n.natural? with
    | some k => if k < bound then return k else throw .unfit
    | none => throw .unfit
  | _, j => .error j.misfit

def lookUp {α : Type} (names : List (String × α)) (name : String) : Except Fault α :=
  match names.lookup name with
  | some a => .ok a
  | none => .error .unfit

/-- One of several names, as a string. -/
def readPlainName {α : Type} (names : List (String × α)) : Reader α
  | _, .string q => do lookUp names (← q.kept)
  | _, j => .error j.misfit

/-- One of several names. A name may also stand as the only member of an object whose value is null;
values of any other kind are refused at their first character. -/
def readName {α : Type} (names : List (String × α)) : Reader α
  | _, .absent => .error .truncated
  | _, .string q => do lookUp names (← q.kept)
  | room, .object members => do
    discard (enter room)
    match members with
    | .closed => throw .malformed
    | .cut fault => throw fault
    | .nameless found => throw (namelessFault found)
    | .member name value rest => do
      let a ← lookUp names (← name.kept)
      match value, rest with
      | .null, .closed => return a
      | .null, .cut fault => throw fault
      | .null, _ => throw .malformed
      | value, _ => throw value.misfit
  | _, _ => .error .malformed

/-! ## Lists -/

def readItems {α : Type} (reader : Reader α) (room : Nat) : Items → Except Fault (List α)
  | .closed => .ok []
  | .cut fault => .error fault
  | .item value rest => do
    let a ← reader room value
    return a :: (← readItems reader room rest)

def readList {α : Type} (reader : Reader α) : Reader (List α)
  | room, .array items => do readItems reader (← enter room) items
  | _, j => .error j.misfit

end ScopedResources.Json
