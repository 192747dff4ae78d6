import ScopedResources.Number.Decimal

/-!
# JSON texts as trees

Scanning turns any text into a tree, also one that is no JSON: the place where the text goes wrong
stays in the tree as a leaf or as the end of a list. What a reader of typed data does first is
thereby decided by the order of the tree alone: it reports the first thing in it that it cannot
accept, whether that is a fault of the text or a value of the wrong shape.

Some faults count only for values that are kept. A value under a name that nobody asked for is only
skimmed: its numbers may be out of range and its escapes may leave half a surrogate pair.
-/

namespace ScopedResources

inductive Fault where
  /-- The text is not JSON. -/
  | malformed
  | truncated
  /-- The text is JSON so far, but not what was asked for. -/
  | unfit
deriving DecidableEq, Repr

namespace Json

/-! ## Leaves -/

structure Numeral where
  negative : Bool
  /-- The digits before the decimal point. -/
  whole : List Char
  /-- The digits behind the decimal point, if there is one. -/
  fraction : Option (List Char)
  power : Option Int
deriving DecidableEq, Repr

def Numeral.decimal (n : Numeral) : Decimal :=
  .ofDigits n.negative n.whole (n.fraction.getD []) (n.power.getD 0)

/-- The binary64 number that is read; one that is out of range counts as malformed. -/
def Numeral.real (n : Numeral) : Except Fault Binary64 :=
  match n.decimal.toBinary64? with
  | some x => .ok x
  | none => .error .malformed

/-- The natural number that is written; `-0` is not one. -/
def Numeral.natural? (n : Numeral) : Option Nat :=
  if n.negative || n.fraction.isSome || n.power.isSome then none
  else some (digitsValue 0 n.whole)

inductive Quoted where
  /-- A closed string that spells a text. -/
  | plain (s : String)
  /-- A closed string with an escape for half a surrogate pair. -/
  | unpaired
  /-- A string that goes wrong, with the fault for a string that is kept and for one that is
  skimmed. -/
  | broken (kept skimmed : Fault)
deriving DecidableEq, Repr

def Quoted.kept : Quoted → Except Fault String
  | .plain s => .ok s
  | .unpaired => .error .malformed
  | .broken kept _ => .error kept

def Quoted.skimmed : Quoted → Except Fault Unit
  | .plain _ => .ok ()
  | .unpaired => .ok ()
  | .broken _ skimmed => .error skimmed

end Json

/-! ## Trees -/

mutual

/-- A value as far as the text has one. -/
inductive Json where
  /-- The text ends where a value is due. -/
  | absent
  | stray (fault : Fault)
  | null
  | bool (b : Bool)
  | number (n : Json.Numeral)
  /-- A number that goes wrong. Skimming calls it malformed even where the text ends. -/
  | badNumber (kept : Fault)
  | string (q : Json.Quoted)
  | array (items : Items)
  | object (members : Members)

inductive Items where
  | closed
  /-- Neither a comma nor the closing bracket follows. -/
  | cut (fault : Fault)
  | item (value : Json) (rest : Items)

inductive Members where
  | closed
  /-- Neither a comma nor the closing brace follows. -/
  | cut (fault : Fault)
  /-- Something else stands where a name is due. -/
  | nameless (found : Json)
  | member (name : Json.Quoted) (value : Json) (rest : Members)

end

namespace Json

/-! ## Faults of a single place -/

/-- The fault of an object that has something else than a name at a member's start. -/
def namelessFault : Json → Fault
  | .absent => .truncated
  | _ => .malformed

/-- The fault of a value that was read in full and is of the wrong kind. Arrays and objects are
refused at their first character. -/
def misfit : Json → Fault
  | .absent => .truncated
  | .stray fault => fault
  | .number n => match n.real with
    | .ok _ => .unfit
    | .error fault => fault
  | .badNumber kept => kept
  | .string q => match q.kept with
    | .ok _ => .unfit
    | .error fault => fault
  | .null | .bool _ | .array _ | .object _ => .unfit

end Json

end ScopedResources
