import ScopedResources.Number.Text

/-!
# Written JSON

Texts are written without blanks. Strings escape what they must: the quotation mark, the backslash
and the control characters, the latter by their short form where they have one.
-/

namespace ScopedResources.Json

/-- The short form of a control character, behind the backslash. -/
def shortEscape? : Char → Option Char
  | '\x08' => some 'b'
  | '\t' => some 't'
  | '\n' => some 'n'
  | '\x0c' => some 'f'
  | '\r' => some 'r'
  | _ => none

def hexChar (n : Nat) : Char := (Nat.toDigits 16 n).headD '0'

def escaped (c : Char) : List Char :=
  if c = '"' ∨ c = '\\' then ['\\', c]
  else if c.toNat < 0x20 then
    match shortEscape? c with
    | some e => ['\\', e]
    | none => ['\\', 'u', '0', '0', hexChar (c.toNat / 16), hexChar (c.toNat % 16)]
  else [c]

def quote (s : String) : String := String.ofList ('"' :: (s.toList.flatMap escaped ++ ['"']))

def writeBool (b : Bool) : String := if b then "true" else "false"

/-- A number; JSON has no form for the numbers that are not finite, and null stands for them. -/
def writeReal (x : Binary64) : String := if x.isFinite then x.text else "null"

def writeNat (n : Nat) : String := String.ofList (Nat.toDigits 10 n)

def writeArray (items : List String) : String := "[" ++ ",".intercalate items ++ "]"

def writeObject (members : List (String × String)) : String :=
  "\x7b" ++ ",".intercalate (members.map fun (name, value) => quote name ++ ":" ++ value) ++ "\x7d"

end ScopedResources.Json
