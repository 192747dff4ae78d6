import ScopedResources.Json.Basic

/-!
# Scanning

From characters to the tree. A scan gives the tree and the text behind it, or no text where the tree
holds a fault beyond which nothing is read. The recursion is bounded by the length of the text:
every nested value lies behind a character that its parent has taken.
-/

namespace ScopedResources.Json

/-! ## Blanks, words and digits -/

def isBlank (c : Char) : Bool := c == ' ' || c == '\t' || c == '\n' || c == '\r'

def dropBlanks (cs : List Char) : List Char := cs.dropWhile isBlank

def takeWord : List Char → List Char → Except Fault (List Char)
  | [], cs => .ok cs
  | _ :: _, [] => .error .truncated
  | w :: word, c :: cs => if w = c then takeWord word cs else .error .malformed

/-- The fault of a text that goes on like this where a digit is due. -/
def digitFault : List Char → Fault
  | [] => .truncated
  | _ => .malformed

/-! ## Numbers -/

def takeExponent : List Char → Except Fault (Option Int × List Char)
  | e :: cs =>
    if e = 'e' ∨ e = 'E' then
      let (negative, cs) := match cs with
        | '-' :: rest => (true, rest)
        | '+' :: rest => (false, rest)
        | rest => (false, rest)
      match cs.takeWhile Char.isDigit with
      | [] => .error (digitFault cs)
      | ds =>
        let size : Int := digitsValue 0 ds
        .ok (some (if negative then -size else size), cs.dropWhile Char.isDigit)
    else .ok (none, e :: cs)
  | [] => .ok (none, [])

def takeFraction : List Char → Except Fault (Option (List Char) × List Char)
  | '.' :: cs =>
    match cs.takeWhile Char.isDigit with
    | [] => .error (digitFault cs)
    | ds => .ok (some ds, cs.dropWhile Char.isDigit)
  | cs => .ok (none, cs)

/-- Takes the digits before the decimal point: a zero alone, or a run that starts with another
digit. -/
def takeWhole : List Char → Except Fault (List Char × List Char)
  | '0' :: cs =>
    match cs with
    | d :: _ => if d.isDigit then .error .malformed else .ok (['0'], cs)
    | [] => .ok (['0'], [])
  | cs =>
    match cs.takeWhile Char.isDigit with
    | [] => .error (digitFault cs)
    | ds => .ok (ds, cs.dropWhile Char.isDigit)

def takeNumeral (negative : Bool) (cs : List Char) : Except Fault (Numeral × List Char) := do
  let (whole, cs) ← takeWhole cs
  let (fraction, cs) ← takeFraction cs
  let (power, cs) ← takeExponent cs
  return (⟨negative, whole, fraction, power⟩, cs)

/-! ## Strings -/

/-- A piece of a string: a character, or a UTF-16 unit given by an escape. -/
inductive Piece where
  | char (c : Char)
  | unit (n : Nat)

def isLeading (n : Nat) : Bool := decide (0xD800 ≤ n) && decide (n < 0xDC00)

def isTrailing (n : Nat) : Bool := decide (0xDC00 ≤ n) && decide (n < 0xE000)

def pairChar (leading trailing : Nat) : Char :=
  Char.ofNat (0x10000 + (leading - 0xD800) * 0x400 + (trailing - 0xDC00))

/-- Puts the pieces together behind the characters in `done`, the last of which comes first there.
A leading surrogate needs its trailing one right behind it. -/
def assemble (done : List Char) : List Piece → Option (List Char)
  | [] => some done.reverse
  | .char c :: rest => assemble (c :: done) rest
  | .unit n :: rest =>
    if isLeading n then
      match rest with
      | .unit m :: rest => if isTrailing m then assemble (pairChar n m :: done) rest else none
      | _ => none
    else if isTrailing n then none
    else assemble (Char.ofNat n :: done) rest

/-- More pieces could make these a text: at most a leading surrogate at the end waits for the
other. -/
def promising (pieces : List Piece) : Bool :=
  (assemble [] pieces).isSome || (assemble [] (pieces ++ [.unit 0xDC00])).isSome

/-- The characters that stand for themselves, or for a control character, behind a backslash. -/
def escape? : Char → Option Char
  | '"' => some '"'
  | '\\' => some '\\'
  | '/' => some '/'
  | 'b' => some '\x08'
  | 'f' => some '\x0c'
  | 'n' => some '\n'
  | 'r' => some '\r'
  | 't' => some '\t'
  | _ => none

def hexDigit? (c : Char) : Option Nat :=
  if c.isDigit then some (c.toNat - '0'.toNat)
  else if 'a' ≤ c ∧ c ≤ 'f' then some (c.toNat - 'a'.toNat + 10)
  else if 'A' ≤ c ∧ c ≤ 'F' then some (c.toNat - 'A'.toNat + 10)
  else none

def hexUnit? (a b c d : Char) : Option Nat := do
  return (((← hexDigit? a) * 16 + (← hexDigit? b)) * 16 + (← hexDigit? c)) * 16 + (← hexDigit? d)

/-- The fault of a text that has no four hexadecimal digits where they are due. Four bytes are
looked at together, so a shorter text is truncated whatever it holds. -/
def hexFault (cs : List Char) : Fault :=
  if (cs.take 4).foldl (fun n c => n + c.utf8Size) 0 < 4 then .truncated else .malformed

/-- Takes pieces up to the closing quotation mark. Gives all pieces, and the text behind the mark or
the fault in its place. -/
def takePieces (done : List Piece) : List Char → List Piece × Except Fault (List Char)
  | [] => (done.reverse, .error .truncated)
  | '"' :: cs => (done.reverse, .ok cs)
  | '\\' :: [] => (done.reverse, .error .truncated)
  | '\\' :: 'u' :: cs =>
    match cs with
    | a :: b :: c :: d :: rest =>
      match hexUnit? a b c d with
      | some n => takePieces (.unit n :: done) rest
      | none => (done.reverse, .error (hexFault cs))
    | _ => (done.reverse, .error (hexFault cs))
  | '\\' :: e :: cs =>
    match escape? e with
    | some c => takePieces (.char c :: done) cs
    | none => (done.reverse, .error .malformed)
  | c :: cs =>
    if c.toNat < 0x20 then (done.reverse, .error .malformed) else takePieces (.char c :: done) cs

def scanQuoted (cs : List Char) : Quoted × Option (List Char) :=
  match takePieces [] cs with
  | (pieces, .ok rest) =>
    match assemble [] pieces with
    | some text => (.plain (String.ofList text), some rest)
    | none => (.unpaired, some rest)
  | (pieces, .error fault) => (.broken (if promising pieces then fault else .malformed) fault, none)

/-! ## Values -/

/-- The value that a word stands for, if the text has the word. -/
def scanWord (word : String) (value : Json) (cs : List Char) : Json × Option (List Char) :=
  match takeWord word.toList cs with
  | .ok rest => (value, some rest)
  | .error fault => (.stray fault, none)

def scanNumber (negative : Bool) (cs : List Char) : Json × Option (List Char) :=
  match takeNumeral negative cs with
  | .ok (n, rest) => (.number n, some rest)
  | .error fault => (.badNumber fault, none)

mutual

def scanValue : Nat → List Char → Json × Option (List Char)
  | 0, _ => (.absent, none)
  | fuel + 1, cs =>
    match dropBlanks cs with
    | [] => (.absent, none)
    | '"' :: cs =>
      let (q, rest) := scanQuoted cs
      (.string q, rest)
    | '[' :: cs =>
      let (items, rest) := scanItems fuel true cs
      (.array items, rest)
    | '\x7b' :: cs =>
      let (members, rest) := scanMembers fuel true cs
      (.object members, rest)
    | '-' :: cs => scanNumber true cs
    | 'n' :: cs => scanWord "ull" .null cs
    | 't' :: cs => scanWord "rue" (.bool true) cs
    | 'f' :: cs => scanWord "alse" (.bool false) cs
    | c :: cs => if c.isDigit then scanNumber false (c :: cs) else (.stray .malformed, none)

/-- Scans the rest of an array; `first` if no item has been taken yet. -/
def scanItems : Nat → Bool → List Char → Items × Option (List Char)
  | 0, _, _ => (.cut .truncated, none)
  | fuel + 1, first, cs =>
    match dropBlanks cs with
    | [] => (.cut .truncated, none)
    | ']' :: cs => (.closed, some cs)
    | c :: cs =>
      if first then scanItem fuel (c :: cs)
      else if c = ',' then scanItem fuel cs
      else (.cut .malformed, none)

def scanItem : Nat → List Char → Items × Option (List Char)
  | 0, _ => (.cut .truncated, none)
  | fuel + 1, cs =>
    match scanValue fuel cs with
    | (value, none) => (.item value (.cut .truncated), none)
    | (value, some cs) =>
      let (items, rest) := scanItems fuel false cs
      (.item value items, rest)

/-- Scans the rest of an object; `first` if no member has been taken yet. -/
def scanMembers : Nat → Bool → List Char → Members × Option (List Char)
  | 0, _, _ => (.cut .truncated, none)
  | fuel + 1, first, cs =>
    match dropBlanks cs with
    | [] => (.cut .truncated, none)
    | '\x7d' :: cs => (.closed, some cs)
    | c :: cs =>
      if first then scanMember fuel (c :: cs)
      else if c = ',' then scanMember fuel cs
      else (.cut .malformed, none)

def scanMember : Nat → List Char → Members × Option (List Char)
  | 0, _ => (.cut .truncated, none)
  | fuel + 1, cs =>
    match dropBlanks cs with
    | '"' :: cs =>
      match scanQuoted cs with
      | (name, none) => (.member name .absent (.cut .truncated), none)
      | (name, some cs) =>
        match dropBlanks cs with
        | [] => (.member name .absent (.cut .truncated), none)
        | ':' :: cs =>
          match scanValue fuel cs with
          | (value, none) => (.member name value (.cut .truncated), none)
          | (value, some cs) =>
            let (members, rest) := scanMembers fuel false cs
            (.member name value members, rest)
        | _ => (.member name (.stray .malformed) (.cut .truncated), none)
    | cs => (.nameless (scanValue fuel cs).1, none)

end

/-- Scans a whole text. No character opens more than three levels of the recursion. -/
def scan (text : String) : Json × Option (List Char) :=
  let cs := text.toList
  scanValue (3 * cs.length + 3) cs

end ScopedResources.Json
