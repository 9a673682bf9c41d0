import ReplayVM.Json.Basic

/-!
# Reading JSON texts

A text holds one value, with blanks allowed around it and between its parts. Numbers have no leading
zeros, strings no raw control characters; nothing may follow the value.

## Main definitions

* `Json.Parser.number`, `Json.Parser.string`, `Json.Parser.value`: one value at the front of some
  characters, and the characters behind it.
* `Json.parse?`: the value of a whole text.
-/

namespace ReplayVM.Json

namespace Parser

/-- Whether a character may stand between the parts of a value. -/
def isBlank (c : Char) : Bool := c = ' ' || c = '\n' || c = '\t' || c = '\r'

/-- The characters behind the blanks at the front. -/
def skipBlanks (cs : List Char) : List Char := cs.dropWhile isBlank

/-- The characters behind the given ones, which must be at the front. -/
def expect : List Char → List Char → Option (List Char)
  | [], cs => some cs
  | e :: es, c :: cs => if c = e then expect es cs else none
  | _ :: _, [] => none

/-! ### Numbers -/

/-- Splits a run of at least one digit off the front. -/
def digits (cs : List Char) : Option (List Char × List Char) :=
  match cs.span Char.isDigit with
  | ([], _) => none
  | split => some split

/-- Splits the digits before a point or an exponent off the front; no zero may lead them. -/
def wholePart (cs : List Char) : Option (List Char × List Char) :=
  match digits cs with
  | some ('0' :: _ :: _, _) => none
  | split => split

/-- Splits a point and the digits behind it off the front, if there is a point. -/
def fraction : List Char → Option (List Char × List Char)
  | '.' :: cs => (digits cs).map fun (ds, rest) => ('.' :: ds, rest)
  | cs => some ([], cs)

/-- Splits an exponent off the front, if there is one. -/
def exponent : List Char → Option (List Char × List Char)
  | e :: cs =>
    if e = 'e' || e = 'E' then
      match cs with
      | '+' :: cs => (digits cs).map fun (ds, rest) => (e :: '+' :: ds, rest)
      | '-' :: cs => (digits cs).map fun (ds, rest) => (e :: '-' :: ds, rest)
      | cs => (digits cs).map fun (ds, rest) => (e :: ds, rest)
    else some ([], e :: cs)
  | [] => some ([], [])

/-- The value of some decimal digits. -/
def decimal (ds : List Char) : Nat := ds.foldl (fun n d => 10 * n + (d.toNat - '0'.toNat)) 0

/-- A number that is not negative, or the opposite of one. -/
def unsigned (negative : Bool) (cs : List Char) : Option (Json × List Char) := do
  let (whole, cs) ← wholePart cs
  let (frac, cs) ← fraction cs
  let (exp, rest) ← exponent cs
  let n := decimal whole
  if frac.isEmpty && exp.isEmpty && !(negative && n = 0) then
    return (.int (if negative then -n else n), rest)
  let literal := (if negative then ['-'] else []) ++ whole ++ frac ++ exp
  return (.real (String.ofList literal), rest)

/-- A number. -/
def number : List Char → Option (Json × List Char)
  | '-' :: cs => unsigned true cs
  | cs => unsigned false cs

/-! ### Texts -/

/-- A part of a string: a character, or a 16-bit unit written by its number. -/
inductive Piece where
  | char (c : Char)
  | unit (n : Nat)

/-- The value of a hexadecimal digit. -/
def hexDigit? (c : Char) : Option Nat :=
  if c.isDigit then some (c.toNat - '0'.toNat)
  else if 'a' ≤ c && c ≤ 'f' then some (c.toNat - 'a'.toNat + 10)
  else if 'A' ≤ c && c ≤ 'F' then some (c.toNat - 'A'.toNat + 10)
  else none

/-- The number of four hexadecimal digits. -/
def hexUnit? (a b c d : Char) : Option Nat := do
  return 4096 * (← hexDigit? a) + 256 * (← hexDigit? b) + 16 * (← hexDigit? c) + (← hexDigit? d)

/-- The character that a backslash and a letter stand for. -/
def escaped? : Char → Option Char
  | '"' => some '"'
  | '\\' => some '\\'
  | '/' => some '/'
  | 'b' => some '\x08'
  | 'f' => some '\x0c'
  | 'n' => some '\n'
  | 'r' => some '\r'
  | 't' => some '\t'
  | _ => none

/-- The pieces up to the closing quote, behind those read so far in reverse. -/
def pieces : List Piece → List Char → Option (List Piece × List Char)
  | done, '"' :: cs => some (done.reverse, cs)
  | done, '\\' :: 'u' :: a :: b :: c :: d :: cs =>
    match hexUnit? a b c d with
    | some n => pieces (.unit n :: done) cs
    | none => none
  | done, '\\' :: e :: cs =>
    match escaped? e with
    | some c => pieces (.char c :: done) cs
    | none => none
  | done, c :: cs => if c.toNat < 0x20 then none else pieces (.char c :: done) cs
  | _, [] => none

/-- Whether a 16-bit unit is the first half of a surrogate pair. -/
def isHigh (n : Nat) : Bool := 0xd800 ≤ n && n < 0xdc00

/-- Whether a 16-bit unit is the second half of a surrogate pair. -/
def isLow (n : Nat) : Bool := 0xdc00 ≤ n && n < 0xe000

/-- The characters that some pieces stand for, unless half of a surrogate pair is left over. -/
def characters : List Piece → Option (List Char)
  | [] => some []
  | .char c :: ps => (c :: ·) <$> characters ps
  | .unit high :: .unit low :: ps =>
    if isHigh high then
      if isLow low then
        (Char.ofNat (0x10000 + 0x400 * (high - 0xd800) + (low - 0xdc00)) :: ·) <$> characters ps
      else none
    else if isLow high then none
    else (Char.ofNat high :: ·) <$> characters (.unit low :: ps)
  | .unit n :: ps => if isHigh n || isLow n then none else (Char.ofNat n :: ·) <$> characters ps

/-- The text up to the closing quote. -/
def string (cs : List Char) : Option (Option String × List Char) := do
  let (ps, rest) ← pieces [] cs
  return ((characters ps).map String.ofList, rest)

/-! ### Values -/

mutual

/-- A value at the front. -/
def value : Nat → List Char → Option (Json × List Char)
  | 0, _ => none
  | fuel + 1, cs =>
    match skipBlanks cs with
    | 'n' :: cs => (expect ['u', 'l', 'l'] cs).map fun rest => (.null, rest)
    | 't' :: cs => (expect ['r', 'u', 'e'] cs).map fun rest => (.bool true, rest)
    | 'f' :: cs => (expect ['a', 'l', 's', 'e'] cs).map fun rest => (.bool false, rest)
    | '"' :: cs => (string cs).map fun (s, rest) => (.text s, rest)
    | '[' :: cs =>
      match skipBlanks cs with
      | ']' :: cs => some (.list [], cs)
      | cs => items fuel #[] cs
    | '{' :: cs =>
      match skipBlanks cs with
      | '}' :: cs => some (.object [], cs)
      | cs => fields fuel #[] cs
    | cs => number cs

/-- The items of a list, behind those read so far. -/
def items : Nat → Array Json → List Char → Option (Json × List Char)
  | 0, _, _ => none
  | fuel + 1, done, cs =>
    match value fuel cs with
    | none => none
    | some (j, cs) =>
      match skipBlanks cs with
      | ',' :: cs => items fuel (done.push j) cs
      | ']' :: cs => some (.list (done.push j).toList, cs)
      | _ => none

/-- The fields of an object, behind those read so far. -/
def fields : Nat → Array (Option String × Json) → List Char → Option (Json × List Char)
  | 0, _, _ => none
  | fuel + 1, done, cs =>
    match skipBlanks cs with
    | '"' :: cs =>
      match string cs with
      | none => none
      | some (name, cs) =>
        match skipBlanks cs with
        | ':' :: cs =>
          match value fuel cs with
          | none => none
          | some (j, cs) =>
            match skipBlanks cs with
            | ',' :: cs => fields fuel (done.push (name, j)) cs
            | '}' :: cs => some (.object (done.push (name, j)).toList, cs)
            | _ => none
        | _ => none
    | _ => none

end

end Parser

/-- The value of a whole text. Every second step of reading takes a character, which bounds their
number. -/
def parse? (text : String) : Option Json := do
  let cs := text.toList
  let (j, rest) ← Parser.value (2 * cs.length + 2) cs
  if (Parser.skipBlanks rest).isEmpty then some j else none

end ReplayVM.Json
