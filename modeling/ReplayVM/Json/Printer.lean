import ReplayVM.Json.Basic

/-!
# Writing JSON texts

The shortest text of a value: no blanks, and escapes only for quotes, backslashes and control
characters.
-/

namespace ReplayVM.Json

namespace Printer

/-- The text that a character has inside a string. -/
def escape (c : Char) : List Char :=
  if c = '"' then ['\\', '"']
  else if c = '\\' then ['\\', '\\']
  else if c.toNat < 0x20 then
    ['\\', 'u', '0', '0', Nat.digitChar (c.toNat / 16), Nat.digitChar (c.toNat % 16)]
  else [c]

/-- Appends a string with its quotes. -/
def pushString (out : String) (s : String) : String :=
  (s.foldl (fun out c => (escape c).foldl String.push out) (out.push '"')).push '"'

/-- Appends a text; one without characters of its own is left empty. -/
def pushText (out : String) (s : Option String) : String := pushString out (s.getD "")

mutual

/-- Appends the text of a value. -/
def push (out : String) : Json → String
  | .null => out ++ "null"
  | .bool b => out ++ toString b
  | .int n => out ++ toString n
  | .real literal => out ++ literal
  | .text s => pushText out s
  | .list [] => out ++ "[]"
  | .list (j :: js) => (pushItems (push (out.push '[') j) js).push ']'
  | .object [] => (out.push '{').push '}'
  | .object ((name, j) :: fields) =>
    (pushFields (push ((pushText (out.push '{') name).push ':') j) fields).push '}'

/-- Appends the further items of a list. -/
def pushItems (out : String) : List Json → String
  | [] => out
  | j :: js => pushItems (push (out.push ',') j) js

/-- Appends the further fields of an object. -/
def pushFields (out : String) : List (Option String × Json) → String
  | [] => out
  | (name, j) :: fields => pushFields (push ((pushText (out.push ',') name).push ':') j) fields

end

end Printer

/-- The text of a value. -/
def print (j : Json) : String := Printer.push "" j

end ReplayVM.Json
