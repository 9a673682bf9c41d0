import ReplayVM.Text.Hex

/-!
# Quoted characters

A message that names an offending byte shows it as the Latin-1 character of that code, between
single quotes. Quotes, backslashes and the usual control characters have short escapes; every other
character without a glyph is written by its code.
-/

namespace ReplayVM.Quoted

/-- Whether the Latin-1 character has a glyph: no control character, no-break space or soft
hyphen. -/
def hasGlyph (code : UInt8) : Bool :=
  (0x20 ≤ code && code < 0x7f) || (0xa0 < code && code ≠ 0xad)

/-- The text between the quotes. -/
def escape (code : UInt8) : String :=
  if code = 0 then "\\0"
  else if code = 9 then "\\t"
  else if code = 10 then "\\n"
  else if code = 13 then "\\r"
  else if code = 39 then "\\'"
  else if code = 92 then "\\\\"
  else if hasGlyph code then String.singleton (Char.ofNat code.toNat)
  else "\\u\x7b" ++ String.ofList (Nat.toDigits 16 code.toNat) ++ "\x7d"

/-- The Latin-1 character of the given code, between single quotes. -/
def latin1 (code : UInt8) : String := "'" ++ escape code ++ "'"

end ReplayVM.Quoted
