import Demitasse.Text.Hidden

/-! Text between double quotes, as it stands in dumps. The quote, the backslash and the usual
control characters have a two-character escape; every other character that is not printed as
itself is written by its code point in braces. -/

namespace Demitasse.Text

/-- The code point of `c` in lower-case hexadecimal, in braces after `\u`. -/
def codePoint (c : Char) : String :=
  "\\u\x7b" ++ String.ofList (Nat.toDigits 16 c.toNat) ++ "\x7d"

/-- One character of a quoted text. -/
def escape (c : Char) : String :=
  if c = '"' then "\\\""
  else if c = '\\' then "\\\\"
  else if c = '\n' then "\\n"
  else if c = '\r' then "\\r"
  else if c = '\t' then "\\t"
  else if c = '\x00' then "\\0"
  else if isHidden c then codePoint c
  else String.singleton c

/-- The text `s` between double quotes. -/
def quoted (s : String) : String :=
  "\"" ++ String.join (s.toList.map escape) ++ "\""

end Demitasse.Text
