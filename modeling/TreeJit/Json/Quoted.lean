import TreeJit.Text.Hex
import TreeJit.Text.Utf8

/-!
# Strings in JSON

A text between quotes.  Quotes, backslashes and control characters are escaped, and so are `<`, `>`,
`&` and the two line separators outside ASCII, which are not safe in every document.
-/

namespace TreeJit.JsonText

def numericEscape (n : Nat) : String := "\\u" ++ Hex.fixed 4 n

def escapeChar (c : Char) : String :=
  if c = '"' then "\\\""
  else if c = '\\' then "\\\\"
  else if c = '\n' then "\\n"
  else if c = '\r' then "\\r"
  else if c = '\t' then "\\t"
  else if c.toNat = 8 then "\\b"
  else if c.toNat = 12 then "\\f"
  else if c.toNat < 0x20 ∨ c = '<' ∨ c = '>' ∨ c = '&' ∨ c.toNat = 0x2028 ∨ c.toNat = 0x2029 then
    numericEscape c.toNat
  else String.singleton c

def quoted (s : String) : String := "\"" ++ String.join (s.toList.map escapeChar) ++ "\""

end TreeJit.JsonText
