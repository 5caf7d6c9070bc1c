import TreeJit.Text.Hex
import TreeJit.Text.Printable

/-!
# Quoted text

Names in messages stand between double quotes.  A quote and a backslash are escaped by a
backslash, the seven control characters that have a letter by that letter, every other
character that is not printable by its number: two hexadecimal digits below `0x80`, four up to
`0xFFFF`, eight above.
-/

namespace TreeJit.Quoted

/-- the letter of a control character that has one -/
def letter? (c : Char) : Option Char :=
  match c.toNat with
  | 7 => some 'a'
  | 8 => some 'b'
  | 9 => some 't'
  | 10 => some 'n'
  | 11 => some 'v'
  | 12 => some 'f'
  | 13 => some 'r'
  | _ => none

def encodeChar (c : Char) : List Char :=
  if c = '"' ∨ c = '\\' then ['\\', c]
  else if isPrintable c then [c]
  else match letter? c with
    | some l => ['\\', l]
    | none =>
      if c.toNat < 0x80 then '\\' :: 'x' :: Hex.digits 2 c.toNat
      else if c.toNat < 0x10000 then '\\' :: 'u' :: Hex.digits 4 c.toNat
      else '\\' :: 'U' :: Hex.digits 8 c.toNat

def encodeChars (cs : List Char) : List Char := cs.flatMap encodeChar

theorem encodeChars_append (a b : List Char) :
    encodeChars (a ++ b) = encodeChars a ++ encodeChars b := by
  simp [encodeChars]

end TreeJit.Quoted

namespace TreeJit

/-- a text between double quotes, with what cannot be shown escaped -/
def quoted (s : String) : String := String.ofList ('"' :: Quoted.encodeChars s.toList ++ ['"'])

end TreeJit
