import TreeJit.Text.Utf8

/-!
# Bytes as text

Four characters stand for three bytes; at the end of a text `=` fills a group.  Line ends do not
count.  The unused bits of the last character may be anything.
-/

namespace TreeJit.Yaml.Base64

def sextet? (c : Char) : Option Nat :=
  if 'A' ≤ c ∧ c ≤ 'Z' then some (c.toNat - 'A'.toNat)
  else if 'a' ≤ c ∧ c ≤ 'z' then some (c.toNat - 'a'.toNat + 26)
  else if '0' ≤ c ∧ c ≤ '9' then some (c.toNat - '0'.toNat + 52)
  else if c = '+' then some 62
  else if c = '/' then some 63
  else none

def decodeGroups? : List Char → Option (List UInt8)
  | [] => some []
  | [a, b, '=', '='] => do
    let n := (← sextet? a) * 64 + (← sextet? b)
    return [UInt8.ofNat (n / 16)]
  | [a, b, c, '='] => do
    let n := ((← sextet? a) * 64 + (← sextet? b)) * 64 + (← sextet? c)
    return [UInt8.ofNat (n / 1024), UInt8.ofNat (n / 4)]
  | a :: b :: c :: d :: r => do
    let n := (((← sextet? a) * 64 + (← sextet? b)) * 64 + (← sextet? c)) * 64 + (← sextet? d)
    return UInt8.ofNat (n / 65536) :: UInt8.ofNat (n / 256) :: UInt8.ofNat n :: (← decodeGroups? r)
  | _ => none

def decode? (s : String) : Option (List UInt8) :=
  decodeGroups? (s.toList.filter fun c => c ≠ '\n' && c ≠ '\r')

/-- the characters of bytes; a byte that belongs to none gives the replacement character -/
def chars : Nat → List UInt8 → List Char
  | 0, _ => []
  | fuel + 1, bs =>
    match utf8Next bs with
    | none => []
    | some (c, r) => c :: chars fuel r

/-- the text of the bytes that a text stands for -/
def text? (s : String) : Option String :=
  (decode? s).map fun bs => String.ofList (chars bs.length bs)

example : text? "aGk=" = some "hi" := by decide

end TreeJit.Yaml.Base64
