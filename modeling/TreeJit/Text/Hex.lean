/-!
# Hexadecimal text of bytes

Two lower-case digits a byte, most significant digit first.  `Hex.encode` writes, `Hex.decode?`
reads and refuses an odd number of digits and anything that is not a digit.
-/

namespace TreeJit.Hex

def digit (n : Nat) : Char :=
  if n < 10 then Char.ofNat ('0'.toNat + n) else Char.ofNat ('a'.toNat + n - 10)

def value? (c : Char) : Option Nat :=
  if '0' ≤ c ∧ c ≤ '9' then some (c.toNat - '0'.toNat)
  else if 'a' ≤ c ∧ c ≤ 'f' then some (c.toNat - 'a'.toNat + 10)
  else if 'A' ≤ c ∧ c ≤ 'F' then some (c.toNat - 'A'.toNat + 10)
  else none

def encodeChars : List UInt8 → List Char
  | [] => []
  | b :: bs => digit (b.toNat / 16) :: digit (b.toNat % 16) :: encodeChars bs

def encode (bs : List UInt8) : String := String.ofList (encodeChars bs)

def decodeChars? : List Char → Option (List UInt8)
  | [] => some []
  | [_] => none
  | hi :: lo :: cs => do
    let h ← value? hi
    let l ← value? lo
    let bs ← decodeChars? cs
    some (UInt8.ofNat (16 * h + l) :: bs)

def decode? (s : String) : Option (List UInt8) := decodeChars? s.toList

def digits : Nat → Nat → List Char
  | 0, _ => []
  | n + 1, v => digits n (v / 16) ++ [digit (v % 16)]

def fixed (n v : Nat) : String := String.ofList (digits n v)

def number? (s : String) : Option Nat :=
  s.toList.foldlM (fun acc c => (value? c).map (16 * acc + ·)) 0

theorem encodeChars_nil : encodeChars [] = [] := rfl

theorem encodeChars_append (a b : List UInt8) :
    encodeChars (a ++ b) = encodeChars a ++ encodeChars b := by
  induction a with
  | nil => rfl
  | cons x xs ih => simp [encodeChars, ih]

end TreeJit.Hex
