/-!
# UTF-8

* `utf8Char c`    the bytes of a character;
* `utf8Next bs`   the first character of a byte list and what follows it.  A byte that starts no
                  character stands for the replacement character alone.
-/

namespace TreeJit

def utf8Code (n : Nat) : List Nat :=
  if n < 0x80 then [n]
  else if n < 0x800 then [0xC0 + n / 64, 0x80 + n % 64]
  else if n < 0x10000 then [0xE0 + n / 4096, 0x80 + n / 64 % 64, 0x80 + n % 64]
  else [0xF0 + n / 262144, 0x80 + n / 4096 % 64, 0x80 + n / 64 % 64, 0x80 + n % 64]

def utf8Char (c : Char) : List UInt8 := (utf8Code c.toNat).map UInt8.ofNat

def utf8Bytes (s : String) : List UInt8 := s.toList.flatMap utf8Char

def replacementChar : Char := Char.ofNat 0xFFFD

def isTail (b : Nat) : Bool := decide (0x80 ≤ b ∧ b < 0xC0)

/-- the code point at the start of a list of bytes, and the number of its bytes -/
def codePoint? : List Nat → Option (Nat × Nat)
  | [] => none
  | a :: r =>
    if a < 0x80 then some (a, 1)
    else
      match r with
      | [] => none
      | b :: r =>
        if 0xC2 ≤ a ∧ a < 0xE0 ∧ isTail b then some (a % 32 * 64 + b % 64, 2)
        else
          match r with
          | [] => none
          | c :: r =>
            let n := a % 16 * 4096 + b % 64 * 64 + c % 64
            if 0xE0 ≤ a ∧ a < 0xF0 ∧ isTail b ∧ isTail c ∧ 0x800 ≤ n ∧ ¬(0xD800 ≤ n ∧ n < 0xE000) then
              some (n, 3)
            else
              match r with
              | [] => none
              | d :: _ =>
                let n := a % 8 * 262144 + b % 64 * 4096 + c % 64 * 64 + d % 64
                if 0xF0 ≤ a ∧ a < 0xF8 ∧ isTail b ∧ isTail c ∧ isTail d ∧ 0x10000 ≤ n ∧ n < 0x110000 then
                  some (n, 4)
                else none

def utf8Next (bs : List UInt8) : Option (Char × List UInt8) :=
  match bs with
  | [] => none
  | _ :: r =>
    match codePoint? ((bs.take 4).map UInt8.toNat) with
    | some (n, k) => some (Char.ofNat n, bs.drop k)
    | none => some (replacementChar, r)

end TreeJit
