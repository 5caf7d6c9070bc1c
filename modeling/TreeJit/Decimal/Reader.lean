import TreeJit.Word.Binary

/-!
# Reading numbers

* `Decimal.digits?`   digits of a base, at least one, nothing else;
* `Decimal.integer?`  an optional sign and a number; with base 0 the base is read off a leading `0x`,
                      `0o`, `0b` or `0`;
* `Decimal.double?`   a decimal fraction with an optional exponent, as the nearest double; there is
                      none for what lies beyond the largest.
-/

namespace TreeJit.Decimal

/-- the number of a digit or letter, from 0 to 35 -/
def digitValue? (c : Char) : Option Nat :=
  if '0' ≤ c ∧ c ≤ '9' then some (c.toNat - '0'.toNat)
  else if 'a' ≤ c ∧ c ≤ 'z' then some (c.toNat - 'a'.toNat + 10)
  else if 'A' ≤ c ∧ c ≤ 'Z' then some (c.toNat - 'A'.toNat + 10)
  else none

def digitsFrom? (base : Nat) : Nat → List Char → Option Nat
  | acc, [] => some acc
  | acc, c :: cs =>
    match digitValue? c with
    | some d => if d < base then digitsFrom? base (base * acc + d) cs else none
    | none => none

def digits? (base : Nat) (cs : List Char) : Option Nat :=
  if cs.isEmpty then none else digitsFrom? base 0 cs

/-- a number whose base stands in front of it -/
def based? (cs : List Char) : Option Nat :=
  match cs with
  | '0' :: 'x' :: r => digits? 16 r
  | '0' :: 'X' :: r => digits? 16 r
  | '0' :: 'o' :: r => digits? 8 r
  | '0' :: 'O' :: r => digits? 8 r
  | '0' :: 'b' :: r => digits? 2 r
  | '0' :: 'B' :: r => digits? 2 r
  | ['0'] => some 0
  | '0' :: r => digits? 8 r
  | r => digits? 10 r

def splitSign : List Char → Bool × List Char
  | '-' :: r => (true, r)
  | '+' :: r => (false, r)
  | r => (false, r)

def integer? (base : Nat) (cs : List Char) : Option Int :=
  let (neg, r) := splitSign cs
  let n := if base = 0 then based? r else digits? base r
  n.map fun n => if neg then -(n : Int) else n

/-! ## fractions -/

def spanDigits (cs : List Char) : List Char × List Char := (cs.takeWhile Char.isDigit, cs.dropWhile Char.isDigit)

/-- the exponent at the end of a fraction; nothing stands for 0 -/
def exponent? (cs : List Char) : Option Int :=
  match cs with
  | [] => some 0
  | c :: r =>
    if c = 'e' ∨ c = 'E' then
      let (neg, ds) := splitSign r
      (digits? 10 ds).map fun n => if neg then -(n : Int) else n
    else none

/-- the double nearest to `± coeff * 10 ^ exp`, if it is finite.  Exponents far outside the range
of doubles are cut, which changes nothing. -/
def toDouble? (neg : Bool) (coeff : Nat) (exp : Int) : Option UInt64 :=
  let f := BinaryFormat.double
  let bound : Int := 400 + coeff.log2
  let e := max (-bound) (min bound exp)
  let bits := f.round neg (coeff * 10 ^ e.toNat) (10 ^ (-e).toNat)
  if bits % f.signBit = f.infinity then none else some (UInt64.ofNat bits)

def double? (cs : List Char) : Option UInt64 :=
  let (neg, r) := splitSign cs
  let (whole, r) := spanDigits r
  let (frac, r) :=
    match r with
    | '.' :: r => spanDigits r
    | r => ([], r)
  if whole.isEmpty && frac.isEmpty then none
  else
    match digitsFrom? 10 0 (whole ++ frac), exponent? r with
    | some coeff, some e => toDouble? neg coeff (e - frac.length)
    | _, _ => none

end TreeJit.Decimal
