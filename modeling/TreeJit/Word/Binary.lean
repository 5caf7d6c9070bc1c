import TreeJit.Word.Power

/-!
# Binary floating-point patterns

A format has a number of fraction bits and of exponent bits (`double`, `single`).  A pattern is a
natural number below `2 ^ (1 + expBits + fracBits)`.

* `decode`   what a pattern means: not a number, an infinity, or `± m * 2 ^ q`;
* `round`    the pattern nearest to a ratio of natural numbers; a tie goes to the even pattern, and
             what is too large becomes an infinity;
* `narrow`, `widen`, `ofInt`   conversions built from the two.
-/

namespace TreeJit

structure BinaryFormat where
  fracBits : Nat
  expBits : Nat

namespace BinaryFormat

def double : BinaryFormat := ⟨52, 11⟩

def single : BinaryFormat := ⟨23, 8⟩

/-- the exponent of the last place of the smallest patterns -/
def minExp (f : BinaryFormat) : Int := 2 - (2 ^ (f.expBits - 1) : Nat) - f.fracBits

def infinity (f : BinaryFormat) : Nat := (2 ^ f.expBits - 1) * 2 ^ f.fracBits

def signBit (f : BinaryFormat) : Nat := 2 ^ (f.expBits + f.fracBits)

/-- the pattern with the top fraction bit set, not a number -/
def quietNaN (f : BinaryFormat) : Nat := f.infinity + 2 ^ (f.fracBits - 1)

def withSign (f : BinaryFormat) (neg : Bool) (bits : Nat) : Nat :=
  if neg then f.signBit + bits else bits

end BinaryFormat

/-- what a pattern means -/
inductive Binary where
  | nan
  | infinite (neg : Bool)
  /-- `± m * 2 ^ q` -/
  | finite (neg : Bool) (m : Nat) (q : Int)

namespace BinaryFormat

def decode (f : BinaryFormat) (bits : Nat) : Binary :=
  let neg := bits / f.signBit % 2 == 1
  let e := bits / 2 ^ f.fracBits % 2 ^ f.expBits
  let frac := bits % 2 ^ f.fracBits
  if e = 2 ^ f.expBits - 1 then (if frac = 0 then .infinite neg else .nan)
  else if e = 0 then .finite neg frac f.minExp
  else .finite neg (2 ^ f.fracBits + frac) (f.minExp + (e - 1 : Nat))

/-- the largest `e` with `2 ^ e ≤ num / den` -/
def floorLog2 (num den : Nat) : Int :=
  let e : Int := (num.log2 : Int) - den.log2
  if num * 2 ^ (-e).toNat < den * 2 ^ e.toNat then e - 1 else e

/-- a quotient rounded to the nearest natural number, a tie to the even one -/
def roundDiv (num den : Nat) : Nat :=
  let q := num / den
  let r := num % den
  if den < 2 * r ∨ (2 * r = den ∧ q % 2 = 1) then q + 1 else q

def round (f : BinaryFormat) (neg : Bool) (num den : Nat) : Nat :=
  if num = 0 then f.withSign neg 0
  else
    let place := max (floorLog2 num den - f.fracBits) f.minExp
    let m := roundDiv (num * 2 ^ (-place).toNat) (den * 2 ^ place.toNat)
    f.withSign neg (min f.infinity (m + (place - f.minExp).toNat * 2 ^ f.fracBits))

/-- the pattern nearest to `± m * 2 ^ q` -/
def roundScaled (f : BinaryFormat) (neg : Bool) (m : Nat) (q : Int) : Nat :=
  f.round neg (m * 2 ^ q.toNat) (2 ^ (-q).toNat)

end BinaryFormat

/-! ## conversions -/

/-- a double as the nearest single; the top of a payload survives -/
def narrow (bits : UInt64) : UInt32 :=
  let f := BinaryFormat.single
  match BinaryFormat.double.decode bits.toNat with
  | .nan =>
    let payload := bits.toNat % 2 ^ 52 / 2 ^ 29 % 2 ^ 22
    UInt32.ofNat (f.withSign (decide (2 ^ 63 ≤ bits.toNat)) (f.quietNaN + payload))
  | .infinite neg => UInt32.ofNat (f.withSign neg f.infinity)
  | .finite neg m q => UInt32.ofNat (f.roundScaled neg m q)

/-- a single as the double of the same value -/
def widen (bits : UInt32) : UInt64 :=
  let f := BinaryFormat.double
  match BinaryFormat.single.decode bits.toNat with
  | .nan => UInt64.ofNat (f.withSign (decide (2 ^ 31 ≤ bits.toNat)) f.quietNaN)
  | .infinite neg => UInt64.ofNat (f.withSign neg f.infinity)
  | .finite neg m q => UInt64.ofNat (f.roundScaled neg m q)

/-- the double nearest to an integer -/
def doubleOfInt (i : Int) : UInt64 :=
  UInt64.ofNat (BinaryFormat.double.round (decide (i < 0)) i.natAbs 1)

def isNaN (bits : UInt64) : Bool :=
  match BinaryFormat.double.decode bits.toNat with
  | .nan => true
  | _ => false

end TreeJit
