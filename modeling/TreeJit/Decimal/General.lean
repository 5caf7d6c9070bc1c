import TreeJit.Decimal.Shortest

/-!
# The text of a double

The shortest digits that read back.  With decimal exponent `x` (one digit before the point) the
text is positional for `-4 ≤ x < 6` and has an exponent otherwise; the exponent shows its sign and
at least two digits.  Zero keeps its sign, infinities are `+Inf` and `-Inf`, all else is `NaN`.
-/

namespace TreeJit.Decimal

/-- which exponents are written positionally, and the least number of exponent digits -/
structure Style where
  least : Int
  bound : Int
  expDigits : Nat

def general : Style := ⟨-4, 6, 2⟩

def zeros (n : Nat) : String := String.ofList (List.replicate n '0')

/-- digits with a point after the first `n` -/
def pointAfter (n : Nat) (ds : List Char) : String :=
  let (a, b) := ds.splitAt n
  if b.isEmpty then String.ofList a else String.ofList a ++ "." ++ String.ofList b

def expText (s : Style) (x : Int) : String :=
  let t := toString x.natAbs
  (if x < 0 then "e-" else "e+") ++ zeros (s.expDigits - t.length) ++ t

def text (s : Style) (d : Decimal) : String :=
  let ds := Nat.toDigits 10 d.coeff
  let x : Int := ds.length + d.exp - 1
  if x < s.least ∨ s.bound ≤ x then pointAfter 1 ds ++ expText s x
  else if x < 0 then "0." ++ zeros (-x - 1).toNat ++ String.ofList ds
  else if 0 ≤ d.exp then String.ofList ds ++ zeros d.exp.toNat
  else pointAfter (x + 1).toNat ds

def doubleText (bits : UInt64) : String :=
  match BinaryFormat.double.decode bits.toNat with
  | .nan => "NaN"
  | .infinite neg => if neg then "-Inf" else "+Inf"
  | .finite neg m q =>
    (if neg then "-" else "") ++ (if m = 0 then "0" else (ofBinary m q).text general)

end TreeJit.Decimal
