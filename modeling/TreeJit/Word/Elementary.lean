import TreeJit.Word.Binary

/-!
# Some functions on doubles

`remainder`, `absolute` and `hypotenuse` on the patterns of doubles.  The remainder of a division toward
zero is always representable, so it is found in exact arithmetic.  The hypotenuse is found in the
arithmetic of doubles and can be off by one in the last place.
-/

namespace TreeJit

def nanDouble : UInt64 := UInt64.ofNat BinaryFormat.double.quietNaN

/-- `m * 2 ^ q` and `n * 2 ^ p` over the smaller of the two powers, and its exponent -/
def commonScale (m : Nat) (q : Int) (n : Nat) (p : Int) : Nat × Nat × Int :=
  let e := min q p
  (m * 2 ^ (q - e).toNat, n * 2 ^ (p - e).toNat, e)

/-- what is left of `x` after taking away whole multiples of `y`; it has the sign of `x` -/
def remainder (x y : UInt64) : UInt64 :=
  let f := BinaryFormat.double
  match f.decode x.toNat, f.decode y.toNat with
  | .finite neg m q, .finite _ n p =>
    if n = 0 then nanDouble
    else
      let (a, b, e) := commonScale m q n p
      UInt64.ofNat (f.roundScaled neg (a % b) e)
  | .finite .., .infinite _ => x
  | _, _ => nanDouble

/-- whether a pattern is not a number and asks for attention: the top fraction bit is clear -/
def isSignaling (x : UInt64) : Bool := isNaN x && x &&& 0x0008000000000000 == 0

/-- the hypotenuse of legs `0 ≤ b ≤ a` whose squares are in range: the root of the sum of squares and
one step that takes away most of its error -/
def hypotenuseOf (a b : Float) : Float :=
  let h := (a * a + b * b).sqrt
  let (t, u) :=
    if h ≤ 2 * b then
      let d := h - b
      (a * (2 * d - a), (d - 2 * (a - b)) * d)
    else
      let d := h - a
      (2 * d * (a - 2 * b), (4 * d - b) * b + d * d)
  h - (t + u) / (2 * h)

/-- the powers of two that bring legs into range, and bound those that need it -/
def legScale : Float := Float.ofBits 0x1A70000000000000

def largeLeg : Float := Float.ofBits 0x5FE0000000000000

def smallLeg : Float := Float.ofBits 0x2340000000000000

/-- legs further apart than this do not show in each other's last place -/
def legRatio : Float := Float.ofBits 0x3C90000000000000

def scaledHypotenuse (a b : Float) : Float :=
  if a > largeLeg then
    if b ≤ a * legRatio then a + b else hypotenuseOf (a * legScale) (b * legScale) / legScale
  else if b < smallLeg then
    if a ≥ b / legRatio then a + b else hypotenuseOf (a / legScale) (b / legScale) * legScale
  else if b ≤ a * legRatio then a + b
  else hypotenuseOf a b

def absolute (x : UInt64) : UInt64 := x &&& 0x7FFFFFFFFFFFFFFF

/-- the length of the hypotenuse; an infinite leg wins over one that is quietly not a number -/
def hypotenuse (x y : UInt64) : UInt64 :=
  let f := BinaryFormat.double
  match f.decode x.toNat, f.decode y.toNat with
  | .finite .., .finite .. =>
    let a := Float.ofBits (absolute x)
    let b := Float.ofBits (absolute y)
    (if a < b then scaledHypotenuse b a else scaledHypotenuse a b).toBits
  | p, q =>
    if !isSignaling x && !isSignaling y && (isInfinite p || isInfinite q) then UInt64.ofNat f.infinity
    else nanDouble
where
  isInfinite : Binary → Bool
    | .infinite _ => true
    | _ => false

end TreeJit
