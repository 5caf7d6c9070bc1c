import TreeJit.Word.Binary

/-!
# The shortest decimal that reads back

`shortest bits` is the decimal `coeff * 10 ^ exp` with the fewest digits among those that are
nearer to a double than to any other; of two such decimals with equally many digits the nearer one
is taken.

The decimals that read back fill an interval around the value, whose ends belong to it when the
last bit is zero.  For one, two, … seventeen digits the two grid points next to the value are
tried; the first grid with a point in the interval wins.
-/

namespace TreeJit

structure Decimal where
  coeff : Nat
  exp : Int
  deriving DecidableEq, Repr

def digitCount (n : Nat) : Nat := (Nat.toDigits 10 n).length

namespace Decimal

/-- the largest `k` with `10 ^ k ≤ num / den`, for positive numbers -/
def floorLog10 (num den : Nat) : Int :=
  if den ≤ num then (digitCount (num / den) : Int) - 1
  else
    let l := digitCount (den / num)
    if den ≤ num * 10 ^ (l - 1) then -((l - 1 : Nat) : Int) else -(l : Int)

def strip : Nat → Decimal → Decimal
  | 0, d => d
  | n + 1, d => if d.coeff % 10 = 0 then strip n ⟨d.coeff / 10, d.exp + 1⟩ else d

/-- an interval `lo .. hi` around `mid`, all over one denominator -/
structure Interval where
  lo : Nat
  mid : Nat
  hi : Nat
  den : Nat
  closed : Bool

/-- the reals that read back as the positive double `m * 2 ^ q`; `narrowBelow` when the gap below
is half the gap above -/
def Interval.of (m : Nat) (q : Int) (narrowBelow : Bool) : Interval :=
  let s := 2 ^ (q - 2).toNat
  { lo := (4 * m - (if narrowBelow then 1 else 2)) * s
    mid := 4 * m * s
    hi := (4 * m + 2) * s
    den := 2 ^ (2 - q).toNat
    closed := m % 2 == 0 }

/-- the grid point in the interval that is nearest to its middle, on the grid of `n` digits -/
def Interval.point? (i : Interval) (top : Int) (n : Nat) : Option Decimal :=
  let p : Int := top - n + 1
  let up := 10 ^ (-p).toNat
  let den := i.den * 10 ^ p.toNat
  let inside (c : Nat) : Bool :=
    if i.closed then decide (i.lo * up ≤ c * den ∧ c * den ≤ i.hi * up)
    else decide (i.lo * up < c * den ∧ c * den < i.hi * up)
  let below := i.mid * up / den
  let above := below + 1
  match inside below, inside above with
  | true, true =>
    let down := i.mid * up - below * den
    let rise := above * den - i.mid * up
    if down < rise ∨ (down = rise ∧ below % 2 = 0) then some ⟨below, p⟩ else some ⟨above, p⟩
  | true, false => some ⟨below, p⟩
  | false, true => some ⟨above, p⟩
  | false, false => none

def Interval.shortest (i : Interval) : Decimal :=
  let top := floorLog10 i.mid i.den
  match (List.range 17).findSome? fun n => i.point? top (n + 1) with
  | some d => d.strip 20
  | none => ⟨0, 0⟩

/-- the shortest decimal of the positive double `m * 2 ^ q` -/
def ofBinary (m : Nat) (q : Int) : Decimal :=
  (Interval.of m q (m == 2 ^ 52 && decide (-1074 < q))).shortest

end TreeJit.Decimal
