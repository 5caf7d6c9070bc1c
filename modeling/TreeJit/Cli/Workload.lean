import TreeJit.Predicate.Evaluate

/-!
# Generated data

A workload gives every column of a predicate made-up values: a column of rows holds numbers from -5
up to 15, a scalar is an integer from 1 to 8.  A seed fixes all of them.  `checkMask` holds what
compiled code said of the rows against the tree.
-/

namespace TreeJit.Cli

open SSA

structure Random where
  state : UInt64

namespace Random

/-- a word, mixed from a counter that grows by an odd constant -/
def next (r : Random) : UInt64 × Random :=
  let s := r.state + 0x9E3779B97F4A7C15
  let z := (s ^^^ (s >>> 30)) * 0xBF58476D1CE4E5B9
  let z := (z ^^^ (z >>> 27)) * 0x94D049BB133111EB
  (z ^^^ (z >>> 31), ⟨s⟩)

def unitDouble (F : FloatOps) (w : UInt64) : UInt64 :=
  F.arith .mul (doubleOfInt (w >>> 11).toNat) 0x3CA0000000000000

def cell (F : FloatOps) (r : Random) : UInt64 × Random :=
  let (w, r) := r.next
  (F.arith .sub (F.arith .mul (unitDouble F w) (doubleOfInt 20)) (doubleOfInt 5), r)

def scalar (r : Random) : UInt64 × Random :=
  let (w, r) := r.next
  (doubleOfInt (w % 8 + 1).toNat, r)

/-- `n` cells put in front of `acc` -/
def cells (F : FloatOps) : Nat → List UInt64 → Random → List UInt64 × Random
  | 0, acc, r => (acc, r)
  | n + 1, acc, r =>
    let (x, r) := r.cell F
    cells F n (x :: acc) r

end Random

/-- scalars for columns; a column that occurs again gets another value -/
def generateScalars : List Int → List (Int × UInt64) → Random → List (Int × UInt64) × Random
  | [], acc, r => (acc, r)
  | c :: cs, acc, r =>
    let (x, r) := r.scalar
    generateScalars cs ((c, x) :: acc) r

def generateArrays (F : FloatOps) (rows : Nat) : List Int → Random → List (Int × List UInt64)
  | [], _ => []
  | c :: cs, r =>
    let (xs, r) := Random.cells F rows [] r
    (c, xs) :: generateArrays F rows cs r

def maxRows : Int := 2 ^ 45

/-- values for the columns below `width`; breaks down if a column cannot have so many rows -/
def generate (F : FloatOps) (seed : Int) (width : Nat) (scalars : List Int) (rows : Int) :
    Option Predicate.Batch :=
  let columns := ((List.range width).map Int.ofNat).filter fun c => !scalars.contains c
  if !columns.isEmpty ∧ (rows < 0 ∨ maxRows < rows) then none
  else
    let (ss, r) := generateScalars scalars [] ⟨(Int64.ofInt seed).toUInt64⟩
    some ⟨generateArrays F rows.toNat columns r, ss⟩

/-! ## checking -/

/-- a row on which code and tree differ -/
structure Difference where
  row : Nat
  cells : List UInt64
  compiled : Bool
  reference : Bool

def headCells (columns : List (List UInt64)) : List UInt64 := columns.map fun c => c.headD 0

/-- counts the selected rows from number `i` on -/
def checkMask (F : FloatOps) (t : Tree) : Nat → Nat → List Bool → List (List UInt64) → Except Difference Nat
  | _, selected, [], _ => .ok selected
  | i, selected, got :: mask, columns =>
    let row := headCells columns
    let want := F.test .ne (t.eval F row) 0
    if got ≠ want then .error ⟨i, row, got, want⟩
    else checkMask F t (i + 1) (if got then selected + 1 else selected) mask (columns.map List.tail)

/-- the columns below `width`, a scalar as often as there are rows -/
def columnsOf (b : Predicate.Batch) (width rows : Nat) : List (List UInt64) :=
  (List.range width).map fun (c : Nat) =>
    match b.scalars.lookup (c : Int) with
    | some x => List.replicate rows x
    | none => (b.arrays.lookup (c : Int)).getD []

end TreeJit.Cli
