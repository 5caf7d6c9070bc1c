import TreeJit.Predicate.Basic

/-!
# Running predicates

`Predicate.evalRow` runs the row function on one row.  `Predicate.evaluate` runs a batch: the vector
function on the largest even number of rows and the row function on what is left.  `filterRows` keeps
the rows a mask selects.  Running is relative to the machinery of the host; a run that does not end
is a crash.
-/

namespace TreeJit.Predicate

open SSA Emit Host.Module

def cellBytes (xs : List UInt64) : List UInt8 := xs.flatMap fun x => littleEndian 8 x.toNat

def wordsOf : Nat → List UInt8 → List Nat
  | 0, _ => []
  | n + 1, bs => ofLittleEndian (bs.take 8) :: wordsOf n (bs.drop 8)

/-! ## one row -/

variable [Host.Platform]

def runRow (h : Machinery) (m : Host.Module) (p : Predicate) (cells : List UInt64) : Option Bool :=
  match m.call h p.row.id [.buffer (cellBytes cells)] with
  | .ok ⟨v :: _, _⟩ => some (v.lo ≠ 0)
  | _ => none

/-- one row, with a cell for every column up to the highest -/
def evalRow (h : Machinery) (m : Host.Module) (p : Predicate) (row : List UInt64) :
    Outcome Fault Bool :=
  if (row.length : Int) < p.width.toInt then .failed (.rowWidth row.length p.width.toInt)
  else
    match runRow h m p (if p.width = 0 then [0] else row) with
    | some b => .done b
    | none => .crashed

/-! ## batches -/

structure Batch where
  arrays : List (Int × List UInt64)
  scalars : List (Int × UInt64)

def commonLength (b : Batch) : Option Nat → List Int → Except Fault Nat
  | n, [] => .ok (n.getD 0)
  | n, c :: cs =>
    match b.arrays.lookup c, n with
    | none, _ => .error (.missingArray c)
    | some a, none => commonLength b (some a.length) cs
    | some a, some n =>
      if a.length ≠ n then .error (.columnRows c a.length n) else commonLength b (some n) cs

def rows (p : Predicate) (b : Batch) : Except Fault Nat :=
  if p.arrays.isEmpty then .error .noArrays
  else
    match commonLength b none p.arrays with
    | .error f => .error f
    | .ok n =>
      match p.scalars.find? fun c => (b.scalars.lookup c).isNone with
      | some c => .error (.missingScalar c)
      | none => .ok n

def runVector (h : Machinery) (m : Host.Module) (p : Predicate) (b : Batch) (n : Nat) :
    Option (List Bool) :=
  if n = 0 then some []
  else
    let arrays : List Host.Arg := p.arrays.map fun c => .buffer (cellBytes ((b.arrays.lookup c).getD []))
    let masks : Host.Arg := .buffer (List.replicate (8 * n) 0)
    let scalars : List Host.Arg := p.scalars.map fun c => .word ((b.scalars.lookup c).getD 0)
    match p.vector with
    | none => none
    | some f =>
      match m.call h f.id (arrays ++ [masks, .word (UInt64.ofNat n)] ++ scalars) with
      | .ok ⟨_, bufs⟩ => (bufs[arrays.length]?).map fun bs => (wordsOf n bs).map fun w => decide (w ≠ 0)
      | .error _ => none

def batchRow (p : Predicate) (b : Batch) (i : Nat) : List UInt64 :=
  (List.range (max p.width.toInt.toNat 1)).map fun (c : Nat) =>
    if p.arrays.contains (c : Int) then ((b.arrays.lookup (c : Int)).getD [])[i]?.getD 0
    else (b.scalars.lookup (c : Int)).getD 0

def runTail (h : Machinery) (m : Host.Module) (p : Predicate) (b : Batch) (i n : Nat) :
    Option (List Bool) :=
  (List.range' i (n - i)).mapM fun j => runRow h m p (batchRow p b j)

/-- a truth value for each row.  A scalar with a negative number has no place in a row, and the
evaluation breaks down. -/
def evaluate (h : Machinery) (m : Host.Module) (p : Predicate) (b : Batch) :
    Outcome Fault (List Bool) :=
  match rows p b with
  | .error f => .failed f
  | .ok n =>
    let even := n - n % 2
    match runVector h m p b even, b.scalars.any fun s => s.1 < 0 with
    | none, _ => .crashed
    | some _, true => .crashed
    | some firsts, false =>
      match runTail h m p b even n with
      | none => .crashed
      | some rest => .done (firsts ++ rest)

/-! ## selecting rows -/

def keep {α : Type} : List α → List Bool → List α
  | x :: xs, b :: bs => if b then x :: keep xs bs else keep xs bs
  | _, _ => []

/-- the selected rows of the columns from number `i` on -/
def filterFrom (mask : List Bool) : Nat → List (List UInt64) → Except Fault (List (List UInt64))
  | _, [] => .ok []
  | i, c :: cs =>
    if c.length ≠ mask.length then .error (.maskRows i c.length mask.length)
    else (filterFrom mask (i + 1) cs).map fun rest => keep c mask :: rest

/-- the rows of each column that a mask selects -/
def filterRows (columns : List (List UInt64)) (mask : List Bool) :
    Except Fault (List (List UInt64)) := filterFrom mask 0 columns

end TreeJit.Predicate
