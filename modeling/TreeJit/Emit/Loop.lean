import TreeJit.Emit.Builder

/-!
# Vector loops

A vector loop applies straight-line code to two rows at a time.  `Builder.enterLoop` makes the loop
block and binds the columns to pairs of rows, `Builder.leaveLoop` stores what the code between them
computed, steps the pointers and goes on behind the loop.  `Builder.vectorLoop` puts the two around
a given body.

The loop block takes the pointers, the result pointer, the broadcast scalars, the index of the row
and the number of rows.
-/

namespace TreeJit.Emit

open SSA

/-- a value that expressions see as a column -/
structure ColumnInput where
  column : Int
  value : Int

structure VectorLoop where
  /-- pointers to the rows of a column -/
  arrays : List ColumnInput
  /-- values that are the same in all rows -/
  scalars : List ColumnInput
  result : Int
  count : Int

/-- what the end of a loop needs from its start -/
structure LoopFrame where
  block : Int
  exit : Int
  pointers : List Int
  result : Int
  scalars : List Int
  index : Int
  bound : Int
  /-- the columns outside -/
  saved : List (Int × Int)

def pairBytes : Int64 := 16

namespace VectorLoop

def check (l : VectorLoop) (d : Draft) : Except LoopFault Unit :=
  match l.arrays.find? fun a => d.typeOf a.value ≠ .pointer with
  | some a => .error (.array a.column (d.typeOf a.value))
  | none =>
    match l.scalars.find? fun s => d.typeOf s.value ≠ .f64 with
    | some s => .error (.scalar s.column (d.typeOf s.value))
    | none =>
      if d.typeOf l.result ≠ .pointer then .error (.result (d.typeOf l.result))
      else if d.typeOf l.count ≠ .i64 then .error (.count (d.typeOf l.count))
      else .ok ()

end VectorLoop

def splats (d : Draft) : List Int → Draft × List Int
  | [] => (d, [])
  | v :: vs =>
    let (d, x) := d.splat .f64x2 v
    let (d, xs) := splats d vs
    (d, x :: xs)

def loadPairs (d : Draft) : List Int → Draft × List Int
  | [] => (d, [])
  | p :: ps =>
    let (d, x) := d.load .f64x2 p 0
    let (d, xs) := loadPairs d ps
    (d, x :: xs)

def advance (d : Draft) (step : Int) : List Int → Draft × List Int
  | [] => (d, [])
  | p :: ps =>
    let (d, x) := d.binary .iadd p step
    let (d, xs) := advance d step ps
    (d, x :: xs)

/-- makes the loop block and jumps into it, or behind the loop if there are no rows -/
def openLoop (d : Draft) (l : VectorLoop) (saved : List (Int × Int)) : Draft × LoopFrame :=
  let (d, lanes) := splats d (l.scalars.map (·.value))
  let (d, block) := d.createBlock
  let (d, exit) := d.createBlock
  let (d, pointers) := d.appendParams block (l.arrays.map fun _ => .pointer)
  let (d, result) := d.appendParam block .pointer
  let (d, scalars) := d.appendParams block (l.scalars.map fun _ => .f64x2)
  let (d, index) := d.appendParam block .i64
  let (d, bound) := d.appendParam block .i64
  let (d, zero) := d.iconst .i64 0
  let (d, empty) := d.icmp IntCond.eq.code l.count zero
  let (d, _) := d.brif empty exit []
    block (l.arrays.map (·.value) ++ [l.result] ++ lanes ++ [zero, l.count])
  (d, { block, exit, pointers, result, scalars, index, bound, saved })

def closeLoop (d : Draft) (f : LoopFrame) (out : Int) : Draft :=
  let (d, _) := d.store out f.result 0
  let (d, step) := d.iconst .i64 pairBytes
  let (d, pointers) := advance d step f.pointers
  let (d, result) := d.binary .iadd f.result step
  let (d, two) := d.iconst .i64 2
  let (d, index) := d.binary .iadd f.index two
  let (d, more) := d.icmp IntCond.ult.code index f.bound
  let (d, _) := d.brif more f.block (pointers ++ [result] ++ f.scalars ++ [index, f.bound]) f.exit []
  let (d, _) := d.sealBlock f.block
  let (d, _) := d.switchTo f.exit
  (d.sealBlock f.exit).1

namespace Builder

/-- starts a loop; afterwards the loop block is current and the columns are pairs of rows -/
def enterLoop (b : Builder) (l : VectorLoop) : Builder × Option LoopFrame :=
  b.attempt none fun b =>
    if b.lanes ≠ 1 then (b, .error (.loop (.nested b.name)))
    else
      match l.check b.draft with
      | .error f => (b, .error (.loop f))
      | .ok () =>
        let (d, f) := openLoop b.draft l b.columns
        if d.fault.isSome then ({ b with draft := d }, .ok none)
        else
          let (d, _) := d.switchTo f.block
          let (d, pairs) := loadPairs d f.pointers
          let bound := (l.arrays.map (·.column)).zip pairs
            ++ (l.scalars.map (·.column)).zip f.scalars
          ({ b with draft := d, columns := bound.reverse, lanes := 2 }, .ok (some f))

def leaveLoop (b : Builder) (f : LoopFrame) (out : Int) : Builder :=
  let b := { b with lanes := 1, columns := f.saved }.sync
  match b.fault with
  | some _ => b
  | none =>
    let t := b.draft.typeOf out
    if t ≠ .f64x2 ∧ t ≠ .i64x2 then b.fail (.loop (.body t))
    else { b with draft := closeLoop b.draft f out }.sync

/-- a loop around a body, which gives `none` if it breaks down -/
def vectorLoop (b : Builder) (l : VectorLoop) (body : Builder → Builder × Option Int) :
    Builder × Option Unit :=
  match b.enterLoop l with
  | (b, none) => (b, some ())
  | (b, some f) =>
    match body b with
    | (b, none) => (b, none)
    | (b, some out) => (b.leaveLoop f out, some ())

end Builder

end TreeJit.Emit
