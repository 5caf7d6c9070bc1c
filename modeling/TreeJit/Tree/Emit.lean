import TreeJit.Emit.Loop
import TreeJit.Tree.Basic

/-!
# Code of a tree

`Tree.emit` appends the instructions that compute a tree to the current block and gives the number
of the result.  Operands come before their operator, the left one first.  On single rows an operator
calls its native operation if the unit wants that; on pairs of rows it is always an instruction.  A
tree with a node that is not there breaks down (`none`).
-/

namespace TreeJit

open SSA Emit

def Operator.native : Operator → String
  | .arith op => (Host.Builtin.float op).name
  | .compare c => (Host.Builtin.compare c).name
  | .other _ => ""

def Emit.Builder.onDraft (b : Builder) (op : Draft → Draft × Int) : Builder × Int :=
  let (d, v) := op b.draft
  ({ b with draft := d }, v)

def Operator.inline (o : Operator) (x y : Int) (d : Draft) : Draft × Int :=
  match o with
  | .arith .add => d.binary .fadd x y
  | .arith .sub => d.binary .fsub x y
  | .arith .mul => d.binary .fmul x y
  | .arith .div => d.binary .fdiv x y
  | .compare c => d.fcmp c.code x y
  | .other _ => d.fcmp FloatCond.eq.code x y

def Operator.emit (scope : Scope) (o : Operator) (b : Builder) (x y : Int) : Builder × Int :=
  if b.lanes = 1 ∧ scope.native then b.call scope o.native [x, y] else b.onDraft (o.inline x y)

def emitLiteral (b : Builder) (bits : UInt64) : Builder × Int :=
  let (b1, v) := b.onDraft fun d => d.fconst .f64 bits
  if 1 < b.lanes then b1.onDraft fun d => d.splat .f64x2 v else (b1, v)

def Tree.emit (scope : Scope) : Tree → Builder → Builder × Option Int
  | .missing, b => (b, none)
  | .column i _, b =>
    let (b, v) := b.column i.toInt
    (b, some v)
  | .literal bits, b =>
    let (b, v) := emitLiteral b bits
    (b, some v)
  | .binary op l r, b =>
    match l.emit scope b with
    | (b, none) => (b, none)
    | (b, some x) =>
      match r.emit scope b with
      | (b, none) => (b, none)
      | (b, some y) =>
        let (b, v) := op.emit scope b x y
        (b, some v)

end TreeJit
