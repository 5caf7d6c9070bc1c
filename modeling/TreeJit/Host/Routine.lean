import TreeJit.SSA.Draft
import TreeJit.SSA.Run
import TreeJit.Word.Elementary

/-!
# Native routines

The routines that compiled code can call by name.  The built-in ones do one instruction each
(`Builtin`); five come from the mathematical library (`MathFn`).  What a routine computes is
`Routine.apply`, relative to the float operations and to the library.

A built-in operation is a function of its own (`Builtin.helper`): a block that takes the two operands,
does the instruction of the operation and gives its result back.
-/

namespace TreeJit.Host

open SSA

inductive Builtin where
  | float (op : FloatOp)
  | compare (c : FloatCond)
  | intAdd | intSub | intMul
  deriving DecidableEq, Repr

namespace Builtin

def all : List Builtin :=
  [.float .add, .float .sub, .float .mul, .float .div, .compare .lt, .compare .le, .compare .gt,
    .compare .ge, .compare .eq, .compare .ne, .intAdd, .intSub, .intMul]

def name : Builtin → String
  | .float .add => "Float64AddWrapping"
  | .float .sub => "Float64SubWrapping"
  | .float .mul => "Float64MulWrapping"
  | .float .div => "Float64DivWrapping"
  | .compare .lt => "Float64Lt"
  | .compare .le => "Float64Le"
  | .compare .gt => "Float64Gt"
  | .compare .ge => "Float64Ge"
  | .compare .eq => "Float64Eq"
  | .compare .ne => "Float64Ne"
  | .intAdd => "Int64AddWrapping"
  | .intSub => "Int64SubWrapping"
  | .intMul => "Int64MulWrapping"

def sig : Builtin → Signature
  | .float _ => ⟨[.f64, .f64], [.f64]⟩
  | .compare _ => ⟨[.f64, .f64], [.i8]⟩
  | _ => ⟨[.i64, .i64], [.i64]⟩

def apply (F : FloatOps) (b : Builtin) (x y : Val) : Val :=
  match b with
  | .float op => ⟨F.arith op x.lo y.lo, 0⟩
  | .compare c => Val.ofBool (F.test c x.lo y.lo)
  | .intAdd => ⟨x.lo + y.lo, 0⟩
  | .intSub => ⟨x.lo - y.lo, 0⟩
  | .intMul => ⟨x.lo * y.lo, 0⟩

/-! ## helper functions -/

def emit (f : Builtin) (d : Draft) (x y : Int) : Draft × Int :=
  match f with
  | .float .add => d.binary .fadd x y
  | .float .sub => d.binary .fsub x y
  | .float .mul => d.binary .fmul x y
  | .float .div => d.binary .fdiv x y
  | .compare c => d.fcmp c.code x y
  | .intAdd => d.binary .iadd x y
  | .intSub => d.binary .isub x y
  | .intMul => d.binary .imul x y

def draft (f : Builtin) : Draft :=
  let (d, entry) := (Draft.new f.name f.sig).createBlock
  let (d, params) := d.appendFunctionParams entry
  let (d, _) := d.switchTo entry
  let (d, r) := f.emit d (params.getD 0 (-1)) (params.getD 1 (-1))
  let (d, _) := d.ret [r]
  d.sealAll.1

def helper (f : Builtin) : Except SSA.Fault Func := f.draft.finish.2

end Builtin

inductive MathFn where
  | pow | fmod | hypot | fabs | floor
  deriving DecidableEq, Repr

def MathFn.all : List MathFn := [.pow, .fmod, .hypot, .fabs, .floor]

def MathFn.symbol : MathFn → String
  | .pow => "pow"
  | .fmod => "fmod"
  | .hypot => "hypot"
  | .fabs => "fabs"
  | .floor => "floor"

/-- what the library computes, on patterns of doubles; functions of one argument ignore the second -/
abbrev MathLibrary := MathFn → UInt64 → UInt64 → UInt64

def MathLibrary.host : MathLibrary
  | .pow, x, y =>
    if isSignaling x || isSignaling y then nanDouble
    else (Float.pow (Float.ofBits x) (Float.ofBits y)).toBits
  | .fmod, x, y => remainder x y
  | .hypot, x, y => hypotenuse x y
  | .fabs, x, _ => absolute x
  | .floor, x, _ => (Float.ofBits x).floor.toBits

inductive Routine where
  | builtin (b : Builtin)
  | math (m : MathFn)
  deriving DecidableEq, Repr

def Routine.all : List Routine := Builtin.all.map .builtin ++ MathFn.all.map .math

def Routine.apply (F : FloatOps) (L : MathLibrary) (r : Routine) (args : List Val) : List Val :=
  let x := args.getD 0 ⟨0, 0⟩
  let y := args.getD 1 ⟨0, 0⟩
  match r with
  | .builtin b => [b.apply F x y]
  | .math m => [⟨L m x.lo y.lo, 0⟩]

end TreeJit.Host
