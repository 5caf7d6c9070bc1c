import TreeJit.SSA.Inst
import TreeJit.Word.Memory

/-!
# What instructions compute

A value is two 64-bit words: a scalar uses the first, zero-extended from its width, and a vector
has one lane in each.  Floats are bit patterns.  The float operations are a parameter,
`FloatOps`, so that what is said about a program holds for any of them; `FloatOps.host` is the
arithmetic of the machine this runs on.
-/

namespace TreeJit.SSA

structure Val where
  lo : UInt64
  hi : UInt64 := 0
  deriving DecidableEq

namespace Val

def ofBool (b : Bool) : Val := ⟨if b then 1 else 0, 0⟩

/-- the part of a value that a type keeps -/
def keep (t : Ty) (v : Val) : Val :=
  match t with
  | .i8 => ⟨v.lo &&& 0xFF, 0⟩
  | .i16 => ⟨v.lo &&& 0xFFFF, 0⟩
  | .i32 => ⟨v.lo &&& 0xFFFFFFFF, 0⟩
  | .f32 => ⟨v.lo &&& 0xFFFFFFFF, 0⟩
  | .f64x2 => v
  | .i64x2 => v
  | _ => ⟨v.lo, 0⟩

def keepAll (ts : List Ty) (vs : List Val) : List Val := List.zipWith keep ts vs

end Val

/-! ## float operations -/

inductive FloatOp where
  | add | sub | mul | div
  deriving DecidableEq, Repr

/-- arithmetic and comparison on the patterns of doubles and of singles -/
structure FloatOps where
  arith : FloatOp → UInt64 → UInt64 → UInt64
  test : FloatCond → UInt64 → UInt64 → Bool
  arith32 : FloatOp → UInt32 → UInt32 → UInt32
  test32 : FloatCond → UInt32 → UInt32 → Bool

namespace FloatOps

def hostArith (op : FloatOp) (a b : UInt64) : UInt64 :=
  let x := Float.ofBits a
  let y := Float.ofBits b
  match op with
  | .add => (x + y).toBits
  | .sub => (x - y).toBits
  | .mul => (x * y).toBits
  | .div => (x / y).toBits

def hostTest (c : FloatCond) (a b : UInt64) : Bool :=
  let x := Float.ofBits a
  let y := Float.ofBits b
  match c with
  | .eq => x == y
  | .ne => !(x == y)
  | .lt => decide (x < y)
  | .le => decide (x ≤ y)
  | .gt => decide (y < x)
  | .ge => decide (y ≤ x)

def hostArith32 (op : FloatOp) (a b : UInt32) : UInt32 :=
  let x := Float32.ofBits a
  let y := Float32.ofBits b
  match op with
  | .add => (x + y).toBits
  | .sub => (x - y).toBits
  | .mul => (x * y).toBits
  | .div => (x / y).toBits

def hostTest32 (c : FloatCond) (a b : UInt32) : Bool :=
  let x := Float32.ofBits a
  let y := Float32.ofBits b
  match c with
  | .eq => x == y
  | .ne => !(x == y)
  | .lt => decide (x < y)
  | .le => decide (x ≤ y)
  | .gt => decide (y < x)
  | .ge => decide (y ≤ x)

def host : FloatOps := ⟨hostArith, hostTest, hostArith32, hostTest32⟩

end FloatOps

def BinOp.floatOp? : BinOp → Option FloatOp
  | .fadd => some .add
  | .fsub => some .sub
  | .fmul => some .mul
  | .fdiv => some .div
  | _ => none

/-! ## instructions without effects -/

/-- integer arithmetic on a word; it wraps -/
def BinOp.onWord (op : BinOp) (x y : UInt64) : UInt64 :=
  match op with
  | .iadd => x + y
  | .isub => x - y
  | .imul => x * y
  | .band => x &&& y
  | .bor => x ||| y
  | _ => 0

def evalBinary (F : FloatOps) (op : BinOp) (t : Ty) (x y : Val) : Val :=
  match op.floatOp? with
  | none => Val.keep t ⟨op.onWord x.lo y.lo, op.onWord x.hi y.hi⟩
  | some o =>
    match t with
    | .f32 => ⟨(F.arith32 o x.lo.toUInt32 y.lo.toUInt32).toUInt64, 0⟩
    | .f64x2 => ⟨F.arith o x.lo y.lo, F.arith o x.hi y.hi⟩
    | _ => ⟨F.arith o x.lo y.lo, 0⟩

def IntCond.holds (c : IntCond) (sx sy : Int) (ux uy : Nat) : Bool :=
  match c with
  | .eq => ux == uy
  | .ne => ux != uy
  | .slt => decide (sx < sy)
  | .sle => decide (sx ≤ sy)
  | .sgt => decide (sy < sx)
  | .sge => decide (sy ≤ sx)
  | .ult => decide (ux < uy)
  | .ule => decide (ux ≤ uy)
  | .ugt => decide (uy < ux)
  | .uge => decide (uy ≤ ux)

def evalICmp (c : IntCond) (t : Ty) (x y : Val) : Val :=
  Val.ofBool <|
    if t = .i32 then
      let a := x.lo.toUInt32
      let b := y.lo.toUInt32
      c.holds a.toInt32.toInt b.toInt32.toInt a.toNat b.toNat
    else c.holds x.lo.toInt64.toInt y.lo.toInt64.toInt x.lo.toNat y.lo.toNat

def laneMask (b : Bool) : UInt64 := if b then 0xFFFFFFFFFFFFFFFF else 0

def evalFCmp (F : FloatOps) (c : FloatCond) (t : Ty) (x y : Val) : Val :=
  match t with
  | .f64x2 => ⟨laneMask (F.test c x.lo y.lo), laneMask (F.test c x.hi y.hi)⟩
  | .f32 => Val.ofBool (F.test32 c x.lo.toUInt32 y.lo.toUInt32)
  | _ => Val.ofBool (F.test c x.lo y.lo)

def evalLane (lane : Nat) (x : Val) : Val := ⟨if lane = 0 then x.lo else x.hi, 0⟩

/-! ## memory -/

def addressOf (base : UInt64) (off : Int32) : UInt64 := base + off.toInt64.toUInt64

def readVal (m : Memory) (t : Ty) (a : UInt64) : Val :=
  if t.isVector then ⟨UInt64.ofNat (m.read 8 a), UInt64.ofNat (m.read 8 (a + 8))⟩
  else ⟨UInt64.ofNat (m.read t.bytes a), 0⟩

def writeVal (m : Memory) (t : Ty) (a : UInt64) (v : Val) : Memory :=
  if t.isVector then (m.write 8 a v.lo.toNat).write 8 (a + 8) v.hi.toNat
  else m.write t.bytes a v.lo.toNat

end TreeJit.SSA
