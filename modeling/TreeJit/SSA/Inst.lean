import TreeJit.SSA.Ty

/-!
# Instructions

An instruction names its operands by number: values, blocks, stack slots and imported functions
are numbered from 0 in the order of their creation.  `Step` is an instruction with the numbers of
its results.  `Opcode` is the plain list of operations, for messages and listings.
-/

namespace TreeJit.SSA

inductive Opcode where
  | iconst | fconst
  | iadd | isub | imul | band | bor | icmp
  | fadd | fsub | fmul | fdiv | fcmp
  | splat | extractLane
  | load | store | stackLoad | stackStore | stackAddr
  | call | jump | brif | ret
  deriving DecidableEq, Repr

namespace Opcode

/-- the operations in the order of their numbers, from 1 -/
def all : List Opcode :=
  [.iconst, .fconst, .iadd, .isub, .imul, .band, .bor, .icmp, .fadd, .fsub, .fmul, .fdiv, .fcmp,
    .splat, .extractLane, .load, .store, .stackLoad, .stackStore, .stackAddr, .call, .jump, .brif,
    .ret]

def name : Opcode → String
  | .iconst => "iconst"
  | .fconst => "fconst"
  | .iadd => "iadd"
  | .isub => "isub"
  | .imul => "imul"
  | .band => "band"
  | .bor => "bor"
  | .icmp => "icmp"
  | .fadd => "fadd"
  | .fsub => "fsub"
  | .fmul => "fmul"
  | .fdiv => "fdiv"
  | .fcmp => "fcmp"
  | .splat => "splat"
  | .extractLane => "extractlane"
  | .load => "load"
  | .store => "store"
  | .stackLoad => "stack_load"
  | .stackStore => "stack_store"
  | .stackAddr => "stack_addr"
  | .call => "call"
  | .jump => "jump"
  | .brif => "brif"
  | .ret => "return"

def isTerminator : Opcode → Bool
  | .jump | .brif | .ret => true
  | _ => false

/-- the operation of a number; number 0 is reserved -/
def ofCode? (n : Nat) : Option Opcode := if n = 0 then none else all[n - 1]?

def nameOfCode (n : Nat) : String :=
  match ofCode? n with
  | some o => o.name
  | none => if n = 0 then "invalid" else s!"op({n})"

end Opcode

/-! ## conditions -/

inductive IntCond where
  | eq | ne | slt | sle | sgt | sge | ult | ule | ugt | uge
  deriving DecidableEq, Repr

def IntCond.all : List IntCond := [.eq, .ne, .slt, .sle, .sgt, .sge, .ult, .ule, .ugt, .uge]

def IntCond.name : IntCond → String
  | .eq => "eq"
  | .ne => "ne"
  | .slt => "slt"
  | .sle => "sle"
  | .sgt => "sgt"
  | .sge => "sge"
  | .ult => "ult"
  | .ule => "ule"
  | .ugt => "ugt"
  | .uge => "uge"

def IntCond.ofCode? (n : UInt8) : Option IntCond := IntCond.all[n.toNat]?

def IntCond.code : IntCond → UInt8
  | .eq => 0
  | .ne => 1
  | .slt => 2
  | .sle => 3
  | .sgt => 4
  | .sge => 5
  | .ult => 6
  | .ule => 7
  | .ugt => 8
  | .uge => 9

theorem IntCond.ofCode?_code (c : IntCond) : IntCond.ofCode? c.code = some c := by
  cases c <;> rfl

def IntCond.nameOfCode (n : UInt8) : String :=
  match IntCond.ofCode? n with
  | some c => c.name
  | none => s!"intcc({n})"

/-- float comparisons; all but `ne` are false when an operand is not a number -/
inductive FloatCond where
  | eq | ne | lt | le | gt | ge
  deriving DecidableEq, Repr

def FloatCond.all : List FloatCond := [.eq, .ne, .lt, .le, .gt, .ge]

def FloatCond.name : FloatCond → String
  | .eq => "eq"
  | .ne => "ne"
  | .lt => "lt"
  | .le => "le"
  | .gt => "gt"
  | .ge => "ge"

def FloatCond.ofCode? (n : UInt8) : Option FloatCond := FloatCond.all[n.toNat]?

def FloatCond.code : FloatCond → UInt8
  | .eq => 0
  | .ne => 1
  | .lt => 2
  | .le => 3
  | .gt => 4
  | .ge => 5

theorem FloatCond.ofCode?_code (c : FloatCond) : FloatCond.ofCode? c.code = some c := by
  cases c <;> rfl

def FloatCond.nameOfCode (n : UInt8) : String :=
  match FloatCond.ofCode? n with
  | some c => c.name
  | none => s!"floatcc({n})"

/-! ## instructions -/

inductive BinOp where
  | iadd | isub | imul | band | bor | fadd | fsub | fmul | fdiv
  deriving DecidableEq, Repr

def BinOp.opcode : BinOp → Opcode
  | .iadd => .iadd
  | .isub => .isub
  | .imul => .imul
  | .band => .band
  | .bor => .bor
  | .fadd => .fadd
  | .fsub => .fsub
  | .fmul => .fmul
  | .fdiv => .fdiv

def BinOp.allows : BinOp → Ty → Bool
  | .iadd, t => t.isWideInt || t == .i64x2
  | .isub, t => t.isWideInt || t == .i64x2
  | .imul, t => t.isWideInt
  | .band, t => t.isInt || t == .i64x2
  | .bor, t => t.isInt || t == .i64x2
  | .fadd, t => t.isFloat || t == .f64x2
  | .fsub, t => t.isFloat || t == .f64x2
  | .fmul, t => t.isFloat || t == .f64x2
  | .fdiv, t => t.isFloat || t == .f64x2

abbrev ValueNo := Nat

/-- a branch to a block, with a value for each of its parameters -/
structure Target where
  block : Nat
  args : List ValueNo
  deriving DecidableEq

inductive Inst where
  | iconst (ty : Ty) (bits : UInt64)
  | fconst (ty : Ty) (bits : UInt64)
  | binary (op : BinOp) (ty : Ty) (x y : ValueNo)
  | icmp (cc : IntCond) (ty : Ty) (x y : ValueNo)
  | fcmp (cc : FloatCond) (ty : Ty) (x y : ValueNo)
  | splat (ty : Ty) (x : ValueNo)
  | extractLane (ty : Ty) (x : ValueNo) (lane : Nat)
  | load (ty : Ty) (ptr : ValueNo) (offset : Int32)
  | store (ty : Ty) (x ptr : ValueNo) (offset : Int32)
  | stackLoad (ty : Ty) (slot : Nat) (offset : Int32)
  | stackStore (ty : Ty) (x : ValueNo) (slot : Nat) (offset : Int32)
  | stackAddr (slot : Nat) (offset : Int32)
  | call (fn : Nat) (args : List ValueNo)
  | jump (dest : Target)
  | brif (ty : Ty) (cond : ValueNo) (yes no : Target)
  | ret (args : List ValueNo)
  deriving DecidableEq

def Inst.opcode : Inst → Opcode
  | .iconst .. => .iconst
  | .fconst .. => .fconst
  | .binary op .. => op.opcode
  | .icmp .. => .icmp
  | .fcmp .. => .fcmp
  | .splat .. => .splat
  | .extractLane .. => .extractLane
  | .load .. => .load
  | .store .. => .store
  | .stackLoad .. => .stackLoad
  | .stackStore .. => .stackStore
  | .stackAddr .. => .stackAddr
  | .call .. => .call
  | .jump _ => .jump
  | .brif .. => .brif
  | .ret _ => .ret

def Inst.targets : Inst → List Target
  | .jump t => [t]
  | .brif _ _ yes no => [yes, no]
  | _ => []

def Inst.isTerminator (i : Inst) : Bool := i.opcode.isTerminator

/-- an instruction and the numbers of its results -/
structure Step where
  inst : Inst
  results : List ValueNo
  deriving DecidableEq

end TreeJit.SSA
