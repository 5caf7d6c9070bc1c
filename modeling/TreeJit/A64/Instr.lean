import TreeJit.A64.Operand

/-!
# AArch64 instructions

The instructions the assembler knows, as data.  Operations of one shape share a constructor and
differ in an operation code with a mnemonic: `RegOp` (three general registers), `FpOp` (three
scalar registers), `VecOp` (three vector registers).
-/

namespace TreeJit.A64

inductive RegOp where
  | add | sub | and | orr | bic | lslv | mul
  deriving DecidableEq, Repr

def RegOp.all : List RegOp := [.add, .sub, .and, .orr, .bic, .lslv, .mul]

def RegOp.mnemonic : RegOp → String
  | .add => "add"
  | .sub => "sub"
  | .and => "and"
  | .orr => "orr"
  | .bic => "bic"
  | .lslv => "lslv"
  | .mul => "mul"

def RegOp.word : RegOp → UInt32
  | .add => 0x0B000000
  | .sub => 0x4B000000
  | .and => 0x0A000000
  | .orr => 0x2A000000
  | .bic => 0x0A200000
  | .lslv => 0x1AC02000
  | .mul => 0x1B007C00

inductive FpOp where
  | fadd | fsub | fmul | fdiv
  deriving DecidableEq, Repr

def FpOp.all : List FpOp := [.fadd, .fsub, .fmul, .fdiv]

def FpOp.mnemonic : FpOp → String
  | .fadd => "fadd"
  | .fsub => "fsub"
  | .fmul => "fmul"
  | .fdiv => "fdiv"

def FpOp.word : FpOp → UInt32
  | .fadd => 0x1E202800
  | .fsub => 0x1E203800
  | .fmul => 0x1E200800
  | .fdiv => 0x1E201800

/-- operations on three vector registers: two doubles, two 64-bit integers or sixteen bytes -/
inductive VecOp where
  | fadd2d | fsub2d | fmul2d | fdiv2d
  | fcmeq2d | fcmge2d | fcmgt2d
  | add2d | sub2d | and16b | orr16b
  deriving DecidableEq, Repr

def VecOp.all : List VecOp :=
  [.fadd2d, .fsub2d, .fmul2d, .fdiv2d, .fcmeq2d, .fcmge2d, .fcmgt2d, .add2d, .sub2d, .and16b,
    .orr16b]

def VecOp.mnemonic : VecOp → String
  | .fadd2d => "fadd2d"
  | .fsub2d => "fsub2d"
  | .fmul2d => "fmul2d"
  | .fdiv2d => "fdiv2d"
  | .fcmeq2d => "fcmeq2d"
  | .fcmge2d => "fcmge2d"
  | .fcmgt2d => "fcmgt2d"
  | .add2d => "add2d"
  | .sub2d => "sub2d"
  | .and16b => "and16b"
  | .orr16b => "orr16b"

def VecOp.word : VecOp → UInt32
  | .fadd2d => 0x4E60D400
  | .fsub2d => 0x4EE0D400
  | .fmul2d => 0x6E60DC00
  | .fdiv2d => 0x6E60FC00
  | .fcmeq2d => 0x4E60E400
  | .fcmge2d => 0x6E60E400
  | .fcmgt2d => 0x6EE0E400
  | .add2d => 0x4EE08400
  | .sub2d => 0x6EE08400
  | .and16b => 0x4E201C00
  | .orr16b => 0x4EA01C00

inductive Instr where
  /-- load a constant with one to four move-wide words -/
  | movImm (dst : Reg) (value : Int64)
  /-- load the address of a symbol with four move-wide words -/
  | movSymbol (dst : Reg) (name : String)
  | movReg (dst src : Reg)
  /-- add a constant; register 31 is the stack pointer -/
  | addImm (dst src : Reg) (imm : UInt32) (shift12 : Bool)
  | subImm (dst src : Reg) (imm : UInt32) (shift12 : Bool)
  | reg3 (op : RegOp) (dst left right : Reg)
  /-- the stack pointer plus a register -/
  | addSP (dst src : Reg)
  | cmp (left right : Reg)
  | cset (dst : Reg) (cond : Cond)
  | uxtb (dst src : Reg)
  | uxth (dst src : Reg)
  | ubfx (dst src : Reg) (lsb width : UInt32)
  | load (dst : Reg) (src : Mem) (width : Int)
  | store (dst : Mem) (src : Reg) (width : Int)
  /-- push frame pointer and link register -/
  | pushFrame
  /-- pop frame pointer and link register -/
  | popFrame
  | jump (label : String)
  | jumpIf (cond : Cond) (label : String)
  | jumpIfZero (reg : Reg) (label : String)
  | jumpIfNotZero (reg : Reg) (label : String)
  | call (target : Reg)
  | ret
  | nop
  /-- no-operations up to a multiple of the boundary -/
  | align (boundary : Int)
  | fp3 (op : FpOp) (size : Precision) (dst left right : VReg)
  | fcmp (size : Precision) (left right : VReg)
  | vec3 (op : VecOp) (dst left right : VReg)
  | not16b (dst src : VReg)
  | dupElement (dst src : VReg)
  | dupGeneral (dst : VReg) (src : Reg)
  | loadFP (dst : VReg) (src : Mem) (width : Int)
  | storeFP (dst : Mem) (src : VReg) (width : Int)
  /-- read the cache type register -/
  | mrsCTR (dst : Reg)
  /-- clean the data line at an address -/
  | dcCVAU (addr : Reg)
  /-- drop the instruction line at an address -/
  | icIVAU (addr : Reg)
  | dsbISH
  | isb
  deriving DecidableEq

def Instr.label? : Instr → Option String
  | .jump l => some l
  | .jumpIf _ l => some l
  | .jumpIfZero _ l => some l
  | .jumpIfNotZero _ l => some l
  | _ => none

end TreeJit.A64
