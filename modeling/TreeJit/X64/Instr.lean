import TreeJit.X64.Operand

/-!
# x86-64 instructions

The instructions the assembler knows, as data.  Register-to-register operations of one shape share
a constructor and differ in an operation code with a mnemonic: `AluOp`, `AluImmOp`, `SseOp`;
loads and stores of SSE registers differ in how much they move (`XForm`).
-/

namespace TreeJit.X64

inductive AluOp where
  | add | or | and | sub | xor | cmp | test
  deriving DecidableEq, Repr

def AluOp.all : List AluOp := [.add, .or, .and, .sub, .xor, .cmp, .test]

def AluOp.mnemonic : AluOp → String
  | .add => "add"
  | .or => "or"
  | .and => "and"
  | .sub => "sub"
  | .xor => "xor"
  | .cmp => "cmp"
  | .test => "test"

def AluOp.opcode : AluOp → UInt8
  | .add => 0x01
  | .or => 0x09
  | .and => 0x21
  | .sub => 0x29
  | .xor => 0x31
  | .cmp => 0x39
  | .test => 0x85

inductive AluImmOp where
  | add | sub | cmp
  deriving DecidableEq, Repr

def AluImmOp.all : List AluImmOp := [.add, .sub, .cmp]

def AluImmOp.mnemonic : AluImmOp → String
  | .add => "add"
  | .sub => "sub"
  | .cmp => "cmp"

/-- the operation's digit in the `reg` field -/
def AluImmOp.digit : AluImmOp → UInt8
  | .add => 0
  | .sub => 5
  | .cmp => 7

/-- what an SSE load or store moves: one single, one double, or sixteen bytes at any address -/
inductive XForm where
  | ss | sd | upd
  deriving DecidableEq, Repr

def XForm.all : List XForm := [.ss, .sd, .upd]

def XForm.mnemonic : XForm → String
  | .ss => "movss"
  | .sd => "movsd"
  | .upd => "movupd"

def XForm.legacy : XForm → List UInt8
  | .ss => [0xF3]
  | .sd => [0xF2]
  | .upd => [0x66]

inductive SseOp where
  | addsd | subsd | mulsd | divsd
  | addss | subss | mulss | divss
  | addpd | subpd | mulpd | divpd
  | ucomisd | ucomiss | unpcklpd | punpcklqdq
  | paddq | psubq | pand | por | pxor
  deriving DecidableEq, Repr

def SseOp.all : List SseOp :=
  [.addsd, .subsd, .mulsd, .divsd, .addss, .subss, .mulss, .divss, .addpd, .subpd, .mulpd, .divpd,
    .ucomisd, .ucomiss, .unpcklpd, .punpcklqdq, .paddq, .psubq, .pand, .por, .pxor]

def SseOp.mnemonic : SseOp → String
  | .addsd => "addsd"
  | .subsd => "subsd"
  | .mulsd => "mulsd"
  | .divsd => "divsd"
  | .addss => "addss"
  | .subss => "subss"
  | .mulss => "mulss"
  | .divss => "divss"
  | .addpd => "addpd"
  | .subpd => "subpd"
  | .mulpd => "mulpd"
  | .divpd => "divpd"
  | .ucomisd => "ucomisd"
  | .ucomiss => "ucomiss"
  | .unpcklpd => "unpcklpd"
  | .punpcklqdq => "punpcklqdq"
  | .paddq => "paddq"
  | .psubq => "psubq"
  | .pand => "pand"
  | .por => "por"
  | .pxor => "pxor"

def SseOp.opcode : SseOp → List UInt8 × UInt8
  | .addsd => ([0xF2], 0x58)
  | .subsd => ([0xF2], 0x5C)
  | .mulsd => ([0xF2], 0x59)
  | .divsd => ([0xF2], 0x5E)
  | .addss => ([0xF3], 0x58)
  | .subss => ([0xF3], 0x5C)
  | .mulss => ([0xF3], 0x59)
  | .divss => ([0xF3], 0x5E)
  | .addpd => ([0x66], 0x58)
  | .subpd => ([0x66], 0x5C)
  | .mulpd => ([0x66], 0x59)
  | .divpd => ([0x66], 0x5E)
  | .ucomisd => ([0x66], 0x2E)
  | .ucomiss => ([], 0x2E)
  | .unpcklpd => ([0x66], 0x14)
  | .punpcklqdq => ([0x66], 0x6C)
  | .paddq => ([0x66], 0xD4)
  | .psubq => ([0x66], 0xFB)
  | .pand => ([0x66], 0xDB)
  | .por => ([0x66], 0xEB)
  | .pxor => ([0x66], 0xEF)

inductive Instr where
  /-- load a constant, with the shortest encoding that keeps it -/
  | movImm (dst : Reg) (value : Int64)
  /-- load the address of a symbol -/
  | movSymbol (dst : RegId) (name : String)
  | movReg (dst src : Reg)
  | store (dst : Mem) (src : Reg)
  | load (dst : Reg) (src : Mem)
  /-- load one or two bytes, the rest of the register zero -/
  | loadZx (dst : Reg) (src : Mem) (width : Int)
  | zx8 (dst src : Reg)
  | zx16 (dst src : Reg)
  | alu (op : AluOp) (dst src : Reg)
  | imul (dst src : Reg)
  | aluImm (op : AluImmOp) (dst : Reg) (imm : Int32)
  | lea (dst : Reg) (src : Mem)
  | setcc (cond : Cond) (dst : Reg)
  | push (reg : RegId)
  | pop (reg : RegId)
  | ret
  | call (reg : RegId)
  | jump (label : String)
  | jumpIf (cond : Cond) (label : String)
  /-- single-byte no-operations up to a multiple of the boundary -/
  | align (boundary : Int)
  | xload (form : XForm) (dst : XReg) (src : Mem)
  | xstore (form : XForm) (dst : Mem) (src : XReg)
  | sse (op : SseOp) (dst src : XReg)
  | cmppd (dst src : XReg) (predicate : UInt8)
  | movqToX (dst : XReg) (src : Reg)
  | movqFromX (dst : Reg) (src : XReg)
  deriving DecidableEq

def Instr.label? : Instr → Option String
  | .jump l => some l
  | .jumpIf _ l => some l
  | _ => none

end TreeJit.X64
