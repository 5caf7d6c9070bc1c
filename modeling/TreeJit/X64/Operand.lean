import TreeJit.Code.Chunk

/-!
# x86-64 operands

Registers are numbered `rax rbx rcx rdx rsi rdi rsp rbp r8 … r15` from 0; any other number names
no register.  `RegCode.of` gives the machine's own numbering.  A register operand carries the
width it is used with; a memory operand is a base register plus a displacement.
-/

namespace TreeJit.X64

/-- the width of a register operand; `none` is the operand that was never set -/
inductive Width where
  | none
  | w8
  | w16
  | w32
  | w64
  deriving DecidableEq, Repr

def Width.bits : Width → Nat
  | .none => 0
  | .w8 => 8
  | .w16 => 16
  | .w32 => 32
  | .w64 => 64

abbrev RegId := Int

def rax : RegId := 0
def rbx : RegId := 1
def rcx : RegId := 2
def rdx : RegId := 3
def rsi : RegId := 4
def rdi : RegId := 5
def rsp : RegId := 6
def rbp : RegId := 7
def r8 : RegId := 8
def r9 : RegId := 9
def r11 : RegId := 11

structure Reg where
  id : RegId
  width : Width
  deriving DecidableEq

def Reg.r64 (id : RegId) : Reg := ⟨id, .w64⟩
def Reg.r32 (id : RegId) : Reg := ⟨id, .w32⟩
def Reg.r16 (id : RegId) : Reg := ⟨id, .w16⟩
def Reg.r8 (id : RegId) : Reg := ⟨id, .w8⟩

def Reg.text (r : Reg) : String := s!"r{r.id}/{r.width.bits}"

abbrev XReg := UInt8

structure Mem where
  base : Option Reg
  disp : Int32
  deriving DecidableEq

def Mem.at (base : RegId) (disp : Int32) : Mem := ⟨some (.r64 base), disp⟩

inductive Fault where
  | register (id : RegId)
  | xmm (x : XReg)
  | noBase
  | baseWidth
  | mixedWidths (a b : Width)
  | aluWidth (w : Width)
  | aluImmWidth (w : Width)
  | immWidth (w : Width)
  | loadWidth (w : Width)
  | zxWidth (n : Int)
  | leaWidth
  | setccWidth
  | emptySymbol
  | predicate (p : UInt8)
  | alignment (n : Int)
  deriving DecidableEq

def Fault.message : Fault → String
  | .register id => s!"unsupported register {id}"
  | .xmm x => s!"amd64 asm: invalid xmm register {x}"
  | .noBase => "memory operand requires base register"
  | .baseWidth => "base register must be 64-bit"
  | .mixedWidths a b => s!"operand width mismatch: {a.bits}-bit vs {b.bits}-bit"
  | .aluWidth w => s!"amd64 asm: alu op on {w.bits}-bit registers"
  | .aluImmWidth w => s!"amd64 asm: alu immediate on {w.bits}-bit register"
  | .immWidth w => s!"amd64 asm: immediate load into {w.bits}-bit register"
  | .loadWidth w => s!"amd64 asm: use MovZX for {w.bits}-bit loads"
  | .zxWidth n => s!"amd64 asm: movzx width {n}"
  | .leaWidth => "amd64 asm: lea requires 64-bit destination"
  | .setccWidth => "amd64 asm: setcc requires 8-bit destination"
  | .emptySymbol => "amd64 asm: empty symbol name"
  | .predicate p => s!"amd64 asm: cmppd predicate {p}"
  | .alignment n => s!"amd64 asm: alignment {n} is not a power of two"

/-- the machine's number of a register: three bits, a fourth one kept apart, and whether its low
byte can only be named with a REX byte -/
structure RegCode where
  code : UInt8
  high : Bool
  byteRex : Bool
  deriving DecidableEq

def RegCode.of? (id : RegId) : Option RegCode :=
  match id with
  | 0 => some ⟨0, false, false⟩
  | 1 => some ⟨3, false, false⟩
  | 2 => some ⟨1, false, false⟩
  | 3 => some ⟨2, false, false⟩
  | 4 => some ⟨6, false, true⟩
  | 5 => some ⟨7, false, true⟩
  | 6 => some ⟨4, false, true⟩
  | 7 => some ⟨5, false, true⟩
  | 8 => some ⟨0, true, true⟩
  | 9 => some ⟨1, true, true⟩
  | 10 => some ⟨2, true, true⟩
  | 11 => some ⟨3, true, true⟩
  | 12 => some ⟨4, true, true⟩
  | 13 => some ⟨5, true, true⟩
  | 14 => some ⟨6, true, true⟩
  | 15 => some ⟨7, true, true⟩
  | _ => none

def RegCode.of (id : RegId) : Except Fault RegCode :=
  match RegCode.of? id with
  | some c => .ok c
  | none => .error (.register id)

def RegCode.ofX (x : XReg) : Except Fault RegCode :=
  if x ≤ 15 then .ok ⟨x &&& 7, decide (8 ≤ x), false⟩ else .error (.xmm x)

/-! ## condition codes -/

abbrev Cond := UInt8

def condB : Cond := 0x2
def condAE : Cond := 0x3
def condE : Cond := 0x4
def condNE : Cond := 0x5
def condBE : Cond := 0x6
def condA : Cond := 0x7
def condP : Cond := 0xA
def condNP : Cond := 0xB
def condL : Cond := 0xC
def condGE : Cond := 0xD
def condLE : Cond := 0xE
def condG : Cond := 0xF

end TreeJit.X64
