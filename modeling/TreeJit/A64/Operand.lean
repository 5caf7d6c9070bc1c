import TreeJit.Code.Chunk

/-!
# AArch64 operands

General registers are numbered 0 to 30; number 31 is the stack pointer or the zero register,
depending on the instruction.  Vector registers are numbered 0 to 31.  Loads and stores address a
base register plus an offset that is a non-negative multiple of the access width, at most 4095
times it (`encodable`).
-/

namespace TreeJit.A64

/-- the width of a register operand; `none` is the operand that was never set -/
inductive Width where
  | none
  | w32
  | w64
  deriving DecidableEq, Repr

def Width.bits : Width → Nat
  | .none => 0
  | .w32 => 32
  | .w64 => 64

abbrev RegId := Int

/-- the stack pointer, or the zero register -/
def sp : RegId := 31

structure Reg where
  id : RegId
  width : Width
  deriving DecidableEq

def Reg.x (id : RegId) : Reg := ⟨id, .w64⟩
def Reg.w (id : RegId) : Reg := ⟨id, .w32⟩

abbrev VReg := UInt8

structure Mem where
  base : Option Reg
  disp : Int32
  deriving DecidableEq

def Mem.at (base : RegId) (disp : Int32) : Mem := ⟨some (.x base), disp⟩

inductive Precision where
  | single
  | double
  deriving DecidableEq, Repr

/-- number 1 selects double precision, every other number single precision -/
def Precision.ofCode (n : UInt8) : Precision := if n = 1 then .double else .single

inductive Fault where
  | register (id : RegId)
  | registerWidth (w : Width)
  | mixedWidths
  | vector (v : VReg)
  | immediate (imm : UInt32)
  | bitfield (lsb width : UInt32)
  | noBase
  | baseWidth
  | offset (disp : Int32) (width : Nat)
  | accessWidth (n : Int)
  | vectorAccessWidth (n : Int)
  | wideLoad
  | symbolWidth
  | emptySymbol
  | stackAddWidth
  | callWidth
  | dupWidth (w : Width)
  | alignment (n : Int)
  deriving DecidableEq

def Fault.message : Fault → String
  | .register id => s!"arm64: invalid register {id}"
  | .registerWidth w => s!"arm64: unsupported register width {w.bits}"
  | .mixedWidths => "arm64 asm: mixed register widths"
  | .vector v => s!"arm64: invalid vector register {v}"
  | .immediate imm => s!"arm64 asm: immediate out of range ({imm})"
  | .bitfield lsb width => s!"arm64 asm: invalid ubfx #{lsb}, #{width}"
  | .noBase => "arm64 asm: memory reference missing base register"
  | .baseWidth => "arm64 asm: base register must be 64-bit"
  | .offset disp width => s!"arm64 asm: offset {disp} not encodable for {width}-byte access"
  | .accessWidth n => s!"arm64 asm: unsupported access width {n}"
  | .vectorAccessWidth n => s!"arm64 asm: unsupported vector access width {n}"
  | .wideLoad => "arm64 asm: 8-byte load into 32-bit register"
  | .symbolWidth => "arm64 asm: symbol load requires 64-bit register"
  | .emptySymbol => "arm64 asm: empty symbol name"
  | .stackAddWidth => "arm64 asm: add from sp requires 64-bit registers"
  | .callWidth => "arm64 asm: call target must be 64-bit"
  | .dupWidth w => s!"arm64 asm: dup from {w.bits}-bit register"
  | .alignment n => s!"arm64 asm: invalid alignment {n}"

/-! ## checks and fields -/

def Reg.check (r : Reg) : Except Fault Unit :=
  if r.id < 0 ∨ 31 < r.id then .error (.register r.id)
  else if r.width = .none then .error (.registerWidth r.width)
  else .ok ()

def VReg.check (v : VReg) : Except Fault Unit := if v ≤ 31 then .ok () else .error (.vector v)

/-- every register is sound and has the width of the first -/
def sameWidth (regs : List Reg) : Except Fault Unit :=
  regs.forM fun r => do
    r.check
    if some r.width ≠ regs.head?.map Reg.width then .error .mixedWidths

def Reg.sf (r : Reg) : UInt32 := if r.width = .w64 then 0x80000000 else 0

def Reg.field (r : Reg) : UInt32 := UInt32.ofNat (r.id % 32).toNat

def Mem.check (m : Mem) : Except Fault Reg :=
  match m.base with
  | none => .error .noBase
  | some b => do
    if b.width ≠ .w64 then .error .baseWidth
    b.check
    return b

/-- whether an offset fits a load or store of `width` bytes.  The width is cut to 32 bits; when
nothing is left of it the division fails and there is no answer. -/
def encodable? (disp : Int32) (width : Int64) : Option Bool :=
  if disp < 0 ∨ width ≤ 0 then some false
  else if width.toInt32 = 0 then none
  else some (decide (disp % width.toInt32 = 0 ∧ disp / width.toInt32 ≤ 0xFFF))

def encodable (disp : Int32) (width : Nat) : Bool := encodable? disp (Int64.ofNat width) == some true

/-! ## condition codes -/

abbrev Cond := UInt8

def condEQ : Cond := 0x0
def condNE : Cond := 0x1
def condHS : Cond := 0x2
def condLO : Cond := 0x3
def condMI : Cond := 0x4
def condHI : Cond := 0x8
def condLS : Cond := 0x9
def condGE : Cond := 0xA
def condLT : Cond := 0xB
def condGT : Cond := 0xC
def condLE : Cond := 0xD

def Cond.invert (c : Cond) : Cond := c ^^^ 1

theorem Cond.invert_invert (c : Cond) : Cond.invert (Cond.invert c) = c := by
  unfold Cond.invert
  rw [UInt8.xor_assoc]
  exact UInt8.xor_zero

end TreeJit.A64
