import TreeJit.Code.Listing

/-!
# Reading x86-64 code

A decoder for the instructions of the lowering.  It knows the format and nothing of the encoder: an
instruction is read from the left as legacy bytes, a REX byte, the opcode, ModRM, SIB, displacement
and immediate.

* `readHead`     legacy bytes, REX and opcode;
* `readModRM`    the two operands of a ModRM byte;
* `decodeOne`    one instruction and the bytes behind it;
* `decodeAll`    code that holds nothing but instructions.

What the bytes do not say is not made up: a byte register numbered 4 to 7 without REX would be one
of `ah ch dh bh`, a base numbered 5 without displacement would be the instruction pointer, and both
are refused, like every form with an index register.
-/

namespace TreeJit.X64

/-! ## prefixes and opcode -/

/-- the bits of a REX byte -/
structure Rex where
  w : Bool
  r : Bool
  x : Bool
  b : Bool
  deriving DecidableEq

def isLegacy (b : UInt8) : Bool := b == 0x66 || b == 0xF2 || b == 0xF3

def readRex : List UInt8 → Option Rex × List UInt8
  | [] => (none, [])
  | b :: bs =>
    if b &&& 0xF0 = 0x40 then
      (some ⟨b &&& 8 != 0, b &&& 4 != 0, b &&& 2 != 0, b &&& 1 != 0⟩, bs)
    else (none, b :: bs)

/-- what stands in front of the operands -/
structure Head where
  legacy : List UInt8
  rex : Option Rex
  /-- whether the opcode follows `0x0F` -/
  escaped : Bool
  op : UInt8

namespace Head

def w (h : Head) : Bool := h.rex.any Rex.w

def r (h : Head) : Bool := h.rex.any Rex.r

def x (h : Head) : Bool := h.rex.any Rex.x

def b (h : Head) : Bool := h.rex.any Rex.b

def isGpr (h : Head) : Bool := h.legacy == [] || h.legacy == [0x66]

def width (h : Head) : Width :=
  if h.w then .w64 else if h.legacy = [0x66] then .w16 else .w32

end Head

def readHead (bs : List UInt8) : Option (Head × List UInt8) :=
  match readRex (bs.dropWhile isLegacy) with
  | (rex, b :: rest) =>
    if b = 0x0F then
      match rest with
      | op :: rest => some (⟨bs.takeWhile isLegacy, rex, true, op⟩, rest)
      | [] => none
    else some (⟨bs.takeWhile isLegacy, rex, false, b⟩, rest)
  | (_, []) => none

/-! ## operands -/

/-- the general-purpose register of a machine number: three bits and a fourth one kept apart -/
def gpr (high : Bool) (code : UInt8) : RegId :=
  if high then 8 + code.toNat
  else
    match code with
    | 0 => rax
    | 1 => rcx
    | 2 => rdx
    | 3 => rbx
    | 4 => rsp
    | 5 => rbp
    | 6 => rsi
    | _ => rdi

/-- the low byte of a register -/
def Head.byteReg (h : Head) (high : Bool) (code : UInt8) : Option Reg :=
  if h.rex = none ∧ 4 ≤ code then none else some (.r8 (gpr high code))

def xmm (high : Bool) (code : UInt8) : XReg := if high then 8 + code else code

def readNumber (n : Nat) (bs : List UInt8) : Option (Nat × List UInt8) :=
  if n ≤ bs.length then some (ofLittleEndian (bs.take n), bs.drop n) else none

def readInt8 : List UInt8 → Option (Int32 × List UInt8)
  | [] => none
  | b :: bs => some (b.toInt8.toInt32, bs)

def readInt32 (bs : List UInt8) : Option (Int32 × List UInt8) :=
  (readNumber 4 bs).map fun (n, rest) => ((UInt32.ofNat n).toInt32, rest)

/-- the displacement of a memory operand in a mode -/
def readDisp (mode : UInt8) (bs : List UInt8) : Option (Int32 × List UInt8) :=
  match mode with
  | 0 => some (0, bs)
  | 1 => readInt8 bs
  | 2 => readInt32 bs
  | _ => none

/-- the number of the base of a memory operand, after a SIB byte if there is one -/
def Head.readBase (h : Head) (mode rm : UInt8) (bs : List UInt8) : Option (UInt8 × List UInt8) :=
  if rm = 4 then
    match bs with
    | sib :: bs =>
      if h.x = true ∨ (sib >>> 3) &&& 7 ≠ 4 ∨ (mode = 0 ∧ sib &&& 7 = 5) then none
      else some (sib &&& 7, bs)
    | [] => none
  else if mode = 0 ∧ rm = 5 then none
  else some (rm, bs)

inductive RmField where
  | reg (high : Bool) (code : UInt8)
  | mem (m : Mem)

structure Operands where
  /-- the three bits of the `reg` half -/
  reg : UInt8
  rm : RmField

def Head.readModRM (h : Head) : List UInt8 → Option (Operands × List UInt8)
  | [] => none
  | m :: bs =>
    if m >>> 6 = 3 then some (⟨(m >>> 3) &&& 7, .reg h.b (m &&& 7)⟩, bs)
    else do
      let (base, bs) ← h.readBase (m >>> 6) (m &&& 7) bs
      let (disp, bs) ← readDisp (m >>> 6) bs
      return (⟨(m >>> 3) &&& 7, .mem (.at (gpr h.b base) disp)⟩, bs)

/-! ## operations -/

def aluOp? : UInt8 → Option AluOp
  | 0x01 => some .add
  | 0x09 => some .or
  | 0x21 => some .and
  | 0x29 => some .sub
  | 0x31 => some .xor
  | 0x39 => some .cmp
  | 0x85 => some .test
  | _ => none

def aluImmOp? : UInt8 → Option AluImmOp
  | 0 => some .add
  | 5 => some .sub
  | 7 => some .cmp
  | _ => none

def xform? : List UInt8 → Option XForm
  | [0xF3] => some .ss
  | [0xF2] => some .sd
  | [0x66] => some .upd
  | _ => none

/-- the SSE operation of an opcode, by its legacy bytes -/
def sseOp? : List UInt8 → UInt8 → Option SseOp
  | [], 0x2E => some .ucomiss
  | [0xF2], 0x58 => some .addsd
  | [0xF2], 0x59 => some .mulsd
  | [0xF2], 0x5C => some .subsd
  | [0xF2], 0x5E => some .divsd
  | [0xF3], 0x58 => some .addss
  | [0xF3], 0x59 => some .mulss
  | [0xF3], 0x5C => some .subss
  | [0xF3], 0x5E => some .divss
  | [0x66], 0x14 => some .unpcklpd
  | [0x66], 0x2E => some .ucomisd
  | [0x66], 0x58 => some .addpd
  | [0x66], 0x59 => some .mulpd
  | [0x66], 0x5C => some .subpd
  | [0x66], 0x5E => some .divpd
  | [0x66], 0x6C => some .punpcklqdq
  | [0x66], 0xD4 => some .paddq
  | [0x66], 0xDB => some .pand
  | [0x66], 0xEB => some .por
  | [0x66], 0xEF => some .pxor
  | [0x66], 0xFB => some .psubq
  | _, _ => none

/-- opcodes without ModRM; but for the return, three of their bits are a register -/
def isShortOp (op : UInt8) : Bool :=
  op == 0xC3 || op &&& 0xF8 == 0x50 || op &&& 0xF8 == 0x58 || op &&& 0xF8 == 0xB8

def Head.isShort (h : Head) : Bool := !h.escaped && isShortOp h.op

def Head.shortForm (h : Head) (bs : List UInt8) : Option (Instr × List UInt8) :=
  let id := gpr h.b (h.op &&& 7)
  if h.legacy ≠ [] then none
  else if h.op = 0xC3 then some (.ret, bs)
  else if h.op &&& 0xF8 = 0x50 then some (.push id, bs)
  else if h.op &&& 0xF8 = 0x58 then some (.pop id, bs)
  else (readNumber (if h.w then 8 else 4) bs).map fun (n, rest) =>
    (.movImm ⟨id, h.width⟩ (UInt64.ofNat n).toInt64, rest)

/-- one-byte opcodes with ModRM -/
def Head.plainForm (h : Head) (m : Operands) (bs : List UInt8) : Option (Instr × List UInt8) :=
  if h.isGpr = false then none
  else
    let reg : Reg := ⟨gpr h.r m.reg, h.width⟩
    match h.op, m.rm with
    | 0x88, .reg hi c => do return (.movReg (← h.byteReg hi c) (← h.byteReg h.r m.reg), bs)
    | 0x88, .mem a => do return (.store a (← h.byteReg h.r m.reg), bs)
    | 0x89, .reg hi c => some (.movReg ⟨gpr hi c, h.width⟩ reg, bs)
    | 0x89, .mem a => some (.store a reg, bs)
    | 0x8B, .mem a => some (.load reg a, bs)
    | 0x8D, .mem a => some (.lea reg a, bs)
    | 0x83, .reg hi c => do
      let (imm, bs) ← readInt8 bs
      return (.aluImm (← aluImmOp? m.reg) ⟨gpr hi c, h.width⟩ imm, bs)
    | 0x81, .reg hi c => do
      let (imm, bs) ← readInt32 bs
      return (.aluImm (← aluImmOp? m.reg) ⟨gpr hi c, h.width⟩ imm, bs)
    | 0xFF, .reg hi c => if m.reg = 2 then some (.call (gpr hi c), bs) else none
    | op, .reg hi c => do return (.alu (← aluOp? op) ⟨gpr hi c, h.width⟩ reg, bs)
    | _, .mem _ => none

/-- opcodes behind `0x0F` -/
def Head.escapedForm (h : Head) (m : Operands) (bs : List UInt8) : Option (Instr × List UInt8) :=
  let reg : Reg := ⟨gpr h.r m.reg, h.width⟩
  let x : XReg := xmm h.r m.reg
  if h.op &&& 0xF0 = 0x90 then
    match m.rm with
    | .reg hi c => do return (.setcc (h.op &&& 0x0F) (← h.byteReg hi c), bs)
    | .mem _ => none
  else
    match h.op, m.rm with
    | 0xB6, .reg hi c =>
      if h.isGpr then do return (.zx8 reg (← h.byteReg hi c), bs) else none
    | 0xB6, .mem a => if h.isGpr then some (.loadZx reg a 1, bs) else none
    | 0xB7, .reg hi c => if h.isGpr then some (.zx16 reg (.r16 (gpr hi c)), bs) else none
    | 0xB7, .mem a => if h.isGpr then some (.loadZx reg a 2, bs) else none
    | 0xAF, .reg hi c => if h.isGpr then some (.imul reg ⟨gpr hi c, h.width⟩, bs) else none
    | 0x10, .mem a => do return (.xload (← xform? h.legacy) x a, bs)
    | 0x11, .mem a => do return (.xstore (← xform? h.legacy) a x, bs)
    | 0xC2, .reg hi c =>
      match h.legacy, bs with
      | [0x66], p :: bs => some (.cmppd x (xmm hi c) p, bs)
      | _, _ => none
    | 0x6E, .reg hi c =>
      if h.legacy = [0x66] ∧ h.w = true then some (.movqToX x (.r64 (gpr hi c)), bs) else none
    | 0x7E, .reg hi c =>
      if h.legacy = [0x66] ∧ h.w = true then some (.movqFromX (.r64 (gpr hi c)) x, bs) else none
    | op, .reg hi c => do return (.sse (← sseOp? h.legacy op) x (xmm hi c), bs)
    | _, .mem _ => none

def Head.form (h : Head) (m : Operands) (bs : List UInt8) : Option (Instr × List UInt8) :=
  if h.escaped then h.escapedForm m bs else h.plainForm m bs

def decodeOne (bs : List UInt8) : Option (Instr × List UInt8) := do
  let (h, bs) ← readHead bs
  if h.isShort then h.shortForm bs
  else
    let (m, bs) ← h.readModRM bs
    h.form m bs

/-- at most `n` instructions with their offsets, and nothing behind them -/
def decodeUpTo : Nat → Nat → List UInt8 → Option (List (Nat × Instr))
  | _, _, [] => some []
  | 0, _, _ :: _ => none
  | n + 1, pos, bs => do
    let (i, rest) ← decodeOne bs
    let is ← decodeUpTo n (pos + (bs.length - rest.length)) rest
    return (pos, i) :: is

/-- the instructions of code with their offsets; none is shorter than a byte -/
def decodeAll (bs : List UInt8) : Option (List (Nat × Instr)) := decodeUpTo bs.length 0 bs

end TreeJit.X64
