import TreeJit.X64.Instr

/-!
# x86-64 encoding

An instruction is laid out as legacy bytes, an optional REX byte, the opcode, a ModRM byte, an
optional SIB byte, the displacement and the immediate.  `modRM` does everything up to the
displacement; `Instr.encode` gives the chunk of an instruction at an offset.

Corners of the format: `rsp` and `r12` as a base take a SIB byte, `rbp` and `r13` as a base always
take a displacement, and the low bytes of `rsp rbp rsi rdi` exist only with a REX byte.
-/

namespace TreeJit.X64

def rexBytes (w r b force : Bool) : List UInt8 :=
  if w || r || b || force then
    [0x40 ||| (if w then 0x08 else 0) ||| (if r then 0x04 else 0) ||| (if b then 0x01 else 0)]
  else []

/-- what stands in the `r/m` half of ModRM: a register, with whether its byte view needs REX, or
memory -/
inductive Rm where
  | reg (code : RegCode) (force : Bool)
  | mem (m : Mem)

def Rm.ofReg (r : Reg) : Except Fault Rm := do
  let c ← RegCode.of r.id
  return .reg c (r.width == .w8 && c.byteRex)

def Rm.ofX (x : XReg) : Except Fault Rm := do
  let c ← RegCode.ofX x
  return .reg c false

def Mem.baseCode (m : Mem) : Except Fault RegCode :=
  match m.base with
  | none => .error .noBase
  | some b => if b.width = .w64 then RegCode.of b.id else .error .baseWidth

/-- mode bits and displacement of a memory operand with base `c` -/
def Mem.dispBytes (m : Mem) (c : RegCode) : UInt8 × List UInt8 :=
  if m.disp = 0 ∧ c.code ≠ 5 then (0x00, [])
  else if -128 ≤ m.disp ∧ m.disp ≤ 127 then (0x40, littleEndian 1 m.disp.toUInt32.toNat)
  else (0x80, littleEndian 4 m.disp.toUInt32.toNat)

def modRM (legacy : List UInt8) (w : Bool) (opcode : List UInt8) (reg : RegCode) (rm : Rm)
    (force : Bool) : Except Fault (List UInt8) := do
  let field := (reg.code &&& 7) <<< 3
  match rm with
  | .reg c f =>
    return legacy ++ rexBytes w reg.high c.high (force || f) ++ opcode ++ [0xC0 ||| field ||| c.code]
  | .mem m =>
    let c ← m.baseCode
    let (mode, disp) := m.dispBytes c
    let sib : List UInt8 := if c.code = 4 then [0x24] else []
    return legacy ++ rexBytes w reg.high c.high force ++ opcode ++ [mode ||| c.code ||| field] ++
      sib ++ disp

def modRMReg (legacy : List UInt8) (w : Bool) (opcode : List UInt8) (reg : Reg) (rm : Rm) :
    Except Fault (List UInt8) := do
  let c ← RegCode.of reg.id
  modRM legacy w opcode c rm (reg.width == .w8 && c.byteRex)

def modRMX (legacy : List UInt8) (w : Bool) (opcode : List UInt8) (reg : XReg) (rm : Rm) :
    Except Fault (List UInt8) := do
  let c ← RegCode.ofX reg
  modRM legacy w opcode c rm false

def sameWidth (a b : Reg) : Except Fault Unit :=
  if a.width = b.width then .ok () else .error (.mixedWidths a.width b.width)

/-- the operand-size byte of 16-bit moves -/
def Width.legacy (w : Width) : List UInt8 := if w = .w16 then [0x66] else []

def Width.movOpcode (w : Width) : UInt8 := if w = .w8 then 0x88 else 0x89

def Width.isWide (w : Width) : Bool := w == .w32 || w == .w64

def movImmBytes (dst : Reg) (value : Int64) : Except Fault (List UInt8) := do
  let c ← RegCode.of dst.id
  let low := littleEndian 4 value.toUInt64.toNat
  let short := rexBytes false false c.high false ++ [0xB8 + c.code] ++ low
  match dst.width with
  | .w64 =>
    if 0 ≤ value.toInt ∧ value.toInt ≤ 0xFFFFFFFF then return short
    else if -0x80000000 ≤ value.toInt ∧ value.toInt ≤ 0x7FFFFFFF then
      return rexBytes true false c.high false ++ [0xC7, 0xC0 ||| c.code] ++ low
    else
      return rexBytes true false c.high false ++ [0xB8 + c.code] ++
        littleEndian 8 value.toUInt64.toNat
  | .w32 => return short
  | w => .error (.immWidth w)

/-- one byte and a register number, with REX for the upper eight registers -/
def shortForm (base : List UInt8) (op : UInt8) (id : RegId) : Except Fault (List UInt8) := do
  let c ← RegCode.of id
  return rexBytes false false c.high false ++ base ++ [op ||| c.code]

def isPowerOfTwo (n : Int) : Bool := decide (0 < n) && n.toNat &&& (n.toNat - 1) == 0

/-- how many bytes are missing to the next multiple of `boundary` -/
def padding (pos : Nat) (boundary : Nat) : Nat := (boundary - pos % boundary) % boundary

def Instr.encode (pos : Nat) : Instr → Except Fault Chunk
  | .movImm dst value => do return { bytes := ← movImmBytes dst value }
  | .movSymbol dst name => do
    let c ← RegCode.of dst
    if name = "" then .error .emptySymbol
    return {
      bytes := rexBytes true false c.high false ++ [0xB8 + c.code] ++ littleEndian 8 0
      symbol := some (2, name, .abs64) }
  | .movReg dst src => do
    sameWidth dst src
    let rm ← Rm.ofReg dst
    return { bytes := ← modRMReg src.width.legacy (src.width == .w64) [src.width.movOpcode] src rm }
  | .store dst src => do
    return { bytes :=
      ← modRMReg src.width.legacy (src.width == .w64) [src.width.movOpcode] src (.mem dst) }
  | .load dst src => do
    unless dst.width.isWide do .error (.loadWidth dst.width)
    return { bytes := ← modRMReg [] (dst.width == .w64) [0x8B] dst (.mem src) }
  | .loadZx dst src width => do
    let op : UInt8 ←
      if width = 1 then .ok 0xB6 else if width = 2 then .ok 0xB7 else .error (.zxWidth width)
    return { bytes := ← modRMReg [] false [0x0F, op] (.r32 dst.id) (.mem src) }
  | .zx8 dst src => do
    let rm ← Rm.ofReg (.r8 src.id)
    return { bytes := ← modRMReg [] false [0x0F, 0xB6] (.r32 dst.id) rm }
  | .zx16 dst src => do
    let rm ← Rm.ofReg (.r16 src.id)
    return { bytes := ← modRMReg [] false [0x0F, 0xB7] (.r32 dst.id) rm }
  | .alu op dst src => do
    sameWidth dst src
    unless dst.width.isWide do .error (.aluWidth dst.width)
    let rm ← Rm.ofReg dst
    return { bytes := ← modRMReg [] (dst.width == .w64) [op.opcode] src rm }
  | .imul dst src => do
    sameWidth dst src
    let rm ← Rm.ofReg src
    return { bytes := ← modRMReg [] (dst.width == .w64) [0x0F, 0xAF] dst rm }
  | .aluImm op dst imm => do
    unless dst.width.isWide do .error (.aluImmWidth dst.width)
    let rm ← Rm.ofReg dst
    let small := decide (-128 ≤ imm ∧ imm ≤ 127)
    let head ← modRM [] (dst.width == .w64) [if small then 0x83 else 0x81]
      ⟨op.digit, false, false⟩ rm false
    return { bytes := head ++ littleEndian (if small then 1 else 4) imm.toUInt32.toNat }
  | .lea dst src => do
    unless dst.width == .w64 do .error .leaWidth
    return { bytes := ← modRMReg [] true [0x8D] dst (.mem src) }
  | .setcc cond dst => do
    unless dst.width == .w8 do .error .setccWidth
    let rm ← Rm.ofReg dst
    return { bytes := ← modRM [] false [0x0F, 0x90 ||| (cond &&& 0xF)] ⟨0, false, false⟩ rm false }
  | .push reg => do return { bytes := ← shortForm [] 0x50 reg }
  | .pop reg => do return { bytes := ← shortForm [] 0x58 reg }
  | .ret => .ok { bytes := [0xC3] }
  | .call reg => do return { bytes := ← shortForm [0xFF] 0xD0 reg }
  | .jump label => .ok { bytes := 0xE9 :: littleEndian 4 0, branch := some ⟨.rel32, label⟩ }
  | .jumpIf cond label =>
    .ok { bytes := 0x0F :: (0x80 ||| (cond &&& 0xF)) :: littleEndian 4 0,
          branch := some ⟨.rel32, label⟩ }
  | .align boundary =>
    if isPowerOfTwo boundary then
      .ok { bytes := List.replicate (padding pos boundary.toNat) 0x90 }
    else .error (.alignment boundary)
  | .xload form dst src => do return { bytes := ← modRMX form.legacy false [0x0F, 0x10] dst (.mem src) }
  | .xstore form dst src => do
    return { bytes := ← modRMX form.legacy false [0x0F, 0x11] src (.mem dst) }
  | .sse op dst src => do
    let rm ← Rm.ofX src
    return { bytes := ← modRMX op.opcode.1 false [0x0F, op.opcode.2] dst rm }
  | .cmppd dst src predicate => do
    if 7 < predicate then .error (.predicate predicate)
    let rm ← Rm.ofX src
    let head ← modRMX [0x66] false [0x0F, 0xC2] dst rm
    return { bytes := head ++ [predicate] }
  | .movqToX dst src => do
    let rm ← Rm.ofReg (.r64 src.id)
    return { bytes := ← modRMX [0x66] true [0x0F, 0x6E] dst rm }
  | .movqFromX dst src => do
    let rm ← Rm.ofReg (.r64 dst.id)
    return { bytes := ← modRMX [0x66] true [0x0F, 0x7E] src rm }

end TreeJit.X64
