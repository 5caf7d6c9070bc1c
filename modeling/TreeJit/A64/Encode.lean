import TreeJit.A64.Instr

/-!
# AArch64 encoding

Every instruction is one word, except the constant and symbol loads, which are up to four
move-wide words, and alignment.  `Instr.word` is the word of a one-word instruction, `movImmWords`
and `movSymbolWords` are the sequences, and `Instr.encode` gives the chunk at an offset.

`Instr.precheck` holds the tests that are made before an instruction asks where it is going to
stand; all others come after.
-/

namespace TreeJit.A64

def addSubImm (base : UInt32) (dst src : Reg) (imm : UInt32) (shift12 : Bool) :
    Except Fault UInt32 := do
  sameWidth [dst, src]
  if 0xFFF < imm then .error (.immediate imm)
  return base ||| dst.sf ||| (imm <<< 10) ||| (src.field <<< 5) ||| dst.field |||
    (if shift12 then 0x400000 else 0)

/-- three general registers; register 31 is zero -/
def regReg (base : UInt32) (dst left right : Reg) : Except Fault UInt32 := do
  sameWidth [dst, left, right]
  return base ||| dst.sf ||| (right.field <<< 16) ||| (left.field <<< 5) ||| dst.field

def three (base : UInt32) (dst left right : VReg) : Except Fault UInt32 := do
  dst.check
  left.check
  right.check
  return base ||| (right.toUInt32 <<< 16) ||| (left.toUInt32 <<< 5) ||| dst.toUInt32

def two (base : UInt32) (dst src : VReg) : Except Fault UInt32 := do
  dst.check
  src.check
  return base ||| (src.toUInt32 <<< 5) ||| dst.toUInt32

def Precision.bits : Precision → UInt32
  | .single => 0
  | .double => 0x400000

/-- the words of a load and of a store, and the access width -/
structure Access where
  load : UInt32
  store : UInt32
  width : Nat

def Access.general (width : Int) : Except Fault Access :=
  if width = 1 then .ok ⟨0x39400000, 0x39000000, 1⟩
  else if width = 2 then .ok ⟨0x79400000, 0x79000000, 2⟩
  else if width = 4 then .ok ⟨0xB9400000, 0xB9000000, 4⟩
  else if width = 8 then .ok ⟨0xF9400000, 0xF9000000, 8⟩
  else .error (.accessWidth width)

def Access.vector (width : Int) : Except Fault Access :=
  if width = 4 then .ok ⟨0xBD400000, 0xBD000000, 4⟩
  else if width = 8 then .ok ⟨0xFD400000, 0xFD000000, 8⟩
  else if width = 16 then .ok ⟨0x3DC00000, 0x3D800000, 16⟩
  else .error (.vectorAccessWidth width)

def Access.word (base : UInt32) (width : Nat) (rt : UInt32) (m : Mem) : Except Fault UInt32 := do
  let b ← m.check
  unless encodable m.disp width do .error (.offset m.disp width)
  let imm := UInt32.ofNat (m.disp.toInt.toNat / width)
  return base ||| (imm <<< 10) ||| (b.field <<< 5) ||| (rt &&& 0x1F)

/-! ## move-wide sequences -/

def movz (dst : Reg) (imm : UInt32) (i : Nat) : UInt32 :=
  (0xD2800000 : UInt32) ||| (UInt32.ofNat i <<< 21) ||| (imm <<< 5) ||| dst.field

/-- set one halfword and keep the others -/
def movk (dst : Reg) (imm : UInt32) (i : Nat) : UInt32 :=
  (0xF2800000 : UInt32) ||| (UInt32.ofNat i <<< 21) ||| (imm <<< 5) ||| dst.field

/-- the halfwords of a constant that are not zero, with their places; place 0 for zero itself -/
def halfwords (value : UInt64) : List (Nat × UInt32) :=
  match [0, 1, 2, 3].filterMap fun i =>
      if halfword value i = 0 then none else some (i, halfword value i) with
  | [] => [(0, 0)]
  | hs => hs

def movImmWords (dst : Reg) (value : UInt64) : List UInt32 :=
  match halfwords value with
  | [] => []
  | (i, h) :: rest => movz dst h i :: rest.map fun (j, k) => movk dst k j

/-- the words that load an address, still zero -/
def movSymbolWords (dst : Reg) : List UInt32 :=
  [movz dst 0 0, movk dst 0 1, movk dst 0 2, movk dst 0 3]

/-! ## instructions -/

/-- the tests made before an instruction asks where it is going to stand -/
def Instr.precheck : Instr → Except Fault Unit
  | .movImm dst _ => dst.check
  | .movSymbol dst name =>
    if dst.width ≠ .w64 then .error .symbolWidth
    else if name = "" then .error .emptySymbol
    else .ok ()
  | .jumpIfZero reg _ => reg.check
  | .jumpIfNotZero reg _ => reg.check
  | .align n => if n < 4 ∨ n.toNat &&& (n.toNat - 1) ≠ 0 then .error (.alignment n) else .ok ()
  | _ => .ok ()

def Instr.word : Instr → Except Fault UInt32
  | .movImm _ _ => .ok 0
  | .movSymbol _ _ => .ok 0
  | .align _ => .ok 0
  | .movReg dst src => regReg RegOp.orr.word dst ⟨sp, dst.width⟩ src
  | .addImm dst src imm shift12 => addSubImm 0x11000000 dst src imm shift12
  | .subImm dst src imm shift12 => addSubImm 0x51000000 dst src imm shift12
  | .reg3 op dst left right => regReg op.word dst left right
  | .addSP dst src =>
    if dst.width ≠ .w64 ∨ src.width ≠ .w64 then .error .stackAddWidth
    else .ok ((0x8B206000 : UInt32) ||| (src.field <<< 16) ||| 0x3E0 ||| dst.field)
  | .cmp left right => do
    sameWidth [left, right]
    return (0x6B00001F : UInt32) ||| left.sf ||| (right.field <<< 16) ||| (left.field <<< 5)
  | .cset dst cond => do
    dst.check
    return (0x1A9F07E0 : UInt32) ||| dst.sf ||| ((cond.invert &&& 0xF).toUInt32 <<< 12) ||| dst.field
  | .uxtb dst src => do
    sameWidth [.w dst.id, .w src.id]
    return (0x53001C00 : UInt32) ||| (src.field <<< 5) ||| dst.field
  | .uxth dst src => do
    sameWidth [.w dst.id, .w src.id]
    return (0x53003C00 : UInt32) ||| (src.field <<< 5) ||| dst.field
  | .ubfx dst src lsb width => do
    sameWidth [dst, src]
    if dst.width ≠ .w64 ∨ 63 < lsb ∨ width = 0 ∨ 64 < lsb + width then .error (.bitfield lsb width)
    return (0xD3400000 : UInt32) ||| (lsb <<< 16) ||| ((lsb + width - 1) <<< 10) ||| (src.field <<< 5) |||
      dst.field
  | .load dst src width => do
    dst.check
    let a ← Access.general width
    if width = 8 ∧ dst.width ≠ .w64 then .error .wideLoad
    Access.word a.load a.width dst.field src
  | .store dst src width => do
    src.check
    let a ← Access.general width
    Access.word a.store a.width src.field dst
  | .pushFrame => .ok 0xA9BF7BFD
  | .popFrame => .ok 0xA8C17BFD
  | .jump _ => .ok 0x14000000
  | .jumpIf cond _ => .ok ((0x54000000 : UInt32) ||| (cond &&& 0xF).toUInt32)
  | .jumpIfZero reg _ => .ok ((0x34000000 : UInt32) ||| reg.sf ||| reg.field)
  | .jumpIfNotZero reg _ => .ok ((0x35000000 : UInt32) ||| reg.sf ||| reg.field)
  | .call target =>
    if target.width ≠ .w64 then .error .callWidth else .ok ((0xD63F0000 : UInt32) ||| (target.field <<< 5))
  | .ret => .ok 0xD65F03C0
  | .nop => .ok 0xD503201F
  | .fp3 op size dst left right => three (op.word ||| size.bits) dst left right
  | .fcmp size left right => do
    left.check
    right.check
    return (0x1E202000 : UInt32) ||| size.bits ||| (right.toUInt32 <<< 16) ||| (left.toUInt32 <<< 5)
  | .vec3 op dst left right => three op.word dst left right
  | .not16b dst src => two 0x6E205800 dst src
  | .dupElement dst src => two 0x4E080400 dst src
  | .dupGeneral dst src => do
    dst.check
    if src.width ≠ .w64 then .error (.dupWidth src.width)
    return (0x4E080C00 : UInt32) ||| (src.field <<< 5) ||| dst.toUInt32
  | .loadFP dst src width => do
    dst.check
    let a ← Access.vector width
    Access.word a.load a.width dst.toUInt32 src
  | .storeFP dst src width => do
    src.check
    let a ← Access.vector width
    Access.word a.store a.width src.toUInt32 dst
  | .mrsCTR dst => .ok ((0xD53B0020 : UInt32) ||| dst.field)
  | .dcCVAU addr => .ok ((0xD50B7B20 : UInt32) ||| addr.field)
  | .icIVAU addr => .ok ((0xD50B7520 : UInt32) ||| addr.field)
  | .dsbISH => .ok 0xD5033B9F
  | .isb => .ok 0xD5033FDF

def Instr.branch? : Instr → Option Branch
  | .jump l => some ⟨.imm26, l⟩
  | .jumpIf _ l => some ⟨.imm19, l⟩
  | .jumpIfZero _ l => some ⟨.imm19, l⟩
  | .jumpIfNotZero _ l => some ⟨.imm19, l⟩
  | _ => none

def Instr.encode (pos : Nat) (i : Instr) : Except Fault Chunk := do
  i.precheck
  match i with
  | .movImm dst value =>
    let v := if dst.width = .w32 then value.toUInt64 &&& 0xFFFFFFFF else value.toUInt64
    return { bytes := (movImmWords dst v).flatMap wordBytes }
  | .movSymbol dst name =>
    return { bytes := (movSymbolWords dst).flatMap wordBytes, symbol := some (0, name, .movWide64) }
  | .align n =>
    let missing := (n.toNat - pos % n.toNat) % n.toNat
    return { bytes := (List.replicate (missing / 4) 0xD503201F).flatMap wordBytes }
  | _ =>
    let w ← i.word
    return { bytes := wordBytes w, branch := i.branch? }

end TreeJit.A64
