import TreeJit.A64.Encode
import TreeJit.Proofs.SSA.Trace
import TreeJit.Proofs.X64.Machine

/-!
# An abstract AArch64 machine

A machine state has general registers, a stack pointer, vector registers of two 64-bit lanes, flags
and a byte-addressed memory.  Code is a list of words.  A word is an instruction of the form whose
fixed bits it has (`decode`), and the form says how its operands are read from the other bits
(`Form.exec`).  No word has two forms (`Form.apart`), so a word with the fixed bits of a form is
decoded to it (`decode_eq`).

Register 31 is the zero register (`Cpu.reg`) or the stack pointer (`Cpu.base`), depending on the
form.  What can be observed of a run are its reads and writes of memory.  Float arithmetic is a
parameter (`Env`); unordered operands of a comparison set the carry and overflow flags.
-/

namespace TreeJit.A64

open SSA
open TreeJit.X64 (FloatOrder)

/-! ## flags -/

structure Flags where
  negative : Bool := false
  zero : Bool := false
  carry : Bool := false
  overflow : Bool := false

def Flags.test (f : Flags) (c : Cond) : Bool :=
  match c.toNat with
  | 0 => f.zero
  | 1 => !f.zero
  | 2 => f.carry
  | 3 => !f.carry
  | 4 => f.negative
  | 5 => !f.negative
  | 6 => f.overflow
  | 7 => !f.overflow
  | 8 => f.carry && !f.zero
  | 9 => !(f.carry && !f.zero)
  | 10 => f.negative == f.overflow
  | 11 => f.negative != f.overflow
  | 12 => !f.zero && f.negative == f.overflow
  | 13 => !(!f.zero && f.negative == f.overflow)
  | _ => true

def orderFlags : FloatOrder → Flags
  | .unordered => { carry := true, overflow := true }
  | .less => { negative := true }
  | .equal => { zero := true, carry := true }
  | .greater => { carry := true }

/-- the flags of a difference; the carry says that nothing was borrowed -/
def subFlags64 (a b : UInt64) : Flags where
  negative := decide ((a - b).toInt64.toInt < 0)
  zero := a == b
  carry := decide (b ≤ a)
  overflow := decide ((a - b).toInt64.toInt ≠ a.toInt64.toInt - b.toInt64.toInt)

def subFlags32 (a b : UInt32) : Flags where
  negative := decide ((a - b).toInt32.toInt < 0)
  zero := a == b
  carry := decide (b ≤ a)
  overflow := decide ((a - b).toInt32.toInt ≠ a.toInt32.toInt - b.toInt32.toInt)

def subFlags (wide : Bool) (a b : UInt64) : Flags :=
  if wide then subFlags64 a b else subFlags32 a.toUInt32 b.toUInt32

/-! ## states -/

structure Cpu where
  /-- the registers 0 to 30 -/
  x : Nat → UInt64
  sp : UInt64
  v : Nat → Val
  flags : Flags
  mem : Memory

namespace Cpu

/-- a register where number 31 is zero -/
def reg (c : Cpu) (n : Nat) : UInt64 := if n = 31 then 0 else c.x n

/-- a register where number 31 is the stack pointer -/
def base (c : Cpu) (n : Nat) : UInt64 := if n = 31 then c.sp else c.x n

def setX (c : Cpu) (n : Nat) (y : UInt64) : Cpu := { c with x := fun i => if i = n then y else c.x i }

def setReg (c : Cpu) (n : Nat) (y : UInt64) : Cpu := if n = 31 then c else c.setX n y

def setBase (c : Cpu) (n : Nat) (y : UInt64) : Cpu := if n = 31 then { c with sp := y } else c.setX n y

def setV (c : Cpu) (n : Nat) (y : Val) : Cpu := { c with v := fun i => if i = n then y else c.v i }

def setFlags (c : Cpu) (f : Flags) : Cpu := { c with flags := f }

def setMem (c : Cpu) (m : Memory) : Cpu := { c with mem := m }

@[simp] theorem x_setX (c : Cpu) (n i : Nat) (y : UInt64) :
    (c.setX n y).x i = if i = n then y else c.x i := rfl
@[simp] theorem sp_setX (c : Cpu) (n : Nat) (y : UInt64) : (c.setX n y).sp = c.sp := rfl
@[simp] theorem v_setX (c : Cpu) (n : Nat) (y : UInt64) : (c.setX n y).v = c.v := rfl
@[simp] theorem flags_setX (c : Cpu) (n : Nat) (y : UInt64) : (c.setX n y).flags = c.flags := rfl
@[simp] theorem mem_setX (c : Cpu) (n : Nat) (y : UInt64) : (c.setX n y).mem = c.mem := rfl
@[simp] theorem x_setV (c : Cpu) (n : Nat) (y : Val) : (c.setV n y).x = c.x := rfl
@[simp] theorem sp_setV (c : Cpu) (n : Nat) (y : Val) : (c.setV n y).sp = c.sp := rfl
@[simp] theorem v_setV (c : Cpu) (n i : Nat) (y : Val) :
    (c.setV n y).v i = if i = n then y else c.v i := rfl
@[simp] theorem flags_setV (c : Cpu) (n : Nat) (y : Val) : (c.setV n y).flags = c.flags := rfl
@[simp] theorem mem_setV (c : Cpu) (n : Nat) (y : Val) : (c.setV n y).mem = c.mem := rfl
@[simp] theorem x_setFlags (c : Cpu) (f : Flags) : (c.setFlags f).x = c.x := rfl
@[simp] theorem sp_setFlags (c : Cpu) (f : Flags) : (c.setFlags f).sp = c.sp := rfl
@[simp] theorem v_setFlags (c : Cpu) (f : Flags) : (c.setFlags f).v = c.v := rfl
@[simp] theorem flags_setFlags (c : Cpu) (f : Flags) : (c.setFlags f).flags = f := rfl
@[simp] theorem mem_setFlags (c : Cpu) (f : Flags) : (c.setFlags f).mem = c.mem := rfl
@[simp] theorem x_setMem (c : Cpu) (m : Memory) : (c.setMem m).x = c.x := rfl
@[simp] theorem sp_setMem (c : Cpu) (m : Memory) : (c.setMem m).sp = c.sp := rfl
@[simp] theorem v_setMem (c : Cpu) (m : Memory) : (c.setMem m).v = c.v := rfl
@[simp] theorem flags_setMem (c : Cpu) (m : Memory) : (c.setMem m).flags = c.flags := rfl
@[simp] theorem mem_setMem (c : Cpu) (m : Memory) : (c.setMem m).mem = m := rfl

theorem setReg_of_ne (c : Cpu) {n : Nat} (h : n ≠ 31) (y : UInt64) : c.setReg n y = c.setX n y :=
  if_neg h

theorem setX_self (c : Cpu) (n : Nat) : c.setX n (c.x n) = c := by
  unfold setX
  congr
  funext i
  split
  · rename_i e
    rw [e]
  · rfl

theorem setX_setX (c : Cpu) (n : Nat) (y z : UInt64) : (c.setX n y).setX n z = c.setX n z := by
  unfold setX
  congr
  funext i
  by_cases h : i = n
  · rw [if_pos h, if_pos h]
  · rw [if_neg h, if_neg h]
    exact if_neg h

end Cpu

/-- an access to memory -/
inductive Event where
  | read (address : UInt64) (size : Nat)
  | write (address : UInt64) (bytes : List UInt8)

structure Env where
  float : FloatOps
  order : UInt64 → UInt64 → FloatOrder
  order32 : UInt32 → UInt32 → FloatOrder

/-! ## forms -/

/-- the forms of words that move data; the bytes of an access are a power of two -/
inductive Form where
  /-- set a halfword and clear the others -/
  | movz
  /-- set a halfword and keep the others -/
  | movk
  /-- add or subtract a constant -/
  | addImm (minus wide : Bool)
  /-- add a register to the stack pointer or another register -/
  | addExtended
  | reg3 (op : RegOp) (wide : Bool)
  | cmp (wide : Bool)
  /-- one of two registers, the second one plus one -/
  | csinc (wide : Bool)
  /-- some bits of a register -/
  | ubfm (wide : Bool)
  | load (k : Nat)
  | store (k : Nat)
  | loadFP (k : Nat)
  | storeFP (k : Nat)
  | fp3 (op : FpOp) (size : Precision)
  | fcmp (size : Precision)
  | vec3 (op : VecOp)
  | not16b
  | dupElement
  | dupGeneral
  deriving DecidableEq

def wideBit (wide : Bool) : UInt32 := if wide then 0x80000000 else 0

namespace Form

def pattern : Form → UInt32
  | movz => 0xD2800000
  | movk => 0xF2800000
  | addImm minus wide => (if minus then 0x51000000 else 0x11000000) ||| wideBit wide
  | addExtended => 0x8B206000
  | reg3 op wide => op.word ||| wideBit wide
  | cmp wide => (0x6B00001F : UInt32) ||| wideBit wide
  | csinc wide => (0x1A800400 : UInt32) ||| wideBit wide
  | ubfm wide => if wide then 0xD3400000 else 0x53000000
  | load k => (0x39400000 : UInt32) ||| (UInt32.ofNat k <<< 30)
  | store k => (0x39000000 : UInt32) ||| (UInt32.ofNat k <<< 30)
  | loadFP k => if k = 4 then 0x3DC00000 else (0x3D400000 : UInt32) ||| (UInt32.ofNat k <<< 30)
  | storeFP k => if k = 4 then 0x3D800000 else (0x3D000000 : UInt32) ||| (UInt32.ofNat k <<< 30)
  | fp3 op size => op.word ||| size.bits
  | fcmp size => (0x1E202000 : UInt32) ||| size.bits
  | vec3 op => op.word
  | not16b => 0x6E205800
  | dupElement => 0x4E080400
  | dupGeneral => 0x4E080C00

def mask : Form → UInt32
  | movz | movk | addImm .. => 0xFF800000
  | addExtended | reg3 .. | fp3 .. | vec3 _ => 0xFFE0FC00
  | cmp _ | fcmp _ => 0xFFE0FC1F
  | csinc _ => 0xFFE00C00
  | ubfm _ | load _ | store _ | loadFP _ | storeFP _ => 0xFFC00000
  | not16b | dupElement | dupGeneral => 0xFFFFFC00

def all : List Form :=
  [movz, movk, addExtended, not16b, dupElement, dupGeneral, fcmp .single, fcmp .double] ++
    [false, true].flatMap (fun wide => [addImm false wide, addImm true wide, cmp wide, csinc wide, ubfm wide]
      ++ RegOp.all.map fun op => reg3 op wide) ++
    [0, 1, 2, 3].flatMap (fun k => [load k, store k]) ++
    [2, 3, 4].flatMap (fun k => [loadFP k, storeFP k]) ++
    FpOp.all.flatMap (fun op => [fp3 op .single, fp3 op .double]) ++ VecOp.all.map vec3

/-- two forms differ in a bit that is fixed in both -/
theorem apart : ∀ f ∈ all, ∀ g ∈ all, f.pattern &&& g.mask = g.pattern &&& f.mask → f = g := by
  decide +kernel

end Form

def decode (w : UInt32) : Option Form := Form.all.find? fun f => w &&& f.mask == f.pattern

/-- **A word with the fixed bits of a form has that form.** -/
theorem decode_eq {w : UInt32} {f : Form} (hf : f ∈ Form.all) (h : w &&& f.mask = f.pattern) :
    decode w = some f := by
  cases hd : decode w with
  | none => exact absurd (beq_iff_eq.mpr h) (List.find?_eq_none.mp hd f hf)
  | some g =>
    have hg : w &&& g.mask = g.pattern := by simpa using List.find?_some hd
    refine congrArg some (Form.apart g (List.mem_of_find?_eq_some hd) f hf ?_)
    rw [← hg, ← h, UInt32.and_assoc, UInt32.and_assoc, UInt32.and_comm g.mask]

/-! ## instructions -/

def field (w : UInt32) (lo n : Nat) : Nat := w.toNat / 2 ^ lo % 2 ^ n

/-- what a width sees of a register -/
def cut (wide : Bool) (y : UInt64) : UInt64 := if wide then y else y &&& 0xFFFFFFFF

/-- a word with one of its halfwords replaced -/
def withHalfword (y : UInt64) (i h : Nat) : UInt64 :=
  UInt64.ofNat (y.toNat - y.toNat / 65536 ^ i % 65536 * 65536 ^ i + h * 65536 ^ i)

/-- the bits `r` to `s` of a word of some width, or its bits up to `s` moved up -/
def bitfield (bits : Nat) (y : UInt64) (r s : Nat) : UInt64 :=
  UInt64.ofNat (if r ≤ s then y.toNat / 2 ^ r % 2 ^ (s - r + 1)
    else y.toNat % 2 ^ (s + 1) * 2 ^ (bits - r))

def RegOp.apply (op : RegOp) (bits : Nat) (a b : UInt64) : UInt64 :=
  match op with
  | .add => a + b
  | .sub => a - b
  | .and => a &&& b
  | .orr => a ||| b
  | .bic => a &&& ~~~b
  | .lslv => a <<< UInt64.ofNat (b.toNat % bits)
  | .mul => a * b

def FpOp.op : FpOp → FloatOp
  | .fadd => .add
  | .fsub => .sub
  | .fmul => .mul
  | .fdiv => .div

/-- a scalar operation; it clears the rest of the register -/
def FpOp.apply (E : Env) (op : FpOp) (size : Precision) (a b : Val) : Val :=
  match size with
  | .single => ⟨(E.float.arith32 op.op a.lo.toUInt32 b.lo.toUInt32).toUInt64, 0⟩
  | .double => ⟨E.float.arith op.op a.lo b.lo, 0⟩

def VecOp.apply (E : Env) (op : VecOp) (a b : Val) : Val :=
  let arith (o : FloatOp) : Val := ⟨E.float.arith o a.lo b.lo, E.float.arith o a.hi b.hi⟩
  let compare (cc : FloatCond) : Val :=
    ⟨laneMask ((E.order a.lo b.lo).holds cc), laneMask ((E.order a.hi b.hi).holds cc)⟩
  match op with
  | .fadd2d => arith .add
  | .fsub2d => arith .sub
  | .fmul2d => arith .mul
  | .fdiv2d => arith .div
  | .fcmeq2d => compare .eq
  | .fcmge2d => compare .ge
  | .fcmgt2d => compare .gt
  | .add2d => ⟨a.lo + b.lo, a.hi + b.hi⟩
  | .sub2d => ⟨a.lo - b.lo, a.hi - b.hi⟩
  | .and16b => ⟨a.lo &&& b.lo, a.hi &&& b.hi⟩
  | .orr16b => ⟨a.lo ||| b.lo, a.hi ||| b.hi⟩

def compareFlags (E : Env) (size : Precision) (a b : Val) : Flags :=
  match size with
  | .single => orderFlags (E.order32 a.lo.toUInt32 b.lo.toUInt32)
  | .double => orderFlags (E.order a.lo b.lo)

/-- what an access of a vector register moves -/
def vectorTy (n : Nat) : Ty := if n = 4 then .f32 else if n = 8 then .f64 else .f64x2

namespace Cpu

def readReg (c : Cpu) (n d : Nat) (a : UInt64) : Cpu × List Event :=
  (c.setReg d (UInt64.ofNat (c.mem.read n a)), [.read a n])

def writeReg (c : Cpu) (n s : Nat) (a : UInt64) : Cpu × List Event :=
  (c.setMem (c.mem.write n a (c.reg s).toNat), [.write a (littleEndian n (c.reg s).toNat)])

def readV (c : Cpu) (n d : Nat) (a : UInt64) : Cpu × List Event :=
  (c.setV d (readVal c.mem (vectorTy n) a), [.read a n])

def writeV (c : Cpu) (n s : Nat) (a : UInt64) : Cpu × List Event :=
  (c.setMem (writeVal c.mem (vectorTy n) a (c.v s)), [.write a (storedBytes (vectorTy n) (c.v s))])

end Cpu

def Form.exec (E : Env) (w : UInt32) (c : Cpu) (f : Form) : Cpu × List Event :=
  let d := field w 0 5
  let n := field w 5 5
  let m := field w 16 5
  let imm12 := field w 10 12
  let place (k : Nat) : UInt64 := c.base n + UInt64.ofNat (imm12 * 2 ^ k)
  match f with
  | movz => (c.setReg d (withHalfword 0 (field w 21 2) (field w 5 16)), [])
  | movk => (c.setReg d (withHalfword (c.reg d) (field w 21 2) (field w 5 16)), [])
  | addImm minus wide =>
    let imm := UInt64.ofNat (imm12 * if field w 22 1 = 1 then 4096 else 1)
    (c.setBase d (cut wide (if minus then c.base n - imm else c.base n + imm)), [])
  | addExtended => (c.setBase d (c.base n + c.reg m), [])
  | reg3 op wide =>
    (c.setReg d (cut wide (op.apply (if wide then 64 else 32) (cut wide (c.reg n)) (cut wide (c.reg m)))), [])
  | cmp wide => (c.setFlags (subFlags wide (c.reg n) (c.reg m)), [])
  | csinc wide =>
    (c.setReg d (cut wide (if c.flags.test (UInt8.ofNat (field w 12 4)) then c.reg n else c.reg m + 1)), [])
  | ubfm wide =>
    (c.setReg d (bitfield (if wide then 64 else 32) (cut wide (c.reg n)) (field w 16 6) (field w 10 6)), [])
  | load k => c.readReg (2 ^ k) d (place k)
  | store k => c.writeReg (2 ^ k) d (place k)
  | loadFP k => c.readV (2 ^ k) d (place k)
  | storeFP k => c.writeV (2 ^ k) d (place k)
  | fp3 op size => (c.setV d (op.apply E size (c.v n) (c.v m)), [])
  | fcmp size => (c.setFlags (compareFlags E size (c.v n) (c.v m)), [])
  | vec3 op => (c.setV d (op.apply E (c.v n) (c.v m)), [])
  | not16b => (c.setV d ⟨~~~(c.v n).lo, ~~~(c.v n).hi⟩, [])
  | dupElement => (c.setV d ⟨(c.v n).lo, (c.v n).lo⟩, [])
  | dupGeneral => (c.setV d ⟨c.reg n, c.reg n⟩, [])

def run (E : Env) : List UInt32 → Cpu → Option (Cpu × List Event)
  | [], c => some (c, [])
  | w :: ws, c =>
    match decode w with
    | none => none
    | some f => (run E ws (f.exec E w c).1).map fun r => (r.1, (f.exec E w c).2 ++ r.2)

section
variable {E : Env} {c c' : Cpu} {es : List Event}

theorem run_one {w : UInt32} {f : Form} (hf : f ∈ Form.all) (h : w &&& f.mask = f.pattern) :
    run E [w] c = some (f.exec E w c) := by
  rw [run, decode_eq hf h]
  simp [run]

theorem run_append {ws us : List UInt32} (h : run E ws c = some (c', es)) :
    run E (ws ++ us) c = (run E us c').map fun r => (r.1, es ++ r.2) := by
  induction ws generalizing c es with
  | nil =>
    cases h
    simp
  | cons w ws ih =>
    rw [List.cons_append, run]
    rw [run] at h
    cases hd : decode w with
    | none =>
      rw [hd] at h
      cases h
    | some f =>
      rw [hd] at h
      obtain ⟨⟨c2, es2⟩, hr, e⟩ := Option.map_eq_some_iff.mp h
      cases e
      simp only [ih hr, Option.map_map]
      congr 1
      funext r
      exact Prod.ext rfl (List.append_assoc _ _ _).symm

end

end TreeJit.A64
