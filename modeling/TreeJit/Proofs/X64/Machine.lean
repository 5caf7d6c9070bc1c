import TreeJit.Code.Chunk
import TreeJit.SSA.Value
import TreeJit.X64.Instr

/-!
# An abstract x86-64 machine

A machine state has general-purpose registers, SSE registers of two 64-bit lanes, flags and a
byte-addressed memory.  `Instr.perform` is the effect of an instruction that does not leave the
straight line, `next` one step of a listing: marks are passed, jumps look for their label, calls
hand the state to the surroundings (`Env`).

What can be observed of a run are its `Event`s: labels passed, calls, and reads and writes of memory
other than through the stack pointer.  Accesses through the stack pointer belong to the frame of
the running function.

Float arithmetic is shared with the interpreter.  Comparisons go through one outcome out of four
(`FloatOrder`), from which the flags of `ucomis` and the masks of `cmppd` are read.
-/

namespace TreeJit.X64

open SSA

/-! ## comparisons of floats -/

inductive FloatOrder where
  | unordered | less | equal | greater
  deriving DecidableEq

def FloatOrder.swap : FloatOrder → FloatOrder
  | .unordered => .unordered
  | .less => .greater
  | .equal => .equal
  | .greater => .less

def FloatOrder.holds (o : FloatOrder) : FloatCond → Bool
  | .eq => o == .equal
  | .ne => o != .equal
  | .lt => o == .less
  | .le => o == .less || o == .equal
  | .gt => o == .greater
  | .ge => o == .greater || o == .equal

/-- the predicates of a lane comparison, by number -/
def FloatOrder.lane (o : FloatOrder) (predicate : UInt8) : Bool :=
  match predicate.toNat with
  | 0 => o == .equal
  | 1 => o == .less
  | 2 => o == .less || o == .equal
  | 3 => o == .unordered
  | 4 => o != .equal
  | 5 => o != .less
  | 6 => !(o == .less || o == .equal)
  | 7 => o != .unordered
  | _ => false

/-! ## flags -/

structure Flags where
  zero : Bool := false
  carry : Bool := false
  sign : Bool := false
  overflow : Bool := false
  parity : Bool := false

def Flags.test (f : Flags) (c : Cond) : Bool :=
  match c.toNat with
  | 0 => f.overflow
  | 1 => !f.overflow
  | 2 => f.carry
  | 3 => !f.carry
  | 4 => f.zero
  | 5 => !f.zero
  | 6 => f.carry || f.zero
  | 7 => !(f.carry || f.zero)
  | 8 => f.sign
  | 9 => !f.sign
  | 10 => f.parity
  | 11 => !f.parity
  | 12 => f.sign != f.overflow
  | 13 => f.sign == f.overflow
  | 14 => f.zero || f.sign != f.overflow
  | 15 => !(f.zero || f.sign != f.overflow)
  | _ => false

/-- what a comparison of floats leaves in the flags -/
def FloatOrder.flags : FloatOrder → Flags
  | .unordered => { zero := true, carry := true, parity := true }
  | .less => { carry := true }
  | .equal => { zero := true }
  | .greater => {}

/-- an even number of ones in the low byte -/
def evenByte (n : Nat) : Bool := (List.range 8).countP (fun i => n.testBit i) % 2 == 0

def subFlags64 (a b : UInt64) : Flags where
  zero := a == b
  carry := decide (a < b)
  sign := decide ((a - b).toInt64.toInt < 0)
  overflow := decide ((a - b).toInt64.toInt ≠ a.toInt64.toInt - b.toInt64.toInt)
  parity := evenByte (a - b).toNat

def subFlags32 (a b : UInt32) : Flags where
  zero := a == b
  carry := decide (a < b)
  sign := decide ((a - b).toInt32.toInt < 0)
  overflow := decide ((a - b).toInt32.toInt ≠ a.toInt32.toInt - b.toInt32.toInt)
  parity := evenByte (a - b).toNat

def addFlags64 (a b : UInt64) : Flags where
  zero := a + b == 0
  carry := decide (a + b < a)
  sign := decide ((a + b).toInt64.toInt < 0)
  overflow := decide ((a + b).toInt64.toInt ≠ a.toInt64.toInt + b.toInt64.toInt)
  parity := evenByte (a + b).toNat

def addFlags32 (a b : UInt32) : Flags where
  zero := a + b == 0
  carry := decide (a + b < a)
  sign := decide ((a + b).toInt32.toInt < 0)
  overflow := decide ((a + b).toInt32.toInt ≠ a.toInt32.toInt + b.toInt32.toInt)
  parity := evenByte (a + b).toNat

def logicFlags64 (x : UInt64) : Flags where
  zero := x == 0
  sign := decide (x.toInt64.toInt < 0)
  parity := evenByte x.toNat

def logicFlags32 (x : UInt32) : Flags where
  zero := x == 0
  sign := decide (x.toInt32.toInt < 0)
  parity := evenByte x.toNat

def AluOp.apply64 (op : AluOp) (a b : UInt64) : Option UInt64 × Flags :=
  match op with
  | .add => (some (a + b), addFlags64 a b)
  | .sub => (some (a - b), subFlags64 a b)
  | .cmp => (none, subFlags64 a b)
  | .or => (some (a ||| b), logicFlags64 (a ||| b))
  | .and => (some (a &&& b), logicFlags64 (a &&& b))
  | .xor => (some (a ^^^ b), logicFlags64 (a ^^^ b))
  | .test => (none, logicFlags64 (a &&& b))

def AluOp.apply32 (op : AluOp) (a b : UInt32) : Option UInt32 × Flags :=
  match op with
  | .add => (some (a + b), addFlags32 a b)
  | .sub => (some (a - b), subFlags32 a b)
  | .cmp => (none, subFlags32 a b)
  | .or => (some (a ||| b), logicFlags32 (a ||| b))
  | .and => (some (a &&& b), logicFlags32 (a &&& b))
  | .xor => (some (a ^^^ b), logicFlags32 (a ^^^ b))
  | .test => (none, logicFlags32 (a &&& b))

def AluImmOp.op : AluImmOp → AluOp
  | .add => .add
  | .sub => .sub
  | .cmp => .cmp

/-! ## states -/

structure Cpu where
  gpr : RegId → UInt64
  xmm : XReg → Val
  flags : Flags
  mem : Memory

namespace Cpu

def setGpr (c : Cpu) (r : RegId) (x : UInt64) : Cpu :=
  { c with gpr := fun i => if i = r then x else c.gpr i }

def setXmm (c : Cpu) (r : XReg) (x : Val) : Cpu :=
  { c with xmm := fun i => if i = r then x else c.xmm i }

def setFlags (c : Cpu) (f : Flags) : Cpu := { c with flags := f }

def setMem (c : Cpu) (m : Memory) : Cpu := { c with mem := m }

@[simp] theorem gpr_setGpr (c : Cpu) (r i : RegId) (x : UInt64) :
    (c.setGpr r x).gpr i = if i = r then x else c.gpr i := rfl
@[simp] theorem xmm_setGpr (c : Cpu) (r : RegId) (x : UInt64) : (c.setGpr r x).xmm = c.xmm := rfl
@[simp] theorem flags_setGpr (c : Cpu) (r : RegId) (x : UInt64) :
    (c.setGpr r x).flags = c.flags := rfl
@[simp] theorem mem_setGpr (c : Cpu) (r : RegId) (x : UInt64) : (c.setGpr r x).mem = c.mem := rfl
@[simp] theorem xmm_setXmm (c : Cpu) (r i : XReg) (x : Val) :
    (c.setXmm r x).xmm i = if i = r then x else c.xmm i := rfl
@[simp] theorem gpr_setXmm (c : Cpu) (r : XReg) (x : Val) : (c.setXmm r x).gpr = c.gpr := rfl
@[simp] theorem flags_setXmm (c : Cpu) (r : XReg) (x : Val) : (c.setXmm r x).flags = c.flags := rfl
@[simp] theorem mem_setXmm (c : Cpu) (r : XReg) (x : Val) : (c.setXmm r x).mem = c.mem := rfl
@[simp] theorem gpr_setFlags (c : Cpu) (f : Flags) : (c.setFlags f).gpr = c.gpr := rfl
@[simp] theorem xmm_setFlags (c : Cpu) (f : Flags) : (c.setFlags f).xmm = c.xmm := rfl
@[simp] theorem flags_setFlags (c : Cpu) (f : Flags) : (c.setFlags f).flags = f := rfl
@[simp] theorem mem_setFlags (c : Cpu) (f : Flags) : (c.setFlags f).mem = c.mem := rfl
@[simp] theorem gpr_setMem (c : Cpu) (m : Memory) : (c.setMem m).gpr = c.gpr := rfl
@[simp] theorem xmm_setMem (c : Cpu) (m : Memory) : (c.setMem m).xmm = c.xmm := rfl
@[simp] theorem flags_setMem (c : Cpu) (m : Memory) : (c.setMem m).flags = c.flags := rfl
@[simp] theorem mem_setMem (c : Cpu) (m : Memory) : (c.setMem m).mem = m := rfl

end Cpu

def Width.bytes : Width → Nat
  | .none => 0
  | .w8 => 1
  | .w16 => 2
  | .w32 => 4
  | .w64 => 8

/-- the part of a word that a width sees -/
def Width.cut (w : Width) (x : UInt64) : UInt64 :=
  match w with
  | .none => 0
  | .w8 => x &&& 0xFF
  | .w16 => x &&& 0xFFFF
  | .w32 => x &&& 0xFFFFFFFF
  | .w64 => x

/-- a word after a write of a width: bytes and half words keep the rest, 32 bits clear it -/
def Width.put (w : Width) (old x : UInt64) : UInt64 :=
  match w with
  | .none => old
  | .w8 => (old &&& ~~~0xFF) ||| (x &&& 0xFF)
  | .w16 => (old &&& ~~~0xFFFF) ||| (x &&& 0xFFFF)
  | .w32 => x &&& 0xFFFFFFFF
  | .w64 => x

namespace Cpu

def get (c : Cpu) (r : Reg) : UInt64 := r.width.cut (c.gpr r.id)

def put (c : Cpu) (r : Reg) (x : UInt64) : Cpu := c.setGpr r.id (r.width.put (c.gpr r.id) x)

def address (c : Cpu) (m : Mem) : UInt64 :=
  match m.base with
  | some r => addressOf (c.gpr r.id) m.disp
  | none => addressOf 0 m.disp

end Cpu

/-! ## what can be seen -/

inductive Event where
  | label (l : String)
  | read (address : UInt64) (size : Nat)
  | write (address : UInt64) (bytes : List UInt8)
  /-- a call, with the state in which it is made -/
  | call (target : UInt64) (c : Cpu)

def Mem.isFrame (m : Mem) : Bool := m.base == some (.r64 rsp)

def Mem.seen (m : Mem) (e : Event) : List Event := if m.isFrame then [] else [e]

structure Env where
  float : FloatOps
  order : UInt64 → UInt64 → FloatOrder
  order32 : UInt32 → UInt32 → FloatOrder
  /-- the flags after a multiplication, of which most are undefined -/
  mulFlags : UInt64 → UInt64 → Flags
  /-- the addresses that linking writes -/
  symbol : String → UInt64
  /-- what the code at an address does until it comes back, if it does -/
  call : UInt64 → Cpu → Option Cpu
  /-- the bytes below the stack pointer that called code may use -/
  room : Nat

/-! ## instructions -/

def SseOp.apply (E : Env) (op : SseOp) (d s : Val) : Val :=
  let single (o : FloatOp) : Val :=
    ⟨(d.lo &&& ~~~0xFFFFFFFF) ||| (E.float.arith32 o d.lo.toUInt32 s.lo.toUInt32).toUInt64, d.hi⟩
  let double (o : FloatOp) : Val := ⟨E.float.arith o d.lo s.lo, d.hi⟩
  let pair (o : FloatOp) : Val := ⟨E.float.arith o d.lo s.lo, E.float.arith o d.hi s.hi⟩
  match op with
  | .addsd => double .add
  | .subsd => double .sub
  | .mulsd => double .mul
  | .divsd => double .div
  | .addss => single .add
  | .subss => single .sub
  | .mulss => single .mul
  | .divss => single .div
  | .addpd => pair .add
  | .subpd => pair .sub
  | .mulpd => pair .mul
  | .divpd => pair .div
  | .ucomisd | .ucomiss => d
  | .unpcklpd | .punpcklqdq => ⟨d.lo, s.lo⟩
  | .paddq => ⟨d.lo + s.lo, d.hi + s.hi⟩
  | .psubq => ⟨d.lo - s.lo, d.hi - s.hi⟩
  | .pand => ⟨d.lo &&& s.lo, d.hi &&& s.hi⟩
  | .por => ⟨d.lo ||| s.lo, d.hi ||| s.hi⟩
  | .pxor => ⟨d.lo ^^^ s.lo, d.hi ^^^ s.hi⟩

/-- the flags of a comparison; other operations leave them -/
def SseOp.flags (E : Env) (op : SseOp) (d s : Val) (old : Flags) : Flags :=
  match op with
  | .ucomisd => (E.order d.lo s.lo).flags
  | .ucomiss => (E.order32 d.lo.toUInt32 s.lo.toUInt32).flags
  | _ => old

def XForm.bytes : XForm → Nat
  | .ss => 4
  | .sd => 8
  | .upd => 16

def XForm.read (form : XForm) (m : Memory) (a : UInt64) : Val :=
  match form with
  | .ss => ⟨UInt64.ofNat (m.read 4 a), 0⟩
  | .sd => ⟨UInt64.ofNat (m.read 8 a), 0⟩
  | .upd => ⟨UInt64.ofNat (m.read 8 a), UInt64.ofNat (m.read 8 (a + 8))⟩

def XForm.write (form : XForm) (m : Memory) (a : UInt64) (v : Val) : Memory :=
  match form with
  | .ss => m.write 4 a v.lo.toNat
  | .sd => m.write 8 a v.lo.toNat
  | .upd => (m.write 8 a v.lo.toNat).write 8 (a + 8) v.hi.toNat

/-- the bytes a store leaves -/
def XForm.stored (form : XForm) (v : Val) : List UInt8 :=
  match form with
  | .ss => littleEndian 4 v.lo.toNat
  | .sd => littleEndian 8 v.lo.toNat
  | .upd => littleEndian 8 v.lo.toNat ++ littleEndian 8 v.hi.toNat

/-- puts down a result, if there is one, and the flags -/
def Cpu.alu (c : Cpu) (op : AluOp) (dst : Reg) (y : UInt64) : Cpu :=
  match dst.width with
  | .w64 =>
    let (r, fl) := op.apply64 (c.gpr dst.id) y
    (match r with
      | some x => c.setGpr dst.id x
      | none => c).setFlags fl
  | _ =>
    let (r, fl) := op.apply32 (c.gpr dst.id).toUInt32 y.toUInt32
    (match r with
      | some x => c.setGpr dst.id x.toUInt64
      | none => c).setFlags fl

def Instr.perform (E : Env) (c : Cpu) : Instr → Option (Cpu × List Event)
  | .movImm dst v => some (c.put dst v.toUInt64, [])
  | .movSymbol dst name => some (c.setGpr dst (E.symbol name), [])
  | .movReg dst src => some (c.put dst (c.get src), [])
  | .store dst src =>
    some (c.setMem (c.mem.write src.width.bytes (c.address dst) (c.get src).toNat),
      dst.seen (.write (c.address dst) (littleEndian src.width.bytes (c.get src).toNat)))
  | .load dst src =>
    some (c.put dst (UInt64.ofNat (c.mem.read dst.width.bytes (c.address src))),
      src.seen (.read (c.address src) dst.width.bytes))
  | .loadZx dst src width =>
    some (c.setGpr dst.id (UInt64.ofNat (c.mem.read width.toNat (c.address src))),
      src.seen (.read (c.address src) width.toNat))
  | .zx8 dst src => some (c.setGpr dst.id (c.gpr src.id &&& 0xFF), [])
  | .zx16 dst src => some (c.setGpr dst.id (c.gpr src.id &&& 0xFFFF), [])
  | .alu op dst src => some (c.alu op dst (c.gpr src.id), [])
  | .imul dst src =>
    some ((c.put dst (c.gpr dst.id * c.gpr src.id)).setFlags
      (E.mulFlags (c.gpr dst.id) (c.gpr src.id)), [])
  | .aluImm op dst imm => some (c.alu op.op dst imm.toInt64.toUInt64, [])
  | .lea dst src => some (c.setGpr dst.id (c.address src), [])
  | .setcc cond dst => some (c.put dst (if c.flags.test cond then 1 else 0), [])
  | .push reg =>
    let sp := c.gpr rsp - 8
    some ((c.setGpr rsp sp).setMem (c.mem.write 8 sp (c.gpr reg).toNat), [])
  | .pop reg =>
    let sp := c.gpr rsp
    some ((c.setGpr rsp (sp + 8)).setGpr reg (UInt64.ofNat (c.mem.read 8 sp)), [])
  | .align _ => some (c, [])
  | .xload form dst src =>
    some (c.setXmm dst (form.read c.mem (c.address src)), src.seen (.read (c.address src) form.bytes))
  | .xstore form dst src =>
    some (c.setMem (form.write c.mem (c.address dst) (c.xmm src)),
      dst.seen (.write (c.address dst) (form.stored (c.xmm src))))
  | .sse op dst src =>
    some ((c.setXmm dst (op.apply E (c.xmm dst) (c.xmm src))).setFlags
      (op.flags E (c.xmm dst) (c.xmm src) c.flags), [])
  | .cmppd dst src predicate =>
    some (c.setXmm dst
      ⟨laneMask ((E.order (c.xmm dst).lo (c.xmm src).lo).lane predicate),
        laneMask ((E.order (c.xmm dst).hi (c.xmm src).hi).lane predicate)⟩, [])
  | .movqToX dst src => some (c.setXmm dst ⟨c.gpr src.id, 0⟩, [])
  | .movqFromX dst src => some (c.setGpr dst.id (c.xmm src).lo, [])
  | .ret | .call _ | .jump _ | .jumpIf .. => none

def performAll (E : Env) : List Instr → Cpu → Option (Cpu × List Event)
  | [], c => some (c, [])
  | i :: is, c =>
    match i.perform E c with
    | none => none
    | some (c', es) => (performAll E is c').map fun r => (r.1, es ++ r.2)

/-! ## listings -/

inductive Config where
  /-- in front of the lines that are left -/
  | at (rest : List (Line Instr)) (c : Cpu)
  /-- back at the address the caller left -/
  | returned (c : Cpu) (address : UInt64)
  /-- in called code that does not come back -/
  | away
  /-- behind the end of the listing, or on the way to a label that it does not have -/
  | lost

/-- the part of a listing from a label on -/
def seek (l : String) : List (Line Instr) → Option (List (Line Instr))
  | [] => none
  | .mark m :: rest => if m = l then some (.mark m :: rest) else seek l rest
  | .instr _ :: rest => seek l rest

def goto (lines : List (Line Instr)) (l : String) (c : Cpu) : Config :=
  match seek l lines with
  | some rest => .at rest c
  | none => .lost

def next (E : Env) (lines : List (Line Instr)) (c : Cpu) : List (Line Instr) → Config × List Event
  | [] => (.lost, [])
  | .mark l :: rest => (.at rest c, [.label l])
  | .instr i :: rest =>
    match i with
    | .jump l => (goto lines l c, [])
    | .jumpIf cond l => (if c.flags.test cond then goto lines l c else .at rest c, [])
    | .call r =>
      (match E.call (c.gpr r) c with
        | some c' => .at rest c'
        | none => .away, [.call (c.gpr r) c])
    | .ret =>
      (.returned (c.setGpr rsp (c.gpr rsp + 8)) (UInt64.ofNat (c.mem.read 8 (c.gpr rsp))), [])
    | i =>
      match i.perform E c with
      | some (c', es) => (.at rest c', es)
      | none => (.lost, [])

inductive Runs (E : Env) (lines : List (Line Instr)) : Config → List Event → Config → Prop where
  | refl (k : Config) : Runs E lines k [] k
  | step {rest : List (Line Instr)} {c : Cpu} {k k' : Config} {es es' : List Event}
      (h : next E lines c rest = (k, es)) (hr : Runs E lines k es' k') :
      Runs E lines (.at rest c) (es ++ es') k'

section
variable {E : Env} {lines : List (Line Instr)} {k k' k'' : Config} {es es' : List Event}

theorem Runs.trans (h : Runs E lines k es k') (h' : Runs E lines k' es' k'') :
    Runs E lines k (es ++ es') k'' := by
  induction h with
  | refl => exact h'
  | step hn _ ih =>
    rw [List.append_assoc]
    exact .step hn (ih h')

theorem Runs.one {rest : List (Line Instr)} {c : Cpu} (h : next E lines c rest = (k, es)) :
    Runs E lines (.at rest c) es k := by
  have hr := Runs.step h (.refl k)
  rwa [List.append_nil] at hr

theorem Runs.ofNext (E : Env) (lines : List (Line Instr)) (c : Cpu) (rest : List (Line Instr)) :
    Runs E lines (.at rest c) (next E lines c rest).2 (next E lines c rest).1 := .one rfl

theorem next_of_perform {i : Instr} {c c' : Cpu} {rest : List (Line Instr)}
    (h : i.perform E c = some (c', es)) :
    next E lines c (.instr i :: rest) = (.at rest c', es) := by
  cases i with
  | ret | call | jump | jumpIf => cases h
  | _ => simp only [next, h]

theorem Runs.perform {i : Instr} {c c' : Cpu} (h : i.perform E c = some (c', es))
    (lines rest : List (Line Instr)) : Runs E lines (.at (.instr i :: rest) c) es (.at rest c') :=
  .one (next_of_perform h)

theorem Runs.straight {is : List Instr} {c c' : Cpu} {rest : List (Line Instr)}
    (h : performAll E is c = some (c', es)) :
    Runs E lines (.at (is.map .instr ++ rest) c) es (.at rest c') := by
  induction is generalizing c es with
  | nil =>
    cases h
    exact .refl _
  | cons i is ih =>
    unfold performAll at h
    split at h
    · cases h
    · rename_i c1 es1 hi
      obtain ⟨⟨c2, es2⟩, hr, e⟩ := Option.map_eq_some_iff.mp h
      cases e
      exact .step (next_of_perform hi) (ih hr)

theorem performAll_append {is js : List Instr} {c c1 c2 : Cpu}
    (h : performAll E is c = some (c1, es)) (h' : performAll E js c1 = some (c2, es')) :
    performAll E (is ++ js) c = some (c2, es ++ es') := by
  induction is generalizing c es with
  | nil =>
    cases h
    exact h'
  | cons i is ih =>
    rw [List.cons_append]
    unfold performAll at h ⊢
    split at h
    · cases h
    · rename_i c3 es3 hi
      obtain ⟨⟨c4, es4⟩, hr, e⟩ := Option.map_eq_some_iff.mp h
      cases e
      simp only [ih hr, Option.map_some, List.append_assoc]

def Leads (E : Env) (c : Cpu) (is : List Instr) (es : List Event) (P : Cpu → Prop) : Prop :=
  ∃ c', performAll E is c = some (c', es) ∧ P c'

section
variable {is js : List Instr} {c c' : Cpu} {P Q : Cpu → Prop}

theorem Leads.nil (h : P c) : Leads E c [] [] P := ⟨c, rfl, h⟩

theorem Leads.cons {i : Instr} (h : i.perform E c = some (c', es)) (h' : Leads E c' is es' P) :
    Leads E c (i :: is) (es ++ es') P := by
  obtain ⟨c2, h2, hP⟩ := h'
  refine ⟨c2, ?_, hP⟩
  rw [performAll, h]
  simp only [h2, Option.map_some]

theorem Leads.quiet {i : Instr} {d : Cpu} (h : i.perform E c = some (d, [])) (h' : Leads E d is es P) :
    Leads E c (i :: is) es P := Leads.cons h h'

theorem Leads.append (h : Leads E c is es Q) (h' : ∀ c', Q c' → Leads E c' js es' P) :
    Leads E c (is ++ js) (es ++ es') P := by
  obtain ⟨c1, h1, hQ⟩ := h
  obtain ⟨c2, h2, hP⟩ := h' c1 hQ
  exact ⟨c2, performAll_append h1 h2, hP⟩

theorem Leads.mono (h : Leads E c is es P) (hPQ : ∀ c', P c' → Q c') : Leads E c is es Q := by
  obtain ⟨c1, h1, hP⟩ := h
  exact ⟨c1, h1, hPQ c1 hP⟩

theorem Leads.runs (h : Leads E c is es P) (lines rest : List (Line Instr)) :
    ∃ c', Runs E lines (.at (is.map .instr ++ rest) c) es (.at rest c') ∧ P c' := by
  obtain ⟨c1, h1, hP⟩ := h
  exact ⟨c1, Runs.straight h1, hP⟩

end

end

end TreeJit.X64
