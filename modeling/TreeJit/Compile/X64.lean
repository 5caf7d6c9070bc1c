import TreeJit.Compile.Fault
import TreeJit.SSA.Frame

/-!
# Lowering to x86-64

Every value lives in its home, addressed from the stack pointer; `rax`, `rcx`, `xmm0` and `xmm1`
hold operands within one instruction.  Integers narrower than 64 bits are kept zero-extended.
Branch arguments go through the transfer area in two rounds of copies.

* `lowerStep`      the lines of one instruction;
* `lowerBlock`     a block: its label and its instructions;
* `lower`          a function: prologue, incoming parameters, blocks.
-/

namespace TreeJit.Compile.X64

open SSA TreeJit.X64

def intArgs : List RegId := [rdi, rsi, rdx, rcx, r8, r9]

def intResults : List RegId := [rax, rdx]

/-- the register that holds the address of a called function; it carries no argument -/
def callTarget : RegId := r11

def paramLimits : RegLimits := .forParams 6 8

def resultLimits : RegLimits := .forResults 2 2

/-- what lowering an instruction needs to know of its function -/
structure Ctx where
  fn : Func
  frame : Frame
  /-- the registers of the function's results -/
  returns : List RegLoc

def onStack (off : Int32) : Mem := .at rsp off

def Ctx.home (c : Ctx) (v : ValueNo) : Mem := onStack (c.frame.home v)

/-! ## moving values -/

/-- clears the bits of a register above the width of a type -/
def normalize (r : RegId) : Ty → List Instr
  | .i8 => [.zx8 (.r64 r) (.r64 r)]
  | .i16 => [.zx16 (.r64 r) (.r64 r)]
  | .i32 => [.movReg (.r32 r) (.r32 r)]
  | _ => []

def xform (t : Ty) : XForm := if t.isVector then .upd else if t = .f32 then .ss else .sd

def Ctx.loadInt (c : Ctx) (r : RegId) (v : ValueNo) : Instr := .load (.r64 r) (c.home v)

def Ctx.storeInt (c : Ctx) (v : ValueNo) (r : RegId) : Instr := .store (c.home v) (.r64 r)

def Ctx.loadFloat (c : Ctx) (t : Ty) (x : XReg) (v : ValueNo) : Instr := .xload (xform t) x (c.home v)

def Ctx.storeFloat (c : Ctx) (t : Ty) (v : ValueNo) (x : XReg) : Instr :=
  .xstore (xform t) (c.home v) x

def copy (t : Ty) (dst src : Mem) : List Instr :=
  if t.isVector then [.xload .upd 0 src, .xstore .upd dst 0]
  else [.load (.r64 rax) src, .store dst (.r64 rax)]

/-- stores a value that arrives in a register; the upper bits of narrow integers are not given -/
def Ctx.spill (c : Ctx) (ints : List RegId) (v : ValueNo) (loc : RegLoc) : List Instr :=
  let t := c.fn.typeOf v
  match loc.file with
  | .int =>
    let r := ints.getD loc.index rax
    normalize r t ++ [c.storeInt v r]
  | .float => [c.storeFloat t v (UInt8.ofNat loc.index)]

def Ctx.unspill (c : Ctx) (ints : List RegId) (t : Ty) (v : ValueNo) (loc : RegLoc) : Instr :=
  match loc.file with
  | .int => c.loadInt (ints.getD loc.index rax) v
  | .float => c.loadFloat t (UInt8.ofNat loc.index) v

/-! ## memory -/

def Ctx.loadFrom (c : Ctx) (t : Ty) (mem : Mem) (dst : ValueNo) : List Instr :=
  match t.bytes with
  | 1 => [.loadZx (.r64 rax) mem 1, c.storeInt dst rax]
  | 2 => [.loadZx (.r64 rax) mem 2, c.storeInt dst rax]
  | 4 => [.load (.r32 rax) mem, c.storeInt dst rax]
  | 8 => [.load (.r64 rax) mem, c.storeInt dst rax]
  | _ => [.xload .upd 0 mem, .xstore .upd (c.home dst) 0]

def Ctx.storeTo (c : Ctx) (t : Ty) (mem : Mem) (src : ValueNo) : List Instr :=
  match t.bytes with
  | 1 => [c.loadInt rax src, .store mem (.r8 rax)]
  | 2 => [c.loadInt rax src, .store mem (.r16 rax)]
  | 4 => [c.loadInt rax src, .store mem (.r32 rax)]
  | 8 => [c.loadInt rax src, .store mem (.r64 rax)]
  | _ => [.xload .upd 0 (c.home src), .xstore .upd mem 0]

def Ctx.slotMem (c : Ctx) (slot : Nat) (offset : Int32) : Mem := onStack (c.frame.slot slot + offset)

/-! ## arithmetic -/

def vectorIntOp? : BinOp → Option SseOp
  | .iadd => some .paddq
  | .isub => some .psubq
  | .band => some .pand
  | .bor => some .por
  | _ => none

def scalarIntOp? (op : BinOp) : Option Instr :=
  match op with
  | .iadd => some (.alu .add (.r64 rax) (.r64 rcx))
  | .isub => some (.alu .sub (.r64 rax) (.r64 rcx))
  | .imul => some (.imul (.r64 rax) (.r64 rcx))
  | .band => some (.alu .and (.r64 rax) (.r64 rcx))
  | .bor => some (.alu .or (.r64 rax) (.r64 rcx))
  | _ => none

def floatOp? : BinOp → Ty → Option SseOp
  | .fadd, .f64 => some .addsd
  | .fsub, .f64 => some .subsd
  | .fmul, .f64 => some .mulsd
  | .fdiv, .f64 => some .divsd
  | .fadd, .f32 => some .addss
  | .fsub, .f32 => some .subss
  | .fmul, .f32 => some .mulss
  | .fdiv, .f32 => some .divss
  | .fadd, .f64x2 => some .addpd
  | .fsub, .f64x2 => some .subpd
  | .fmul, .f64x2 => some .mulpd
  | .fdiv, .f64x2 => some .divpd
  | _, _ => none

def Ctx.binary (c : Ctx) (op : BinOp) (t : Ty) (x y dst : ValueNo) :
    Except StepFault (List Instr) :=
  if t.isInt then
    match scalarIntOp? op with
    | some i => .ok ([c.loadInt rax x, c.loadInt rcx y, i] ++ normalize rax t ++ [c.storeInt dst rax])
    | none => .error (.unsupported op.opcode t)
  else
    match if t = .i64x2 then vectorIntOp? op else floatOp? op t with
    | some i => .ok [c.loadFloat t 0 x, c.loadFloat t 1 y, .sse i 0 1, c.storeFloat t dst 0]
    | none => .error (.unsupported op.opcode t)

/-! ## comparisons -/

def intCond : IntCond → Cond
  | .eq => condE
  | .ne => condNE
  | .slt => condL
  | .sle => condLE
  | .sgt => condG
  | .sge => condGE
  | .ult => condB
  | .ule => condBE
  | .ugt => condA
  | .uge => condAE

def Ctx.icmp (c : Ctx) (cc : IntCond) (t : Ty) (x y dst : ValueNo) : List Instr :=
  let cmp : Instr :=
    if t = .i32 then .alu .cmp (.r32 rax) (.r32 rcx) else .alu .cmp (.r64 rax) (.r64 rcx)
  [c.loadInt rax x, c.loadInt rcx y, cmp, .setcc (intCond cc) (.r8 rax), .zx8 (.r64 rax) (.r64 rax),
    c.storeInt dst rax]

/-- the comparison of `xmm0` with `xmm1`, its outcome in `al`.  An unordered comparison sets the
zero, parity and carry flags, so orderings are asked for as "above" and equality also looks at the
parity flag. -/
def scalarCompare (ucomi : SseOp) : FloatCond → List Instr
  | .lt => [.sse ucomi 1 0, .setcc condA (.r8 rax)]
  | .le => [.sse ucomi 1 0, .setcc condAE (.r8 rax)]
  | .gt => [.sse ucomi 0 1, .setcc condA (.r8 rax)]
  | .ge => [.sse ucomi 0 1, .setcc condAE (.r8 rax)]
  | .eq =>
    [.sse ucomi 0 1, .setcc condE (.r8 rax), .setcc condNP (.r8 rcx), .zx8 (.r64 rcx) (.r64 rcx),
      .zx8 (.r64 rax) (.r64 rax), .alu .and (.r32 rax) (.r32 rcx)]
  | .ne =>
    [.sse ucomi 0 1, .setcc condNE (.r8 rax), .setcc condP (.r8 rcx), .zx8 (.r64 rcx) (.r64 rcx),
      .zx8 (.r64 rax) (.r64 rax), .alu .or (.r32 rax) (.r32 rcx)]

/-- the predicate of a lane comparison and whether it takes its operands in reverse -/
def laneCompare : FloatCond → UInt8 × Bool
  | .eq => (0, false)
  | .ne => (4, false)
  | .lt => (1, false)
  | .le => (2, false)
  | .gt => (1, true)
  | .ge => (2, true)

def Ctx.fcmp (c : Ctx) (cc : FloatCond) (t : Ty) (x y dst : ValueNo) : List Instr :=
  if t.isVector then
    let (pred, swap) := laneCompare cc
    let (a, b) : XReg × XReg := if swap then (1, 0) else (0, 1)
    [.xload .upd 0 (c.home x), .xload .upd 1 (c.home y), .cmppd a b pred, .xstore .upd (c.home dst) a]
  else
    [c.loadFloat t 0 x, c.loadFloat t 1 y]
      ++ scalarCompare (if t = .f32 then .ucomiss else .ucomisd) cc
      ++ [.zx8 (.r64 rax) (.r64 rax), c.storeInt dst rax]

def Ctx.splat (c : Ctx) (t : Ty) (x dst : ValueNo) : Except StepFault (List Instr) :=
  match t with
  | .f64x2 => .ok [.xload .sd 0 (c.home x), .sse .unpcklpd 0 0, .xstore .upd (c.home dst) 0]
  | .i64x2 =>
    .ok [c.loadInt rax x, .movqToX 0 (.r64 rax), .sse .punpcklqdq 0 0, .xstore .upd (c.home dst) 0]
  | t => .error (.unsupported .splat t)

/-! ## calls, branches, returns -/

def Ctx.call (c : Ctx) (fn : Nat) (args results : List ValueNo) :
    Except StepFault (List Instr) := do
  let ext := c.fn.imports.getD fn ⟨"", .empty⟩
  let ins ← (passing paramLimits ext.sig.params).mapError (.call ext.name)
  let outs ← (passing resultLimits ext.sig.returns).mapError (.call ext.name)
  let load := (args.zip (ins.zip ext.sig.params)).map fun (v, loc, t) => c.unspill intArgs t v loc
  let store := (results.zip outs).flatMap fun (v, loc) => c.spill intResults v loc
  return load ++ [.movSymbol callTarget ext.name, .call callTarget] ++ store

/-- copies branch arguments to the parameters of the block, by way of the transfer area -/
def Ctx.transfer (c : Ctx) (t : Target) : List Instr :=
  let stage := t.args.mapIdx fun i (v : ValueNo) => copy (c.fn.typeOf v) (onStack (c.frame.staged i)) (c.home v)
  let land := (c.fn.blockParams t.block).mapIdx fun i (p : ValueNo) =>
    copy (c.fn.typeOf p) (c.home p) (onStack (c.frame.staged i))
  stage.flatten ++ land.flatten

def code (is : List Instr) : List (Line Instr) := is.map .instr

def Ctx.goto (c : Ctx) (t : Target) : List (Line Instr) :=
  code (c.transfer t ++ [.jump (blockLabel t.block)])

def Ctx.brif (c : Ctx) (b : Nat) (cond : ValueNo) (yes no : Target) : List (Line Instr) :=
  code [c.loadInt rax cond, .alu .test (.r64 rax) (.r64 rax), .jumpIf condE (elseLabel b)]
    ++ c.goto yes ++ [.mark (elseLabel b)] ++ c.goto no

def Ctx.ret (c : Ctx) (args : List ValueNo) : List Instr :=
  ((args.zip (c.returns.zip c.fn.sig.returns)).map fun (v, loc, t) => c.unspill intResults t v loc)
    ++ [.movReg (.r64 rsp) (.r64 rbp), .pop rbp, .ret]

/-! ## instructions, blocks, functions -/

def Ctx.lowerStep (c : Ctx) (b : Nat) (s : Step) : Except StepFault (List (Line Instr)) :=
  let dst := s.results.headD 0
  match s.inst with
  | .iconst _ bits => .ok (code [.movImm (.r64 rax) bits.toInt64, c.storeInt dst rax])
  | .fconst _ bits => .ok (code [.movImm (.r64 rax) bits.toInt64, c.storeInt dst rax])
  | .binary op t x y => (c.binary op t x y dst).map code
  | .icmp cc t x y => .ok (code (c.icmp cc t x y dst))
  | .fcmp cc t x y => .ok (code (c.fcmp cc t x y dst))
  | .splat t x => (c.splat t x dst).map code
  | .extractLane t x lane =>
    .ok (code (copy t.lane (c.home dst) (onStack (c.frame.home x + Int32.ofNat (8 * lane)))))
  | .load t p off => .ok (code (c.loadInt rcx p :: c.loadFrom t (.at rcx off) dst))
  | .store t x p off => .ok (code (c.loadInt rcx p :: c.storeTo t (.at rcx off) x))
  | .stackLoad t s off => .ok (code (c.loadFrom t (c.slotMem s off) dst))
  | .stackStore t x s off => .ok (code (c.storeTo t (c.slotMem s off) x))
  | .stackAddr s off => .ok (code [.lea (.r64 rax) (c.slotMem s off), c.storeInt dst rax])
  | .call fn args => (c.call fn args s.results).map code
  | .jump t => .ok (c.goto t)
  | .brif _ cond yes no => .ok (c.brif b cond yes no)
  | .ret args => .ok (code (c.ret args))

def Ctx.lowerSteps (c : Ctx) (b : Nat) : List Step → Except StepFault (List (Line Instr))
  | [] => .ok []
  | s :: ss => do
    let here ← c.lowerStep b s
    let rest ← c.lowerSteps b ss
    return here ++ rest

def padding (opts : Options) (fn : Func) (b : Nat) : List (Line Instr) :=
  if 0 < b && opts.alignLoops && fn.isLoopHeader b then [.instr (.align loopBoundary)] else []

def Ctx.lowerBlock (c : Ctx) (opts : Options) (b : Nat) (blk : Block) :
    Except FuncFault (List (Line Instr)) := do
  let body ← (c.lowerSteps b blk.steps.toList).mapError (.inBlock b)
  return padding opts c.fn b ++ .mark (blockLabel b) :: body

def Ctx.lowerBlocks (c : Ctx) (opts : Options) :
    Nat → List Block → Except FuncFault (List (Line Instr))
  | _, [] => .ok []
  | b, blk :: blks => do
    let here ← c.lowerBlock opts b blk
    let rest ← c.lowerBlocks opts (b + 1) blks
    return here ++ rest

/-- saves the frame pointer and makes room for the frame -/
def prologue (fr : Frame) : List Instr :=
  [.push rbp, .movReg (.r64 rbp) (.r64 rsp)]
    ++ if 0 < fr.size then [.aluImm .sub (.r64 rsp) fr.size] else []

def lower (fn : Func) (opts : Options) : Except FuncFault (List (Line Instr)) := do
  let params ← (passing paramLimits fn.sig.params).mapError .signature
  let returns ← (passing resultLimits fn.sig.returns).mapError .signature
  let c : Ctx := { fn, frame := fn.frame 0, returns }
  let incoming := ((fn.blockParams 0).zip params).flatMap fun (v, loc) => c.spill intArgs v loc
  let blocks ← c.lowerBlocks opts 0 fn.blocks.toList
  return code (prologue c.frame ++ incoming) ++ blocks

end TreeJit.Compile.X64
