import TreeJit.Compile.Fault
import TreeJit.SSA.Frame

/-!
# Lowering to AArch64

Every value lives in its home, addressed from the stack pointer; `x9`, `x10`, `v16` and `v17` hold
operands within one instruction.  An offset that does not fit the scaled immediate of an access
goes through `x17` (`spAccess`, `ptrAccess`).  Integers narrower than 64 bits are kept
zero-extended.  Branch arguments go through the transfer area in two rounds of copies.
-/

namespace TreeJit.Compile.A64

open SSA TreeJit.A64

def paramLimits : RegLimits := .forParams 8 8

def resultLimits : RegLimits := .forResults 2 2

def maxFrame : Int32 := 0xFFFFFF

def scratch0 : RegId := 9
def scratch1 : RegId := 10
def callTarget : RegId := 16
/-- the register for addresses whose offset does not fit -/
def addrTemp : RegId := 17
def framePointer : RegId := 29
def vscratch0 : VReg := 16
def vscratch1 : VReg := 17

/-- what lowering an instruction needs to know of its function -/
structure Ctx where
  fn : Func
  frame : Frame
  /-- the registers of the function's results -/
  returns : List RegLoc

/-! ## moving values -/

/-- an access to `[sp + disp]`, where `disp` is judged for `width` bytes -/
def spAccess (disp : Int32) (width : Nat) (access : Mem → Instr) : List Instr :=
  if encodable disp width then [access (.at sp disp)]
  else
    [.movImm (.x addrTemp) disp.toInt64, .addSP (.x addrTemp) (.x addrTemp), access (.at addrTemp 0)]

def ptrAccess (base : RegId) (disp : Int32) (width : Nat) (access : Mem → Instr) : List Instr :=
  if encodable disp width then [access (.at base disp)]
  else
    [.movImm (.x addrTemp) disp.toInt64, .reg3 .add (.x addrTemp) (.x base) (.x addrTemp),
      access (.at addrTemp 0)]

def homeWidth (t : Ty) : Nat := if t.isVector then 16 else 8

def floatWidth (t : Ty) : Nat := if t.isVector then 16 else if t = .f32 then 4 else 8

def Ctx.atHome (c : Ctx) (v : ValueNo) (access : Mem → Instr) : List Instr :=
  spAccess (c.frame.home v) (homeWidth (c.fn.typeOf v)) access

/-- clears the bits of a register above the width of a type -/
def normalize (r : RegId) : Ty → List Instr
  | .i8 => [.uxtb (.w r) (.w r)]
  | .i16 => [.uxth (.w r) (.w r)]
  | .i32 => [.movReg (.w r) (.w r)]
  | _ => []

def Ctx.loadInt (c : Ctx) (r : RegId) (v : ValueNo) : List Instr :=
  c.atHome v fun m => .load (.x r) m 8

def Ctx.storeInt (c : Ctx) (v : ValueNo) (r : RegId) : List Instr :=
  c.atHome v fun m => .store m (.x r) 8

def Ctx.loadFloat (c : Ctx) (x : VReg) (v : ValueNo) : List Instr :=
  c.atHome v fun m => .loadFP x m (floatWidth (c.fn.typeOf v))

def Ctx.storeFloat (c : Ctx) (v : ValueNo) (x : VReg) : List Instr :=
  c.atHome v fun m => .storeFP m x (floatWidth (c.fn.typeOf v))

def copy (t : Ty) (dst src : Int32) : List Instr :=
  if t.isVector then
    spAccess src 16 (fun m => .loadFP vscratch0 m 16) ++ spAccess dst 16 fun m => .storeFP m vscratch0 16
  else
    spAccess src 8 (fun m => .load (.x scratch0) m 8) ++ spAccess dst 8 fun m => .store m (.x scratch0) 8

/-- stores a value that arrives in a register; the upper bits of narrow integers are not given -/
def Ctx.spill (c : Ctx) (v : ValueNo) (loc : RegLoc) : List Instr :=
  match loc.file with
  | .int => normalize loc.index (c.fn.typeOf v) ++ c.storeInt v loc.index
  | .float => c.storeFloat v (UInt8.ofNat loc.index)

/-- loads a value into the register it is passed in -/
def Ctx.unspill (c : Ctx) (v : ValueNo) (loc : RegLoc) : List Instr :=
  match loc.file with
  | .int => c.loadInt loc.index v
  | .float => c.loadFloat (UInt8.ofNat loc.index) v

/-! ## memory -/

/-- reads a value into the home of `dst`; `place` makes the access -/
def Ctx.loadFrom (c : Ctx) (t : Ty) (place : Nat → (Mem → Instr) → List Instr) (dst : ValueNo) :
    List Instr :=
  let n := t.bytes
  if n = 16 then place n (fun m => .loadFP vscratch0 m n) ++ c.storeFloat dst vscratch0
  else
    let r : Reg := if n = 8 then .x scratch0 else .w scratch0
    place n (fun m => .load r m n) ++ c.storeInt dst scratch0

/-- writes the value `src`; `place` makes the access -/
def Ctx.storeTo (c : Ctx) (t : Ty) (place : Nat → (Mem → Instr) → List Instr) (src : ValueNo) :
    List Instr :=
  let n := t.bytes
  if n = 16 then c.loadFloat vscratch0 src ++ place n fun m => .storeFP m vscratch0 n
  else c.loadInt scratch0 src ++ place n fun m => .store m (.x scratch0) n

def Ctx.slotAddr (c : Ctx) (slot : Nat) (offset : Int32) : Int32 := c.frame.slot slot + offset

/-! ## arithmetic -/

def vectorIntOp? : BinOp → Option VecOp
  | .iadd => some .add2d
  | .isub => some .sub2d
  | .band => some .and16b
  | .bor => some .orr16b
  | _ => none

def scalarIntOp? : BinOp → Option RegOp
  | .iadd => some .add
  | .isub => some .sub
  | .imul => some .mul
  | .band => some .and
  | .bor => some .orr
  | _ => none

def vectorFloatOp? : BinOp → Option VecOp
  | .fadd => some .fadd2d
  | .fsub => some .fsub2d
  | .fmul => some .fmul2d
  | .fdiv => some .fdiv2d
  | _ => none

def scalarFloatOp? : BinOp → Option FpOp
  | .fadd => some .fadd
  | .fsub => some .fsub
  | .fmul => some .fmul
  | .fdiv => some .fdiv
  | _ => none

def precision (t : Ty) : Precision := if t = .f32 then .single else .double

/-- the operation on `v16` and `v17`, its result in `v16` -/
def floatOrVector? (op : BinOp) (t : Ty) : Option Instr :=
  match t with
  | .i64x2 => (vectorIntOp? op).map fun o => .vec3 o vscratch0 vscratch0 vscratch1
  | .f64x2 => (vectorFloatOp? op).map fun o => .vec3 o vscratch0 vscratch0 vscratch1
  | t => (scalarFloatOp? op).map fun o => .fp3 o (precision t) vscratch0 vscratch0 vscratch1

def Ctx.binary (c : Ctx) (op : BinOp) (t : Ty) (x y dst : ValueNo) :
    Except StepFault (List Instr) :=
  if t.isInt then
    match scalarIntOp? op with
    | some o =>
      .ok (c.loadInt scratch0 x ++ c.loadInt scratch1 y
        ++ [.reg3 o (.x scratch0) (.x scratch0) (.x scratch1)] ++ normalize scratch0 t
        ++ c.storeInt dst scratch0)
    | none => .error (.unsupported op.opcode t)
  else
    match floatOrVector? op t with
    | some i =>
      .ok (c.loadFloat vscratch0 x ++ c.loadFloat vscratch1 y ++ [i] ++ c.storeFloat dst vscratch0)
    | none => .error (.unsupported op.opcode t)

/-! ## comparisons -/

def intCond : IntCond → Cond
  | .eq => condEQ
  | .ne => condNE
  | .slt => condLT
  | .sle => condLE
  | .sgt => condGT
  | .sge => condGE
  | .ult => condLO
  | .ule => condLS
  | .ugt => condHI
  | .uge => condHS

/-- the conditions after a float comparison; all but `ne` are false on unordered operands -/
def floatCond : FloatCond → Cond
  | .eq => condEQ
  | .ne => condNE
  | .lt => condMI
  | .le => condLS
  | .gt => condGT
  | .ge => condGE

def Ctx.icmp (c : Ctx) (cc : IntCond) (t : Ty) (x y dst : ValueNo) : List Instr :=
  let cmp : Instr :=
    if t = .i32 then .cmp (.w scratch0) (.w scratch1) else .cmp (.x scratch0) (.x scratch1)
  c.loadInt scratch0 x ++ c.loadInt scratch1 y ++ [cmp, .cset (.x scratch0) (intCond cc)]
    ++ c.storeInt dst scratch0

def laneCompare : FloatCond → List Instr
  | .eq => [.vec3 .fcmeq2d vscratch0 vscratch0 vscratch1]
  | .ne => [.vec3 .fcmeq2d vscratch0 vscratch0 vscratch1, .not16b vscratch0 vscratch0]
  | .lt => [.vec3 .fcmgt2d vscratch0 vscratch1 vscratch0]
  | .le => [.vec3 .fcmge2d vscratch0 vscratch1 vscratch0]
  | .gt => [.vec3 .fcmgt2d vscratch0 vscratch0 vscratch1]
  | .ge => [.vec3 .fcmge2d vscratch0 vscratch0 vscratch1]

def Ctx.fcmp (c : Ctx) (cc : FloatCond) (t : Ty) (x y dst : ValueNo) : List Instr :=
  c.loadFloat vscratch0 x ++ c.loadFloat vscratch1 y ++
    if t.isVector then laneCompare cc ++ c.storeFloat dst vscratch0
    else
      [.fcmp (precision t) vscratch0 vscratch1, .cset (.x scratch0) (floatCond cc)]
        ++ c.storeInt dst scratch0

def Ctx.splat (c : Ctx) (t : Ty) (x dst : ValueNo) : Except StepFault (List Instr) :=
  match t with
  | .f64x2 =>
    .ok (c.loadFloat vscratch0 x ++ [.dupElement vscratch0 vscratch0] ++ c.storeFloat dst vscratch0)
  | .i64x2 =>
    .ok (c.loadInt scratch0 x ++ [.dupGeneral vscratch0 (.x scratch0)] ++ c.storeFloat dst vscratch0)
  | t => .error (.unsupported .splat t)

/-! ## calls, branches, returns -/

def Ctx.call (c : Ctx) (fn : Nat) (args results : List ValueNo) :
    Except StepFault (List Instr) := do
  let ext := c.fn.imports.getD fn ⟨"", .empty⟩
  let ins ← (passing paramLimits ext.sig.params).mapError (.call ext.name)
  let outs ← (passing resultLimits ext.sig.returns).mapError (.call ext.name)
  let load := (args.zip ins).flatMap fun (v, loc) => c.unspill v loc
  let store := (results.zip outs).flatMap fun (v, loc) => c.spill v loc
  return load ++ [.movSymbol (.x callTarget) ext.name, .call (.x callTarget)] ++ store

/-- copies branch arguments to the parameters of the block, by way of the transfer area -/
def Ctx.transfer (c : Ctx) (t : Target) : List Instr :=
  let stage := t.args.mapIdx fun i (v : ValueNo) => copy (c.fn.typeOf v) (c.frame.staged i) (c.frame.home v)
  let land := (c.fn.blockParams t.block).mapIdx fun i (p : ValueNo) =>
    copy (c.fn.typeOf p) (c.frame.home p) (c.frame.staged i)
  stage.flatten ++ land.flatten

def code (is : List Instr) : List (Line Instr) := is.map .instr

def Ctx.goto (c : Ctx) (t : Target) : List (Line Instr) :=
  code (c.transfer t ++ [.jump (blockLabel t.block)])

def Ctx.brif (c : Ctx) (b : Nat) (cond : ValueNo) (yes no : Target) : List (Line Instr) :=
  code (c.loadInt scratch0 cond ++ [.jumpIfZero (.x scratch0) (elseLabel b)])
    ++ c.goto yes ++ [.mark (elseLabel b)] ++ c.goto no

def Ctx.ret (c : Ctx) (args : List ValueNo) : List Instr :=
  ((args.zip c.returns).flatMap fun (v, loc) => c.unspill v loc)
    ++ [.addImm (.x sp) (.x framePointer) 0 false, .popFrame, .ret]

def Ctx.stackAddr (c : Ctx) (off : Int32) (dst : ValueNo) : List Instr :=
  (if 0 ≤ off ∧ off ≤ 0xFFF then [.addImm (.x scratch0) (.x sp) off.toUInt32 false]
   else [.movImm (.x scratch0) off.toInt64, .addSP (.x scratch0) (.x scratch0)])
    ++ c.storeInt dst scratch0

/-! ## instructions, blocks, functions -/

def Ctx.lowerStep (c : Ctx) (b : Nat) (s : Step) : Except StepFault (List (Line Instr)) :=
  let dst := s.results.headD 0
  match s.inst with
  | .iconst _ bits => .ok (code (.movImm (.x scratch0) bits.toInt64 :: c.storeInt dst scratch0))
  | .fconst _ bits => .ok (code (.movImm (.x scratch0) bits.toInt64 :: c.storeInt dst scratch0))
  | .binary op t x y => (c.binary op t x y dst).map code
  | .icmp cc t x y => .ok (code (c.icmp cc t x y dst))
  | .fcmp cc t x y => .ok (code (c.fcmp cc t x y dst))
  | .splat t x => (c.splat t x dst).map code
  | .extractLane t x lane =>
    .ok (code (copy t.lane (c.frame.home dst) (c.frame.home x + Int32.ofNat (8 * lane))))
  | .load t p off =>
    .ok (code (c.loadInt scratch1 p ++ c.loadFrom t (ptrAccess scratch1 off) dst))
  | .store t x p off =>
    .ok (code (c.loadInt scratch1 p ++ c.storeTo t (ptrAccess scratch1 off) x))
  | .stackLoad t s off => .ok (code (c.loadFrom t (spAccess (c.slotAddr s off)) dst))
  | .stackStore t x s off => .ok (code (c.storeTo t (spAccess (c.slotAddr s off)) x))
  | .stackAddr s off => .ok (code (c.stackAddr (c.slotAddr s off) dst))
  | .call fn args => (c.call fn args s.results).map code
  | .jump t => .ok (c.goto t)
  | .brif _ cond yes no => .ok (c.brif b cond yes no)
  | .ret args => .ok (code (c.ret args))

def Ctx.lowerSteps (c : Ctx) (b : Nat) : List Step → Except StepFault (List (Line Instr))
  | [] => .ok []
  | s :: ss => do
    let here ← c.lowerStep b s
    let rest ← c.lowerSteps b ss
    return here ++ rest

def padding (opts : Options) (fn : Func) (b : Nat) : List (Line Instr) :=
  if 0 < b && opts.alignLoops && fn.isLoopHeader b then [.instr (.align loopBoundary)] else []

def Ctx.lowerBlock (c : Ctx) (opts : Options) (b : Nat) (blk : Block) :
    Except FuncFault (List (Line Instr)) := do
  let body ← (c.lowerSteps b blk.steps.toList).mapError (.inBlock b)
  return padding opts c.fn b ++ .mark (blockLabel b) :: body

def Ctx.lowerBlocks (c : Ctx) (opts : Options) :
    Nat → List Block → Except FuncFault (List (Line Instr))
  | _, [] => .ok []
  | b, blk :: blks => do
    let here ← c.lowerBlock opts b blk
    let rest ← c.lowerBlocks opts (b + 1) blks
    return here ++ rest

/-- saves frame pointer and link register and makes room for the frame, in two steps of twelve bits -/
def prologue (fr : Frame) : List Instr :=
  let hi := fr.size.toUInt32 >>> 12
  let lo := fr.size.toUInt32 &&& 0xFFF
  [.pushFrame, .addImm (.x framePointer) (.x sp) 0 false]
    ++ (if hi ≠ 0 then [.subImm (.x sp) (.x sp) hi true] else [])
    ++ (if lo ≠ 0 then [.subImm (.x sp) (.x sp) lo false] else [])

def lower (fn : Func) (opts : Options) : Except FuncFault (List (Line Instr)) := do
  let params ← (passing paramLimits fn.sig.params).mapError .signature
  let returns ← (passing resultLimits fn.sig.returns).mapError .signature
  let c : Ctx := { fn, frame := fn.frame 0, returns }
  if maxFrame < c.frame.size then .error (.frame c.frame.size)
  let incoming := ((fn.blockParams 0).zip params).flatMap fun (v, loc) => c.spill v loc
  let blocks ← c.lowerBlocks opts 0 fn.blocks.toList
  return code (prologue c.frame ++ incoming) ++ blocks

end TreeJit.Compile.A64
