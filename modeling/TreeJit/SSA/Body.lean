import TreeJit.SSA.Fault
import TreeJit.Word.Binary

/-!
# Writing a function, one step at a time

`Body` is a function under construction with the block that is being filled.  Every operation on
it checks its arguments first and then changes the body in one go, so an operation that fails
leaves no trace: its result is a fault and nothing else.  Callers name values, blocks, slots and
imports by integers of their own; `Body.operand`, `Body.blockNo` and `Body.slotNo` turn them into
numbers of the body or refuse them.
-/

namespace TreeJit.SSA

structure Body where
  fn : Func
  /-- the block that takes new instructions -/
  current : Option Nat := none

structure Operand where
  no : ValueNo
  ty : Ty
  deriving DecidableEq

def require (c : Bool) (f : Fault) : Except Fault Unit := if c then .ok () else .error f

namespace Body

/-! ## looking things up -/

def operand (b : Body) (v : Int) : Except Fault Operand :=
  if v < 0 then .error (.foreignValue v)
  else
    match b.fn.values[v.toNat]? with
    | some t => .ok ⟨v.toNat, t⟩
    | none => .error (.foreignValue v)

/-- the values of a list, refused at the first that is not one -/
def operands (b : Body) : List Int → Except Fault (List Operand)
  | [] => .ok []
  | v :: vs => do
    let x ← b.operand v
    let xs ← b.operands vs
    return x :: xs

def blockNo (b : Body) (blk : Int) : Except Fault Nat :=
  if 0 ≤ blk ∧ blk.toNat < b.fn.blocks.size then .ok blk.toNat else .error (.noBlock blk)

/-- the slot of an access of `width` bytes that lies inside it -/
def slotNo (b : Body) (op : Opcode) (slot : Int) (offset : Int32) (width : Nat) :
    Except Fault Nat :=
  if slot < 0 then .error (.noSlot op slot)
  else
    match b.fn.slots[slot.toNat]? with
    | none => .error (.noSlot op slot)
    | some s =>
      if 0 ≤ offset.toInt ∧ offset.toInt + width ≤ s.size then .ok slot.toNat
      else .error (.slotRange op width offset s.size slot.toNat)

def pointer (b : Body) (op : Opcode) (ptr : Int) : Except Fault ValueNo := do
  let p ← b.operand ptr
  require (p.ty == .pointer) (.mismatch op (.address p.ty))
  return p.no

/-- the first position where the types differ from the wanted ones -/
def firstMismatch (site : ArgSite) : Nat → List Operand → List Ty → Except Fault Unit
  | i, x :: xs, t :: ts =>
    if x.ty = t then firstMismatch site (i + 1) xs ts else .error (.argType site i x.ty t)
  | _, _, _ => .ok ()

def arguments (b : Body) (site : ArgSite) (want : List Ty) (args : List Int) :
    Except Fault (List ValueNo) := do
  require (want.length == args.length) (.argCount site want.length args.length)
  let xs ← b.operands args
  firstMismatch site 0 xs want
  return xs.map Operand.no

def target (b : Body) (blk : Int) (args : List Int) : Except Fault Target := do
  let n ← b.blockNo blk
  require (!(b.fn.blocks.getD n {}).sealed) (.sealed blk)
  let want := (b.fn.blockParams n).map fun (p : ValueNo) => b.fn.typeOf p
  let xs ← b.arguments (.branch blk) want args
  return ⟨n, xs⟩

/-! ## changing the body -/

def newValues (b : Body) (ts : List Ty) : Body × List ValueNo :=
  ({ b with fn := { b.fn with values := b.fn.values ++ ts } },
    List.range' b.fn.values.size ts.length)

def mapBlock (b : Body) (n : Nat) (f : Block → Block) : Body :=
  { b with fn := { b.fn with blocks := b.fn.blocks.modify n f } }

def countBranch (b : Body) (t : Target) : Body :=
  b.mapBlock t.block fun blk => { blk with preds := blk.preds + 1 }

def emit (b : Body) (inst : Inst) (results : List Ty) : Except Fault (Body × List ValueNo) :=
  match b.current with
  | none => .error (.noActiveBlock inst.opcode)
  | some cur =>
    if (b.fn.blocks.getD cur {}).isClosed then .error (.afterTerminator inst.opcode cur)
    else
      let (b', rs) := b.newValues results
      .ok (b'.mapBlock cur (fun blk => { blk with steps := blk.steps.push ⟨inst, rs⟩ }), rs)

def emitOne (b : Body) (inst : Inst) (t : Ty) : Except Fault (Body × Int) := do
  let (b', _) ← b.emit inst [t]
  return (b', (b.fn.values.size : Int))

def emitNone (b : Body) (inst : Inst) : Except Fault (Body × Unit) := do
  let (b', _) ← b.emit inst []
  return (b', ())

/-! ## blocks -/

def createBlock (b : Body) : Except Fault (Body × Int) :=
  .ok ({ b with fn := { b.fn with blocks := b.fn.blocks.push {} } }, (b.fn.blocks.size : Int))

def switchTo (b : Body) (blk : Int) : Except Fault (Body × Unit) := do
  let n ← b.blockNo blk
  return ({ b with current := some n }, ())

/-- a parameter, declared before any branch to the block -/
def appendParam (b : Body) (blk : Int) (t : Ty) : Except Fault (Body × Int) := do
  let n ← b.blockNo blk
  require t.isValid (.blockParamType blk)
  require ((b.fn.blocks.getD n {}).preds == 0) (.paramAfterBranch blk)
  let v := b.fn.values.size
  let (b', _) := b.newValues [t]
  return (b'.mapBlock n (fun d => { d with params := d.params.push v }), (v : Int))

def sealBlock (b : Body) (blk : Int) : Except Fault (Body × Unit) := do
  let n ← b.blockNo blk
  return (b.mapBlock n (fun d => { d with sealed := true }), ())

def sealAll (b : Body) : Except Fault (Body × Unit) :=
  .ok ({ b with fn := { b.fn with blocks := b.fn.blocks.map fun d => { d with sealed := true } } },
    ())

/-! ## constants -/

/-- the low bytes of an integer, as the constant of an integer type -/
def truncateTo (t : Ty) (bits : UInt64) : UInt64 :=
  match t with
  | .i8 => bits &&& 0xFF
  | .i16 => bits &&& 0xFFFF
  | .i32 => bits &&& 0xFFFFFFFF
  | _ => bits

def iconst (b : Body) (t : Ty) (v : Int64) : Except Fault (Body × Int) := do
  require t.isInt (.mismatch .iconst (.notInteger t))
  b.emitOne (.iconst t (truncateTo t v.toUInt64)) t

/-- a float constant, given by the bits of a double -/
def fconst (b : Body) (t : Ty) (v : UInt64) : Except Fault (Body × Int) :=
  match t with
  | .f64 => b.emitOne (.fconst t v) t
  | .f32 => b.emitOne (.fconst t (narrow v).toUInt64) t
  | t => .error (.mismatch .fconst (.notFloat t))

/-! ## arithmetic -/

def binary (b : Body) (op : BinOp) (x y : Int) : Except Fault (Body × Int) := do
  let x ← b.operand x
  let y ← b.operand y
  require (x.ty == y.ty) (.mismatch op.opcode (.differ x.ty y.ty))
  require (op.allows x.ty) (.mismatch op.opcode (.unsupported x.ty))
  b.emitOne (.binary op x.ty x.no y.no) x.ty

/-- compares integers; the result is 1 or 0 -/
def icmp (b : Body) (cc : UInt8) (x y : Int) : Except Fault (Body × Int) := do
  let x ← b.operand x
  let y ← b.operand y
  require (x.ty == y.ty && x.ty.isWideInt) (.mismatch .icmp (.differ x.ty y.ty))
  match IntCond.ofCode? cc with
  | none => .error (.mismatch .icmp (.condition (IntCond.nameOfCode cc)))
  | some c => b.emitOne (.icmp c x.ty x.no y.no) .i8

/-- the type of a float comparison: a mask for vectors, a truth value for scalars -/
def fcmpResult (t : Ty) : Ty := if t = .f64x2 then .i64x2 else .i8

def fcmp (b : Body) (cc : UInt8) (x y : Int) : Except Fault (Body × Int) := do
  let x ← b.operand x
  let y ← b.operand y
  require (x.ty == y.ty && (x.ty.isFloat || x.ty == .f64x2)) (.mismatch .fcmp (.differ x.ty y.ty))
  match FloatCond.ofCode? cc with
  | none => .error (.mismatch .fcmp (.condition (FloatCond.nameOfCode cc)))
  | some c => b.emitOne (.fcmp c x.ty x.no y.no) (fcmpResult x.ty)

/-- a scalar in every lane of the vector type `vt` -/
def splat (b : Body) (vt : Ty) (x : Int) : Except Fault (Body × Int) := do
  let x ← b.operand x
  require (vt.isVector && vt.lane == x.ty) (.mismatch .splat (.splat x.ty vt))
  b.emitOne (.splat vt x.no) vt

def extractLane (b : Body) (x : Int) (lane : Int) : Except Fault (Body × Int) := do
  let x ← b.operand x
  require (x.ty.isVector && decide (0 ≤ lane) && decide (lane < x.ty.lanes))
    (.mismatch .extractLane (.lane lane x.ty))
  b.emitOne (.extractLane x.ty x.no lane.toNat) x.ty.lane

/-! ## memory and stack slots -/

def load (b : Body) (t : Ty) (ptr : Int) (offset : Int32) : Except Fault (Body × Int) := do
  require t.isValid (.mismatch .load .invalid)
  let p ← b.pointer .load ptr
  b.emitOne (.load t p offset) t

def store (b : Body) (x ptr : Int) (offset : Int32) : Except Fault (Body × Unit) := do
  let x ← b.operand x
  let p ← b.pointer .store ptr
  b.emitNone (.store x.ty x.no p offset)

/-- the alignments a slot can ask for -/
def slotAligns : List Int := [1, 2, 4, 8, 16]

/-- a slot of `size` bytes; alignment 0 stands for 8 -/
def createSlot (b : Body) (size align : Int) : Except Fault (Body × Int) := do
  let align := if align = 0 then 8 else align
  require (decide (0 < size) && slotAligns.contains align) (.slotShape size align)
  return ({ b with fn := { b.fn with slots := b.fn.slots.push ⟨size, align⟩ } },
    (b.fn.slots.size : Int))

def stackLoad (b : Body) (t : Ty) (slot : Int) (offset : Int32) : Except Fault (Body × Int) := do
  require t.isValid (.mismatch .stackLoad .invalid)
  let s ← b.slotNo .stackLoad slot offset t.bytes
  b.emitOne (.stackLoad t s offset) t

def stackStore (b : Body) (x slot : Int) (offset : Int32) : Except Fault (Body × Unit) := do
  let x ← b.operand x
  let s ← b.slotNo .stackStore slot offset x.ty.bytes
  b.emitNone (.stackStore x.ty x.no s offset)

def stackAddr (b : Body) (slot : Int) (offset : Int32) : Except Fault (Body × Int) := do
  let s ← b.slotNo .stackAddr slot offset 0
  b.emitOne (.stackAddr s offset) .pointer

/-! ## calls and control flow -/

def importFn (b : Body) (name : String) (sig : Signature) : Except Fault (Body × Int) := do
  require (name != "") .emptyImport
  match sig.check with
  | .error f => .error (.inImport name f)
  | .ok () =>
    return ({ b with fn := { b.fn with imports := b.fn.imports.push ⟨name, sig⟩ } },
      (b.fn.imports.size : Int))

def call (b : Body) (ref : Int) (args : List Int) : Except Fault (Body × List Int) :=
  if ref < 0 then .error (.unknownImport ref)
  else
    match b.fn.imports[ref.toNat]? with
    | none => .error (.unknownImport ref)
    | some ext => do
      let xs ← b.arguments (.call ext.name) ext.sig.params args
      let (b', rs) ← b.emit (.call ref.toNat xs) ext.sig.returns
      return (b', rs.map Int.ofNat)

def jump (b : Body) (blk : Int) (args : List Int) : Except Fault (Body × Unit) := do
  let t ← b.target blk args
  let (b', _) ← b.emit (.jump t) []
  return (b'.countBranch t, ())

def brif (b : Body) (cond : Int) (yes : Int) (yesArgs : List Int) (no : Int) (noArgs : List Int) :
    Except Fault (Body × Unit) := do
  let c ← b.operand cond
  require c.ty.isInt (.mismatch .brif (.branchOn c.ty))
  let t ← b.target yes yesArgs
  let e ← b.target no noArgs
  let (b', _) ← b.emit (.brif c.ty c.no t e) []
  return ((b'.countBranch t).countBranch e, ())

def ret (b : Body) (args : List Int) : Except Fault (Body × Unit) := do
  let xs ← b.arguments .ret b.fn.sig.returns args
  b.emitNone (.ret xs)

end Body

/-! ## the rules for a complete function -/

/-- the first block that is not sealed or not ended, from block `i` on -/
def checkBlocks (fn : String) : Nat → List Block → Except Fault Unit
  | _, [] => .ok ()
  | i, b :: bs => do
    require b.sealed (.unsealed fn i)
    require b.isClosed (.unterminated fn i)
    checkBlocks fn (i + 1) bs

/-- the first position where the entry block departs from the signature -/
def checkEntry (f : Func) : Nat → List ValueNo → List Ty → Except Fault Unit
  | i, p :: ps, t :: ts =>
    if f.typeOf p = t then checkEntry f (i + 1) ps ts
    else .error (.entryType f.name i (f.typeOf p) t)
  | _, _, _ => .ok ()

/-- the entry block takes the function's parameters and no branches; every block is sealed and
ended -/
def Func.verify (f : Func) : Except Fault Unit :=
  match f.blocks[0]? with
  | none => .error (.noBlocks f.name)
  | some entry => do
    require (entry.params.size == f.sig.params.length)
      (.entryArity f.name entry.params.size f.sig.params.length)
    checkEntry f 0 entry.params.toList f.sig.params
    require (entry.preds == 0) (.entryTarget f.name)
    checkBlocks f.name 0 f.blocks.toList

end TreeJit.SSA
