import TreeJit.SSA.Body

/-!
# Drafts: construction with one lasting fault

A `Draft` keeps the first fault of the construction.  From then on every operation gives back the
answer for "nothing" (`-1` where a number is asked for) and changes nothing, so a caller may look
for the fault once, at the end.  All operations go through `Draft.attempt`.  `Draft.finish` checks
the complete function and hands it out; a draft is of no use afterwards.

`Action` is the list of operations as data, `Draft.act` performs one.
-/

namespace TreeJit.SSA

structure Draft where
  body : Body
  fault : Option Fault := none
  /-- the function was handed out -/
  done : Bool := false

namespace Draft

def new (name : String) (sig : Signature) : Draft where
  body := { fn := { name, sig } }
  fault :=
    match sig.check with
    | .ok () => none
    | .error f => some (.inSignature name f)

def obstacle (d : Draft) : Option Fault :=
  match d.fault with
  | some f => some f
  | none => if d.done then some .finished else none

/-- performs an operation on a sound draft; `nothing` is the answer of one that does not happen -/
def attempt {α : Type} (d : Draft) (nothing : α) (step : Body → Except Fault (Body × α)) :
    Draft × α :=
  match d.obstacle with
  | some f => ({ d with fault := some f }, nothing)
  | none =>
    match step d.body with
    | .ok (b, a) => ({ d with body := b }, a)
    | .error f => ({ d with fault := some f }, nothing)

theorem attempt_of_fault {α : Type} (d : Draft) (f : Fault) (a : α)
    (step : Body → Except Fault (Body × α)) (h : d.fault = some f) :
    d.attempt a step = (d, a) := by
  have ho : d.obstacle = some f := by simp [obstacle, h]
  unfold attempt
  rw [ho]
  cases d
  simp_all

/-! ## questions -/

def typeOf (d : Draft) (v : Int) : Ty := d.body.fn.typeOf v

def currentBlock (d : Draft) : Int :=
  match d.body.current with
  | some b => b
  | none => -1

def blockParams (d : Draft) (blk : Int) : List Int :=
  if blk < 0 then [] else (d.body.fn.blockParams blk.toNat).map Int.ofNat

/-! ## operations -/

def createBlock (d : Draft) : Draft × Int := d.attempt (-1) Body.createBlock

def switchTo (d : Draft) (blk : Int) : Draft × Unit := d.attempt () fun b => b.switchTo blk

def appendParam (d : Draft) (blk : Int) (t : Ty) : Draft × Int :=
  d.attempt (-1) fun b => b.appendParam blk t

def appendParams (d : Draft) (blk : Int) : List Ty → Draft × List Int
  | [] => (d, [])
  | t :: ts =>
    let (d1, v) := d.appendParam blk t
    let (d2, vs) := d1.appendParams blk ts
    (d2, v :: vs)

/-- gives a block the parameters of the signature -/
def appendFunctionParams (d : Draft) (blk : Int) : Draft × List Int :=
  d.appendParams blk d.body.fn.sig.params

def sealBlock (d : Draft) (blk : Int) : Draft × Unit := d.attempt () fun b => b.sealBlock blk

def sealAll (d : Draft) : Draft × Unit := d.attempt () Body.sealAll

def iconst (d : Draft) (t : Ty) (v : Int64) : Draft × Int := d.attempt (-1) fun b => b.iconst t v

def fconst (d : Draft) (t : Ty) (v : UInt64) : Draft × Int := d.attempt (-1) fun b => b.fconst t v

def binary (d : Draft) (op : BinOp) (x y : Int) : Draft × Int :=
  d.attempt (-1) fun b => b.binary op x y

def icmp (d : Draft) (cc : UInt8) (x y : Int) : Draft × Int := d.attempt (-1) fun b => b.icmp cc x y

def fcmp (d : Draft) (cc : UInt8) (x y : Int) : Draft × Int := d.attempt (-1) fun b => b.fcmp cc x y

def splat (d : Draft) (vt : Ty) (x : Int) : Draft × Int := d.attempt (-1) fun b => b.splat vt x

def extractLane (d : Draft) (x lane : Int) : Draft × Int :=
  d.attempt (-1) fun b => b.extractLane x lane

def load (d : Draft) (t : Ty) (ptr : Int) (offset : Int32) : Draft × Int :=
  d.attempt (-1) fun b => b.load t ptr offset

def store (d : Draft) (x ptr : Int) (offset : Int32) : Draft × Unit :=
  d.attempt () fun b => b.store x ptr offset

def createSlot (d : Draft) (size align : Int) : Draft × Int :=
  d.attempt (-1) fun b => b.createSlot size align

def stackLoad (d : Draft) (t : Ty) (slot : Int) (offset : Int32) : Draft × Int :=
  d.attempt (-1) fun b => b.stackLoad t slot offset

def stackStore (d : Draft) (x slot : Int) (offset : Int32) : Draft × Unit :=
  d.attempt () fun b => b.stackStore x slot offset

def stackAddr (d : Draft) (slot : Int) (offset : Int32) : Draft × Int :=
  d.attempt (-1) fun b => b.stackAddr slot offset

def importFn (d : Draft) (name : String) (sig : Signature) : Draft × Int :=
  d.attempt (-1) fun b => b.importFn name sig

def call (d : Draft) (ref : Int) (args : List Int) : Draft × List Int :=
  d.attempt [] fun b => b.call ref args

def jump (d : Draft) (blk : Int) (args : List Int) : Draft × Unit :=
  d.attempt () fun b => b.jump blk args

def brif (d : Draft) (cond yes : Int) (yesArgs : List Int) (no : Int) (noArgs : List Int) :
    Draft × Unit :=
  d.attempt () fun b => b.brif cond yes yesArgs no noArgs

def ret (d : Draft) (args : List Int) : Draft × Unit := d.attempt () fun b => b.ret args

def finish (d : Draft) : Draft × Except Fault Func :=
  match d.obstacle with
  | some f => ({ d with fault := some f }, .error f)
  | none =>
    match d.body.fn.verify with
    | .ok () => ({ d with done := true }, .ok d.body.fn)
    | .error f => ({ d with fault := some f }, .error f)

end Draft

/-! ## operations as data -/

inductive Action where
  | createBlock
  | switchTo (blk : Int)
  | appendParam (blk : Int) (t : Ty)
  | appendFunctionParams (blk : Int)
  | sealBlock (blk : Int)
  | sealAll
  | iconst (t : Ty) (v : Int64)
  | fconst (t : Ty) (v : UInt64)
  | binary (op : BinOp) (x y : Int)
  | icmp (cc : UInt8) (x y : Int)
  | fcmp (cc : UInt8) (x y : Int)
  | splat (vt : Ty) (x : Int)
  | extractLane (x lane : Int)
  | load (t : Ty) (ptr : Int) (offset : Int32)
  | store (x ptr : Int) (offset : Int32)
  | createSlot (size align : Int)
  | stackLoad (t : Ty) (slot : Int) (offset : Int32)
  | stackStore (x slot : Int) (offset : Int32)
  | stackAddr (slot : Int) (offset : Int32)
  | importFn (name : String) (sig : Signature)
  | call (ref : Int) (args : List Int)
  | jump (blk : Int) (args : List Int)
  | brif (cond yes : Int) (yesArgs : List Int) (no : Int) (noArgs : List Int)
  | ret (args : List Int)
  | finish

inductive Reply where
  | nothing
  | number (n : Int)
  | numbers (ns : List Int)
  | func (r : Except Fault Func)

private def reply {α : Type} (f : α → Reply) (r : Draft × α) : Draft × Reply := (r.1, f r.2)

def Draft.act (d : Draft) : Action → Draft × Reply
  | .createBlock => reply .number d.createBlock
  | .switchTo b => reply (fun _ => .nothing) (d.switchTo b)
  | .appendParam b t => reply .number (d.appendParam b t)
  | .appendFunctionParams b => reply .numbers (d.appendFunctionParams b)
  | .sealBlock b => reply (fun _ => .nothing) (d.sealBlock b)
  | .sealAll => reply (fun _ => .nothing) d.sealAll
  | .iconst t v => reply .number (d.iconst t v)
  | .fconst t v => reply .number (d.fconst t v)
  | .binary op x y => reply .number (d.binary op x y)
  | .icmp cc x y => reply .number (d.icmp cc x y)
  | .fcmp cc x y => reply .number (d.fcmp cc x y)
  | .splat t x => reply .number (d.splat t x)
  | .extractLane x l => reply .number (d.extractLane x l)
  | .load t p o => reply .number (d.load t p o)
  | .store x p o => reply (fun _ => .nothing) (d.store x p o)
  | .createSlot s a => reply .number (d.createSlot s a)
  | .stackLoad t s o => reply .number (d.stackLoad t s o)
  | .stackStore x s o => reply (fun _ => .nothing) (d.stackStore x s o)
  | .stackAddr s o => reply .number (d.stackAddr s o)
  | .importFn n s => reply .number (d.importFn n s)
  | .call r xs => reply .numbers (d.call r xs)
  | .jump b xs => reply (fun _ => .nothing) (d.jump b xs)
  | .brif c y ys n ns => reply (fun _ => .nothing) (d.brif c y ys n ns)
  | .ret xs => reply (fun _ => .nothing) (d.ret xs)
  | .finish => reply .func d.finish

def Draft.perform (d : Draft) : List Action → Draft
  | [] => d
  | a :: as => (d.act a).1.perform as

end TreeJit.SSA
