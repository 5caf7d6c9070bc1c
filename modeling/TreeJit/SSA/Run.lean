import TreeJit.SSA.Frame
import TreeJit.SSA.Value

/-!
# Running functions

An interpreter.  A state holds a value for every value number and the memory.  `execStep` performs
one instruction, `execSteps` the instructions of a block up to its end, `runFrom` block after block;
the number of blocks entered is bounded by fuel, and running out of it is an outcome of its own.

Stack slots are bytes of the memory, at their places in the frame above the stack pointer.  Calls
leave the function: `World.call` says what a name does, given the stack pointer below this frame.
-/

namespace TreeJit.SSA

inductive RunFault where
  | outOfFuel
  /-- a block without an end, or a branch to no block -/
  | stuck
  /-- a call to a name that means nothing -/
  | unknown (name : String)
  deriving DecidableEq

abbrev RunResult := Except RunFault (List Val × Memory)

/-- what lies outside a function -/
structure World where
  float : FloatOps
  /-- the called name, the stack pointer, the arguments and the memory -/
  call : String → UInt64 → List Val → Memory → RunResult

structure State where
  regs : Array Val
  mem : Memory

namespace State

def get (st : State) (v : ValueNo) : Val := st.regs.getD v ⟨0, 0⟩

def getAll (st : State) (vs : List ValueNo) : List Val := vs.map st.get

def set (st : State) (v : ValueNo) (x : Val) : State := { st with regs := st.regs.setIfInBounds v x }

def setAll (st : State) : List ValueNo → List Val → State
  | v :: vs, x :: xs => (st.set v x).setAll vs xs
  | _, _ => st

end State

inductive Next where
  | on (st : State)
  | branch (st : State) (block : Nat) (args : List Val)
  | leave (st : State) (results : List Val)

/-- the fixed surroundings of a run: the function, its frame and the stack pointer -/
structure Activation where
  fn : Func
  frame : Frame
  sp : UInt64

def Activation.slotAddr (a : Activation) (slot : Nat) (off : Int32) : UInt64 :=
  addressOf a.sp (a.frame.slot slot + off)

def execStep (w : World) (a : Activation) (st : State) (s : Step) : Except RunFault Next :=
  let dst := s.results.headD 0
  match s.inst with
  | .iconst _ bits => .ok (.on (st.set dst ⟨bits, 0⟩))
  | .fconst _ bits => .ok (.on (st.set dst ⟨bits, 0⟩))
  | .binary op t x y => .ok (.on (st.set dst (evalBinary w.float op t (st.get x) (st.get y))))
  | .icmp c t x y => .ok (.on (st.set dst (evalICmp c t (st.get x) (st.get y))))
  | .fcmp c t x y => .ok (.on (st.set dst (evalFCmp w.float c t (st.get x) (st.get y))))
  | .splat _ x => .ok (.on (st.set dst ⟨(st.get x).lo, (st.get x).lo⟩))
  | .extractLane _ x lane => .ok (.on (st.set dst (evalLane lane (st.get x))))
  | .load t p off => .ok (.on (st.set dst (readVal st.mem t (addressOf (st.get p).lo off))))
  | .store t x p off =>
    .ok (.on { st with mem := writeVal st.mem t (addressOf (st.get p).lo off) (st.get x) })
  | .stackLoad t slot off => .ok (.on (st.set dst (readVal st.mem t (a.slotAddr slot off))))
  | .stackStore t x slot off =>
    .ok (.on { st with mem := writeVal st.mem t (a.slotAddr slot off) (st.get x) })
  | .stackAddr slot off => .ok (.on (st.set dst ⟨a.slotAddr slot off, 0⟩))
  | .call fn args =>
    let ext := a.fn.imports.getD fn ⟨"", .empty⟩
    match w.call ext.name a.sp (Val.keepAll ext.sig.params (st.getAll args)) st.mem with
    | .error f => .error f
    | .ok (vals, mem) =>
      .ok (.on ({ st with mem }.setAll s.results (Val.keepAll ext.sig.returns vals)))
  | .jump t => .ok (.branch st t.block (st.getAll t.args))
  | .brif _ c yes no =>
    let t := if (st.get c).lo = 0 then no else yes
    .ok (.branch st t.block (st.getAll t.args))
  | .ret args => .ok (.leave st (st.getAll args))

def execSteps (w : World) (a : Activation) : State → List Step → Except RunFault Next
  | _, [] => .error .stuck
  | st, s :: ss =>
    match execStep w a st s with
    | .error f => .error f
    | .ok (.on st') => execSteps w a st' ss
    | .ok next => .ok next

/-- runs from the start of a block with values for its parameters -/
def runFrom (w : World) (a : Activation) : Nat → State → Nat → List Val → RunResult
  | 0, _, _, _ => .error .outOfFuel
  | fuel + 1, st, block, args =>
    match a.fn.blocks[block]? with
    | none => .error .stuck
    | some blk =>
      match execSteps w a (st.setAll blk.params.toList args) blk.steps.toList with
      | .error f => .error f
      | .ok (.on _) => .error .stuck
      | .ok (.branch st' b vals) => runFrom w a fuel st' b vals
      | .ok (.leave st' vals) => .ok (vals, st'.mem)

/-- calls a function; its frame lies below the stack pointer of the caller -/
def Func.run (f : Func) (w : World) (fuel : Nat) (sp : UInt64) (args : List Val) (mem : Memory) :
    RunResult :=
  let frame := f.frame 0
  let a : Activation := { fn := f, frame, sp := sp - frame.size.toInt64.toUInt64 }
  let st : State := { regs := Array.replicate f.values.size ⟨0, 0⟩, mem }
  runFrom w a fuel st 0 (Val.keepAll f.sig.params args)

end TreeJit.SSA
