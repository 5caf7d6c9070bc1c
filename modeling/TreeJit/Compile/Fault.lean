import TreeJit.Code.Listing
import TreeJit.SSA.Passing

/-!
# Why a function cannot be compiled

Both machines keep every value in its home in the frame and use registers only within one
instruction, so few things can go wrong: too many values for the registers of the calling
convention, a frame beyond the machine's reach, or a listing that cannot be assembled.  The labels
of a listing are the blocks (`blockLabel`) and, for a conditional branch at the end of a block, the
place of its second half (`elseLabel`).
-/

namespace TreeJit.Compile

open SSA

inductive StepFault where
  | call (name : String) (f : SSA.Fault)
  | unsupported (op : Opcode) (t : Ty)
  deriving DecidableEq

def StepFault.message : StepFault → String
  | .call name f => "call " ++ name ++ ": " ++ f.message
  | .unsupported op t => "unsupported " ++ op.name ++ "." ++ t.name

inductive FuncFault where
  | signature (f : SSA.Fault)
  | frame (size : Int32)
  | inBlock (b : Nat) (f : StepFault)
  deriving DecidableEq

def FuncFault.message : FuncFault → String
  | .signature f => f.message
  | .frame size => s!"frame of {size} bytes is too large"
  | .inBlock b f => blockName b ++ ": " ++ f.message

inductive Fault where
  /-- there is no function -/
  | missing (m : Machine)
  | function (m : Machine) (name : String) (f : FuncFault)
  | assembly (f : AsmFault)
  deriving DecidableEq

def Fault.message : Fault → String
  | .missing m => m.asmName ++ ": nil function"
  | .function m name f => m.asmName ++ ": compile " ++ quoted name ++ ": " ++ f.message
  | .assembly f => f.message

/-- the construction fault at the root of a compile fault -/
def Fault.cause? : Fault → Option SSA.Fault
  | .function _ _ (.signature f) => some f
  | .function _ _ (.inBlock _ (.call _ f)) => some f
  | _ => none

structure Options where
  /-- loop headers start at a multiple of 16 -/
  alignLoops : Bool := false
  deriving DecidableEq

/-- the boundary of aligned loop headers -/
def loopBoundary : Int := 16

def blockLabel (b : Nat) : String := s!"block{b}"

def elseLabel (b : Nat) : String := s!"else{b}"

end TreeJit.Compile
