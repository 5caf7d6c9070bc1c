import TreeJit.SSA.Inst

/-!
# Functions

A function is a list of blocks of steps over numbered values, stack slots and imports.  Block 0 is
the entry; its parameters are the function's.  The same record serves while the function is still
being written: `sealed` says that no further branch to a block will come, `preds` counts the
branches so far.
-/

namespace TreeJit.SSA

/-- a region of the frame -/
structure Slot where
  size : Int
  align : Int
  deriving DecidableEq

structure Import where
  name : String
  sig : Signature
  deriving DecidableEq

structure Block where
  params : Array ValueNo := #[]
  steps : Array Step := #[]
  sealed : Bool := false
  preds : Nat := 0
  deriving DecidableEq

/-- whether the last step ends the block -/
def Block.isClosed (b : Block) : Bool :=
  match b.steps.back? with
  | some s => s.inst.isTerminator
  | none => false

structure Func where
  name : String
  sig : Signature
  /-- the type of every value -/
  values : Array Ty := #[]
  blocks : Array Block := #[]
  slots : Array Slot := #[]
  imports : Array Import := #[]
  deriving DecidableEq

namespace Func

def typeOf (f : Func) (v : Int) : Ty :=
  if v < 0 then .invalid 0 else f.values.getD v.toNat (.invalid 0)

def block? (f : Func) (b : Nat) : Option Block := f.blocks[b]?

def blockParams (f : Func) (b : Nat) : List ValueNo :=
  match f.blocks[b]? with
  | some blk => blk.params.toList
  | none => []

def steps (f : Func) : List Step := f.blocks.toList.flatMap fun b => b.steps.toList

/-- whether a block is the target of a branch from itself or from a later block -/
def isLoopHeader (f : Func) (b : Nat) : Bool :=
  (f.blocks.toList.drop b).any fun src =>
    src.steps.any fun s => s.inst.targets.any fun t => t.block == b

end Func

/-! ## names of things by number; a negative number names nothing -/

def valueName (v : Int) : String := if v < 0 then "v?" else s!"v{v}"

def blockName (b : Int) : String := if b < 0 then "block?" else s!"block{b}"

def slotName (s : Int) : String := s!"ss{s}"

def importName (r : Int) : String := s!"fn{r}"

end TreeJit.SSA
