import TreeJit.Host.Fault

/-!
# Faults of a compilation unit

What can go wrong while functions are built in a unit.  `Fault.kind?` gives the kind a caller can
test for; a fault that is passed on from the function under construction or from the host keeps its
own kind (`Fault.ssa?`, `Fault.host?`).
-/

namespace TreeJit.Emit

open SSA

inductive SlotCategory where
  /-- the bits of a value -/
  | value
  /-- a pointer to elements -/
  | ref
  deriving DecidableEq, Repr

def SlotCategory.name : SlotCategory → String
  | .value => "value"
  | .ref => "ref"

inductive FaultKind where
  | builderBusy | unitFailed | finalized | notFinalized | resultArity | paramIndex
  | noStaticStack | stackCapacity | slotCategory | slotUndefined | columnUnbound
  | vectorBody | invalidKind
  deriving DecidableEq, Repr

def FaultKind.text : FaultKind → String
  | .builderBusy => "codegen: another function builder is active"
  | .unitFailed => "codegen: compilation unit failed"
  | .finalized => "codegen: function builder already finalized"
  | .notFinalized => "codegen: function has no finalized body"
  | .resultArity => "codegen: native operation must return exactly one value"
  | .paramIndex => "codegen: parameter index out of range"
  | .noStaticStack => "codegen: static stack not created"
  | .stackCapacity => "codegen: static stack capacity exceeded"
  | .slotCategory => "codegen: stack slot used with a different category or kind"
  | .slotUndefined => "codegen: stack slot not defined"
  | .columnUnbound => "codegen: column not bound"
  | .vectorBody => "codegen: invalid vector loop"
  | .invalidKind => "codegen: invalid value kind"

inductive LoopFault where
  | nested (fn : String)
  | array (column : Int) (t : Ty)
  | scalar (column : Int) (t : Ty)
  | result (t : Ty)
  | count (t : Ty)
  | body (t : Ty)
  deriving DecidableEq

def LoopFault.text : LoopFault → String
  | .nested fn => "nested vector loop in " ++ quoted fn
  | .array c t => s!"column {c} array is " ++ t.name
  | .scalar c t => s!"column {c} scalar is " ++ t.name
  | .result t => "result is " ++ t.name
  | .count t => "count is " ++ t.name
  | .body t => "body produced " ++ t.name

inductive Fault where
  /-- the unit refuses work after `cause` -/
  | unitFailed (cause : Fault)
  | busy (fn : String)
  | signature (fn : String) (f : SSA.Fault)
  /-- no complete body waits under this number -/
  | noBody (id : Int)
  | finalized (fn : String)
  | paramIndex (i : Int) (count : Nat) (fn : String)
  | resultArity (op : String) (count : Nat)
  /-- an operation the module does not know -/
  | lateOperation (op : String)
  | secondScratch (fn : String)
  | scratchSize (size : Int)
  | scratchFull (slot : String) (width offset capacity : Int32)
  | noScratch (slot : String)
  | slotUse (slot : String) (is : SlotCategory × Ty) (usedAs : SlotCategory × Ty)
  | slotCategory (slot : String) (is : SlotCategory)
  | slotUndefined (slot : String)
  | slotValue (v : Int) (slot : String)
  | slotPointer (slot : String) (t : Ty)
  | slotElement (slot : String)
  | elementType (slot : String) (want got : Ty)
  | unbound (column : Int) (fn : String)
  | loop (f : LoopFault)
  | ssa (f : SSA.Fault)
  | host (f : Host.Fault)

namespace Fault

def kind? : Fault → Option FaultKind
  | .unitFailed _ => some .unitFailed
  | .busy _ => some .builderBusy
  | .signature .. | .slotElement _ => some .invalidKind
  | .noBody _ => some .notFinalized
  | .finalized _ => some .finalized
  | .paramIndex .. => some .paramIndex
  | .resultArity .. => some .resultArity
  | .scratchSize _ | .scratchFull .. => some .stackCapacity
  | .noScratch _ => some .noStaticStack
  | .slotUse .. | .slotCategory .. => some .slotCategory
  | .slotUndefined _ => some .slotUndefined
  | .unbound .. => some .columnUnbound
  | .loop _ => some .vectorBody
  | .lateOperation _ | .secondScratch _ | .slotValue .. | .slotPointer .. | .elementType .. => none
  | .ssa _ | .host _ => none

def ssaKind? : Fault → Option SSA.FaultKind
  | .slotValue .. => some .foreignValue
  | .slotPointer .. | .elementType .. => some .typeMismatch
  | .ssa f => some f.kind
  | _ => none

def hostKind? : Fault → Option Host.FaultKind
  | .lateOperation _ => some .unknownOperation
  | .host f => f.kind?
  | _ => none

def host? : Fault → Option Host.Fault
  | .host f => some f
  | _ => none

def slotUseText (u : SlotCategory × Ty) : String := u.1.name ++ " " ++ u.2.name

def message : Fault → String
  | .unitFailed f => FaultKind.unitFailed.text ++ ": " ++ f.message
  | .busy fn => FaultKind.builderBusy.text ++ ": " ++ quoted fn
  | .signature fn f => FaultKind.invalidKind.text ++ ": " ++ quoted fn ++ ": " ++ f.message
  | .noBody id => FaultKind.notFinalized.text ++ s!": id {id}"
  | .finalized fn => FaultKind.finalized.text ++ ": " ++ quoted fn
  | .paramIndex i n fn => FaultKind.paramIndex.text ++ s!": {i} of {n} in " ++ quoted fn
  | .resultArity op n => FaultKind.resultArity.text ++ ": " ++ quoted op ++ s!" returns {n} values"
  | .lateOperation op =>
    Host.FaultKind.unknownOperation.text ++ ": " ++ quoted op
      ++ " was registered after the module was built"
  | .secondScratch fn => "codegen: static stack of " ++ quoted fn ++ " already created"
  | .scratchSize n => FaultKind.stackCapacity.text ++ s!": capacity {n}"
  | .scratchFull s w o c =>
    FaultKind.stackCapacity.text ++ ": " ++ quoted s ++ s!" needs {w} bytes at {o} of {c}"
  | .noScratch s => FaultKind.noStaticStack.text ++ ": slot " ++ quoted s
  | .slotUse s i u =>
    FaultKind.slotCategory.text ++ ": " ++ quoted s ++ " is " ++ slotUseText i ++ ", used as "
      ++ slotUseText u
  | .slotCategory s i => FaultKind.slotCategory.text ++ ": " ++ quoted s ++ " is a " ++ i.name ++ " slot"
  | .slotUndefined s => FaultKind.slotUndefined.text ++ ": " ++ quoted s
  | .slotValue v s =>
    SSA.FaultKind.foreignValue.text ++ ": " ++ valueName v ++ " for slot " ++ quoted s
  | .slotPointer s t =>
    SSA.FaultKind.typeMismatch.text ++ ": slot " ++ quoted s ++ " needs a pointer, got " ++ t.name
  | .slotElement s => FaultKind.invalidKind.text ++ ": element kind of " ++ quoted s
  | .elementType s want got =>
    SSA.FaultKind.typeMismatch.text ++ ": " ++ quoted s ++ " holds " ++ want.name
      ++ " elements, got " ++ got.name
  | .unbound c fn => FaultKind.columnUnbound.text ++ s!": {c} in " ++ quoted fn
  | .loop f => FaultKind.vectorBody.text ++ ": " ++ f.text
  | .ssa f => f.message
  | .host f => f.message

end Fault

end TreeJit.Emit
