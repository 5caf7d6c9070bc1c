import TreeJit.SSA.Func
import TreeJit.Text.Quoted

/-!
# Faults of construction

`Fault` lists everything that can be wrong with a function under construction or with its
signature; `Fault.kind` sorts the causes into the fifteen kinds a caller can test for, and
`Fault.message` is the wording.
-/

namespace TreeJit.SSA

inductive FaultKind where
  | invalidType | typeMismatch | arityMismatch
  | noActiveBlock | blockTerminated | blockInUse | sealedBlock | unsealedBlock | unterminatedBlock
  | foreignValue | invalidBlock | invalidSlot | finished
  | tooManyParams | tooManyResults
  deriving DecidableEq, Repr

def FaultKind.text : FaultKind → String
  | .invalidType => "ir: invalid type"
  | .typeMismatch => "ir: type mismatch"
  | .arityMismatch => "ir: arity mismatch"
  | .noActiveBlock => "ir: no active block"
  | .blockTerminated => "ir: block already terminated"
  | .blockInUse => "ir: block already has predecessors"
  | .sealedBlock => "ir: branch to sealed block"
  | .unsealedBlock => "ir: unsealed block"
  | .unterminatedBlock => "ir: block has no terminator"
  | .foreignValue => "ir: value does not belong to this function"
  | .invalidBlock => "ir: invalid block"
  | .invalidSlot => "ir: invalid stack slot"
  | .finished => "ir: builder already finalized"
  | .tooManyParams => "ir: too many register parameters"
  | .tooManyResults => "ir: too many register results"

inductive RegClass where
  | int
  | float
  deriving DecidableEq, Repr

def RegClass.name : RegClass → String
  | .int => "integer"
  | .float => "float"

inductive Mismatch where
  | notInteger (t : Ty)
  | notFloat (t : Ty)
  | differ (a b : Ty)
  | unsupported (t : Ty)
  /-- a condition number without meaning, by name -/
  | condition (name : String)
  | splat (elem vec : Ty)
  | lane (n : Int) (t : Ty)
  | address (t : Ty)
  | invalid
  | branchOn (t : Ty)
  deriving DecidableEq

def Mismatch.text : Mismatch → String
  | .notInteger t => t.name ++ " is not an integer type"
  | .notFloat t => t.name ++ " is not a float type"
  | .differ a b => a.name ++ " vs " ++ b.name
  | .unsupported t => "unsupported operand type " ++ t.name
  | .condition n => "condition " ++ n
  | .splat e v => e.name ++ " into " ++ v.name
  | .lane n t => s!"lane {n} of " ++ t.name
  | .address t => "address operand is " ++ t.name
  | .invalid => "invalid type"
  | .branchOn t => "condition is " ++ t.name

inductive ArgSite where
  | call (name : String)
  | branch (block : Int)
  | ret
  deriving DecidableEq

def ArgSite.text : ArgSite → String
  | .call n => "call " ++ n
  | .branch b => "branch to " ++ blockName b
  | .ret => "return"

inductive Fault where
  /-- no type has this name -/
  | typeName (s : String)
  | paramType (t : Ty)
  | returnType (t : Ty)
  /-- the fault is in the signature of the function under construction -/
  | inSignature (fn : String) (f : Fault)
  /-- the fault is in the signature of an import -/
  | inImport (name : String) (f : Fault)
  | emptyImport
  | unknownImport (ref : Int)
  | blockParamType (b : Int)
  | finished
  | noBlock (b : Int)
  | paramAfterBranch (b : Int)
  | foreignValue (v : Int)
  | noActiveBlock (op : Opcode)
  | afterTerminator (op : Opcode) (b : Nat)
  | mismatch (op : Opcode) (m : Mismatch)
  | argCount (site : ArgSite) (want got : Nat)
  | argType (site : ArgSite) (i : Nat) (got want : Ty)
  | slotShape (size align : Int)
  | noSlot (op : Opcode) (slot : Int)
  | slotRange (op : Opcode) (width : Nat) (offset : Int32) (size : Int) (slot : Nat)
  | sealed (b : Int)
  | noBlocks (fn : String)
  | entryArity (fn : String) (got want : Nat)
  | entryType (fn : String) (i : Nat) (got want : Ty)
  | entryTarget (fn : String)
  | unsealed (fn : String) (b : Nat)
  | unterminated (fn : String) (b : Nat)
  | tooManyParams (c : RegClass) (limit : Int)
  | tooManyResults (c : RegClass) (limit : Int)
  deriving DecidableEq

namespace Fault

def kind : Fault → FaultKind
  | .typeName _ => .invalidType
  | .paramType _ => .invalidType
  | .returnType _ => .invalidType
  | .inSignature _ f => f.kind
  | .inImport _ f => f.kind
  | .emptyImport => .invalidType
  | .unknownImport _ => .invalidType
  | .blockParamType _ => .invalidType
  | .finished => .finished
  | .noBlock _ => .invalidBlock
  | .paramAfterBranch _ => .blockInUse
  | .foreignValue _ => .foreignValue
  | .noActiveBlock _ => .noActiveBlock
  | .afterTerminator .. => .blockTerminated
  | .mismatch .. => .typeMismatch
  | .argCount .. => .arityMismatch
  | .argType .. => .typeMismatch
  | .slotShape .. => .invalidSlot
  | .noSlot .. => .invalidSlot
  | .slotRange .. => .invalidSlot
  | .sealed _ => .sealedBlock
  | .noBlocks _ => .unterminatedBlock
  | .entryArity .. => .arityMismatch
  | .entryType .. => .typeMismatch
  | .entryTarget _ => .blockInUse
  | .unsealed .. => .unsealedBlock
  | .unterminated .. => .unterminatedBlock
  | .tooManyParams .. => .tooManyParams
  | .tooManyResults .. => .tooManyResults

/-- the part of the message after the kind; empty where there is none -/
def detail : Fault → String
  | .typeName s => quoted s
  | .paramType t => "parameter " ++ t.name
  | .returnType t => "return " ++ t.name
  | .inSignature _ f => f.detail
  | .inImport _ f => f.detail
  | .emptyImport => "import with empty name"
  | .unknownImport r => "unknown function reference " ++ importName r
  | .blockParamType b => "parameter of " ++ blockName b
  | .finished => ""
  | .noBlock b => blockName b
  | .paramAfterBranch b => "cannot add parameter to " ++ blockName b
  | .foreignValue v => valueName v
  | .noActiveBlock op => op.name
  | .afterTerminator op b => op.name ++ " after terminator in " ++ blockName b
  | .mismatch op m => op.name ++ ": " ++ m.text
  | .argCount s want got => s.text ++ s!" expects {want} values, got {got}"
  | .argType s i got want => s.text ++ s!" value {i} is " ++ got.name ++ ", want " ++ want.name
  | .slotShape size align => s!"size {size} align {align}"
  | .noSlot op s => op.name ++ ": " ++ slotName s
  | .slotRange op width offset size slot =>
    op.name ++ s!": {width} bytes at offset {offset} of {size}-byte " ++ slotName slot
  | .sealed b => blockName b
  | .noBlocks fn => quoted fn ++ " has no blocks"
  | .entryArity fn got want =>
    "entry block of " ++ quoted fn ++ s!" takes {got} parameters, signature has {want}"
  | .entryType fn i got want =>
    s!"entry parameter {i} of " ++ quoted fn ++ " is " ++ got.name ++ ", want " ++ want.name
  | .entryTarget fn => "entry block of " ++ quoted fn ++ " is a branch target"
  | .unsealed fn b => blockName b ++ " in " ++ quoted fn
  | .unterminated fn b => blockName b ++ " in " ++ quoted fn
  | .tooManyParams c n => s!"more than {n} " ++ c.name ++ " values"
  | .tooManyResults c n => s!"more than {n} " ++ c.name ++ " values"

def message : Fault → String
  | .inSignature fn f => "signature of " ++ quoted fn ++ ": " ++ f.message
  | .inImport name f => "import " ++ quoted name ++ ": " ++ f.message
  | f => if f.detail = "" then f.kind.text else f.kind.text ++ ": " ++ f.detail

end Fault

def Signature.check (s : Signature) : Except Fault Unit :=
  match s.params.find? (fun t => !t.isValid), s.returns.find? (fun t => !t.isValid) with
  | some t, _ => .error (.paramType t)
  | none, some t => .error (.returnType t)
  | none, none => .ok ()

def Ty.ofName (s : String) : Except Fault Ty :=
  match Ty.ofName? s with
  | some t => .ok t
  | none => .error (.typeName s)

theorem Signature.check_eq_ok_iff (s : Signature) : s.check = .ok () ↔ s.isValid = true := by
  unfold Signature.check Signature.isValid
  cases hp : s.params.find? (fun t => !t.isValid) with
  | some t =>
    have h1 := List.find?_some hp
    have h2 := List.mem_of_find?_eq_some hp
    simp only [reduceCtorEq, Bool.and_eq_true, List.all_eq_true, false_iff, not_and]
    intro h
    simp [h t h2] at h1
  | none =>
    rw [List.find?_eq_none] at hp
    cases hr : s.returns.find? (fun t => !t.isValid) with
    | some t =>
      have h1 := List.find?_some hr
      have h2 := List.mem_of_find?_eq_some hr
      simp only [reduceCtorEq, Bool.and_eq_true, List.all_eq_true, false_iff, not_and]
      intro _ h
      simp [h t h2] at h1
    | none =>
      rw [List.find?_eq_none] at hr
      simp only [Bool.and_eq_true, List.all_eq_true, true_iff]
      exact ⟨fun t ht => by simpa using hp t ht, fun t ht => by simpa using hr t ht⟩

end TreeJit.SSA
