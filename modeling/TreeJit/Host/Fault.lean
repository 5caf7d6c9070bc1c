import TreeJit.Compile.Backend
import TreeJit.Host.FuncType
import TreeJit.Text.Quoted
import TreeJit.Yaml.Source

/-!
# Faults of the host side

Everything that can be wrong with settings, native operations, modules and bindings.  `Fault.kind?`
sorts the causes into the kinds a caller can test for; some faults pass on a cause from below
(`Fault.ssa?`, `Fault.isUnresolved`) and some come from outside this library (`Fault.origin?`).
-/

namespace TreeJit.Host

open SSA

inductive FaultKind where
  | duplicateOperation | unknownOperation | unsupportedSetting | callConvMismatch
  | duplicateFunction | unknownFunction | alreadyDefined | signatureMismatch | moduleClosed
  deriving DecidableEq, Repr

def FaultKind.text : FaultKind → String
  | .duplicateOperation => "jit: duplicate native operation"
  | .unknownOperation => "jit: unknown native operation"
  | .unsupportedSetting => "jit: unsupported setting"
  | .callConvMismatch => "jit: calling convention mismatch"
  | .duplicateFunction => "jit: duplicate function"
  | .unknownFunction => "jit: unknown function"
  | .alreadyDefined => "jit: function already defined"
  | .signatureMismatch => "jit: signature mismatch"
  | .moduleClosed => "jit: module closed"

/-- who else words a fault -/
inductive Origin where
  | yaml (f : Yaml.Fault)
  | library
  | binding
  deriving DecidableEq

inductive Fault where
  /-- a setting's value is no truth value -/
  | settingValue (name value : String)
  | unknownSetting (name : String)
  | colocated
  | pic
  | optLevel (level : String)
  | yaml (f : Yaml.Fault)
  | emptyOperation
  | nilAddress (name : String)
  | operation (name : String) (f : SSA.Fault)
  | duplicateOperation (name : String)
  | unknownOperation (name : String)
  /-- a library cannot be opened -/
  | library (path : String)
  /-- a library has no such symbol -/
  | symbol (path symbol : String)
  | convention (name : String) (conv want : Compile.CallConv)
  | closed
  | emptyFunction
  | declare (name : String) (f : SSA.Fault)
  | duplicateFunction (name : String)
  | shadows (name : String)
  | unknownFunction (id : Int)
  | undefined (name : String)
  | alreadyDefined (name : String)
  | bodySignature (name : String) (declared body : Signature)
  | compile (name : String) (f : Compile.Fault)
  | link (name : String) (f : LinkFault)
  | emptyCode (name : String)
  /-- no address space is left for code -/
  | noMemory (name : String)
  | nilEntry
  | notPointer (given : HostType)
  | notFunc (given : HostType)
  | variadic (given : HostType)
  | results (n : Nat)
  | shape (given : HostType) (sig : Signature)
  | parameter (i : Nat) (t : Ty) (given : HostType)
  | result (i : Nat) (t : Ty) (given : HostType)
  /-- the host cannot pass so many arguments -/
  | tooManyArguments

namespace Fault

def kind? : Fault → Option FaultKind
  | .settingValue .. | .unknownSetting _ | .colocated | .pic | .optLevel _ => some .unsupportedSetting
  | .duplicateOperation _ => some .duplicateOperation
  | .unknownOperation _ => some .unknownOperation
  | .convention .. => some .callConvMismatch
  | .closed => some .moduleClosed
  | .duplicateFunction _ | .shadows _ => some .duplicateFunction
  | .unknownFunction _ | .undefined _ => some .unknownFunction
  | .alreadyDefined _ => some .alreadyDefined
  | .bodySignature .. | .notPointer _ | .notFunc _ | .variadic _ | .results _ | .shape .. => some .signatureMismatch
  | .parameter .. | .result .. => some .signatureMismatch
  | _ => none

def ssa? : Fault → Option SSA.Fault
  | .operation _ f => some f
  | .declare _ f => some f
  | .compile _ f => f.cause?
  | _ => none

def isUnresolved : Fault → Bool
  | .link _ (.unresolved _) => true
  | _ => false

def origin? : Fault → Option Origin
  | .yaml f => some (.yaml f)
  | .library _ | .symbol .. => some .library
  | .tooManyArguments => some .binding
  | _ => none

/-- the message after the kind, or the whole message of a fault without kind -/
def detail : Fault → String
  | .settingValue name value =>
    name ++ "=" ++ quoted value ++ ": strconv.ParseBool: parsing " ++ quoted value ++ ": invalid syntax"
  | .unknownSetting name => "unknown flag " ++ quoted name
  | .colocated => "use_colocated_libcalls must be false"
  | .pic => "is_pic must be false"
  | .optLevel l => "opt_level " ++ quoted l
  | .yaml .malformed => "jit: decode flags: not YAML"
  | .yaml .mismatch => "jit: decode flags: no record of settings"
  | .yaml .breakdown => "jit: decode flags: keys cannot be told apart"
  | .emptyOperation => "jit: native operation name must be non-empty"
  | .nilAddress n => "jit: native operation " ++ quoted n ++ " has a nil address"
  | .operation n f => "jit: native operation " ++ quoted n ++ ": " ++ f.message
  | .duplicateOperation n => quoted n
  | .unknownOperation n => quoted n
  | .library p => "jit: open " ++ p
  | .symbol p s => "jit: resolve " ++ s ++ " in " ++ p
  | .convention n c w => quoted n ++ " uses " ++ c.name ++ ", module uses " ++ w.name
  | .closed => ""
  | .emptyFunction => "jit: function name must be non-empty"
  | .declare n f => "jit: declare " ++ quoted n ++ ": " ++ f.message
  | .duplicateFunction n => quoted n
  | .shadows n => quoted n ++ " shadows a native operation"
  | .unknownFunction id => s!"id {id}"
  | .undefined n => quoted n ++ " is declared but not defined"
  | .alreadyDefined n => quoted n
  | .bodySignature n d b => quoted n ++ " declared " ++ d.text ++ ", body has " ++ b.text
  | .compile n f => "jit: compile " ++ quoted n ++ ": " ++ f.message
  | .link n f => "jit: link " ++ quoted n ++ ": " ++ f.message
  | .emptyCode n => "jit: place " ++ quoted n ++ ": jit: empty code"
  | .noMemory n => "jit: place " ++ quoted n ++ ": jit: mmap code region: cannot allocate memory"
  | .nilEntry => "jit: bind nil entry point"
  | .notPointer t => "Bind needs a non-nil pointer to a func, got " ++ t.text
  | .notFunc t => t.text ++ " is not a func type"
  | .variadic t => "variadic " ++ t.text
  | .results n => s!"cannot bind {n} results to a Go func"
  | .shape t s => t.text ++ " does not match " ++ s.text
  | .parameter i t h => s!"parameter {i} is " ++ t.name ++ ", Go type " ++ h.text
  | .result i t h => s!"result {i} is " ++ t.name ++ ", Go type " ++ h.text
  | .tooManyArguments => "jit: bind entry: too many arguments"

def message (f : Fault) : String :=
  match f.kind? with
  | none => f.detail
  | some k => if f.detail = "" then k.text else k.text ++ ": " ++ f.detail

end Fault

end TreeJit.Host
