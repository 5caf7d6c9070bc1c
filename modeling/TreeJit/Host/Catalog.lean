import TreeJit.Host.Fault
import TreeJit.Host.Platform
import TreeJit.Host.Routine

/-!
# The catalog of native operations

A `Catalog` lists operations in the order in which they were added; names are distinct and nothing
is ever removed (`Catalog.add`).  An operation is found at an address: a number that the caller
gave, or the place of a routine of this library.

Adding a group of operations goes one by one and stops at the first that is refused; those before
it stay.
-/

namespace TreeJit.Host

open SSA

inductive Entry where
  | given (address : UInt64)
  | native (r : Routine)
  deriving DecidableEq

/-- the address that linking writes; routines have nominal ones, a page each -/
def Entry.address : Entry → UInt64
  | .given a => a
  | .native r => UInt64.ofNat (0x100000 + 4096 * (Routine.all.idxOf r))

structure Operation where
  name : String
  sig : Signature
  conv : Compile.CallConv
  entry : Entry
  deriving DecidableEq

structure Catalog where
  ops : List Operation := []

namespace Catalog
variable [Platform]

def find? (c : Catalog) (name : String) : Option Operation := c.ops.find? fun o => o.name == name

def add (c : Catalog) (op : Operation) : Except Fault Catalog :=
  if op.name = "" then .error .emptyOperation
  else if op.entry.address = 0 then .error (.nilAddress op.name)
  else
    match op.sig.check with
    | .error f => .error (.operation op.name f)
    | .ok () =>
      if (c.find? op.name).isSome then .error (.duplicateOperation op.name)
      else .ok ⟨c.ops ++ [op]⟩

def register (c : Catalog) (name : String) (sig : Signature) (entry : Entry) : Except Fault Catalog :=
  c.add ⟨name, sig, hostConv, entry⟩

def resolve (c : Catalog) (name : String) : Except Fault Operation :=
  match c.find? name with
  | some op => .ok op
  | none => .error (.unknownOperation name)

/-! ## groups -/

def addAll (c : Catalog) : List Operation → Catalog × Except Fault Unit
  | [] => (c, .ok ())
  | op :: ops =>
    match c.add op with
    | .error f => (c, .error f)
    | .ok c' => c'.addAll ops

def builtinOps : List Operation :=
  Builtin.all.map fun b => ⟨b.name, b.sig, hostConv, .native (.builtin b)⟩

def addBuiltins (c : Catalog) : Catalog × Except Fault Unit := c.addAll builtinOps

structure LibrarySymbol where
  name : String
  symbol : String
  sig : Signature

/-- shared libraries as functions from symbols to what they name -/
abbrev Loader := String → Option (String → Option Entry)

def mathPath : String := "libm.so.6"

def hostLoader : Loader := fun path =>
  if path = mathPath then
    some fun s => (MathFn.all.find? fun m => m.symbol == s).map fun m => .native (.math m)
  else none

/-- adds symbols of an open library in order, as far as they are found and taken -/
def addSymbols (c : Catalog) (path : String) (lookup : String → Option Entry) :
    List LibrarySymbol → Catalog × Except Fault Unit
  | [] => (c, .ok ())
  | s :: ss =>
    match lookup s.symbol with
    | none => (c, .error (.symbol path s.symbol))
    | some e =>
      match c.register s.name s.sig e with
      | .error f => (c, .error f)
      | .ok c' => c'.addSymbols path lookup ss

def addLibrary (c : Catalog) (load : Loader) (path : String) (symbols : List LibrarySymbol) :
    Catalog × Except Fault Unit :=
  match load path with
  | none => (c, .error (.library path))
  | some lookup => c.addSymbols path lookup symbols

def mathSymbols : List LibrarySymbol :=
  [⟨"Float64Pow", "pow", ⟨[.f64, .f64], [.f64]⟩⟩, ⟨"Float64Fmod", "fmod", ⟨[.f64, .f64], [.f64]⟩⟩,
    ⟨"Float64Hypot", "hypot", ⟨[.f64, .f64], [.f64]⟩⟩]

def addMath (c : Catalog) (load : Loader) : Catalog × Except Fault Unit :=
  c.addLibrary load mathPath mathSymbols

end Catalog

end TreeJit.Host
