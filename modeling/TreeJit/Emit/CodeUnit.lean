import TreeJit.Emit.Loop
import TreeJit.Outcome

/-!
# Compilation units

A unit owns a module and builds its functions one at a time.  A fault while building lasts and
stops the unit: `CodeUnit.create` and `CodeUnit.finalize` then only report it.  Complete bodies wait
until `CodeUnit.finalize` compiles them.  Everything noted on the way is in `journal`.
-/

namespace TreeJit.Emit

open SSA

structure CodeUnit where
  module : Host.Module
  catalog : Host.Catalog
  /-- whether the catalog is the caller's, who can go on adding to it -/
  shared : Bool := false
  native : Bool := true
  builders : Array Builder := #[]
  /-- the builder at work -/
  active : Option Nat := none
  /-- complete bodies by function number; none once the unit is closed -/
  pending : Option (List (Nat × Func)) := some []
  fault : Option Fault := none
  /-- what happened, in order -/
  journal : List Event := []

structure Compiled where
  id : Int
  name : String
  sig : Signature
  entry : UInt64

namespace CodeUnit
variable [Host.Platform]

/-- a unit over a catalog; without one it has an empty one to itself -/
def build (catalog : Option Host.Catalog) (settings : Host.Settings) (native : Bool) :
    Except Host.Fault CodeUnit := do
  let shared := catalog.isSome
  let catalog := catalog.getD {}
  let (module, journal) ← Host.Module.build (some catalog) settings
  return { module, catalog, shared, native, journal }

def scope (u : CodeUnit) : Scope := ⟨u.catalog, u.module, u.native⟩

def note (u : CodeUnit) (es : List Event) : CodeUnit := { u with journal := u.journal ++ es }

/-- the first fault stops the unit -/
def poison (u : CodeUnit) (f : Fault) : CodeUnit :=
  match u.fault with
  | some _ => u
  | none => { u with fault := some f, journal := u.journal ++ [.unitFailed f.message] }

/-- puts a builder back after an operation on it -/
def absorb (u : CodeUnit) (i : Nat) (b : Builder) : CodeUnit :=
  let u := { u with builders := u.builders.setIfInBounds i b }
  match b.poison? with
  | some f => u.poison f
  | none => u

def update {α : Type} (u : CodeUnit) (i : Nat) (op : Scope → Builder → Builder × α) :
    CodeUnit × Option α :=
  match u.builders[i]? with
  | none => (u, none)
  | some b =>
    let (b, a) := op u.scope b
    (u.absorb i b, some a)

/-- declares a function and starts to build it; gives the number of the builder -/
def create (u : CodeUnit) (name : String) (sig : Signature) : CodeUnit × Except Fault Nat :=
  match u.fault, u.active.bind fun i => u.builders[i]? with
  | some f, _ => (u, .error (.unitFailed f))
  | none, some b => (u, .error (.busy b.name))
  | none, none =>
    match sig.check with
    | .error f => (u, .error (.signature name f))
    | .ok () =>
      match u.module.declare name sig with
      | .error f => (u, .error (.host f))
      | .ok (module, id) =>
        let i := u.builders.size
        ({ u with module, builders := u.builders.push (.new id name sig), active := some i }, .ok i)

/-- ends the work of a builder; a sound body waits for `finalize` -/
def finish (u : CodeUnit) (i : Nat) (results : List Int) : CodeUnit × Outcome Fault Unit :=
  match u.builders[i]? with
  | none => (u, .done ())
  | some b =>
    let active := if b.state = .building ∧ u.active = some i then none else u.active
    let (b, r) := b.finalize results
    let u := { u with active }.absorb i b
    match r, u.pending with
    | .error f, _ => (u, .failed f)
    | .ok _, none => (u, .crashed)
    | .ok fn, some ps => ({ u with pending := some ((b.id, fn) :: ps) }, .done ())

/-- compiles a waiting body; a failure stops the unit -/
def finalize (u : CodeUnit) (id : Int) : CodeUnit × Except Fault Compiled :=
  match u.fault with
  | some f => (u, .error (.unitFailed f))
  | none =>
    let waiting := u.pending.getD []
    match waiting.find? fun p => (p.1 : Int) = id with
    | none => (u, .error (.noBody id))
    | some (_, fn) =>
      let rest := waiting.filter fun p => (p.1 : Int) ≠ id
      let (module, events, r) := u.module.define id fn
      let u := { u with module, pending := u.pending.map fun _ => rest }.note events
      match r, module.address id, module.signature id with
      | .error f, _, _ => (u.poison (.host f), .error (.host f))
      | .ok (), .error f, _ => (u.poison (.host f), .error (.host f))
      | .ok (), .ok entry, sig =>
        (u, .ok { id, name := fn.name, sig := sig.toOption.getD .empty, entry })

def close (u : CodeUnit) : CodeUnit :=
  let (module, events) := u.module.close
  { u with module, active := none, pending := none }.note events

end CodeUnit

end TreeJit.Emit
