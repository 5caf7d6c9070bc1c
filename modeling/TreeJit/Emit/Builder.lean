import TreeJit.Emit.Scratch
import TreeJit.Host.Module
import TreeJit.SSA.Draft

/-!
# Function builders

A `Builder` makes one function of a unit.  It adds to a draft what expression code needs: calls of
native operations by name, named scratch slots and columns.  Its first fault lasts: afterwards every
operation gives back `-1` and changes nothing (`Builder.attempt`).  A fault of the draft below is
picked up by `Builder.sync`, which every operation does before and after its work.

`Scope` is the part of the unit that a builder reads.
-/

namespace TreeJit.Emit

open SSA

inductive BuildState where
  | building
  | finalizing
  | finalized
  deriving DecidableEq, Repr

namespace BuildState

def name : BuildState → String
  | .building => "building"
  | .finalizing => "finalizing"
  | .finalized => "finalized"

def all : List BuildState := [.building, .finalizing, .finalized]

def nameOfCode (n : Int) : String :=
  match if n < 0 then none else all[n.toNat]? with
  | some s => s.name
  | none => s!"state({n})"

end BuildState

/-- what a builder sees of its unit -/
structure Scope where
  catalog : Host.Catalog
  module : Host.Module
  /-- scalar arithmetic calls native operations -/
  native : Bool

structure Builder where
  /-- the number of the function in the module -/
  id : Nat
  name : String
  draft : Draft
  /-- the parameters, as the entry block receives them -/
  params : List Int := []
  state : BuildState := .building
  fault : Option Fault := none
  scratch : Option Scratch := none
  /-- the values of the columns, the last binding first -/
  columns : List (Int × Int) := []
  /-- the rows that one operation works on: two in a vector loop -/
  lanes : Nat := 1

namespace Builder

def new (id : Nat) (name : String) (sig : Signature) : Builder :=
  let (d, entry) := (Draft.new name sig).createBlock
  let (d, params) := d.appendFunctionParams entry
  let (d, _) := d.switchTo entry
  let (d, _) := d.sealBlock entry
  { id, name, draft := d, params }

/-! ## faults -/

def fail (b : Builder) (f : Fault) : Builder :=
  match b.fault with
  | some _ => b
  | none => { b with fault := some f }

def sync (b : Builder) : Builder :=
  match b.draft.fault with
  | some f => b.fail (.ssa f)
  | none => b

/-- the fault that stops the whole unit; work on a finished function is refused without one -/
def poison? (b : Builder) : Option Fault :=
  match b.fault with
  | some (.finalized _) => none
  | f => f

theorem fail_of_fault (b : Builder) (f g : Fault) (h : b.fault = some g) : b.fail f = b := by
  simp [fail, h]

theorem sync_of_fault (b : Builder) (g : Fault) (h : b.fault = some g) : b.sync = b := by
  unfold sync
  split
  · exact fail_of_fault b _ g h
  · rfl

/-- performs an operation on a sound builder; `nothing` is the answer of one that does not happen.
The operation gives back the builder it leaves also when it fails. -/
def attempt {α : Type} (b : Builder) (nothing : α) (step : Builder → Builder × Except Fault α) :
    Builder × α :=
  if b.state = .building then
    let b0 := b.sync
    match b0.fault with
    | some _ => (b0, nothing)
    | none =>
      let (b1, r) := step b0
      let b2 := b1.sync
      match b2.fault, r with
      | some _, _ => (b2, nothing)
      | none, .error f => (b2.fail f, nothing)
      | none, .ok a => (b2, a)
  else (b.fail (.finalized b.name), nothing)

theorem attempt_of_fault {α : Type} (b : Builder) (f : Fault) (a : α)
    (step : Builder → Builder × Except Fault α) (h : b.fault = some f) :
    b.attempt a step = (b, a) := by
  unfold attempt
  rw [sync_of_fault b f h, fail_of_fault b _ f h]
  simp [h]

/-! ## parameters and columns -/

def param (b : Builder) (i : Int) : Builder × Int :=
  b.attempt (-1) fun b =>
    match if i < 0 then none else b.params[i.toNat]? with
    | some v => (b, .ok v)
    | none => (b, .error (.paramIndex i b.params.length b.name))

def bindColumn (b : Builder) (i v : Int) : Builder := { b with columns := (i, v) :: b.columns }

def column (b : Builder) (i : Int) : Builder × Int :=
  b.attempt (-1) fun b =>
    match b.columns.lookup i with
    | some v => (b, .ok v)
    | none => (b, .error (.unbound i b.name))

/-! ## native operations -/

def call (b : Builder) (scope : Scope) (name : String) (args : List Int) : Builder × Int :=
  b.attempt (-1) fun b =>
    match scope.catalog.resolve name with
    | .error f => (b, .error (.host f))
    | .ok op =>
      if (scope.module.symbol? name).isNone then (b, .error (.lateOperation name))
      else if op.sig.returns.length ≠ 1 then
        (b, .error (.resultArity name op.sig.returns.length))
      else
        let (d, ref) := b.draft.importFn op.name op.sig
        let (d, rs) := d.call ref args
        ({ b with draft := d }, .ok (rs.headD (-1)))

/-! ## scratch slots -/

/-- reserves the scratch frame, once -/
def makeScratch (b : Builder) (size : Int) : Builder :=
  (b.attempt () fun b =>
    if b.scratch.isSome then (b, .error (.secondScratch b.name))
    else if size ≤ 0 then (b, .error (.scratchSize size))
    else
      let (d, slot) := b.draft.createSlot size 16
      if d.fault.isSome then ({ b with draft := d }, .ok ())
      else ({ b with draft := d, scratch := some { slot, capacity := Int32.ofInt size } }, .ok ())).1

def scratchUsed (b : Builder) : Int := ((b.scratch.map fun s => s.next.toInt).getD 0)

def namedSlot? (b : Builder) (name : String) : Option NamedSlot := b.scratch.bind fun s => s.find? name

/-- the builder, the frame slot and the place of a name that is made on first use -/
def allocate (b : Builder) (name : String) (t : Ty) (c : SlotCategory) :
    Except Fault (Builder × Int × NamedSlot) :=
  match b.scratch with
  | none => .error (.noScratch name)
  | some s => do
    let (s, n) ← s.allocate name t c
    return ({ b with scratch := some s }, s.slot, n)

def lookupSlot (b : Builder) (name : String) (c : SlotCategory) : Except Fault (Int × NamedSlot) :=
  match b.scratch with
  | none => .error (.noScratch name)
  | some s => do
    let n ← s.lookup name c
    return (s.slot, n)

/-- stores a value in the part of the scratch frame that `allocate` gives -/
def storeSlot (b : Builder) (name : String) (t : Ty) (c : SlotCategory) (v : Int) :
    Builder × Except Fault Unit :=
  match b.allocate name t c with
  | .error f => (b, .error f)
  | .ok (b, slot, n) =>
    let (d, _) := b.draft.stackStore v slot n.offset
    ({ b with draft := d }, .ok ())

def storeValue (b : Builder) (name : String) (v : Int) : Builder :=
  (b.attempt () fun b =>
    let t := b.draft.typeOf v
    if !t.isValid then (b, .error (.slotValue v name)) else b.storeSlot name t .value v).1

def loadValue (b : Builder) (name : String) : Builder × Int :=
  b.attempt (-1) fun b =>
    match b.lookupSlot name .value with
    | .error f => (b, .error f)
    | .ok (slot, n) =>
      let (d, v) := b.draft.stackLoad n.ty slot n.offset
      ({ b with draft := d }, .ok v)

def storeRef (b : Builder) (name : String) (ptr : Int) (t : Ty) : Builder :=
  (b.attempt () fun b =>
    let p := b.draft.typeOf ptr
    if p ≠ .pointer then (b, .error (.slotPointer name p))
    else if !t.isValid then (b, .error (.slotElement name))
    else b.storeSlot name t .ref ptr).1

/-- the byte offset of an element, cut to a word -/
def elementOffset (index : Int64) (t : Ty) : Int32 := (index * Int64.ofNat t.bytes).toInt32

def loadRef (b : Builder) (name : String) : Builder × Except Fault (NamedSlot × Int) :=
  match b.lookupSlot name .ref with
  | .error f => (b, .error f)
  | .ok (slot, n) =>
    let (d, p) := b.draft.stackLoad .pointer slot n.offset
    ({ b with draft := d }, .ok (n, p))

def loadElement (b : Builder) (name : String) (index : Int64) : Builder × Int :=
  b.attempt (-1) fun b =>
    match b.loadRef name with
    | (b, .error f) => (b, .error f)
    | (b, .ok (n, p)) =>
      let (d, v) := b.draft.load n.ty p (elementOffset index n.ty)
      ({ b with draft := d }, .ok v)

def storeElement (b : Builder) (name : String) (index : Int64) (v : Int) : Builder :=
  (b.attempt () fun b =>
    match b.loadRef name with
    | (b, .error f) => (b, .error f)
    | (b, .ok (n, p)) =>
      let t := b.draft.typeOf v
      if t ≠ n.ty then (b, .error (.elementType name n.ty t))
      else
        let (d, _) := b.draft.store v p (elementOffset index n.ty)
        ({ b with draft := d }, .ok ())).1

/-! ## the end -/

/-- returns from the current block and takes the complete function out of the draft -/
def finalize (b : Builder) (results : List Int) : Builder × Except Fault Func :=
  if b.state = .building then
    let b := { b with state := .finalized }.sync
    match b.fault with
    | some f => (b, .error f)
    | none =>
      let (d, _) := b.draft.ret results
      let (d, _) := d.sealAll
      match d.finish with
      | (d, .ok fn) => ({ b with draft := d }, .ok fn)
      | (d, .error f) => ({ b with draft := d }.fail (.ssa f), .error (.ssa f))
  else (b, .error (.finalized b.name))

end Builder

end TreeJit.Emit
