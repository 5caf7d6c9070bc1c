import TreeJit.Host.Binding
import TreeJit.Host.Catalog
import TreeJit.Host.Journal
import TreeJit.Host.Settings
import TreeJit.SSA.Dump

/-!
# Modules

A module is the executable image of one compilation unit.  It takes a snapshot of the catalog when
it is built.  Functions are declared first and defined later, in any order; a definition is
compiled, linked against the snapshot and the functions defined before it, and placed on pages of
its own.

Running a function interprets its body: names of the snapshot mean their routines, other names the
functions that were defined earlier (`Module.world`).
-/

namespace TreeJit.Host

open SSA

structure Placed where
  address : UInt64
  size : Nat
  fn : Func

def Placed.region (p : Placed) : Region := ⟨p.address, pageBytes p.size⟩

structure Declared where
  name : String
  sig : Signature
  placed : Option Placed := none

structure Module where
  settings : Settings
  imports : List Operation
  funcs : Array Declared := #[]
  /-- the functions with code, the last one first -/
  defined : List (String × Func) := []
  /-- what is mapped for code -/
  regions : List Region := []
  closed : Bool := false

namespace Module
variable [Platform]

def isaText : String := Platform.machine.arch ++ "/" ++ hostConv.name

/-- the first operation with another convention than the machine's -/
def checkConventions : List Operation → Except Fault Unit
  | [] => .ok ()
  | op :: ops =>
    if op.conv = hostConv then checkConventions ops
    else .error (.convention op.name op.conv hostConv)

def build (catalog : Option Catalog) (settings : Settings) : Except Fault (Module × List Event) := do
  settings.check
  let ops := (catalog.map Catalog.ops).getD []
  checkConventions ops
  return ({ settings, imports := ops }, [.moduleBuilt ops.length settings.optLevel])

def import? (m : Module) (name : String) : Option Operation := m.imports.find? fun o => o.name == name

def byName? (m : Module) (name : String) : Option Declared := m.funcs.find? fun d => d.name == name

def declare (m : Module) (name : String) (sig : Signature) : Except Fault (Module × Nat) :=
  if m.closed then .error .closed
  else if name = "" then .error .emptyFunction
  else
    match sig.check with
    | .error f => .error (.declare name f)
    | .ok () =>
      if (m.byName? name).isSome then .error (.duplicateFunction name)
      else if (m.import? name).isSome then .error (.shadows name)
      else .ok ({ m with funcs := m.funcs.push { name, sig } }, m.funcs.size)

def lookup (m : Module) (id : Int) : Except Fault Declared :=
  if id < 0 then .error (.unknownFunction id)
  else
    match m.funcs[id.toNat]? with
    | some d => .ok d
    | none => .error (.unknownFunction id)

/-- the address of a name: an imported operation or a defined function -/
def resolve (m : Module) (name : String) : Option UInt64 :=
  match m.import? name with
  | some op => some op.entry.address
  | none => (m.byName? name).bind fun d => d.placed.map Placed.address

/-- code in the place that the system gives it, and the number of references that were served -/
def prepare (m : Module) (d : Declared) (fn : Func) : Except Fault (Placed × Nat) :=
  match Compile.compile Platform.machine fn m.settings.options with
  | .error f => .error (.compile d.name f)
  | .ok prog =>
    match prog.link m.resolve with
    | .error f => .error (.link d.name f)
    | .ok code =>
      if code.isEmpty then .error (.emptyCode d.name)
      else
        match Platform.map m.regions (pageBytes code.length) with
        | none => .error (.noMemory d.name)
        | some address => .ok (⟨address, code.length, fn⟩, prog.refs.length)

def place (m : Module) (id : Nat) (d : Declared) (p : Placed) : Module :=
  { m with
    funcs := m.funcs.modify id fun d => { d with placed := some p }
    defined := (d.name, p.fn) :: m.defined
    regions := m.regions ++ [p.region] }

/-- compiles, links and places a body; a failure leaves the declaration without code -/
def define (m : Module) (id : Int) (fn : Func) : Module × List Event × Except Fault Unit :=
  if m.closed then (m, [], .error .closed)
  else
    match m.lookup id with
    | .error f => (m, [], .error f)
    | .ok d =>
      if d.placed.isSome then (m, [], .error (.alreadyDefined d.name))
      else if fn.sig ≠ d.sig then (m, [], .error (.bodySignature d.name d.sig fn.sig))
      else
        let shown : List Event := if m.settings.debug then [.functionBody d.name fn.text] else []
        match m.prepare d fn with
        | .error f => (m, shown, .error f)
        | .ok (p, refs) =>
          (m.place id.toNat d p, shown ++ [.functionDefined d.name d.sig.text p.size refs], .ok ())

def symbol? (m : Module) (name : String) : Option UInt64 := if m.closed then none else m.resolve name

def address (m : Module) (id : Int) : Except Fault UInt64 :=
  if m.closed then .error .closed
  else
    match m.lookup id with
    | .error f => .error f
    | .ok d =>
      match d.placed with
      | some p => .ok p.address
      | none => .error (.undefined d.name)

def signature (m : Module) (id : Int) : Except Fault Signature := (m.lookup id).map Declared.sig

def name (m : Module) (id : Int) : Except Fault String := (m.lookup id).map Declared.name

-- the sum starts from the literal `0`, not from the zero of an algebraic structure
attribute [local instance (2000)] Zero.ofOfNat0

def codeSize (m : Module) : Nat := (m.regions.map Region.size).sum

def close (m : Module) : Module × List Event :=
  if m.closed then (m, [])
  else ({ m with closed := true, regions := [] }, [.moduleReleased m.funcs.size])

def bindFunc (m : Module) (id : Int) (ft : HostType) : Except Fault Unit := do
  let addr ← m.address id
  let sig ← m.signature id
  bind addr sig (.variable ft)

/-! ## running -/

/-- what lies outside compiled code, and how long a function may run -/
structure Machinery where
  float : FloatOps
  math : MathLibrary
  fuel : Nat

def Machinery.host : Machinery := ⟨.host, .host, 1000000000⟩

/-- what the imported names do -/
def nativeWorld (h : Machinery) (ops : List Operation) : World where
  float := h.float
  call name _ args mem :=
    match ops.find? fun o => o.name == name with
    | some { entry := .native r, .. } => .ok (r.apply h.float h.math args, mem)
    | _ => .error (.unknown name)

/-- what names mean to a function that is defined after `fns` -/
def worldAfter (h : Machinery) (ops : List Operation) : List (String × Func) → World
  | [] => nativeWorld h ops
  | (n, f) :: rest =>
    let w := worldAfter h ops rest
    { float := h.float
      call := fun name sp args mem =>
        if name = n then f.run w h.fuel sp args mem else w.call name sp args mem }

def world (h : Machinery) (m : Module) : World := worldAfter h m.imports m.defined

def stackTop : UInt64 := 0x7FFFFFFFF000

/-- buffers lie from here on, above the stack -/
def heapStart : Nat := 0x1000000000000

/-- puts buffers into memory from an address on, on pages of their own with a free one between them:
the words to pass, and the buffers' addresses and sizes -/
def layBuffers : Nat → List Arg → Memory → List Val × List (UInt64 × Nat) × Memory
  | _, [], mem => ([], [], mem)
  | start, .word b :: as, mem =>
    let (vs, bs, mem') := layBuffers start as mem
    (⟨b, 0⟩ :: vs, bs, mem')
  | start, .buffer bytes :: as, mem =>
    let a := UInt64.ofNat start
    let next := start + pageBytes bytes.length + pageSize
    let (vs, bs, mem') := layBuffers next as (mem.setBytes a bytes)
    (⟨a, 0⟩ :: vs, (a, bytes.length) :: bs, mem')

structure CallResult where
  results : List Val
  buffers : List (List UInt8)

inductive CallFault where
  | refused (f : Fault)
  | run (f : RunFault)

/-- calls a name with a signature through the host -/
def invoke (w : World) (name : String) (entry : UInt64) (sig : Signature) (args : List Arg) :
    Except CallFault CallResult :=
  match makeFunc entry sig (offeredFunc sig args) with
  | .error f => .error (.refused f)
  | .ok () =>
    let (vals, bufs, mem) := layBuffers heapStart args {}
    match w.call name stackTop (Val.keepAll sig.params vals) mem with
    | .error f => .error (.run f)
    | .ok (rs, mem') =>
      .ok ⟨Val.keepAll sig.returns rs, bufs.map fun (a, n) => mem'.bytes n a⟩

def call (h : Machinery) (m : Module) (id : Int) (args : List Arg) : Except CallFault CallResult :=
  match m.address id, m.lookup id with
  | .error f, _ => .error (.refused f)
  | _, .error f => .error (.refused f)
  | .ok addr, .ok d => invoke (m.world h) d.name addr d.sig args

end Module

/-- calls a native operation of a catalog -/
def Catalog.call [Platform] (h : Module.Machinery) (c : Catalog) (name : String) (args : List Arg) :
    Except Module.CallFault Module.CallResult :=
  match c.resolve name with
  | .error f => .error (.refused f)
  | .ok op => Module.invoke (Module.nativeWorld h c.ops) name op.entry.address op.sig args

end TreeJit.Host
