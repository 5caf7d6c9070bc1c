import TreeJit.Cli.FileTree
import TreeJit.Cli.Options
import TreeJit.Cli.Workload
import TreeJit.Host.Linux
import TreeJit.Trace.Recorder
import TreeJit.Trace.Total
import TreeJit.Tree.Decode

/-!
# The commands

`run` compiles a predicate, evaluates it on generated rows, compares every row with the tree and
tells how many rows are selected.  `report` prints the samples or the totals of a trace.  What the
file system says comes in as `ReadFile`; `execute` carries out a command on a file system.
-/

namespace TreeJit.Cli

open Emit

/-- the commands run on Linux -/
instance : Host.Platform := .linuxX64

abbrev ReadFile := String → Except FileFault (List UInt8)

inductive Fault where
  | usage (f : UsageFault)
  | createTrace (f : FileFault)
  | readSettings (f : FileFault)
  | settings (f : Host.Fault)
  | library (f : Host.Fault)
  | unit (f : Host.Fault)
  | readTree (f : FileFault)
  | decode (f : DecodeFault)
  | column (f : ColumnFault)
  | compile (expr : String) (f : Predicate.Fault)
  | evaluate (f : Predicate.Fault)
  | differ (d : Difference)
  | noFilename
  | openTrace (f : FileFault)
  /-- a trace that opens but cannot be read; `totals` says that only these are wanted -/
  | readTrace (totals : Bool) (f : FileFault)
  | sums (f : Trace.Fault)
  | trace (f : Trace.Fault)

namespace Fault

def differText (d : Difference) : String :=
  s!"row {d.row} [" ++ " ".intercalate (d.cells.map Decimal.doubleText)
    ++ s!"]: compiled {d.compiled}, reference {d.reference}"

def message : Fault → String
  | .usage f => f.message
  | .createTrace f => "failed to create tsfile: " ++ f.message
  | .readSettings f => "jit: read flags: " ++ f.message
  | .settings f => f.message
  | .library f => "failed to import libm: " ++ f.message
  | .unit f => "failed to create compilation unit: " ++ f.message
  | .readTree f => "expr: read " ++ f.path ++ ": " ++ f.message
  | .decode f => f.message
  | .column f => f.message
  | .compile e f => "failed to compile " ++ e ++ ": " ++ f.message
  | .evaluate f => "compiled predicate disagrees with reference: " ++ f.message
  | .differ d => "compiled predicate disagrees with reference: " ++ differText d
  | .noFilename => "missing -filename"
  | .openTrace f => "failed to open timeslice file: " ++ f.message
  | .readTrace totals f =>
    (if totals then "failed to read timeslice file: " else "") ++ "timeslice: read header: " ++ f.message
  | .sums f => "failed to read timeslice file: " ++ f.message
  | .trace f => f.message

end Fault

/-! ## evaluating a predicate -/

/-- `(a + b) / c < d`, with `c` and `d` the same in all rows -/
def defaultTree : Tree :=
  .binary (.compare .lt)
    (.binary (.arith .div) (.binary (.arith .add) (.column 0 "a") (.column 1 "b")) (.column 2 "c"))
    (.column 3 "d")

def defaultScalars : List Int := [2, 3]

def loadSettings (read : ReadFile) (path : String) : Except Fault Host.Settings :=
  if path = "" then .ok {}
  else
    match read path with
    | .error f => .error (.readSettings f)
    | .ok bs => (Host.Settings.parse bs).mapError .settings

def assignAll (s : Host.Settings) : List String → Except Fault Host.Settings
  | [] => .ok s
  | a :: as =>
    match s.set (Assignments.split a).1 (Assignments.split a).2 with
    | (s, .ok ()) => assignAll s as
    | (_, .error f) => .error (.settings f)

/-- the native operations: the built-in ones, and the mathematical library if it is wanted -/
def nativeCatalog (libm : Bool) : Except Fault Host.Catalog :=
  match ({} : Host.Catalog).addBuiltins with
  | (_, .error f) => .error (.library f)
  | (c, .ok ()) =>
    if libm then
      match c.addMath Host.Catalog.hostLoader with
      | (_, .error f) => .error (.library f)
      | (c, .ok ()) => .ok c
    else .ok c

/-- the tree of a file with no scalar columns, or the default with its own -/
def loadTree (read : ReadFile) (path : String) : Except Fault (Tree × List Int) :=
  if path = "" then .ok (defaultTree, defaultScalars)
  else
    match read path with
    | .error f => .error (.readTree f)
    | .ok bs => ((Tree.decode bs).mapError .decode).map fun t => (t, [])

structure Job where
  module : Host.Module
  predicate : Predicate
  batch : Predicate.Batch
  rows : Int

/-- a sound unit, and the tree with its scalar columns -/
def prepareUnit (read : ReadFile) (o : RunOptions) : Except Fault (CodeUnit × Tree × List Int) := do
  let settings ← loadSettings read o.config
  let settings ← assignAll settings o.sets.items
  let settings := { settings with debug := settings.debug || o.debug }
  let catalog ← nativeCatalog o.libm
  let u ← (CodeUnit.build (some catalog) settings o.native).mapError .unit
  let (tree, scalars) ← loadTree read o.expr
  let scalars ← if o.scalars = "" then pure scalars else (parseColumns o.scalars).mapError .column
  return (u, tree, scalars)

/-- compiles the predicate and makes up its values -/
def prepare (h : Host.Module.Machinery) (read : ReadFile) (o : RunOptions) : Outcome Fault Job :=
  match prepareUnit read o with
  | .error f => .failed f
  | .ok (u, tree, scalars) =>
    match Predicate.compile u "filter" tree scalars with
    | (_, .failed f) => .failed (.compile tree.text f)
    | (_, .crashed) => .crashed
    | (u, .done p) =>
      match generate h.float o.seed tree.numColumns.toInt.toNat scalars o.rows with
      | none => .crashed
      | some batch => .done ⟨u.module, p, batch, o.rows⟩

/-- the number of selected rows, if code and tree agree on all of them -/
def Job.check (h : Host.Module.Machinery) (j : Job) : Outcome Fault Nat :=
  match j.predicate.evaluate h j.module j.batch with
  | .failed f => .failed (.evaluate f)
  | .crashed => .crashed
  | .done mask =>
    let t := j.predicate.tree
    match checkMask h.float t 0 0 mask (columnsOf j.batch t.numColumns.toInt.toNat mask.length) with
    | .error d => .failed (.differ d)
    | .ok n => .done n

def selectedText (selected : Nat) (rows : Int) : String := s!"{selected} of {rows} rows selected\n"

def run (h : Host.Module.Machinery) (read : ReadFile) (o : RunOptions) : String × Outcome Fault Unit :=
  match prepare h read o with
  | .failed f => ("", .failed f)
  | .crashed => ("", .crashed)
  | .done j =>
    match j.check h with
    | .failed f => ("", .failed f)
    | .crashed => ("", .crashed)
    | .done n => (selectedText n o.rows, .done ())

/-- what a trace holds from its start on -/
def traceStart : List UInt8 := (Trace.writePreamble (.ofKinds Trace.builtinKinds) {}).1.data

/-! ## reporting a trace -/

def sampleLine (s : Trace.Sample) : String :=
  s.name ++ " " ++ s.flags.text ++ " " ++ Trace.durationText s.duration ++ "\n"

def report (read : ReadFile) (o : ReportOptions) : String × Outcome Fault Unit :=
  if o.filename = "" then ("", .failed .noFilename)
  else
    match read o.filename with
    | .error f => ("", .failed (if f.opened then .readTrace o.sums f else .openTrace f))
    | .ok bs =>
      if o.sums then
        match Trace.summarize bs with
        | .error f => ("", .failed (.sums f))
        | .ok ts => (String.join (ts.map fun t => t.line ++ "\n"), .done ())
      else
        let (ss, f) := Trace.read bs
        (String.join (ss.map sampleLine),
          match f with
          | none => .done ()
          | some f => .failed (.trace f))

/-- the command that the arguments ask for.  A trace is started before anything is read, so a file
that is to be both is read as a trace. -/
def execute (h : Host.Module.Machinery) (fs : FileSystem) (args : List String) :
    String × Outcome Fault Unit :=
  match Command.parse args with
  | .error f => ("", .failed (.usage f))
  | .ok (.run o) =>
    match if o.tsfile = "" then .ok fs else fs.create o.tsfile traceStart with
    | .error f => ("", .failed (.createTrace f))
    | .ok fs => run h fs.read o
  | .ok (.report o) => report fs.read o

end TreeJit.Cli
