import TreeJit.Emit.CodeUnit
import TreeJit.Predicate.Fault
import TreeJit.Tree.Emit

/-!
# Compiled predicates

A truth-valued tree becomes two functions of a unit.  The row function takes a pointer to the cells
of one row; the vector function takes a pointer for each array column, the result and the number of
rows, and a value for each scalar column, and writes one mask word per row.  A predicate without
array columns has no vector function.
-/

namespace TreeJit

open SSA Emit

/-- a predicate with its functions -/
structure Predicate where
  tree : Tree
  /-- one past the highest column -/
  width : Int64
  /-- the columns that have a value in each row, in order -/
  arrays : List Int
  /-- the columns with one value for all rows, in order -/
  scalars : List Int
  row : Compiled
  vector : Option Compiled

def sortedDistinct (xs : List Int) : List Int := xs.eraseDups.mergeSort

def bracketed (xs : List Int) : String := "[" ++ " ".intercalate (xs.map toString) ++ "]"

namespace Predicate

/-! ## the row function -/

def rowSig : Signature := ⟨[.pointer], [.i8]⟩

def bindCells (b : Builder) (c : Nat) : Nat → Builder
  | 0 => b
  | n + 1 =>
    let (b, v) := b.loadElement "row" (Int64.ofNat c)
    bindCells (b.bindColumn c v) (c + 1) n

def rowBody (t : Tree) (width : Nat) (scope : Scope) (b : Builder) : Builder × Option Int :=
  let b := b.makeScratch 8
  let (b, p) := b.param 0
  let b := b.storeRef "row" p .f64
  t.emit scope (bindCells b 0 width)

def rowCode (t : Tree) (width : Nat) (scope : Scope) (b : Builder) : Builder × Option (List Int) :=
  let (b, v) := rowBody t width scope b
  (b, v.map fun v => [v])

def rowType : Host.HostType := .func [.pointer] [.bool] false

/-! ## the vector function -/

def vectorSig (arrays scalars : List Int) : Signature :=
  ⟨List.replicate (arrays.length + 1) .pointer ++ [.i64] ++ scalars.map fun _ => .f64, []⟩

/-- columns with the parameters from number `i` on -/
def paramInputs (b : Builder) (i : Nat) : List Int → Builder × List ColumnInput
  | [] => (b, [])
  | c :: cs =>
    let (b, v) := b.param i
    let (b, rest) := paramInputs b (i + 1) cs
    (b, ⟨c, v⟩ :: rest)

def vectorBody (t : Tree) (arrays scalars : List Int) (scope : Scope) (b : Builder) :
    Builder × Option Unit :=
  let (b, result) := b.param arrays.length
  let (b, count) := b.param (arrays.length + 1)
  let (b, as) := paramInputs b 0 arrays
  let (b, ss) := paramInputs b (arrays.length + 2) scalars
  b.vectorLoop ⟨as, ss, result, count⟩ (t.emit scope)

def vectorCode (t : Tree) (arrays scalars : List Int) (scope : Scope) (b : Builder) :
    Builder × Option (List Int) :=
  let (b, r) := vectorBody t arrays scalars scope b
  (b, r.map fun _ => [])

def vectorType (arrays scalars : List Int) : Host.HostType :=
  .func (List.replicate (arrays.length + 1) .pointer ++ [.int64] ++ scalars.map fun _ => .float64) []
    false

/-! ## compiling -/

variable [Host.Platform]

def define (u : CodeUnit) (i : Nat) (results : List Int) : CodeUnit × Outcome Emit.Fault Compiled :=
  match u.builders[i]? with
  | none => (u, .crashed)
  | some b =>
    match u.finish i results with
    | (u, .failed f) => (u, .failed f)
    | (u, .crashed) => (u, .crashed)
    | (u, .done ()) =>
      let (u, r) := u.finalize b.id
      (u, .ofExcept r)

/-- a function whose code comes from `body`; a body without results gives an empty list -/
def makeFunction (u : CodeUnit) (name : String) (sig : Signature)
    (body : Scope → Builder → Builder × Option (List Int)) :
    CodeUnit × Outcome Emit.Fault Compiled :=
  match u.create name sig with
  | (u, .error f) => (u, .failed f)
  | (u, .ok i) =>
    match u.update i body with
    | (u, some (some results)) => define u i results
    | (u, _) => (u, .crashed)

/-- a function that was made becomes a function of the host, if the host takes it -/
def attach (r : CodeUnit × Outcome Emit.Fault Compiled) (take : Compiled → Except Host.Fault Unit) :
    CodeUnit × Outcome Emit.Fault Compiled :=
  match r with
  | (u, .failed f) => (u, .failed f)
  | (u, .crashed) => (u, .crashed)
  | (u, .done c) =>
    match take c with
    | .error f => (u, .failed (.host f))
    | .ok () => (u, .done c)

def makeRow (u : CodeUnit) (name : String) (t : Tree) (width : Int64) :
    CodeUnit × Outcome Emit.Fault Compiled :=
  attach (makeFunction u (name ++ "_row") rowSig (rowCode t width.toInt.toNat)) fun c =>
    Host.bind c.entry c.sig (.variable rowType)

def makeVector (u : CodeUnit) (name : String) (t : Tree) (arrays scalars : List Int) :
    CodeUnit × Outcome Emit.Fault Compiled :=
  attach (makeFunction u (name ++ "_vector") (vectorSig arrays scalars) (vectorCode t arrays scalars))
    fun c => Host.makeFunc c.entry c.sig (vectorType arrays scalars)

def check (t : Tree) (scalars : List Int) : Except Fault Unit :=
  match t.check with
  | .error f => .error (.tree f)
  | .ok () =>
    if t.kind ≠ .bool then .error (.notPredicate t.text)
    else
      let used := t.columns.map Int64.toInt
      match scalars.find? fun c => !used.contains c with
      | some c => .error (.unusedScalar c t.text)
      | none => .ok ()

/-- compiles a tree; the columns in `scalars` have one value, all others one for each row -/
def compile (u : CodeUnit) (name : String) (t : Tree) (scalars : List Int) :
    CodeUnit × Outcome Fault Predicate :=
  match check t scalars with
  | .error f => (u, .failed f)
  | .ok () =>
    let used := sortedDistinct (t.columns.map Int64.toInt)
    let (scalars, arrays) := used.partition fun c => scalars.contains c
    let width := t.numColumns
    let finished (u : CodeUnit) (row : Compiled) (vector : Option Compiled) :
        CodeUnit × Outcome Fault Predicate :=
      (u.note [.predicateCompiled name t.text (bracketed arrays) (bracketed scalars)],
        .done ⟨t, width, arrays, scalars, row, vector⟩)
    match makeRow u name t width with
    | (u, .failed f) => (u, .failed (.emit f))
    | (u, .crashed) => (u, .crashed)
    | (u, .done row) =>
      if arrays.isEmpty then finished u row none
      else
        match makeVector u name t arrays scalars with
        | (u, .failed f) => (u, .failed (.emit f))
        | (u, .crashed) => (u, .crashed)
        | (u, .done vector) => finished u row (some vector)

end Predicate

end TreeJit
