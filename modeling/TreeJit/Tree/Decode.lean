import TreeJit.Tree.Basic
import TreeJit.Yaml.Document
import TreeJit.Yaml.Record

/-!
# Trees from YAML

A tree is written as a record for each node.  Of the fields `op`, `column`, `float` and `int`
exactly one is set; an operator has its operands in `left` and `right`, a column may have a `name`.
`RawTree` is such a record before it is looked at; `RawTree.build` makes a tree of it, and a fault
tells the path of the node; `RawTree.read` also checks the tree.
-/

namespace TreeJit

inductive RawTree where
  /-- no record -/
  | absent
  | node (op : String) (left right : RawTree) (column : Option Int64) (name : String)
    (float : Option UInt64) (int : Option Int64)

namespace RawTree

/-- a record in which nothing is set -/
def blank : RawTree := .node "" .absent .absent none "" none none

def schema : Yaml.Schema
  | "op" | "name" => some .text
  | "left" | "right" => some .record
  | "column" | "int" => some .integer
  | "float" => some .number
  | _ => none

def setField (r : RawTree) (key : String) (v : Yaml.Value) : RawTree :=
  match r with
  | .absent => .absent
  | .node op left right column name float int =>
    match key, v with
    | "op", .text s => .node s left right column name float int
    | "name", .text s => .node op left right column s float int
    | "column", .integer i => .node op left right (some i) name float int
    | "int", .integer i => .node op left right column name float (some i)
    | "float", .number b => .node op left right column name (some b) int
    | _, _ => r

def setOperand (r : RawTree) (key : String) (t : RawTree) : RawTree :=
  match r with
  | .absent => .absent
  | .node op left right column name float int =>
    match key with
    | "left" => .node op t right column name float int
    | "right" => .node op left t column name float int
    | _ => r

mutual

def ofValue : Yaml.Value → RawTree
  | .record fs => ofFields blank fs
  | _ => .absent
termination_by v => sizeOf v

/-- a record with the given fields; a field that is not set stays as it is -/
def ofFields (r : RawTree) : Yaml.Fields → RawTree
  | [] => r
  | (key, v) :: fs => ofFields ((r.setField key v).setOperand key (ofValue v)) fs
termination_by fs => sizeOf fs

end

end RawTree

/-! ## reading -/

inductive DecodeFault where
  | yaml (f : Yaml.Fault)
  /-- the text has no document -/
  | noDocument
  | missingNode (path : String)
  | ambiguous (path : String)
  | unknownOperator (path name : String)
  | tree (f : TreeFault)
  deriving DecidableEq

def DecodeFault.kind? : DecodeFault → Option TreeFaultKind
  | .missingNode _ => some .invalid
  | .ambiguous _ => some .invalid
  | .unknownOperator .. => some .unknownOperator
  | .tree f => some f.kind
  | _ => none

def DecodeFault.message : DecodeFault → String
  | .yaml .malformed => "expr: decode: not YAML"
  | .yaml .mismatch => "expr: decode: no record of a node"
  | .yaml .breakdown => "expr: decode: keys cannot be told apart"
  | .noDocument => "expr: decode: EOF"
  | .missingNode p => TreeFaultKind.invalid.text ++ ": " ++ p ++ ": missing node"
  | .ambiguous p =>
    TreeFaultKind.invalid.text ++ ": " ++ p ++ ": node needs exactly one of op, column, float, int"
  | .unknownOperator p n => TreeFaultKind.unknownOperator.text ++ ": " ++ p ++ ": " ++ quoted n
  | .tree f => f.message

/-- the tree of a record; fields that a node does not need are not looked at -/
def RawTree.build (path : String) : RawTree → Except DecodeFault Tree
  | .absent => .error (.missingNode path)
  | .node op left right column name float int =>
    match op, column, float, int with
    | "", some i, none, none => .ok (.column i name)
    | "", none, some b, none => .ok (.literal b)
    | "", none, none, some i => .ok (.literal (doubleOfInt i.toInt))
    | op, none, none, none =>
      if op = "" then .error (.ambiguous path)
      else if !(Operator.ofName op).isValid then .error (.unknownOperator path op)
      else do
        let l ← left.build (path ++ ".left")
        let r ← right.build (path ++ ".right")
        return .binary (Operator.ofName op) l r
    | _, _, _, _ => .error (.ambiguous path)

def RawTree.read (r : RawTree) : Except DecodeFault Tree := do
  let t ← r.build "$"
  match t.check with
  | .ok () => return t
  | .error f => throw (.tree f)

def Tree.decode (text : List UInt8) : Except DecodeFault Tree := do
  match ← (Yaml.parse text).mapError DecodeFault.yaml with
  | none => throw .noDocument
  | some doc =>
    let fields ← (doc.record RawTree.schema).mapError DecodeFault.yaml
    (RawTree.ofFields .blank fields).read

end TreeJit
