import TreeJit.Decimal.General
import TreeJit.SSA.Value
import TreeJit.Text.Quoted

/-!
# Expression trees

Values are doubles.  A comparison gives a truth value, which evaluates to `1` or `0`.  A tree may be
incomplete (`Tree.missing`), use an operator that does not exist or refer to a negative column;
`Tree.check` finds these, and operands of the wrong kind.

* `Tree.eval`        the value of a tree on a row;
* `Tree.text`        the tree in infix form;
* `Tree.numColumns`  one past the highest column, in 64 bits.
-/

namespace TreeJit

open SSA

inductive Operator where
  | arith (op : FloatOp)
  | compare (c : FloatCond)
  /-- no operator has this name -/
  | other (name : String)
  deriving DecidableEq

namespace Operator

def all : List Operator :=
  [.arith .add, .arith .sub, .arith .mul, .arith .div, .compare .lt, .compare .le, .compare .gt,
    .compare .ge, .compare .eq, .compare .ne]

def name : Operator → String
  | .arith .add => "add"
  | .arith .sub => "sub"
  | .arith .mul => "mul"
  | .arith .div => "div"
  | .compare c => c.name
  | .other s => s

def ofName (s : String) : Operator := (all.find? fun o => o.name == s).getD (.other s)

def symbol : Operator → String
  | .arith .add => "+"
  | .arith .sub => "-"
  | .arith .mul => "*"
  | .arith .div => "/"
  | .compare .lt => "<"
  | .compare .le => "<="
  | .compare .gt => ">"
  | .compare .ge => ">="
  | .compare .eq => "=="
  | .compare .ne => "!="
  | .other _ => ""

def isValid : Operator → Bool
  | .other _ => false
  | _ => true

def isCompare : Operator → Bool
  | .compare _ => true
  | _ => false

theorem ofName_name (o : Operator) (h : o.isValid = true) : ofName o.name = o := by
  rcases o with op | c | s
  · cases op <;> rfl
  · cases c <;> rfl
  · cases h

end Operator

inductive Kind where
  | float
  | bool
  deriving DecidableEq, Repr

def Kind.name : Kind → String
  | .float => "f64"
  | .bool => "bool"

inductive Tree where
  | binary (op : Operator) (left right : Tree)
  /-- a column, by position; the name is for display -/
  | column (index : Int64) (name : String)
  /-- the pattern of a double -/
  | literal (bits : UInt64)
  /-- a node that is not there -/
  | missing
  deriving DecidableEq

def nanBits : UInt64 := 0x7FF8000000000001

def truthBits (b : Bool) : UInt64 := if b then 0x3FF0000000000000 else 0

def Operator.apply (F : FloatOps) (o : Operator) (x y : UInt64) : UInt64 :=
  match o with
  | .arith op => F.arith op x y
  | .compare c => truthBits (F.test c x y)
  | .other _ => nanBits

namespace Tree

def kind : Tree → Kind
  | .binary op _ _ => if op.isCompare then .bool else .float
  | _ => .float

def text : Tree → String
  | .binary op l r => "(" ++ l.text ++ " " ++ op.symbol ++ " " ++ r.text ++ ")"
  | .column i name => if name = "" then s!"#{i}" else name
  | .literal b => Decimal.doubleText b
  | .missing => ""

/-- the value of a column; a position outside the row has none -/
def cell (row : List UInt64) (i : Int64) : UInt64 :=
  if i < 0 then nanBits else row[i.toInt.toNat]?.getD nanBits

def eval (F : FloatOps) (row : List UInt64) : Tree → UInt64
  | .binary op l r => op.apply F (l.eval F row) (r.eval F row)
  | .column i _ => cell row i
  | .literal b => b
  | .missing => nanBits

/-- one past the highest column -/
def numColumns : Tree → Int64
  | .binary _ l r => max 0 (max l.numColumns r.numColumns)
  | .column i _ => i + 1
  | _ => 0

/-- whether every node is there -/
def isComplete : Tree → Bool
  | .binary _ l r => l.isComplete && r.isComplete
  | .missing => false
  | _ => true

def columns : Tree → List Int64
  | .binary _ l r => l.columns ++ r.columns
  | .column i _ => [i]
  | _ => []

end Tree

/-! ## checking -/

inductive TreeFaultKind where
  | invalid
  | unknownOperator
  deriving DecidableEq, Repr

def TreeFaultKind.text : TreeFaultKind → String
  | .invalid => "expr: invalid expression"
  | .unknownOperator => "expr: unknown operator"

inductive TreeFault where
  | unknownOperator (name : String)
  | missingOperand (op : Operator)
  | operandKind (op : Operator) (operand : String) (kind : Kind)
  | columnIndex (i : Int64)
  | missingTree
  deriving DecidableEq

def TreeFault.kind : TreeFault → TreeFaultKind
  | .unknownOperator _ => .unknownOperator
  | _ => .invalid

def TreeFault.message (f : TreeFault) : String :=
  f.kind.text ++ ": " ++
    match f with
    | .unknownOperator n => quoted n
    | .missingOperand op => op.name ++ " is missing an operand"
    | .operandKind op t k => op.name ++ " operand " ++ t ++ " is " ++ k.name
    | .columnIndex i => s!"column index {i}"
    | .missingTree => "nil node"

namespace Tree

/-- an operand must be a number -/
def checkOperand (op : Operator) (t : Tree) : Except TreeFault Unit :=
  if t.kind = .float then .ok () else .error (.operandKind op t.text t.kind)

/-- the first fault: an operator before its operands, the left operand before the right -/
def check : Tree → Except TreeFault Unit
  | .binary op l r =>
    if !op.isValid then .error (.unknownOperator op.name)
    else if l = .missing ∨ r = .missing then .error (.missingOperand op)
    else do
      l.check
      checkOperand op l
      r.check
      checkOperand op r
  | .column i _ => if i < 0 then .error (.columnIndex i) else .ok ()
  | .literal _ => .ok ()
  | .missing => .error .missingTree

end Tree

end TreeJit
