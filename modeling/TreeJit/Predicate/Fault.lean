import TreeJit.Emit.Fault
import TreeJit.Tree.Basic

/-!
# Faults of predicates

A fault of the tree, of the unit or of the host is passed on.
-/

namespace TreeJit.Predicate

inductive FaultKind where
  | notPredicate | lengthMismatch | missingColumn | noArrays
  deriving DecidableEq, Repr

def FaultKind.text : FaultKind → String
  | .notPredicate => "predicate: expression is not boolean"
  | .lengthMismatch => "predicate: column length mismatch"
  | .missingColumn => "predicate: column not supplied"
  | .noArrays => "predicate: no array columns"

inductive Fault where
  | notPredicate (expr : String)
  | unusedScalar (column : Int) (expr : String)
  | noArrays
  | missingArray (column : Int)
  | missingScalar (column : Int)
  | rowWidth (got : Nat) (want : Int)
  | columnRows (column : Int) (got want : Nat)
  | maskRows (column : Nat) (got want : Nat)
  | tree (f : TreeFault)
  | emit (f : Emit.Fault)

namespace Fault

def kind? : Fault → Option FaultKind
  | .notPredicate _ => some .notPredicate
  | .unusedScalar .. | .missingArray _ | .missingScalar _ => some .missingColumn
  | .noArrays => some .noArrays
  | .rowWidth .. | .columnRows .. | .maskRows .. => some .lengthMismatch
  | .tree _ | .emit _ => none

def message : Fault → String
  | .notPredicate t => FaultKind.notPredicate.text ++ ": " ++ t
  | .unusedScalar c t =>
    FaultKind.missingColumn.text ++ s!": scalar column {c} is not used by " ++ t
  | .noArrays => FaultKind.noArrays.text
  | .missingArray c => FaultKind.missingColumn.text ++ s!": array column {c}"
  | .missingScalar c => FaultKind.missingColumn.text ++ s!": scalar column {c}"
  | .rowWidth got want =>
    FaultKind.lengthMismatch.text ++ s!": row has {got} columns, want {want}"
  | .columnRows c got want =>
    FaultKind.lengthMismatch.text ++ s!": column {c} has {got} rows, want {want}"
  | .maskRows c got want =>
    FaultKind.lengthMismatch.text ++ s!": column {c} has {got} rows, mask has {want}"
  | .tree f => f.message
  | .emit f => f.message

end Fault

end TreeJit.Predicate
