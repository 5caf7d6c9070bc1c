import TreeJit.Text.Blank
import TreeJit.Text.Quoted
import TreeJit.Word.Power

/-!
# Lists on the command line

* `parseColumns`   column numbers between commas;
* `Assignments`    `name=value` pairs, one for each time the option is given.
-/

namespace TreeJit.Cli

inductive IntegerFault where
  | malformed
  | outOfRange
  deriving DecidableEq

def IntegerFault.text : IntegerFault → String
  | .malformed => "invalid syntax"
  | .outOfRange => "value out of range"

/-- the number of decimal digits, after `acc`.  A number of more than 64 bits is out of range even if
something else follows it. -/
def naturalFrom (acc : Nat) : List Char → Except IntegerFault Nat
  | [] => .ok acc
  | c :: cs =>
    if !c.isDigit then .error .malformed
    else
      let n := 10 * acc + (c.toNat - '0'.toNat)
      if 2 ^ 64 ≤ n then .error .outOfRange else naturalFrom n cs

def parseInteger (s : String) : Except IntegerFault Int :=
  let (neg, ds) := match s.toList with
    | '-' :: r => (true, r)
    | '+' :: r => (false, r)
    | r => (false, r)
  if ds.isEmpty then .error .malformed
  else
    match naturalFrom 0 ds with
    | .error f => .error f
    | .ok n =>
      if neg then (if n ≤ 2 ^ 63 then .ok (-(n : Int)) else .error .outOfRange)
      else if n < 2 ^ 63 then .ok n else .error .outOfRange

structure ColumnFault where
  part : String
  fault : IntegerFault
  deriving DecidableEq

def ColumnFault.message (f : ColumnFault) : String :=
  "scalar column " ++ quoted f.part ++ ": strconv.Atoi: parsing " ++ quoted (trimBlanks f.part) ++ ": "
    ++ f.fault.text

def parseParts : List String → Except ColumnFault (List Int)
  | [] => .ok []
  | p :: ps =>
    match parseInteger (trimBlanks p) with
    | .error f => .error ⟨p, f⟩
    | .ok i => (parseParts ps).map fun is => i :: is

/-- the columns of a list; blanks around a number do not count -/
def parseColumns (s : String) : Except ColumnFault (List Int) :=
  if s = "" then .ok [] else parseParts (s.splitOn ",")

/-! ## assignments -/

/-- texts of the form `name=value`, in the order given -/
structure Assignments where
  items : List String := []

namespace Assignments

def text (a : Assignments) : String := ",".intercalate a.items

/-- appends an assignment; a text without `=` is refused -/
def add (a : Assignments) (s : String) : Except String Assignments :=
  if s.toList.contains '=' then .ok ⟨a.items ++ [s]⟩
  else .error ("expected name=value, got " ++ quoted s)

def split (s : String) : String × String :=
  let cs := s.toList
  (String.ofList (cs.takeWhile (· ≠ '=')), String.ofList ((cs.dropWhile (· ≠ '=')).drop 1))

end Assignments

end TreeJit.Cli
