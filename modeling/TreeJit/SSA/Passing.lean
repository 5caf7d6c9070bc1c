import TreeJit.SSA.Fault

/-!
# Passing values in registers

The calling conventions pass values in two register files, one for integers and one for floats and
vectors.  `passing` gives each type of a list the next register of its file; there is no passing on
the stack, so a list that needs more registers than there are is refused.
-/

namespace TreeJit.SSA

def Ty.regClass (t : Ty) : RegClass := if t.isInt then .int else .float

/-- the `index`-th register of a file -/
structure RegLoc where
  file : RegClass
  index : Nat
  deriving DecidableEq

/-- how many registers of each file a list may take, and the fault when it takes more -/
structure RegLimits where
  ints : Int
  floats : Int
  overflow : RegClass → Int → Fault

def RegLimits.forParams (ints floats : Int) : RegLimits := ⟨ints, floats, .tooManyParams⟩

def RegLimits.forResults (ints floats : Int) : RegLimits := ⟨ints, floats, .tooManyResults⟩

/-- registers for a list of types, after `i` integer and `f` float registers -/
def passingFrom (lim : RegLimits) : Nat → Nat → List Ty → Except Fault (List RegLoc)
  | _, _, [] => .ok []
  | i, f, t :: ts =>
    match t.regClass with
    | .int =>
      if (i : Int) < lim.ints then do
        let rest ← passingFrom lim (i + 1) f ts
        return ⟨.int, i⟩ :: rest
      else .error (lim.overflow .int lim.ints)
    | .float =>
      if (f : Int) < lim.floats then do
        let rest ← passingFrom lim i (f + 1) ts
        return ⟨.float, f⟩ :: rest
      else .error (lim.overflow .float lim.floats)

def passing (lim : RegLimits) (ts : List Ty) : Except Fault (List RegLoc) := passingFrom lim 0 0 ts

end TreeJit.SSA
