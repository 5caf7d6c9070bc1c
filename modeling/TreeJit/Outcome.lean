/-!
# Outcomes

An operation ends with a result, with a fault that is told to the caller, or it breaks down.
-/

namespace TreeJit

inductive Outcome (ε α : Type) where
  | done (a : α)
  | failed (f : ε)
  /-- it breaks down -/
  | crashed

namespace Outcome

def ofExcept {ε α : Type} : Except ε α → Outcome ε α
  | .ok a => .done a
  | .error f => .failed f

def isCrash {ε α : Type} : Outcome ε α → Bool
  | .crashed => true
  | _ => false

theorem isCrash_ofExcept {ε α : Type} (r : Except ε α) : (ofExcept r).isCrash = false := by
  cases r <;> rfl

end Outcome

end TreeJit
