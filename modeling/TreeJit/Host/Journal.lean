import TreeJit.SSA.Ty

/-!
# The journal

What is noted while code is made: an `Event` has a title and named attributes.
-/

namespace TreeJit

inductive Attr where
  | number (n : Int)
  | text (s : String)
  deriving DecidableEq

inductive Event where
  | moduleBuilt (imports : Nat) (optLevel : String)
  | functionBody (name body : String)
  | functionDefined (name signature : String) (bytes relocations : Nat)
  | unitFailed (message : String)
  | moduleReleased (functions : Nat)
  | predicateCompiled (name expr arrays scalars : String)
  deriving DecidableEq

def Event.title : Event → String
  | .moduleBuilt .. => "jit module built"
  | .functionBody .. => "jit function ir"
  | .functionDefined .. => "jit function defined"
  | .unitFailed _ => "codegen unit failed"
  | .moduleReleased _ => "jit module released"
  | .predicateCompiled .. => "predicate compiled"

def Event.attrs : Event → List (String × Attr)
  | .moduleBuilt n o => [("imports", .number n), ("opt_level", .text o)]
  | .functionBody n b => [("name", .text n), ("ir", .text b)]
  | .functionDefined n s b r =>
    [("name", .text n), ("signature", .text s), ("bytes", .number b), ("relocations", .number r)]
  | .unitFailed m => [("err", .text m)]
  | .moduleReleased n => [("functions", .number n)]
  | .predicateCompiled n e a s =>
    [("name", .text n), ("expr", .text e), ("arrays", .text a), ("scalars", .text s)]

end TreeJit
