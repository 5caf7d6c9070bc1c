import TreeJit.Host.Routine
import TreeJit.Proofs.SSA.Change
import TreeJit.Proofs.Tree.Emit

/-!
# Helpers compute their operations

* `Builtin.helper_eq`       every helper can be built, and this is the function;
* `Builtin.run_function`    it runs in one block and computes the operation;
* `runsHelpers_iff`         calls of built-in names that run the helpers compute the operations.
-/

namespace TreeJit

open SSA

namespace Host.Builtin

/-- the instruction of a helper, whose operands are its first two values -/
def inst : Builtin → Inst
  | .float op => .binary (floatBin op) .f64 0 1
  | .compare c => .fcmp c .f64 0 1
  | .intAdd => .binary .iadd .i64 0 1
  | .intSub => .binary .isub .i64 0 1
  | .intMul => .binary .imul .i64 0 1

def function (f : Builtin) : Func where
  name := f.name
  sig := f.sig
  values := (f.sig.params ++ f.sig.returns).toArray
  blocks := #[{ params := #[0, 1], steps := #[⟨f.inst, [2]⟩, ⟨.ret [2], []⟩], sealed := true }]

/-- the instruction passes the checks of a draft, and the complete function those of the end -/
theorem draft_finished (f : Builtin) :
    f.draft.body.fn = f.function ∧ f.draft.finish.2.isOk = true := by
  cases f with
  | float op => cases op <;> decide +kernel
  | compare c => cases c <;> decide +kernel
  | intAdd => decide +kernel
  | intSub => decide +kernel
  | intMul => decide +kernel

theorem helper_eq (f : Builtin) : f.helper = .ok f.function := by
  obtain ⟨hfn, hok⟩ := f.draft_finished
  rw [helper, Draft.finish_of_isOk hok, hfn]

/-- **A helper computes its operation** and touches no memory. -/
theorem run_function (f : Builtin) (w : World) (fuel : Nat) (sp : UInt64) (x y : Val) (m : Memory) :
    f.function.run w (fuel + 1) sp [x, y] m = .ok ([f.apply w.float x y], m) := by
  cases f with
  | float op => cases op <;> rfl
  | compare c => rfl
  | intAdd => rfl
  | intSub => rfl
  | intMul => rfl

end Host.Builtin

/-- a call of a built-in name runs the function that was built for it -/
def RunsHelpers (w : World) : Prop :=
  ∀ f : Host.Builtin, ∃ fn, f.helper = .ok fn ∧ ∀ (sp : UInt64) (x y : Val) (m : Memory),
    ∃ fuel, w.call f.name sp [x, y] m = fn.run w (fuel + 1) sp [x, y] m

/-- **Running the helpers is computing the operations.** -/
theorem runsHelpers_iff {w : World} : RunsHelpers w ↔ Natives w := by
  constructor
  · intro h f sp x y m
    obtain ⟨fn, hfn, hrun⟩ := h f
    obtain rfl := Except.ok.inj (f.helper_eq.symm.trans hfn)
    obtain ⟨fuel, e⟩ := hrun sp x y m
    rw [e, f.run_function]
  · intro h f
    refine ⟨f.function, f.helper_eq, fun sp x y m => ⟨0, ?_⟩⟩
    rw [h, f.run_function]

end TreeJit
