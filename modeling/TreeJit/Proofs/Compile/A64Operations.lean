import TreeJit.Proofs.Compile.A64Moves
import TreeJit.Proofs.Compile.Operations

/-!
# Operations on AArch64

Operands are in `x9` and `x10`, or in `v16` and `v17`, and an operation leaves in `x9` or `v16` what
the interpreter computes:

* `normalize_leads`        the upper bits of a narrow result are cleared;
* `scalarInt_leads`        integer arithmetic, `floatOrVector_performs` arithmetic of floats and vectors;
* `intCond_test`           the conditions after a comparison of integers, where the carry says that
                           nothing was borrowed;
* `floatCond_test`         the conditions after a comparison of floats: unordered operands set the
                           carry and overflow flags, and then only `ne` holds;
* `laneCompare_leads`      the masks of a comparison of lanes, "less" with the operands exchanged.
-/

namespace TreeJit.Compile.A64

open SSA TreeJit.A64
open TreeJit.X64 (FloatOrder)
open TreeJit.Compile.X64 (bit)

theorem x_of_eq (c : Cpu) (n : Nat) (y : UInt64) : (c.setX n y).x n = y := if_pos rfl

theorem v_of_eq (c : Cpu) (n : Nat) (y : Val) : (c.setV n y).v n = y := if_pos rfl

/-! ## integers -/

section
variable {E : Env} {c : Cpu} {t : Ty}

theorem normalize_leads (ht : t.isInt = true) : Leads E c (normalize scratch0 t) []
    (· = c.setX 9 (Val.keep t ⟨c.x 9, 0⟩).lo) := by
  refine ⟨_, ?_, rfl⟩
  cases t with
  | i8 | i16 | i32 => rfl
  | i64 =>
    show some (c, []) = some (c.setX 9 (c.x 9), [])
    rw [Cpu.setX_self]
  | _ => cases ht

theorem scalarInt_performs {op : BinOp} {o : RegOp} (h : scalarIntOp? op = some o) :
    (Instr.reg3 o (.x scratch0) (.x scratch0) (.x scratch1)).perform E c =
      some (c.setX 9 (op.onWord (c.x 9) (c.x 10)), []) := by
  cases op with
  | iadd | isub | imul | band | bor =>
    cases h
    rfl
  | _ => cases h

/-- **Arithmetic of integers**, cleared above the width of the type -/
theorem scalarInt_leads {op : BinOp} {o : RegOp} (h : scalarIntOp? op = some o) (ht : t.isInt = true)
    (F : FloatOps) {x y : Val} (hx : c.x 9 = x.lo) (hy : c.x 10 = y.lo) :
    Leads E c ([.reg3 o (.x scratch0) (.x scratch0) (.x scratch1)] ++ normalize scratch0 t) [] fun c' =>
      ∃ w, c' = (c.setX 9 w).setX 9 (evalBinary F op t x y).lo := by
  have hp := scalarInt_performs (E := E) (c := c) h
  refine .quiet hp (normalize_leads ht |>.mono ?_)
  rintro _ rfl
  refine ⟨op.onWord (c.x 9) (c.x 10), ?_⟩
  have e : evalBinary F op t x y = Val.keep t ⟨op.onWord x.lo y.lo, op.onWord x.hi y.hi⟩ := by
    cases op <;> first | rfl | cases h
  rw [e, x_of_eq, hx, hy]
  congr 1
  cases t <;> rfl

/-! ## integer conditions -/

/-- the flags of both machines, where the carry of this one says that nothing was borrowed -/
theorem intCond_test {f : Flags} {g : TreeJit.X64.Flags} (hn : f.negative = g.sign) (hz : f.zero = g.zero)
    (hc : f.carry = !g.carry) (ho : f.overflow = g.overflow) (cc : IntCond) :
    f.test (intCond cc) = g.test (X64.intCond cc) := by
  obtain ⟨n, z, c, v⟩ := f
  obtain ⟨z', c', n', v', p'⟩ := g
  cases hn
  cases hz
  cases hc
  cases ho
  cases cc with
  | eq | ne | slt | sge | uge => rfl
  | ult => cases c' <;> rfl
  | sle | sgt => cases z <;> cases n <;> cases v <;> rfl
  | ule | ugt => cases z <;> cases c' <;> rfl

theorem subFlags64_test (cc : IntCond) (a b : UInt64) : (subFlags64 a b).test (intCond cc) =
    cc.holds a.toInt64.toInt b.toInt64.toInt a.toNat b.toNat := by
  rw [← X64.subFlags64_test]
  refine intCond_test rfl rfl ?_ rfl cc
  show decide (b ≤ a) = !decide (a < b)
  rw [← decide_not]
  exact decide_eq_decide.mpr UInt64.not_lt.symm

theorem subFlags32_test (cc : IntCond) (a b : UInt32) : (subFlags32 a b).test (intCond cc) =
    cc.holds a.toInt32.toInt b.toInt32.toInt a.toNat b.toNat := by
  rw [← X64.subFlags32_test]
  refine intCond_test rfl rfl ?_ rfl cc
  show decide (b ≤ a) = !decide (a < b)
  rw [← decide_not]
  exact decide_eq_decide.mpr UInt32.not_lt.symm

/-! ## conditions in a register -/

theorem test_invert (fl : Flags) {cond : Cond} (h : cond.toNat < 14) :
    fl.test (cond.invert &&& 0xF) = !fl.test cond := by
  have key : ∀ n z c v : Bool, ∀ k < 14, (Flags.mk n z c v).test (Cond.invert (UInt8.ofNat k) &&& 0xF) =
      !(Flags.mk n z c v).test (UInt8.ofNat k) := by decide +kernel
  have hk := key fl.negative fl.zero fl.carry fl.overflow cond.toNat h
  rwa [UInt8.ofNat_toNat] at hk

theorem cset_performs {cond : Cond} (h : cond.toNat < 14) :
    (Instr.cset (.x scratch0) cond).perform E c = some (c.setX 9 (bit (c.flags.test cond)), []) := by
  rw [Instr.perform, test_invert c.flags h]
  cases c.flags.test cond <;> rfl

theorem intCond_lt (cc : IntCond) : (intCond cc).toNat < 14 := by cases cc <;> decide

theorem floatCond_lt (cc : FloatCond) : (floatCond cc).toNat < 14 := by cases cc <;> decide

/-- **Comparisons of integers** -/
theorem icmp_leads (cc : IntCond) {x y : Val} (hx : c.x 9 = x.lo) (hy : c.x 10 = y.lo) :
    Leads E c [if t = .i32 then .cmp (.w scratch0) (.w scratch1) else .cmp (.x scratch0) (.x scratch1),
      .cset (.x scratch0) (intCond cc)] [] fun c' =>
      ∃ fl, c' = (c.setFlags fl).setX 9 (evalICmp cc t x y).lo := by
  have hcmp : ∃ fl : Flags, (if t = .i32 then Instr.cmp (.w scratch0) (.w scratch1)
        else .cmp (.x scratch0) (.x scratch1)).perform E c = some (c.setFlags fl, []) ∧
      Val.ofBool (fl.test (intCond cc)) = evalICmp cc t x y := by
    unfold evalICmp
    split
    · refine ⟨subFlags32 (c.x 9).toUInt32 (c.x 10).toUInt32, rfl, ?_⟩
      rw [subFlags32_test, hx, hy]
    · refine ⟨subFlags64 (c.x 9) (c.x 10), rfl, ?_⟩
      rw [subFlags64_test, hx, hy]
  obtain ⟨fl, hp, hv⟩ := hcmp
  refine .quiet hp (.last (cset_performs (intCond_lt cc)) ⟨fl, ?_⟩)
  rw [← hv, Cpu.flags_setFlags]
  cases fl.test (intCond cc) <;> rfl

end

/-! ## floats and vectors -/

/-- the machine does float arithmetic as the interpreter does, and its comparisons have one outcome
out of four, the reverse one for exchanged operands -/
structure Env.Agrees (E : Env) (F : FloatOps) : Prop where
  float : E.float = F
  test : ∀ cc x y, F.test cc x y = (E.order x y).holds cc
  test32 : ∀ cc x y, F.test32 cc x y = (E.order32 x y).holds cc
  swap : ∀ x y, E.order y x = (E.order x y).swap

section
variable {E : Env} {c : Cpu} {t : Ty} {F : FloatOps}

theorem setV_setV (c : Cpu) (n : Nat) (y z : Val) : (c.setV n y).setV n z = c.setV n z := by
  unfold Cpu.setV
  congr
  funext i
  by_cases h : i = n
  · rw [if_pos h, if_pos h]
  · rw [if_neg h, if_neg h]
    exact if_neg h

/-- **Arithmetic of floats and vectors** -/
theorem floatOrVector_performs (hE : Env.Agrees E F) {op : BinOp} {i : Instr}
    (h : floatOrVector? op t = some i) (ht : t.isInt = false) :
    i.perform E c = some (c.setV 16 (evalBinary F op t (c.v 16) (c.v 17)), []) := by
  rw [← hE.float]
  cases t with
  | i64x2 | f64x2 | f32 | f64 => cases op <;> first | cases h; rfl | cases h
  | invalid => cases op <;> first | cases h; rfl | cases h
  | _ => cases ht

theorem keep_floatOrVector {op : BinOp} {i : Instr} (h : floatOrVector? op t = some i)
    (ht : t.isInt = false) (a b : Val) :
    Val.keep t (evalBinary F op t a b) = evalBinary F op t a b := by
  cases t with
  | f32 =>
    cases op with
    | fadd | fsub | fmul | fdiv => exact congrArg (Val.mk · 0) (X64.toUInt64_and _)
    | _ => cases h
  | i64x2 | f64x2 | f64 | invalid => cases op <;> rfl
  | _ => cases ht

theorem floatCond_test (o : FloatOrder) (cc : FloatCond) :
    (orderFlags o).test (floatCond cc) = o.holds cc := by
  cases o <;> cases cc <;> rfl

/-- **Comparisons of scalars** -/
theorem fcmpScalar_leads (hE : Env.Agrees E F) (ht : t.isVector = false) (cc : FloatCond) :
    Leads E c [.fcmp (precision t) vscratch0 vscratch1, .cset (.x scratch0) (floatCond cc)] [] fun c' =>
      ∃ fl, c' = (c.setFlags fl).setX 9 (evalFCmp F cc t (c.v 16) (c.v 17)).lo := by
  refine .quiet rfl (.last (cset_performs (floatCond_lt cc)) ⟨_, congrArg _ ?_⟩)
  rw [Cpu.flags_setFlags]
  cases t with
  | f64x2 | i64x2 => cases ht
  | f32 =>
    show bit ((orderFlags _).test _) = (Val.ofBool (F.test32 cc _ _)).lo
    rw [floatCond_test, hE.test32]
    rfl
  | _ =>
    show bit ((orderFlags _).test _) = (Val.ofBool (F.test cc _ _)).lo
    rw [floatCond_test, hE.test]
    rfl

theorem not_laneMask (b : Bool) : ~~~laneMask b = laneMask !b := by cases b <;> rfl

theorem swap_holds (o : FloatOrder) :
    o.swap.holds .gt = o.holds .lt ∧ o.swap.holds .ge = o.holds .le := by cases o <;> exact ⟨rfl, rfl⟩

theorem holds_ne (o : FloatOrder) : (!o.holds .eq) = o.holds .ne := by cases o <;> rfl

/-- **Comparisons of lanes** -/
theorem laneCompare_leads (hE : Env.Agrees E F) (cc : FloatCond) : Leads E c (laneCompare cc) []
    (· = c.setV 16 (evalFCmp F cc .f64x2 (c.v 16) (c.v 17))) := by
  have e : evalFCmp F cc .f64x2 (c.v 16) (c.v 17) =
      ⟨laneMask ((E.order (c.v 16).lo (c.v 17).lo).holds cc),
        laneMask ((E.order (c.v 16).hi (c.v 17).hi).holds cc)⟩ := by
    show Val.mk _ _ = _
    rw [hE.test, hE.test]
  rw [e]
  cases cc with
  | eq | gt | ge => exact .last rfl rfl
  | ne =>
    refine .quiet rfl (.last rfl ?_)
    rw [setV_setV, ← holds_ne, ← holds_ne, ← not_laneMask, ← not_laneMask]
    rfl
  | lt =>
    refine .last rfl ?_
    rw [← (swap_holds _).1, ← (swap_holds _).1, ← hE.swap, ← hE.swap]
    rfl
  | le =>
    refine .last rfl ?_
    rw [← (swap_holds _).2, ← (swap_holds _).2, ← hE.swap, ← hE.swap]
    rfl

end

end TreeJit.Compile.A64
