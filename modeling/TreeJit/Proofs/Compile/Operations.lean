import TreeJit.Proofs.Compile.Moves

/-!
# Operations

The code of arithmetic and of comparisons of integers leaves in the home of the result what the
interpreter computes.  What there is to show beyond moving values:

* `normalize_leads`        the upper bits of a narrow result are cleared;
* `intCond_test`           the conditions after an integer comparison, signed and unsigned;
* `Env.Agrees`             what is asked of the machine's float operations.
-/

namespace TreeJit.Compile.X64

open SSA TreeJit.X64

/-! ## integer conditions -/

theorem intCond_test {f : Flags} {sx sy : Int} {ux uy : Nat} (hz : f.zero = decide (ux = uy))
    (hc : f.carry = decide (ux < uy)) (hs : (f.sign != f.overflow) = decide (sx < sy))
    (he : sx = sy ↔ ux = uy) (cc : IntCond) :
    f.test (intCond cc) = cc.holds sx sy ux uy := by
  have hs' : (f.sign == f.overflow) = decide (sy ≤ sx) := by
    have e : (f.sign == f.overflow) = !(f.sign != f.overflow) := by simp [bne]
    rw [e, hs, ← decide_not]
    exact decide_eq_decide.mpr Int.not_lt
  cases cc with
  | eq => exact hz
  | ne => exact congrArg (!·) hz
  | slt => exact hs
  | sge => exact hs'
  | sle =>
    show (f.zero || f.sign != f.overflow) = _
    rw [hz, hs, ← Bool.decide_or]
    exact decide_eq_decide.mpr (by omega)
  | sgt =>
    show (!(f.zero || f.sign != f.overflow)) = _
    rw [hz, hs, ← Bool.decide_or, ← decide_not]
    exact decide_eq_decide.mpr (by omega)
  | ult => exact hc
  | uge =>
    show (!f.carry) = _
    rw [hc, ← decide_not]
    exact decide_eq_decide.mpr (by omega)
  | ule =>
    show (f.carry || f.zero) = _
    rw [hc, hz, ← Bool.decide_or]
    exact decide_eq_decide.mpr (by omega)
  | ugt =>
    show (!(f.carry || f.zero)) = _
    rw [hc, hz, ← Bool.decide_or, ← decide_not]
    exact decide_eq_decide.mpr (by omega)

/-- a wrapped difference has the wrong sign exactly if it is not the difference -/
theorem sign_bne_overflow {h x y d : Int} (hx : -h ≤ x ∧ x < h) (hy : -h ≤ y ∧ y < h)
    (hd : -h ≤ d ∧ d < h) (e : d = x - y ∨ d = x - y - 2 * h ∨ d = x - y + 2 * h) :
    (decide (d < 0) != decide (d ≠ x - y)) = decide (x < y) := by
  by_cases h0 : d < 0 <;> by_cases h1 : d = x - y <;> by_cases h2 : x < y <;>
    simp [h0, h1, h2] <;> omega

theorem subFlags64_test (cc : IntCond) (a b : UInt64) : (subFlags64 a b).test (intCond cc) =
    cc.holds a.toInt64.toInt b.toInt64.toInt a.toNat b.toNat := by
  refine intCond_test ?_ ?_ ?_ ?_ cc
  · show (a == b) = _
    rw [Bool.beq_eq_decide_eq]
    exact decide_eq_decide.mpr UInt64.toNat_inj.symm
  · exact decide_eq_decide.mpr UInt64.lt_iff_toNat_lt
  · have h1 := a.toInt64.le_toInt
    have h2 := b.toInt64.le_toInt
    have h3 := a.toInt64.toInt_lt
    have h4 := b.toInt64.toInt_lt
    refine sign_bne_overflow (h := 2 ^ 63) ⟨h1, h3⟩ ⟨h2, h4⟩
      ⟨(a - b).toInt64.le_toInt, (a - b).toInt64.toInt_lt⟩ ?_
    rw [UInt64.toInt64_sub, Int64.toInt_sub, Int.bmod]
    omega
  · rw [Int64.toInt_inj, UInt64.toNat_inj]
    exact ⟨fun e => by simpa using congrArg Int64.toUInt64 e, congrArg _⟩

theorem subFlags32_test (cc : IntCond) (a b : UInt32) : (subFlags32 a b).test (intCond cc) =
    cc.holds a.toInt32.toInt b.toInt32.toInt a.toNat b.toNat := by
  refine intCond_test ?_ ?_ ?_ ?_ cc
  · show (a == b) = _
    rw [Bool.beq_eq_decide_eq]
    exact decide_eq_decide.mpr UInt32.toNat_inj.symm
  · exact decide_eq_decide.mpr UInt32.lt_iff_toNat_lt
  · have h1 := a.toInt32.le_toInt
    have h2 := b.toInt32.le_toInt
    have h3 := a.toInt32.toInt_lt
    have h4 := b.toInt32.toInt_lt
    refine sign_bne_overflow (h := 2 ^ 31) ⟨h1, h3⟩ ⟨h2, h4⟩
      ⟨(a - b).toInt32.le_toInt, (a - b).toInt32.toInt_lt⟩ ?_
    rw [UInt32.toInt32_sub, Int32.toInt_sub, Int.bmod]
    omega
  · rw [Int32.toInt_inj, UInt32.toNat_inj]
    exact ⟨fun e => by simpa using congrArg Int32.toUInt32 e, congrArg _⟩

/-! ## float conditions -/

/-- the machine does float arithmetic as the interpreter does, and its comparisons have one outcome
out of four, the reverse one for exchanged operands -/
structure Env.Agrees (E : Env) (F : FloatOps) : Prop where
  float : E.float = F
  test : ∀ cc x y, F.test cc x y = (E.order x y).holds cc
  test32 : ∀ cc x y, F.test32 cc x y = (E.order32 x y).holds cc
  swap : ∀ x y, E.order y x = (E.order x y).swap
  swap32 : ∀ x y, E.order32 y x = (E.order32 x y).swap

theorem and_merge (a x m : UInt64) : ((a &&& ~~~m) ||| (x &&& m)) &&& m = x &&& m := by
  apply UInt64.toBitVec_inj.mp
  simp only [UInt64.toBitVec_and, UInt64.toBitVec_or, UInt64.toBitVec_not]
  ext i hi
  simp only [BitVec.getElem_and, BitVec.getElem_or, BitVec.getElem_not]
  cases m.toBitVec[i] <;> simp

theorem toUInt64_and (r : UInt32) : r.toUInt64 &&& 0xFFFFFFFF = r.toUInt64 := by
  have h := r.toNat_lt
  have e : r.toUInt64 = UInt64.ofNat r.toNat := by
    apply UInt64.toNat_inj.mp
    rw [UInt32.toNat_toUInt64, UInt64.toNat_ofNat', Nat.mod_eq_of_lt (by omega)]
  rw [e]
  exact ofNat_and (k := 32) (by omega) h

def bit (b : Bool) : UInt64 := if b then 1 else 0

theorem bit_and (b : Bool) : bit b &&& 0xFF = bit b := by cases b <;> rfl

theorem fills_bit (b : Bool) : Fills .i8 (bit b) (Val.ofBool b) := by
  cases b <;> exact ⟨rfl, fun _ => rfl⟩

/-- a condition set into a byte, after the rest of the register is cleared -/
theorem setcc_zx8 (old : UInt64) (b : Bool) :
    ((old &&& ~~~0xFF) ||| (bit b &&& 0xFF)) &&& 0xFF = bit b := by
  rw [and_merge, bit_and]

/-! ## integers -/

theorem setGpr_self (c : Cpu) (r : RegId) : c.setGpr r (c.gpr r) = c := by
  unfold Cpu.setGpr
  congr
  funext i
  split
  · rename_i e
    rw [e]
  · rfl

theorem normalize_leads (E : Env) (c : Cpu) (r : RegId) {t : Ty} (ht : t.isInt = true) :
    Leads E c (normalize r t) [] (· = c.setGpr r (Val.keep t ⟨c.gpr r, 0⟩).lo) := by
  refine ⟨_, ?_, rfl⟩
  cases t with
  | i8 | i16 => rfl
  | i32 =>
    show some (c.setGpr r (c.gpr r &&& 0xFFFFFFFF &&& 0xFFFFFFFF), []) = _
    rw [and_and_self]
    rfl
  | i64 =>
    show some (c, []) = some (c.setGpr r (c.gpr r), [])
    rw [setGpr_self]
  | _ => cases ht

theorem scalarIntOp_performs (E : Env) (c : Cpu) {op : BinOp} {i : Instr}
    (h : scalarIntOp? op = some i) : ∃ fl, i.perform E c =
      some ((c.setGpr rax (op.onWord (c.gpr rax) (c.gpr rcx))).setFlags fl, []) := by
  cases op with
  | iadd | isub | imul | band | bor =>
    cases h
    exact ⟨_, rfl⟩
  | _ => cases h

section
variable {K : Call} {A : ValueNo → Prop} {st : State} {c : Cpu} {x y dst : ValueNo} {t : Ty}
variable {L : List RegLoc}

theorem scalar_of_isInt (ht : t.isInt = true) : t.isVector = false ∧ t ≠ .f32 := by
  cases t <;> simp [Ty.isInt, Ty.isVector] at ht ⊢

theorem Sim.loadPair (hK : K.Ok) (h : Sim K A st c) (ht : t.isInt = true) (hx : A x) (hy : A y)
    (tx : K.fn.values[x]? = some t) (ty : K.fn.values[y]? = some t) :
    Leads K.env c [(K.ctx L).loadInt rax x, (K.ctx L).loadInt rcx y] [] fun c' =>
      Sim K A st c' ∧ c'.gpr rax = (st.get x).lo ∧ c'.gpr rcx = (st.get y).lo := by
  obtain ⟨hs, h32⟩ := scalar_of_isInt ht
  obtain ⟨v, fv, pv⟩ := h.loadInt (L := L) hK hx tx hs rax
  have h1 := h.setGpr (r := rax) (by decide) v
  obtain ⟨w, fw, pw⟩ := h1.loadInt (L := L) hK hy ty hs rcx
  refine .quiet pv (.quiet pw (.nil ⟨h1.setGpr (by decide) w, ?_, ?_⟩))
  · exact (fv.lo h32).symm
  · exact (fw.lo h32).symm

theorem Sim.binaryInt (hK : K.Ok) (h : Sim K A st c) (ht : t.isInt = true) (hx : A x) (hy : A y)
    (tx : K.fn.values[x]? = some t) (ty : K.fn.values[y]? = some t)
    (hd : K.fn.values[dst]? = some t) {op : BinOp} {i : Instr} (hi : scalarIntOp? op = some i)
    (F : FloatOps) :
    Leads K.env c ([(K.ctx L).loadInt rax x, (K.ctx L).loadInt rcx y, i] ++ normalize rax t ++
        [(K.ctx L).storeInt dst rax]) []
      (Sim K (fun v => v = dst ∨ A v)
        (st.set dst (evalBinary F op t (st.get x) (st.get y)))) := by
  obtain ⟨hs, -⟩ := scalar_of_isInt ht
  rw [List.append_assoc]
  show Leads _ _ ([_, _] ++ (i :: (normalize rax t ++ [_]))) _ _
  refine (h.loadPair hK ht hx hy tx ty).append ?_
  rintro c1 ⟨h1, ex, ey⟩
  obtain ⟨fl, hp⟩ := scalarIntOp_performs K.env c1 hi
  rw [ex, ey] at hp
  refine .quiet hp ?_
  have h2 := (h1.setGpr (r := rax) (by decide) (op.onWord (st.get x).lo (st.get y).lo)).setFlags fl
  refine (normalize_leads K.env _ rax ht).append ?_
  rintro c3 rfl
  refine (h2.setGpr (by decide) _).storeInt hK hd hs ?_
  have e : evalBinary F op t (st.get x) (st.get y) =
      Val.keep t ⟨op.onWord (st.get x).lo (st.get y).lo, op.onWord (st.get x).hi (st.get y).hi⟩ := by
    cases op <;> first | rfl | cases hi
  have e' := (keep_scalar hs
    ⟨op.onWord (st.get x).lo (st.get y).lo, op.onWord (st.get x).hi (st.get y).hi⟩).1
  rw [e, ← e']
  exact Fills.of_keep hs (keep_keep t _)

/-! ## floats and vectors -/

theorem Sim.loadFloats (hK : K.Ok) (h : Sim K A st c) (hx : A x) (hy : A y)
    (tx : K.fn.values[x]? = some t) (ty : K.fn.values[y]? = some t) :
    Leads K.env c [(K.ctx L).loadFloat t 0 x, (K.ctx L).loadFloat t 1 y] [] fun c' =>
      Sim K A st c' ∧ c'.xmm 0 = st.get x ∧ c'.xmm 1 = st.get y := by
  have h1 := h.setXmm 0 (st.get x)
  exact .quiet (h.loadFloat hK hx tx 0) (.quiet (h1.loadFloat hK hy ty 1)
    (.nil ⟨h1.setXmm 1 (st.get y), rfl, rfl⟩))

theorem single_keep (a : UInt64) (r : UInt32) :
    ((a &&& ~~~0xFFFFFFFF) ||| r.toUInt64) &&& 0xFFFFFFFF = r.toUInt64 := by
  have h := and_merge a r.toUInt64 0xFFFFFFFF
  rwa [toUInt64_and] at h

/-- what an operation leaves in its register is the result, as far as its home takes it -/
theorem sse_apply {E : Env} {F : FloatOps} (hE : Env.Agrees E F) {op : BinOp} {i : SseOp}
    (hi : (if t = .i64x2 then vectorIntOp? op else floatOp? op t) = some i) (a b : Val) :
    Val.keep (homeTy t) (i.apply E a b) = evalBinary F op t a b ∧
      Val.keep t (evalBinary F op t a b) = evalBinary F op t a b := by
  rw [← hE.float]
  cases t with
  | i64x2 =>
    cases op <;> first | cases hi; exact ⟨rfl, rfl⟩ | cases hi
  | f64 | f64x2 =>
    cases op <;> first | cases hi; exact ⟨rfl, rfl⟩ | cases hi
  | f32 =>
    cases op with
    | fadd | fsub | fmul | fdiv =>
      cases hi
      exact ⟨congrArg (Val.mk · 0) (single_keep _ _), congrArg (Val.mk · 0) (toUInt64_and _)⟩
    | _ => cases hi
  | _ => cases op <;> cases hi

theorem sse_flags (E : Env) {op : BinOp} {i : SseOp}
    (hi : (if t = .i64x2 then vectorIntOp? op else floatOp? op t) = some i) (c : Cpu) :
    (Instr.sse i 0 1).perform E c = some (c.setXmm 0 (i.apply E (c.xmm 0) (c.xmm 1)), []) := by
  cases t <;> cases op <;> first | cases hi; rfl | cases hi

theorem Sim.binaryFloat (hK : K.Ok) {F : FloatOps} (hE : Env.Agrees K.env F) (h : Sim K A st c)
    (hx : A x) (hy : A y) (tx : K.fn.values[x]? = some t) (ty : K.fn.values[y]? = some t)
    (hd : K.fn.values[dst]? = some t) {op : BinOp} {i : SseOp}
    (hi : (if t = .i64x2 then vectorIntOp? op else floatOp? op t) = some i) :
    Leads K.env c [(K.ctx L).loadFloat t 0 x, (K.ctx L).loadFloat t 1 y, .sse i 0 1,
        (K.ctx L).storeFloat t dst 0] []
      (Sim K (fun v => v = dst ∨ A v)
        (st.set dst (evalBinary F op t (st.get x) (st.get y)))) := by
  show Leads _ _ ([_, _] ++ [_, _]) _ _
  refine (h.loadFloats hK hx hy tx ty).append ?_
  rintro c1 ⟨h1, ex, ey⟩
  obtain ⟨hr, hk⟩ := sse_apply hE hi (st.get x) (st.get y)
  refine .quiet (sse_flags K.env hi c1) ?_
  rw [ex, ey]
  exact (h1.setXmm 0 _).storeFloat hK hd hr hk

/-- **Arithmetic.** -/
theorem Sim.binary (hK : K.Ok) {F : FloatOps} (hE : Env.Agrees K.env F) (h : Sim K A st c)
    (hx : A x) (hy : A y) (tx : K.fn.values[x]? = some t) (ty : K.fn.values[y]? = some t)
    (hd : K.fn.values[dst]? = some t) {op : BinOp} {is : List Instr}
    (hl : (K.ctx L).binary op t x y dst = .ok is) :
    Leads K.env c is []
      (Sim K (fun v => v = dst ∨ A v)
        (st.set dst (evalBinary F op t (st.get x) (st.get y)))) := by
  unfold Ctx.binary at hl
  split at hl
  · rename_i ht
    split at hl
    · rename_i i hi
      cases hl
      exact h.binaryInt hK ht hx hy tx ty hd hi F
    · cases hl
  · split at hl
    · rename_i i hi
      cases hl
      exact h.binaryFloat hK hE hx hy tx ty hd hi
    · cases hl

/-! ## comparisons -/

theorem isInt_of_isWideInt (ht : t.isWideInt = true) : t.isInt = true := by
  cases t <;> first | rfl | cases ht

/-- **Comparisons of integers.** -/
theorem Sim.icmp (hK : K.Ok) (h : Sim K A st c) (ht : t.isWideInt = true) (hx : A x) (hy : A y)
    (tx : K.fn.values[x]? = some t) (ty : K.fn.values[y]? = some t)
    (hd : K.fn.values[dst]? = some .i8) (cc : IntCond) :
    Leads K.env c ((K.ctx L).icmp cc t x y dst) []
      (Sim K (fun v => v = dst ∨ A v) (st.set dst (evalICmp cc t (st.get x) (st.get y)))) := by
  have hload := h.loadPair (L := L) hK (isInt_of_isWideInt ht) hx hy tx ty
  show Leads _ _ ([_, _] ++ [_, .setcc (intCond cc) (.r8 rax), .zx8 (.r64 rax) (.r64 rax), _]) _ _
  refine hload.append ?_
  rintro c1 ⟨h1, ex, ey⟩
  have hcmp : ∃ fl : Flags, (if t = .i32 then Instr.alu .cmp (.r32 rax) (.r32 rcx)
        else .alu .cmp (.r64 rax) (.r64 rcx)).perform K.env c1 = some (c1.setFlags fl, []) ∧
      Val.ofBool (fl.test (intCond cc)) = evalICmp cc t (st.get x) (st.get y) := by
    unfold evalICmp
    split
    · refine ⟨subFlags32 (c1.gpr rax).toUInt32 (c1.gpr rcx).toUInt32, rfl, ?_⟩
      rw [subFlags32_test, ex, ey]
    · refine ⟨subFlags64 (c1.gpr rax) (c1.gpr rcx), rfl, ?_⟩
      rw [subFlags64_test, ex, ey]
  obtain ⟨fl, hp, hv⟩ := hcmp
  have h2 := (h1.setFlags fl).setGpr (r := rax) (by decide)
    (Width.w8.put (c1.gpr rax) (bit (fl.test (intCond cc))))
  have h3 := h2.setGpr (r := rax) (by decide)
    (Width.w8.put (c1.gpr rax) (bit (fl.test (intCond cc))) &&& 0xFF)
  refine .quiet hp (.quiet rfl (.quiet rfl (h3.storeInt hK hd rfl ?_)))
  rw [← hv]
  show Fills .i8 (((_ &&& ~~~0xFF) ||| (bit _ &&& 0xFF)) &&& 0xFF) _
  rw [setcc_zx8]
  exact fills_bit _

end

end TreeJit.Compile.X64
