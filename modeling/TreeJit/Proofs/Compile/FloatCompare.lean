import TreeJit.Proofs.Compile.Operations

/-!
# Comparisons of floats

Two floats may be unordered, and then `ucomis` sets the zero, parity and carry flags.  So orderings
ask for "above", with the operands exchanged for "less", and equality also looks at the parity flag
(`scalarCompare_leads`).  Lanes are compared under a mask, "greater" with the operands exchanged
(`laneCompare_lane`).
-/

namespace TreeJit.Compile.X64

open SSA TreeJit.X64

theorem flags_above (o : FloatOrder) : o.flags.test condA = (o == .greater) := by cases o <;> rfl

theorem flags_aboveEq (o : FloatOrder) : o.flags.test condAE = (o == .greater || o == .equal) := by
  cases o <;> rfl

theorem swap_greater (o : FloatOrder) : (o.swap == .greater) = (o == .less) := by cases o <;> rfl

theorem swap_equal (o : FloatOrder) : (o.swap == .equal) = (o == .equal) := by cases o <;> rfl

/-- equality is the zero flag without the parity flag -/
theorem flags_equal (o : FloatOrder) :
    (o.flags.test condE && o.flags.test condNP) = (o == .equal) := by cases o <;> rfl

theorem flags_notEqual (o : FloatOrder) :
    (o.flags.test condNE || o.flags.test condP) = (o != .equal) := by cases o <;> rfl

theorem pinned_ne : ∀ r ∈ pinned, r ≠ rax ∧ r ≠ rcx := by decide

theorem bit_and32 (a b : Bool) : ((bit a).toUInt32 &&& (bit b).toUInt32).toUInt64 &&& 0xFF = bit (a && b) := by
  cases a <;> cases b <;> rfl

theorem bit_or32 (a b : Bool) : ((bit a).toUInt32 ||| (bit b).toUInt32).toUInt64 &&& 0xFF = bit (a || b) := by
  cases a <;> cases b <;> rfl

/-- a comparison of scalars leaves its outcome in `al` and nothing else that counts -/
structure Compared (c : Cpu) (b : Bool) (c' : Cpu) : Prop where
  result : c'.gpr rax &&& 0xFF = bit b
  gpr : ∀ r ∈ pinned, c'.gpr r = c.gpr r
  mem : c'.mem = c.mem

/-- **Comparisons of scalars**, by the outcome of comparing the two registers -/
theorem scalarCompare_leads {E : Env} {c : Cpu} {op : SseOp} {o : Val → Val → FloatOrder}
    (hkeep : ∀ d s, op.apply E d s = d) (hflags : ∀ d s fl, op.flags E d s fl = (o d s).flags)
    (hswap : o (c.xmm 1) (c.xmm 0) = (o (c.xmm 0) (c.xmm 1)).swap) (cc : FloatCond) :
    Leads E c (scalarCompare op cc) [] (Compared c ((o (c.xmm 0) (c.xmm 1)).holds cc)) := by
  have hsse : ∀ d s : XReg, (Instr.sse op d s).perform E c =
      some ((c.setXmm d (c.xmm d)).setFlags (o (c.xmm d) (c.xmm s)).flags, []) := by
    intro d s
    rw [Instr.perform, hkeep, hflags]
  -- one condition in `al`
  have hone : ∀ (d s : XReg) (cond : Cond), Leads E c [.sse op d s, .setcc cond (.r8 rax)] []
      (Compared c ((o (c.xmm d) (c.xmm s)).flags.test cond)) := by
    intro d s cond
    refine .quiet (hsse d s) (.quiet rfl (.nil ⟨setcc_zx8 _ _, fun r hr => ?_, rfl⟩))
    exact if_neg (pinned_ne r hr).1
  -- two conditions in `al` and `cl`, cleared above the byte, are joined by the last instruction
  have htwo : ∀ (p q : Cond) (last : Instr) (P : Cpu → Prop),
      (∀ d : Cpu, d.gpr rax = bit ((o (c.xmm 0) (c.xmm 1)).flags.test p) →
        d.gpr rcx = bit ((o (c.xmm 0) (c.xmm 1)).flags.test q) →
        (∀ r ∈ pinned, d.gpr r = c.gpr r) → d.mem = c.mem → Leads E d [last] [] P) →
      Leads E c [.sse op 0 1, .setcc p (.r8 rax), .setcc q (.r8 rcx),
        .zx8 (.r64 rcx) (.r64 rcx), .zx8 (.r64 rax) (.r64 rax), last] [] P := by
    intro p q last P hlast
    refine .quiet (hsse 0 1) (.quiet rfl (.quiet rfl (.quiet rfl (.quiet rfl
      (hlast _ (setcc_zx8 _ _) (setcc_zx8 _ _) (fun r hr => ?_) rfl)))))
    obtain ⟨h1, h2⟩ := pinned_ne r hr
    exact (if_neg h1).trans ((if_neg h2).trans ((if_neg h2).trans (if_neg h1)))
  have hlast : ∀ (d : Cpu) (x : UInt64) (fl : Flags), (∀ r ∈ pinned, d.gpr r = c.gpr r) →
      ∀ r ∈ pinned, ((d.setGpr rax x).setFlags fl).gpr r = c.gpr r := by
    intro d x fl hd r hr
    exact (if_neg (pinned_ne r hr).1).trans (hd r hr)
  cases cc with
  | lt =>
    have h := hone 1 0 condA
    rwa [hswap, flags_above, swap_greater] at h
  | le =>
    have h := hone 1 0 condAE
    rwa [hswap, flags_aboveEq, swap_greater, swap_equal] at h
  | gt =>
    have h := hone 0 1 condA
    rwa [flags_above] at h
  | ge =>
    have h := hone 0 1 condAE
    rwa [flags_aboveEq] at h
  | eq =>
    refine htwo condE condNP _ _ fun d ha hb hp hm => ?_
    refine .quiet rfl (.nil ⟨?_, hlast d _ _ hp, hm⟩)
    show ((d.gpr rax).toUInt32 &&& (d.gpr rcx).toUInt32).toUInt64 &&& 0xFF = bit (_ == _)
    rw [ha, hb, ← flags_equal]
    exact bit_and32 _ _
  | ne =>
    refine htwo condNE condP _ _ fun d ha hb hp hm => ?_
    refine .quiet rfl (.nil ⟨?_, hlast d _ _ hp, hm⟩)
    show ((d.gpr rax).toUInt32 ||| (d.gpr rcx).toUInt32).toUInt64 &&& 0xFF = bit (_ != _)
    rw [ha, hb, ← flags_notEqual]
    exact bit_or32 _ _

section
variable {K : Call} {A : ValueNo → Prop} {st : State} {c : Cpu} {x y dst : ValueNo} {t : Ty}
variable {L : List RegLoc}

theorem Sim.fcmpScalar (hK : K.Ok) (h : Sim K A st c) (ht : t.isVector = false) (hx : A x) (hy : A y)
    (tx : K.fn.values[x]? = some t) (ty : K.fn.values[y]? = some t)
    (hd : K.fn.values[dst]? = some .i8) {o : Val → Val → FloatOrder}
    (hkeep : ∀ d s, (if t = .f32 then SseOp.ucomiss else .ucomisd).apply K.env d s = d)
    (hflags : ∀ d s fl, (if t = .f32 then SseOp.ucomiss else .ucomisd).flags K.env d s fl = (o d s).flags)
    (hswap : ∀ d s, o s d = (o d s).swap) (cc : FloatCond) :
    Leads K.env c ((K.ctx L).fcmp cc t x y dst) [] (Sim K (fun v => v = dst ∨ A v)
      (st.set dst (Val.ofBool ((o (st.get x) (st.get y)).holds cc)))) := by
  have e : (K.ctx L).fcmp cc t x y dst = [(K.ctx L).loadFloat t 0 x, (K.ctx L).loadFloat t 1 y] ++
      (scalarCompare (if t = .f32 then .ucomiss else .ucomisd) cc ++
        [.zx8 (.r64 rax) (.r64 rax), (K.ctx L).storeInt dst rax]) := by
    rw [Ctx.fcmp, if_neg (by rw [ht]; nofun), List.append_assoc]
  rw [e]
  refine (h.loadFloats hK hx hy tx ty).append ?_
  rintro c1 ⟨h1, ex, ey⟩
  refine (scalarCompare_leads hkeep hflags (hswap _ _) cc).append ?_
  rintro c2 ⟨hr, hp, hm⟩
  rw [ex, ey] at hr
  have h2 := (h1.congr hp hm).setGpr (r := rax) (by decide) (c2.gpr rax &&& 0xFF)
  refine .quiet rfl (h2.storeInt hK hd rfl ?_)
  show Fills .i8 (c2.gpr rax &&& 0xFF) _
  rw [hr]
  exact fills_bit _

theorem laneCompare_lane (o : FloatOrder) (cc : FloatCond) :
    (if (laneCompare cc).2 then o.swap else o).lane (laneCompare cc).1 = o.holds cc := by
  cases cc <;> cases o <;> rfl

/-- **Comparisons of floats.** -/
theorem Sim.fcmp (hK : K.Ok) {F : FloatOps} (hE : Env.Agrees K.env F) (h : Sim K A st c)
    (ht : t.isFloat = true ∨ t = .f64x2) (hx : A x) (hy : A y) (tx : K.fn.values[x]? = some t)
    (ty : K.fn.values[y]? = some t) (hd : K.fn.values[dst]? = some (Body.fcmpResult t))
    (cc : FloatCond) :
    Leads K.env c ((K.ctx L).fcmp cc t x y dst) []
      (Sim K (fun v => v = dst ∨ A v) (st.set dst (evalFCmp F cc t (st.get x) (st.get y)))) := by
  cases t with
  | f32 =>
    have hl := h.fcmpScalar (L := L) hK rfl hx hy tx ty hd
      (o := fun a b => K.env.order32 a.lo.toUInt32 b.lo.toUInt32) (fun _ _ => rfl) (fun _ _ _ => rfl)
      (fun _ _ => hE.swap32 _ _) cc
    rwa [← hE.test32] at hl
  | f64 =>
    have hl := h.fcmpScalar (L := L) hK rfl hx hy tx ty hd (o := fun a b => K.env.order a.lo b.lo)
      (fun _ _ => rfl) (fun _ _ _ => rfl) (fun _ _ => hE.swap _ _) cc
    rwa [← hE.test] at hl
  | f64x2 =>
    obtain ⟨p, swap, e⟩ : ∃ p swap, laneCompare cc = (p, swap) := ⟨_, _, rfl⟩
    have hlane : ∀ a b : UInt64, ((if swap then K.env.order b a else K.env.order a b).lane p) =
        F.test cc a b := by
      intro a b
      rw [hE.swap a b, hE.test, ← laneCompare_lane (K.env.order a b) cc, e]
    have hload := h.loadFloats (L := L) hK hx hy tx ty
    -- the operands of "greater" are compared the other way round
    cases swap with
    | false =>
      have ecode : (K.ctx L).fcmp cc .f64x2 x y dst = [(K.ctx L).loadFloat .f64x2 0 x,
          (K.ctx L).loadFloat .f64x2 1 y] ++ [.cmppd 0 1 p, (K.ctx L).storeFloat .i64x2 dst 0] := by
        simp only [Ctx.fcmp, e]
        rfl
      rw [ecode]
      refine hload.append ?_
      rintro c1 ⟨h1, ex, ey⟩
      refine .quiet rfl ((h1.setXmm 0 _).storeFloat hK hd ?_ rfl)
      rw [Cpu.xmm_setXmm, if_pos rfl, ex, ey]
      exact congrArg₂ Val.mk (congrArg laneMask (hlane _ _)) (congrArg laneMask (hlane _ _))
    | true =>
      have ecode : (K.ctx L).fcmp cc .f64x2 x y dst = [(K.ctx L).loadFloat .f64x2 0 x,
          (K.ctx L).loadFloat .f64x2 1 y] ++ [.cmppd 1 0 p, (K.ctx L).storeFloat .i64x2 dst 1] := by
        simp only [Ctx.fcmp, e]
        rfl
      rw [ecode]
      refine hload.append ?_
      rintro c1 ⟨h1, ex, ey⟩
      refine .quiet rfl ((h1.setXmm 1 _).storeFloat hK hd ?_ rfl)
      rw [Cpu.xmm_setXmm, if_pos rfl, ex, ey]
      exact congrArg₂ Val.mk (congrArg laneMask (hlane _ _)) (congrArg laneMask (hlane _ _))
  | i8 | i16 | i32 | i64 | i64x2 | invalid => rcases ht with ht | ht <;> cases ht

end

end TreeJit.Compile.X64
