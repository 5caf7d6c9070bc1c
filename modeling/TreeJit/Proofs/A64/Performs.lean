import TreeJit.Proofs.A64.Accepts
import TreeJit.Proofs.A64.Fields
import TreeJit.Proofs.Code.Relocation

/-!
# What encoded instructions do

`Instr.perform` is the effect of an instruction that stays on the straight line, told without its
encoding.  The words of such an instruction, run one after the other, have this effect
(`Instr.run_words`), and so have the words of a straight line (`Leads.run`).

* `Form.Takes`        the fields that the words of a form are packed with;
* `run_movImmWords`   a constant is put together from its halfwords;
* `Leads`             a straight line of instructions leads to a state.
-/

namespace TreeJit.A64

open SSA

/-! ## forms and their fields -/

/-- words of a form are its pattern packed with these fields -/
def Form.Takes (f : Form) (ps : List (UInt32 × Nat)) : Prop :=
  f ∈ Form.all ∧ Packs f.pattern ps ∧ f.pattern &&& f.mask = f.pattern ∧
    ∀ p ∈ ps, field f.mask p.1.toNat p.2 = 0

instance (f : Form) (ps : List (UInt32 × Nat)) : Decidable (f.Takes ps) :=
  inferInstanceAs (Decidable (_ ∧ _ ∧ _ ∧ _))

def threeRegs : List (UInt32 × Nat) := [(16, 5), (5, 5), (0, 5)]

def accessFields : List (UInt32 × Nat) := [(10, 12), (5, 5), (0, 5)]

def Form.fields : Form → List (UInt32 × Nat)
  | .movz | .movk => [(21, 2), (5, 16), (0, 5)]
  | .addImm .. => [(10, 12), (5, 5), (0, 5), (22, 1)]
  | .addExtended | .reg3 .. | .fp3 .. | .vec3 _ => threeRegs
  | .cmp _ | .fcmp _ => [(16, 5), (5, 5)]
  | .csinc _ => [(16, 5), (5, 5), (12, 4), (0, 5)]
  | .ubfm _ => [(16, 6), (10, 6), (5, 5), (0, 5)]
  | .load _ | .store _ | .loadFP _ | .storeFP _ => accessFields
  | .not16b | .dupElement | .dupGeneral => [(5, 5), (0, 5)]

namespace Form

/-- **The words of every form take its fields.** -/
theorem takes_fields : ∀ f ∈ all, f.Takes f.fields := by decide +kernel

theorem takes_reg3 (op : RegOp) (wide : Bool) : (reg3 op wide).Takes threeRegs :=
  takes_fields (reg3 op wide) (by cases op <;> cases wide <;> decide)

theorem takes_addExtended : addExtended.Takes threeRegs := takes_fields addExtended (by decide)

theorem takes_fp3 (op : FpOp) (size : Precision) : (fp3 op size).Takes threeRegs :=
  takes_fields (fp3 op size) (by cases op <;> cases size <;> decide)

theorem takes_vec3 (op : VecOp) : (vec3 op).Takes threeRegs :=
  takes_fields (vec3 op) (by cases op <;> decide)

theorem takes_cmp (wide : Bool) : (cmp wide).Takes [(16, 5), (5, 5)] :=
  takes_fields (cmp wide) (by cases wide <;> decide)

theorem takes_fcmp (size : Precision) : (fcmp size).Takes [(16, 5), (5, 5)] :=
  takes_fields (fcmp size) (by cases size <;> decide)

theorem takes_csinc (wide : Bool) : (csinc wide).Takes [(16, 5), (5, 5), (12, 4), (0, 5)] :=
  takes_fields (csinc wide) (by cases wide <;> decide)

theorem takes_ubfm (wide : Bool) : (ubfm wide).Takes [(16, 6), (10, 6), (5, 5), (0, 5)] :=
  takes_fields (ubfm wide) (by cases wide <;> decide)

theorem takes_addImm (minus wide : Bool) :
    (addImm minus wide).Takes [(10, 12), (5, 5), (0, 5), (22, 1)] :=
  takes_fields (addImm minus wide) (by cases minus <;> cases wide <;> decide)

theorem takes_mov : movz.Takes [(21, 2), (5, 16), (0, 5)] ∧ movk.Takes [(21, 2), (5, 16), (0, 5)] :=
  ⟨takes_fields movz (by decide), takes_fields movk (by decide)⟩

theorem takes_load {k : Nat} (h : k < 4) :
    (load k).Takes accessFields ∧ (store k).Takes accessFields := by
  have hmem : ∀ k < 4, load k ∈ all ∧ store k ∈ all := by decide
  exact ⟨takes_fields (load k) (hmem k h).1, takes_fields (store k) (hmem k h).2⟩

theorem takes_loadFP {k : Nat} (h : k < 5) (h2 : 2 ≤ k) :
    (loadFP k).Takes accessFields ∧ (storeFP k).Takes accessFields := by
  have hmem : ∀ k < 5, 2 ≤ k → loadFP k ∈ all ∧ storeFP k ∈ all := by decide
  exact ⟨takes_fields (loadFP k) (hmem k h h2).1, takes_fields (storeFP k) (hmem k h h2).2⟩

theorem takes_two : not16b.Takes [(5, 5), (0, 5)] ∧ dupElement.Takes [(5, 5), (0, 5)] ∧
    dupGeneral.Takes [(5, 5), (0, 5)] :=
  ⟨takes_fields not16b (by decide), takes_fields dupElement (by decide),
    takes_fields dupGeneral (by decide)⟩

end Form

section
variable {E : Env} {c : Cpu} {f : Form} {ps : List (UInt32 × Nat)}

theorem mask_pack (hf : f.Takes ps) {xs : List UInt32}
    (hx : List.Forall₂ (fun p x => x.toNat < 2 ^ p.2) ps xs) :
    pack f.pattern ps xs &&& f.mask = f.pattern := by
  obtain ⟨-, hpack, hfix, hfree⟩ := hf
  obtain ⟨-, -, hmask⟩ := pack_spec hpack hx
  exact (hmask _ hfree).trans hfix

/-- **A packed word of a form** is run as the form says, and shows its fields. -/
theorem run_pack {w : UInt32} (hf : f.Takes ps) (xs : List UInt32)
    (hx : List.Forall₂ (fun p x => x.toNat < 2 ^ p.2) ps xs) (hw : w = pack f.pattern ps xs) :
    run E [w] c = some (f.exec E w c) ∧
      List.Forall₂ (fun p x => field w p.1.toNat p.2 = x.toNat) ps xs := by
  rw [hw]
  exact ⟨run_one hf.1 (mask_pack hf hx), (pack_spec hf.2.1 hx).1⟩

end

/-! ## registers -/

def Reg.number (r : Reg) : Nat := r.field.toNat

def Reg.wide (r : Reg) : Bool := decide (r.width = .w64)

theorem Reg.field_lt (r : Reg) : r.field.toNat < 2 ^ 5 := by
  rw [field, UInt32.toNat_ofNat']
  omega

theorem Reg.number_ofNat {n : Nat} (h : n < 32) (w : Width) : Reg.number ⟨(n : Nat), w⟩ = n := by
  show (UInt32.ofNat ((n : Int) % 32).toNat).toNat = n
  rw [UInt32.toNat_ofNat']
  omega

theorem Reg.sf_eq (r : Reg) : r.sf = wideBit r.wide := by
  unfold sf wideBit wide
  by_cases h : r.width = .w64
  · rw [if_pos h, decide_eq_true h, if_pos rfl]
  · rw [if_neg h, decide_eq_false h, if_neg nofun]

theorem VReg.lt_of_check {v : VReg} (h : v.check = .ok ()) : v.toUInt32.toNat < 2 ^ 5 := by
  unfold check at h
  split at h
  · rename_i hv
    have := UInt8.le_iff_toNat_le.mp hv
    rw [UInt8.toNat_toUInt32]
    exact Nat.lt_succ_of_le this
  · cases h

def Cpu.address (c : Cpu) (m : Mem) : UInt64 :=
  match m.base with
  | some r => addressOf (c.base r.number) m.disp
  | none => addressOf 0 m.disp

def Instr.perform (E : Env) (c : Cpu) : Instr → Option (Cpu × List Event)
  | .movImm dst v => some (c.setReg dst.number (if dst.width = .w32 then v.toUInt64 &&& 0xFFFFFFFF
      else v.toUInt64), [])
  | .movReg dst src => some (c.setReg dst.number (cut dst.wide (c.reg src.number)), [])
  | .addImm dst src imm shift12 =>
    some (c.setBase dst.number (cut dst.wide
      (c.base src.number + UInt64.ofNat (imm.toNat * if shift12 then 4096 else 1))), [])
  | .subImm dst src imm shift12 =>
    some (c.setBase dst.number (cut dst.wide
      (c.base src.number - UInt64.ofNat (imm.toNat * if shift12 then 4096 else 1))), [])
  | .reg3 op dst left right =>
    some (c.setReg dst.number (cut dst.wide (op.apply (if dst.wide then 64 else 32)
      (cut dst.wide (c.reg left.number)) (cut dst.wide (c.reg right.number)))), [])
  | .addSP dst src => some (c.setBase dst.number (c.sp + c.reg src.number), [])
  | .cmp left right => some (c.setFlags (subFlags left.wide (c.reg left.number) (c.reg right.number)), [])
  | .cset dst cond => some (c.setReg dst.number (if c.flags.test (cond.invert &&& 0xF) then 0 else 1), [])
  | .uxtb dst src => some (c.setReg dst.number (c.reg src.number &&& 0xFF), [])
  | .uxth dst src => some (c.setReg dst.number (c.reg src.number &&& 0xFFFF), [])
  | .load dst src n => some (c.readReg n.toNat dst.number (c.address src))
  | .store dst src n => some (c.writeReg n.toNat src.number (c.address dst))
  | .fp3 op size dst left right =>
    some (c.setV dst.toNat (op.apply E size (c.v left.toNat) (c.v right.toNat)), [])
  | .fcmp size left right =>
    some (c.setFlags (compareFlags E size (c.v left.toNat) (c.v right.toNat)), [])
  | .vec3 op dst left right =>
    some (c.setV dst.toNat (op.apply E (c.v left.toNat) (c.v right.toNat)), [])
  | .not16b dst src => some (c.setV dst.toNat ⟨~~~(c.v src.toNat).lo, ~~~(c.v src.toNat).hi⟩, [])
  | .dupElement dst src => some (c.setV dst.toNat ⟨(c.v src.toNat).lo, (c.v src.toNat).lo⟩, [])
  | .dupGeneral dst src => some (c.setV dst.toNat ⟨c.reg src.number, c.reg src.number⟩, [])
  | .loadFP dst src n => some (c.readV n.toNat dst.toNat (c.address src))
  | .storeFP dst src n => some (c.writeV n.toNat src.toNat (c.address dst))
  | _ => none

/-! ## words -/

section
variable {E : Env} {c : Cpu} {w : UInt32}

theorem run_threeRegs {f : Form} (hf : f.Takes threeRegs) {m n d : UInt32} (hm : m.toNat < 2 ^ 5)
    (hn : n.toNat < 2 ^ 5) (hd : d.toNat < 2 ^ 5) (hw : w = f.pattern ||| (m <<< 16) ||| (n <<< 5) ||| d) :
    run E [w] c = some (f.exec E w c) ∧ field w 16 5 = m.toNat ∧ field w 5 5 = n.toNat ∧
      field w 0 5 = d.toNat := by
  obtain ⟨hrun, _ | ⟨h1, _ | ⟨h2, _ | ⟨h3, -⟩⟩⟩⟩ := run_pack (E := E) (c := c) hf
    [m, n, d] (.cons hm (.cons hn (.cons hd .nil)))
    (hw.trans (by rw [threeRegs, pack_cons, pack_cons, pack_low]))
  exact ⟨hrun, h1, h2, h3⟩

theorem run_operands {f : Form} (hf : f.Takes [(16, 5), (5, 5)]) {m n : UInt32} (hm : m.toNat < 2 ^ 5)
    (hn : n.toNat < 2 ^ 5) (hw : w = f.pattern ||| (m <<< 16) ||| (n <<< 5)) :
    run E [w] c = some (f.exec E w c) ∧ field w 16 5 = m.toNat ∧ field w 5 5 = n.toNat := by
  obtain ⟨hrun, _ | ⟨h1, _ | ⟨h2, -⟩⟩⟩ := run_pack (E := E) (c := c) hf
    [m, n] (.cons hm (.cons hn .nil)) hw
  exact ⟨hrun, h1, h2⟩

theorem run_two {f : Form} (hf : f.Takes [(5, 5), (0, 5)]) {n d : UInt32} (hn : n.toNat < 2 ^ 5)
    (hd : d.toNat < 2 ^ 5) (hw : w = f.pattern ||| (n <<< 5) ||| d) :
    run E [w] c = some (f.exec E w c) ∧ field w 5 5 = n.toNat ∧ field w 0 5 = d.toNat := by
  obtain ⟨hrun, _ | ⟨h1, _ | ⟨h2, -⟩⟩⟩ := run_pack (E := E) (c := c) hf
    [n, d] (.cons hn (.cons hd .nil)) (hw.trans (by rw [pack_cons, pack_low]))
  exact ⟨hrun, h1, h2⟩

theorem cut_cut (wide : Bool) (y : UInt64) : cut wide (cut wide y) = cut wide y := by
  cases wide
  · show y &&& 0xFFFFFFFF &&& 0xFFFFFFFF = _
    rw [UInt64.and_assoc, UInt64.and_self]
    rfl
  · rfl

theorem run_regReg {op : RegOp} {dst left right : Reg} (h : regReg op.word dst left right = .ok w) :
    run E [w] c = (Instr.reg3 op dst left right).perform E c := by
  simp only [regReg, bind, Except.bind] at h
  split at h
  · cases h
  · cases h
    obtain ⟨hrun, hm, hn, hd⟩ := run_threeRegs (E := E) (c := c) (Form.takes_reg3 op dst.wide)
      right.field_lt left.field_lt dst.field_lt (by rw [Form.pattern, ← Reg.sf_eq])
    rw [hrun, Form.exec, hm, hn, hd]
    rfl

/-- a register is copied by an or with the zero register -/
theorem run_movReg {dst src : Reg} (h : regReg RegOp.orr.word dst ⟨sp, dst.width⟩ src = .ok w) :
    run E [w] c = (Instr.movReg dst src).perform E c := by
  have hz : c.reg (Reg.number ⟨sp, dst.width⟩) = 0 := rfl
  rw [run_regReg h]
  simp only [Instr.perform, RegOp.apply, hz]
  rw [show cut dst.wide 0 = 0 by cases dst.wide <;> rfl, UInt64.zero_or, cut_cut]

theorem run_addSubImm (minus : Bool) {dst src : Reg} {imm : UInt32} {shift12 : Bool}
    (h : addSubImm (if minus then 0x51000000 else 0x11000000) dst src imm shift12 = .ok w) :
    run E [w] c = (if minus then Instr.subImm dst src imm shift12
      else Instr.addImm dst src imm shift12).perform E c := by
  simp only [addSubImm, bind, Except.bind] at h
  split at h
  · cases h
  · split at h
    · cases h
    · rename_i himm
      have hlt : imm.toNat < 2 ^ 12 := by
        have := UInt32.le_iff_toNat_le.mp (UInt32.not_lt.mp himm)
        exact Nat.lt_succ_of_le this
      cases h
      have hs : (if shift12 then (1 : UInt32) else 0) <<< 22 = if shift12 then 0x400000 else 0 := by
        cases shift12 <;> rfl
      obtain ⟨hrun, _ | ⟨h1, _ | ⟨h2, _ | ⟨h3, _ | ⟨h4, -⟩⟩⟩⟩⟩ := run_pack (E := E) (c := c)
        (Form.takes_addImm minus dst.wide) [imm, src.field, dst.field, if shift12 then 1 else 0]
        (.cons hlt (.cons src.field_lt (.cons dst.field_lt (.cons (by cases shift12 <;> decide) .nil))))
        (by rw [pack_cons, pack_cons, pack_cons, pack_cons, pack_nil, UInt32.shiftLeft_zero, hs,
          Form.pattern, ← Reg.sf_eq])
      rw [hrun, Form.exec]
      rw [show field _ 10 12 = _ from h1, show field _ 5 5 = _ from h2, show field _ 0 5 = _ from h3,
        show field _ 22 1 = _ from h4]
      cases minus <;> cases shift12 <;> rfl

theorem run_addSP {dst src : Reg} (h : (Instr.addSP dst src).word = .ok w) :
    run E [w] c = (Instr.addSP dst src).perform E c := by
  simp only [Instr.word] at h
  split at h
  · cases h
  · cases h
    obtain ⟨hrun, hm, hn, hd⟩ := run_threeRegs (E := E) (c := c) Form.takes_addExtended
      src.field_lt (n := 31) (by decide) dst.field_lt rfl
    refine hrun.trans ?_
    rw [Form.exec]
    rw [show field _ 16 5 = _ from hm, show field _ 5 5 = _ from hn, show field _ 0 5 = _ from hd]
    rfl

theorem run_cmp {left right : Reg} (h : (Instr.cmp left right).word = .ok w) :
    run E [w] c = (Instr.cmp left right).perform E c := by
  simp only [Instr.word, bind, Except.bind] at h
  split at h
  · cases h
  · cases h
    obtain ⟨hrun, hm, hn⟩ := run_operands (E := E) (c := c) (Form.takes_cmp left.wide)
      right.field_lt left.field_lt (by rw [Form.pattern, ← Reg.sf_eq])
    rw [hrun, Form.exec, hm, hn]
    rfl

/-- a condition is a choice between zero and zero plus one -/
theorem run_cset {dst : Reg} {cond : Cond} (h : (Instr.cset dst cond).word = .ok w) :
    run E [w] c = (Instr.cset dst cond).perform E c := by
  simp only [Instr.word, bind, Except.bind] at h
  split at h
  · cases h
  · cases h
    have hc : (cond.invert &&& 0xF).toUInt32.toNat < 2 ^ 4 := by
      rw [UInt8.toNat_toUInt32, UInt8.toNat_and]
      exact Nat.lt_succ_of_le Nat.and_le_right
    have e : (Form.csinc dst.wide).pattern ||| ((31 : UInt32) <<< 16) ||| ((31 : UInt32) <<< 5) =
        (0x1A9F07E0 : UInt32) ||| dst.sf := by
      rw [Reg.sf_eq]
      cases dst.wide <;> rfl
    obtain ⟨hrun, _ | ⟨h1, _ | ⟨h2, _ | ⟨h3, _ | ⟨h4, -⟩⟩⟩⟩⟩ := run_pack (E := E) (c := c)
      (Form.takes_csinc dst.wide) [31, 31, (cond.invert &&& 0xF).toUInt32, dst.field]
      (.cons (by decide) (.cons (by decide) (.cons hc (.cons dst.field_lt .nil))))
      (by rw [pack_cons, pack_cons, pack_cons, pack_low, e])
    rw [hrun, Form.exec]
    rw [show field _ 16 5 = _ from h1, show field _ 5 5 = _ from h2, show field _ 12 4 = _ from h3,
      show field _ 0 5 = _ from h4, UInt8.toNat_toUInt32, UInt8.ofNat_toNat]
    have hz : c.reg (31 : UInt32).toNat = 0 := rfl
    simp only [Instr.perform, hz]
    congr 3
    cases dst.wide <;> split <;> rfl

theorem bitfield_low {n : Nat} (hn : n < 32) (y : UInt64) :
    (bitfield 32 (cut false y) 0 n).toNat = y.toNat % 2 ^ (n + 1) := by
  have hlt : 2 ^ (n + 1) ≤ 2 ^ 32 := Nat.pow_le_pow_right (by omega) hn
  have e : (cut false y).toNat = y.toNat % 2 ^ 32 := by
    show (y &&& 0xFFFFFFFF).toNat = _
    rw [UInt64.toNat_and]
    exact Nat.and_two_pow_sub_one_eq_mod _ 32
  rw [bitfield, if_pos (Nat.zero_le n), UInt64.toNat_ofNat', e, Nat.pow_zero, Nat.div_one, Nat.sub_zero,
    Nat.mod_mod_of_dvd _ (Nat.pow_dvd_pow 2 (Nat.succ_le_of_lt hn))]
  refine Nat.mod_eq_of_lt (Nat.lt_trans (Nat.lt_of_lt_of_le (Nat.mod_lt _ (Nat.two_pow_pos _)) hlt) ?_)
  decide

theorem run_extend {dst src : Reg} {n w : UInt32} (hn : n.toNat < 32)
    (hw : w = (0x53000000 : UInt32) ||| (n <<< 10) ||| (src.field <<< 5) ||| dst.field) :
    run E [w] c =
      some (c.setReg dst.number (bitfield 32 (cut false (c.reg src.number)) 0 n.toNat), []) := by
  have e : (Form.ubfm false).pattern ||| ((0 : UInt32) <<< 16) = 0x53000000 := rfl
  obtain ⟨hrun, _ | ⟨h1, _ | ⟨h2, _ | ⟨h3, _ | ⟨h4, -⟩⟩⟩⟩⟩ := run_pack (E := E) (c := c)
    (Form.takes_ubfm false) [0, n, src.field, dst.field]
    (.cons (by decide) (.cons (Nat.lt_trans hn (by decide)) (.cons src.field_lt (.cons dst.field_lt .nil))))
    (hw.trans (by rw [pack_cons, pack_cons, pack_cons, pack_low, e]))
  rw [hrun, Form.exec]
  rw [show field _ 16 6 = _ from h1, show field _ 10 6 = _ from h2, show field _ 5 5 = _ from h3,
    show field _ 0 5 = _ from h4]
  rfl

theorem run_uxtb {dst src : Reg} (h : (Instr.uxtb dst src).word = .ok w) :
    run E [w] c = (Instr.uxtb dst src).perform E c := by
  simp only [Instr.word, bind, Except.bind] at h
  split at h
  · cases h
  · cases h
    refine (run_extend (n := 7) (by decide) rfl).trans ?_
    simp only [Instr.perform]
    congr 3
    refine UInt64.toNat_inj.mp ((bitfield_low (by decide) _).trans ?_)
    rw [UInt64.toNat_and]
    exact (Nat.and_two_pow_sub_one_eq_mod _ 8).symm

theorem run_uxth {dst src : Reg} (h : (Instr.uxth dst src).word = .ok w) :
    run E [w] c = (Instr.uxth dst src).perform E c := by
  simp only [Instr.word, bind, Except.bind] at h
  split at h
  · cases h
  · cases h
    refine (run_extend (n := 15) (by decide) rfl).trans ?_
    simp only [Instr.perform]
    congr 3
    refine UInt64.toNat_inj.mp ((bitfield_low (by decide) _).trans ?_)
    rw [UInt64.toNat_and]
    exact (Nat.and_two_pow_sub_one_eq_mod _ 16).symm

/-! ## floats and vectors -/

theorem run_three {f : Form} (hf : f.Takes threeRegs) {dst left right : VReg}
    (h : three f.pattern dst left right = .ok w) :
    run E [w] c = some (f.exec E w c) ∧ field w 16 5 = right.toNat ∧ field w 5 5 = left.toNat ∧
      field w 0 5 = dst.toNat := by
  simp only [three, bind, Except.bind] at h
  split at h
  · cases h
  · rename_i hd
    split at h
    · cases h
    · rename_i hl
      split at h
      · cases h
      · rename_i hr
        cases h
        have hr' := run_threeRegs (E := E) (c := c) hf (VReg.lt_of_check hr) (VReg.lt_of_check hl)
          (VReg.lt_of_check hd) rfl
        rwa [UInt8.toNat_toUInt32, UInt8.toNat_toUInt32, UInt8.toNat_toUInt32] at hr'

theorem run_fp3 {op : FpOp} {size : Precision} {dst left right : VReg}
    (h : (Instr.fp3 op size dst left right).word = .ok w) :
    run E [w] c = (Instr.fp3 op size dst left right).perform E c := by
  obtain ⟨hrun, hm, hn, hd⟩ := run_three (E := E) (c := c) (Form.takes_fp3 op size) h
  rw [hrun, Form.exec, hm, hn, hd]
  rfl

theorem run_vec3 {op : VecOp} {dst left right : VReg}
    (h : (Instr.vec3 op dst left right).word = .ok w) :
    run E [w] c = (Instr.vec3 op dst left right).perform E c := by
  obtain ⟨hrun, hm, hn, hd⟩ := run_three (E := E) (c := c) (Form.takes_vec3 op) h
  rw [hrun, Form.exec, hm, hn, hd]
  rfl

theorem run_fcmp {size : Precision} {left right : VReg}
    (h : (Instr.fcmp size left right).word = .ok w) :
    run E [w] c = (Instr.fcmp size left right).perform E c := by
  simp only [Instr.word, bind, Except.bind] at h
  split at h
  · cases h
  · rename_i hl
    split at h
    · cases h
    · rename_i hr
      cases h
      obtain ⟨hrun, hm, hn⟩ := run_operands (E := E) (c := c) (Form.takes_fcmp size)
        (VReg.lt_of_check hr) (VReg.lt_of_check hl) rfl
      refine hrun.trans ?_
      rw [Form.exec]
      rw [show field _ 16 5 = _ from hm, show field _ 5 5 = _ from hn, UInt8.toNat_toUInt32,
        UInt8.toNat_toUInt32]
      rfl

theorem run_lanes {f : Form} (hf : f.Takes [(5, 5), (0, 5)]) {dst src : VReg}
    (h : two f.pattern dst src = .ok w) :
    run E [w] c = some (f.exec E w c) ∧ field w 5 5 = src.toNat ∧ field w 0 5 = dst.toNat := by
  simp only [two, bind, Except.bind] at h
  split at h
  · cases h
  · rename_i hd
    split at h
    · cases h
    · rename_i hs
      cases h
      have hr := run_two (E := E) (c := c) hf (VReg.lt_of_check hs) (VReg.lt_of_check hd) rfl
      rwa [UInt8.toNat_toUInt32, UInt8.toNat_toUInt32] at hr

theorem run_not16b {dst src : VReg} (h : (Instr.not16b dst src).word = .ok w) :
    run E [w] c = (Instr.not16b dst src).perform E c := by
  obtain ⟨hrun, hn, hd⟩ := run_lanes (E := E) (c := c) Form.takes_two.1 h
  rw [hrun, Form.exec, hn, hd]
  rfl

theorem run_dupElement {dst src : VReg} (h : (Instr.dupElement dst src).word = .ok w) :
    run E [w] c = (Instr.dupElement dst src).perform E c := by
  obtain ⟨hrun, hn, hd⟩ := run_lanes (E := E) (c := c) Form.takes_two.2.1 h
  rw [hrun, Form.exec, hn, hd]
  rfl

theorem run_dupGeneral {dst : VReg} {src : Reg} (h : (Instr.dupGeneral dst src).word = .ok w) :
    run E [w] c = (Instr.dupGeneral dst src).perform E c := by
  simp only [Instr.word, bind, Except.bind] at h
  split at h
  · cases h
  · rename_i hd
    split at h
    · cases h
    · cases h
      obtain ⟨hrun, h1, h2⟩ := run_two (E := E) (c := c) Form.takes_two.2.2 src.field_lt
        (VReg.lt_of_check hd) rfl
      refine hrun.trans ?_
      rw [Form.exec]
      rw [show field _ 5 5 = _ from h1, show field _ 0 5 = _ from h2, UInt8.toNat_toUInt32]
      rfl

/-! ## accesses -/

theorem addressOf_encodable {n : Nat} (hn : n ∈ accessWidths) {disp : Int32}
    (h : encodable disp n = true) (a : UInt64) :
    disp.toInt.toNat / n < 2 ^ 12 ∧
      addressOf a disp = a + UInt64.ofNat (disp.toInt.toNat / n * n) := by
  obtain ⟨h0, hm, hd⟩ := (encodable_iff hn).mp h
  have hlt := disp.toInt_lt
  have e : disp = Int32.ofNat disp.toInt.toNat := by
    rw [← Int32.ofInt_eq_ofNat, Int.toNat_of_nonneg h0, Int32.ofInt_toInt]
  have hq : disp.toInt.toNat / n ≤ 4095 := by
    rw [← Int.toNat_of_nonneg h0] at hd
    exact_mod_cast hd
  have hz : disp.toInt.toNat % n = 0 := by
    rw [← Int.toNat_of_nonneg h0] at hm
    exact_mod_cast hm
  refine ⟨Nat.lt_succ_of_le hq, ?_⟩
  conv => lhs; rw [e]
  rw [Nat.div_mul_cancel (Nat.dvd_of_mod_eq_zero hz)]
  exact addressOf_ofNat a (by omega)

theorem Mem.base_of_check {m : Mem} {b : Reg} (h : m.check = .ok b) : m.base = some b := by
  unfold check at h
  split at h
  · cases h
  · rename_i r hr
    simp only [bind, Except.bind] at h
    split at h
    · cases h
    · split at h
      · cases h
      · cases h
        exact hr

theorem run_access {f : Form} (hf : f.Takes accessFields) {n : Nat} (hn : n ∈ accessWidths)
    {m : Mem} {rt : UInt32} (hrt : rt.toNat < 2 ^ 5) (h : Access.word f.pattern n rt m = .ok w) :
    run E [w] c = some (f.exec E w c) ∧
      c.base (field w 5 5) + UInt64.ofNat (field w 10 12 * n) = c.address m ∧
      field w 0 5 = rt.toNat := by
  simp only [Access.word, bind, Except.bind] at h
  split at h
  · cases h
  · rename_i b hb
    by_cases he : encodable m.disp n = true
    · rw [he] at h
      cases h
      have hbase := Mem.base_of_check hb
      obtain ⟨hlt, haddr⟩ := addressOf_encodable hn he (c.base b.number)
      have hand : rt &&& 0x1F = rt := by
        apply UInt32.toNat_inj.mp
        rw [UInt32.toNat_and]
        exact (Nat.and_two_pow_sub_one_eq_mod _ 5).trans (Nat.mod_eq_of_lt hrt)
      have himm : (UInt32.ofNat (m.disp.toInt.toNat / n)).toNat = m.disp.toInt.toNat / n := by
        rw [UInt32.toNat_ofNat', Nat.mod_eq_of_lt (by omega)]
      obtain ⟨hrun, _ | ⟨h1, _ | ⟨h2, _ | ⟨h3, -⟩⟩⟩⟩ := run_pack (E := E) (c := c) hf
        [UInt32.ofNat (m.disp.toInt.toNat / n), b.field, rt]
        (.cons (by rw [himm]; exact hlt) (.cons b.field_lt (.cons hrt .nil)))
        (by rw [accessFields, pack_cons, pack_cons, pack_low])
      rw [hand]
      refine ⟨hrun, ?_, h3⟩
      rw [show field _ 10 12 = _ from h1, show field _ 5 5 = _ from h2, himm, Cpu.address, hbase]
      exact haddr.symm
    · rw [Bool.not_eq_true] at he
      rw [he] at h
      cases h

theorem Access.general_eq {n : Int} {a : Access} (h : Access.general n = .ok a) :
    ∃ k, k < 4 ∧ 2 ^ k ∈ accessWidths ∧ n.toNat = 2 ^ k ∧
      a = ⟨(Form.load k).pattern, (Form.store k).pattern, 2 ^ k⟩ := by
  unfold general at h
  split at h
  · rename_i e
    cases h
    exact ⟨0, by decide, by decide, e ▸ rfl, rfl⟩
  · split at h
    · rename_i e
      cases h
      exact ⟨1, by decide, by decide, e ▸ rfl, rfl⟩
    · split at h
      · rename_i e
        cases h
        exact ⟨2, by decide, by decide, e ▸ rfl, rfl⟩
      · split at h
        · rename_i e
          cases h
          exact ⟨3, by decide, by decide, e ▸ rfl, rfl⟩
        · cases h

theorem Access.vector_eq {n : Int} {a : Access} (h : Access.vector n = .ok a) :
    ∃ k, 2 ≤ k ∧ k < 5 ∧ 2 ^ k ∈ accessWidths ∧ n.toNat = 2 ^ k ∧
      a = ⟨(Form.loadFP k).pattern, (Form.storeFP k).pattern, 2 ^ k⟩ := by
  unfold vector at h
  split at h
  · rename_i e
    cases h
    exact ⟨2, by decide, by decide, by decide, e ▸ rfl, rfl⟩
  · split at h
    · rename_i e
      cases h
      exact ⟨3, by decide, by decide, by decide, e ▸ rfl, rfl⟩
    · split at h
      · rename_i e
        cases h
        exact ⟨4, by decide, by decide, by decide, e ▸ rfl, rfl⟩
      · cases h

theorem run_load {dst : Reg} {src : Mem} {n : Int} (h : (Instr.load dst src n).word = .ok w) :
    run E [w] c = (Instr.load dst src n).perform E c := by
  simp only [Instr.word, bind, Except.bind] at h
  split at h
  · cases h
  · split at h
    · cases h
    · rename_i a ha
      split at h
      · cases h
      · obtain ⟨k, hk, hw, en, rfl⟩ := Access.general_eq ha
        obtain ⟨hrun, haddr, hd⟩ := run_access (E := E) (c := c) (Form.takes_load hk).1 hw dst.field_lt h
        rw [hrun, Form.exec]
        simp only [haddr, hd, Instr.perform, en]
        rfl

theorem run_store {dst : Mem} {src : Reg} {n : Int} (h : (Instr.store dst src n).word = .ok w) :
    run E [w] c = (Instr.store dst src n).perform E c := by
  simp only [Instr.word, bind, Except.bind] at h
  split at h
  · cases h
  · split at h
    · cases h
    · rename_i a ha
      obtain ⟨k, hk, hw, en, rfl⟩ := Access.general_eq ha
      obtain ⟨hrun, haddr, hd⟩ := run_access (E := E) (c := c) (Form.takes_load hk).2 hw src.field_lt h
      rw [hrun, Form.exec]
      simp only [haddr, hd, Instr.perform, en]
      rfl

theorem run_loadFP {dst : VReg} {src : Mem} {n : Int} (h : (Instr.loadFP dst src n).word = .ok w) :
    run E [w] c = (Instr.loadFP dst src n).perform E c := by
  simp only [Instr.word, bind, Except.bind] at h
  split at h
  · cases h
  · rename_i hdst
    split at h
    · cases h
    · rename_i a ha
      obtain ⟨k, h2, hk, hw, en, rfl⟩ := Access.vector_eq ha
      obtain ⟨hrun, haddr, hd⟩ := run_access (E := E) (c := c) (Form.takes_loadFP hk h2).1 hw
        (VReg.lt_of_check hdst) h
      rw [UInt8.toNat_toUInt32] at hd
      rw [hrun, Form.exec]
      simp only [haddr, hd, Instr.perform, en]

theorem run_storeFP {dst : Mem} {src : VReg} {n : Int} (h : (Instr.storeFP dst src n).word = .ok w) :
    run E [w] c = (Instr.storeFP dst src n).perform E c := by
  simp only [Instr.word, bind, Except.bind] at h
  split at h
  · cases h
  · rename_i hsrc
    split at h
    · cases h
    · rename_i a ha
      obtain ⟨k, h2, hk, hw, en, rfl⟩ := Access.vector_eq ha
      obtain ⟨hrun, haddr, hd⟩ := run_access (E := E) (c := c) (Form.takes_loadFP hk h2).2 hw
        (VReg.lt_of_check hsrc) h
      rw [UInt8.toNat_toUInt32] at hd
      rw [hrun, Form.exec]
      simp only [haddr, hd, Instr.perform, en]

end

/-! ## constants -/

def lowHalfwords (y : UInt64) (i : Nat) : UInt64 := UInt64.ofNat (y.toNat % 65536 ^ i)

/-- one more halfword, which may be left out if it is zero -/
theorem withHalfword_low (y : UInt64) {i : Nat} (hi : i < 4) :
    withHalfword (lowHalfwords y i) i (halfword y i).toNat = lowHalfwords y (i + 1) ∧
      (halfword y i = 0 → lowHalfwords y i = lowHalfwords y (i + 1)) := by
  have hpow : 65536 ^ i ≤ 65536 ^ 3 := Nat.pow_le_pow_right (by omega) (by omega)
  have hlow : y.toNat % 65536 ^ i < 65536 ^ i := Nat.mod_lt _ (Nat.pow_pos (by omega))
  have e : (lowHalfwords y i).toNat = y.toNat % 65536 ^ i := by
    rw [lowHalfwords, UInt64.toNat_ofNat', Nat.mod_eq_of_lt (by omega)]
  have hsucc : y.toNat % 65536 ^ (i + 1) =
      y.toNat % 65536 ^ i + 65536 ^ i * (halfword y i).toNat := by
    rw [toNat_halfword, Nat.pow_succ, Nat.mod_mul]
  constructor
  · rw [withHalfword, e, Nat.div_eq_of_lt hlow, Nat.zero_mod, Nat.zero_mul, Nat.sub_zero,
      Nat.mul_comm (halfword y i).toNat, ← hsucc, lowHalfwords]
  · intro h0
    rw [h0, show (0 : UInt32).toNat = 0 from rfl, Nat.mul_zero, Nat.add_zero] at hsucc
    unfold lowHalfwords
    exact congrArg UInt64.ofNat hsucc.symm

/-- a halfword with its place, if it is not zero -/
def nonzeroHalfword (y : UInt64) (i : Nat) : Option (Nat × UInt32) :=
  if halfword y i = 0 then none else some (i, halfword y i)

/-- a constant is put together from the halfwords that are not zero -/
theorem foldl_halfwords (y : UInt64) :
    (halfwords y).foldl (fun x p => withHalfword x p.1 p.2.toNat) 0 = y := by
  have hstep : ∀ i < 4, ([i].filterMap (nonzeroHalfword y)).foldl (fun x p => withHalfword x p.1 p.2.toNat)
      (lowHalfwords y i) = lowHalfwords y (i + 1) := by
    intro i hi
    obtain ⟨h1, h2⟩ := withHalfword_low y hi
    by_cases h0 : halfword y i = 0
    · rw [List.filterMap_cons_none (show nonzeroHalfword y i = none from if_pos h0)]
      exact h2 h0
    · rw [List.filterMap_cons_some (show nonzeroHalfword y i = some _ from if_neg h0)]
      exact h1
  have h0 : lowHalfwords y 0 = 0 := by
    rw [lowHalfwords, Nat.pow_zero, Nat.mod_one]
    rfl
  have h4 : lowHalfwords y 4 = y := by
    rw [lowHalfwords, Nat.mod_eq_of_lt y.toNat_lt, UInt64.ofNat_toNat]
  have hfold : ([0, 1, 2, 3].filterMap (nonzeroHalfword y)).foldl
      (fun x p => withHalfword x p.1 p.2.toNat) 0 = y := by
    rw [show [0, 1, 2, 3] = [0] ++ ([1] ++ ([2] ++ [3])) from rfl, List.filterMap_append,
      List.filterMap_append, List.filterMap_append, List.foldl_append, List.foldl_append,
      List.foldl_append, ← h0, hstep 0 (by omega), hstep 1 (by omega), hstep 2 (by omega),
      hstep 3 (by omega), h4]
  unfold halfwords
  split
  · rename_i hnil
    rw [show [0, 1, 2, 3].filterMap (nonzeroHalfword y) = [] from hnil] at hfold
    exact hfold
  · exact hfold

section
variable {E : Env} {c : Cpu}

theorem run_mov {f : Form} (hf : f.Takes [(21, 2), (5, 16), (0, 5)]) (dst : Reg) {i : Nat} (hi : i < 4)
    {h : UInt32} (hh : h.toNat < 2 ^ 16) {w : UInt32}
    (hw : w = f.pattern ||| (UInt32.ofNat i <<< 21) ||| (h <<< 5) ||| dst.field) :
    run E [w] c = some (f.exec E w c) ∧ field w 21 2 = i ∧ field w 5 16 = h.toNat ∧
      field w 0 5 = dst.number := by
  have hin : (UInt32.ofNat i).toNat = i := by
    rw [UInt32.toNat_ofNat', Nat.mod_eq_of_lt (by omega)]
  obtain ⟨hrun, _ | ⟨h1, _ | ⟨h2, _ | ⟨h3, -⟩⟩⟩⟩ := run_pack (E := E) (c := c) hf
    [UInt32.ofNat i, h, dst.field]
    (.cons (by rw [hin]; exact hi) (.cons hh (.cons dst.field_lt .nil)))
    (hw.trans (by rw [pack_cons, pack_cons, pack_low]))
  exact ⟨hrun, h1.trans hin, h2, h3⟩

theorem run_movz (dst : Reg) {i : Nat} (hi : i < 4) {h : UInt32} (hh : h.toNat < 2 ^ 16) :
    run E [movz dst h i] c = some (c.setReg dst.number (withHalfword 0 i h.toNat), []) := by
  obtain ⟨hrun, h1, h2, h3⟩ := run_mov (E := E) (c := c) Form.takes_mov.1 dst hi hh rfl
  refine hrun.trans ?_
  rw [Form.exec]
  rw [h1, h2, h3]

theorem run_movk (dst : Reg) {i : Nat} (hi : i < 4) {h : UInt32} (hh : h.toNat < 2 ^ 16) :
    run E [movk dst h i] c =
      some (c.setReg dst.number (withHalfword (c.reg dst.number) i h.toNat), []) := by
  obtain ⟨hrun, h1, h2, h3⟩ := run_mov (E := E) (c := c) Form.takes_mov.2 dst hi hh rfl
  refine hrun.trans ?_
  rw [Form.exec]
  rw [h1, h2, h3]

theorem run_movks (dst : Reg) (x : UInt64) {hs : List (Nat × UInt32)}
    (hh : ∀ p ∈ hs, p.1 < 4 ∧ p.2.toNat < 2 ^ 16) :
    run E (hs.map fun (j, k) => movk dst k j) (c.setReg dst.number x) =
      some (c.setReg dst.number (hs.foldl (fun x p => withHalfword x p.1 p.2.toNat) x), []) := by
  induction hs generalizing x with
  | nil => rfl
  | cons p hs ih =>
    obtain ⟨⟨h1, h2⟩, hh⟩ := List.forall_mem_cons.mp hh
    have hset : ∀ y, (c.setReg dst.number x).setReg dst.number
        (withHalfword ((c.setReg dst.number x).reg dst.number) p.1 y) =
          c.setReg dst.number (withHalfword x p.1 y) := by
      intro y
      by_cases h31 : dst.number = 31
      · simp only [Cpu.setReg, if_pos h31]
      · simp only [Cpu.setReg, Cpu.reg, if_neg h31, Cpu.x_setX, if_true, Cpu.setX_setX]
    have hone := run_movk (E := E) (c := c.setReg dst.number x) dst h1 h2
    rw [hset] at hone
    rw [List.map_cons, List.foldl_cons]
    show run E ([movk dst p.2 p.1] ++ hs.map fun (j, k) => movk dst k j) _ = _
    rw [run_append hone, ih _ hh]
    rfl

theorem mem_halfwords {y : UInt64} {p : Nat × UInt32} (h : p ∈ halfwords y) :
    p.1 < 4 ∧ p.2.toNat < 2 ^ 16 := by
  unfold halfwords at h
  split at h
  · cases List.mem_singleton.mp h
    decide
  · obtain ⟨i, hi, e⟩ := List.mem_filterMap.mp h
    split at e
    · cases e
    · cases e
      exact ⟨by simpa using List.mem_range.mp (show i ∈ List.range 4 from hi), halfword_lt y i⟩

/-- **The words that load a constant.** -/
theorem run_movImmWords (dst : Reg) (y : UInt64) :
    run E (movImmWords dst y) c = some (c.setReg dst.number y, []) := by
  have hfold := foldl_halfwords y
  have hmem := fun p => mem_halfwords (y := y) (p := p)
  unfold movImmWords
  cases hs : halfwords y with
  | nil =>
    exfalso
    unfold halfwords at hs
    split at hs
    · cases hs
    · rename_i hne
      exact hne hs
  | cons p rest =>
    rw [hs] at hfold hmem
    obtain ⟨⟨h1, h2⟩, hrest⟩ := List.forall_mem_cons.mp hmem
    show run E ([movz dst p.2 p.1] ++ rest.map fun (j, k) => movk dst k j) _ = _
    rw [run_append (run_movz dst h1 h2), run_movks dst _ hrest, ← hfold]
    rfl

end

/-! ## instructions -/

def Instr.words : Instr → List UInt32
  | .movImm dst v => movImmWords dst (if dst.width = .w32 then v.toUInt64 &&& 0xFFFFFFFF else v.toUInt64)
  | i => match i.word with
    | .ok w => [w]
    | .error _ => []

section
variable {E : Env} {c : Cpu} {r : Cpu × List Event}

/-- a one-word instruction does what it is told to do -/
theorem Instr.run_word {i : Instr} {w : UInt32} (hw : i.word = .ok w) (hp : i.perform E c = some r)
    (hi : ∀ dst v, i ≠ .movImm dst v) : run E [w] c = some r := by
  rw [← hp]
  cases i with
  | movImm dst v => exact absurd rfl (hi dst v)
  | movReg => exact run_movReg hw
  | addImm => exact run_addSubImm false hw
  | subImm => exact run_addSubImm true hw
  | reg3 => exact run_regReg hw
  | addSP => exact run_addSP hw
  | cmp => exact run_cmp hw
  | cset => exact run_cset hw
  | uxtb => exact run_uxtb hw
  | uxth => exact run_uxth hw
  | load => exact run_load hw
  | store => exact run_store hw
  | fp3 => exact run_fp3 hw
  | fcmp => exact run_fcmp hw
  | vec3 => exact run_vec3 hw
  | not16b => exact run_not16b hw
  | dupElement => exact run_dupElement hw
  | dupGeneral => exact run_dupGeneral hw
  | loadFP => exact run_loadFP hw
  | storeFP => exact run_storeFP hw
  | movSymbol | ubfx | pushFrame | popFrame | jump | jumpIf | jumpIfZero | jumpIfNotZero | call | ret
  | nop | align | mrsCTR | dcCVAU | icIVAU | dsbISH | isb => cases hp

/-- **The words of an instruction do what the instruction does.** -/
theorem Instr.run_words {i : Instr} {pos : Nat} {ck : Chunk} (h : i.encode pos = .ok ck)
    (hp : i.perform E c = some r) :
    ck = { bytes := i.words.flatMap wordBytes } ∧ run E i.words c = some r := by
  unfold encode at h
  cases hpre : i.precheck with
  | error e =>
    rw [hpre] at h
    cases h
  | ok u =>
    rw [hpre] at h
    cases i with
    | movImm dst v =>
      cases h
      cases hp
      exact ⟨rfl, run_movImmWords dst _⟩
    | movSymbol | ubfx | pushFrame | popFrame | jump | jumpIf | jumpIfZero | jumpIfNotZero | call | ret
    | nop | align | mrsCTR | dcCVAU | icIVAU | dsbISH | isb => cases hp
    | _ =>
      simp only [bind, Except.bind] at h
      split at h
      · cases h
      · rename_i w hw
        cases h
        simp only [words, hw]
        exact ⟨by rw [List.flatMap_singleton]; rfl, run_word hw hp nofun⟩

def performAll (E : Env) : List Instr → Cpu → Option (Cpu × List Event)
  | [], c => some (c, [])
  | i :: is, c =>
    match i.perform E c with
    | none => none
    | some (c', es) => (performAll E is c').map fun r => (r.1, es ++ r.2)

def Instr.Encodes (i : Instr) : Prop := ∃ pos ck, i.encode pos = .ok ck

/-- **The words of a straight line do what its instructions do.** -/
theorem run_of_performAll {is : List Instr} (h : ∀ i ∈ is, i.Encodes)
    (hp : performAll E is c = some r) : run E (is.flatMap Instr.words) c = some r := by
  induction is generalizing c r with
  | nil => exact hp
  | cons i is ih =>
    obtain ⟨⟨pos, ck, hi⟩, his⟩ := List.forall_mem_cons.mp h
    unfold performAll at hp
    split at hp
    · cases hp
    · rename_i c1 es1 hi1
      obtain ⟨r2, hr, rfl⟩ := Option.map_eq_some_iff.mp hp
      rw [List.flatMap_cons]
      refine (run_append (Instr.run_words hi hi1).2).trans ?_
      rw [ih his hr]
      rfl

/-- every instruction of a straight line is performed in some state -/
theorem perform_of_mem {is : List Instr} {i : Instr} (hp : performAll E is c = some r) (hi : i ∈ is) :
    ∃ c1 r1, i.perform E c1 = some r1 := by
  induction is generalizing c r with
  | nil => cases hi
  | cons j is ih =>
    unfold performAll at hp
    split at hp
    · cases hp
    · rename_i c1 es1 hj
      obtain ⟨r2, hr, -⟩ := Option.map_eq_some_iff.mp hp
      rcases List.mem_cons.mp hi with rfl | hi
      · exact ⟨c, _, hj⟩
      · exact ih hr hi

theorem performAll_append {is js : List Instr} {c1 c2 : Cpu} {es es' : List Event}
    (h : performAll E is c = some (c1, es)) (h' : performAll E js c1 = some (c2, es')) :
    performAll E (is ++ js) c = some (c2, es ++ es') := by
  induction is generalizing c es with
  | nil =>
    cases h
    exact h'
  | cons i is ih =>
    rw [List.cons_append]
    unfold performAll at h ⊢
    split at h
    · cases h
    · rename_i c3 es3 hi
      obtain ⟨⟨c4, es4⟩, hr, e⟩ := Option.map_eq_some_iff.mp h
      cases e
      simp only [ih hr, Option.map_some, List.append_assoc]

end

/-! ## straight lines -/

def Leads (E : Env) (c : Cpu) (is : List Instr) (es : List Event) (P : Cpu → Prop) : Prop :=
  ∃ c', performAll E is c = some (c', es) ∧ P c'

section
variable {E : Env} {is js : List Instr} {c c' : Cpu} {es es' : List Event} {P Q : Cpu → Prop}

theorem Leads.nil (h : P c) : Leads E c [] [] P := ⟨c, rfl, h⟩

theorem Leads.cons {i : Instr} (h : i.perform E c = some (c', es)) (h' : Leads E c' is es' P) :
    Leads E c (i :: is) (es ++ es') P := by
  obtain ⟨c2, h2, hP⟩ := h'
  refine ⟨c2, ?_, hP⟩
  rw [performAll, h]
  simp only [h2, Option.map_some]

theorem Leads.quiet {i : Instr} (h : i.perform E c = some (c', [])) (h' : Leads E c' is es P) :
    Leads E c (i :: is) es P := Leads.cons h h'

theorem Leads.last {i : Instr} (h : i.perform E c = some (c', es)) (hP : P c') :
    Leads E c [i] es P := by
  have h2 := Leads.cons h (.nil hP)
  rwa [List.append_nil] at h2

theorem Leads.append (h : Leads E c is es Q) (h' : ∀ c', Q c' → Leads E c' js es' P) :
    Leads E c (is ++ js) (es ++ es') P := by
  obtain ⟨c1, h1, hQ⟩ := h
  obtain ⟨c2, h2, hP⟩ := h' c1 hQ
  exact ⟨c2, performAll_append h1 h2, hP⟩

theorem Leads.then (h : Leads E c is [] Q) (h' : ∀ c', Q c' → Leads E c' js es P) :
    Leads E c (is ++ js) es P := h.append h'

theorem Leads.mono (h : Leads E c is es P) (hPQ : ∀ c', P c' → Q c') : Leads E c is es Q := by
  obtain ⟨c1, h1, hP⟩ := h
  exact ⟨c1, h1, hPQ c1 hP⟩

/-- what is seen of the words of a straight line, and where they lead -/
theorem Leads.run (h : Leads E c is es P) (hi : ∀ i ∈ is, i.Encodes) :
    ∃ c', A64.run E (is.flatMap Instr.words) c = some (c', es) ∧ P c' := by
  obtain ⟨c1, h1, hP⟩ := h
  exact ⟨c1, run_of_performAll hi h1, hP⟩

end

end TreeJit.A64
