import TreeJit.Proofs.A64.Core

/-!
# What words say

A word tells a core its form and its operands (`Command`): numbers of registers, constants, the width
and the offset of an access, a condition, the displacement of a branch in bytes.  `Instr.command` is
what an instruction says before it is encoded, with its operands exactly as they were given.

The encoder checks nearly all of them.  A few it takes on trust (`Instr.Trusted`): the registers of an
addition to the stack pointer, of a call, of a copy to both lanes and of the words that speak to the
system, conditions, and the end of a bit field, which it adds up in 32 bits.

* `Command.ofWord_pack`       a word packed from fields says them;
* `Instr.shows`               the word of an instruction, its branch filled in, says the instruction,
                              but for numbers taken on trust, which are reduced;
* `Instr.trusted_of_shows`    no word says a number that does not fit;
* `assemble_shows_operands`   the word of an instruction in assembled code says the instruction
                              exactly if what was taken on trust holds.
-/

namespace TreeJit.A64

/-! ## commands -/

structure Command where
  form : AnyForm
  operands : List Int
  deriving DecidableEq

def wordsAway (n x : Nat) : Int := 4 * (BitVec.ofNat n x).toInt

def AnyForm.operands : AnyForm → List Nat → List Int
  | .data (.ubfm _), [r, s, n, d] => [r, s + 1 - r, n, d]
  | .data (.csinc _), [m, n, cond, d] => [m, n, (cond ^^^ 1 : Nat), d]
  | .data (.load k), [o, n, t] | .data (.store k), [o, n, t]
  | .data (.loadFP k), [o, n, t] | .data (.storeFP k), [o, n, t] => [(2 ^ k : Nat), (o * 2 ^ k : Nat), n, t]
  | .sys .jump, [o] => [wordsAway 26 o]
  | .sys .jumpIf, [cond, o] => [cond, wordsAway 19 o]
  | .sys (.compareZero ..), [r, o] => [r, wordsAway 19 o]
  | _, xs => xs.map Nat.cast

def Command.ofWord (w : UInt32) : Option Command :=
  (decodeAny w).map fun f => ⟨f, f.operands (f.fields.map fun p => field w p.1.toNat p.2)⟩

def Mem.command (form : Nat → Form) (m : Mem) (n t : Int) : Option Command :=
  m.base.map fun b => ⟨.data (form n.toNat.log2), [n, m.disp.toInt, b.id, t]⟩

/-- what an instruction of one word says, with `rel` bytes to the label of its branch -/
def Instr.command (rel : Int) : Instr → Option Command
  | .movReg dst src => some ⟨.data (.reg3 .orr dst.wide), [src.id, sp, dst.id]⟩
  | .addImm dst src imm shift12 =>
    some ⟨.data (.addImm false dst.wide), [imm.toNat, src.id, dst.id, if shift12 then 1 else 0]⟩
  | .subImm dst src imm shift12 =>
    some ⟨.data (.addImm true dst.wide), [imm.toNat, src.id, dst.id, if shift12 then 1 else 0]⟩
  | .reg3 op dst left right => some ⟨.data (.reg3 op dst.wide), [right.id, left.id, dst.id]⟩
  | .addSP dst src => some ⟨.data .addExtended, [src.id, sp, dst.id]⟩
  | .cmp left right => some ⟨.data (.cmp left.wide), [right.id, left.id]⟩
  | .cset dst cond => some ⟨.data (.csinc dst.wide), [sp, sp, cond.toNat, dst.id]⟩
  | .uxtb dst src => some ⟨.data (.ubfm false), [0, 8, src.id, dst.id]⟩
  | .uxth dst src => some ⟨.data (.ubfm false), [0, 16, src.id, dst.id]⟩
  | .ubfx dst src lsb width => some ⟨.data (.ubfm true), [lsb.toNat, width.toNat, src.id, dst.id]⟩
  | .load dst src n => src.command .load n dst.id
  | .store dst src n => dst.command .store n src.id
  | .loadFP dst src n => src.command .loadFP n dst.toNat
  | .storeFP dst src n => dst.command .storeFP n src.toNat
  | .pushFrame => some ⟨.sys .pushFrame, []⟩
  | .popFrame => some ⟨.sys .popFrame, []⟩
  | .jump _ => some ⟨.sys .jump, [rel]⟩
  | .jumpIf cond _ => some ⟨.sys .jumpIf, [cond.toNat, rel]⟩
  | .jumpIfZero reg _ => some ⟨.sys (.compareZero false reg.wide), [reg.id, rel]⟩
  | .jumpIfNotZero reg _ => some ⟨.sys (.compareZero true reg.wide), [reg.id, rel]⟩
  | .call target => some ⟨.sys .call, [target.id]⟩
  | .ret => some ⟨.sys .ret, []⟩
  | .nop => some ⟨.sys .nop, []⟩
  | .fp3 op size dst left right => some ⟨.data (.fp3 op size), [right.toNat, left.toNat, dst.toNat]⟩
  | .fcmp size left right => some ⟨.data (.fcmp size), [right.toNat, left.toNat]⟩
  | .vec3 op dst left right => some ⟨.data (.vec3 op), [right.toNat, left.toNat, dst.toNat]⟩
  | .not16b dst src => some ⟨.data .not16b, [src.toNat, dst.toNat]⟩
  | .dupElement dst src => some ⟨.data .dupElement, [src.toNat, dst.toNat]⟩
  | .dupGeneral dst src => some ⟨.data .dupGeneral, [src.id, dst.toNat]⟩
  | .mrsCTR dst => some ⟨.sys .mrsCTR, [dst.id]⟩
  | .dcCVAU addr => some ⟨.sys .dcCVAU, [addr.id]⟩
  | .icIVAU addr => some ⟨.sys .icIVAU, [addr.id]⟩
  | .dsbISH => some ⟨.sys .dsbISH, []⟩
  | .isb => some ⟨.sys .isb, []⟩
  | .movImm .. | .movSymbol .. | .align _ => none

/-- instructions of one word -/
def Instr.OneWord : Instr → Prop
  | .movImm .. | .movSymbol .. | .align _ => False
  | _ => True

/-- what the encoder takes on trust -/
def Instr.Trusted : Instr → Prop
  | .addSP dst src => IsReg dst.id ∧ IsReg src.id
  | .call r | .dupGeneral _ r | .mrsCTR r | .dcCVAU r | .icIVAU r => IsReg r.id
  | .cset _ cond | .jumpIf cond _ => cond.toNat < 16
  | .ubfx _ _ lsb width => lsb.toNat + width.toNat ≤ 64
  | _ => True

/-- a bit field ends in the register, its end added up in numbers -/
def Instr.FieldFits : Instr → Prop
  | .ubfx _ _ lsb width => lsb.toNat + width.toNat ≤ 64
  | _ => True

def Reg.reduced (r : Reg) : Reg := ⟨r.id % 32, r.width⟩

/-- an instruction with the numbers of registers and conditions that are taken on trust reduced -/
def Instr.reduced : Instr → Instr
  | .addSP dst src => .addSP dst.reduced src.reduced
  | .call r => .call r.reduced
  | .dupGeneral dst r => .dupGeneral dst r.reduced
  | .mrsCTR r => .mrsCTR r.reduced
  | .dcCVAU r => .dcCVAU r.reduced
  | .icIVAU r => .icIVAU r.reduced
  | .cset dst cond => .cset dst (cond &&& 0xF)
  | .jumpIf cond l => .jumpIf (cond &&& 0xF) l
  | i => i

/-! ## operands in range -/

theorem isReg_iff {r : RegId} : IsReg r ↔ r % 32 = r := by
  have h : ∀ n : Int, 0 ≤ n ∧ n ≤ 31 ↔ n % 32 = n := by
    intro n
    omega
  exact h r

theorem Reg.reduced_eq {r : Reg} (h : IsReg r.id) : r.reduced = r := by
  rw [reduced, isReg_iff.mp h]

theorem Reg.field_reduced (r : Reg) : (r.field.toNat : Int) = r.reduced.id := by
  have h : ∀ n : Int, (((n % 32).toNat % 2 ^ 32 : Nat) : Int) = n % 32 := by
    intro n
    omega
  rw [field, UInt32.toNat_ofNat']
  exact h r.id

theorem Reg.field_id {r : Reg} (h : IsReg r.id) : (r.field.toNat : Int) = r.id := by
  rw [r.field_reduced, Reg.reduced_eq h]

theorem Reg.isReg_of_check {r : Reg} (h : r.check = .ok ()) : IsReg r.id := by
  unfold check at h
  split at h
  · cases h
  · rename_i hr
    obtain ⟨h0, h31⟩ := not_or.mp hr
    exact ⟨Int.not_lt.mp h0, Int.not_lt.mp h31⟩

theorem Mem.isReg_of_check {m : Mem} {b : Reg} (h : m.check = .ok b) : IsReg b.id := by
  unfold check at h
  split at h
  · cases h
  · simp only [bind, Except.bind] at h
    split at h
    · cases h
    · split at h
      · cases h
      · rename_i hc
        cases h
        exact Reg.isReg_of_check hc

theorem and_low (cond : Cond) : (cond &&& 0xF).toNat = cond.toNat % 16 := by
  rw [UInt8.toNat_and]
  exact Nat.and_two_pow_sub_one_eq_mod _ 4

theorem and_low_eq {cond : Cond} (h : cond.toNat < 16) : cond &&& 0xF = cond := by
  apply UInt8.toNat_inj.mp
  rw [and_low, Nat.mod_eq_of_lt h]

theorem Instr.Trusted.reduced_eq {i : Instr} (h : i.Trusted) : i.reduced = i := by
  cases i with
  | addSP dst src => rw [reduced, Reg.reduced_eq h.1, Reg.reduced_eq h.2]
  | call r | dupGeneral d r | mrsCTR r | dcCVAU r | icIVAU r => rw [reduced, Reg.reduced_eq h]
  | cset d cond | jumpIf cond l => rw [reduced, and_low_eq h]
  | _ => rfl

theorem Instr.Trusted.fieldFits {i : Instr} (h : i.Trusted) : i.FieldFits := by
  cases i with
  | ubfx => exact h
  | _ => trivial

theorem forM_spec {α ε : Type} {xs : List α} {g : α → Except ε PUnit} (h : xs.forM g = .ok ⟨⟩) :
    ∀ x ∈ xs, g x = .ok ⟨⟩ := by
  induction xs with
  | nil => exact List.forall_mem_nil _
  | cons x xs ih =>
    change (g x >>= fun _ => xs.forM g) = _ at h
    cases hg : g x with
    | error e =>
      rw [hg] at h
      cases h
    | ok u =>
      rw [hg] at h
      exact List.forall_mem_cons.mpr ⟨hg, ih h⟩

theorem isReg_of_sameWidth {rs : List Reg} (h : sameWidth rs = .ok ()) : ∀ r ∈ rs, IsReg r.id := by
  intro r hr
  have hr' := forM_spec h r hr
  cases hc : r.check with
  | error e =>
    rw [hc] at hr'
    cases hr'
  | ok u => exact Reg.isReg_of_check hc

/-! ## words -/

section
variable {w : UInt32}

/-- **A word packed from fields says them.** -/
theorem Command.ofWord_pack {f : AnyForm} (hf : f.Known) (xs : List UInt32)
    (hx : List.Forall₂ (fun p x => x.toNat < 2 ^ p.2) f.fields xs) (hw : w = pack f.pattern f.fields xs) :
    ofWord w = some ⟨f, f.operands (xs.map UInt32.toNat)⟩ := by
  obtain ⟨hform, hfields⟩ := decodeAny_pack hf hx hw
  have e : f.fields.map (fun p => field w p.1.toNat p.2) = xs.map UInt32.toNat := by
    rw [← List.forall₂_eq_eq_eq, List.forall₂_map_left_iff, List.forall₂_map_right_iff]
    exact hfields
  rw [ofWord, hform, Option.map_some, e]

/-- the operands of a command are said by the fields of its form -/
theorem Command.operands_eq {c : Command} (h : ofWord w = some c) :
    c.operands = c.form.operands (c.form.fields.map fun p => field w p.1.toNat p.2) := by
  obtain ⟨f, -, rfl⟩ := Option.map_eq_some_iff.mp h
  rfl

theorem shows_regReg {op : RegOp} {dst left right : Reg} (h : regReg op.word dst left right = .ok w) :
    Command.ofWord w = some ⟨.data (.reg3 op dst.wide), [right.id, left.id, dst.id]⟩ := by
  simp only [regReg, bind, Except.bind] at h
  split at h
  · cases h
  · rename_i hsame
    cases h
    have hreg := isReg_of_sameWidth hsame
    rw [Command.ofWord_pack (f := .data (.reg3 op dst.wide)) (Form.takes_reg3 op dst.wide).1
      [right.field, left.field, dst.field]
      (.cons right.field_lt (.cons left.field_lt (.cons dst.field_lt .nil)))
      (by rw [AnyForm.fields, Form.fields, threeRegs, pack_cons, pack_cons, pack_low, AnyForm.pattern,
        Form.pattern, ← Reg.sf_eq])]
    rw [← Reg.field_id (hreg right (by simp)), ← Reg.field_id (hreg left (by simp)),
      ← Reg.field_id (hreg dst (by simp))]
    rfl

theorem shows_addSubImm (minus : Bool) {dst src : Reg} {imm : UInt32} {shift12 : Bool}
    (h : addSubImm (if minus then 0x51000000 else 0x11000000) dst src imm shift12 = .ok w) :
    Command.ofWord w = some ⟨.data (.addImm minus dst.wide),
      [imm.toNat, src.id, dst.id, if shift12 then 1 else 0]⟩ := by
  simp only [addSubImm, bind, Except.bind] at h
  split at h
  · cases h
  · rename_i hsame
    split at h
    · cases h
    · rename_i himm
      cases h
      have hreg := isReg_of_sameWidth hsame
      have hlt : imm.toNat < 2 ^ 12 := Nat.lt_succ_of_le (UInt32.le_iff_toNat_le.mp (UInt32.not_lt.mp himm))
      have hs : (if shift12 then (1 : UInt32) else 0) <<< 22 = if shift12 then 0x400000 else 0 := by
        cases shift12 <;> rfl
      rw [Command.ofWord_pack (f := .data (.addImm minus dst.wide)) (Form.takes_addImm minus dst.wide).1
        [imm, src.field, dst.field, if shift12 then 1 else 0]
        (.cons hlt (.cons src.field_lt (.cons dst.field_lt (.cons (by cases shift12 <;> decide) .nil))))
        (by rw [AnyForm.fields, Form.fields, pack_cons, pack_cons, pack_cons, pack_cons, pack_nil,
          UInt32.shiftLeft_zero, hs, AnyForm.pattern, Form.pattern, ← Reg.sf_eq])]
      rw [← Reg.field_id (hreg src (by simp)), ← Reg.field_id (hreg dst (by simp))]
      cases shift12 <;> rfl

theorem shows_extend {dst src : Reg} {n : UInt32} (hsame : sameWidth [.w dst.id, .w src.id] = .ok ())
    (hn : n.toNat < 32)
    (hw : w = (0x53000000 : UInt32) ||| (n <<< 10) ||| (src.field <<< 5) ||| dst.field) :
    Command.ofWord w = some ⟨.data (.ubfm false), [0, n.toNat + 1, src.id, dst.id]⟩ := by
  have hreg := isReg_of_sameWidth hsame
  have hd : IsReg dst.id := hreg (.w dst.id) List.mem_cons_self
  have hs : IsReg src.id := hreg (.w src.id) (List.mem_cons_of_mem _ List.mem_cons_self)
  have e : (Form.ubfm false).pattern ||| ((0 : UInt32) <<< 16) = 0x53000000 := rfl
  rw [Command.ofWord_pack (f := .data (.ubfm false)) (Form.takes_ubfm false).1
    [0, n, src.field, dst.field]
    (.cons (by decide) (.cons (Nat.lt_trans hn (by decide)) (.cons src.field_lt (.cons dst.field_lt .nil))))
    (hw.trans (by rw [AnyForm.fields, Form.fields, pack_cons, pack_cons, pack_cons, pack_low,
      AnyForm.pattern, e]))]
  rw [← Reg.field_id hs, ← Reg.field_id hd]
  show some (Command.mk _ [0, (n.toNat : Int) + 1 - 0, _, _]) = _
  rw [Int.sub_zero]

theorem shows_ubfx {dst src : Reg} {lsb width : UInt32} (h : (Instr.ubfx dst src lsb width).word = .ok w)
    (hfits : lsb.toNat + width.toNat ≤ 64) :
    Command.ofWord w = some ⟨.data (.ubfm true), [lsb.toNat, width.toNat, src.id, dst.id]⟩ := by
  simp only [Instr.word, bind, Except.bind] at h
  split at h
  · cases h
  · rename_i hsame
    split at h
    · cases h
    · rename_i hbad
      cases h
      obtain ⟨-, hbad⟩ := not_or.mp hbad
      obtain ⟨hlsb, hbad⟩ := not_or.mp hbad
      obtain ⟨hzero, -⟩ := not_or.mp hbad
      have hreg := isReg_of_sameWidth hsame
      have hlt : lsb.toNat < 2 ^ 6 :=
        Nat.lt_succ_of_le (UInt32.le_iff_toNat_le.mp (UInt32.not_lt.mp hlsb))
      have hpos : 0 < width.toNat := Nat.pos_of_ne_zero fun h0 => hzero (UInt32.toNat_inj.mp h0)
      have hlast : (lsb + width - 1).toNat = lsb.toNat + width.toNat - 1 := by
        have hadd : (lsb + width).toNat = lsb.toNat + width.toNat := by
          rw [UInt32.toNat_add, Nat.mod_eq_of_lt (by omega)]
        have hle : 1 ≤ lsb + width := UInt32.le_iff_toNat_le.mpr (hadd ▸ Nat.le_add_left_of_le hpos)
        rw [UInt32.toNat_sub_of_le _ _ hle, hadd]
        rfl
      have hlastlt : (lsb + width - 1).toNat < 2 ^ 6 := by omega
      rw [Command.ofWord_pack (f := .data (.ubfm true)) (Form.takes_ubfm true).1
        [lsb, lsb + width - 1, src.field, dst.field]
        (.cons hlt (.cons hlastlt (.cons src.field_lt (.cons dst.field_lt .nil))))
        (by rw [AnyForm.fields, Form.fields, pack_cons, pack_cons, pack_cons, pack_low]; rfl)]
      rw [← Reg.field_id (hreg src (by simp)), ← Reg.field_id (hreg dst (by simp))]
      show some (Command.mk _ [(lsb.toNat : Int), ((lsb + width - 1).toNat : Int) + 1 - lsb.toNat, _, _]) = _
      rw [hlast, show ((lsb.toNat + width.toNat - 1 : Nat) : Int) + 1 - lsb.toNat = width.toNat by omega]

theorem shows_cset {dst : Reg} {cond : Cond} (h : (Instr.cset dst cond).word = .ok w) :
    Command.ofWord w = some ⟨.data (.csinc dst.wide), [sp, sp, (cond &&& 0xF).toNat, dst.id]⟩ := by
  simp only [Instr.word, bind, Except.bind] at h
  split at h
  · cases h
  · rename_i hd
    cases h
    have hc : (cond.invert &&& 0xF).toUInt32.toNat = cond.toNat % 16 ^^^ 1 := by
      rw [UInt8.toNat_toUInt32, and_low, Cond.invert, UInt8.toNat_xor]
      exact Nat.xor_mod_two_pow (n := 4)
    have hlt : (cond.invert &&& 0xF).toUInt32.toNat < 2 ^ 4 := by
      rw [UInt8.toNat_toUInt32, and_low]
      exact Nat.mod_lt _ (by decide)
    have e : (Form.csinc dst.wide).pattern ||| ((31 : UInt32) <<< 16) ||| ((31 : UInt32) <<< 5) =
        (0x1A9F07E0 : UInt32) ||| dst.sf := by
      rw [Reg.sf_eq]
      cases dst.wide <;> rfl
    rw [Command.ofWord_pack (f := .data (.csinc dst.wide)) (Form.takes_csinc dst.wide).1
      [31, 31, (cond.invert &&& 0xF).toUInt32, dst.field]
      (.cons (by decide) (.cons (by decide) (.cons hlt (.cons dst.field_lt .nil))))
      (by rw [AnyForm.fields, Form.fields, pack_cons, pack_cons, pack_cons, pack_low, AnyForm.pattern, e])]
    rw [← Reg.field_id (Reg.isReg_of_check hd)]
    show some (Command.mk _ [_, _, ((cond.invert &&& 0xF).toUInt32.toNat ^^^ 1 : Nat), _]) = _
    rw [hc, Nat.xor_assoc, Nat.xor_self, Nat.xor_zero, and_low]
    rfl

theorem shows_three {f : Form} (hf : f ∈ Form.all) (hfields : f.fields = threeRegs) {dst left right : VReg}
    (h : three f.pattern dst left right = .ok w) : Command.ofWord w =
      some ⟨.data f, (AnyForm.data f).operands [right.toNat, left.toNat, dst.toNat]⟩ := by
  simp only [three, bind, Except.bind] at h
  split at h
  · cases h
  · rename_i hd
    split at h
    · cases h
    · rename_i hl
      split at h
      · cases h
      · rename_i hr
        cases h
        rw [Command.ofWord_pack (f := .data f) hf [right.toUInt32, left.toUInt32, dst.toUInt32]
          (by rw [AnyForm.fields, hfields]
              exact .cons (VReg.lt_of_check hr) (.cons (VReg.lt_of_check hl) (.cons (VReg.lt_of_check hd) .nil)))
          (by rw [AnyForm.fields, hfields, threeRegs, pack_cons, pack_cons, pack_low]; rfl)]
        simp only [List.map_cons, List.map_nil, UInt8.toNat_toUInt32]

theorem shows_two {f : Form} (hf : f ∈ Form.all) (hfields : f.fields = [(5, 5), (0, 5)]) {dst src : VReg}
    (h : two f.pattern dst src = .ok w) :
    Command.ofWord w = some ⟨.data f, (AnyForm.data f).operands [src.toNat, dst.toNat]⟩ := by
  simp only [two, bind, Except.bind] at h
  split at h
  · cases h
  · rename_i hd
    split at h
    · cases h
    · rename_i hs
      cases h
      rw [Command.ofWord_pack (f := .data f) hf [src.toUInt32, dst.toUInt32]
        (by rw [AnyForm.fields, hfields]
            exact .cons (VReg.lt_of_check hs) (.cons (VReg.lt_of_check hd) .nil))
        (by rw [AnyForm.fields, hfields, pack_cons, pack_low]; rfl)]
      simp only [List.map_cons, List.map_nil, UInt8.toNat_toUInt32]

theorem shows_access (form : Nat → Form) {k : Nat} (hf : form k ∈ Form.all)
    (hfields : (form k).fields = accessFields)
    (hops : ∀ o n t : Nat, (AnyForm.data (form k)).operands [o, n, t] =
      ([(2 ^ k : Nat), (o * 2 ^ k : Nat), n, t] : List Int))
    (hw : 2 ^ k ∈ accessWidths) {n : Int} (hn : n.toNat = 2 ^ k) {m : Mem} {rt : UInt32}
    (hrt : rt.toNat < 2 ^ 5) (h : Access.word (form k).pattern (2 ^ k) rt m = .ok w) :
    Command.ofWord w = m.command form n rt.toNat := by
  have en : n = (2 ^ k : Nat) := by
    have := Nat.two_pow_pos k
    omega
  simp only [Access.word, bind, Except.bind] at h
  split at h
  · cases h
  · rename_i b hb
    by_cases he : encodable m.disp (2 ^ k) = true
    · rw [he] at h
      cases h
      obtain ⟨h0, hm, hd⟩ := (encodable_iff hw).mp he
      -- the offset as a number
      obtain ⟨d, hdisp⟩ := Int.eq_ofNat_of_zero_le h0
      rw [hdisp] at hm hd ⊢
      have hdvd : 2 ^ k ∣ d := Nat.dvd_of_mod_eq_zero (by exact_mod_cast hm)
      have hlt : d / 2 ^ k < 2 ^ 12 := Nat.lt_succ_of_le (by exact_mod_cast hd)
      have himm : (UInt32.ofNat (d / 2 ^ k)).toNat = d / 2 ^ k := by
        rw [UInt32.toNat_ofNat', Nat.mod_eq_of_lt (by omega)]
      have hand : rt &&& 0x1F = rt := by
        apply UInt32.toNat_inj.mp
        rw [UInt32.toNat_and]
        exact (Nat.and_two_pow_sub_one_eq_mod _ 5).trans (Nat.mod_eq_of_lt hrt)
      rw [Command.ofWord_pack (f := .data (form k)) hf [UInt32.ofNat (d / 2 ^ k), b.field, rt]
        (by rw [AnyForm.fields, hfields]
            exact .cons (by rw [himm]; exact hlt) (.cons b.field_lt (.cons hrt .nil)))
        (by rw [AnyForm.fields, hfields, accessFields, pack_cons, pack_cons, pack_low, hand]; rfl)]
      rw [List.map_cons, List.map_cons, List.map_cons, List.map_nil, hops, himm, Nat.div_mul_cancel hdvd,
        Mem.command, Mem.base_of_check hb, Option.map_some, hdisp, hn, Nat.log2_two_pow, en]
      rw [← Reg.field_id (Mem.isReg_of_check hb)]
    · rw [Bool.not_eq_true] at he
      rw [he] at h
      cases h

theorem shows_cmp {left right : Reg} (h : (Instr.cmp left right).word = .ok w) :
    Command.ofWord w = some ⟨.data (.cmp left.wide), [right.id, left.id]⟩ := by
  simp only [Instr.word, bind, Except.bind] at h
  split at h
  · cases h
  · rename_i hsame
    cases h
    have hreg := isReg_of_sameWidth hsame
    rw [Command.ofWord_pack (f := .data (.cmp left.wide)) (Form.takes_cmp left.wide).1
      [right.field, left.field] (.cons right.field_lt (.cons left.field_lt .nil))
      (by rw [AnyForm.fields, Form.fields, pack_cons, pack_cons, pack_nil, AnyForm.pattern, Form.pattern,
        ← Reg.sf_eq])]
    rw [← Reg.field_id (hreg right (by simp)), ← Reg.field_id (hreg left (by simp))]
    rfl

theorem shows_fcmp {size : Precision} {left right : VReg} (h : (Instr.fcmp size left right).word = .ok w) :
    Command.ofWord w = some ⟨.data (.fcmp size), [right.toNat, left.toNat]⟩ := by
  simp only [Instr.word, bind, Except.bind] at h
  split at h
  · cases h
  · rename_i hl
    split at h
    · cases h
    · rename_i hr
      cases h
      refine (Command.ofWord_pack (f := .data (.fcmp size)) (Form.takes_fcmp size).1
        [right.toUInt32, left.toUInt32]
        (.cons (VReg.lt_of_check hr) (.cons (VReg.lt_of_check hl) .nil)) rfl).trans ?_
      simp only [List.map_cons, List.map_nil, UInt8.toNat_toUInt32]
      rfl

theorem shows_plain {s : SysForm} (hfields : s.fields = []) :
    Command.ofWord s.pattern = some ⟨.sys s, []⟩ := by
  rw [Command.ofWord_pack (f := .sys s) trivial [] (by rw [AnyForm.fields, hfields]; exact .nil)
    (by rw [AnyForm.fields, hfields, pack_nil]; rfl)]
  cases s <;> rfl

/-! ## branches -/

def fieldPlace : Field → Nat × Nat
  | .imm26 => (0, 26)
  | _ => (5, 19)

/-- a word with the displacement of its branch filled in -/
def Fills (b : Option Branch) (w w' : UInt32) (rel : Int) : Prop :=
  match b with
  | none => w' = w
  | some b => ∃ x : UInt32, x.toNat < 2 ^ (fieldPlace b.field).2 ∧
    wordsAway (fieldPlace b.field).2 x.toNat = rel ∧ w' = w ||| (x <<< UInt32.ofNat (fieldPlace b.field).1)

theorem shows_jump {w' : UInt32} {l : String} {rel : Int} (h : Fills (some ⟨.imm26, l⟩) 0x14000000 w' rel) :
    Command.ofWord w' = some ⟨.sys .jump, [rel]⟩ := by
  obtain ⟨x, hx, rfl, rfl⟩ := h
  exact Command.ofWord_pack (f := .sys .jump) trivial [x] (.cons hx .nil) rfl

theorem shows_jumpIf {w' : UInt32} {cond : Cond} {l : String} {rel : Int}
    (h : Fills (some ⟨.imm19, l⟩) ((0x54000000 : UInt32) ||| (cond &&& 0xF).toUInt32) w' rel) :
    Command.ofWord w' = some ⟨.sys .jumpIf, [(cond &&& 0xF).toNat, rel]⟩ := by
  obtain ⟨x, hx, rfl, rfl⟩ := h
  have hlt : (cond &&& 0xF).toUInt32.toNat < 2 ^ 4 := by
    rw [UInt8.toNat_toUInt32, and_low]
    exact Nat.mod_lt _ (by decide)
  rw [Command.ofWord_pack (f := .sys .jumpIf) trivial [(cond &&& 0xF).toUInt32, x]
    (.cons hlt (.cons hx .nil))
    (by rw [AnyForm.fields, SysForm.fields, pack_cons, pack_cons, pack_nil, UInt32.shiftLeft_zero]; rfl)]
  rw [List.map_cons, UInt8.toNat_toUInt32]
  rfl

theorem shows_compareZero (negated : Bool) {w' : UInt32} {reg : Reg} {l : String} {rel : Int}
    (hreg : IsReg reg.id)
    (h : Fills (some ⟨.imm19, l⟩)
      ((if negated then 0x35000000 else 0x34000000 : UInt32) ||| reg.sf ||| reg.field) w' rel) :
    Command.ofWord w' = some ⟨.sys (.compareZero negated reg.wide), [reg.id, rel]⟩ := by
  obtain ⟨x, hx, rfl, rfl⟩ := h
  rw [Command.ofWord_pack (f := .sys (.compareZero negated reg.wide)) trivial [reg.field, x]
    (.cons reg.field_lt (.cons hx .nil))
    (by rw [AnyForm.fields, SysForm.fields, pack_cons, pack_cons, pack_nil, UInt32.shiftLeft_zero,
      AnyForm.pattern, SysForm.pattern, ← Reg.sf_eq]; rfl)]
  rw [← Reg.field_id hreg]
  rfl

/-! ## instructions -/

theorem shows_load {dst : Reg} {src : Mem} {n rel : Int} (h : (Instr.load dst src n).word = .ok w) :
    Command.ofWord w = (Instr.load dst src n).command rel := by
  simp only [Instr.word, bind, Except.bind] at h
  split at h
  · cases h
  · rename_i hd
    split at h
    · cases h
    · rename_i a ha
      split at h
      · cases h
      · obtain ⟨k, hk, hw, en, rfl⟩ := Access.general_eq ha
        rw [shows_access .load (Form.takes_load hk).1.1 rfl (fun _ _ _ => rfl) hw en dst.field_lt h,
          Reg.field_id (Reg.isReg_of_check hd)]
        rfl

theorem shows_store {dst : Mem} {src : Reg} {n rel : Int} (h : (Instr.store dst src n).word = .ok w) :
    Command.ofWord w = (Instr.store dst src n).command rel := by
  simp only [Instr.word, bind, Except.bind] at h
  split at h
  · cases h
  · rename_i hs
    split at h
    · cases h
    · rename_i a ha
      obtain ⟨k, hk, hw, en, rfl⟩ := Access.general_eq ha
      rw [shows_access .store (Form.takes_load hk).2.1 rfl (fun _ _ _ => rfl) hw en src.field_lt h,
        Reg.field_id (Reg.isReg_of_check hs)]
      rfl

theorem shows_loadFP {dst : VReg} {src : Mem} {n rel : Int} (h : (Instr.loadFP dst src n).word = .ok w) :
    Command.ofWord w = (Instr.loadFP dst src n).command rel := by
  simp only [Instr.word, bind, Except.bind] at h
  split at h
  · cases h
  · rename_i hd
    split at h
    · cases h
    · rename_i a ha
      obtain ⟨k, h2, hk, hw, en, rfl⟩ := Access.vector_eq ha
      rw [shows_access .loadFP (Form.takes_loadFP hk h2).1.1 rfl (fun _ _ _ => rfl) hw en
        (VReg.lt_of_check hd) h, UInt8.toNat_toUInt32]
      rfl

theorem shows_storeFP {dst : Mem} {src : VReg} {n rel : Int} (h : (Instr.storeFP dst src n).word = .ok w) :
    Command.ofWord w = (Instr.storeFP dst src n).command rel := by
  simp only [Instr.word, bind, Except.bind] at h
  split at h
  · cases h
  · rename_i hs
    split at h
    · cases h
    · rename_i a ha
      obtain ⟨k, h2, hk, hw, en, rfl⟩ := Access.vector_eq ha
      rw [shows_access .storeFP (Form.takes_loadFP hk h2).2.1 rfl (fun _ _ _ => rfl) hw en
        (VReg.lt_of_check hs) h, UInt8.toNat_toUInt32]
      rfl

theorem shows_addSP {dst src : Reg} {rel : Int} (h : (Instr.addSP dst src).word = .ok w) :
    Command.ofWord w = (Instr.addSP dst src).reduced.command rel := by
  simp only [Instr.word] at h
  split at h
  · cases h
  · cases h
    refine (Command.ofWord_pack (f := .data .addExtended) Form.takes_addExtended.1
      [src.field, 31, dst.field]
      (.cons src.field_lt (.cons (by decide) (.cons dst.field_lt .nil)))
      (by rw [AnyForm.fields, Form.fields, threeRegs, pack_cons, pack_cons, pack_low]; rfl)).trans ?_
    show some (Command.mk _ [(src.field.toNat : Int), 31, (dst.field.toNat : Int)]) = _
    rw [src.field_reduced, dst.field_reduced]
    rfl

theorem shows_dupGeneral {dst : VReg} {src : Reg} {rel : Int}
    (h : (Instr.dupGeneral dst src).word = .ok w) :
    Command.ofWord w = (Instr.dupGeneral dst src).reduced.command rel := by
  simp only [Instr.word, bind, Except.bind] at h
  split at h
  · cases h
  · rename_i hd
    split at h
    · cases h
    · cases h
      refine (Command.ofWord_pack (f := .data .dupGeneral) Form.takes_two.2.2.1
        [src.field, dst.toUInt32] (.cons src.field_lt (.cons (VReg.lt_of_check hd) .nil))
        (by rw [AnyForm.fields, Form.fields, pack_cons, pack_low]; rfl)).trans ?_
      show some (Command.mk _ [(src.field.toNat : Int), (dst.toUInt32.toNat : Int)]) = _
      rw [src.field_reduced, UInt8.toNat_toUInt32]
      rfl

theorem shows_register {s : SysForm} {lo : UInt32} (hfields : s.fields = [(lo, 5)])
    (hops : ∀ n : Nat, (AnyForm.sys s).operands [n] = [(n : Int)]) (r : Reg)
    (h : s.pattern ||| (r.field <<< lo) = w) :
    Command.ofWord w = some ⟨.sys s, [r.reduced.id]⟩ := by
  rw [Command.ofWord_pack (f := .sys s) trivial [r.field]
    (by rw [AnyForm.fields, hfields]; exact .cons r.field_lt .nil)
    (by rw [AnyForm.fields, hfields, pack_cons, pack_nil, ← h]; rfl)]
  rw [List.map_cons, List.map_nil, hops, r.field_reduced]

theorem Instr.shows_word {i : Instr} {rel : Int} (hone : i.OneWord) (hb : i.branch? = none)
    (hw : i.word = .ok w) (hfits : i.FieldFits) : Command.ofWord w = i.reduced.command rel := by
  cases i with
  | movImm | movSymbol | align => cases hone
  | jump | jumpIf | jumpIfZero | jumpIfNotZero => cases hb
  | movReg dst src => exact shows_regReg hw
  | addImm => exact shows_addSubImm false hw
  | subImm => exact shows_addSubImm true hw
  | reg3 => exact shows_regReg hw
  | addSP dst src => exact shows_addSP hw
  | cmp => exact shows_cmp hw
  | cset => exact shows_cset hw
  | uxtb dst src =>
    simp only [word, bind, Except.bind] at hw
    split at hw
    · cases hw
    · rename_i hsame
      cases hw
      exact shows_extend (n := 7) hsame (by decide) rfl
  | uxth dst src =>
    simp only [word, bind, Except.bind] at hw
    split at hw
    · cases hw
    · rename_i hsame
      cases hw
      exact shows_extend (n := 15) hsame (by decide) rfl
  | ubfx => exact shows_ubfx hw hfits
  | load => exact shows_load hw
  | store => exact shows_store hw
  | loadFP => exact shows_loadFP hw
  | storeFP => exact shows_storeFP hw
  | call target =>
    simp only [word] at hw
    split at hw
    · cases hw
    · cases hw
      exact shows_register (s := .call) rfl (fun _ => rfl) target rfl
  | fp3 op size => exact shows_three (Form.takes_fp3 op size).1 rfl hw
  | fcmp => exact shows_fcmp hw
  | vec3 op => exact shows_three (Form.takes_vec3 op).1 rfl hw
  | not16b => exact shows_two Form.takes_two.1.1 rfl hw
  | dupElement => exact shows_two Form.takes_two.2.1.1 rfl hw
  | dupGeneral dst src => exact shows_dupGeneral hw
  | mrsCTR dst =>
    cases hw
    exact shows_register (s := .mrsCTR) rfl (fun _ => rfl) dst (by rw [UInt32.shiftLeft_zero]; rfl)
  | dcCVAU addr =>
    cases hw
    exact shows_register (s := .dcCVAU) rfl (fun _ => rfl) addr (by rw [UInt32.shiftLeft_zero]; rfl)
  | icIVAU addr =>
    cases hw
    exact shows_register (s := .icIVAU) rfl (fun _ => rfl) addr (by rw [UInt32.shiftLeft_zero]; rfl)
  | pushFrame =>
    cases hw
    exact shows_plain (s := .pushFrame) rfl
  | popFrame =>
    cases hw
    exact shows_plain (s := .popFrame) rfl
  | ret =>
    cases hw
    exact shows_plain (s := .ret) rfl
  | nop =>
    cases hw
    exact shows_plain (s := .nop) rfl
  | dsbISH =>
    cases hw
    exact shows_plain (s := .dsbISH) rfl
  | isb =>
    cases hw
    exact shows_plain (s := .isb) rfl

/-- **The word of an instruction says the instruction**, but for the numbers of registers and conditions
that are taken on trust, which are reduced. -/
theorem Instr.shows {i : Instr} {w' : UInt32} {rel : Int} (hone : i.OneWord) (hpre : i.precheck = .ok ())
    (hw : i.word = .ok w) (hfill : Fills i.branch? w w' rel) (hfits : i.FieldFits) :
    Command.ofWord w' = i.reduced.command rel := by
  cases i with
  | jump l =>
    cases hw
    exact shows_jump hfill
  | jumpIf cond l =>
    cases hw
    exact shows_jumpIf hfill
  | jumpIfZero reg l =>
    cases hw
    exact shows_compareZero false (Reg.isReg_of_check hpre) hfill
  | jumpIfNotZero reg l =>
    cases hw
    exact shows_compareZero true (Reg.isReg_of_check hpre) hfill
  | _ =>
    cases hfill
    exact shows_word hone rfl hw hfits

theorem isReg_field {r : RegId} {lo : Nat} (h : r = (field w lo 5 : Nat)) : IsReg r := by
  have hlt : field w lo 5 < 32 := Nat.mod_lt _ (by decide)
  rw [h]
  exact ⟨Int.natCast_nonneg _, Int.ofNat_le.mpr (Nat.le_of_lt_succ hlt)⟩

/-- **No word says a number that does not fit.** -/
theorem Instr.trusted_of_shows {i : Instr} {rel : Int} (h : Command.ofWord w = i.command rel) :
    i.Trusted := by
  cases i with
  | addSP dst src =>
    obtain ⟨hs, hrest⟩ := List.cons.inj (Command.operands_eq h)
    obtain ⟨-, hrest⟩ := List.cons.inj hrest
    exact ⟨isReg_field (List.cons.inj hrest).1, isReg_field hs⟩
  | cset dst cond =>
    obtain ⟨-, hrest⟩ := List.cons.inj (Command.operands_eq h)
    obtain ⟨-, hrest⟩ := List.cons.inj hrest
    have hcond : cond.toNat = field w 12 4 ^^^ 1 := Int.ofNat.inj (List.cons.inj hrest).1
    have hlt : field w 12 4 < 2 ^ 4 := Nat.mod_lt _ (by decide)
    show cond.toNat < 2 ^ 4
    rw [hcond]
    exact Nat.xor_lt_two_pow hlt (by decide)
  | jumpIf cond l =>
    have hcond : cond.toNat = field w 0 4 := Int.ofNat.inj (List.cons.inj (Command.operands_eq h)).1
    have hlt : field w 0 4 < 2 ^ 4 := Nat.mod_lt _ (by decide)
    show cond.toNat < 2 ^ 4
    rw [hcond]
    exact hlt
  | ubfx dst src lsb width =>
    obtain ⟨h1, hrest⟩ := List.cons.inj (Command.operands_eq h)
    have hlsb : (lsb.toNat : Int) = (field w 16 6 : Nat) := h1
    have hwidth : (width.toNat : Int) = (field w 10 6 : Nat) + 1 - (field w 16 6 : Nat) :=
      (List.cons.inj hrest).1
    have hlt : field w 10 6 < 2 ^ 6 := Nat.mod_lt _ (by decide)
    show lsb.toNat + width.toNat ≤ 64
    omega
  | call r | dupGeneral dst r | mrsCTR r | dcCVAU r | icIVAU r =>
    exact isReg_field (List.cons.inj (Command.operands_eq h)).1
  | _ => trivial

end

/-! ## assembled code -/

theorem Instr.field_branch {i : Instr} {w : UInt32} (hw : i.word = .ok w) {b : Branch}
    (hb : i.branch? = some b) :
    b.field ≠ .rel32 ∧ field w (fieldPlace b.field).1 (fieldPlace b.field).2 = 0 := by
  have hzero : ∀ (base : UInt32) (reg : Reg), field (base ||| wideBit reg.wide) 5 19 = 0 →
      field (base ||| reg.sf ||| reg.field) 5 19 = 0 := by
    intro base reg h
    rw [field_or, Reg.sf_eq, h, field_of_lt reg.field_lt, Nat.or_zero]
  cases i with
  | jump l =>
    cases hw
    cases hb
    refine ⟨nofun, ?_⟩
    show field 0x14000000 0 26 = 0
    decide
  | jumpIf cond l =>
    cases hw
    cases hb
    refine ⟨nofun, ?_⟩
    show field _ 5 19 = 0
    have hlt : (cond &&& 0xF).toUInt32.toNat < 2 ^ 5 := by
      rw [UInt8.toNat_toUInt32, and_low]
      exact Nat.lt_trans (Nat.mod_lt _ (by decide)) (show 16 < 2 ^ 5 by decide)
    rw [field_or, field_of_lt hlt, Nat.or_zero]
    rfl
  | jumpIfZero reg l | jumpIfNotZero reg l =>
    cases hw
    cases hb
    refine ⟨nofun, hzero _ reg ?_⟩
    cases reg.wide <;> rfl
  | _ => cases hb

theorem Instr.encode_oneWord {pos : Nat} {i : Instr} {c : Chunk} (hone : i.OneWord)
    (h : i.encode pos = .ok c) : ∃ w, i.precheck = .ok () ∧ i.word = .ok w ∧
      c = { bytes := wordBytes w, branch := i.branch? } := by
  unfold encode at h
  cases hp : i.precheck with
  | error e =>
    rw [hp] at h
    cases h
  | ok u =>
    rw [hp] at h
    cases i with
    | movImm | movSymbol | align => cases hone
    | _ =>
      simp only [bind, Except.bind] at h
      split at h
      · cases h
      · rename_i w hw
        cases h
        exact ⟨w, rfl, hw, rfl⟩

/-- the displacement of a branch is read out of the place of its field -/
theorem fieldPlace_spec {f : Field} (hf : f ≠ .rel32) :
    (fieldPlace f).1 + (fieldPlace f).2 ≤ 32 ∧ 0 < (fieldPlace f).2 ∧
      (∀ n k, f.Covers n k ↔ (fieldPlace f).1 ≤ k ∧ k < (fieldPlace f).1 + (fieldPlace f).2) ∧
      (∀ pos n, f.origin pos n = pos) ∧
      ∀ (bytes : List UInt8) (w : UInt32), ofLittleEndian bytes = w.toNat →
        f.displacement bytes = wordsAway (fieldPlace f).2 (field w (fieldPlace f).1 (fieldPlace f).2) := by
  have hmod : ∀ n k : Nat, BitVec.ofNat n (k % 2 ^ n) = BitVec.ofNat n k := fun n k =>
    BitVec.eq_of_toNat_eq (by rw [BitVec.toNat_ofNat, BitVec.toNat_ofNat, Nat.mod_mod])
  cases f with
  | rel32 => exact absurd rfl hf
  | imm26 =>
    refine ⟨by decide, by decide, fun n k => ?_, fun _ _ => rfl, fun bytes w hw => ?_⟩
    · show k < 26 ↔ 0 ≤ k ∧ k < 0 + 26
      omega
    · show 4 * (BitVec.ofNat 26 (ofLittleEndian bytes)).toInt =
        4 * (BitVec.ofNat 26 (w.toNat / 2 ^ 0 % 2 ^ 26)).toInt
      rw [hmod, hw, Nat.pow_zero, Nat.div_one]
  | imm19 =>
    refine ⟨by decide, by decide, fun n k => Iff.rfl, fun _ _ => rfl, fun bytes w hw => ?_⟩
    show 4 * (BitVec.ofNat 19 (ofLittleEndian bytes / 2 ^ 5)).toInt =
      4 * (BitVec.ofNat 19 (w.toNat / 2 ^ 5 % 2 ^ 19)).toInt
    rw [hmod, hw]

section
variable {lines : List (Line Instr)} {prog : Program} {pos : Nat} {i : Instr}

theorem word_of_assemble (h : assemble lines = .ok prog)
    (hst : StandsAt Instr.encode 0 lines pos (.instr i)) (hone : i.OneWord) :
    ∃ (w w' : UInt32) (rel : Int), i.precheck = .ok () ∧ i.word = .ok w ∧
      fetch prog.code pos = some w' ∧ Fills i.branch? w w' rel ∧
      ∀ b, i.branch? = some b →
        ∃ t : Nat, StandsAt Instr.encode 0 lines t (.mark b.label) ∧ pos + rel = t := by
  obtain ⟨hacc, hn, -, hclose, -⟩ :=
    assembleLines_ok (fun pos i c hc => Instr.encode_shaped (mapError_eq_ok.mp hc)) h
  have hst' := (standsAt_mapError (g := AsmFault.a64)).mpr hst
  obtain ⟨ck, hck⟩ := hacc pos i hst'
  have henc := mapError_eq_ok.mp hck
  have hbytes := hclose pos i ck hst' hck
  obtain ⟨hlen4, hbits, hleads⟩ := (Instr.encode_shaped henc).close_ok hn hbytes
  obtain ⟨w, hpre, hw, rfl⟩ := Instr.encode_oneWord hone henc
  have h4 : (wordBytes w).length = 4 := length_littleEndian _ _
  simp only [h4] at hlen4 hbytes hbits hleads
  have hfetch : fetch prog.code pos = some (wordAt prog.code pos) := by
    rw [List.length_take, List.length_drop] at hlen4
    rw [fetch, if_pos (by omega)]
  have hword : ofLittleEndian ((prog.code.drop pos).take 4) = (wordAt prog.code pos).toNat := by
    rw [← toNat_wordAt hlen4]
    exact congrArg UInt32.toNat (wordAt_take_drop prog.code (k := 0) (by omega))
  rw [hword, ofLittleEndian_wordBytes] at hbits
  refine ⟨w, wordAt prog.code pos, ?_⟩
  cases hb : i.branch? with
  | none =>
    refine ⟨0, hpre, hw, hfetch, UInt32.toNat_inj.mp ?_, fun b hb' => ?_⟩
    · rw [← hword, ← ofLittleEndian_wordBytes w]
      rw [hb] at hbytes
      exact congrArg ofLittleEndian (Except.ok.inj hbytes).symm
    · cases hb'
  | some b =>
    obtain ⟨t, ht, hto, -⟩ := hleads b hb
    obtain ⟨hf, hzero⟩ := Instr.field_branch hw hb
    obtain ⟨h32, hpos, hcovers, horigin, hdisp⟩ := fieldPlace_spec hf
    rw [horigin, hdisp _ _ hword] at hto
    have hsame : ∀ k < 32, ¬ ((fieldPlace b.field).1 ≤ k ∧ k < (fieldPlace b.field).1 + (fieldPlace b.field).2) →
        (wordAt prog.code pos).toNat.testBit k = w.toNat.testBit k := by
      refine fun k hk hout => hbits k hk fun b' hb' hc => ?_
      cases hb.symm.trans hb'
      exact hout ((hcovers _ _).mp hc)
    obtain ⟨x, hx, e⟩ := exists_or_field h32 hpos hzero hsame
    rw [← hx] at hto
    refine ⟨_, hpre, hw, hfetch, ⟨x, ?_, rfl, e⟩, fun b' hb' => ?_⟩
    · rw [hx]
      exact Nat.mod_lt _ (Nat.two_pow_pos _)
    · cases hb'
      exact ⟨t, standsAt_mapError.mp ht, hto⟩

/-- **A word says its instruction exactly if the unchecked operands are in range.**

Every instruction of one word in assembled code stands there as a word that says its operation and its
operands, exactly as they were given, if and only if what the encoder takes on trust holds; the displacement
of a branch is the one to the place of its label.  Otherwise numbers of registers are reduced to five
bits and conditions to four, unless the end of a bit field is wrapped. -/
theorem assemble_shows_operands (h : assemble lines = .ok prog)
    (hst : StandsAt Instr.encode 0 lines pos (.instr i)) (hone : i.OneWord) :
    ∃ (w : UInt32) (rel : Int), fetch prog.code pos = some w ∧
      (∀ b, i.branch? = some b →
        ∃ t : Nat, StandsAt Instr.encode 0 lines t (.mark b.label) ∧ pos + rel = t) ∧
      (Command.ofWord w = i.command rel ↔ i.Trusted) ∧
      (i.FieldFits → Command.ofWord w = i.reduced.command rel) := by
  obtain ⟨w, w', rel, hpre, hw, hfetch, hfill, hlabel⟩ := word_of_assemble h hst hone
  have hshows := Instr.shows hone hpre hw hfill
  refine ⟨w', rel, hfetch, hlabel, ⟨Instr.trusted_of_shows, fun ht => ?_⟩, hshows⟩
  rw [hshows ht.fieldFits, ht.reduced_eq]

/-- a branch back over a bit field -/
theorem assemble_shows_operands_loop :
    ∃ prog, assemble [.mark "l", .instr (.ubfx (.x 1) (.x 2) 4 8), .instr (.jumpIf condLO "l")] = .ok prog ∧
      ∃ (w : UInt32) (rel : Int), fetch prog.code 4 = some w ∧
        (∃ t : Nat, StandsAt Instr.encode 0 [.mark "l", .instr (.ubfx (.x 1) (.x 2) 4 8),
          .instr (.jumpIf condLO "l")] t (.mark "l") ∧ 4 + rel = t) ∧
        Command.ofWord w = some ⟨.sys .jumpIf, [3, rel]⟩ := by
  refine ⟨_, rfl, ?_⟩
  have hst : StandsAt Instr.encode 0
      [.mark "l", .instr (.ubfx (.x 1) (.x 2) 4 8), .instr (.jumpIf condLO "l")] 4
      (.instr (.jumpIf condLO "l")) := ⟨[.mark "l", .instr (.ubfx (.x 1) (.x 2) 4 8)], [], rfl, rfl⟩
  obtain ⟨w, rel, hfetch, hlabel, hshows, -⟩ := assemble_shows_operands rfl hst trivial
  exact ⟨w, rel, hfetch, hlabel ⟨.imm19, "l"⟩ rfl, hshows.mpr (show (3 : Nat) < 16 by decide)⟩

/-- the end of this field is wrapped, and the word is no bit field any more -/
example : assemble [.instr (.ubfx (.x 0) (.x 1) 1 0xFFFFFFFF)] = .ok ⟨wordBytes 0xFFFFFC20, []⟩ ∧
    Command.ofWord 0xFFFFFC20 = none := ⟨rfl, by decide +kernel⟩

end

end TreeJit.A64
