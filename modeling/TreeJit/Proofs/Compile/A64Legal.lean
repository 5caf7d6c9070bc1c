import TreeJit.Compile.Backend
import TreeJit.Proofs.A64.Accepts
import TreeJit.Proofs.Compile.Blocks
import TreeJit.Proofs.SSA.Layout

/-!
# Which functions compile for AArch64

A typed function for which there are registers, and whose frame is not too large, has AArch64 code
unless a branch is too far away, with one exception (`compile_a64_cases`).  An access to a home is
chosen for the 8 bytes of the home, but a float of single precision is loaded and stored in 4 bytes,
and the immediate offset of such an access ends at 16380: a home behind that and up to 32760 is
addressed directly and refused (`Func.NarrowHome`).

* `Instr.Taken`             there is an encoding, but for such a home;
* `plain_spAccess`          an access that is as wide as it is judged for has an encoding;
* `plain_loadFloat`         so has the access to the home of a float, but for such a home;
* `lowerStep_cases`         the lines of a typed step, or the one reason why there are none;
* `lower_ok`                the lines of a function.
-/

namespace TreeJit.SSA

/-- an offset where a single-precision float lives that four bytes cannot hold and eight can -/
def Func.NarrowHome (f : Func) (disp : Int32) : Prop :=
  ∃ v, f.values[v]? = some .f32 ∧ (f.frame 0).home v = disp ∧ 16384 ≤ disp.toInt ∧ disp.toInt ≤ 32760

theorem Func.values_of_typeOf {f : Func} {v : ValueNo} {t : Ty} (ht : t.isValid = true)
    (h : f.typeOf v = t) : f.values[v]? = some t := by
  rw [Func.typeOf, if_neg (by omega), Int.toNat_natCast, Array.getD_eq_getD_getElem?] at h
  cases e : f.values[v]? with
  | none =>
    rw [e] at h
    subst h
    cases ht
  | some u =>
    rw [e] at h
    exact congrArg some h

theorem Func.HasTypes.typeOf {f : Func} {v : ValueNo} {t : Ty} (h : f.HasTypes [v] [t]) :
    f.typeOf v = t := Func.typeOf_eq (Func.HasTypes.singleton_iff.mp h)

end TreeJit.SSA

namespace TreeJit.A64

open SSA

def Instr.symbol? : Instr → Option String
  | .movSymbol _ name => some name
  | _ => none

/-- an instruction has an encoding wherever it stands, unless it accesses a narrow home -/
def Instr.Taken (f : Func) (i : Instr) : Prop :=
  ∀ pos, (∃ c, i.encode pos = .ok c) ∨
    ∃ disp, f.NarrowHome disp ∧ i.encode pos = .error (.offset disp 4)

theorem Instr.Sound.taken {f : Func} {i : Instr} (h : i.Sound) : i.Taken f :=
  fun pos => .inl (h.accepted pos)

theorem Instr.encode_symbol {pos : Nat} {i : Instr} {c : Chunk} (h : i.encode pos = .ok c) :
    (c.symbol.map fun x => x.2.1) = i.symbol? := by
  unfold Instr.encode at h
  cases hp : i.precheck with
  | error e =>
    rw [hp] at h
    cases h
  | ok u =>
    rw [hp] at h
    cases i with
    | movImm | movSymbol | align =>
      cases h
      rfl
    | _ =>
      simp only [bind, Except.bind] at h
      split at h
      · cases h
      · cases h
        rfl

theorem Instr.encode_label {pos : Nat} {i : Instr} {c : Chunk} (h : i.encode pos = .ok c) :
    c.branch.map Branch.label = i.label? := by
  obtain ⟨-, -, hb, -⟩ := Instr.encode_words h
  rw [hb]
  cases i <;> rfl

end TreeJit.A64

namespace TreeJit.Compile.A64

open SSA TreeJit.A64

/-! ## single instructions -/

abbrev Plain (f : Func) (i : Instr) : Prop := i.Taken f ∧ i.label? = none ∧ i.symbol? = none

abbrev PlainCode (f : Func) (is : List Instr) : Prop :=
  Compile.PlainCode Instr.label? Instr.symbol? (Instr.Taken f) is

theorem plain_of_sound {f : Func} {i : Instr} (h : i.Sound) (hl : i.label? = none)
    (hs : i.symbol? = none) : Plain f i := ⟨h.taken, hl, hs⟩

theorem isReg_scratch0 : IsReg scratch0 := by decide
theorem isReg_scratch1 : IsReg scratch1 := by decide
theorem isReg_addrTemp : IsReg addrTemp := by decide

theorem isReg_index {n : Nat} (h : n < 8) : IsReg n :=
  ⟨Int.natCast_nonneg n, Int.ofNat_le.mpr (Nat.le_of_lt (Nat.lt_trans h (by decide)))⟩

theorem vreg_le {n : Nat} (h : n < 8) : UInt8.ofNat n ≤ 31 := by
  rw [UInt8.le_iff_toNat_le, UInt8.toNat_ofNat', Nat.mod_eq_of_lt (by omega)]
  show n ≤ 31
  omega

theorem toNat_toUInt32 {i : Int32} (h : 0 ≤ i.toInt) : (i.toUInt32.toNat : Int) = i.toInt := by
  have e : i.toUInt32.toNat = i.toBitVec.toNat := rfl
  have hi := BitVec.toInt_eq_toNat_cond i.toBitVec
  have h' : 0 ≤ i.toBitVec.toInt := h
  have hlt := i.toBitVec.isLt
  rw [e]
  show _ = i.toBitVec.toInt
  omega

section
variable {f : Func} {r s : RegId} {m : Mem} {x y : VReg}

theorem plain_load {n : Nat} (hr : IsReg r) (hn : n ∈ [1, 2, 4, 8]) (hm : m.Reaches n) :
    Plain f (.load (.x r) m n) :=
  plain_of_sound ⟨Reg.sound_x hr, fun _ => rfl, n, rfl, hn, hm⟩ rfl rfl

theorem plain_store {n : Nat} (hr : IsReg r) (hn : n ∈ [1, 2, 4, 8]) (hm : m.Reaches n) :
    Plain f (.store m (.x r) n) := plain_of_sound ⟨Reg.sound_x hr, n, rfl, hn, hm⟩ rfl rfl

theorem plain_loadFP {n : Nat} (hx : x ≤ 31) (hn : n ∈ [4, 8, 16]) (hm : m.Reaches n) :
    Plain f (.loadFP x m n) := plain_of_sound ⟨hx, n, rfl, hn, hm⟩ rfl rfl

theorem plain_storeFP {n : Nat} (hx : x ≤ 31) (hn : n ∈ [4, 8, 16]) (hm : m.Reaches n) :
    Plain f (.storeFP m x n) := plain_of_sound ⟨hx, n, rfl, hn, hm⟩ rfl rfl

theorem plain_movImm (hr : IsReg r) (v : Int64) : Plain f (.movImm (.x r) v) :=
  plain_of_sound (Reg.sound_x hr) rfl rfl

theorem plain_addSP : Plain f (.addSP (.x r) (.x s)) := plain_of_sound ⟨rfl, rfl⟩ rfl rfl

theorem plain_reg3 {op : RegOp} {d : RegId} (hd : IsReg d) (hr : IsReg r) (hs : IsReg s) :
    Plain f (.reg3 op (.x d) (.x r) (.x s)) :=
  plain_of_sound ⟨Reg.sound_x hd, Reg.sound_x hr, Reg.sound_x hs, rfl, rfl⟩ rfl rfl

theorem plain_cset (hr : IsReg r) (cond : Cond) : Plain f (.cset (.x r) cond) :=
  plain_of_sound (Reg.sound_x hr) rfl rfl

theorem plain_normalize (hr : IsReg r) (t : Ty) : PlainCode f (normalize r t) := by
  intro i hi
  cases t with
  | i8 | i16 =>
    rw [List.mem_singleton.mp hi]
    exact plain_of_sound ⟨hr, hr⟩ rfl rfl
  | i32 =>
    rw [List.mem_singleton.mp hi]
    exact plain_of_sound ⟨Reg.sound_w hr, Reg.sound_w hr, rfl⟩ rfl rfl
  | _ => cases hi

/-! ## accesses -/

theorem plain_spAccess_of {disp : Int32} {n : Nat} {access : Mem → Instr}
    (hnear : encodable disp n = true → Plain f (access (.at sp disp)))
    (hfar : Plain f (access (.at addrTemp 0))) : PlainCode f (spAccess disp n access) := by
  unfold spAccess
  split
  · exact .cons (hnear ‹_›) .nil
  · exact .cons (plain_movImm isReg_addrTemp _) (.cons plain_addSP (.cons hfar .nil))

def Places (f : Func) (place : Nat → (Mem → Instr) → List Instr) : Prop :=
  ∀ n access, n ∈ accessWidths → (∀ m : Mem, m.Reaches n → Plain f (access m)) →
    PlainCode f (place n access)

theorem plain_spAccess (disp : Int32) : Places f (spAccess disp) := fun _ _ hn h =>
  plain_spAccess_of (fun he => h _ (Mem.reaches_at isReg_sp he))
    (h _ (Mem.reaches_at isReg_addrTemp (encodable_zero hn)))

theorem plain_ptrAccess {base : RegId} (hb : IsReg base) (disp : Int32) :
    Places f (ptrAccess base disp) := by
  intro n access hn h
  unfold ptrAccess
  split
  · exact .cons (h _ (Mem.reaches_at hb ‹_›)) .nil
  · exact .cons (plain_movImm isReg_addrTemp _)
      (.cons (plain_reg3 isReg_addrTemp hb isReg_addrTemp)
        (.cons (h _ (Mem.reaches_at isReg_addrTemp (encodable_zero hn))) .nil))

end

/-! ## homes -/

section
variable {f : Func} {c : Ctx} {r : RegId} {x : VReg} {v : ValueNo}

theorem homeWidth_mem (t : Ty) : homeWidth t ∈ accessWidths := by
  unfold homeWidth
  split <;> decide

theorem bytes_mem {t : Ty} (h : t.isValid = true) : t.bytes ∈ accessWidths := by
  cases t <;> first | decide | cases h

theorem bytes_mem_of_ne {t : Ty} (h : t.isValid = true) (hn : t.bytes ≠ 16) :
    t.bytes ∈ [1, 2, 4, 8] := by
  cases t <;> first | decide | exact absurd h Bool.false_ne_true | exact absurd rfl hn

theorem plain_atHome {access : Mem → Instr}
    (h : ∀ m : Mem, m.Reaches (homeWidth (c.fn.typeOf v)) → Plain f (access m)) :
    PlainCode f (c.atHome v access) := plain_spAccess _ _ _ (homeWidth_mem _) h

theorem plain_loadInt (hr : IsReg r) (hv : (c.fn.typeOf v).isVector = false) :
    PlainCode f (c.loadInt r v) := by
  refine plain_atHome fun m hm => plain_load (n := 8) hr (by decide) ?_
  rwa [homeWidth, hv] at hm

theorem plain_storeInt (hr : IsReg r) (hv : (c.fn.typeOf v).isVector = false) :
    PlainCode f (c.storeInt v r) := by
  refine plain_atHome fun m hm => plain_store (n := 8) hr (by decide) ?_
  rwa [homeWidth, hv] at hm

/-- an access to the home of a float or vector: it is as wide as the home, or four bytes wide -/
theorem plain_floatHome (access : Mem → Nat → Instr) (hfn : c.fn = f) (hframe : c.frame = f.frame 0)
    (h : ∀ m n, n ∈ [4, 8, 16] → Mem.Reaches m n → Plain f (access m n))
    (hl : ∀ m n, (access m n).label? = none ∧ (access m n).symbol? = none)
    (hnarrow : ∀ disp pos, encodable disp 4 = false →
      (access (.at sp disp) 4).encode pos = .error (.offset disp 4)) :
    PlainCode f (c.atHome v fun m => access m (floatWidth (c.fn.typeOf v))) := by
  by_cases hvec : (c.fn.typeOf v).isVector = true
  · refine plain_atHome fun m hm => ?_
    rw [homeWidth, if_pos hvec] at hm
    rw [floatWidth, if_pos hvec]
    exact h m 16 (by decide) hm
  by_cases h32 : c.fn.typeOf v = .f32
  · -- the offset is judged for eight bytes, and four are accessed
    rw [h32]
    refine plain_spAccess_of (fun h8 => ?_)
      (h _ 4 (by decide) (Mem.reaches_at isReg_addrTemp (encodable_zero (by decide))))
    rw [h32] at h8
    cases h4 : encodable (c.frame.home v) 4 with
    | true => exact h _ 4 (by decide) (Mem.reaches_at isReg_sp h4)
    | false =>
      obtain ⟨hlo, hhi⟩ := narrow_range h8 h4
      refine ⟨fun pos => .inr ⟨c.frame.home v, ⟨v, ?_, by rw [hframe], hlo, hhi⟩, hnarrow _ pos h4⟩, hl _ _⟩
      rw [hfn] at h32
      exact Func.values_of_typeOf rfl h32
  · refine plain_atHome fun m hm => ?_
    rw [homeWidth, if_neg hvec] at hm
    rw [floatWidth, if_neg hvec, if_neg h32]
    exact h m 8 (by decide) hm

variable (hfn : c.fn = f) (hframe : c.frame = f.frame 0)
include hfn hframe

theorem plain_loadFloat (hx : x ≤ 31) (v : ValueNo) : PlainCode f (c.loadFloat x v) :=
  plain_floatHome (fun m n => .loadFP x m n) hfn hframe
    (fun _ _ hn hm => plain_loadFP hx hn hm) (fun _ _ => ⟨rfl, rfl⟩)
    fun _ pos h4 => Instr.loadFP_narrow hx isReg_sp h4 pos

theorem plain_storeFloat (hx : x ≤ 31) (v : ValueNo) : PlainCode f (c.storeFloat v x) :=
  plain_floatHome (fun m n => .storeFP m x n) hfn hframe
    (fun _ _ hn hm => plain_storeFP hx hn hm) (fun _ _ => ⟨rfl, rfl⟩)
    fun _ pos h4 => Instr.storeFP_narrow hx isReg_sp h4 pos

omit hfn hframe in
theorem plain_copy (t : Ty) (dst src : Int32) : PlainCode f (copy t dst src) := by
  unfold copy
  split
  · exact .append
      (plain_spAccess src 16 _ (by decide) fun m hm => plain_loadFP (n := 16) (by decide) (by decide) hm)
      (plain_spAccess dst 16 _ (by decide) fun m hm => plain_storeFP (n := 16) (by decide) (by decide) hm)
  · exact .append
      (plain_spAccess src 8 _ (by decide) fun m hm => plain_load (n := 8) isReg_scratch0 (by decide) hm)
      (plain_spAccess dst 8 _ (by decide) fun m hm => plain_store (n := 8) isReg_scratch0 (by decide) hm)

theorem plain_spill {loc : RegLoc} (hl : loc.index < 8)
    (hv : loc.file = .int → (c.fn.typeOf v).isVector = false) : PlainCode f (c.spill v loc) := by
  unfold Ctx.spill
  split
  · exact .append (plain_normalize (isReg_index hl) _) (plain_storeInt (isReg_index hl) (hv ‹_›))
  · exact plain_storeFloat hfn hframe (vreg_le hl) v

theorem plain_unspill {loc : RegLoc} (hl : loc.index < 8)
    (hv : loc.file = .int → (c.fn.typeOf v).isVector = false) : PlainCode f (c.unspill v loc) := by
  unfold Ctx.unspill
  split
  · exact plain_loadInt (isReg_index hl) (hv ‹_›)
  · exact plain_loadFloat hfn hframe (vreg_le hl) v

/-! ## memory and operations -/

theorem plain_loadFrom {t : Ty} (ht : t.isValid = true) {place : Nat → (Mem → Instr) → List Instr}
    (hp : Places f place) {dst : ValueNo} (hd : c.fn.typeOf dst = t) :
    PlainCode f (c.loadFrom t place dst) := by
  unfold Ctx.loadFrom
  by_cases h16 : t.bytes = 16
  · simp only [h16, if_true]
    exact .append (hp 16 _ (by decide) fun m hm => plain_loadFP (n := 16) (by decide) (by decide) hm)
      (plain_storeFloat hfn hframe (by decide) dst)
  · simp only [h16, if_false]
    have hvec : (c.fn.typeOf dst).isVector = false := by
      rw [hd]
      cases t <;> first | rfl | exact absurd rfl h16
    refine .append (hp _ _ (bytes_mem ht) fun m hm => ?_) (plain_storeInt isReg_scratch0 hvec)
    refine plain_of_sound ⟨?_, fun h8 => ?_, t.bytes, rfl, bytes_mem_of_ne ht h16, hm⟩ rfl rfl
    · split
      · exact Reg.sound_x isReg_scratch0
      · exact Reg.sound_w isReg_scratch0
    · rw [if_pos (Int.ofNat_inj.mp h8)]
      rfl

theorem plain_storeTo {t : Ty} (ht : t.isValid = true) {place : Nat → (Mem → Instr) → List Instr}
    (hp : Places f place) {src : ValueNo} (hs : c.fn.typeOf src = t) :
    PlainCode f (c.storeTo t place src) := by
  unfold Ctx.storeTo
  by_cases h16 : t.bytes = 16
  · simp only [h16, if_true]
    exact .append (plain_loadFloat hfn hframe (by decide) src)
      (hp 16 _ (by decide) fun m hm => plain_storeFP (n := 16) (by decide) (by decide) hm)
  · simp only [h16, if_false]
    have hvec : (c.fn.typeOf src).isVector = false := by
      rw [hs]
      cases t <;> first | rfl | exact absurd rfl h16
    exact .append (plain_loadInt isReg_scratch0 hvec)
      (hp _ _ (bytes_mem ht) fun m hm => plain_store isReg_scratch0 (bytes_mem_of_ne ht h16) hm)

theorem plain_binary {op : BinOp} {t : Ty} (h : op.allows t = true) {u v dst : ValueNo}
    (hu : c.fn.typeOf u = t) (hv : c.fn.typeOf v = t) (hd : c.fn.typeOf dst = t) :
    ∃ is, c.binary op t u v dst = .ok is ∧ PlainCode f is := by
  unfold Ctx.binary
  by_cases ht : t.isInt = true
  · rw [if_pos ht]
    have hop : ∃ o, scalarIntOp? op = some o := by
      cases op with
      | fadd | fsub | fmul | fdiv => cases t <;> cases h <;> cases ht
      | _ => exact ⟨_, rfl⟩
    have hint : t.isVector = false := by cases t <;> first | rfl | cases ht
    obtain ⟨o, ho⟩ := hop
    rw [ho]
    refine ⟨_, rfl, .append (.append (.append (.append ?_ ?_) ?_) (plain_normalize isReg_scratch0 t)) ?_⟩
    · exact plain_loadInt isReg_scratch0 (by rw [hu, hint])
    · exact plain_loadInt isReg_scratch1 (by rw [hv, hint])
    · exact .cons (plain_reg3 isReg_scratch0 isReg_scratch0 isReg_scratch1) .nil
    · exact plain_storeInt isReg_scratch0 (by rw [hd, hint])
  · rw [if_neg ht]
    have hop : ∃ i, floatOrVector? op t = some i ∧ Plain f i := by
      cases op <;> cases t <;>
        first
          | exact absurd h Bool.false_ne_true
          | exact absurd rfl ht
          | exact ⟨_, rfl, plain_of_sound ⟨by decide, by decide, by decide⟩ rfl rfl⟩
    obtain ⟨i, hi, hpi⟩ := hop
    rw [hi]
    refine ⟨_, rfl, .append (.append (.append ?_ ?_) (.cons hpi .nil)) ?_⟩
    · exact plain_loadFloat hfn hframe (by decide) u
    · exact plain_loadFloat hfn hframe (by decide) v
    · exact plain_storeFloat hfn hframe (by decide) dst

omit hfn hframe in
theorem plain_icmp (cc : IntCond) {t : Ty} {u v dst : ValueNo} (hu : (c.fn.typeOf u).isVector = false)
    (hv : (c.fn.typeOf v).isVector = false) (hd : (c.fn.typeOf dst).isVector = false) :
    PlainCode f (c.icmp cc t u v dst) := by
  have hcmp : Plain f (if t = .i32 then .cmp (.w scratch0) (.w scratch1)
      else .cmp (.x scratch0) (.x scratch1)) := by
    split
    · exact plain_of_sound ⟨Reg.sound_w isReg_scratch0, Reg.sound_w isReg_scratch1, rfl⟩ rfl rfl
    · exact plain_of_sound ⟨Reg.sound_x isReg_scratch0, Reg.sound_x isReg_scratch1, rfl⟩ rfl rfl
  refine .append (.append (.append ?_ ?_) ?_) (plain_storeInt isReg_scratch0 hd)
  · exact plain_loadInt isReg_scratch0 hu
  · exact plain_loadInt isReg_scratch1 hv
  · exact .cons hcmp (.cons (plain_cset isReg_scratch0 _) .nil)

omit hfn hframe in
theorem plain_laneCompare (cc : FloatCond) : PlainCode f (laneCompare cc) := by
  have hvec : ∀ op {a b : VReg}, a ≤ 31 → b ≤ 31 → Plain f (.vec3 op vscratch0 a b) :=
    fun op _ _ ha hb => plain_of_sound ⟨by decide, ha, hb⟩ rfl rfl
  have hnot : Plain f (.not16b vscratch0 vscratch0) := plain_of_sound ⟨by decide, by decide⟩ rfl rfl
  cases cc with
  | ne => exact .cons (hvec _ (by decide) (by decide)) (.cons hnot .nil)
  | _ => exact .cons (hvec _ (by decide) (by decide)) .nil

theorem plain_fcmp (cc : FloatCond) {t : Ty} {u v dst : ValueNo}
    (hd : t.isVector = false → (c.fn.typeOf dst).isVector = false) :
    PlainCode f (c.fcmp cc t u v dst) := by
  refine .append (.append ?_ ?_) ?_
  · exact plain_loadFloat hfn hframe (by decide) u
  · exact plain_loadFloat hfn hframe (by decide) v
  split
  · exact .append (plain_laneCompare cc) (plain_storeFloat hfn hframe (by decide) dst)
  · refine .append ?_ (plain_storeInt isReg_scratch0 (hd (Bool.eq_false_iff.mpr ‹_›)))
    exact .cons (plain_of_sound ⟨by decide, by decide⟩ rfl rfl)
      (.cons (plain_cset isReg_scratch0 _) .nil)

theorem plain_splat {t : Ty} (h : t.isVector = true) (dst : ValueNo) {u : ValueNo} (hu : c.fn.typeOf u = t.lane) :
    ∃ is, c.splat t u dst = .ok is ∧ PlainCode f is := by
  have hstore := plain_storeFloat (x := vscratch0) hfn hframe (by decide) dst
  cases t with
  | f64x2 =>
    refine ⟨_, rfl, .append (.append (plain_loadFloat hfn hframe (by decide) u) ?_) hstore⟩
    exact .cons (plain_of_sound ⟨by decide, by decide⟩ rfl rfl) .nil
  | i64x2 =>
    refine ⟨_, rfl, .append (.append (plain_loadInt isReg_scratch0 (by rw [hu]; rfl)) ?_) hstore⟩
    exact .cons (plain_of_sound ⟨by decide, rfl⟩ rfl rfl) .nil
  | i8 | i16 | i32 | i64 | f32 | f64 | invalid => cases h

omit hfn hframe in
theorem plain_transfer (t : Target) : PlainCode f (c.transfer t) := by
  refine .append (.flatten fun is his => ?_) (.flatten fun is his => ?_)
  · obtain ⟨k, hk, rfl⟩ := List.mem_mapIdx.mp his
    exact plain_copy _ _ _
  · obtain ⟨k, hk, rfl⟩ := List.mem_mapIdx.mp his
    exact plain_copy _ _ _

omit hfn hframe in
theorem plain_stackAddr (off : Int32) {dst : ValueNo} (hd : (c.fn.typeOf dst).isVector = false) :
    PlainCode f (c.stackAddr off dst) := by
  refine .append ?_ (plain_storeInt isReg_scratch0 hd)
  split
  · rename_i h
    refine .cons (plain_of_sound ⟨Reg.sound_x isReg_scratch0, Reg.sound_x isReg_sp, rfl, ?_⟩ rfl rfl) .nil
    have h0 : 0 ≤ off.toInt := Int32.le_iff_toInt_le.mp h.1
    have h1 : off.toInt ≤ 0xFFF := Int32.le_iff_toInt_le.mp h.2
    have hn := toNat_toUInt32 h0
    rw [UInt32.le_iff_toNat_le]
    show off.toUInt32.toNat ≤ 0xFFF
    omega
  · exact .cons (plain_movImm isReg_scratch0 _) (.cons plain_addSP .nil)

end

/-! ## calls and returns -/

theorem proper_params : paramLimits.Proper := fun c => by
  cases c
  · exact ⟨by decide, .inl rfl⟩
  · exact ⟨by decide, .inl rfl⟩

theorem proper_results : resultLimits.Proper := fun c => by
  cases c
  · exact ⟨by decide, .inr rfl⟩
  · exact ⟨by decide, .inr rfl⟩

theorem isVector_of_isInt {t : Ty} (h : t.isInt = true) : t.isVector = false := by
  cases t <;> first | rfl | cases h

theorem passed {f : Func} {lim : RegLimits} (hlim : lim.Proper) (h8 : ∀ c, lim.limit c ≤ 8)
    {vs : List ValueNo} {ts : List Ty} {ls : List RegLoc} (hp : passing lim ts = .ok ls)
    (hv : f.HasTypes vs ts) {v : ValueNo} {loc : RegLoc} (hm : (v, loc) ∈ vs.zip ls) :
    loc.index < 8 ∧ (loc.file = .int → (f.typeOf v).isVector = false) := by
  obtain ⟨k, hk⟩ := List.mem_iff_getElem?.mp hm
  obtain ⟨hkv, hkl⟩ := List.getElem?_zip_eq_some.mp hk
  obtain ⟨t, ht, hval⟩ := hv.get hkv
  have hget := (passing_get (fun c => (hlim c).1) hp).2 k t ht
  have hlt := passing_lt (fun c => (hlim c).1) hp loc (List.mem_of_getElem? hkl)
  refine ⟨by have := h8 loc.file; omega, fun hf => ?_⟩
  rw [(Func.HasTypes.singleton_iff.mpr hval).typeOf]
  rw [hkl] at hget
  cases hget
  refine isVector_of_isInt ?_
  simp only [Ty.regClass] at hf
  split at hf
  · assumption
  · cases hf

theorem params_le (c : RegClass) : paramLimits.limit c ≤ 8 := by cases c <;> decide

theorem results_le (c : RegClass) : resultLimits.limit c ≤ 8 := by cases c <;> decide

/-! ## steps -/

section
variable {f : Func} {c : Ctx} {N : String → Prop}

/-- lines that mark, name and refer to what they should -/
abbrev Lowered (f : Func) (N : String → Prop) (ls : List (Line Instr))
    (marks symbols : List String) : Prop :=
  Describes Instr.label? Instr.symbol? (Instr.Taken f) N ls marks symbols

theorem lowered_goto {t : Target} (h : N (blockLabel t.block)) :
    Lowered f N (c.goto t) [] [] := by
  have hjump : Lowered f N [.instr (.jump (blockLabel t.block))] [] [] :=
    .instr (Instr.Sound.taken trivial) fun l hl => by
      cases hl
      exact h
  rw [Ctx.goto, code, List.map_append]
  exact (plain_transfer t).lowered.append hjump

theorem lowered_brif {b : Nat} {cond : ValueNo} {yes no : Target} (hb : N (elseLabel b))
    (hc : (c.fn.typeOf cond).isVector = false) (hy : N (blockLabel yes.block))
    (hn : N (blockLabel no.block)) : Lowered f N (c.brif b cond yes no) [elseLabel b] [] := by
  have hjump : Lowered f N [.instr (.jumpIfZero (.x scratch0) (elseLabel b))] [] [] :=
    .instr (Instr.Sound.taken (Reg.sound_x isReg_scratch0)) fun l hl => by
      cases hl
      exact hb
  have htest : Lowered f N
      (code (c.loadInt scratch0 cond ++ [.jumpIfZero (.x scratch0) (elseLabel b)])) [] [] := by
    rw [code, List.map_append]
    exact (plain_loadInt isReg_scratch0 hc).lowered.append hjump
  exact ((htest.append (lowered_goto hy)).append (.mark _)).append (lowered_goto hn)

variable (hfn : c.fn = f) (hframe : c.frame = f.frame 0)
include hfn hframe

/-- a call is lowered if its signature fits, and that is all that can be wrong -/
theorem call_cases {n : Nat} {args results : List ValueNo} {ext : Import}
    (he : f.imports[n]? = some ext) (hname : ext.name ≠ "") (ha : f.HasTypes args ext.sig.params)
    (hres : f.HasTypes results ext.sig.returns) :
    (∃ is, c.call n args results = .ok is ∧ ext.sig.Passable paramLimits resultLimits ∧
      Lowered f N (code is) [] [ext.name]) ∨
    ∃ g, c.call n args results = .error (.call ext.name g) ∧ g.Overflow ∧
      ¬ ext.sig.Passable paramLimits resultLimits := by
  have hget : c.fn.imports.getD n ⟨"", .empty⟩ = ext := by
    rw [hfn, Array.getD_eq_getD_getElem?, he, Option.getD_some]
  simp only [Ctx.call, hget]
  rcases ext.sig.passing_cases proper_params proper_results with
    ⟨ins, outs, hp, hr, hfit⟩ | ⟨g, hg, hno, hp | ⟨ins, hp, hr⟩⟩
  · rw [hp, hr]
    refine .inl ⟨_, rfl, hfit, ?_⟩
    have hload : PlainCode f ((args.zip ins).flatMap fun m => c.unspill m.1 m.2) :=
      .flatMap fun ⟨v, loc⟩ hm => by
        obtain ⟨hi, hv⟩ := passed proper_params params_le hp ha hm
        exact plain_unspill hfn hframe hi (hfn ▸ hv)
    have hstore : PlainCode f ((results.zip outs).flatMap fun m => c.spill m.1 m.2) :=
      .flatMap fun ⟨v, loc⟩ hm => by
        obtain ⟨hi, hv⟩ := passed proper_results results_le hr hres hm
        exact plain_spill hfn hframe hi (hfn ▸ hv)
    have hsym : Lowered f N [.instr (.movSymbol (.x callTarget) ext.name)] [] [ext.name] :=
      .instr (Instr.Sound.taken ⟨rfl, hname⟩) nofun
    have hcall : Lowered f N
        (code [.movSymbol (.x callTarget) ext.name, .call (.x callTarget)]) [] [ext.name] :=
      hsym.append (PlainCode.lowered (.cons (plain_of_sound (i := .call (.x callTarget)) rfl rfl rfl) .nil))
    have := (hload.lowered.append hcall).append hstore.lowered
    simpa only [code, ← List.map_append, List.append_assoc, List.nil_append, List.append_nil]
      using this
  · rw [hp]
    exact .inr ⟨g, rfl, hg, hno⟩
  · rw [hp, hr]
    exact .inr ⟨g, rfl, hg, hno⟩

theorem plain_ret {args : List ValueNo} (ha : f.HasTypes args f.sig.returns)
    (hr : passing resultLimits f.sig.returns = .ok c.returns) : PlainCode f (c.ret args) := by
  refine .append (.flatMap fun ⟨v, loc⟩ hm => ?_) ?_
  · obtain ⟨hi, hv⟩ := passed proper_results results_le hr ha hm
    exact plain_unspill hfn hframe hi (hfn ▸ hv)
  · have hmove : Plain f (.addImm (.x sp) (.x framePointer) 0 false) :=
      plain_of_sound ⟨by decide, by decide, rfl, by decide⟩ rfl rfl
    exact .cons hmove (.cons (plain_of_sound (i := .popFrame) trivial rfl rfl)
      (.cons (plain_of_sound (i := .ret) trivial rfl rfl) .nil))

/-- **The lines of a typed step**, or the one reason why there are none -/
theorem lowerStep_cases (hf : f.WellFormed) (hn : f.ImportsNamed)
    (hr : passing resultLimits f.sig.returns = .ok c.returns) {b : Nat} {blk : Block}
    (hb : f.blocks[b]? = some blk) {s : Step} (hs : s ∈ blk.steps.toList) :
    (∃ ls, c.lowerStep b s = .ok ls ∧ f.CallPassable paramLimits resultLimits s ∧
      Lowered f (· ∈ f.labels) ls (elsesOf b s) (f.calledName? s).toList) ∨
    ∃ e, c.lowerStep b s = .error e ∧ (∃ name g, e = .call name g ∧ g.Overflow) ∧
      ¬ f.CallPassable paramLimits resultLimits s := by
  obtain ⟨rs, ht, hres⟩ := hf.typed b blk hb s hs
  obtain ⟨inst, results⟩ := s
  have htype : ∀ {v t}, f.HasTypes [v] [t] → c.fn.typeOf v = t := fun h => hfn ▸ h.typeOf
  have hpair : ∀ {u v s t}, f.HasTypes [u, v] [s, t] → c.fn.typeOf u = s ∧ c.fn.typeOf v = t :=
    fun h => ⟨htype (Func.HasTypes.singleton_iff.mpr (Func.HasTypes.pair_iff.mp h).1),
      htype (Func.HasTypes.singleton_iff.mpr (Func.HasTypes.pair_iff.mp h).2)⟩
  have hdst : ∀ {t}, rs = [t] → c.fn.typeOf (results.headD 0) = t := by
    rintro t rfl
    cases results with
    | nil => cases hres
    | cons d ds => exact htype (Func.HasTypes.singleton_iff.mpr (Func.HasTypes.cons_iff.mp hres).1)
  have hvalid : ∀ {v : ValueNo} {t : Ty}, f.values[v]? = some t → t.isValid = true := fun h =>
    hf.valid _ (Array.mem_toList_iff.mpr (Array.mem_of_getElem? h))
  cases inst with
  | iconst t bits =>
    refine .inl ⟨_, rfl, nofun, PlainCode.lowered (.cons (plain_movImm isReg_scratch0 _) ?_)⟩
    exact plain_storeInt isReg_scratch0 (by rw [hdst ht.2.2]; exact isVector_of_isInt ht.1)
  | fconst t bits =>
    refine .inl ⟨_, rfl, nofun, PlainCode.lowered (.cons (plain_movImm isReg_scratch0 _) ?_)⟩
    refine plain_storeInt isReg_scratch0 ?_
    rw [hdst ht.2.2]
    have hfl := ht.1
    cases t <;> first | rfl | cases hfl
  | binary op t x y =>
    obtain ⟨hop, hxy, hrs⟩ := ht
    obtain ⟨hx, hy⟩ := hpair hxy
    obtain ⟨is, hi, hp⟩ := plain_binary hfn hframe hop hx hy (hdst hrs)
    refine .inl ⟨code is, ?_, nofun, hp.lowered⟩
    simp only [Ctx.lowerStep, hi]
    rfl
  | icmp cc t x y =>
    obtain ⟨hwide, hxy, hrs⟩ := ht
    obtain ⟨hx, hy⟩ := hpair hxy
    have hvec : t.isVector = false := by cases t <;> first | rfl | cases hwide
    exact .inl ⟨_, rfl, nofun,
      (plain_icmp cc (by rw [hx, hvec]) (by rw [hy, hvec]) (by rw [hdst hrs]; rfl)).lowered⟩
  | fcmp cc t x y =>
    refine .inl ⟨_, rfl, nofun, (plain_fcmp hfn hframe cc fun hvec => ?_).lowered⟩
    rw [hdst ht.2.2]
    cases t <;> first | rfl | cases hvec
  | splat t x =>
    obtain ⟨is, hi, hp⟩ := plain_splat hfn hframe ht.1 (results.headD 0) (htype ht.2.1)
    refine .inl ⟨code is, ?_, nofun, hp.lowered⟩
    simp only [Ctx.lowerStep, hi]
    rfl
  | extractLane t x lane => exact .inl ⟨_, rfl, nofun, (plain_copy _ _ _).lowered⟩
  | load t p off =>
    refine .inl ⟨_, rfl, nofun, PlainCode.lowered (.append ?_ ?_)⟩
    · exact plain_loadInt isReg_scratch1 (by rw [htype ht.2.1]; rfl)
    · exact plain_loadFrom hfn hframe ht.1 (plain_ptrAccess isReg_scratch1 off) (hdst ht.2.2)
  | store t x p off =>
    obtain ⟨hx, hp⟩ := hpair ht.1
    refine .inl ⟨_, rfl, nofun, PlainCode.lowered (.append ?_ ?_)⟩
    · exact plain_loadInt isReg_scratch1 (by rw [hp]; rfl)
    · exact plain_storeTo hfn hframe (hvalid (Func.HasTypes.pair_iff.mp ht.1).1)
        (plain_ptrAccess isReg_scratch1 off) hx
  | stackLoad t k off =>
    exact .inl ⟨_, rfl, nofun,
      (plain_loadFrom hfn hframe ht.1 (plain_spAccess _) (hdst ht.2.2)).lowered⟩
  | stackStore t x k off =>
    exact .inl ⟨_, rfl, nofun, (plain_storeTo hfn hframe (hvalid (Func.HasTypes.singleton_iff.mp ht.1))
      (plain_spAccess _) (htype ht.1)).lowered⟩
  | stackAddr k off =>
    exact .inl ⟨_, rfl, nofun, (plain_stackAddr _ (by rw [hdst ht.2]; rfl)).lowered⟩
  | call n args =>
    obtain ⟨ext, he, hargs, rfl⟩ := ht
    have hname : ext.name ≠ "" := hn ext (Array.mem_toList_iff.mpr (Array.mem_of_getElem? he))
    rcases call_cases (N := (· ∈ f.labels)) hfn hframe he hname hargs hres with
      ⟨is, hi, hfits, hl⟩ | ⟨g, hi, hg, hno⟩
    · refine .inl ⟨code is, ?_, (Func.callPassable_iff he).mpr hfits, ?_⟩
      · simp only [Ctx.lowerStep, hi]
        rfl
      · show Lowered f _ _ _ (f.imports[n]?.map Import.name).toList
        rw [he]
        exact hl
    · refine .inr ⟨.call ext.name g, ?_, ⟨ext.name, g, rfl, hg⟩, mt (Func.callPassable_iff he).mp hno⟩
      simp only [Ctx.lowerStep, hi]
      rfl
  | jump t => exact .inl ⟨_, rfl, nofun, lowered_goto ht.1.label_mem⟩
  | brif t cond yes no =>
    obtain ⟨hint, hc, hy, hno, -⟩ := ht
    exact .inl ⟨_, rfl, nofun, lowered_brif (Func.elses_mem hb hs _ List.mem_cons_self)
      (by rw [htype hc]; exact isVector_of_isInt hint) hy.label_mem hno.label_mem⟩
  | ret args => exact .inl ⟨_, rfl, nofun, (plain_ret hfn hframe ht.1 hr).lowered⟩

end

/-! ## functions -/

section
variable {f : Func} (c : Ctx) {N : String → Prop}

theorem lowerSteps_eq (b : Nat) (ss : List Step) : c.lowerSteps b ss = stepsLines (c.lowerStep b) ss := by
  induction ss with
  | nil => rfl
  | cons s ss ih => rw [Ctx.lowerSteps, stepsLines, ih]

theorem lowerBlocks_eq (opts : Options) (b : Nat) (blks : List Block) :
    c.lowerBlocks opts b blks = blocksLines c.lowerStep (padding opts c.fn) b blks := by
  induction blks generalizing b with
  | nil => rfl
  | cons blk blks ih =>
    rw [Ctx.lowerBlocks, blocksLines, ih, Ctx.lowerBlock, lowerSteps_eq]
    cases (stepsLines (c.lowerStep b) blk.steps.toList).mapError (FuncFault.inBlock b) with
    | error e => rfl
    | ok body => rfl

theorem lowered_padding (opts : Options) (g : Func) (b : Nat) :
    Lowered f N (padding opts g b) [] [] := by
  unfold padding
  split
  · have halign : Plain f (.align loopBoundary) := plain_of_sound ⟨by decide, by decide⟩ rfl rfl
    exact (show PlainCode f [.align loopBoundary] from .cons halign .nil).lowered
  · exact .nil

/-- a frame of 24 bits is subtracted in two steps of 12 bits -/
theorem plain_prologue {fr : Frame} (h0 : 0 ≤ fr.size.toInt) (h : fr.size.toInt ≤ 0xFFFFFF) :
    PlainCode f (prologue fr) := by
  have hn := toNat_toUInt32 h0
  have hhi : fr.size.toUInt32 >>> 12 ≤ 0xFFF := by
    rw [UInt32.le_iff_toNat_le, UInt32.toNat_shiftRight]
    show fr.size.toUInt32.toNat >>> 12 ≤ 0xFFF
    rw [Nat.shiftRight_eq_div_pow]
    omega
  have hlo : fr.size.toUInt32 &&& 0xFFF ≤ 0xFFF := by
    rw [UInt32.le_iff_toNat_le, UInt32.toNat_and]
    exact Nat.and_le_right
  have hsub : ∀ imm shift, imm ≤ 0xFFF → Plain f (.subImm (.x sp) (.x sp) imm shift) :=
    fun imm shift hi => plain_of_sound ⟨by decide, by decide, rfl, hi⟩ rfl rfl
  have hpush : PlainCode f [.pushFrame, .addImm (.x framePointer) (.x sp) 0 false] :=
    .cons (plain_of_sound (i := .pushFrame) trivial rfl rfl)
      (.cons (plain_of_sound ⟨by decide, by decide, rfl, by decide⟩ rfl rfl) .nil)
  refine .append (.append hpush ?_) ?_
  · split
    · exact .cons (hsub _ _ hhi) .nil
    · exact .nil
  · split
    · exact .cons (hsub _ _ hlo) .nil
    · exact .nil

end

/-- **What a well-formed function is lowered to**, or that there are no registers for it or for what
it calls, if the word of its frame size is that of a small frame -/
theorem lower_cases_of_word {f : Func} (hf : f.WellFormed) (hn : f.ImportsNamed)
    (h0 : 0 ≤ (f.frame 0).size.toInt) (hsize : (f.frame 0).size.toInt ≤ 0xFFFFFF) (opts : Options) :
    (∃ lines, lower f opts = .ok lines ∧ f.Passable paramLimits resultLimits ∧
      Lowered f (· ∈ f.labels) lines f.labels (f.steps.filterMap f.calledName?)) ∨
    (∃ e, lower f opts = .error e) ∧ ¬ f.Passable paramLimits resultLimits := by
  unfold lower
  rcases f.sig.passing_cases proper_params proper_results with
    ⟨params, returns, hp, hr, hsig⟩ | ⟨g, -, hno, hp | ⟨params, hp, hr⟩⟩
  · obtain ⟨c, hc, hfn, hfr, rfl⟩ : ∃ c : Ctx, { fn := f, frame := f.frame 0, returns } = c ∧
        c.fn = f ∧ c.frame = f.frame 0 ∧ c.returns = returns := ⟨_, rfl, rfl, rfl, rfl⟩
    have hmax : ¬ maxFrame < (f.frame 0).size := by
      rw [Int32.lt_iff_toInt_lt]
      show ¬ (0xFFFFFF : Int) < _
      omega
    rw [hp, hr]
    simp only [bind, Except.bind, Except.mapError, hc, lowerBlocks_eq, hfn, if_neg hmax]
    rcases blocksLines_cases f c.lowerStep (padding opts f)
        (Q := f.CallPassable paramLimits resultLimits) (lowered_padding opts f)
        (fun b blk hb s hs => lowerStep_cases hfn hfr hf hn hr hb hs) with
      ⟨lines, hl, hq, hd⟩ | ⟨b, e, hl, -, hno⟩
    · have hin : PlainCode f (((f.blockParams 0).zip params).flatMap fun m => c.spill m.1 m.2) := by
        obtain ⟨blk, hb, ht⟩ := hf.entry
        rw [Func.blockParams, hb]
        refine .flatMap ?_
        rintro ⟨v, loc⟩ hm
        obtain ⟨hi, hv⟩ := passed proper_params params_le hp ht hm
        exact plain_spill hfn hfr hi (hfn ▸ hv)
      rw [hl]
      exact .inl ⟨_, rfl, ⟨hsig, hq⟩, ((plain_prologue h0 hsize).append hin).lowered.append hd⟩
    · rw [hl]
      exact .inr ⟨⟨_, rfl⟩, fun h => hno h.2⟩
  · rw [hp]
    exact .inr ⟨⟨_, rfl⟩, fun h => hno h.1⟩
  · rw [hp, hr]
    exact .inr ⟨⟨_, rfl⟩, fun h => hno h.1⟩

theorem lower_ok_of_word {f : Func} (hf : f.WellFormed) (hn : f.ImportsNamed)
    (h0 : 0 ≤ (f.frame 0).size.toInt) (hsize : (f.frame 0).size.toInt ≤ 0xFFFFFF)
    (hfit : f.Passable paramLimits resultLimits) (opts : Options) :
    ∃ lines, lower f opts = .ok lines ∧
      Lowered f (· ∈ f.labels) lines f.labels (f.steps.filterMap f.calledName?) := by
  rcases lower_cases_of_word hf hn h0 hsize opts with ⟨lines, hl, -, hd⟩ | ⟨-, hno⟩
  · exact ⟨lines, hl, hd⟩
  · exact absurd hfit hno

theorem lower_ok {f : Func} (hf : f.WellFormed) (hn : f.ImportsNamed)
    (hsize : f.layout.size ≤ 0xFFFFFF) (hfit : f.Passable paramLimits resultLimits) (opts : Options) :
    ∃ lines, lower f opts = .ok lines ∧
      Lowered f (· ∈ f.labels) lines f.labels (f.steps.filterMap f.calledName?) := by
  have hint : (f.frame 0).size.toInt = f.layout.size := by
    rw [hf.size_eq, Int32.toInt_ofNat_of_lt (by omega)]
  exact lower_ok_of_word hf hn (by omega) (by omega) hfit opts

end TreeJit.Compile.A64

namespace TreeJit.Compile

open SSA TreeJit.A64

/-- a branch of some lines stands further from its label than its field can say -/
def A64.FarBranch (lines : List (Line Instr)) (b : Branch) : Prop :=
  ∃ pos i t, StandsAt Instr.encode 0 lines pos (.instr i) ∧ i.branch? = some b ∧
    StandsAt Instr.encode 0 lines t (.mark b.label) ∧ ¬ b.field.Spans ((t : Int) - pos)

/-- lowered lines are assembled, unless a branch is too far away or a narrow home is accessed -/
theorem A64.assemble_of_lowered {f : Func} {lines : List (Line Instr)} {labels symbols : List String}
    (h : Lowered f (· ∈ labels) lines labels symbols) (hn : labels.Nodup) :
    (∃ p, TreeJit.A64.assemble lines = .ok p ∧ p.refs.map SymbolRef.name = symbols) ∨
    (∃ b, FarBranch lines b ∧ TreeJit.A64.assemble lines = .error (.label (.far b.field b.label))) ∨
    ∃ disp, f.NarrowHome disp ∧ TreeJit.A64.assemble lines = .error (.a64 (.offset disp 4)) := by
  rcases h.assemble AsmFault.label hn
      (fun pos i c hc => Instr.encode_shaped (mapError_eq_ok.mp hc))
      (fun pos i c hc => Instr.encode_label (mapError_eq_ok.mp hc))
      (fun pos i c hc => Instr.encode_symbol (mapError_eq_ok.mp hc)) with
    hok | ⟨pos, i, e, -, hi, he, ha⟩ | ⟨pos, i, c, b, t, hst, hc, hb, ht, hbad⟩
  · exact .inl hok
  · rcases hi pos with ⟨c, hc⟩ | ⟨disp, hd, hc⟩
    · rw [hc] at he
      cases he
    · rw [hc] at he
      cases he
      exact .inr (.inr ⟨disp, hd, ha⟩)
  · have hc' := mapError_eq_ok.mp hc
    rw [standsAt_mapError] at hst ht
    -- AArch64 code is made of words, and branches count from their own start
    have hfour : ∀ {p : Nat} {x : Line Instr}, StandsAt Instr.encode 0 lines p x → p % 4 = 0 := by
      rintro p x ⟨before, after, -, rfl⟩
      exact stopOf_mod rfl fun _ _ _ _ hc => Instr.encode_length hc
    obtain ⟨-, -, hbr, -⟩ := Instr.encode_words hc'
    rw [hbr] at hb
    have hfld : b.field ≠ .rel32 := by
      cases i with
      | jump | jumpIf | jumpIfZero | jumpIfNotZero =>
        cases hb
        exact nofun
      | _ => cases hb
    rcases hbad with ⟨hfar, ha⟩ | ⟨-, hmis, -⟩
    · refine .inr (.inl ⟨b, ⟨pos, i, t, hst, hb, ht, ?_⟩, ha⟩)
      cases hb' : b.field with
      | rel32 => exact absurd hb' hfld
      | imm26 | imm19 => rwa [hb'] at hfar
    · have h1 := hfour hst
      have h2 := hfour ht
      exact absurd (by omega) hmis

/-- **Every function that is handed out compiles for AArch64**, if there are registers for it and for
what it calls and its frame has at most `0xFFFFFF` bytes, unless a branch is too far away or a
single-precision float lives at an offset between 16384 and 32760.  The code refers to the called
functions in the order of the calls. -/
theorem compile_a64_cases (name : String) (sig : Signature) (as : List Action) (f : Func)
    (opts : Options) (hf : ((Draft.new name sig).perform as).finish.2 = .ok f)
    (hfit : f.Passable A64.paramLimits A64.resultLimits) (hsize : f.layout.size ≤ 0xFFFFFF) :
    (∃ p, compile .a64 f opts = .ok p ∧
      p.refs.map SymbolRef.name = f.steps.filterMap f.calledName?) ∨
    (∃ lines b, A64.lower f opts = .ok lines ∧ A64.FarBranch lines b ∧
      compile .a64 f opts = .error (.assembly (.label (.far b.field b.label)))) ∨
    ∃ disp, f.NarrowHome disp ∧ compile .a64 f opts = .error (.assembly (.a64 (.offset disp 4))) := by
  obtain ⟨-, -, hw⟩ := Draft.sound_of_finish hf
  obtain ⟨lines, hl, hd⟩ := A64.lower_ok hw (Draft.importsNamed_of_finish hf) hsize hfit opts
  have hc : compile .a64 f opts = (TreeJit.A64.assemble lines).mapError .assembly := by
    simp only [compile, hl]
  rw [hc]
  rcases A64.assemble_of_lowered hd hw.nodup_labels with ⟨p, hp, href⟩ | ⟨b, hb, hp⟩ | ⟨disp, hh, hp⟩
  · rw [hp]
    exact .inl ⟨p, rfl, href⟩
  · rw [hp]
    exact .inr (.inl ⟨lines, b, hl, hb, rfl⟩)
  · rw [hp]
    exact .inr (.inr ⟨disp, hh, rfl⟩)

/-- a function that calls for the square of a number and adds the number to it -/
def squarePlus : List Action :=
  [.importFn "mulf" ⟨[.f32, .f32], [.f32]⟩, .createBlock, .appendFunctionParams 0, .switchTo 0,
    .call 0 [0, 0], .binary .fadd 1 0, .ret [2], .sealAll]

/-- its floats live near the start of the frame, and it compiles -/
theorem compile_a64_cases_squarePlus :
    let f := ((Draft.new "square" ⟨[.f32], [.f32]⟩).perform squarePlus).body.fn
    ∃ p, compile .a64 f ⟨true⟩ = .ok p ∧ p.refs.map SymbolRef.name = ["mulf"] := by
  intro f
  have hok : (compile .a64 f ⟨true⟩).isOk = true := by decide +kernel
  have hnames : f.steps.filterMap f.calledName? = ["mulf"] := by decide +kernel
  rcases compile_a64_cases "square" ⟨[.f32], [.f32]⟩ squarePlus f ⟨true⟩
      (Draft.finish_of_isOk (by decide +kernel)) (by decide +kernel) (by decide +kernel) with
    ⟨p, hp, href⟩ | ⟨lines, b, -, -, he⟩ | ⟨disp, -, he⟩
  · exact ⟨p, hp, hnames ▸ href⟩
  · rw [he] at hok
    cases hok
  · rw [he] at hok
    cases hok

end TreeJit.Compile
