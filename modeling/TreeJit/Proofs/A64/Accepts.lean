import TreeJit.A64.Encode

/-!
# Instructions that have an encoding

An AArch64 instruction is refused for its registers, their widths, a constant, or an offset that its
access cannot hold.  `Instr.Sound` says that nothing of this is wrong, and then there is an encoding
wherever the instruction stands (`Instr.Sound.accepted`).

An access of `n` bytes holds the multiples of `n` up to `4095 * n` (`encodable_iff`), so what an
access of 8 bytes holds an access of 4 bytes may not: `Instr.loadFP_narrow` and
`Instr.storeFP_narrow` say for which offsets.
-/

namespace TreeJit.A64

/-! ## registers -/

def IsReg (r : RegId) : Prop := 0 ≤ r ∧ r ≤ 31

instance (r : RegId) : Decidable (IsReg r) := inferInstanceAs (Decidable (_ ∧ _))

theorem isReg_sp : IsReg sp := by decide

def Reg.Sound (r : Reg) : Prop := IsReg r.id ∧ r.width ≠ .none

instance (r : Reg) : Decidable r.Sound := inferInstanceAs (Decidable (_ ∧ _))

theorem Reg.sound_x {r : RegId} (h : IsReg r) : (Reg.x r).Sound := ⟨h, nofun⟩

theorem Reg.sound_w {r : RegId} (h : IsReg r) : (Reg.w r).Sound := ⟨h, nofun⟩

theorem Reg.Sound.check {r : Reg} (h : r.Sound) : r.check = .ok () := by
  obtain ⟨⟨h0, h31⟩, hw⟩ := h
  rw [Reg.check, if_neg (not_or.mpr ⟨Int.not_lt.mpr h0, Int.not_lt.mpr h31⟩), if_neg hw]

theorem VReg.check_ok {v : VReg} (h : v ≤ 31) : v.check = .ok () := if_pos h

theorem forM_ok {α ε : Type} {xs : List α} {g : α → Except ε PUnit} (h : ∀ x ∈ xs, g x = .ok ⟨⟩) :
    xs.forM g = .ok ⟨⟩ := by
  induction xs with
  | nil => rfl
  | cons x xs ih =>
    show (g x >>= fun _ => xs.forM g) = _
    rw [h x List.mem_cons_self]
    exact ih fun y hy => h y (List.mem_cons_of_mem _ hy)

theorem sameWidth_ok {w : Width} {rs : List Reg} (h : ∀ r ∈ rs, r.Sound ∧ r.width = w) :
    sameWidth rs = .ok () := by
  refine forM_ok fun r hr => ?_
  have hhead : rs.head?.map Reg.width = some w := by
    cases rs with
    | nil => cases hr
    | cons x xs => exact congrArg some (h x List.mem_cons_self).2
  rw [(h r hr).1.check, hhead, (h r hr).2]
  exact if_neg (absurd rfl)

/-! ## offsets -/

def accessWidths : List Nat := [1, 2, 4, 8, 16]

theorem encodable_iff {disp : Int32} {n : Nat} (hn : n ∈ accessWidths) :
    encodable disp n = true ↔ 0 ≤ disp.toInt ∧ disp.toInt % n = 0 ∧ disp.toInt / n ≤ 4095 := by
  -- the width as a 32-bit word
  obtain ⟨w, hw, hwide, hw0, hwn⟩ : ∃ w : Int32, (Int64.ofNat n).toInt32 = w ∧
      ¬ Int64.ofNat n ≤ 0 ∧ w ≠ 0 ∧ w.toInt = n := by
    simp only [accessWidths, List.mem_cons, List.not_mem_nil, or_false] at hn
    rcases hn with rfl | rfl | rfl | rfl | rfl <;> exact ⟨_, rfl, by decide, by decide, by decide⟩
  unfold encodable encodable?
  by_cases h0 : disp < 0
  · rw [if_pos (.inl h0)]
    have hneg : disp.toInt < 0 := Int32.lt_iff_toInt_lt.mp h0
    exact ⟨nofun, fun h => absurd h.1 (by omega)⟩
  · have hd : 0 ≤ disp.toInt := Int.not_lt.mp fun h => h0 (Int32.lt_iff_toInt_lt.mpr h)
    rw [if_neg (not_or.mpr ⟨h0, hwide⟩), hw, if_neg hw0]
    have hmod : disp % w = 0 ↔ disp.toInt % n = 0 := by
      rw [← Int32.toInt_inj, Int32.toInt_mod, hwn, Int.tmod_eq_emod_of_nonneg hd]
      rfl
    have hdiv : disp / w ≤ 0xFFF ↔ disp.toInt / n ≤ 4095 := by
      have hlt := disp.toInt_lt
      have hle := Int.ediv_le_self n hd
      have h0 : 0 ≤ disp.toInt / n := Int.ediv_nonneg hd (Int.natCast_nonneg n)
      rw [Int32.le_iff_toInt_le, Int32.toInt_div, hwn, Int.tdiv_eq_ediv_of_nonneg hd,
        Int.bmod_eq_of_le (by omega) (by omega)]
      rfl
    simp [hmod, hdiv, hd]

theorem encodable_zero {n : Nat} (hn : n ∈ accessWidths) : encodable 0 n = true := by
  rw [encodable_iff hn]
  exact ⟨Int.le_refl 0, Int.zero_emod _, by rw [show (0 : Int32).toInt = 0 from rfl, Int.zero_ediv]; decide⟩

/-- the memory at a register plus an offset that an access of `n` bytes holds -/
def Mem.Reaches (m : Mem) (n : Nat) : Prop :=
  ∃ r, m = .at r m.disp ∧ IsReg r ∧ encodable m.disp n = true

theorem Mem.reaches_at {r : RegId} (h : IsReg r) {disp : Int32} {n : Nat}
    (he : encodable disp n = true) : (Mem.at r disp).Reaches n := ⟨r, rfl, h, he⟩

theorem Mem.check_at {r : RegId} (h : IsReg r) (disp : Int32) :
    (Mem.at r disp).check = .ok (.x r) := by
  simp only [Mem.at, Mem.check, (Reg.sound_x h).check, bind, Except.bind]
  rfl

theorem Access.word_ok {m : Mem} {n : Nat} (h : m.Reaches n) (base rt : UInt32) :
    ∃ w, Access.word base n rt m = .ok w := by
  obtain ⟨r, e, hr, he⟩ := h
  have hc : m.check = .ok (.x r) := e ▸ Mem.check_at hr m.disp
  simp only [Access.word, hc, bind, Except.bind, he]
  exact ⟨_, rfl⟩

/-! ## instructions -/

def Instr.Sound : Instr → Prop
  | .movImm dst _ => dst.Sound
  | .movSymbol dst name => dst.width = .w64 ∧ name ≠ ""
  | .movReg dst src => dst.Sound ∧ src.Sound ∧ src.width = dst.width
  | .addImm dst src imm _ => dst.Sound ∧ src.Sound ∧ src.width = dst.width ∧ imm ≤ 0xFFF
  | .subImm dst src imm _ => dst.Sound ∧ src.Sound ∧ src.width = dst.width ∧ imm ≤ 0xFFF
  | .reg3 _ dst left right =>
    dst.Sound ∧ left.Sound ∧ right.Sound ∧ left.width = dst.width ∧ right.width = dst.width
  | .addSP dst src => dst.width = .w64 ∧ src.width = .w64
  | .cmp left right => left.Sound ∧ right.Sound ∧ right.width = left.width
  | .cset dst _ => dst.Sound
  | .uxtb dst src => IsReg dst.id ∧ IsReg src.id
  | .uxth dst src => IsReg dst.id ∧ IsReg src.id
  | .load dst src width => dst.Sound ∧ (width = 8 → dst.width = .w64) ∧
    ∃ n : Nat, width = n ∧ n ∈ [1, 2, 4, 8] ∧ src.Reaches n
  | .store dst src width => src.Sound ∧ ∃ n : Nat, width = n ∧ n ∈ [1, 2, 4, 8] ∧ dst.Reaches n
  | .pushFrame => True
  | .popFrame => True
  | .jump _ => True
  | .jumpIf _ _ => True
  | .jumpIfZero reg _ => reg.Sound
  | .jumpIfNotZero reg _ => reg.Sound
  | .call target => target.width = .w64
  | .ret => True
  | .nop => True
  | .align n => 4 ≤ n ∧ n.toNat &&& (n.toNat - 1) = 0
  | .fp3 _ _ dst left right => dst ≤ 31 ∧ left ≤ 31 ∧ right ≤ 31
  | .fcmp _ left right => left ≤ 31 ∧ right ≤ 31
  | .vec3 _ dst left right => dst ≤ 31 ∧ left ≤ 31 ∧ right ≤ 31
  | .not16b dst src => dst ≤ 31 ∧ src ≤ 31
  | .dupElement dst src => dst ≤ 31 ∧ src ≤ 31
  | .dupGeneral dst src => dst ≤ 31 ∧ src.width = .w64
  | .loadFP dst src width => dst ≤ 31 ∧ ∃ n : Nat, width = n ∧ n ∈ [4, 8, 16] ∧ src.Reaches n
  | .storeFP dst src width => src ≤ 31 ∧ ∃ n : Nat, width = n ∧ n ∈ [4, 8, 16] ∧ dst.Reaches n
  | .ubfx .. | .mrsCTR _ | .dcCVAU _ | .icIVAU _ | .dsbISH | .isb => False

theorem Instr.Sound.precheck {i : Instr} (h : i.Sound) : i.precheck = .ok () := by
  cases i with
  | movImm dst value => exact Reg.Sound.check h
  | movSymbol dst name =>
    simp only [Instr.precheck, h.1, h.2, ne_eq, not_true_eq_false, if_false]
  | jumpIfZero reg l => exact Reg.Sound.check h
  | jumpIfNotZero reg l => exact Reg.Sound.check h
  | align n =>
    simp only [Instr.precheck]
    rw [if_neg (not_or.mpr ⟨Int.not_lt.mpr h.1, not_not_intro h.2⟩)]
  | _ => rfl

theorem addSubImm_ok {dst src : Reg} (hd : dst.Sound) (hs : src.Sound) (hw : src.width = dst.width)
    {imm : UInt32} (hi : imm ≤ 0xFFF) (base : UInt32) (shift12 : Bool) :
    ∃ w, addSubImm base dst src imm shift12 = .ok w := by
  have hsame : sameWidth [dst, src] = .ok () := sameWidth_ok (w := dst.width) fun r hr => by
    simp only [List.mem_cons, List.not_mem_nil, or_false] at hr
    rcases hr with rfl | rfl
    · exact ⟨hd, rfl⟩
    · exact ⟨hs, hw⟩
  simp only [addSubImm, hsame, bind, Except.bind]
  rw [if_neg (UInt32.not_lt.mpr hi)]
  exact ⟨_, rfl⟩

theorem regReg_ok {dst left right : Reg} (hd : dst.Sound) (hl : left.Sound) (hr : right.Sound)
    (hlw : left.width = dst.width) (hrw : right.width = dst.width) (base : UInt32) :
    ∃ w, regReg base dst left right = .ok w := by
  have hsame : sameWidth [dst, left, right] = .ok () := sameWidth_ok (w := dst.width) fun r hm => by
    simp only [List.mem_cons, List.not_mem_nil, or_false] at hm
    rcases hm with rfl | rfl | rfl
    · exact ⟨hd, rfl⟩
    · exact ⟨hl, hlw⟩
    · exact ⟨hr, hrw⟩
  simp only [regReg, hsame, bind, Except.bind]
  exact ⟨_, rfl⟩

theorem three_ok {dst left right : VReg} (hd : dst ≤ 31) (hl : left ≤ 31) (hr : right ≤ 31)
    (base : UInt32) : ∃ w, three base dst left right = .ok w := by
  simp only [three, VReg.check_ok hd, VReg.check_ok hl, VReg.check_ok hr, bind, Except.bind]
  exact ⟨_, rfl⟩

theorem Access.general_ok {n : Nat} (hn : n ∈ [1, 2, 4, 8]) :
    ∃ l s, Access.general n = .ok ⟨l, s, n⟩ := by
  simp only [List.mem_cons, List.not_mem_nil, or_false] at hn
  rcases hn with rfl | rfl | rfl | rfl <;> exact ⟨_, _, rfl⟩

theorem Access.vector_ok {n : Nat} (hn : n ∈ [4, 8, 16]) :
    ∃ l s, Access.vector n = .ok ⟨l, s, n⟩ := by
  simp only [List.mem_cons, List.not_mem_nil, or_false] at hn
  rcases hn with rfl | rfl | rfl <;> exact ⟨_, _, rfl⟩

theorem Instr.Sound.word {i : Instr} (h : i.Sound) : ∃ w, i.word = .ok w := by
  cases i with
  | movReg dst src =>
    obtain ⟨hd, hs, hw⟩ := h
    have hzero : Reg.Sound ⟨sp, dst.width⟩ := ⟨isReg_sp, hd.2⟩
    exact regReg_ok hd hzero hs rfl hw _
  | addImm dst src imm shift12 => exact addSubImm_ok h.1 h.2.1 h.2.2.1 h.2.2.2 _ _
  | subImm dst src imm shift12 => exact addSubImm_ok h.1 h.2.1 h.2.2.1 h.2.2.2 _ _
  | reg3 op dst left right =>
    obtain ⟨hd, hl, hr, hlw, hrw⟩ := h
    exact regReg_ok hd hl hr hlw hrw _
  | addSP dst src =>
    simp only [Instr.word, h.1, h.2, ne_eq, not_true_eq_false, or_self, if_false]
    exact ⟨_, rfl⟩
  | cmp left right =>
    obtain ⟨hl, hr, hw⟩ := h
    have hsame : sameWidth [left, right] = .ok () := sameWidth_ok (w := left.width) fun r hm => by
      simp only [List.mem_cons, List.not_mem_nil, or_false] at hm
      rcases hm with rfl | rfl
      · exact ⟨hl, rfl⟩
      · exact ⟨hr, hw⟩
    simp only [Instr.word, hsame, bind, Except.bind]
    exact ⟨_, rfl⟩
  | cset dst cond =>
    simp only [Instr.word, Reg.Sound.check h, bind, Except.bind]
    exact ⟨_, rfl⟩
  | uxtb dst src | uxth dst src =>
    have hsame : sameWidth [.w dst.id, .w src.id] = .ok () := sameWidth_ok (w := .w32) fun r hm => by
      simp only [List.mem_cons, List.not_mem_nil, or_false] at hm
      rcases hm with rfl | rfl
      · exact ⟨Reg.sound_w h.1, rfl⟩
      · exact ⟨Reg.sound_w h.2, rfl⟩
    simp only [Instr.word, hsame, bind, Except.bind]
    exact ⟨_, rfl⟩
  | load dst src width =>
    obtain ⟨hd, h8, n, rfl, hn, hm⟩ := h
    obtain ⟨l, s, ha⟩ := Access.general_ok hn
    simp only [Instr.word, hd.check, ha, bind, Except.bind]
    rw [if_neg fun hc => hc.2 (h8 hc.1)]
    exact Access.word_ok hm _ _
  | store dst src width =>
    obtain ⟨hs, n, rfl, hn, hm⟩ := h
    obtain ⟨l, s, ha⟩ := Access.general_ok hn
    simp only [Instr.word, hs.check, ha, bind, Except.bind]
    exact Access.word_ok hm _ _
  | call target =>
    have hw : target.width = .w64 := h
    simp only [Instr.word, hw, ne_eq, not_true_eq_false, if_false]
    exact ⟨_, rfl⟩
  | fp3 op size dst left right => exact three_ok h.1 h.2.1 h.2.2 _
  | vec3 op dst left right => exact three_ok h.1 h.2.1 h.2.2 _
  | fcmp size left right =>
    simp only [Instr.word, VReg.check_ok h.1, VReg.check_ok h.2, bind, Except.bind]
    exact ⟨_, rfl⟩
  | not16b dst src | dupElement dst src =>
    simp only [Instr.word, two, VReg.check_ok h.1, VReg.check_ok h.2, bind, Except.bind]
    exact ⟨_, rfl⟩
  | dupGeneral dst src =>
    simp only [Instr.word, VReg.check_ok h.1, bind, Except.bind]
    rw [if_neg (not_not_intro h.2)]
    exact ⟨_, rfl⟩
  | loadFP dst src width =>
    obtain ⟨hd, n, rfl, hn, hm⟩ := h
    obtain ⟨l, s, ha⟩ := Access.vector_ok hn
    simp only [Instr.word, VReg.check_ok hd, ha, bind, Except.bind]
    exact Access.word_ok hm _ _
  | storeFP dst src width =>
    obtain ⟨hs, n, rfl, hn, hm⟩ := h
    obtain ⟨l, s, ha⟩ := Access.vector_ok hn
    simp only [Instr.word, VReg.check_ok hs, ha, bind, Except.bind]
    exact Access.word_ok hm _ _
  | ubfx | mrsCTR | dcCVAU | icIVAU | dsbISH | isb => cases h
  | _ => exact ⟨_, rfl⟩

/-- **There is an encoding for an instruction in which nothing is wrong.** -/
theorem Instr.Sound.accepted {i : Instr} (h : i.Sound) (pos : Nat) : ∃ c, i.encode pos = .ok c := by
  obtain ⟨w, hw⟩ := h.word
  have hp := h.precheck
  unfold Instr.encode
  simp only [hp, bind, Except.bind]
  cases i with
  | movImm | movSymbol | align => exact ⟨_, rfl⟩
  | _ =>
    simp only [hw]
    exact ⟨_, rfl⟩

/-! ## accesses that are too narrow -/

theorem Access.word_narrow {r : RegId} (h : IsReg r) {disp : Int32} {n : Nat}
    (he : encodable disp n = false) (base rt : UInt32) :
    Access.word base n rt (.at r disp) = .error (.offset disp n) := by
  simp only [Access.word, Mem.check_at h, bind, Except.bind]
  rw [show (Mem.at r disp).disp = disp from rfl, he]
  rfl

theorem Instr.loadFP_narrow {x : VReg} (hx : x ≤ 31) {r : RegId} (h : IsReg r) {disp : Int32}
    (he : encodable disp 4 = false) (pos : Nat) :
    (Instr.loadFP x (.at r disp) 4).encode pos = .error (.offset disp 4) := by
  have hw := Access.word_narrow h he 0xBD400000 x.toUInt32
  simp only [Instr.encode, Instr.precheck, Instr.word, VReg.check_ok hx, Access.vector, hw, bind,
    Except.bind, if_true]

theorem Instr.storeFP_narrow {x : VReg} (hx : x ≤ 31) {r : RegId} (h : IsReg r) {disp : Int32}
    (he : encodable disp 4 = false) (pos : Nat) :
    (Instr.storeFP (.at r disp) x 4).encode pos = .error (.offset disp 4) := by
  have hw := Access.word_narrow h he 0xBD000000 x.toUInt32
  simp only [Instr.encode, Instr.precheck, Instr.word, VReg.check_ok hx, Access.vector, hw, bind,
    Except.bind, if_true]

/-- an offset for eight bytes that four bytes cannot hold is too far away -/
theorem narrow_range {disp : Int32} (h8 : encodable disp 8 = true) (h4 : encodable disp 4 = false) :
    16384 ≤ disp.toInt ∧ disp.toInt ≤ 32760 := by
  obtain ⟨h0, hm, hd⟩ := (encodable_iff (by decide)).mp h8
  have h4' : ¬ (0 ≤ disp.toInt ∧ disp.toInt % (4 : Nat) = 0 ∧ disp.toInt / (4 : Nat) ≤ 4095) := by
    intro h
    have := (encodable_iff (n := 4) (by decide)).mpr h
    rw [h4] at this
    cases this
  omega

end TreeJit.A64
