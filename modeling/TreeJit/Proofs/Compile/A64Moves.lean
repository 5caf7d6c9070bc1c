import TreeJit.Compile.A64
import TreeJit.Proofs.A64.Performs
import TreeJit.Proofs.Compile.Moves
import TreeJit.Proofs.Word.Copies

/-!
# Accesses to the frame on AArch64

An offset that does not fit an access goes through `x17`, so an access to `[sp + disp]` or
`[base + disp]` is one instruction or three, and the same happens either way: the access is made at
the address that is meant, for any 32-bit offset, in a state in which nothing but `x17` differs
(`spAccess_leads`, `ptrAccess_leads`).  From this follow the moves between registers and homes and
the copies inside the frame (`copy_leads`).
-/

namespace TreeJit.Compile.A64

open SSA TreeJit.A64
open TreeJit.Compile.X64 (homeTy HomeHolds Fills)

/-! ## registers -/

def scratchRegs : List Nat := [9, 10, 17]

def scratchVRegs : List Nat := [16, 17]

/-- nothing has changed but these registers, the flags and the memory -/
structure Keeps (c c' : Cpu) : Prop where
  sp : c'.sp = c.sp
  x : ∀ i, i ∉ scratchRegs → c'.x i = c.x i
  v : ∀ i, i ∉ scratchVRegs → c'.v i = c.v i

namespace Keeps
variable {c c' : Cpu}

theorem refl (c : Cpu) : Keeps c c := ⟨rfl, fun _ _ => rfl, fun _ _ => rfl⟩

theorem setX (h : Keeps c c') {n : Nat} (hn : n ∈ scratchRegs) (y : UInt64) : Keeps c (c'.setX n y) := by
  refine ⟨h.sp, fun i hi => ?_, h.v⟩
  rw [Cpu.x_setX, if_neg (ne_of_mem_of_not_mem hn hi).symm]
  exact h.x i hi

theorem setV (h : Keeps c c') {n : Nat} (hn : n ∈ scratchVRegs) (y : Val) : Keeps c (c'.setV n y) := by
  refine ⟨h.sp, h.x, fun i hi => ?_⟩
  rw [Cpu.v_setV, if_neg (ne_of_mem_of_not_mem hn hi).symm]
  exact h.v i hi

theorem setFlags (h : Keeps c c') (fl : Flags) : Keeps c (c'.setFlags fl) := ⟨h.sp, h.x, h.v⟩

theorem setMem (h : Keeps c c') (m : Memory) : Keeps c (c'.setMem m) := ⟨h.sp, h.x, h.v⟩

end Keeps

section
variable {E : Env} {c : Cpu} {es : List TreeJit.A64.Event} {disp : Int32} {n : Nat} {access : Mem → Instr}
variable {P : Cpu → Prop}

theorem address_at {r : RegId} (hr : (Reg.x r).number ≠ 31) (disp : Int32) :
    c.address (.at r disp) = addressOf (c.x (Reg.x r).number) disp := by
  show addressOf (c.base _) disp = _
  rw [Cpu.base, if_neg hr]

theorem address_zero (a : UInt64) : addressOf a 0 = a := UInt64.add_zero a

/-- **An access to the frame** is made at the address that is meant; nothing else but `x17` changes. -/
theorem spAccess_leads (h : ∀ y m, (c.setX 17 y).address m = addressOf c.sp disp →
    ∃ c', (access m).perform E (c.setX 17 y) = some (c', es) ∧ P c') :
    Leads E c (spAccess disp n access) es P := by
  unfold spAccess
  split
  · obtain ⟨c', hp, hP⟩ := h (c.x 17) (.at sp disp) rfl
    rw [Cpu.setX_self] at hp
    exact .last hp hP
  · have h1 : (Instr.movImm (.x addrTemp) disp.toInt64).perform E c =
        some (c.setX 17 disp.toInt64.toUInt64, []) := rfl
    have h2 : (Instr.addSP (.x addrTemp) (.x addrTemp)).perform E (c.setX 17 disp.toInt64.toUInt64) =
        some (c.setX 17 (addressOf c.sp disp), []) := by
      show some ((c.setX 17 disp.toInt64.toUInt64).setX 17 (addressOf c.sp disp), []) = _
      rw [Cpu.setX_setX]
    obtain ⟨c', hp, hP⟩ := h _ (.at addrTemp 0) (address_zero _)
    exact .quiet h1 (.quiet h2 (.last hp hP))

/-- **An access through a pointer**, in a register other than `x17`. -/
theorem ptrAccess_leads {r : RegId} (hr : (Reg.x r).number ≠ 31) (h17 : (Reg.x r).number ≠ 17)
    (h : ∀ y m, (c.setX 17 y).address m = addressOf (c.x (Reg.x r).number) disp →
      ∃ c', (access m).perform E (c.setX 17 y) = some (c', es) ∧ P c') :
    Leads E c (ptrAccess r disp n access) es P := by
  unfold ptrAccess
  split
  · obtain ⟨c', hp, hP⟩ := h (c.x 17) (.at r disp)
      (by rw [Cpu.setX_self]; exact address_at hr disp)
    rw [Cpu.setX_self] at hp
    exact .last hp hP
  · have h1 : (Instr.movImm (.x addrTemp) disp.toInt64).perform E c =
        some (c.setX 17 disp.toInt64.toUInt64, []) := rfl
    have h2 : (Instr.reg3 .add (.x addrTemp) (.x r) (.x addrTemp)).perform E
        (c.setX 17 disp.toInt64.toUInt64) =
          some (c.setX 17 (addressOf (c.x (Reg.x r).number) disp), []) := by
      show some ((c.setX 17 disp.toInt64.toUInt64).setX 17
        ((c.setX 17 disp.toInt64.toUInt64).reg (Reg.x r).number + disp.toInt64.toUInt64), []) = _
      rw [Cpu.setX_setX, Cpu.reg, if_neg hr, Cpu.x_setX, if_neg h17]
      rfl
    obtain ⟨c', hp, hP⟩ := h _ (.at addrTemp 0) (address_zero _)
    exact .quiet h1 (.quiet h2 (.last hp hP))

end

/-! ## homes -/

section
variable {E : Env} {c : Cpu} {x : Ctx} {v : ValueNo}

theorem loadInt_leads {r : RegId} (hr : (Reg.x r).number ≠ 31) (v : ValueNo) :
    Leads E c (x.loadInt r v) [.read (addressOf c.sp (x.frame.home v)) 8] fun c' => ∃ y,
      c' = (c.setX 17 y).setX (Reg.x r).number
        (UInt64.ofNat (c.mem.read 8 (addressOf c.sp (x.frame.home v)))) := by
  unfold Ctx.loadInt Ctx.atHome
  refine spAccess_leads fun y m hm => ⟨_, ?_, y, rfl⟩
  rw [Instr.perform, hm, Cpu.readReg, Cpu.setReg_of_ne _ hr]
  rfl

theorem storeInt_leads {r : RegId} (hr : (Reg.x r).number ≠ 31) (h17 : (Reg.x r).number ≠ 17)
    (v : ValueNo) :
    Leads E c (x.storeInt v r)
      [.write (addressOf c.sp (x.frame.home v)) (littleEndian 8 (c.x (Reg.x r).number).toNat)]
      fun c' => ∃ y, c' = (c.setX 17 y).setMem
        (c.mem.write 8 (addressOf c.sp (x.frame.home v)) (c.x (Reg.x r).number).toNat) := by
  unfold Ctx.storeInt Ctx.atHome
  refine spAccess_leads fun y m hm => ⟨_, ?_, y, rfl⟩
  have hx : (c.setX 17 y).reg (Reg.x r).number = c.x (Reg.x r).number := by
    rw [Cpu.reg, if_neg hr, Cpu.x_setX, if_neg h17]
  rw [Instr.perform, hm, Cpu.writeReg, hx]
  rfl

/-- what an access as wide as a home moves -/
theorem readVal_floatWidth (m : Memory) (t : Ty) (a : UInt64) :
    readVal m (vectorTy (floatWidth t)) a = readVal m (homeTy t) a := by
  cases t <;> rfl

theorem writeVal_floatWidth (m : Memory) (t : Ty) (a : UInt64) (y : Val) :
    writeVal m (vectorTy (floatWidth t)) a y = writeVal m (homeTy t) a y := by
  cases t <;> rfl

theorem storedBytes_floatWidth (t : Ty) (y : Val) :
    storedBytes (vectorTy (floatWidth t)) y = storedBytes (homeTy t) y := by
  cases t <;> rfl

theorem loadFloat_leads (r : VReg) (v : ValueNo) :
    Leads E c (x.loadFloat r v)
      [.read (addressOf c.sp (x.frame.home v)) (floatWidth (x.fn.typeOf v))] fun c' => ∃ y,
        c' = (c.setX 17 y).setV r.toNat
          (readVal c.mem (homeTy (x.fn.typeOf v)) (addressOf c.sp (x.frame.home v))) := by
  unfold Ctx.loadFloat Ctx.atHome
  refine spAccess_leads fun y m hm => ⟨_, ?_, y, rfl⟩
  rw [Instr.perform, hm, Cpu.readV, Int.toNat_natCast, readVal_floatWidth]
  rfl

theorem storeFloat_leads (r : VReg) (v : ValueNo) :
    Leads E c (x.storeFloat v r)
      [.write (addressOf c.sp (x.frame.home v)) (storedBytes (homeTy (x.fn.typeOf v)) (c.v r.toNat))]
      fun c' => ∃ y, c' = (c.setX 17 y).setMem
        (writeVal c.mem (homeTy (x.fn.typeOf v)) (addressOf c.sp (x.frame.home v)) (c.v r.toNat)) := by
  unfold Ctx.storeFloat Ctx.atHome
  refine spAccess_leads fun y m hm => ⟨_, ?_, y, rfl⟩
  rw [Instr.perform, hm, Cpu.writeV, Int.toNat_natCast, storedBytes_floatWidth]
  show some ((c.setX 17 y).setMem (writeVal c.mem _ _ _), _) = _
  rw [writeVal_floatWidth]
  rfl

end

/-! ## copies -/

theorem homeSize_vector {t : Ty} (ht : t.isVector = true) : homeSize t = 16 := by
  rw [homeSize, if_pos ht]

theorem homeSize_scalar {t : Ty} (ht : ¬ t.isVector = true) : homeSize t = 8 := by
  rw [homeSize, if_neg ht]

/-- **A copy inside the frame** moves the 8 or 16 bytes of a home. -/
theorem copy_leads (E : Env) (c : Cpu) (t : Ty) (dst src : Int32) :
    Leads E c (copy t dst src)
      [.read (addressOf c.sp src) (homeSize t),
        .write (addressOf c.sp dst) (c.mem.bytes (homeSize t) (addressOf c.sp src))]
      fun c' => Keeps c c' ∧
        c'.mem = c.mem.move ⟨addressOf c.sp dst, addressOf c.sp src, homeSize t⟩ := by
  unfold copy
  by_cases ht : t.isVector = true
  · rw [if_pos ht, homeSize_vector ht]
    have hload : Leads E c (spAccess src 16 fun m => .loadFP vscratch0 m 16)
        [.read (addressOf c.sp src) 16]
        fun c' => ∃ y, c' = (c.setX 17 y).setV 16 (readVal c.mem .f64x2 (addressOf c.sp src)) := by
      refine spAccess_leads fun y m hm => ⟨_, ?_, y, rfl⟩
      rw [Instr.perform, hm]
      rfl
    have hbytes : storedBytes .f64x2 (readVal c.mem .f64x2 (addressOf c.sp src)) =
        c.mem.bytes 16 (addressOf c.sp src) := by
      rw [readVal_vector _ _ rfl, show 16 = 8 + 8 from rfl, Memory.bytes_append]
      exact congrArg₂ (· ++ ·) (Memory.littleEndian_read _ _) (Memory.littleEndian_read _ _)
    refine hload.append ?_
    rintro _ ⟨y, rfl⟩
    have hkeep := ((Keeps.refl c).setX (n := 17) (by decide) y).setV (n := 16) (by decide)
      (readVal c.mem .f64x2 (addressOf c.sp src))
    have hstored := fun z => (hkeep.setX (n := 17) (by decide) z).setMem
      (c.mem.move ⟨addressOf c.sp dst, addressOf c.sp src, 16⟩)
    refine spAccess_leads fun z m hm => ⟨_, ?_, hstored z, Cpu.mem_setMem _ _⟩
    rw [← Memory.writeVal_readVal, ← hbytes, Instr.perform, hm]
    rfl
  · rw [if_neg ht, homeSize_scalar ht]
    have hload : Leads E c (spAccess src 8 fun m => .load (.x scratch0) m 8)
        [.read (addressOf c.sp src) 8]
        fun c' => ∃ y, c' = (c.setX 17 y).setX 9 (UInt64.ofNat (c.mem.read 8 (addressOf c.sp src))) := by
      refine spAccess_leads fun y m hm => ⟨_, ?_, y, rfl⟩
      rw [Instr.perform, hm]
      rfl
    have hmem : c.mem.write 8 (addressOf c.sp dst) (UInt64.ofNat (c.mem.read 8 (addressOf c.sp src))).toNat =
        c.mem.move ⟨addressOf c.sp dst, addressOf c.sp src, 8⟩ := by
      rw [Memory.toNat_read, Memory.write_read]
    refine hload.append ?_
    rintro _ ⟨y, rfl⟩
    have hkeep := ((Keeps.refl c).setX (n := 17) (by decide) y).setX (n := 9) (by decide)
      (UInt64.ofNat (c.mem.read 8 (addressOf c.sp src)))
    have hstored := fun z => (hkeep.setX (n := 17) (by decide) z).setMem
      (c.mem.move ⟨addressOf c.sp dst, addressOf c.sp src, 8⟩)
    refine spAccess_leads fun z m hm => ⟨_, ?_, hstored z, Cpu.mem_setMem _ _⟩
    rw [← hmem, ← Memory.littleEndian_read, Instr.perform, hm]
    rfl

end TreeJit.Compile.A64
