import TreeJit.Proofs.Compile.A64Legal
import TreeJit.Proofs.Compile.A64Operations
import TreeJit.Proofs.Compile.Steps
import TreeJit.Proofs.SSA.FrameRegions

/-!
# Values in their homes on AArch64

Within the code of a step, a state is related to the one in which the code is entered.  Operands are
in their homes there (`Holds`); they are brought to registers, which changes nothing else
(`Loaded`), and at the end the result is written to its home (`Assigned`) or a value to memory
(`Stored`).

* `loadInt_home`, `loadFloat_home`       an operand goes to a register;
* `storeInt_home`, `storeFloat_home`     a register goes to the home of the result;
* `loadFrom_leads`, `storeTo_leads`      reads and writes of memory, at whatever address is meant.
-/

namespace TreeJit.Compile.A64

open SSA TreeJit.A64
open TreeJit.Compile.X64 (homeTy HomeHolds Fills bytes_homeTy)

/-! ## states within a step -/

/-- values lie in their homes, and other memory is that of the interpreter -/
structure Holds (f : Func) (c : Cpu) (st : State) (vs : List ValueNo) : Prop where
  size : st.regs.size = f.values.size
  homes : ∀ v ∈ vs, ∀ t, f.values[v]? = some t →
    HomeHolds c.mem (f.partAt c.sp (.home v)) t (st.get v)
  mem : ∀ a, ¬ f.InHome c.sp a → c.mem.get a = st.mem.get a

structure Loaded (c c' : Cpu) : Prop where
  keeps : Keeps c c'
  mem : c'.mem = c.mem

/-- a value is in its home, and nothing else has changed -/
structure Assigned (f : Func) (c : Cpu) (dst : ValueNo) (t : Ty) (x : Val) (c' : Cpu) : Prop where
  keeps : Keeps c c'
  holds : HomeHolds c'.mem (f.partAt c.sp (.home dst)) t x
  out : ∀ a, homeSize t ≤ Memory.dist (f.partAt c.sp (.home dst)) a → c'.mem.get a = c.mem.get a

/-- a value is written to memory, and nothing else has changed -/
structure Stored (c : Cpu) (t : Ty) (a : UInt64) (x : Val) (c' : Cpu) : Prop where
  keeps : Keeps c c'
  mem : c'.mem = writeVal c.mem t a x

namespace Loaded
variable {c c' : Cpu} {n : Nat}

theorem refl (c : Cpu) : Loaded c c := ⟨.refl c, rfl⟩

theorem setX (h : Loaded c c') (hn : n ∈ scratchRegs) (y : UInt64) : Loaded c (c'.setX n y) :=
  ⟨h.keeps.setX hn y, h.mem⟩

theorem setV (h : Loaded c c') (hn : n ∈ scratchVRegs) (y : Val) : Loaded c (c'.setV n y) :=
  ⟨h.keeps.setV hn y, h.mem⟩

theorem setFlags (h : Loaded c c') (fl : Flags) : Loaded c (c'.setFlags fl) :=
  ⟨h.keeps.setFlags fl, h.mem⟩

end Loaded

def ctxOf (f : Func) (L : List RegLoc) : Ctx := ⟨f, f.frame 0, L⟩

theorem bytes_ne_of_scalar {t : Ty} (h : t.isValid = true) (hs : t.isVector = false) : t.bytes ≠ 16 := by
  cases t <;> simp_all [Ty.bytes, Ty.isValid, Ty.isVector]

theorem keep_homeTy {t : Ty} {x : Val} (h : Val.keep t x = x) : Val.keep (homeTy t) x = x := by
  rw [← h]
  cases t <;> first | rfl | exact X64.keep_keep _ _

theorem storedBytes_le (t : Ty) (x : Val) : (storedBytes (homeTy t) x).length ≤ homeSize t := by
  rw [X64.length_storedBytes]
  exact bytes_homeTy t

section
variable {E : Env} {f : Func} {c c1 : Cpu} {st : State} {vs : List ValueNo} {L : List RegLoc}
variable {v dst : ValueNo} {t : Ty} {x : Val}

/-! ## operands -/

theorem loadInt_home (h : Holds f c st vs) (hl : Loaded c c1) (hv : v ∈ vs)
    (ht : f.values[v]? = some t) (hs : t.isVector = false) {r : RegId}
    (hr : (Reg.x r).number ∈ [9, 10]) :
    Leads E c1 ((ctxOf f L).loadInt r v) [.read (f.partAt c.sp (.home v)) 8] fun c2 =>
      Loaded c c2 ∧ Fills t (c2.x (Reg.x r).number) (st.get v) ∧
        (∀ i, i ≠ (Reg.x r).number → i ≠ 17 → c2.x i = c1.x i) := by
  have hm : (Reg.x r).number ∈ scratchRegs ∧ (Reg.x r).number ≠ 31 := by
    rcases List.mem_pair.mp hr with e | e <;> rw [e] <;> decide
  have hload := loadInt_leads (E := E) (c := c1) (x := ctxOf f L) hm.2 v
  rw [hl.keeps.sp, hl.mem] at hload
  refine hload.mono ?_
  rintro _ ⟨y, rfl⟩
  refine ⟨(hl.setX (by decide) y).setX hm.1 _, ?_, fun i hi h17 => ?_⟩
  · rw [x_of_eq]
    exact (h.homes v hv t ht).fills hs
  · rw [Cpu.x_setX, if_neg hi, Cpu.x_setX, if_neg h17]

theorem loadFloat_home (h : Holds f c st vs) (hl : Loaded c c1) (hv : v ∈ vs)
    (ht : f.values[v]? = some t) {r : VReg} (hr : r.toNat ∈ scratchVRegs) :
    Leads E c1 ((ctxOf f L).loadFloat r v) [.read (f.partAt c.sp (.home v)) (floatWidth t)] fun c2 =>
      Loaded c c2 ∧ c2.v r.toNat = st.get v ∧ (∀ i, i ≠ r.toNat → c2.v i = c1.v i) ∧
        ∀ i, i ≠ 17 → c2.x i = c1.x i := by
  have hload := loadFloat_leads (E := E) (c := c1) (x := ctxOf f L) r v
  have hty : (ctxOf f L).fn.typeOf v = t := Func.typeOf_eq ht
  rw [hl.keeps.sp, hl.mem, hty] at hload
  refine hload.mono ?_
  rintro _ ⟨y, rfl⟩
  refine ⟨(hl.setX (by decide) y).setV hr _, ?_, fun i hi => if_neg hi, fun i h17 => if_neg h17⟩
  exact (if_pos rfl).trans (h.homes v hv t ht).1

theorem loadInts_leads {x y : ValueNo} (h : Holds f c st vs) (hx : x ∈ vs) (hy : y ∈ vs)
    (tx : f.values[x]? = some t) (ty : f.values[y]? = some t) (ht : t.isInt = true) :
    Leads E c ((ctxOf f L).loadInt scratch0 x ++ (ctxOf f L).loadInt scratch1 y)
      [.read (f.partAt c.sp (.home x)) 8, .read (f.partAt c.sp (.home y)) 8] fun c' =>
      Loaded c c' ∧ c'.x 9 = (st.get x).lo ∧ c'.x 10 = (st.get y).lo := by
  obtain ⟨hs, h32⟩ := X64.scalar_of_isInt ht
  refine (loadInt_home h (.refl c) hx tx hs (r := scratch0) (by decide)).append ?_
  rintro c1 ⟨h1, f1, -⟩
  refine (loadInt_home h h1 hy ty hs (r := scratch1) (by decide)).mono ?_
  rintro c2 ⟨h2, f2, hkeep⟩
  refine ⟨h2, (hkeep 9 (by decide) (by decide)).trans ?_, ?_⟩
  · exact (f1.lo h32).symm
  · exact (f2.lo h32).symm

theorem loadFloats_leads {x y : ValueNo} (h : Holds f c st vs) (hx : x ∈ vs) (hy : y ∈ vs)
    (tx : f.values[x]? = some t) (ty : f.values[y]? = some t) :
    Leads E c ((ctxOf f L).loadFloat vscratch0 x ++ (ctxOf f L).loadFloat vscratch1 y)
      [.read (f.partAt c.sp (.home x)) (floatWidth t), .read (f.partAt c.sp (.home y)) (floatWidth t)]
      fun c' => Loaded c c' ∧ c'.v 16 = st.get x ∧ c'.v 17 = st.get y := by
  refine (loadFloat_home h (.refl c) hx tx (r := vscratch0) (by decide)).append ?_
  rintro c1 ⟨h1, e1, -⟩
  refine (loadFloat_home h h1 hy ty (r := vscratch1) (by decide)).mono ?_
  rintro c2 ⟨h2, e2, hkeep, -⟩
  exact ⟨h2, (hkeep 16 (by decide)).trans e1, e2⟩

/-! ## results -/

theorem storeInt_home (hl : Loaded c c1) (ht : t.isVector = false)
    (hx : c1.x 9 = x.lo) (hk : Val.keep t x = x) :
    Leads E c1 ((ctxOf f L).storeInt dst scratch0)
      [.write (f.partAt c.sp (.home dst)) (littleEndian 8 x.lo.toNat)] (Assigned f c dst t x) := by
  have hstore := storeInt_leads (E := E) (c := c1) (x := ctxOf f L) (r := scratch0) (by decide)
    (by decide) dst
  rw [hl.keeps.sp, hl.mem] at hstore
  rw [← hx]
  refine hstore.mono ?_
  rintro _ ⟨y, rfl⟩
  refine ⟨(hl.keeps.setX (by decide) y).setMem _, ?_, fun a ha => ?_⟩
  · refine X64.homeHolds_word ht ?_
    have hfill := Fills.of_keep ht hk
    rwa [← hx] at hfill
  · rw [homeSize_scalar (by rw [ht]; nofun)] at ha
    exact Memory.get_write_out _ _ ha

theorem storeFloat_home (hl : Loaded c c1) (hd : f.values[dst]? = some t) (ht : t.isValid = true)
    (hx : c1.v 16 = x) (hk : Val.keep t x = x) :
    Leads E c1 ((ctxOf f L).storeFloat dst vscratch0)
      [.write (f.partAt c.sp (.home dst)) (storedBytes (homeTy t) x)] (Assigned f c dst t x) := by
  have hstore := storeFloat_leads (E := E) (c := c1) (x := ctxOf f L) vscratch0 dst
  have hty : (ctxOf f L).fn.typeOf dst = t := Func.typeOf_eq hd
  rw [hl.keeps.sp, hl.mem, hty] at hstore
  rw [← hx]
  refine hstore.mono ?_
  rintro _ ⟨y, rfl⟩
  refine ⟨(hl.keeps.setX (by decide) y).setMem _, ⟨?_, hx ▸ hk⟩, fun a ha => ?_⟩
  · have hvalid : (homeTy t).isValid = true := by cases t <;> rfl
    rw [Cpu.mem_setMem]
    refine (readVal_writeVal _ _ _ _ hvalid).trans ?_
    rw [keep_homeTy (hx ▸ hk)]
    rfl
  · exact get_writeVal_out _ _ (Nat.le_trans (bytes_homeTy t) ha)

/-! ## memory -/

def Reaches (place : Nat → (Mem → Instr) → List Instr) (c : Cpu) (a : UInt64) : Prop :=
  ∀ (E : Env) (n : Nat) (access : Mem → Instr) (es : List TreeJit.A64.Event) (P : Cpu → Prop),
    (∀ y m, (c.setX 17 y).address m = a →
      ∃ c', (access m).perform E (c.setX 17 y) = some (c', es) ∧ P c') →
    Leads E c (place n access) es P

theorem reaches_spAccess (c : Cpu) (off : Int32) : Reaches (spAccess off) c (addressOf c.sp off) :=
  fun _ _ _ _ _ h => spAccess_leads h

theorem reaches_ptrAccess (c : Cpu) (off : Int32) :
    Reaches (ptrAccess scratch1 off) c (addressOf (c.x 10) off) :=
  fun _ _ _ _ _ h => ptrAccess_leads (by decide) (by decide) h

theorem readVector_leads (hl : Loaded c c1) {place : Nat → (Mem → Instr) → List Instr} {a : UInt64}
    (hp : Reaches place c1 a) (hv : t.isVector = true) :
    Leads E c1 (place t.bytes fun m => .loadFP vscratch0 m t.bytes) [.read a t.bytes] fun c2 =>
      Loaded c c2 ∧ c2.v 16 = readVal c.mem t a := by
  refine hp E _ _ _ _ fun y m hm => ⟨(c1.setX 17 y).setV 16 (readVal c.mem t a), ?_,
    (hl.setX (by decide) y).setV (by decide) _, v_of_eq _ _ _⟩
  rw [Instr.perform, hm, Cpu.readV, Int.toNat_natCast, Cpu.mem_setX, hl.mem, bytes_of_isVector hv,
    readVal_vector _ _ hv]
  rfl

theorem readScalar_leads (hl : Loaded c c1) {place : Nat → (Mem → Instr) → List Instr} {a : UInt64}
    (hp : Reaches place c1 a) (hs : t.isVector = false) {r : Reg} (hr : r.number = 9) :
    Leads E c1 (place t.bytes fun m => .load r m t.bytes) [.read a t.bytes] fun c2 =>
      Loaded c c2 ∧ c2.x 9 = (readVal c.mem t a).lo := by
  refine hp E _ _ _ _ fun y m hm => ⟨(c1.setX 17 y).setX 9 (readVal c.mem t a).lo, ?_,
    (hl.setX (n := 17) (by decide) y).setX (by decide) _, x_of_eq _ _ _⟩
  rw [Instr.perform, hm, Cpu.readReg, Int.toNat_natCast, Cpu.mem_setX, hl.mem, hr,
    Cpu.setReg_of_ne _ (by decide), readVal_scalar _ _ hs]

/-- **A read of memory** into the home of the result -/
theorem loadFrom_leads (hl : Loaded c c1) {place : Nat → (Mem → Instr) → List Instr} {a : UInt64}
    (hp : Reaches place c1 a) (hd : f.values[dst]? = some t) (ht : t.isValid = true) :
    ∃ bs, bs.length ≤ homeSize t ∧
      Leads E c1 ((ctxOf f L).loadFrom t place dst)
        [.read a t.bytes, .write (f.partAt c.sp (.home dst)) bs]
        (Assigned f c dst t (readVal c.mem t a)) := by
  unfold Ctx.loadFrom
  by_cases hv : t.isVector = true
  · simp only [if_pos (bytes_of_isVector hv)]
    refine ⟨_, storedBytes_le t (readVal c.mem t a), (readVector_leads hl hp hv).append ?_⟩
    rintro c2 ⟨h2, e2⟩
    exact storeFloat_home h2 hd ht e2 (X64.keep_readVal _ _ _)
  · have hs : t.isVector = false := by simpa using hv
    simp only [if_neg (bytes_ne_of_scalar ht hs)]
    refine ⟨littleEndian 8 (readVal c.mem t a).lo.toNat, ?_, (readScalar_leads hl hp hs ?_).append ?_⟩
    · rw [length_littleEndian, homeSize_scalar hv]
    · split <;> rfl
    · rintro c2 ⟨h2, e2⟩
      exact storeInt_home h2 hs e2 (X64.keep_readVal _ _ _)

/-- the low bytes of a word that stands for a value -/
theorem littleEndian_fills {w : UInt64} (hs : t.isVector = false) (h : Fills t w x) :
    littleEndian t.bytes w.toNat = littleEndian t.bytes x.lo.toNat := by
  by_cases ht : t = .f32
  · subst ht
    have e : x.lo = w &&& UInt64.ofNat (2 ^ 32 - 1) := by
      rw [← h.keep]
      rfl
    rw [e, ← ofNat_mod_and _ _ (by omega), UInt64.toNat_ofNat', Nat.mod_eq_of_lt (by omega)]
    exact (littleEndian_mod 4 w.toNat).symm
  · rw [h.lo ht]

theorem writeVal_of_vector (ht : t.isVector = true) (m : Memory) (a : UInt64) (y : Val) :
    writeVal m t a y = writeVal m (vectorTy 16) a y := by
  rw [writeVal_vector _ _ _ ht, writeVal_vector _ _ _ rfl]

theorem storedBytes_of_vector (ht : t.isVector = true) (y : Val) :
    storedBytes t y = storedBytes (vectorTy 16) y := by
  rw [storedBytes, if_pos ht]
  rfl

/-- **A write to memory** of a value in its home; the address may depend on `x10` -/
theorem storeTo_leads (h : Holds f c st vs) (hl : Loaded c c1) (hv : v ∈ vs)
    (ht : f.values[v]? = some t) (hvalid : t.isValid = true)
    {place : Nat → (Mem → Instr) → List Instr} {a : UInt64}
    (hp : ∀ c2, Loaded c c2 → c2.x 10 = c1.x 10 → Reaches place c2 a) :
    ∃ n ≤ homeSize t, Leads E c1 ((ctxOf f L).storeTo t place v)
      [.read (f.partAt c.sp (.home v)) n, .write a (storedBytes t (st.get v))]
      (Stored c t a (st.get v)) := by
  unfold Ctx.storeTo
  by_cases hvec : t.isVector = true
  · simp only [if_pos (bytes_of_isVector hvec)]
    refine ⟨floatWidth t, ?_, (loadFloat_home h hl hv ht (by decide)).append ?_⟩
    · rw [floatWidth, if_pos hvec, homeSize_vector hvec]
    · rintro c2 ⟨h2, e2, -, hkeep⟩
      refine hp c2 h2 (hkeep 10 (by decide)) E _ _ _ _ fun y m hm => ⟨_, ?_,
        (h2.keeps.setX (n := 17) (by decide) y).setMem (writeVal c.mem t a (st.get v)), rfl⟩
      have hval : (c2.setX 17 y).v vscratch0.toNat = st.get v := e2
      rw [Instr.perform, hm, Cpu.writeV, Int.toNat_natCast, Cpu.mem_setX, h2.mem, hval,
        bytes_of_isVector hvec, ← writeVal_of_vector hvec, ← storedBytes_of_vector hvec]
  · have hs : t.isVector = false := by simpa using hvec
    simp only [if_neg (bytes_ne_of_scalar hvalid hs)]
    refine ⟨8, by rw [homeSize_scalar hvec], (loadInt_home h hl hv ht hs (by decide)).append ?_⟩
    rintro c2 ⟨h2, f2, hkeep⟩
    refine hp c2 h2 (hkeep 10 (by decide) (by decide)) E _ _ _ _ fun y m hm => ⟨_, ?_,
      (h2.keeps.setX (n := 17) (by decide) y).setMem (writeVal c.mem t a (st.get v)), rfl⟩
    have hreg : (c2.setX 17 y).reg 9 = c2.x 9 := rfl
    have hnum : (Reg.x scratch0).number = 9 := rfl
    rw [hnum] at f2
    rw [Instr.perform, hm, Cpu.writeReg, Int.toNat_natCast, Cpu.mem_setX, h2.mem, hnum, hreg,
      writeVal_scalar _ _ _ hs, storedBytes, if_neg hvec, Memory.write, Memory.write,
      littleEndian_fills hs f2]

end

end TreeJit.Compile.A64
