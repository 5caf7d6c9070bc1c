import TreeJit.Proofs.Compile.A64Homes

/-!
# The code of one step on AArch64

A step that neither calls nor branches is lowered to a straight line that does on the machine what
the interpreter does (`step_does`).  In the state after it (`Ran`)

* the homes of the results hold what the interpreter has for them, and no other home has changed;
* memory outside of the homes is that of the interpreter;
* stack pointer and registers are as before, except for `x9`, `x10`, `x17`, `v16` and `v17`;
* the accesses to memory were reads of the homes of operands, the one access that the instruction is
  there for (`Inst.accesses`), and a write of the home of the result, in this order.

What is asked for is that operands are in their homes, and that an access through a pointer keeps
clear of the homes (`Inst.KeepsClear`); an access to a slot does so by itself.
-/

namespace TreeJit.SSA

/-- the access an instruction makes in a frame that begins at an address: at a pointer or a slot plus
the offset, with the width of the type -/
def Inst.accesses (f : Func) (base : UInt64) (st : State) : Inst → List TreeJit.A64.Event
  | .load t p off => [.read (addressOf (st.get p).lo off) t.bytes]
  | .store t x p off => [.write (addressOf (st.get p).lo off) (storedBytes t (st.get x))]
  | .stackLoad t s off => [.read (addressOf (f.partAt base (.slot s)) off) t.bytes]
  | .stackStore t x s off =>
    [.write (addressOf (f.partAt base (.slot s)) off) (storedBytes t (st.get x))]
  | _ => []

/-- an access through a pointer does not hit the home of a value -/
def Inst.KeepsClear (f : Func) (base : UInt64) (st : State) : Inst → Prop
  | .load t p off | .store t _ p off => f.ClearOfHomes base (addressOf (st.get p).lo off) t.bytes
  | _ => True

end TreeJit.SSA

namespace TreeJit.Compile.A64

open SSA TreeJit.A64
open TreeJit.Compile.X64 (homeTy HomeHolds Fills bytes_homeTy)

/-! ## what a step does -/

/-- a read within the home of one of some values -/
def ReadsHome (f : Func) (base : UInt64) (vs : List ValueNo) (e : TreeJit.A64.Event) : Prop :=
  ∃ v ∈ vs, ∃ i n, e = .read (f.partAt base (.home v) + UInt64.ofNat i) n ∧
    i + n ≤ f.partSize (.home v)

/-- a write to the home of one of some values -/
def WritesHome (f : Func) (base : UInt64) (vs : List ValueNo) (e : TreeJit.A64.Event) : Prop :=
  ∃ v ∈ vs, ∃ bs, e = .write (f.partAt base (.home v)) bs ∧ bs.length ≤ f.partSize (.home v)

/-- what is seen of a step: operands are read, the access is made, the result is written -/
def Observed (f : Func) (s : Step) (base : UInt64) (st : State) (es : List TreeJit.A64.Event) : Prop :=
  ∃ before after, es = before ++ s.inst.accesses f base st ++ after ∧
    (∀ e ∈ before, ReadsHome f base s.inst.reads e) ∧ ∀ e ∈ after, WritesHome f base s.results e

/-- **A step has been done**, from the machine state `c` and the state `st` of the interpreter -/
structure Ran (f : Func) (s : Step) (c : Cpu) (st st' : State) (c' : Cpu)
    (es : List TreeJit.A64.Event) : Prop where
  keeps : Keeps c c'
  results : ∀ v ∈ s.results, ∀ t, f.values[v]? = some t →
    HomeHolds c'.mem (f.partAt c.sp (.home v)) t (st'.get v)
  others : ∀ v < f.values.size, v ∉ s.results →
    c'.mem.bytes (f.partSize (.home v)) (f.partAt c.sp (.home v)) =
      c.mem.bytes (f.partSize (.home v)) (f.partAt c.sp (.home v))
  mem : ∀ a, ¬ f.InHome c.sp a → c'.mem.get a = st'.mem.get a
  observed : Observed f s c.sp st es

section
variable {f : Func} {s : Step} {c c' : Cpu} {st : State} {vs : List ValueNo} {v dst : ValueNo}
variable {t : Ty} {x : Val} {es : List TreeJit.A64.Event} {base : UInt64} {n : Nat} {bs : List UInt8}

theorem readsHome (hv : v ∈ vs) (ht : f.values[v]? = some t) (hn : n ≤ homeSize t) :
    ReadsHome f base vs (.read (f.partAt base (.home v)) n) := by
  refine ⟨v, hv, 0, n, ?_, ?_⟩
  · exact congrArg (TreeJit.A64.Event.read · n) (UInt64.add_zero _).symm
  · rw [Nat.zero_add, Func.partSize, Func.typeOf_eq ht]
    exact hn

theorem writesHome (hv : v ∈ vs) (ht : f.values[v]? = some t) (hn : bs.length ≤ homeSize t) :
    WritesHome f base vs (.write (f.partAt base (.home v)) bs) := by
  refine ⟨v, hv, bs, rfl, ?_⟩
  rw [Func.partSize, Func.typeOf_eq ht]
  exact hn

theorem floatWidth_le (t : Ty) : floatWidth t ≤ homeSize t := by
  cases t <;> simp [floatWidth, homeSize, Ty.isVector]

theorem home_beside (hw : f.WellFormed) (hf : f.Fits) (hd : f.values[dst]? = some t)
    (hv : v < f.values.size) (hne : v ≠ dst) {i : Nat} (hi : i < f.partSize (.home v)) :
    homeSize t ≤ Memory.dist (f.partAt base (.home dst)) (f.partAt base (.home v) + UInt64.ofNat i) := by
  have hap : Memory.Apart (f.partAt base (.home dst)) (f.partSize (.home dst)) (f.partAt base (.home v))
      (f.partSize (.home v)) := hw.apart_parts hf (p := .home dst) (q := .home v) (Func.lt_of_values hd) hv
    (fun e => hne (Part.home.inj e).symm) (homeSize_pos _).1 (homeSize_pos _).1
  have hle := hap.le_dist hi
  rwa [Func.partSize, Func.typeOf_eq hd] at hle

theorem Assigned.ran (ha : Assigned f c dst t x c') (hw : f.WellFormed) (hf : f.Fits)
    (h : Holds f c st vs) (hres : s.results = [dst]) (hd : f.values[dst]? = some t)
    (ho : Observed f s c.sp st es) :
    Ran f s c st (st.set dst x) c' es := by
  refine ⟨ha.keeps, ?_, ?_, ?_, ho⟩
  · intro v hv u hu
    rw [hres] at hv
    obtain rfl := List.mem_singleton.mp hv
    cases hd.symm.trans hu
    rw [State.get_set_self _ (by rw [h.size]; exact Func.lt_of_values hd)]
    exact ha.holds
  · intro v hv hne
    rw [hres, List.mem_singleton] at hne
    exact Memory.bytes_congr fun i hi => ha.out _ (home_beside hw hf hd hv hne hi)
  · intro a hout
    rw [State.mem_set, ← h.mem a hout]
    refine ha.out a ?_
    by_contra hlt
    refine hout ⟨dst, Func.lt_of_values hd, ?_⟩
    rw [Func.partSize, Func.typeOf_eq hd]
    omega

theorem Stored.ran {a : UInt64} (hs : Stored c t a x c') (h : Holds f c st vs) (hres : s.results = [])
    (hc : f.ClearOfHomes c.sp a t.bytes) (ho : Observed f s c.sp st es) :
    Ran f s c st { st with mem := writeVal st.mem t a x } c' es := by
  refine ⟨hs.keeps, ?_, ?_, ?_, ho⟩
  · rw [hres]
    exact nofun
  · intro v hv _
    rw [hs.mem]
    exact Memory.bytes_congr fun i hi => get_writeVal_out _ _ ((hc v hv).symm.le_dist hi)
  · intro y hy
    rw [hs.mem]
    exact get_writeVal_congr (h.mem y hy)

theorem Holds.readVal_eq (h : Holds f c st vs) {a : UInt64} (hc : f.ClearOfHomes c.sp a t.bytes) :
    readVal c.mem t a = readVal st.mem t a :=
  readVal_congr fun _ hi => h.mem _ (hc.not_inHome hi)

end

/-! ## instructions that compute -/

/-- code that reads operands and leaves a value in its home -/
def Computes (E : Env) (f : Func) (c : Cpu) (vs : List ValueNo) (is : List Instr) (dst : ValueNo) (t : Ty)
    (x : Val) : Prop :=
  ∃ before bs, (∀ e ∈ before, ReadsHome f c.sp vs e) ∧ bs.length ≤ homeSize t ∧
    Leads E c is (before ++ [.write (f.partAt c.sp (.home dst)) bs]) (Assigned f c dst t x)

section
variable {E : Env} {f : Func} {c c1 : Cpu} {st : State} {vs : List ValueNo} {L : List RegLoc}
variable {x y dst : ValueNo} {t u : Ty} {F : FloatOps} {z : Val}

theorem forall_mem_pair {α : Type} {p : α → Prop} {a b : α} (ha : p a) (hb : p b) : ∀ e ∈ [a, b], p e :=
  List.forall_mem_cons.mpr ⟨ha, List.forall_mem_singleton.mpr hb⟩

theorem Computes.ofInts (h : Holds f c st [x, y]) (tx : f.values[x]? = some t)
    (ty : f.values[y]? = some t) (ht : t.isInt = true) (hu : u.isVector = false)
    (hz : Val.keep u z = z) {is : List Instr}
    (hop : ∀ c1, Loaded c c1 → c1.x 9 = (st.get x).lo → c1.x 10 = (st.get y).lo →
      Leads E c1 is [] fun c2 => Loaded c c2 ∧ c2.x 9 = z.lo) :
    Computes E f c [x, y] ((ctxOf f L).loadInt scratch0 x ++ (ctxOf f L).loadInt scratch1 y ++ is ++
      (ctxOf f L).storeInt dst scratch0) dst u z := by
  have hsize : ¬ t.isVector = true := by simp [(X64.scalar_of_isInt ht).1]
  refine ⟨[.read (f.partAt c.sp (.home x)) 8, .read (f.partAt c.sp (.home y)) 8],
    littleEndian 8 z.lo.toNat, forall_mem_pair ?_ ?_, ?_, ?_⟩
  · exact readsHome List.mem_cons_self tx (by rw [homeSize_scalar hsize])
  · exact readsHome (List.mem_cons_of_mem _ List.mem_cons_self) ty (by rw [homeSize_scalar hsize])
  · rw [length_littleEndian, homeSize_scalar (by simp [hu])]
  · rw [List.append_assoc]
    refine (loadInts_leads h List.mem_cons_self (List.mem_cons_of_mem _ List.mem_cons_self) tx ty
      ht).append ?_
    rintro c1 ⟨h1, ex, ey⟩
    refine (hop c1 h1 ex ey).then ?_
    rintro c2 ⟨h2, e2⟩
    exact storeInt_home h2 hu e2 hz

theorem Computes.ofFloats (h : Holds f c st [x, y]) (tx : f.values[x]? = some t)
    (ty : f.values[y]? = some t) {is : List Instr} {bs : List UInt8} (hbs : bs.length ≤ homeSize u)
    (hop : ∀ c1, Loaded c c1 → c1.v 16 = st.get x → c1.v 17 = st.get y →
      Leads E c1 is [.write (f.partAt c.sp (.home dst)) bs] (Assigned f c dst u z)) :
    Computes E f c [x, y]
      ((ctxOf f L).loadFloat vscratch0 x ++ (ctxOf f L).loadFloat vscratch1 y ++ is) dst u z := by
  refine ⟨[.read (f.partAt c.sp (.home x)) (floatWidth t), .read (f.partAt c.sp (.home y)) (floatWidth t)],
    bs, forall_mem_pair ?_ ?_, hbs, ?_⟩
  · exact readsHome List.mem_cons_self tx (floatWidth_le t)
  · exact readsHome (List.mem_cons_of_mem _ List.mem_cons_self) ty (floatWidth_le t)
  · refine (loadFloats_leads h List.mem_cons_self (List.mem_cons_of_mem _ List.mem_cons_self) tx
      ty).append ?_
    rintro c1 ⟨h1, ex, ey⟩
    exact hop c1 h1 ex ey

theorem const_computes (hs : t.isVector = false) {bits : UInt64}
    (hb : Val.keep t ⟨bits, 0⟩ = ⟨bits, 0⟩) :
    Computes E f c [] (.movImm (.x scratch0) bits.toInt64 :: (ctxOf f L).storeInt dst scratch0) dst t
      ⟨bits, 0⟩ := by
  have hp : (Instr.movImm (.x scratch0) bits.toInt64).perform E c = some (c.setX 9 bits, []) := by
    show some (c.setX 9 bits.toInt64.toUInt64, _) = _
    rw [UInt64.toUInt64_toInt64]
  refine ⟨[], littleEndian 8 bits.toNat, nofun, ?_, .quiet hp ?_⟩
  · rw [length_littleEndian, homeSize_scalar (by simp [hs])]
  · exact storeInt_home ((Loaded.refl c).setX (by decide) bits) hs (x_of_eq _ _ _) hb

/-- **Arithmetic** -/
theorem binary_computes (hE : Env.Agrees E F) (h : Holds f c st [x, y]) (tx : f.values[x]? = some t)
    (ty : f.values[y]? = some t) (hd : f.values[dst]? = some t) (hv : t.isValid = true) {op : BinOp}
    {is : List Instr} (hl : (ctxOf f L).binary op t x y dst = .ok is) :
    Computes E f c [x, y] is dst t (evalBinary F op t (st.get x) (st.get y)) := by
  unfold Ctx.binary at hl
  split at hl
  · rename_i ht
    split at hl
    · rename_i o ho
      cases hl
      have hz : ∀ a b, Val.keep t (evalBinary F op t a b) = evalBinary F op t a b := by
        intro a b
        cases op <;> first | exact X64.keep_keep _ _ | cases ho
      rw [List.append_assoc (_ ++ _) _ (normalize scratch0 t)]
      refine .ofInts h tx ty ht (X64.scalar_of_isInt ht).1 (hz _ _) fun c1 h1 ex ey => ?_
      refine (scalarInt_leads ho ht F ex ey).mono ?_
      rintro _ ⟨w, rfl⟩
      exact ⟨(h1.setX (by decide) w).setX (by decide) _, x_of_eq _ _ _⟩
    · cases hl
  · rename_i ht
    have hint : t.isInt = false := by simpa using ht
    split at hl
    · rename_i i hi
      cases hl
      have hz := keep_floatOrVector (F := F) hi hint (st.get x) (st.get y)
      rw [List.append_assoc (_ ++ _)]
      refine .ofFloats h tx ty (storedBytes_le t (evalBinary F op t (st.get x) (st.get y)))
        fun c1 h1 ex ey => .quiet (floatOrVector_performs hE hi hint) ?_
      rw [ex, ey]
      exact storeFloat_home (h1.setV (by decide) _) hd hv (v_of_eq _ _ _) hz
    · cases hl

theorem keep_ofBool (b : Bool) : Val.keep .i8 (Val.ofBool b) = Val.ofBool b := by cases b <;> rfl

/-- **Comparisons of integers** -/
theorem icmp_computes (h : Holds f c st [x, y]) (tx : f.values[x]? = some t) (ty : f.values[y]? = some t)
    (ht : t.isWideInt = true) (cc : IntCond) :
    Computes E f c [x, y] ((ctxOf f L).icmp cc t x y dst) dst .i8
      (evalICmp cc t (st.get x) (st.get y)) := by
  refine .ofInts h tx ty (X64.isInt_of_isWideInt ht) rfl (keep_ofBool _) fun c1 h1 ex ey => ?_
  refine (icmp_leads cc ex ey).mono ?_
  rintro _ ⟨fl, rfl⟩
  exact ⟨(h1.setFlags fl).setX (by decide) _, x_of_eq _ _ _⟩

/-- **Comparisons of floats** -/
theorem fcmp_computes (hE : Env.Agrees E F) (h : Holds f c st [x, y]) (tx : f.values[x]? = some t)
    (ty : f.values[y]? = some t) (hd : f.values[dst]? = some (Body.fcmpResult t))
    (ht : t.isFloat = true ∨ t = .f64x2) (cc : FloatCond) :
    Computes E f c [x, y] ((ctxOf f L).fcmp cc t x y dst) dst (Body.fcmpResult t)
      (evalFCmp F cc t (st.get x) (st.get y)) := by
  unfold Ctx.fcmp
  rcases ht with ht | rfl
  · have hs : t.isVector = false := by cases t <;> first | rfl | cases ht
    have hres : Body.fcmpResult t = .i8 ∧ ∃ b, evalFCmp F cc t (st.get x) (st.get y) = Val.ofBool b := by
      cases t <;> first | exact ⟨rfl, _, rfl⟩ | cases hs
    obtain ⟨hty, b, hb⟩ := hres
    rw [if_neg (by simp [hs]), hty]
    refine .ofFloats h tx ty (length_littleEndian 8 (evalFCmp F cc t (st.get x) (st.get y)).lo.toNat).le
      fun c1 h1 ex ey => (fcmpScalar_leads hE hs cc).then ?_
    rintro _ ⟨fl, rfl⟩
    rw [ex, ey]
    refine storeInt_home ((h1.setFlags fl).setX (by decide) _) rfl (x_of_eq _ _ _) ?_
    rw [hb]
    exact keep_ofBool b
  · rw [if_pos (show Ty.f64x2.isVector = true from rfl)]
    refine .ofFloats h tx ty (storedBytes_le .i64x2 (evalFCmp F cc .f64x2 (st.get x) (st.get y)))
      fun c1 h1 ex ey => (laneCompare_leads hE cc).then ?_
    rintro _ rfl
    rw [ex, ey]
    exact storeFloat_home (h1.setV (by decide) _) hd rfl (v_of_eq _ _ _) rfl

/-- **A scalar into both lanes** -/
theorem splat_computes (h : Holds f c st [x]) (hx : f.values[x]? = some t.lane)
    (hd : f.values[dst]? = some t) (ht : t.isVector = true) {is : List Instr}
    (hl : (ctxOf f L).splat t x dst = .ok is) :
    Computes E f c [x] is dst t ⟨(st.get x).lo, (st.get x).lo⟩ := by
  cases t with
  | f64x2 =>
    cases hl
    refine ⟨_, _, List.forall_mem_singleton.mpr (readsHome List.mem_cons_self hx (floatWidth_le _)),
      storedBytes_le _ ⟨(st.get x).lo, (st.get x).lo⟩, ?_⟩
    rw [List.append_assoc]
    refine (loadFloat_home h (.refl c) List.mem_cons_self hx (r := vscratch0) (by decide)).append ?_
    rintro c1 ⟨h1, e1, -⟩
    refine .quiet rfl (storeFloat_home (h1.setV (by decide) _) hd rfl ?_ rfl)
    show Val.mk (c1.v vscratch0.toNat).lo (c1.v vscratch0.toNat).lo = _
    rw [e1]
  | i64x2 =>
    cases hl
    refine ⟨_, _, List.forall_mem_singleton.mpr (readsHome List.mem_cons_self hx
      (show 8 ≤ homeSize .i64 by decide)), storedBytes_le _ ⟨(st.get x).lo, (st.get x).lo⟩, ?_⟩
    rw [List.append_assoc]
    refine (loadInt_home h (.refl c) List.mem_cons_self hx rfl (r := scratch0) (by decide)).append ?_
    rintro c1 ⟨h1, f1, -⟩
    refine .quiet rfl (storeFloat_home (h1.setV (by decide) _) hd rfl ?_ rfl)
    rw [f1.lo nofun]
    rfl
  | i8 | i16 | i32 | i64 | f32 | f64 | invalid => cases ht

/-- **A lane of a vector** -/
theorem lane_computes (hw : f.WellFormed) (hf : f.Fits) (h : Holds f c st [x])
    (hx : f.values[x]? = some t) (ht : t.isVector = true) {lane : Nat} (hlane : lane < t.lanes) :
    Computes E f c [x]
      (copy t.lane ((f.frame 0).home dst) ((f.frame 0).home x + Int32.ofNat (8 * lane))) dst t.lane
      (evalLane lane (st.get x)) := by
  have hle := Func.home_le hx
  have hsz : homeSize t = 16 := homeSize_vector ht
  have hlane8 : homeSize t.lane = 8 := by cases t <;> rfl
  have htwo : lane < 2 := by rwa [Ty.lanes, if_pos ht] at hlane
  have hplace : addressOf c.sp ((f.frame 0).home x + Int32.ofNat (8 * lane)) =
      f.partAt c.sp (.home x) + UInt64.ofNat (8 * lane) := by
    have hmid := f.layout_mid
    have hstop := f.layout_stop
    have htr := f.layout_transfer
    have hsize : f.layout.size < 2 ^ 31 := hf
    rw [hw.partAt_eq hf (p := .home x) (Func.lt_of_values hx), hw.home_eq (Func.lt_of_values hx),
      ofNat_add_ofNat, addressOf_ofNat _ (by omega), UInt64.add_assoc, ← UInt64.ofNat_add]
    rfl
  have hcopy := copy_leads E c t.lane ((f.frame 0).home dst)
    ((f.frame 0).home x + Int32.ofNat (8 * lane))
  rw [hplace, hlane8] at hcopy
  refine ⟨[.read (f.partAt c.sp (.home x) + UInt64.ofNat (8 * lane)) 8], _,
    List.forall_mem_singleton.mpr ⟨x, List.mem_cons_self, 8 * lane, 8, rfl, ?_⟩, ?_, hcopy.mono ?_⟩
  · rw [Func.partSize, Func.typeOf_eq hx]
    omega
  · rw [Memory.length_bytes, hlane8]
  · rintro c' ⟨hk, hm⟩
    refine ⟨hk, ((h.homes x List.mem_cons_self t hx).lane ht hlane).of_bytes ?_, fun a ha => ?_⟩
    · rw [hm, hlane8]
      exact Memory.bytes_move_self c.mem _ (show 8 ≤ 2 ^ 64 by decide)
    · rw [hm]
      exact Memory.get_move_out (hlane8 ▸ ha)

/-- **The address of a slot** -/
theorem stackAddr_computes (off : Int32) :
    Computes E f c [] ((ctxOf f L).stackAddr off dst) dst .pointer ⟨addressOf c.sp off, 0⟩ := by
  have hsum : Leads E c (if 0 ≤ off ∧ off ≤ 0xFFF
        then [.addImm (.x scratch0) (.x sp) off.toUInt32 false]
        else [.movImm (.x scratch0) off.toInt64, .addSP (.x scratch0) (.x scratch0)]) []
      fun c1 => ∃ y, c1 = (c.setX 9 y).setX 9 (addressOf c.sp off) := by
    split
    · rename_i h
      have h0 : 0 ≤ off.toInt := Int32.le_iff_toInt_le.mp h.1
      have hn : off.toUInt32.toNat = off.toInt.toNat := by
        have := toNat_toUInt32 h0
        omega
      have hlt := off.toInt_lt
      have e : addressOf c.sp off = c.sp + UInt64.ofNat (off.toUInt32.toNat * 1) := by
        rw [Nat.mul_one, hn, ← addressOf_ofNat _ (by omega), ← Func.ofNat_of_nonneg h0]
      refine .last rfl ⟨0, ?_⟩
      rw [Cpu.setX_setX, e]
      rfl
    · exact .quiet rfl (.last rfl ⟨off.toInt64.toUInt64, rfl⟩)
  refine ⟨[], littleEndian 8 (addressOf c.sp off).toNat, nofun, (length_littleEndian _ _).le,
    hsum.then ?_⟩
  rintro _ ⟨y, rfl⟩
  exact storeInt_home (x := ⟨addressOf c.sp off, 0⟩)
    (((Loaded.refl c).setX (n := 9) (by decide) y).setX (by decide) _) rfl (x_of_eq _ _ _) rfl

end

/-! ## instructions that access memory -/

section
variable {E : Env} {f : Func} {c : Cpu} {st : State} {vs : List ValueNo} {L : List RegLoc}
variable {x p dst : ValueNo} {s : Nat} {t : Ty} {off : Int32}

theorem pointer_leads (h : Holds f c st vs) (hv : p ∈ vs) (hp : f.values[p]? = some .pointer) :
    Leads E c ((ctxOf f L).loadInt scratch1 p) [.read (f.partAt c.sp (.home p)) 8] fun c1 =>
      Loaded c c1 ∧ c1.x 10 = (st.get p).lo := by
  refine (loadInt_home h (.refl c) hv hp rfl (r := scratch1) (by decide)).mono ?_
  rintro c1 ⟨h1, f1, -⟩
  exact ⟨h1, (f1.lo nofun).symm⟩

/-- **A read through a pointer** -/
theorem load_leads (h : Holds f c st [p]) (hp : f.values[p]? = some .pointer)
    (hd : f.values[dst]? = some t) (ht : t.isValid = true)
    (hc : f.ClearOfHomes c.sp (addressOf (st.get p).lo off) t.bytes) :
    ∃ bs, bs.length ≤ homeSize t ∧ Leads E c
      ((ctxOf f L).loadInt scratch1 p ++ (ctxOf f L).loadFrom t (ptrAccess scratch1 off) dst)
      [.read (f.partAt c.sp (.home p)) 8, .read (addressOf (st.get p).lo off) t.bytes,
        .write (f.partAt c.sp (.home dst)) bs]
      (Assigned f c dst t (readVal st.mem t (addressOf (st.get p).lo off))) := by
  obtain ⟨c1, hp1, h1, e1⟩ := pointer_leads (E := E) (L := L) h List.mem_cons_self hp
  have hreach := reaches_ptrAccess c1 off
  rw [e1] at hreach
  obtain ⟨bs, hbs, c2, hp2, h2⟩ := loadFrom_leads (E := E) (L := L) h1 hreach hd ht
  rw [h.readVal_eq hc] at h2
  exact ⟨bs, hbs, c2, performAll_append hp1 hp2, h2⟩

/-- **A write through a pointer** -/
theorem store_leads (off : Int32) (h : Holds f c st [x, p]) (hx : f.values[x]? = some t)
    (hp : f.values[p]? = some .pointer) (ht : t.isValid = true) :
    ∃ n ≤ homeSize t, Leads E c
      ((ctxOf f L).loadInt scratch1 p ++ (ctxOf f L).storeTo t (ptrAccess scratch1 off) x)
      [.read (f.partAt c.sp (.home p)) 8, .read (f.partAt c.sp (.home x)) n,
        .write (addressOf (st.get p).lo off) (storedBytes t (st.get x))]
      (Stored c t (addressOf (st.get p).lo off) (st.get x)) := by
  obtain ⟨c1, hp1, h1, e1⟩ := pointer_leads (E := E) (L := L) h
    (List.mem_cons_of_mem _ List.mem_cons_self) hp
  have hreach : ∀ c2, Loaded c c2 → c2.x 10 = c1.x 10 →
      Reaches (ptrAccess scratch1 off) c2 (addressOf (st.get p).lo off) := by
    intro c2 _ e2
    rw [← e1, ← e2]
    exact reaches_ptrAccess c2 off
  obtain ⟨n, hn, c2, hp2, h2⟩ := storeTo_leads (E := E) (L := L) h h1 List.mem_cons_self hx ht hreach
  exact ⟨n, hn, c2, performAll_append hp1 hp2, h2⟩

/-- **A read of a slot** -/
theorem stackLoad_leads (hw : f.WellFormed) (hf : f.Fits) (h : Holds f c st vs)
    (hs : f.SlotHolds s off t.bytes) (hd : f.values[dst]? = some t) (ht : t.isValid = true)
    (h0 : 0 < t.bytes) :
    ∃ bs, bs.length ≤ homeSize t ∧ Leads E c
      ((ctxOf f L).loadFrom t (spAccess ((ctxOf f L).slotAddr s off)) dst)
      [.read (addressOf (f.partAt c.sp (.slot s)) off) t.bytes, .write (f.partAt c.sp (.home dst)) bs]
      (Assigned f c dst t (readVal st.mem t (addressOf c.sp ((f.frame 0).slot s + off)))) := by
  have hload := loadFrom_leads (E := E) (L := L) (.refl c)
    (reaches_spAccess c ((ctxOf f L).slotAddr s off)) hd ht
  have hclear : f.ClearOfHomes c.sp (addressOf c.sp ((f.frame 0).slot s + off)) t.bytes :=
    hw.clear_slot hf hs h0
  rw [← h.readVal_eq hclear, ← hw.slotAccess_eq hf hs]
  exact hload

/-- **A write to a slot** -/
theorem stackStore_leads (hw : f.WellFormed) (hf : f.Fits) (h : Holds f c st [x])
    (hs : f.SlotHolds s off t.bytes) (hx : f.values[x]? = some t) (ht : t.isValid = true) :
    ∃ n ≤ homeSize t, Leads E c
      ((ctxOf f L).storeTo t (spAccess ((ctxOf f L).slotAddr s off)) x)
      [.read (f.partAt c.sp (.home x)) n,
        .write (addressOf (f.partAt c.sp (.slot s)) off) (storedBytes t (st.get x))]
      (Stored c t (addressOf c.sp ((f.frame 0).slot s + off)) (st.get x)) := by
  rw [← hw.slotAccess_eq hf hs]
  refine storeTo_leads h (.refl c) List.mem_cons_self hx ht fun c2 h2 _ => ?_
  rw [← h2.keeps.sp]
  exact reaches_spAccess c2 _

end

/-! ## a step -/

/-- the code of a step leads to where the interpreter is -/
def Does (E : Env) (f : Func) (s : Step) (c : Cpu) (st : State) (is : List Instr) (st' : State) : Prop :=
  ∃ es, Leads E c is es fun c' => Ran f s c st st' c' es

section
variable {E : Env} {f : Func} {c : Cpu} {st : State} {L : List RegLoc} {s : Step} {t : Ty} {dst : ValueNo}
variable {is : List Instr} {x : Val} {before after : List TreeJit.A64.Event} {a : UInt64}

theorem Does.ofAssigned (hw : f.WellFormed) (hf : f.Fits) (h : Holds f c st s.inst.reads)
    (hres : s.results = [dst]) (hd : f.values[dst]? = some t)
    (hbefore : ∀ e ∈ before, ReadsHome f c.sp s.inst.reads e) {bs : List UInt8}
    (hbs : bs.length ≤ homeSize t)
    (hl : Leads E c is (before ++ s.inst.accesses f c.sp st ++ [.write (f.partAt c.sp (.home dst)) bs])
      (Assigned f c dst t x)) : Does E f s c st is (st.set dst x) := by
  refine ⟨_, hl.mono fun c' ha => ha.ran hw hf h hres hd ⟨_, _, rfl, hbefore, ?_⟩⟩
  rw [hres]
  exact List.forall_mem_singleton.mpr (writesHome List.mem_cons_self hd hbs)

theorem Computes.does (hw : f.WellFormed) (hf : f.Fits) (h : Holds f c st s.inst.reads)
    (hres : s.results = [dst]) (hd : f.values[dst]? = some t) (hno : s.inst.accesses f c.sp st = [])
    (hc : Computes E f c s.inst.reads is dst t x) : Does E f s c st is (st.set dst x) := by
  obtain ⟨before, bs, hbefore, hbs, hl⟩ := hc
  refine .ofAssigned hw hf h hres hd hbefore hbs ?_
  rwa [hno, List.append_nil]

theorem Does.ofStored (h : Holds f c st s.inst.reads) (hres : s.results = [])
    (hbefore : ∀ e ∈ before, ReadsHome f c.sp s.inst.reads e) (hc : f.ClearOfHomes c.sp a t.bytes)
    (hl : Leads E c is (before ++ s.inst.accesses f c.sp st) (Stored c t a x)) :
    Does E f s c st is { st with mem := writeVal st.mem t a x } :=
  ⟨_, hl.mono fun _ hs => hs.ran h hres hc ⟨_, [], (List.append_nil _).symm, hbefore, nofun⟩⟩

theorem bytes_pos (ht : t.isValid = true) : 0 < t.bytes := by
  cases t <;> first | decide | cases ht

/-- **The code of a step that neither calls nor branches does what the interpreter does.** -/
theorem step_does (hw : f.WellFormed) (hf : f.Fits) {w : World} (hE : Env.Agrees E w.float)
    (ht : s.Typed f) (h : Holds f c st s.inst.reads) (hclear : s.inst.KeepsClear f c.sp st)
    (hcall : ∀ fn args, s.inst ≠ .call fn args) (hend : s.inst.isTerminator = false) {b : Nat}
    {ls : List (Line Instr)} (hl : (ctxOf f L).lowerStep b s = .ok ls) :
    ∃ is st', ls = code is ∧ execStep w ⟨f, f.frame 0, c.sp⟩ st s = .ok (.on st') ∧
      Does E f s c st is st' := by
  obtain ⟨inst, results⟩ := s
  obtain ⟨rs, hi, hr⟩ := ht
  have hvalid : ∀ {v : ValueNo} {t : Ty}, f.values[v]? = some t → t.isValid = true :=
    fun hv => hw.valid _ (Array.mem_toList_iff.mpr (Array.mem_of_getElem? hv))
  -- a step that computes has one result, and makes no access of its own
  have one : ∀ {t : Ty} {is : List Instr} {x : Val}, rs = [t] → inst.accesses f c.sp st = [] →
      (f.values[results.headD 0]? = some t → Computes E f c inst.reads is (results.headD 0) t x) →
      Does E f ⟨inst, results⟩ c st is (st.set (results.headD 0) x) := by
    rintro t is x rfl hno hc
    obtain ⟨hres, hd⟩ := hr.single
    exact (hc hd).does hw hf h hres hd hno
  cases inst with
  | iconst t bits =>
    obtain ⟨hint, hb, hrs⟩ := hi
    cases hl
    exact ⟨_, _, rfl, rfl, one hrs rfl fun _ =>
      const_computes (X64.scalar_of_isInt hint).1 (X64.keep_of_truncateTo hint hb)⟩
  | fconst t bits =>
    obtain ⟨hfl, hb, hrs⟩ := hi
    cases hl
    have hv : t.isVector = false := by cases t <;> first | rfl | cases hfl
    exact ⟨_, _, rfl, rfl, one hrs rfl fun _ => const_computes hv (X64.keep_of_single hfl hb)⟩
  | binary op t x y =>
    obtain ⟨-, hxy, hrs⟩ := hi
    obtain ⟨hx, hy⟩ := Func.HasTypes.pair_iff.mp hxy
    obtain ⟨is, his, rfl⟩ := map_eq_ok.mp hl
    exact ⟨is, _, rfl, rfl, one hrs rfl fun hd => binary_computes hE h hx hy hd (hvalid hd) his⟩
  | icmp cc t x y =>
    obtain ⟨hwide, hxy, hrs⟩ := hi
    obtain ⟨hx, hy⟩ := Func.HasTypes.pair_iff.mp hxy
    cases hl
    exact ⟨_, _, rfl, rfl, one hrs rfl fun _ => icmp_computes h hx hy hwide cc⟩
  | fcmp cc t x y =>
    obtain ⟨hfl, hxy, hrs⟩ := hi
    obtain ⟨hx, hy⟩ := Func.HasTypes.pair_iff.mp hxy
    cases hl
    exact ⟨_, _, rfl, rfl, one hrs rfl fun hd => fcmp_computes hE h hx hy hd hfl cc⟩
  | splat t x =>
    obtain ⟨hv, hx, hrs⟩ := hi
    obtain ⟨is, his, rfl⟩ := map_eq_ok.mp hl
    exact ⟨is, _, rfl, rfl, one hrs rfl fun hd =>
      splat_computes h (Func.HasTypes.singleton_iff.mp hx) hd hv his⟩
  | extractLane t x lane =>
    obtain ⟨hv, hx, hlane, hrs⟩ := hi
    cases hl
    exact ⟨_, _, rfl, rfl, one hrs rfl fun _ =>
      lane_computes hw hf h (Func.HasTypes.singleton_iff.mp hx) hv hlane⟩
  | load t p off =>
    obtain ⟨hv, hp, rfl⟩ := hi
    obtain ⟨hres, hd⟩ := hr.single
    cases hl
    obtain ⟨bs, hbs, hlead⟩ := load_leads (E := E) (L := L) h (Func.HasTypes.singleton_iff.mp hp) hd hv hclear
    exact ⟨_, _, rfl, rfl, .ofAssigned hw hf h hres hd (List.forall_mem_singleton.mpr
      (readsHome List.mem_cons_self (Func.HasTypes.singleton_iff.mp hp) (by decide))) hbs hlead⟩
  | store t x p off =>
    obtain ⟨hxp, rfl⟩ := hi
    obtain ⟨hx, hp⟩ := Func.HasTypes.pair_iff.mp hxp
    cases hl
    obtain ⟨n, hn, hlead⟩ := store_leads (E := E) (L := L) off h hx hp (hvalid hx)
    refine ⟨_, _, rfl, rfl, .ofStored h (List.length_eq_zero_iff.mp hr.length_eq) (forall_mem_pair ?_ ?_)
      hclear hlead⟩
    · exact readsHome (List.mem_cons_of_mem _ List.mem_cons_self) hp (by decide)
    · exact readsHome List.mem_cons_self hx hn
  | stackLoad t s off =>
    obtain ⟨hv, hslot, rfl⟩ := hi
    obtain ⟨hres, hd⟩ := hr.single
    cases hl
    obtain ⟨bs, hbs, hlead⟩ := stackLoad_leads (E := E) (L := L) hw hf h hslot hd hv (bytes_pos hv)
    exact ⟨_, _, rfl, rfl, .ofAssigned hw hf h hres hd (List.forall_mem_nil _) hbs hlead⟩
  | stackStore t x s off =>
    obtain ⟨hx, hslot, rfl⟩ := hi
    have htx := Func.HasTypes.singleton_iff.mp hx
    cases hl
    obtain ⟨n, hn, hlead⟩ := stackStore_leads (E := E) (L := L) hw hf h hslot htx (hvalid htx)
    exact ⟨_, _, rfl, rfl, .ofStored h (List.length_eq_zero_iff.mp hr.length_eq)
      (List.forall_mem_singleton.mpr (readsHome List.mem_cons_self htx hn))
      (hw.clear_slot hf hslot (bytes_pos (hvalid htx))) hlead⟩
  | stackAddr s off =>
    obtain ⟨-, hrs⟩ := hi
    cases hl
    exact ⟨_, _, rfl, rfl, one hrs rfl fun _ => stackAddr_computes _⟩
  | call fn args => exact absurd rfl (hcall fn args)
  | jump t | brif ty c yes no | ret args => cases hend

end

end TreeJit.Compile.A64
