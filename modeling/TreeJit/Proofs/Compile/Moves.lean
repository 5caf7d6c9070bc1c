import TreeJit.Proofs.Compile.Homes
import TreeJit.Proofs.Word.Copies

/-!
# Moving values

The machine moves a scalar as a word and a vector through an SSE register.  `Fills t w x` says that
the word `w` stands for the value `x` of the scalar type `t`: it is `x`, but for a single, of which
the upper half of the word is not determined.

* `Sim.loadInt`, `Sim.loadFloat`     an operand goes to a register;
* `Sim.storeInt`, `Sim.storeFloat`   a register goes to the home of a result;
* `Sim.loadFrom`, `Sim.storeTo`      reads and writes of memory.
-/

namespace TreeJit.Compile.X64

open SSA TreeJit.X64

/-! ## what types keep -/

theorem and_and_self (x m : UInt64) : x &&& m &&& m = x &&& m := by
  rw [UInt64.and_assoc, UInt64.and_self]

theorem keep_keep (t : Ty) (x : Val) : Val.keep t (Val.keep t x) = Val.keep t x := by
  cases t <;> simp [Val.keep, and_and_self]

theorem keep_scalar {t : Ty} (ht : t.isVector = false) (x : Val) :
    Val.keep t ⟨x.lo, 0⟩ = Val.keep t x ∧ (Val.keep t x).hi = 0 := by
  cases t <;> first | exact ⟨rfl, rfl⟩ | cases ht

theorem ofNat_and {n k : Nat} (hk : k ≤ 64) (h : n < 2 ^ k) :
    UInt64.ofNat n &&& UInt64.ofNat (2 ^ k - 1) = UInt64.ofNat n := by
  have hle : 2 ^ k ≤ 2 ^ 64 := Nat.pow_le_pow_right (by omega) hk
  rw [← ofNat_mod_and _ _ hk, UInt64.toNat_ofNat', Nat.mod_eq_of_lt (a := n) (by omega),
    Nat.mod_eq_of_lt h]

theorem keep_readVal (m : Memory) (t : Ty) (a : UInt64) :
    Val.keep t (readVal m t a) = readVal m t a := by
  have hlt : ∀ n, m.read n a < 2 ^ (8 * n) := by
    intro n
    rw [Nat.pow_mul]
    exact Memory.read_lt m n a
  cases t with
  | f64x2 | i64x2 => rfl
  | i64 | f64 | invalid => rfl
  | i8 => exact congrArg (Val.mk · 0) (ofNat_and (k := 8) (by omega) (hlt 1))
  | i16 => exact congrArg (Val.mk · 0) (ofNat_and (k := 16) (by omega) (hlt 2))
  | i32 | f32 => exact congrArg (Val.mk · 0) (ofNat_and (k := 32) (by omega) (hlt 4))

/-! ## words that stand for values -/

/-- a word stands for a value of a scalar type; of a single it gives the lower half -/
structure Fills (t : Ty) (w : UInt64) (x : Val) : Prop where
  keep : Val.keep t ⟨w, 0⟩ = x
  exact : t ≠ .f32 → x = ⟨w, 0⟩

theorem Fills.of_keep {t : Ty} (ht : t.isVector = false) {x : Val} (hx : Val.keep t x = x) :
    Fills t x.lo x := by
  obtain ⟨h1, h2⟩ := keep_scalar ht x
  rw [hx] at h1 h2
  refine ⟨h1, fun _ => ?_⟩
  cases x
  cases h2
  rfl

theorem Fills.lo {t : Ty} {w : UInt64} {x : Val} (h : Fills t w x) (ht : t ≠ .f32) : x.lo = w := by
  rw [h.exact ht]

theorem keep_of_fills {t : Ty} {w : UInt64} {x : Val} (h : Fills t w x) : Val.keep t x = x := by
  rw [← h.keep, keep_keep]

theorem read_half (m : Memory) (a : UInt64) : m.read 8 a % 2 ^ 32 = m.read 4 a := by
  have h := Memory.read_lt m 4 a
  rw [Memory.read, Memory.bytes_append m 4 4, ofLittleEndian_append, Memory.length_bytes]
  unfold Memory.read at h ⊢
  omega

theorem keep_word_single (m : Memory) (a : UInt64) :
    Val.keep .f32 ⟨UInt64.ofNat (m.read 8 a), 0⟩ = readVal m .f32 a := by
  have h := Memory.read_lt m 8 a
  show Val.mk (UInt64.ofNat (m.read 8 a) &&& UInt64.ofNat (2 ^ 32 - 1)) 0 = _
  rw [← ofNat_mod_and _ _ (by omega), UInt64.toNat_ofNat', Nat.mod_eq_of_lt (a := m.read 8 a)
    (by omega), read_half]
  rfl

theorem HomeHolds.fills {m : Memory} {a : UInt64} {t : Ty} {x : Val} (h : HomeHolds m a t x)
    (ht : t.isVector = false) : Fills t (UInt64.ofNat (m.read 8 a)) x := by
  obtain ⟨h1, h2⟩ := h
  cases t with
  | f64x2 | i64x2 => cases ht
  | f32 => exact ⟨by rw [keep_word_single]; exact h1, fun hne => absurd rfl hne⟩
  | _ =>
    subst h1
    exact ⟨h2, fun _ => rfl⟩

theorem homeHolds_of_fills {m : Memory} {a : UInt64} {t : Ty} {x : Val} (ht : t.isVector = false)
    (h : Fills t (UInt64.ofNat (m.read 8 a)) x) : HomeHolds m a t x := by
  refine ⟨?_, keep_of_fills h⟩
  cases t with
  | f64x2 | i64x2 => cases ht
  | f32 =>
    rw [← h.keep, keep_word_single]
    rfl
  | _ =>
    rw [h.exact nofun]
    rfl

theorem homeHolds_word {m : Memory} {a : UInt64} {t : Ty} {w : UInt64} {x : Val}
    (ht : t.isVector = false) (h : Fills t w x) : HomeHolds (m.write 8 a w.toNat) a t x := by
  refine homeHolds_of_fills ht ?_
  rw [Memory.read_write_self _ _ _ _ (by omega), ofNat_toNat_mod]
  exact h

/-! ## registers and homes -/

theorem xform_read (t : Ty) (m : Memory) (a : UInt64) :
    (xform t).read m a = readVal m (homeTy t) a := by
  cases t <;> rfl

theorem xform_write (t : Ty) (m : Memory) (a : UInt64) (x : Val) :
    (xform t).write m a x = writeVal m (homeTy t) a x := by
  cases t <;> rfl

section
variable {K : Call} {A : ValueNo → Prop} {st : State} {c : Cpu} {v dst : ValueNo} {t : Ty}
variable {L : List RegLoc}

theorem Sim.loadInt (hK : K.Ok) (h : Sim K A st c) (hA : A v) (hv : K.fn.values[v]? = some t)
    (ht : t.isVector = false) (r : RegId) :
    ∃ w, Fills t w (st.get v) ∧
      ((K.ctx L).loadInt r v).perform K.env c = some (c.setGpr r w, []) := by
  refine ⟨_, (h.homes v t hA hv).fills ht, ?_⟩
  show some (c.setGpr r (UInt64.ofNat (c.mem.read 8 (c.address ((K.ctx L).home v)))), _) = _
  rw [hK.address_home hv h.stack]
  rfl

theorem Sim.loadFloat (hK : K.Ok) (h : Sim K A st c) (hA : A v) (hv : K.fn.values[v]? = some t)
    (r : XReg) :
    ((K.ctx L).loadFloat t r v).perform K.env c = some (c.setXmm r (st.get v), []) := by
  show some (c.setXmm r ((xform t).read c.mem (c.address ((K.ctx L).home v))), _) = _
  rw [hK.address_home hv h.stack, xform_read, (h.homes v t hA hv).1]
  rfl

theorem Sim.storeInt (hK : K.Ok) (h : Sim K A st c) (hd : K.fn.values[dst]? = some t)
    (ht : t.isVector = false) {r : RegId} {x : Val} (hx : Fills t (c.gpr r) x) :
    Leads K.env c [(K.ctx L).storeInt dst r] [] (Sim K (fun v => v = dst ∨ A v) (st.set dst x)) := by
  have hle := Func.home_le hd
  have hm := hK.mid_le
  have hsz : homeSize t = 8 := by simp [homeSize, ht]
  refine .quiet (d := c.setMem (c.mem.write 8 (K.home dst) (c.gpr r).toNat)) ?_ (.nil ?_)
  · show some (c.setMem (c.mem.write 8 (c.address ((K.ctx L).home dst)) (c.gpr r).toNat), _) = _
    rw [hK.address_home hd h.stack]
    rfl
  · exact h.assign hK hd (within_write (by omega) (by omega) _ _) (homeHolds_word ht hx)

theorem Sim.storeFloat (hK : K.Ok) (h : Sim K A st c) (hd : K.fn.values[dst]? = some t)
    {r : XReg} {x : Val} (hx : Val.keep (homeTy t) (c.xmm r) = x)
    (hk : Val.keep t x = x) :
    Leads K.env c [(K.ctx L).storeFloat t dst r] []
      (Sim K (fun v => v = dst ∨ A v) (st.set dst x)) := by
  have hle := Func.home_le hd
  have hm := hK.mid_le
  have hval : (homeTy t).isValid = true := by cases t <;> rfl
  refine .quiet (d := c.setMem (writeVal c.mem (homeTy t) (K.home dst) (c.xmm r))) ?_ (.nil ?_)
  · show some (c.setMem ((xform t).write c.mem (c.address ((K.ctx L).home dst)) (c.xmm r)), _) = _
    rw [hK.address_home hd h.stack, xform_write]
    rfl
  · refine h.assign hK hd (within_writeVal (by omega) (bytes_homeTy t) _ _) ⟨?_, hk⟩
    rw [← hx]
    exact readVal_writeVal _ _ _ _ hval

/-! ## memory -/

theorem loadFrom_scalar (E : Env) (m : Mem) (dst : ValueNo) (ht : t.isVector = false) (hv : t.isValid = true) :
    ∃ i, (K.ctx L).loadFrom t m dst = [i, (K.ctx L).storeInt dst rax] ∧
      i.perform E c = some (c.setGpr rax (readVal c.mem t (c.address m)).lo,
        m.seen (.read (c.address m) t.bytes)) := by
  cases t with
  | f64x2 | i64x2 => cases ht
  | invalid => cases hv
  | i8 | i16 | i64 | f64 => exact ⟨_, rfl, rfl⟩
  | i32 | f32 =>
    refine ⟨_, rfl, ?_⟩
    have hlt := Memory.read_lt c.mem 4 (c.address m)
    have e : UInt64.ofNat (c.mem.read 4 (c.address m)) &&& 0xFFFFFFFF =
        UInt64.ofNat (c.mem.read 4 (c.address m)) := ofNat_and (k := 32) (by omega) hlt
    show some (c.setGpr rax (UInt64.ofNat (c.mem.read 4 (c.address m)) &&& 0xFFFFFFFF), _) = _
    rw [e]
    rfl

theorem loadFrom_vector (m : Mem) (ht : t.isVector = true) :
    (K.ctx L).loadFrom t m dst = [.xload .upd 0 m, (K.ctx L).storeFloat t dst 0] := by
  cases t <;> first | rfl | cases ht

/-- **A read of memory.** -/
theorem Sim.loadFrom (hK : K.Ok) (h : Sim K A st c) {m : Mem} {a : UInt64} (ha : c.address m = a)
    (hc : K.Clear a t.bytes) (hd : K.fn.values[dst]? = some t) (hv : t.isValid = true) :
    Leads K.env c ((K.ctx L).loadFrom t m dst) (m.seen (.read a t.bytes))
      (Sim K (fun v => v = dst ∨ A v) (st.set dst (readVal st.mem t a))) := by
  have e : readVal c.mem t a = readVal st.mem t a :=
    h.readVal_eq (by cases t <;> simp [Ty.bytes]) hc
  by_cases ht : t.isVector = true
  · rw [loadFrom_vector m ht]
    have hp : (Instr.xload .upd 0 m).perform K.env c =
        some (c.setXmm 0 (readVal st.mem t a), m.seen (.read a t.bytes)) := by
      rw [bytes_of_isVector ht, ← e, readVal_vector _ _ ht, ← ha]
      rfl
    have hs := (h.setXmm 0 (readVal st.mem t a)).storeFloat (L := L) hK hd (r := 0)
      (x := readVal st.mem t a) (by cases t <;> first | rfl | cases ht) (keep_readVal _ _ _)
    simpa using hs.cons hp
  · have ht' : t.isVector = false := by simpa using ht
    obtain ⟨i, ei, hp⟩ := loadFrom_scalar (K := K) (L := L) (c := c) K.env m dst ht' hv
    rw [ha, e] at hp
    have hs := (h.setGpr (r := rax) (by decide) (readVal st.mem t a).lo).storeInt (L := L) hK hd ht'
      (r := rax) (Fills.of_keep ht' (keep_readVal st.mem t a))
    rw [ei]
    simpa using hs.cons hp

theorem storeTo_scalar (m : Mem) (ht : t.isVector = false) (hv : t.isValid = true) :
    ∃ w : Width, (K.ctx L).storeTo t m v = [(K.ctx L).loadInt rax v, .store m ⟨rax, w⟩] ∧
      w.bytes = t.bytes ∧ ∀ y x, Fills t y x → w.cut y = x.lo := by
  cases t with
  | f64x2 | i64x2 => cases ht
  | invalid => cases hv
  | i8 => exact ⟨.w8, rfl, rfl, fun y x h => by rw [← h.keep]; rfl⟩
  | i16 => exact ⟨.w16, rfl, rfl, fun y x h => by rw [← h.keep]; rfl⟩
  | i32 | f32 => exact ⟨.w32, rfl, rfl, fun y x h => by rw [← h.keep]; rfl⟩
  | i64 | f64 => exact ⟨.w64, rfl, rfl, fun y x h => by rw [← h.keep]; rfl⟩

theorem storeTo_vector (m : Mem) (ht : t.isVector = true) :
    (K.ctx L).storeTo t m v = [(K.ctx L).loadFloat t 0 v, .xstore .upd m 0] := by
  cases t <;> first | rfl | cases ht

/-- **A write to memory**, at a base register other than the one that is used on the way. -/
theorem Sim.storeTo (hK : K.Ok) (h : Sim K A st c) {r : RegId} (hr : r ≠ rax) (off : Int32)
    (hc : K.Clear (addressOf (c.gpr r) off) t.bytes) (hA : A v) (hv : K.fn.values[v]? = some t) :
    Leads K.env c ((K.ctx L).storeTo t (.at r off) v)
      ((Mem.at r off).seen (.write (addressOf (c.gpr r) off) (storedBytes t (st.get v))))
      (Sim K A { st with mem := writeVal st.mem t (addressOf (c.gpr r) off) (st.get v) }) := by
  by_cases ht : t.isVector = true
  · rw [storeTo_vector _ ht]
    refine .quiet (h.loadFloat hK hA hv 0) ?_
    have hs := (h.setXmm 0 (st.get v)).store hK hc (st.get v)
    rw [writeVal_vector (c.setXmm 0 (st.get v)).mem _ _ ht] at hs
    rw [storedBytes, if_pos ht]
    have hl := Leads.cons (E := K.env) (i := .xstore .upd (.at r off) 0) rfl (.nil hs)
    rwa [List.append_nil] at hl
  · have ht' : t.isVector = false := by simpa using ht
    obtain ⟨w, e, hb, hcut⟩ := storeTo_scalar (K := K) (L := L) (v := v) (.at r off) ht'
      (hK.wellFormed.valid t (List.mem_of_getElem? (Func.values_get hv)))
    obtain ⟨y, hy, hp⟩ := h.loadInt (L := L) hK hA hv ht' rax
    have ha : (c.setGpr rax y).address (.at r off) = addressOf (c.gpr r) off := by
      show addressOf ((c.setGpr rax y).gpr r) off = _
      rw [Cpu.gpr_setGpr, if_neg hr]
    have hg : (c.setGpr rax y).get ⟨rax, w⟩ = (st.get v).lo := by
      show w.cut ((c.setGpr rax y).gpr rax) = _
      rw [Cpu.gpr_setGpr, if_pos rfl, hcut y _ hy]
    have hp' : (Instr.store (.at r off) ⟨rax, w⟩).perform K.env (c.setGpr rax y) =
        some ((c.setGpr rax y).setMem (writeVal c.mem t (addressOf (c.gpr r) off) (st.get v)),
          (Mem.at r off).seen (.write (addressOf (c.gpr r) off) (storedBytes t (st.get v)))) := by
      rw [Instr.perform, ha, hg, writeVal_scalar _ _ _ ht', storedBytes, if_neg ht, ← hb]
      rfl
    rw [e]
    have hs := (h.setGpr (r := rax) (by decide) y).store hK hc (st.get v)
    have hl := Leads.cons hp' (.nil hs)
    rw [List.append_nil] at hl
    exact .quiet hp hl

/-! ## copies inside the frame -/

/-- a copy moves the bytes of a home, by way of a register that is not pinned -/
theorem copy_moves (E : Env) (c : Cpu) (t : Ty) (dst src : Int32) :
    Leads E c (copy t (onStack dst) (onStack src)) [] fun c' =>
      (∀ r ∈ pinned, c'.gpr r = c.gpr r) ∧
        c'.mem = c.mem.move ⟨addressOf (c.gpr rsp) dst, addressOf (c.gpr rsp) src, homeSize t⟩ := by
  unfold copy
  by_cases ht : t.isVector = true
  · have hstore : ∀ x, (Instr.xstore .upd (onStack dst) 0).perform E (c.setXmm 0 x) =
        some ((c.setXmm 0 x).setMem (writeVal c.mem .f64x2 (addressOf (c.gpr rsp) dst) x), []) :=
      fun _ => rfl
    rw [if_pos ht, homeSize, if_pos ht, ← Memory.writeVal_readVal]
    exact .quiet rfl (.quiet (hstore _) (.nil ⟨fun _ _ => rfl, rfl⟩))
  · have hstore : ∀ x, (Instr.store (onStack dst) (.r64 rax)).perform E (c.setGpr rax x) =
        some ((c.setGpr rax x).setMem (c.mem.write 8 (addressOf (c.gpr rsp) dst) x.toNat), []) :=
      fun _ => rfl
    rw [if_neg ht, homeSize, if_neg ht, ← Memory.write_read, ← Memory.toNat_read]
    refine .quiet rfl (.quiet (hstore _) (.nil ⟨fun r hr => ?_, rfl⟩))
    rw [Cpu.gpr_setMem, Cpu.gpr_setGpr, if_neg]
    rintro rfl
    exact absurd hr (by decide)

theorem Sim.copyHome (hK : K.Ok) (h : Sim K A st c) (hd : K.fn.values[dst]? = some t) {k : Nat}
    (hk : k < 2 ^ 31) {x : Val} (hx : HomeHolds c.mem (K.place k) t x) :
    Leads K.env c (copy t ((K.ctx L).home dst) (onStack (Int32.ofNat k))) []
      (Sim K (fun v => v = dst ∨ A v) (st.set dst x)) := by
  have hle := Func.home_le hd
  have hm := hK.mid_le
  have hsize := (homeSize_pos t).2
  have hdst : addressOf (c.gpr rsp) ((K.fn.frame 0).home dst) = K.home dst :=
    hK.address_home hd h.stack L
  have hsrc : addressOf (c.gpr rsp) (Int32.ofNat k) = K.place k := by
    rw [h.stack, addressOf_ofNat _ hk]
    rfl
  refine (copy_moves K.env c t ((K.fn.frame 0).home dst) (Int32.ofNat k)).mono ?_
  rintro c' ⟨hr, hmem⟩
  rw [hdst, hsrc] at hmem
  refine (h.assign hK hd (m := c'.mem) ?_ (hx.of_bytes ?_)).congr hr rfl
  · intro y hy
    have hout : homeSize t ≤ Memory.dist (K.home dst) y := dist_place K.base y (by omega) hy
    rw [hmem]
    exact Memory.get_move_out hout
  · rw [hmem]
    exact Memory.bytes_move_self c.mem _ (Nat.le_trans hsize (by decide))

end

end TreeJit.Compile.X64
