import TreeJit.Compile.X64
import TreeJit.Proofs.SSA.FrameRegions
import TreeJit.Proofs.SSA.Trace
import TreeJit.Proofs.Word.Memory
import TreeJit.Proofs.X64.Machine

/-!
# Values in their homes

The relation between a running function and the machine that runs its code.  `Call` is one call of
a function on the machine; `Sim K A st c` says that in the machine state `c`

* the homes of the values in `A` hold what the interpreter's state `st` has for them, integers
  zero-extended to a word (`HomeHolds`);
* memory is the same, but for the bytes that belong to the machine alone (`Call.Hidden`): homes,
  transfer area, saved frame pointer, return address, and the stack below the frame;
* stack pointer, frame pointer and the registers of the caller are in place.

Instructions load registers, which keeps the relation (`Sim.setGpr` and its like), and end with a
store to a home (`Sim.assign`) or to memory (`Sim.store`).
-/

namespace TreeJit.Compile.X64

open SSA TreeJit.X64

/-- how a value lies in its home: a scalar takes a word, a single half of one -/
def homeTy : Ty → Ty
  | .f32 => .f32
  | .f64x2 => .f64x2
  | .i64x2 => .i64x2
  | _ => .i64

theorem bytes_homeTy (t : Ty) : (homeTy t).bytes ≤ homeSize t := by
  cases t <;> simp [homeTy, homeSize, Ty.bytes, Ty.isVector]

/-- the home at an address holds a value, which is what its type keeps of it -/
def HomeHolds (m : Memory) (a : UInt64) (t : Ty) (x : Val) : Prop :=
  readVal m (homeTy t) a = x ∧ Val.keep t x = x

theorem HomeHolds.of_bytes {m m' : Memory} {a b : UInt64} {t : Ty} {x : Val}
    (h : HomeHolds m a t x) (he : m'.bytes (homeSize t) b = m.bytes (homeSize t) a) :
    HomeHolds m' b t x :=
  ⟨(readVal_of_bytes (Memory.bytes_of_le (bytes_homeTy t) he)).trans h.1, h.2⟩

/-- a lane of a vector is a word in its home -/
theorem HomeHolds.lane {m : Memory} {a : UInt64} {t : Ty} {x : Val} (h : HomeHolds m a t x)
    (ht : t.isVector = true) {lane : Nat} (hlane : lane < t.lanes) :
    HomeHolds m (a + UInt64.ofNat (8 * lane)) t.lane (evalLane lane x) := by
  have hty : homeTy t = t ∧ homeTy t.lane = .i64 := by cases t <;> first | exact ⟨rfl, rfl⟩ | cases ht
  have hkeep : ∀ w : UInt64, Val.keep t.lane ⟨w, 0⟩ = ⟨w, 0⟩ := by
    intro w
    cases t <;> first | rfl | cases ht
  have htwo : lane = 0 ∨ lane = 1 := by
    rw [Ty.lanes, if_pos ht] at hlane
    omega
  have hval := h.1
  rw [hty.1, readVal_vector _ _ ht] at hval
  refine ⟨?_, hkeep _⟩
  rw [hty.2, readVal_scalar _ _ rfl, ← hval]
  rcases htwo with rfl | rfl
  · rw [show UInt64.ofNat (8 * 0) = 0 from rfl, UInt64.add_zero]
    rfl
  · rfl

/-- one call of a function on the machine -/
structure Call where
  env : Env
  fn : Func
  /-- the state in which the function is entered -/
  start : Cpu

/-- the registers that belong to the caller, next to the stack and frame pointers -/
def calleeSaved : List RegId := [rbx, 12, 13, 14, 15]

def pinned : List RegId := rsp :: rbp :: calleeSaved

namespace Call

def base (K : Call) : UInt64 := K.start.gpr rsp - 8 - UInt64.ofNat K.fn.layout.size

def place (K : Call) (n : Nat) : UInt64 := K.base + UInt64.ofNat n

def home (K : Call) (v : ValueNo) : UInt64 := K.place (K.fn.layout.home v)

/-- the saved frame pointer and the return address -/
def top (K : Call) : List UInt8 :=
  littleEndian 8 (K.start.gpr rbp).toNat ++ K.start.mem.bytes 8 (K.start.gpr rsp)

/-- the bytes that called code has to leave alone -/
def Kept (K : Call) (x : UInt64) : Prop :=
  Memory.dist K.base x < K.fn.layout.mid ∨
    (K.fn.layout.size ≤ Memory.dist K.base x ∧ Memory.dist K.base x < K.fn.layout.size + 16)

/-- the bytes that belong to the machine alone -/
def Hidden (K : Call) (x : UInt64) : Prop :=
  Memory.dist K.base x < K.fn.layout.mid ∨
    (K.fn.layout.transfer ≤ Memory.dist K.base x ∧ Memory.dist K.base x < K.fn.layout.size + 16) ∨
    2 ^ 64 - K.env.room ≤ Memory.dist K.base x

structure Ok (K : Call) : Prop where
  wellFormed : K.fn.WellFormed
  fits : K.fn.Fits
  room : K.env.room < 2 ^ 63

def ctx (K : Call) (returns : List RegLoc) : Ctx := { fn := K.fn, frame := K.fn.frame 0, returns }

end Call

structure Sim (K : Call) (A : ValueNo → Prop) (st : State) (c : Cpu) : Prop where
  stack : c.gpr rsp = K.base
  frame : c.gpr rbp = K.place K.fn.layout.size
  saved : ∀ r ∈ calleeSaved, c.gpr r = K.start.gpr r
  size : st.regs.size = K.fn.values.size
  homes : ∀ (v : Nat) t, A v → K.fn.values[v]? = some t → HomeHolds c.mem (K.home v) t (st.get v)
  mem : ∀ x, ¬ K.Hidden x → c.mem.get x = st.mem.get x
  top : c.mem.bytes 16 (K.place K.fn.layout.size) = K.top

/-! ## addresses -/

section
variable {K : Call} {A : ValueNo → Prop} {st : State} {c : Cpu} {v : ValueNo} {t : Ty}

theorem Call.Ok.size_lt (hK : K.Ok) : K.fn.layout.size < 2 ^ 31 := hK.fits

theorem Call.Ok.mid_le (hK : K.Ok) :
    K.fn.layout.mid ≤ K.fn.layout.transfer ∧ K.fn.layout.transfer ≤ K.fn.layout.size ∧
      K.fn.layout.size < 2 ^ 31 := by
  have h1 := K.fn.layout_mid
  have h2 := K.fn.layout_stop
  have h3 := K.fn.layout_transfer
  have h4 := hK.size_lt
  exact ⟨by omega, by omega, h4⟩

theorem Call.Ok.address_home (hK : K.Ok) (hv : K.fn.values[v]? = some t) (hc : c.gpr rsp = K.base)
    (L : List RegLoc) : c.address ((K.ctx L).home v) = K.home v := by
  have h1 := Func.home_le hv
  have h2 := hK.mid_le
  show addressOf (c.gpr rsp) ((K.fn.frame 0).home v) = _
  rw [hK.wellFormed.home_eq (Func.lt_of_values hv), hc, addressOf_ofNat _ (by omega)]
  rfl

/-! ## changing registers -/

theorem Sim.mono (h : Sim K A st c) {A' : ValueNo → Prop} (hA : ∀ v, A' v → A v) :
    Sim K A' st c :=
  ⟨h.stack, h.frame, h.saved, h.size, fun v t hv => h.homes v t (hA v hv), h.mem, h.top⟩

theorem Sim.congr (h : Sim K A st c) {c' : Cpu} (hr : ∀ r ∈ pinned, c'.gpr r = c.gpr r)
    (hm : c'.mem = c.mem) : Sim K A st c' := by
  refine ⟨?_, ?_, ?_, h.size, ?_, ?_, ?_⟩
  · rw [hr rsp (by decide)]
    exact h.stack
  · rw [hr rbp (by decide)]
    exact h.frame
  · intro r hm
    rw [hr r (List.mem_cons_of_mem _ (List.mem_cons_of_mem _ hm))]
    exact h.saved r hm
  · rw [hm]
    exact h.homes
  · rw [hm]
    exact h.mem
  · rw [hm]
    exact h.top

theorem Sim.setGpr (h : Sim K A st c) {r : RegId} (hr : r ∉ pinned) (x : UInt64) :
    Sim K A st (c.setGpr r x) := by
  refine h.congr ?_ rfl
  intro i hi
  rw [Cpu.gpr_setGpr, if_neg]
  rintro rfl
  exact hr hi

theorem Sim.setXmm (h : Sim K A st c) (r : XReg) (x : Val) : Sim K A st (c.setXmm r x) :=
  h.congr (fun _ _ => rfl) rfl

theorem Sim.setFlags (h : Sim K A st c) (fl : Flags) : Sim K A st (c.setFlags fl) :=
  h.congr (fun _ _ => rfl) rfl

/-! ## storing to a home -/

/-- memory changes only within `n` bytes from an offset of the frame on -/
def Call.Within (K : Call) (h n : Nat) (m m' : Memory) : Prop :=
  ∀ x, ¬ (h ≤ Memory.dist K.base x ∧ Memory.dist K.base x < h + n) → m'.get x = m.get x

theorem within_writeVal {h n : Nat} (hh : h + n < 2 ^ 32) {u : Ty} (hu : u.bytes ≤ n) (m : Memory)
    (x : Val) : K.Within h n m (writeVal m u (K.place h) x) := by
  intro y hy
  have hd := dist_place K.base y hh hy
  exact get_writeVal_out m x (Nat.le_trans hu hd)

theorem within_write {h n : Nat} (hh : h + n < 2 ^ 32) (hn : 8 ≤ n) (m : Memory) (w : UInt64) :
    K.Within h n m (m.write 8 (K.place h) w.toNat) := by
  have e : m.write 8 (K.place h) w.toNat = writeVal m .i64 (K.place h) ⟨w, 0⟩ :=
    (writeVal_scalar (t := .i64) m _ ⟨w, 0⟩ rfl).symm
  rw [e]
  exact within_writeVal (u := .i64) hh hn m _

theorem Call.Within.readVal_eq {h n : Nat} {m m' : Memory} (hw : K.Within h n m m') {k : Nat}
    {u : Ty} (hk : k + u.bytes < 2 ^ 32) (hap : k + u.bytes ≤ h ∨ h + n ≤ k) :
    readVal m' u (K.place k) = readVal m u (K.place k) := by
  refine readVal_congr fun i hi => hw _ ?_
  rw [Call.place, dist_offset _ (by omega)]
  omega

theorem Call.Within.bytes_eq {h n : Nat} {m m' : Memory} (hw : K.Within h n m m') {k l : Nat}
    (hk : k + l < 2 ^ 32) (hap : k + l ≤ h ∨ h + n ≤ k) :
    m'.bytes l (K.place k) = m.bytes l (K.place k) := by
  refine Memory.bytes_congr fun i hi => hw _ ?_
  rw [Call.place, dist_offset _ (by omega)]
  omega

/-- **A store to a home assigns the value.** -/
theorem Sim.assign (hK : K.Ok) (h : Sim K A st c) {dst : ValueNo}
    (hd : K.fn.values[dst]? = some t) {m : Memory}
    (hw : K.Within (K.fn.layout.home dst) (homeSize t) c.mem m) {x : Val}
    (hx : HomeHolds m (K.home dst) t x) :
    Sim K (fun v => v = dst ∨ A v) (st.set dst x) (c.setMem m) := by
  have hle := Func.home_le hd
  obtain ⟨hmid, htr, hsz⟩ := hK.mid_le
  refine ⟨h.stack, h.frame, h.saved, ?_, ?_, ?_, ?_⟩
  · rw [State.size_set]
    exact h.size
  · intro v u hv hu
    by_cases hvd : v = dst
    · subst hvd
      obtain rfl := Option.some.inj (hd.symm.trans hu)
      rw [State.get_set_self _ (by rw [h.size]; exact Func.lt_of_values hd)]
      exact hx
    · have hA : A v := hv.resolve_left hvd
      have hu' := Func.home_le hu
      have hb := bytes_homeTy u
      obtain ⟨h1, h2⟩ := h.homes v u hA hu
      rw [State.get_set_ne _ (Ne.symm hvd)]
      refine ⟨?_, h2⟩
      rw [← h1]
      have hap := Func.home_apart hu hd hvd
      exact hw.readVal_eq (by omega) (by omega)
  · intro y hy
    rw [Cpu.mem_setMem, hw y, State.mem_set]
    · exact h.mem y hy
    · intro hin
      exact hy (.inl (by omega))
  · rw [← h.top]
    exact hw.bytes_eq (by omega) (by omega)

/-! ## writing to memory -/

/-- none of the `n` bytes from an address on belongs to the machine alone -/
def Call.Clear (K : Call) (a : UInt64) (n : Nat) : Prop := ∀ x, Memory.dist a x < n → ¬ K.Hidden x

theorem Call.Clear.out {a x : UInt64} {n : Nat} (h : K.Clear a n) (hx : K.Hidden x) :
    n ≤ Memory.dist a x := by
  by_contra hlt
  exact h x (by omega) hx

theorem hidden_home {n : Nat} (hK : K.Ok) (h : n < K.fn.layout.mid) : K.Hidden (K.place n) := by
  have hm := hK.mid_le
  refine .inl ?_
  rw [Call.place, Memory.dist_add _ _ (by omega)]
  exact h

theorem hidden_top {n : Nat} (hK : K.Ok) (h : n < 16) :
    K.Hidden (K.place (K.fn.layout.size + n)) := by
  have hm := hK.mid_le
  refine .inr (.inl ?_)
  rw [Call.place, Memory.dist_add _ _ (by omega)]
  omega

theorem place_add (K : Call) (m n : Nat) : K.place m + UInt64.ofNat n = K.place (m + n) := by
  rw [Call.place, Call.place, UInt64.add_assoc, ← UInt64.ofNat_add]

/-- **The same write to memory on both sides**, away from what belongs to the machine alone. -/
theorem Sim.store (hK : K.Ok) (h : Sim K A st c) {a : UInt64} {u : Ty} (ha : K.Clear a u.bytes)
    (x : Val) :
    Sim K A { st with mem := writeVal st.mem u a x } (c.setMem (writeVal c.mem u a x)) := by
  have hm := hK.mid_le
  refine ⟨h.stack, h.frame, h.saved, h.size, ?_, ?_, ?_⟩
  · intro v t hv ht
    have hle := Func.home_le ht
    have hb := bytes_homeTy t
    obtain ⟨h1, h2⟩ := h.homes v t hv ht
    refine ⟨?_, h2⟩
    rw [Cpu.mem_setMem]
    refine Eq.trans (readVal_congr fun i hi => ?_) h1
    rw [Call.home, place_add]
    exact get_writeVal_out _ _ (ha.out (hidden_home hK (by omega)))
  · intro y hy
    exact get_writeVal_congr (h.mem y hy)
  · rw [← h.top]
    refine Memory.bytes_congr fun i hi => ?_
    rw [place_add]
    exact get_writeVal_out _ _ (ha.out (hidden_top hK hi))

theorem Sim.readVal_eq (h : Sim K A st c) {a : UInt64} {u : Ty} (hu : u.bytes ≤ 16)
    (ha : K.Clear a u.bytes) : readVal c.mem u a = readVal st.mem u a := by
  refine readVal_congr fun i hi => h.mem _ (ha _ ?_)
  rw [Memory.dist_add _ _ (by omega)]
  exact hi

end

end TreeJit.Compile.X64
