import TreeJit.Proofs.Compile.FloatCompare
import TreeJit.Proofs.Compile.Registers

/-!
# The code of one step

A step that neither calls nor branches is lowered to a straight line that does on the machine what
the interpreter does (`Sim.plainStep`): the state after it is related as the one before, with the
results of the step among the values that are in their homes, and what is seen of the code is what
is seen of the step (`Shows`).

The interpreter and the code have the same addresses: the frame of the interpreter begins where the
stack pointer of the code stands (`Call.Ok.activation_sp`), and slots are no part of what belongs to
the machine alone (`Call.Ok.clear_slot`).
-/

namespace TreeJit.Compile.X64

open SSA TreeJit.X64

/-! ## what is seen -/

inductive Shown (K : Call) : SSA.Event → TreeJit.X64.Event → Prop where
  | block (b : Nat) : Shown K (.block b) (.label (blockLabel b))
  | load (a : UInt64) (n : Nat) : Shown K (.load a n) (.read a n)
  | store (a : UInt64) (bs : List UInt8) : Shown K (.store a bs) (.write a bs)
  /-- a call is made to the linked address with the arguments in their registers, and the stack
  pointer is at the frame and aligned -/
  | call {ext : Import} {args : List Val} {c : Cpu} (hsp : c.gpr rsp = K.base)
      (halign : (c.gpr rsp).toNat % 16 = 0)
      (hargs : Passes paramLimits intArgs c ext.sig.params args) :
      Shown K (.call ext args) (.call (K.env.symbol ext.name) c)

/-- what the machine shows of a run: the events in order, and the labels inside conditional
branches -/
inductive Shows (K : Call) : List SSA.Event → List TreeJit.X64.Event → Prop where
  | nil : Shows K [] []
  | cons {e : SSA.Event} {m : TreeJit.X64.Event} {es : List SSA.Event}
      {ms : List TreeJit.X64.Event} (h : Shown K e m) (hs : Shows K es ms) :
      Shows K (e :: es) (m :: ms)
  | inner (b : Nat) {es : List SSA.Event} {ms : List TreeJit.X64.Event} (hs : Shows K es ms) :
      Shows K es (.label (elseLabel b) :: ms)

theorem Shows.one {K : Call} {e : SSA.Event} {m : TreeJit.X64.Event} (h : Shown K e m) :
    Shows K [e] [m] := .cons h .nil

theorem Shows.append {K : Call} {es es' : List SSA.Event} {ms ms' : List TreeJit.X64.Event}
    (h : Shows K es ms) (h' : Shows K es' ms') : Shows K (es ++ es') (ms ++ ms') := by
  induction h with
  | nil => exact h'
  | cons he _ ih => exact .cons he ih
  | inner b _ ih => exact .inner b ih

/-- an access stays away from what belongs to the machine alone -/
def ClearOf (K : Call) : SSA.Event → Prop
  | .load a n => K.Clear a n
  | .store a bs => K.Clear a bs.length
  | _ => True

theorem length_storedBytes (t : Ty) (x : Val) : (storedBytes t x).length = t.bytes := by
  unfold storedBytes
  split
  · rename_i h
    rw [List.length_append, length_littleEndian, length_littleEndian, bytes_of_isVector h]
  · exact length_littleEndian _ _

/-! ## addresses -/

namespace Call
variable {K : Call}

def activation (K : Call) : Activation := K.fn.activation (K.start.gpr rsp - 8)

theorem Ok.size_word (hK : K.Ok) : (K.fn.frame 0).size.toInt64.toUInt64 =
    UInt64.ofNat K.fn.layout.size := by
  have h := addressOf_ofNat 0 hK.size_lt
  rw [addressOf, UInt64.zero_add, UInt64.zero_add] at h
  rw [hK.wellFormed.size_eq, h]

theorem Ok.activation_sp (hK : K.Ok) : K.activation.sp = K.base := by
  show K.start.gpr rsp - 8 - (K.fn.frame 0).size.toInt64.toUInt64 = _
  rw [hK.size_word]
  rfl

theorem Ok.address_slot (hK : K.Ok) {s n : Nat} {off : Int32} (h : K.fn.SlotHolds s off n) :
    addressOf K.base ((K.fn.frame 0).slot s + off) =
      K.place (K.fn.layout.slot s + off.toInt.toNat) ∧
    K.fn.layout.mid ≤ K.fn.layout.slot s + off.toInt.toNat ∧
      K.fn.layout.slot s + off.toInt.toNat + n ≤ K.fn.layout.transfer :=
  ⟨hK.wellFormed.slotAccess_place hK.fits h, Func.slotHolds_le h⟩

theorem Ok.clear_slot (hK : K.Ok) {s n : Nat} {off : Int32} (h : K.fn.SlotHolds s off n) :
    K.Clear (addressOf K.base ((K.fn.frame 0).slot s + off)) n := by
  obtain ⟨e, h1, h2⟩ := hK.address_slot h
  have hm := hK.mid_le
  have hr := hK.room
  rw [e]
  intro x hx hin
  have hd : K.fn.layout.slot s + off.toInt.toNat ≤ Memory.dist K.base x ∧
      Memory.dist K.base x < K.fn.layout.slot s + off.toInt.toNat + n := by
    by_contra hout
    have := dist_place K.base x (by omega) hout
    exact absurd hx (Nat.not_lt.mpr this)
  rcases hin with hin | hin | hin <;> omega

end Call

/-! ## instructions -/

section
variable {K : Call} {A : ValueNo → Prop} {st : State} {c : Cpu} {x p dst : ValueNo} {t : Ty}
variable {L : List RegLoc}

theorem Sim.const (hK : K.Ok) (h : Sim K A st c) (hd : K.fn.values[dst]? = some t)
    (ht : t.isVector = false) {bits : UInt64} (hb : Val.keep t ⟨bits, 0⟩ = ⟨bits, 0⟩) :
    Leads K.env c [.movImm (.r64 rax) bits.toInt64, (K.ctx L).storeInt dst rax] []
      (Sim K (fun v => v = dst ∨ A v) (st.set dst ⟨bits, 0⟩)) := by
  have hp : (Instr.movImm (.r64 rax) bits.toInt64).perform K.env c =
      some (c.setGpr rax bits, []) := by
    show some (c.setGpr rax bits.toInt64.toUInt64, _) = _
    rw [UInt64.toUInt64_toInt64]
  exact .quiet hp ((h.setGpr (by decide) bits).storeInt hK hd ht (Fills.of_keep ht hb))

/-- **A scalar into both lanes.** -/
theorem Sim.splat (hK : K.Ok) (h : Sim K A st c) (hA : A x) (hx : K.fn.values[x]? = some t.lane)
    (hd : K.fn.values[dst]? = some t) (ht : t.isVector = true) {is : List Instr}
    (hl : (K.ctx L).splat t x dst = .ok is) :
    Leads K.env c is [] (Sim K (fun v => v = dst ∨ A v)
      (st.set dst ⟨(st.get x).lo, (st.get x).lo⟩)) := by
  cases t with
  | f64x2 =>
    cases hl
    refine .quiet (h.loadFloat (L := L) hK hA hx 0) (.quiet rfl ?_)
    exact ((h.setXmm 0 _).setXmm 0 _).storeFloat (L := L) hK hd (r := 0) rfl rfl
  | i64x2 =>
    cases hl
    obtain ⟨w, hw, hp⟩ := h.loadInt (L := L) hK hA hx rfl rax
    refine .quiet hp (.quiet rfl (.quiet rfl ?_))
    have h3 := (((h.setGpr (r := rax) (by decide) w).setXmm 0 ⟨w, 0⟩).setXmm 0 ⟨w, w⟩)
    rw [hw.lo nofun]
    exact h3.storeFloat (L := L) hK hd (r := 0) rfl rfl
  | i8 | i16 | i32 | i64 | f32 | f64 | invalid => cases ht

/-- **A lane of a vector.** -/
theorem Sim.extractLane (hK : K.Ok) (h : Sim K A st c) (hA : A x) (hx : K.fn.values[x]? = some t)
    (hd : K.fn.values[dst]? = some t.lane) (ht : t.isVector = true) {lane : Nat}
    (hlane : lane < t.lanes) :
    Leads K.env c (copy t.lane ((K.ctx L).home dst)
        (onStack ((K.fn.frame 0).home x + Int32.ofNat (8 * lane)))) []
      (Sim K (fun v => v = dst ∨ A v) (st.set dst (evalLane lane (st.get x)))) := by
  have hle := Func.home_le hx
  have hm := hK.mid_le
  have hsz : homeSize t = 16 := by rw [homeSize, if_pos ht]
  have htwo : lane < 2 := by rwa [Ty.lanes, if_pos ht] at hlane
  rw [hK.wellFormed.home_eq (Func.lt_of_values hx), ofNat_add_ofNat]
  refine h.copyHome hK hd (by omega) ?_
  rw [← place_add]
  exact (h.homes x t hA hx).lane ht hlane

theorem seen_at_rcx (off : Int32) (e : TreeJit.X64.Event) : (Mem.at rcx off).seen e = [e] := rfl

/-- **A read through a pointer.** -/
theorem Sim.load (hK : K.Ok) (h : Sim K A st c) (hA : A p) (hp : K.fn.values[p]? = some .pointer)
    (hd : K.fn.values[dst]? = some t) (ht : t.isValid = true) (off : Int32)
    (hc : K.Clear (addressOf (st.get p).lo off) t.bytes) :
    Leads K.env c ((K.ctx L).loadInt rcx p :: (K.ctx L).loadFrom t (.at rcx off) dst)
      [.read (addressOf (st.get p).lo off) t.bytes]
      (Sim K (fun v => v = dst ∨ A v)
        (st.set dst (readVal st.mem t (addressOf (st.get p).lo off)))) := by
  obtain ⟨w, hw, hperf⟩ := h.loadInt (L := L) hK hA hp rfl rcx
  have h1 := h.setGpr (r := rcx) (by decide) w
  have ha : (c.setGpr rcx w).address (.at rcx off) = addressOf (st.get p).lo off := by
    show addressOf ((c.setGpr rcx w).gpr rcx) off = _
    rw [Cpu.gpr_setGpr, if_pos rfl, hw.lo nofun]
  refine .quiet hperf ?_
  have hl := h1.loadFrom (L := L) hK ha hc hd ht
  rwa [seen_at_rcx] at hl

/-- **A write through a pointer.** -/
theorem Sim.storeAt (hK : K.Ok) (h : Sim K A st c) (hAp : A p) (hAx : A x)
    (hp : K.fn.values[p]? = some .pointer) (hx : K.fn.values[x]? = some t) (off : Int32)
    (hc : K.Clear (addressOf (st.get p).lo off) t.bytes) :
    Leads K.env c ((K.ctx L).loadInt rcx p :: (K.ctx L).storeTo t (.at rcx off) x)
      [.write (addressOf (st.get p).lo off) (storedBytes t (st.get x))]
      (Sim K A { st with mem := writeVal st.mem t (addressOf (st.get p).lo off) (st.get x) }) := by
  obtain ⟨w, hw, hperf⟩ := h.loadInt (L := L) hK hAp hp rfl rcx
  have h1 := h.setGpr (r := rcx) (by decide) w
  have ha : addressOf ((c.setGpr rcx w).gpr rcx) off = addressOf (st.get p).lo off := by
    rw [Cpu.gpr_setGpr, if_pos rfl, hw.lo nofun]
  refine .quiet hperf ?_
  have hl := h1.storeTo (L := L) hK (r := rcx) (by decide) off (by rw [ha]; exact hc) hAx hx
  rwa [seen_at_rcx, ha] at hl

theorem Sim.stackLoad (hK : K.Ok) (h : Sim K A st c) {s : Nat} {off : Int32}
    (hs : K.fn.SlotHolds s off t.bytes) (hd : K.fn.values[dst]? = some t) (ht : t.isValid = true) :
    Leads K.env c ((K.ctx L).loadFrom t ((K.ctx L).slotMem s off) dst) []
      (Sim K (fun v => v = dst ∨ A v)
        (st.set dst (readVal st.mem t (K.activation.slotAddr s off)))) := by
  have ha : c.address ((K.ctx L).slotMem s off) = K.activation.slotAddr s off := by
    rw [Activation.slotAddr, hK.activation_sp, ← h.stack]
    rfl
  refine h.loadFrom hK ha ?_ hd ht
  rw [Activation.slotAddr, hK.activation_sp]
  exact hK.clear_slot hs

theorem Sim.stackStore (hK : K.Ok) (h : Sim K A st c) {s : Nat} {off : Int32}
    (hs : K.fn.SlotHolds s off t.bytes) (hA : A x) (hx : K.fn.values[x]? = some t) :
    Leads K.env c ((K.ctx L).storeTo t ((K.ctx L).slotMem s off) x) []
      (Sim K A { st with mem := writeVal st.mem t (K.activation.slotAddr s off) (st.get x) }) := by
  have ha : addressOf (c.gpr rsp) ((K.fn.frame 0).slot s + off) = K.activation.slotAddr s off := by
    rw [Activation.slotAddr, hK.activation_sp, ← h.stack]
    rfl
  have hc : K.Clear (addressOf (c.gpr rsp) ((K.fn.frame 0).slot s + off)) t.bytes := by
    rw [h.stack]
    exact hK.clear_slot hs
  have hl := h.storeTo (L := L) hK (r := rsp) (by decide) _ hc hA hx
  rwa [ha] at hl

theorem Sim.stackAddr (hK : K.Ok) (h : Sim K A st c) (s : Nat) (off : Int32)
    (hd : K.fn.values[dst]? = some .pointer) :
    Leads K.env c [.lea (.r64 rax) ((K.ctx L).slotMem s off), (K.ctx L).storeInt dst rax] []
      (Sim K (fun v => v = dst ∨ A v) (st.set dst ⟨K.activation.slotAddr s off, 0⟩)) := by
  have ha : c.address ((K.ctx L).slotMem s off) = K.activation.slotAddr s off := by
    rw [Activation.slotAddr, hK.activation_sp, ← h.stack]
    rfl
  have hp : (Instr.lea (.r64 rax) ((K.ctx L).slotMem s off)).perform K.env c =
      some (c.setGpr rax (K.activation.slotAddr s off), []) := by
    rw [Instr.perform, ha]
    rfl
  exact .quiet hp ((h.setGpr (by decide) _).storeInt hK hd rfl
    (Fills.of_keep (x := ⟨K.activation.slotAddr s off, 0⟩) rfl rfl))

/-- what the code of a step does, as far as the step goes on in its block -/
def CodeFor (K : Call) (A : ValueNo → Prop) (c : Cpu) (es : List SSA.Event) (st' : State)
    (ls : List (Line Instr)) : Prop :=
  ∃ is ms, ls = code is ∧ Leads K.env c is ms (Sim K A st') ∧ Shows K es ms

theorem CodeFor.one {s : Step} (hr : K.fn.HasTypes s.results [t]) {es : List SSA.Event} {st' : State}
    {is : List Instr} {ms : List TreeJit.X64.Event} (hshow : Shows K es ms)
    (h : K.fn.values[s.results.headD 0]? = some t →
      Leads K.env c is ms (Sim K (fun v => v = s.results.headD 0 ∨ A v) st')) :
    CodeFor K (fun v => v ∈ s.results ∨ A v) c es st' (code is) := by
  obtain ⟨e, hd⟩ : s.results = _ ∧ _ := hr.single
  refine ⟨is, ms, rfl, (h hd).mono fun c' h' => h'.mono fun v hv => ?_, hshow⟩
  refine hv.imp_left fun hm => ?_
  rw [e] at hm
  exact List.mem_singleton.mp hm

theorem CodeFor.none {s : Step} (hr : K.fn.HasTypes s.results []) {es : List SSA.Event} {st' : State}
    {is : List Instr} {ms : List TreeJit.X64.Event} (hshow : Shows K es ms)
    (h : Leads K.env c is ms (Sim K A st')) :
    CodeFor K (fun v => v ∈ s.results ∨ A v) c es st' (code is) := by
  have e : s.results = [] := List.length_eq_zero_iff.mp hr.length_eq
  refine ⟨is, ms, rfl, h.mono fun c' h' => h'.mono fun v hv => ?_, hshow⟩
  rw [e] at hv
  exact hv.resolve_left List.not_mem_nil

theorem keep_of_truncateTo {bits : UInt64} (ht : t.isInt = true)
    (hb : Body.truncateTo t bits = bits) : Val.keep t ⟨bits, 0⟩ = ⟨bits, 0⟩ := by
  cases t <;> first | exact congrArg (Val.mk · 0) hb | cases ht

theorem keep_of_single {bits : UInt64} (ht : t.isFloat = true)
    (hb : t = .f32 → bits.toNat < 2 ^ 32) : Val.keep t ⟨bits, 0⟩ = ⟨bits, 0⟩ := by
  cases t with
  | f64 => rfl
  | f32 =>
    have e := ofNat_and (k := 32) (by omega) (hb rfl)
    rw [UInt64.ofNat_toNat] at e
    exact congrArg (Val.mk · 0) e
  | _ => cases ht

/-- **The code of a step that neither calls nor branches does what the interpreter does.** -/
theorem Sim.plainStep (hK : K.Ok) {w : World} (hE : Env.Agrees K.env w.float) (h : Sim K A st c)
    {s : Step} (ht : s.Typed K.fn) (hA : ∀ v ∈ s.inst.reads, A v)
    (hclear : ∀ e ∈ s.inst.events K.fn st, ClearOf K e)
    (hcall : ∀ fn args, s.inst ≠ .call fn args) {st' : State}
    (hs : execStep w K.activation st s = .ok (.on st')) {b : Nat} {ls : List (Line Instr)}
    (hl : (K.ctx L).lowerStep b s = .ok ls) :
    CodeFor K (fun v => v ∈ s.results ∨ A v) c (s.inst.events K.fn st) st' ls := by
  obtain ⟨inst, results⟩ := s
  obtain ⟨rs, hi, hr⟩ := ht
  cases inst with
  | iconst t bits =>
    obtain ⟨hint, hb, rfl⟩ := hi
    cases hs
    cases hl
    exact .one hr .nil fun hd =>
      h.const hK hd (scalar_of_isInt hint).1 (keep_of_truncateTo hint hb)
  | fconst t bits =>
    obtain ⟨hfl, hb, rfl⟩ := hi
    cases hs
    cases hl
    have hv : t.isVector = false := by cases t <;> first | rfl | cases hfl
    exact .one hr .nil fun hd => h.const hK hd hv (keep_of_single hfl hb)
  | binary op t x y =>
    obtain ⟨-, hxy, rfl⟩ := hi
    obtain ⟨hx, hy⟩ := Func.HasTypes.pair_iff.mp hxy
    obtain ⟨hAx, hAs⟩ := List.forall_mem_cons.mp hA
    have hAy := List.forall_mem_singleton.mp hAs
    cases hs
    obtain ⟨is, his, rfl⟩ := map_eq_ok.mp hl
    exact .one hr .nil fun hd => h.binary hK hE hAx hAy hx hy hd his
  | icmp cc t x y =>
    obtain ⟨hw, hxy, rfl⟩ := hi
    obtain ⟨hx, hy⟩ := Func.HasTypes.pair_iff.mp hxy
    obtain ⟨hAx, hAs⟩ := List.forall_mem_cons.mp hA
    have hAy := List.forall_mem_singleton.mp hAs
    cases hs
    cases hl
    exact .one hr .nil fun hd => h.icmp hK hw hAx hAy hx hy hd cc
  | fcmp cc t x y =>
    obtain ⟨hf, hxy, rfl⟩ := hi
    obtain ⟨hx, hy⟩ := Func.HasTypes.pair_iff.mp hxy
    obtain ⟨hAx, hAs⟩ := List.forall_mem_cons.mp hA
    have hAy := List.forall_mem_singleton.mp hAs
    cases hs
    cases hl
    exact .one hr .nil fun hd => h.fcmp hK hE hf hAx hAy hx hy hd cc
  | splat t x =>
    obtain ⟨hv, hx, rfl⟩ := hi
    cases hs
    obtain ⟨is, his, rfl⟩ := map_eq_ok.mp hl
    exact .one hr .nil fun hd => h.splat hK (hA x List.mem_cons_self)
      (Func.HasTypes.singleton_iff.mp hx) hd hv his
  | extractLane t x lane =>
    obtain ⟨hv, hx, hlane, rfl⟩ := hi
    cases hs
    cases hl
    exact .one hr .nil fun hd => h.extractLane hK (hA x List.mem_cons_self)
      (Func.HasTypes.singleton_iff.mp hx) hd hv hlane
  | load t p off =>
    obtain ⟨hv, hp, rfl⟩ := hi
    cases hs
    cases hl
    exact .one hr (.one (.load _ _)) fun hd => h.load hK (hA p List.mem_cons_self)
      (Func.HasTypes.singleton_iff.mp hp) hd hv off (hclear _ List.mem_cons_self)
  | store t x p off =>
    obtain ⟨hxp, rfl⟩ := hi
    obtain ⟨hx, hp⟩ := Func.HasTypes.pair_iff.mp hxp
    obtain ⟨hAx, hAs⟩ := List.forall_mem_cons.mp hA
    have hAp := List.forall_mem_singleton.mp hAs
    cases hs
    cases hl
    have hc : K.Clear (addressOf (st.get p).lo off) (storedBytes t (st.get x)).length :=
      hclear _ List.mem_cons_self
    rw [length_storedBytes] at hc
    exact .none hr (.one (.store _ _)) (h.storeAt hK hAp hAx hp hx off hc)
  | stackLoad t s off =>
    obtain ⟨hv, hslot, rfl⟩ := hi
    cases hs
    cases hl
    exact .one hr .nil fun hd => h.stackLoad hK hslot hd hv
  | stackStore t x s off =>
    obtain ⟨hx, hslot, rfl⟩ := hi
    cases hs
    cases hl
    exact .none hr .nil (h.stackStore hK hslot (hA x List.mem_cons_self)
      (Func.HasTypes.singleton_iff.mp hx))
  | stackAddr s off =>
    obtain ⟨-, rfl⟩ := hi
    cases hs
    cases hl
    exact .one hr .nil fun hd => h.stackAddr hK s off hd
  | call fn args => exact absurd rfl (hcall fn args)
  | jump t | brif ty c yes no | ret args => cases hs

end

end TreeJit.Compile.X64
