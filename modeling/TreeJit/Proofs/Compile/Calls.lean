import TreeJit.Proofs.Compile.Steps

/-!
# Entering, calling and leaving

* `opening_sim`      the prologue makes the frame, and the parameters go to their homes;
* `Sim.callStep`     a call, to code that keeps to the calling convention (`Call.Served`);
* `Sim.failingCall`  a call that the surroundings refuse is still made;
* `Sim.leave`        a return gives the results and everything that belongs to the caller.
-/

namespace TreeJit.Compile.X64

open SSA TreeJit.X64

/-! ## called code -/

/-- memory is the same, but for what belongs to the machine alone -/
def Call.SameMemory (K : Call) (m m' : Memory) : Prop := ∀ x, ¬ K.Hidden x → m.get x = m'.get x

/-- what called code gives back: results in their registers and the memory, with the registers and
the frame of its caller as they were -/
structure Call.Answers (K : Call) (ts : List Ty) (vals : List Val) (mem : Memory) (c c' : Cpu) :
    Prop where
  pinned : ∀ r ∈ pinned, c'.gpr r = c.gpr r
  results : Passes resultLimits intResults c' ts (Val.keepAll ts vals)
  kept : ∀ x, K.Kept x → c'.mem.get x = c.mem.get x
  mem : K.SameMemory c'.mem mem

/-- called code does what the surroundings of the function say -/
def Call.Served (K : Call) (w : World) : Prop :=
  ∀ ext ∈ K.fn.imports.toList, ∀ (c : Cpu) (args vals : List Val) (mem mem' : Memory),
    c.gpr rsp = K.base → Passes paramLimits intArgs c ext.sig.params args →
    K.SameMemory c.mem mem → w.call ext.name K.base args mem = .ok (vals, mem') →
    ∃ c', K.env.call (K.env.symbol ext.name) c = some c' ∧
      K.Answers ext.sig.returns vals mem' c c'

section
variable {K : Call} {A : ValueNo → Prop} {st : State} {c : Cpu} {L : List RegLoc}

theorem kept_home {n : Nat} (hK : K.Ok) (h : n < K.fn.layout.mid) : K.Kept (K.place n) := by
  have hm := hK.mid_le
  refine .inl ?_
  rw [Call.place, Memory.dist_add _ _ (by omega)]
  exact h

theorem kept_top {n : Nat} (hK : K.Ok) (h : n < 16) : K.Kept (K.place (K.fn.layout.size + n)) := by
  have hm := hK.mid_le
  refine .inr ?_
  rw [Call.place, Memory.dist_add _ _ (by omega)]
  omega

/-- called code keeps the values of its caller -/
theorem Sim.answered (hK : K.Ok) (h : Sim K A st c) {ts : List Ty} {vals : List Val} {mem : Memory}
    {c' : Cpu} (ha : K.Answers ts vals mem c c') : Sim K A { st with mem } c' := by
  refine ⟨?_, ?_, ?_, h.size, ?_, ha.mem, ?_⟩
  · rw [ha.pinned rsp (by decide)]
    exact h.stack
  · rw [ha.pinned rbp (by decide)]
    exact h.frame
  · intro r hr
    rw [ha.pinned r (List.mem_cons_of_mem _ (List.mem_cons_of_mem _ hr))]
    exact h.saved r hr
  · intro v t hv ht
    have hle := Func.home_le ht
    have hb := bytes_homeTy t
    obtain ⟨h1, h2⟩ := h.homes v t hv ht
    refine ⟨Eq.trans (readVal_congr fun i hi => ?_) h1, h2⟩
    rw [Call.home, place_add]
    exact ha.kept _ (kept_home hK (by omega))
  · rw [← h.top]
    refine Memory.bytes_congr fun i hi => ?_
    rw [place_add]
    exact ha.kept _ (kept_top hK hi)

theorem Sim.keepAll (h : Sim K A st c) {vs : List ValueNo} {ts : List Ty} (hA : ∀ v ∈ vs, A v)
    (hd : K.fn.HasTypes vs ts) : Val.keepAll ts (st.getAll vs) = st.getAll vs := by
  induction vs generalizing ts with
  | nil =>
    cases ts with
    | nil => rfl
    | cons => cases hd
  | cons v vs ih =>
    cases ts with
    | nil => cases hd
    | cons t ts =>
      obtain ⟨hv, hvs⟩ := Func.HasTypes.cons_iff.mp hd
      obtain ⟨hAv, hAs⟩ := List.forall_mem_cons.mp hA
      exact congrArg₂ List.cons (h.homes v t hAv hv).2 (ih hAs hvs)

/-! ## calls -/

theorem call_ok {fn : Nat} {args results : List ValueNo} {is : List Instr} {ext : Import}
    (he : K.fn.imports[fn]? = some ext) (h : (K.ctx L).call fn args results = .ok is) :
    ∃ ins outs, passing paramLimits ext.sig.params = .ok ins ∧
      passing resultLimits ext.sig.returns = .ok outs ∧
      is = ((args.zip (ins.zip ext.sig.params)).map fun (v, loc, t) => (K.ctx L).unspill intArgs t v loc)
        ++ [.movSymbol callTarget ext.name, .call callTarget]
        ++ (results.zip outs).flatMap fun (v, loc) => (K.ctx L).spill intResults v loc := by
  have hget : (K.ctx L).fn.imports.getD fn ⟨"", .empty⟩ = ext := by
    show K.fn.imports.getD fn ⟨"", .empty⟩ = ext
    rw [Array.getD_eq_getD_getElem?, he, Option.getD_some]
  unfold Ctx.call at h
  rw [hget] at h
  obtain ⟨ins, hin, h⟩ := bind_eq_ok.mp h
  obtain ⟨outs, hout, h⟩ := bind_eq_ok.mp h
  cases h
  exact ⟨ins, outs, mapError_eq_ok.mp hin, mapError_eq_ok.mp hout, rfl⟩

variable {lines rest : List (Line Instr)}

theorem Sim.arrive (hK : K.Ok) (h : Sim K A st c) {args : List ValueNo} {ts : List Ty}
    {ins : List RegLoc} (hA : ∀ v ∈ args, A v) (hd : K.fn.HasTypes args ts)
    (hin : passing paramLimits ts = .ok ins) (name : String) :
    Leads K.env c (((args.zip (ins.zip ts)).map fun (v, loc, t) => (K.ctx L).unspill intArgs t v loc)
        ++ [.movSymbol callTarget name]) [] fun c' =>
      Sim K A st c' ∧ c'.gpr callTarget = K.env.symbol name ∧
        Passes paramLimits intArgs c' ts (st.getAll args) := by
  have hp := placed_params hin
  refine (h.unspillAll hK hA hd hp).append ?_
  rintro c1 ⟨h1, hcar, -⟩
  refine .quiet rfl (.nil ⟨h1.setGpr (by decide) _, rfl, ins, hin, hcar.congr ?_⟩)
  -- the register of the target carries no argument
  rintro (r | x) hr
  · have hne : r ≠ callTarget := by
      rintro rfl
      obtain ⟨⟨file, n⟩, hm, e⟩ := List.mem_map.mp hr
      cases file with
      | float => cases e
      | int =>
        have e' : intArgs.getD n rax = callTarget := by injection e
        rw [List.getD_eq_getElem?_getD] at e'
        cases hn : intArgs[n]? with
        | none =>
          rw [hn] at e'
          exact absurd e' (by decide)
        | some r =>
          rw [hn, Option.getD_some] at e'
          subst e'
          exact absurd (List.mem_of_getElem? hn) (by decide)
    exact congrArg (Val.mk · 0) (if_neg hne)
  · rfl

/-- what a call runs through up to the place where it is made, what is seen there, and what is left -/
theorem Sim.callMade (hK : K.Ok) (halign : K.base.toNat % 16 = 0) (h : Sim K A st c) {fn : Nat}
    {args results : List ValueNo} {is : List Instr} {ext : Import}
    (he : K.fn.imports[fn]? = some ext) (hl : (K.ctx L).call fn args results = .ok is)
    (hA : ∀ v ∈ args, A v) (hd : K.fn.HasTypes args ext.sig.params)
    (lines rest : List (Line Instr)) :
    ∃ c1 outs, passing resultLimits ext.sig.returns = .ok outs ∧ Sim K A st c1 ∧
      c1.gpr callTarget = K.env.symbol ext.name ∧
      Passes paramLimits intArgs c1 ext.sig.params (st.getAll args) ∧
      Shows K ((Inst.call fn args).events K.fn st) [.call (c1.gpr callTarget) c1] ∧
      Runs K.env lines (.at (code is ++ rest) c) [] (.at (.instr (.call callTarget) ::
        (code ((results.zip outs).flatMap fun (v, loc) => (K.ctx L).spill intResults v loc) ++ rest))
          c1) := by
  obtain ⟨ins, outs, hin, hout, rfl⟩ := call_ok he hl
  have hget : K.fn.imports.getD fn ⟨"", .empty⟩ = ext := by
    rw [Array.getD_eq_getD_getElem?, he, Option.getD_some]
  obtain ⟨c1, hrun, h1, htarget, hargs⟩ := (h.arrive (L := L) hK hA hd hin ext.name).runs
    lines (code ([.call callTarget] ++ (results.zip outs).flatMap fun (v, loc) =>
      (K.ctx L).spill intResults v loc) ++ rest)
  refine ⟨c1, outs, hout, h1, htarget, hargs, ?_, ?_⟩
  · show Shows K [.call (K.fn.imports.getD fn ⟨"", .empty⟩) _] _
    rw [hget, h.keepAll hA hd, htarget]
    refine .one (.call h1.stack ?_ hargs)
    rw [h1.stack]
    exact halign
  · simpa only [code, List.map_append, List.append_assoc, List.map_cons, List.map_nil,
      List.cons_append, List.nil_append] using hrun

/-- **A call.** -/
theorem Sim.callStep (hK : K.Ok) (halign : K.base.toNat % 16 = 0) {w : World} (hserved : K.Served w)
    (h : Sim K A st c) {fn : Nat} {args results : List ValueNo}
    (ht : Step.Typed K.fn ⟨.call fn args, results⟩) (hA : ∀ v ∈ args, A v) {st' : State}
    (hs : execStep w K.activation st ⟨.call fn args, results⟩ = .ok (.on st')) {b : Nat}
    {ls : List (Line Instr)} (hl : (K.ctx L).lowerStep b ⟨.call fn args, results⟩ = .ok ls) :
    ∃ c' ms, Runs K.env lines (.at (ls ++ rest) c) ms (.at rest c') ∧
      Shows K ((Inst.call fn args).events K.fn st) ms ∧ Sim K (fun v => v ∈ results ∨ A v) st' c' := by
  obtain ⟨_, ⟨ext, he, hd, rfl⟩, hr⟩ := ht
  obtain ⟨is, his, rfl⟩ := map_eq_ok.mp hl
  have hget : K.fn.imports.getD fn ⟨"", .empty⟩ = ext := by
    rw [Array.getD_eq_getD_getElem?, he, Option.getD_some]
  obtain ⟨c1, outs, hout, h1, htarget, hargs, hshow, hrun⟩ :=
    h.callMade hK halign he his hA hd lines rest
  simp only [execStep] at hs
  rw [show K.activation.fn = K.fn from rfl, hget, hK.activation_sp, h.keepAll hA hd] at hs
  split at hs
  · cases hs
  · rename_i vals mem hw
    cases hs
    obtain ⟨c2, hc2, hans⟩ := hserved ext (Array.mem_toList_iff.mpr (Array.mem_of_getElem? he)) c1 _
      vals st.mem mem h1.stack hargs h1.mem hw
    obtain ⟨outs', hout', hcar⟩ := hans.results
    obtain rfl : outs' = outs := by
      rw [hout] at hout'
      exact (Except.ok.inj hout').symm
    obtain ⟨c3, hrun3, h3⟩ := ((h1.answered hK hans).spillAll (L := L) hK hr (placed_results hout)
      hcar).runs lines rest
    have hcall := Runs.ofNext K.env lines c1 (.instr (.call callTarget) ::
      (code ((results.zip outs').flatMap fun (v, loc) => (K.ctx L).spill intResults v loc) ++ rest))
    simp only [next, htarget, hc2] at hcall
    rw [htarget] at hshow
    exact ⟨c3, _, (hrun.trans hcall).trans hrun3, by simpa using hshow, h3⟩

/-- a call that the surroundings refuse is made as well -/
theorem Sim.failingCall (hK : K.Ok) (halign : K.base.toNat % 16 = 0) {w : World}
    (h : Sim K A st c) {s : Step} (ht : s.Typed K.fn) (hA : ∀ v ∈ s.inst.reads, A v) {f : RunFault}
    (hs : execStep w K.activation st s = .error f) {b : Nat} {ls : List (Line Instr)}
    (hl : (K.ctx L).lowerStep b s = .ok ls) :
    ∃ k ms, Runs K.env lines (.at (ls ++ rest) c) ms k ∧ Shows K (s.inst.events K.fn st) ms := by
  obtain ⟨inst, results⟩ := s
  cases inst with
  | call fn args =>
    obtain ⟨_, ⟨ext, he, hd, rfl⟩, hr⟩ := ht
    obtain ⟨is, his, rfl⟩ := map_eq_ok.mp hl
    obtain ⟨c1, outs, hout, h1, htarget, hargs, hshow, hrun⟩ :=
      h.callMade hK halign he his hA hd lines rest
    exact ⟨_, _, hrun.trans (Runs.one rfl), hshow⟩
  | _ => cases hs

/-! ## leaving -/

/-- what a function gives back to its caller -/
structure Call.Returned (K : Call) (vals : List Val) (mem : Memory) (c : Cpu) : Prop where
  stack : c.gpr rsp = K.start.gpr rsp + 8
  saved : ∀ r ∈ rbp :: calleeSaved, c.gpr r = K.start.gpr r
  results : Passes resultLimits intResults c K.fn.sig.returns vals
  mem : K.SameMemory c.mem mem

theorem Call.place_size (K : Call) : K.place K.fn.layout.size = K.start.gpr rsp - 8 :=
  UInt64.sub_add_cancel _ _

theorem Call.place_address (K : Call) : K.place K.fn.layout.size + 8 = K.start.gpr rsp := by
  rw [K.place_size, UInt64.sub_add_cancel]

theorem Sim.read_top (h : Sim K A st c) :
    UInt64.ofNat (c.mem.read 8 (K.place K.fn.layout.size)) = K.start.gpr rbp ∧
      c.mem.read 8 (K.start.gpr rsp) = K.start.mem.read 8 (K.start.gpr rsp) := by
  have htop := h.top
  have hadd : K.place K.fn.layout.size + UInt64.ofNat 8 = K.start.gpr rsp := K.place_address
  rw [Call.top, Memory.bytes_append c.mem 8 8, hadd] at htop
  obtain ⟨h1, h2⟩ := List.append_inj htop (by simp)
  rw [Memory.read, h1, ofLittleEndian_littleEndian, ofNat_toNat_mod, Memory.read, h2]
  exact ⟨rfl, rfl⟩

/-- **A return.** -/
theorem Sim.leave (hK : K.Ok) (h : Sim K A st c) {args : List ValueNo} (hA : ∀ v ∈ args, A v)
    (hd : K.fn.HasTypes args K.fn.sig.returns)
    (hL : passing resultLimits K.fn.sig.returns = .ok L) (lines rest : List (Line Instr)) :
    ∃ c', Runs K.env lines (.at (code ((K.ctx L).ret args) ++ rest) c) []
        (.returned c' (UInt64.ofNat (K.start.mem.read 8 (K.start.gpr rsp)))) ∧
      K.Returned (st.getAll args) st.mem c' := by
  have hp := placed_results hL
  obtain ⟨c1, hrun, h1, hcar, -⟩ := (h.unspillAll (L := L) hK hA hd hp).runs lines
    (code [.movReg (.r64 rsp) (.r64 rbp), .pop rbp, .ret] ++ rest)
  obtain ⟨hframe, haddr⟩ := h1.read_top
  -- the stack pointer is set to the saved frame pointer, which is taken from there
  let c2 := c1.setGpr rsp (K.place K.fn.layout.size)
  let c3 := (c2.setGpr rsp (K.start.gpr rsp)).setGpr rbp (K.start.gpr rbp)
  have hp1 : (Instr.movReg (.r64 rsp) (.r64 rbp)).perform K.env c1 = some (c2, []) := by
    show some (c1.setGpr rsp (c1.gpr rbp), _) = _
    rw [h1.frame]
  have hp2 : (Instr.pop rbp).perform K.env c2 = some (c3, []) := by
    show some ((c2.setGpr rsp (K.place K.fn.layout.size + 8)).setGpr rbp
      (UInt64.ofNat (c1.mem.read 8 (K.place K.fn.layout.size))), _) = _
    rw [hframe, K.place_address]
  have hret : next K.env lines c3 (.instr .ret :: rest) =
      (.returned (c3.setGpr rsp (K.start.gpr rsp + 8))
        (UInt64.ofNat (K.start.mem.read 8 (K.start.gpr rsp))), []) := by
    show (Config.returned (c3.setGpr rsp (K.start.gpr rsp + 8))
      (UInt64.ofNat (c1.mem.read 8 (K.start.gpr rsp))), _) = _
    rw [haddr]
  have hrest := (Runs.perform hp1 lines (code [.pop rbp, .ret] ++ rest)).trans
    ((Runs.perform hp2 lines (code [.ret] ++ rest)).trans (Runs.one hret))
  refine ⟨c3.setGpr rsp (K.start.gpr rsp + 8), ?_, ⟨rfl, ?_, ⟨L, hL, hcar.congr ?_⟩, h1.mem⟩⟩
  · rw [Ctx.ret, code, List.map_append, List.append_assoc]
    exact hrun.trans hrest
  · intro r hr
    rcases List.mem_cons.mp hr with rfl | hr
    · rfl
    · have hne : r ≠ rsp ∧ r ≠ rbp := by
        revert r
        decide
      exact (if_neg hne.1).trans ((if_neg hne.2).trans ((if_neg hne.1).trans
        ((if_neg hne.1).trans (h1.saved r hr))))
  · rintro (r | x) hm
    · have hsp : r ≠ rsp := by
        rintro rfl
        exact hp.free rsp (by decide) hm
      have hbp : r ≠ rbp := by
        rintro rfl
        exact hp.free rbp (by decide) hm
      exact congrArg (Val.mk · 0) ((if_neg hsp).trans ((if_neg hbp).trans ((if_neg hsp).trans
        (if_neg hsp))))
    · rfl

/-! ## entering -/

/-- the machine when the frame pointer of the caller is saved and the new one is set -/
def Call.saving (K : Call) : Cpu :=
  ((K.start.setGpr rsp (K.start.gpr rsp - 8)).setMem
    (K.start.mem.write 8 (K.start.gpr rsp - 8) (K.start.gpr rbp).toNat)).setGpr rbp (K.start.gpr rsp - 8)

theorem Call.saving_out {K : Call} (hK : K.Ok) {x : UInt64} (hx : ¬ K.Hidden x) :
    K.saving.mem.get x = K.start.mem.get x := by
  have hm := hK.mid_le
  refine Memory.get_write_out _ _ ?_
  by_contra hlt
  refine hx (.inr (.inl ?_))
  rw [← K.place_size] at hlt
  have hd : K.fn.layout.size ≤ Memory.dist K.base x ∧
      Memory.dist K.base x < K.fn.layout.size + 8 := by
    by_contra hout
    exact hlt (dist_place K.base x (by omega) hout)
  omega

theorem Call.saving_top {K : Call} :
    K.saving.mem.bytes 16 (K.place K.fn.layout.size) = K.top := by
  have hadd : K.place K.fn.layout.size + UInt64.ofNat 8 = K.start.gpr rsp := K.place_address
  rw [Memory.bytes_append _ 8 8, hadd, K.place_size, Call.top]
  refine congrArg₂ (· ++ ·) (Memory.bytes_write_self _ _ _ _ (by omega)) ?_
  refine Memory.bytes_congr fun i hi => Memory.get_write_out _ _ ?_
  rw [← K.place_size, ← hadd, UInt64.add_assoc, ← UInt64.ofNat_add, Memory.dist_add _ _ (by omega)]
  omega

/-- what holds once the stack pointer is at the frame, whatever the flags are -/
theorem saving_sim (hK : K.Ok) {c : Cpu} (hg : c.gpr = (K.saving.setGpr rsp K.base).gpr)
    (hx : c.xmm = K.saving.xmm) (hmem : c.mem = K.saving.mem) :
    Sim K (fun _ => False) (K.fn.startState K.start.mem) c ∧
      ∀ r : AnyReg, r ≠ .gpr rsp → r ≠ .gpr rbp → valOf c r = valOf K.start r := by
  refine ⟨⟨?_, ?_, ?_, Func.size_startState _ _, nofun, ?_, ?_⟩, ?_⟩
  · rw [hg]
    rfl
  · rw [hg, K.place_size]
    rfl
  · intro r hr
    have hne : r ≠ rsp ∧ r ≠ rbp := by
      revert r
      decide
    rw [hg]
    exact (if_neg hne.1).trans ((if_neg hne.2).trans (if_neg hne.1))
  · intro x hx
    rw [hmem]
    exact K.saving_out hK hx
  · rw [hmem]
    exact Call.saving_top
  · rintro (r | x) h1 h2
    · show Val.mk (c.gpr r) 0 = _
      rw [hg]
      have hsp : r ≠ rsp := fun e => h1 (congrArg AnyReg.gpr e)
      have hbp : r ≠ rbp := fun e => h2 (congrArg AnyReg.gpr e)
      exact congrArg (Val.mk · 0) ((if_neg hsp).trans ((if_neg hbp).trans (if_neg hsp)))
    · show c.xmm x = _
      rw [hx]
      rfl

/-- **The prologue makes the frame**, in which nothing is assigned yet -/
theorem prologue_sim (hK : K.Ok) :
    Leads K.env K.start (prologue (K.fn.frame 0)) [] fun c =>
      Sim K (fun _ => False) (K.fn.startState K.start.mem) c ∧
        ∀ r : AnyReg, r ≠ .gpr rsp → r ≠ .gpr rbp → valOf c r = valOf K.start r := by
  have hm := hK.mid_le
  have hsize := hK.wellFormed.size_eq
  unfold prologue
  refine .quiet rfl (.quiet (d := K.saving) rfl ?_)
  split
  · refine .quiet rfl (.nil (saving_sim hK ?_ rfl rfl))
    funext r
    show (if r = rsp then K.saving.gpr rsp - (K.fn.frame 0).size.toInt64.toUInt64
      else K.saving.gpr r) = _
    rw [hK.size_word]
    rfl
  · -- an empty frame lies at the saved frame pointer
    rename_i hnot
    have hzero : K.fn.layout.size = 0 := by
      rw [hsize, Int32.lt_iff_toInt_lt, Int32.toInt_ofNat_of_lt (by omega)] at hnot
      have e : (0 : Int32).toInt = 0 := rfl
      omega
    have hbase : K.base = K.saving.gpr rsp := by
      rw [Call.base, hzero]
      exact UInt64.sub_zero _
    refine .nil (saving_sim hK ?_ rfl rfl)
    rw [hbase, setGpr_self]

/-- what is run before the first block: the prologue, and the parameters go to their homes -/
def Ctx.opening (x : Ctx) (params : List RegLoc) : List Instr :=
  prologue x.frame ++ ((x.fn.blockParams 0).zip params).flatMap fun (v, loc) => x.spill intArgs v loc

/-- **At the first block the parameters are in their homes.** -/
theorem opening_sim (hK : K.Ok) {args : List Val} {params : List RegLoc}
    (hp : passing paramLimits K.fn.sig.params = .ok params)
    (hargs : Passes paramLimits intArgs K.start K.fn.sig.params (Val.keepAll K.fn.sig.params args)) :
    Leads K.env K.start ((K.ctx L).opening params) []
      (Sim K (fun v => v ∈ K.fn.blockParams 0) (K.fn.entryState args K.start.mem)) := by
  obtain ⟨blk, hb, hd⟩ := hK.wellFormed.entry
  have hparams : K.fn.HasTypes (K.fn.blockParams 0) K.fn.sig.params := by
    rw [Func.blockParams, hb]
    exact hd
  obtain ⟨params', hp', hcar⟩ := hargs
  obtain rfl : params' = params := by
    rw [hp] at hp'
    exact (Except.ok.inj hp').symm
  have hpl := placed_params hp
  refine (prologue_sim hK).append ?_
  rintro c1 ⟨h1, hkeep⟩
  have hcar' : Carries c1 (params'.map (AnyReg.of intArgs)) K.fn.sig.params
      (Val.keepAll K.fn.sig.params args) := hcar.congr fun r hr => hkeep r
    (fun e => hpl.free rsp (by decide) (e ▸ hr)) fun e => hpl.free rbp (by decide) (e ▸ hr)
  exact (h1.spillAll (L := L) hK hparams hpl hcar').mono fun c2 h2 => h2.mono fun v hv => .inl hv

end

end TreeJit.Compile.X64
