import TreeJit.Proofs.Compile.Branches

/-!
# Compiled code does what the interpreter does

The interpreter and the machine are followed side by side.  `Meets` relates a point of a run of the
interpreter to a state of the machine; one step of the interpreter is a stretch of code that leads
from such a pair to the next (`Meets.advance`), and so is a run (`Meets.advances`).

* `Call.simulates`      as far as the interpreter comes, the code comes as well;
* `Call.returns`        where the interpreter ends, the code returns.
-/

namespace TreeJit.Compile.X64

open SSA TreeJit.X64

/-- the code of a function, called by the calling convention, in surroundings that do what the world
of the interpreter does -/
structure Running (K : Call) (w : World) (L : List RegLoc) (lines : List (Line Instr)) : Prop where
  ok : K.Ok
  aligned : K.base.toNat % 16 = 0
  float : Env.Agrees K.env w.float
  served : K.Served w
  reads : K.fn.AssignedBeforeRead
  returns : passing resultLimits K.fn.sig.returns = .ok L
  blocks : HasBlocks (K.ctx L) lines

/-- where the machine is when the interpreter is at a point, after the events `es` -/
inductive Meets (K : Call) (L : List RegLoc) (lines : List (Line Instr)) (es : List SSA.Event) :
    Point → Config → Prop where
  /-- in front of the code of the step, with everything that was assigned on the path in its home -/
  | inside {before : List Nat} {b k : Nat} {st : State} {rest : List (Line Instr)} {c : Cpu}
      (hes : entered es = before ++ [b]) (hpath : K.fn.Path before b)
      (hrest : Stands (K.ctx L) lines b k rest)
      (hsim : Sim K (· ∈ K.fn.assignedBefore before b k) st c) :
      Meets K L lines es (.inside b k st) (.at rest c)
  /-- back at the return address -/
  | left {vals : List Val} {mem : Memory} {c : Cpu} (h : K.Returned vals mem c) :
      Meets K L lines es (.left vals mem)
        (.returned c (UInt64.ofNat (K.start.mem.read 8 (K.start.gpr rsp))))
  /-- wherever called code ends that the interpreter has no result for -/
  | failed (f : RunFault) (k : Config) : Meets K L lines es (.failed f) k

section
variable {K : Call} {w : World} {L : List RegLoc} {lines : List (Line Instr)}
variable {p q : Point} {k : Config} {es es' : List SSA.Event}

theorem Sim.stepCode (hR : Running K w L lines) {A : ValueNo → Prop} {st st' : State} {c : Cpu}
    (hsim : Sim K A st c) {s : Step} (ht : s.Typed K.fn) (hA : ∀ v ∈ s.inst.reads, A v)
    (hclear : ∀ e ∈ s.inst.events K.fn st, ClearOf K e)
    (hs : execStep w K.activation st s = .ok (.on st')) {b : Nat} {ls : List (Line Instr)}
    (hls : (K.ctx L).lowerStep b s = .ok ls) (rest : List (Line Instr)) :
    ∃ c' ms, Runs K.env lines (.at (ls ++ rest) c) ms (.at rest c') ∧
      Shows K (s.inst.events K.fn st) ms ∧ Sim K (fun v => v ∈ s.results ∨ A v) st' c' := by
  by_cases hcall : ∃ fn args, s.inst = .call fn args
  · obtain ⟨inst, results⟩ := s
    obtain ⟨fn, args, rfl⟩ := hcall
    exact hsim.callStep hR.ok hR.aligned hR.served ht hA hs hls
  · obtain ⟨is, ms, rfl, hlead, hshow⟩ := hsim.plainStep hR.ok hR.float ht hA hclear
      (fun fn args e => hcall ⟨fn, args, e⟩) hs hls
    obtain ⟨c', hrun, hsim'⟩ := hlead.runs lines rest
    exact ⟨c', ms, hrun, hshow, hsim'⟩

/-- the code of a branch comes to the first step of the block that the interpreter goes to -/
theorem Sim.branchCode (hR : Running K w L lines) {A : ValueNo → Prop} {st st' : State} {c : Cpu}
    (hsim : Sim K A st c) {b n : Nat} {blk : Block} {s : Step} (hb : K.fn.blocks[b]? = some blk)
    (hk : blk.steps.toList[n]? = some s) (hA : ∀ v ∈ s.inst.reads, A v) {b' : Nat} {args : List Val}
    (hs : execStep w K.activation st s = .ok (.branch st' b' args)) {ls rest : List (Line Instr)}
    (hls : (K.ctx L).lowerStep b s = .ok ls) (hrest : Stands (K.ctx L) lines b n (ls ++ rest)) :
    ∃ t rest' c' ms, t ∈ s.inst.targets ∧ t.block = b' ∧ s.results = [] ∧
      s.inst.isTerminator = true ∧ st' = st ∧ args = st.getAll t.args ∧
      Runs K.env lines (.at (ls ++ rest) c) ms (.at rest' c') ∧ Shows K [.block t.block] ms ∧
      Stands (K.ctx L) lines t.block 0 rest' ∧
      Sim K (fun v => v ∈ K.fn.blockParams t.block ∨ A v)
        (st.setAll (K.fn.blockParams t.block) (st.getAll t.args)) c' := by
  have hmem := List.mem_of_getElem? hk
  obtain ⟨rs, hi, hr⟩ := hR.ok.wellFormed.typed b blk hb s hmem
  obtain ⟨inst, results⟩ := s
  cases inst with
  | jump t =>
    obtain ⟨hsup, rfl⟩ := hi
    cases hs
    cases hls
    obtain ⟨rest', c', hrun, hst, hsim'⟩ := hsim.goto hR.ok hR.blocks hsup hA
      (Func.args_le hb hmem List.mem_cons_self) rest
    exact ⟨t, rest', c', _, List.mem_cons_self, rfl, List.length_eq_zero_iff.mp hr.length_eq, rfl,
      rfl, rfl, hrun, .one (.block _), hst, hsim'⟩
  | brif ty cond yes no =>
    obtain ⟨hty, hcond, hyes, hno, rfl⟩ := hi
    obtain ⟨hAc, hAs⟩ := List.forall_mem_cons.mp hA
    cases hs
    cases hls
    -- the target that is taken
    obtain ⟨t, et⟩ : ∃ t, t = if (st.get cond).lo = 0 then no else yes := ⟨_, rfl⟩
    have ht : t ∈ [yes, no] ∧ K.fn.Supplies t ∧ ∀ v ∈ t.args, A v := by
      rw [et]
      split
      · exact ⟨List.mem_cons_of_mem _ List.mem_cons_self, hno,
          fun v hv => hAs v (List.mem_append_right _ hv)⟩
      · exact ⟨List.mem_cons_self, hyes, fun v hv => hAs v (List.mem_append_left _ hv)⟩
    obtain ⟨-, -, -, pre, -, -, -, e⟩ := hrest
    obtain ⟨rest', c', ms, hrun, hshow, hst, hsim'⟩ := hsim.brif hR.ok hR.blocks hty
      (Func.HasTypes.singleton_iff.mp hcond) hAc et ht.2.1 ht.2.2 (Func.args_le hb hmem ht.1) e
    exact ⟨t, rest', c', ms, ht.1, by rw [et], List.length_eq_zero_iff.mp hr.length_eq, rfl,
      rfl, by rw [et], hrun, hshow, hst, hsim'⟩
  | call fn args =>
    simp only [execStep] at hs
    split at hs <;> cases hs
  | _ => cases hs

theorem Sim.leaveCode (hR : Running K w L lines) {A : ValueNo → Prop} {st st' : State} {c : Cpu}
    (hsim : Sim K A st c) {s : Step} (ht : s.Typed K.fn) (hA : ∀ v ∈ s.inst.reads, A v)
    {vals : List Val} (hs : execStep w K.activation st s = .ok (.leave st' vals)) {b : Nat}
    {ls : List (Line Instr)} (hls : (K.ctx L).lowerStep b s = .ok ls) (rest : List (Line Instr)) :
    ∃ c', K.Returned vals st'.mem c' ∧
      Runs K.env lines (.at (ls ++ rest) c) []
        (.returned c' (UInt64.ofNat (K.start.mem.read 8 (K.start.gpr rsp)))) := by
  obtain ⟨rs, hi, hr⟩ := ht
  obtain ⟨inst, results⟩ := s
  cases inst with
  | ret args =>
    cases hs
    cases hls
    obtain ⟨c', hrun, hret⟩ := hsim.leave hR.ok hA hi.1 hR.returns lines rest
    exact ⟨c', hret, hrun⟩
  | call fn args =>
    simp only [execStep] at hs
    split at hs <;> cases hs
  | _ => cases hs

/-- **One step of the interpreter** is a stretch of code. -/
theorem Meets.advance (hR : Running K w L lines) (hm : Meets K L lines es p k)
    (h : Advance w K.activation p es' q) (hclear : ∀ e ∈ es', ClearOf K e) :
    ∃ k' ms, Runs K.env lines k ms k' ∧ Shows K es' ms ∧ Meets K L lines (es ++ es') q k' := by
  have hw := hR.ok.wellFormed
  cases h with
  | @on b n blk s st st' hb hk hs =>
    cases hm with
    | @inside before _ _ _ _ c hes hpath hrest hsim =>
      obtain ⟨ls, rest, hls, rfl, hrest'⟩ := hrest.step hb hk
      have ht := hw.typed b blk hb s (List.mem_of_getElem? hk)
      have hA := hR.reads before b blk n s hpath hb hk
      obtain ⟨c', ms, hrun, hshow, hsim'⟩ := hsim.stepCode hR ht hA hclear hs hls rest
      refine ⟨_, ms, hrun, hshow, .inside ?_ hpath hrest' (hsim'.mono fun v hv =>
        Func.assignedBefore_succ hb hk hv)⟩
      rw [entered_append, entered_events, List.append_nil]
      exact hes
  | @branch b n b' blk dest s st st' args hb hk hs hd =>
    cases hm with
    | @inside before _ _ _ _ c hes hpath hrest hsim =>
      obtain ⟨ls, rest, hls, rfl, hrest'⟩ := hrest.step hb hk
      have hA := hR.reads before b blk n s hpath hb hk
      obtain ⟨t, rest', c', ms, ht, rfl, hres, hterm, rfl, rfl, hrun, hshow, hst, hsim'⟩ :=
        hsim.branchCode hR hb hk hA hs hls hrest
      have hparams : K.fn.blockParams t.block = dest.params.toList := by
        rw [Func.blockParams, show K.fn.blocks[t.block]? = some dest from hd]
      have hlast := hw.last_of_terminator hb hk hterm
      rw [← hparams]
      refine ⟨_, ms, hrun, hshow, .inside ?_ (hpath.next hb (List.mem_of_getElem? hk) ht) hst
        (hsim'.mono fun v hv => Func.assignedBefore_branch hb hlast hk hres hv)⟩
      rw [entered_append, hes]
      rfl
  | @leave b n blk s st st' vals hb hk hs =>
    cases hm with
    | @inside before _ _ _ _ c hes hpath hrest hsim =>
      obtain ⟨ls, rest, hls, rfl, hrest'⟩ := hrest.step hb hk
      have ht := hw.typed b blk hb s (List.mem_of_getElem? hk)
      have hA := hR.reads before b blk n s hpath hb hk
      obtain ⟨c', hret, hrun⟩ := hsim.leaveCode hR ht hA hs hls rest
      exact ⟨_, _, hrun, .nil, .left hret⟩
  | @fail b n blk s st f hb hk hs =>
    cases hm with
    | @inside before _ _ _ _ c hes hpath hrest hsim =>
      obtain ⟨ls, rest, hls, rfl, hrest'⟩ := hrest.step hb hk
      have ht := hw.typed b blk hb s (List.mem_of_getElem? hk)
      have hA := hR.reads before b blk n s hpath hb hk
      obtain ⟨k', ms, hrun, hshow⟩ := hsim.failingCall hR.ok hR.aligned ht hA hs hls
      exact ⟨k', ms, hrun, hshow, .failed f k'⟩

/-- **A run of the interpreter** is a run of the code. -/
theorem Meets.advances (hR : Running K w L lines) (hm : Meets K L lines es p k)
    (h : Advances w K.activation p es' q) (hclear : ∀ e ∈ es', ClearOf K e) :
    ∃ k' ms, Runs K.env lines k ms k' ∧ Shows K es' ms ∧ Meets K L lines (es ++ es') q k' := by
  induction h with
  | refl =>
    rw [List.append_nil]
    exact ⟨k, [], .refl k, .nil, hm⟩
  | tail _ hs ih =>
    obtain ⟨hc, hc'⟩ := List.forall_mem_append.mp hclear
    obtain ⟨k1, ms1, hrun1, hshow1, hm1⟩ := ih hc
    obtain ⟨k2, ms2, hrun2, hshow2, hm2⟩ := hm1.advance hR hs hc'
    rw [List.append_assoc] at hm2
    exact ⟨k2, ms1 ++ ms2, hrun1.trans hrun2, hshow1.append hshow2, hm2⟩

end

/-! ## from the entry on -/

theorem base_aligned {K : Call} (hK : K.Ok) (h : (K.start.gpr rsp).toNat % 16 = 8) :
    K.base.toNat % 16 = 0 := by
  have hlt := hK.size_lt
  have hmod := K.fn.layout_size_mod
  have h1 := (K.start.gpr rsp).toNat_lt
  rw [Call.base, UInt64.toNat_sub, UInt64.toNat_sub, UInt64.toNat_ofNat']
  have e : (8 : UInt64).toNat = 8 := rfl
  omega

/-- **The lines of a function do what the interpreter does**, up to any point of its run. -/
theorem Call.simulates {K : Call} {w : World} {opts : Options} {lines : List (Line Instr)}
    (hK : K.Ok) (hn : K.fn.ImportsNamed) (hl : lower K.fn opts = .ok lines)
    (hread : K.fn.AssignedBeforeRead) (hfloat : Env.Agrees K.env w.float) (hserved : K.Served w)
    (halign : (K.start.gpr rsp).toNat % 16 = 8) {args : List Val}
    (hargs : Passes paramLimits intArgs K.start K.fn.sig.params (Val.keepAll K.fn.sig.params args))
    {es : List SSA.Event} {p : Point}
    (hreach : K.fn.Reaches w (K.start.gpr rsp - 8) args K.start.mem es p)
    (hclear : ∀ e ∈ es, ClearOf K e) :
    ∃ returns ms k, passing resultLimits K.fn.sig.returns = .ok returns ∧
      Runs K.env lines (.at lines K.start) ms k ∧ Shows K es ms ∧ Meets K returns lines es p k := by
  obtain ⟨params, ⟨fn, frame, L⟩, hp, hL, rfl, rfl, hblocks, rest, e, hst⟩ :=
    lower_ok hK.wellFormed hn hl
  have hR : Running K w L lines :=
    ⟨hK, base_aligned hK halign, hfloat, hserved, hread, hL, hblocks⟩
  obtain ⟨es', rfl, hadv⟩ := hreach
  obtain ⟨c1, hrun1, h1⟩ := (opening_sim (L := L) hK hp hargs).runs lines
    (.mark (blockLabel 0) :: rest)
  have hstart : Runs K.env lines (.at lines K.start) ([] ++ [.label (blockLabel 0)]) (.at rest c1) := by
    have hmark := hrun1.trans (Runs.ofNext K.env lines c1 (.mark (blockLabel 0) :: rest))
    rwa [show (K.ctx L).opening params = Ctx.opening ⟨K.fn, K.fn.frame 0, L⟩ params from rfl,
      show List.map Line.instr _ = code _ from rfl, ← e] at hmark
  have hm : Meets K L lines [.block 0] (.inside 0 0 (K.fn.entryState args K.start.mem))
      (.at rest c1) := by
    obtain ⟨blk, hb, -⟩ := hK.wellFormed.entry
    refine .inside rfl .entry hst (h1.mono fun v hv => ?_)
    rw [Func.assignedBefore_of _ _ hb, Block.assignsUpTo, List.take_zero] at hv
    rw [Func.blockParams, hb]
    simpa using hv
  obtain ⟨k, ms, hrun, hshow, hmeets⟩ := hm.advances hR hadv fun e he =>
    hclear e (List.mem_cons_of_mem _ he)
  exact ⟨L, _, k, hL, hstart.trans hrun, .cons (.block 0) hshow, hmeets⟩

/-- **Code returns when the interpreter does**, with the same results and the same memory. -/
theorem Call.returns {K : Call} {w : World} {opts : Options} {lines : List (Line Instr)}
    (hK : K.Ok) (hn : K.fn.ImportsNamed) (hl : lower K.fn opts = .ok lines)
    (hread : K.fn.AssignedBeforeRead) (hfloat : Env.Agrees K.env w.float) (hserved : K.Served w)
    (halign : (K.start.gpr rsp).toNat % 16 = 8) {args vals : List Val} {mem : Memory} {fuel : Nat}
    (hargs : Passes paramLimits intArgs K.start K.fn.sig.params (Val.keepAll K.fn.sig.params args))
    (hrun : K.fn.run w fuel (K.start.gpr rsp - 8) args K.start.mem = .ok (vals, mem))
    (hclear : ∀ es, K.fn.Reaches w (K.start.gpr rsp - 8) args K.start.mem es (.left vals mem) →
      ∀ e ∈ es, ClearOf K e) :
    ∃ ms c, K.Returned vals mem c ∧ Runs K.env lines (.at lines K.start) ms
      (.returned c (UInt64.ofNat (K.start.mem.read 8 (K.start.gpr rsp)))) := by
  obtain ⟨es, hreach⟩ := Func.reaches_of_run hrun
  obtain ⟨returns, ms, k, -, hruns, -, hm⟩ := Call.simulates hK hn hl hread hfloat hserved halign
    hargs hreach (hclear es hreach)
  cases hm with
  | left hret => exact ⟨ms, _, hret, hruns⟩

/-- **A compiled function does what the interpreter does.**  The machine enters the code by the
calling convention, in surroundings that do arithmetic and calls as the world of the interpreter
does.  Then, as far as the interpreter comes without touching what belongs to the machine alone, the
code comes as well: it passes the same blocks, makes the same reads, writes and calls with the same
arguments, has every value that was assigned on the way in its home, zero-extended, and gives back
what the interpreter gives back. -/
theorem compile_simulates (name : String) (sig : Signature) (as : List Action) (f : Func)
    (opts : Options) (prog : Program) (hf : ((Draft.new name sig).perform as).finish.2 = .ok f)
    (hc : compile .x64 f opts = .ok prog) (hread : f.AssignedBeforeRead) (hfit : f.Fits)
    (E : Env) (w : World) (start : Cpu) (args : List Val) (hfloat : Env.Agrees E w.float)
    (hroom : E.room < 2 ^ 63) (hserved : Call.Served ⟨E, f, start⟩ w)
    (halign : (start.gpr rsp).toNat % 16 = 8)
    (hargs : Passes paramLimits intArgs start f.sig.params (Val.keepAll f.sig.params args))
    (es : List SSA.Event) (p : Point)
    (hreach : f.Reaches w (start.gpr rsp - 8) args start.mem es p)
    (hclear : ∀ e ∈ es, ClearOf ⟨E, f, start⟩ e) :
    ∃ lines returns ms k, lower f opts = .ok lines ∧ TreeJit.X64.assemble lines = .ok prog ∧
      passing resultLimits f.sig.returns = .ok returns ∧ Runs E lines (.at lines start) ms k ∧
      Shows ⟨E, f, start⟩ es ms ∧ Meets ⟨E, f, start⟩ returns lines es p k := by
  obtain ⟨-, -, hw⟩ := Draft.sound_of_finish hf
  obtain ⟨lines, hl, ha⟩ := assemble_of_compile hc
  obtain ⟨returns, ms, k, hr, hrun, hshow, hm⟩ := Call.simulates (K := ⟨E, f, start⟩)
    ⟨hw, hfit, hroom⟩ (Draft.importsNamed_of_finish hf) hl hread hfloat hserved halign hargs hreach
    hclear
  exact ⟨lines, returns, ms, k, hl, ha, hr, hrun, hshow, hm⟩

def doubled : Func where
  name := "doubled"
  sig := ⟨[.i64], [.i64]⟩
  values := #[.i64, .i64]
  blocks := #[⟨#[0], #[⟨.call 0 [0], [1]⟩, ⟨.ret [1], []⟩], true, 0⟩]
  imports := #[⟨"double", ⟨[.i64], [.i64]⟩⟩]

/-- surroundings that double a number, and in which no two floats can be compared -/
def doublingEnv : Env where
  float := ⟨fun _ _ _ => 0, fun cc _ _ => FloatOrder.unordered.holds cc, fun _ _ _ => 0,
    fun cc _ _ => FloatOrder.unordered.holds cc⟩
  order := fun _ _ => .unordered
  order32 := fun _ _ => .unordered
  mulFlags := fun _ _ => {}
  symbol := fun _ => 0x1000
  call := fun a c => if a = 0x1000 then some (c.setGpr rax (c.gpr rdi + c.gpr rdi)) else none
  room := 0

def doublingWorld : World where
  float := doublingEnv.float
  call := fun name _ args mem =>
    match args with
    | [x] => if name = "double" then .ok ([⟨x.lo + x.lo, 0⟩], mem) else .error (.unknown name)
    | _ => .error (.unknown name)

def calledWith21 : Cpu where
  gpr := fun r => if r = rsp then 0x8008 else if r = rdi then 21 else 0
  xmm := fun _ => ⟨0, 0⟩
  flags := {}
  mem := {}

theorem doubled_path {before : List Nat} {b : Nat} (h : doubled.Path before b) :
    before = [] ∧ b = 0 := by
  induction h with
  | entry => exact ⟨rfl, rfl⟩
  | next _ hb hs ht ih =>
    obtain ⟨rfl, rfl⟩ := ih
    cases hb
    rcases List.mem_pair.mp hs with rfl | rfl <;> cases ht

theorem doubled_reads : doubled.AssignedBeforeRead := by
  intro before b blk k s hp hb hk
  obtain ⟨rfl, rfl⟩ := doubled_path hp
  cases hb
  match k with
  | 0 =>
    cases hk
    decide
  | 1 =>
    cases hk
    decide
  | k + 2 => cases hk

theorem doubling_served : Call.Served ⟨doublingEnv, doubled, calledWith21⟩ doublingWorld := by
  intro ext hext c args vals mem mem' hsp hargs hmem hw
  obtain rfl := List.mem_singleton.mp hext
  obtain ⟨locs, hl, hcar⟩ := hargs
  cases hl
  cases hcar with
  | cons hx hnil =>
    cases hnil
    subst hx
    cases hw
    refine ⟨_, rfl, ⟨fun r hr => if_neg (pinned_ne r hr).1, ⟨[⟨.int, 0⟩], rfl, .cons rfl .nil⟩,
      fun _ _ => rfl, hmem⟩⟩

theorem doubled_reaches : doubled.Reaches doublingWorld (calledWith21.gpr rsp - 8) [⟨21, 0⟩]
    calledWith21.mem [.block 0, .call ⟨"double", ⟨[.i64], [.i64]⟩⟩ [⟨21, 0⟩]]
    (.left [⟨42, 0⟩] calledWith21.mem) := by
  refine ⟨_, rfl, ?_⟩
  have hcall : Advance doublingWorld (doubled.activation (calledWith21.gpr rsp - 8))
      (.inside 0 0 (doubled.entryState [⟨21, 0⟩] calledWith21.mem)) _
      (.inside 0 1 ⟨#[⟨21, 0⟩, ⟨42, 0⟩], calledWith21.mem⟩) := .on rfl rfl rfl
  have hret : Advance doublingWorld (doubled.activation (calledWith21.gpr rsp - 8))
      (.inside 0 1 ⟨#[⟨21, 0⟩, ⟨42, 0⟩], calledWith21.mem⟩) _ _ := .leave rfl rfl rfl
  exact (Advances.single hcall).tail hret

/-- called with 21, the code calls with 21, with the stack pointer aligned, and comes back with 42 -/
theorem compile_simulates_doubled : ∃ lines ms c, lower doubled ⟨false⟩ = .ok lines ∧
    Runs doublingEnv lines (.at lines calledWith21) ms (.returned c 0) ∧
    Shows ⟨doublingEnv, doubled, calledWith21⟩
      [.block 0, .call ⟨"double", ⟨[.i64], [.i64]⟩⟩ [⟨21, 0⟩]] ms ∧
    c.gpr rax = 42 ∧ c.gpr rsp = 0x8010 := by
  have hf : ((Draft.new "doubled" ⟨[.i64], [.i64]⟩).perform
      [.importFn "double" ⟨[.i64], [.i64]⟩, .createBlock, .appendFunctionParams 0, .switchTo 0,
        .call 0 [0], .ret [1], .sealAll]).finish.2 = .ok doubled :=
    (Draft.finish_of_isOk (by decide +kernel)).trans (congrArg Except.ok (by decide +kernel))
  obtain ⟨prog, hc⟩ : ∃ prog, compile .x64 doubled ⟨false⟩ = .ok prog := by
    have hok : (compile .x64 doubled ⟨false⟩).isOk = true := by decide +kernel
    cases e : compile .x64 doubled ⟨false⟩ with
    | ok prog => exact ⟨prog, rfl⟩
    | error e' =>
      rw [e] at hok
      cases hok
  have hfit : doubled.layout.size < 2 ^ 31 := by decide +kernel
  have hfloat : Env.Agrees doublingEnv doublingWorld.float :=
    ⟨rfl, fun _ _ _ => rfl, fun _ _ _ => rfl, fun _ _ => rfl, fun _ _ => rfl⟩
  have hargs : Passes paramLimits intArgs calledWith21 [.i64] [⟨21, 0⟩] :=
    ⟨[⟨.int, 0⟩], rfl, .cons rfl .nil⟩
  obtain ⟨lines, returns, ms, k, hl, -, hr, hrun, hshow, hm⟩ := compile_simulates "doubled"
    ⟨[.i64], [.i64]⟩ _ doubled ⟨false⟩ prog hf hc doubled_reads hfit doublingEnv doublingWorld
    calledWith21 [⟨21, 0⟩] hfloat (by decide) doubling_served (by decide) hargs _ _ doubled_reaches
    (by simp [ClearOf])
  cases hm with
  | left h =>
    have haddr : UInt64.ofNat (calledWith21.mem.read 8 (calledWith21.gpr rsp)) = 0 := by
      simp [calledWith21, Memory.read, Memory.bytes, Memory.get, ofLittleEndian]
    rw [haddr] at hrun
    obtain ⟨locs, hl', hcar⟩ := h.results
    cases hl'
    cases hcar with
    | cons hx _ => exact ⟨lines, ms, _, hl, hrun, hshow, congrArg Val.lo hx, h.stack⟩

end TreeJit.Compile.X64
