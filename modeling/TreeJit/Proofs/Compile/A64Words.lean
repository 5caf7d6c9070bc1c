import TreeJit.Compile.Backend
import TreeJit.Proofs.Code.Relocation
import TreeJit.Proofs.Compile.A64Steps

/-!
# The words of a step on AArch64

In the code of a function, the words of a step stand behind the label of its block and the words of
the steps before it (`StepAt`).  They are those of the instructions the step is lowered to
(`bytes_of_straight`), so that running them does what the interpreter does (`words_of_step`).
-/

namespace TreeJit.A64

/-! ## words at an offset -/

def wordsFrom (code : List UInt8) (pos n : Nat) : List UInt32 :=
  (List.range n).map fun j => wordAt code (pos + 4 * j)

theorem wordsFrom_eq {code : List UInt8} {pos : Nat} {ws : List UInt32}
    (h : (code.drop pos).take (4 * ws.length) = ws.flatMap wordBytes) :
    wordsFrom code pos ws.length = ws := by
  refine List.ext_getElem (by simp [wordsFrom]) fun j _ hj => ?_
  have hcut : wordAt ((code.drop pos).take (4 * ws.length)) (4 * j) = wordAt code (pos + 4 * j) :=
    wordAt_take_drop code (by omega)
  rw [h, wordAt_flatMap (List.getElem?_eq_getElem hj)] at hcut
  simp [wordsFrom, hcut]

section
variable {lines : List (Line Instr)} {prog : Program} {pos : Nat} {i : Instr}

theorem bytes_of_straight (ha : assemble lines = .ok prog) (hst : StandsAt Instr.encode 0 lines pos (.instr i))
    {E : Env} {c : Cpu} {r : Cpu × List Event} (hp : i.perform E c = some r) :
    i.Encodes ∧ (Line.instr i).sizeAt Instr.encode pos = 4 * i.words.length ∧
      (prog.code.drop pos).take (4 * i.words.length) = i.words.flatMap wordBytes := by
  obtain ⟨hacc, -, -, hclose, -⟩ :=
    assembleLines_ok (fun pos i c hc => Instr.encode_shaped (mapError_eq_ok.mp hc)) ha
  have hst' := (standsAt_mapError (g := AsmFault.a64)).mpr hst
  obtain ⟨ck, hck⟩ := hacc pos i hst'
  have hbytes := hclose pos i ck hst' hck
  have henc := mapError_eq_ok.mp hck
  obtain ⟨rfl, -⟩ := Instr.run_words henc hp
  have hlen : (i.words.flatMap wordBytes).length = 4 * i.words.length := length_words _
  refine ⟨⟨pos, _, henc⟩, (sizeAt_ok henc).trans hlen, ?_⟩
  rw [← hlen]
  exact (Except.ok.inj hbytes).symm

/-- **Code on the straight line has its words in the code**, from where it stands to where it ends. -/
theorem straight_line {before after : List (Line Instr)} {is : List Instr}
    (ha : assemble (before ++ (is.map .instr ++ after)) = .ok prog)
    (hp : ∀ i ∈ is, ∃ E c r, i.perform E c = some r) :
    (∀ i ∈ is, i.Encodes) ∧
      stopOf Instr.encode 0 (before ++ is.map .instr) =
        stopOf Instr.encode 0 before + 4 * (is.flatMap Instr.words).length ∧
      (prog.code.drop (stopOf Instr.encode 0 before)).take (4 * (is.flatMap Instr.words).length) =
        (is.flatMap Instr.words).flatMap wordBytes := by
  induction is generalizing before with
  | nil => exact ⟨List.forall_mem_nil _, by simp, by simp⟩
  | cons i is ih =>
    obtain ⟨⟨E, c, r, hi⟩, his⟩ := List.forall_mem_cons.mp hp
    have hst : StandsAt Instr.encode 0 (before ++ .instr i :: (is.map .instr ++ after))
        (stopOf Instr.encode 0 before) (.instr i) := ⟨before, is.map .instr ++ after, rfl, rfl⟩
    obtain ⟨henc, hsize, hbytes⟩ := bytes_of_straight ha hst hi
    have hhead : stopOf Instr.encode 0 (before ++ [.instr i]) =
        stopOf Instr.encode 0 before + 4 * i.words.length := by
      rw [stopOf_append, ← hsize]
      rfl
    have hrest : before ++ ((i :: is).map Line.instr ++ after) =
        (before ++ [.instr i]) ++ (is.map .instr ++ after) := by simp
    rw [hrest] at ha
    obtain ⟨hencs, hstop, hmore⟩ := ih ha his
    rw [hhead] at hstop hmore
    refine ⟨List.forall_mem_cons.mpr ⟨henc, hencs⟩, ?_, ?_⟩
    · rw [List.flatMap_cons, List.length_append, Nat.mul_add, ← Nat.add_assoc, ← hstop]
      simp
    · rw [List.flatMap_cons, List.length_append, Nat.mul_add, List.take_add, List.drop_drop,
        List.flatMap_append, hbytes, hmore]

end

end TreeJit.A64

namespace TreeJit.Compile.A64

open SSA TreeJit.A64
open TreeJit.X64 (FloatOrder)

/-! ## the place of a step -/

/-- where the words of step `k` of block `b` are: the lines of the step stand behind the label of the
block and the lines of the steps before it, and take `n` words from `pos` on -/
def StepAt (f : Func) (opts : Options) (b k pos n : Nat) : Prop :=
  ∃ blk s returns front earlier here after, f.blocks[b]? = some blk ∧ blk.steps[k]? = some s ∧
    lower f opts = .ok (front ++ .mark (blockLabel b) :: (earlier ++ (here ++ after))) ∧
    (ctxOf f returns).lowerSteps b (blk.steps.toList.take k) = .ok earlier ∧
    (ctxOf f returns).lowerStep b s = .ok here ∧
    pos = stopOf Instr.encode 0 (front ++ .mark (blockLabel b) :: earlier) ∧
    pos + 4 * n = stopOf Instr.encode 0 (front ++ .mark (blockLabel b) :: (earlier ++ here))

section
variable {f : Func} {opts : Options} {b k pos n : Nat} {blk : Block} {s : Step}

theorem exists_stepAt {lines : List (Line Instr)} (hl : lower f opts = .ok lines)
    (hb : f.blocks[b]? = some blk) (hs : blk.steps[k]? = some s) : ∃ pos n, StepAt f opts b k pos n := by
  have hlower := hl
  obtain ⟨params, -, hl⟩ := bind_eq_ok.mp hl
  obtain ⟨returns, -, hl⟩ := bind_eq_ok.mp hl
  simp only at hl
  split at hl
  · cases hl
  · obtain ⟨-, -, hl⟩ := bind_eq_ok.mp hl
    obtain ⟨blocks, hblocks, hl⟩ := bind_eq_ok.mp hl
    rw [lowerBlocks_eq] at hblocks
    obtain ⟨pre, body, post, rfl, hbody, -⟩ :=
      blocksLines_split hblocks (k := b) (by rwa [Array.getElem?_toList])
    rw [Nat.zero_add] at hbody hl
    obtain ⟨earlier, here, rest, rfl, hearlier, hhere⟩ :=
      stepsLines_split hbody (k := k) (by rwa [Array.getElem?_toList])
    obtain ⟨front, rfl⟩ : ∃ front, lines = front ++ .mark (blockLabel b) ::
        (earlier ++ (here ++ (rest ++ post))) := by
      refine ⟨code (prologue (f.frame 0) ++ ((f.blockParams 0).zip params).flatMap fun m =>
        (ctxOf f returns).spill m.1 m.2) ++ pre, ?_⟩
      rw [← Except.ok.inj hl]
      simp only [List.append_assoc]
      rfl
    have hmod : ∀ ls : List (Line Instr), stopOf Instr.encode 0 ls % 4 = 0 :=
      fun ls => stopOf_mod rfl fun _ _ _ _ hc => Instr.encode_length hc
    have hstop : stopOf Instr.encode 0 (front ++ .mark (blockLabel b) :: (earlier ++ here)) =
        stopOf Instr.encode (stopOf Instr.encode 0 (front ++ .mark (blockLabel b) :: earlier)) here := by
      rw [← stopOf_append, List.append_assoc]
      rfl
    have hle : stopOf Instr.encode 0 (front ++ .mark (blockLabel b) :: earlier) ≤
        stopOf Instr.encode (stopOf Instr.encode 0 (front ++ .mark (blockLabel b) :: earlier)) here :=
      le_stopOf _ _
    have h1 := hmod (front ++ .mark (blockLabel b) :: earlier)
    have h2 := hmod (front ++ .mark (blockLabel b) :: (earlier ++ here))
    refine ⟨_, (stopOf Instr.encode 0 (front ++ .mark (blockLabel b) :: (earlier ++ here)) -
      stopOf Instr.encode 0 (front ++ .mark (blockLabel b) :: earlier)) / 4, blk, s, returns, front,
      earlier, here, rest ++ post, hb, hs, hlower, (lowerSteps_eq ..).trans hearlier, hhere, rfl, ?_⟩
    omega

/-- **The words of a step that neither calls nor branches do what the interpreter does.** -/
theorem StepAt.run (h : StepAt f opts b k pos n) (hb : f.blocks[b]? = some blk)
    (hs : blk.steps[k]? = some s) {prog : Program} (hc : compile .a64 f opts = .ok prog)
    (hw : f.WellFormed) (hf : f.Fits) {w : World} {E : Env} (hE : Env.Agrees E w.float)
    (hcall : ∀ fn args, s.inst ≠ .call fn args) (hend : s.inst.isTerminator = false)
    {c : Cpu} {st : State} (hholds : Holds f c st s.inst.reads) (hclear : s.inst.KeepsClear f c.sp st) :
    ∃ st' c' es, execStep w ⟨f, f.frame 0, c.sp⟩ st s = .ok (.on st') ∧
      TreeJit.A64.run E (wordsFrom prog.code pos n) c = some (c', es) ∧ Ran f s c st st' c' es := by
  obtain ⟨blk', s', returns, front, earlier, here, after, hb', hs', hl, -, hhere, hpos, hstop⟩ := h
  obtain rfl : blk' = blk := Option.some.inj (hb'.symm.trans hb)
  obtain rfl : s' = s := Option.some.inj (hs'.symm.trans hs)
  obtain ⟨lines, hl', ha⟩ := assemble_of_compile hc
  obtain rfl := Except.ok.inj (hl.symm.trans hl')
  have hty := hw.typed b blk' hb s' (Array.mem_toList_iff.mpr (Array.mem_of_getElem? hs))
  obtain ⟨is, st', rfl, hexec, es, hlead⟩ := step_does hw hf hE hty hholds hclear hcall hend hhere
  have hlines : front ++ .mark (blockLabel b) :: (earlier ++ (code is ++ after)) =
      (front ++ .mark (blockLabel b) :: earlier) ++ (is.map .instr ++ after) := by
    rw [List.append_assoc]
    rfl
  have hall : front ++ .mark (blockLabel b) :: (earlier ++ code is) =
      (front ++ .mark (blockLabel b) :: earlier) ++ is.map .instr := by
    rw [List.append_assoc]
    rfl
  obtain ⟨c', hperf, hran⟩ := hlead
  rw [hlines] at ha
  obtain ⟨henc, hlen, hbytes⟩ := straight_line ha fun i hi => ⟨E, perform_of_mem hperf hi⟩
  rw [hall, hlen, ← hpos] at hstop
  obtain rfl : n = (is.flatMap Instr.words).length := by omega
  rw [← hpos] at hbytes
  refine ⟨st', c', es, hexec, ?_, hran⟩
  rw [wordsFrom_eq hbytes]
  exact run_of_performAll henc hperf

end

/-- **The code of a step does what its instruction says, at every offset of the frame.**  For a
function that is handed out, whose frame fits and which compiles, and a step of it that neither calls
nor branches: the words of the step are in the code, and from any state in which the operands are in
their homes, and in which a pointer that is accessed keeps clear of the homes, they lead to a state in
which the result is in its home.  Nothing else has changed but the registers for operands and
addresses and the memory the instruction writes; the accesses to memory are reads of the homes of
operands, the access of the instruction, at the address and with the width it says, and a write of the
home of the result. -/
theorem words_of_step (name : String) (sig : Signature) (as : List Action) (f : Func) (opts : Options)
    (prog : Program) (hf : ((Draft.new name sig).perform as).finish.2 = .ok f) (hfit : f.Fits)
    (hc : compile .a64 f opts = .ok prog) {b k : Nat} {blk : Block} {s : Step}
    (hb : f.blocks[b]? = some blk) (hs : blk.steps[k]? = some s)
    (hcall : ∀ fn args, s.inst ≠ .call fn args) (hend : s.inst.isTerminator = false) :
    ∃ pos n, StepAt f opts b k pos n ∧
      ∀ (w : World) (E : Env) (c : Cpu) (st : State), Env.Agrees E w.float →
        Holds f c st s.inst.reads → s.inst.KeepsClear f c.sp st →
        ∃ st' c' es, execStep w ⟨f, f.frame 0, c.sp⟩ st s = .ok (.on st') ∧
          TreeJit.A64.run E (wordsFrom prog.code pos n) c = some (c', es) ∧ Ran f s c st st' c' es := by
  obtain ⟨-, -, hw⟩ := Draft.sound_of_finish hf
  obtain ⟨lines, hl, -⟩ := assemble_of_compile hc
  obtain ⟨pos, n, hat⟩ := exists_stepAt hl hb hs
  exact ⟨pos, n, hat, fun w E c st hE hholds hclear =>
    hat.run hb hs hc hw hfit hE hcall hend hholds hclear⟩

/-- floats that are not negative are ordered as their patterns are -/
def patternOrder (x y : Nat) : FloatOrder := if x < y then .less else if x = y then .equal else .greater

def patternEnv : Env where
  float := ⟨FloatOps.hostArith, fun cc x y => (patternOrder x.toNat y.toNat).holds cc,
    FloatOps.hostArith32, fun cc x y => (patternOrder x.toNat y.toNat).holds cc⟩
  order := fun x y => patternOrder x.toNat y.toNat
  order32 := fun x y => patternOrder x.toNat y.toNat

theorem patternEnv_agrees : Env.Agrees patternEnv patternEnv.float := by
  refine ⟨rfl, fun _ _ _ => rfl, fun _ _ _ => rfl, fun x y => ?_⟩
  show patternOrder _ _ = (patternOrder _ _).swap
  unfold patternOrder
  split_ifs <;> first | rfl | omega

/-- a word is read in front of a pointer, too far away for an offset in the access -/
def farLoad : List Action :=
  [.createBlock, .appendFunctionParams 0, .switchTo 0, .load .i64 0 (-4096), .ret [1], .sealAll]

/-- a pointer in its home, and 42 where it is read -/
def farMemory : Memory := writeVal (writeVal {} .i64 0x9000 ⟨42, 0⟩) .i64 0x8000 ⟨0xA000, 0⟩

/-- what is read comes to its home -/
theorem words_of_step_farLoad :
    let f := ((Draft.new "far" ⟨[.i64], [.i64]⟩).perform farLoad).body.fn
    ∃ prog pos n c' es, compile .a64 f ⟨false⟩ = .ok prog ∧ StepAt f ⟨false⟩ 0 0 pos n ∧
      TreeJit.A64.run patternEnv (wordsFrom prog.code pos n)
        ⟨fun _ => 0, 0x8000, fun _ => ⟨0, 0⟩, {}, farMemory⟩ = some (c', es) ∧
      readVal c'.mem .i64 0x8008 = ⟨42, 0⟩ := by
  intro f
  have hf : ((Draft.new "far" ⟨[.i64], [.i64]⟩).perform farLoad).finish.2 = .ok f :=
    Draft.finish_of_isOk (by decide +kernel)
  have hfit : f.layout.size < 2 ^ 31 := by decide +kernel
  obtain ⟨prog, hc⟩ := exists_of_isOk (x := compile .a64 f ⟨false⟩) (by decide +kernel)
  have hb : f.blocks[0]? = some ⟨#[0], #[⟨.load .i64 0 (-4096), [1]⟩, ⟨.ret [1], []⟩], true, 0⟩ := by
    decide +kernel
  have hvalues : f.values = #[.i64, .i64] := by decide +kernel
  have hhome : f.partAt 0x8000 (.home 0) = 0x8000 ∧ f.partAt 0x8000 (.home 1) = 0x8008 := by
    decide +kernel
  have hbits : readVal farMemory .i64 0x8000 = ⟨0xA000, 0⟩ := readVal_writeVal _ _ _ _ rfl
  have hfar : readVal farMemory .i64 0x9000 = ⟨42, 0⟩ :=
    (readVal_apart _ _ ⟨by decide, by decide⟩).trans (readVal_writeVal _ _ _ _ rfl)
  have hholds : Holds f ⟨fun _ => 0, 0x8000, fun _ => ⟨0, 0⟩, {}, farMemory⟩
      ⟨#[⟨0xA000, 0⟩, ⟨0, 0⟩], farMemory⟩ [0] := by
    refine ⟨by rw [hvalues]; rfl, fun v hv t ht => ?_, fun _ _ => rfl⟩
    obtain rfl := List.mem_singleton.mp hv
    rw [hvalues] at ht
    cases ht
    refine ⟨?_, rfl⟩
    rw [hhome.1]
    exact hbits
  have hclear : f.ClearOfHomes 0x8000 0x9000 8 := by
    intro v hv
    rw [hvalues] at hv
    rcases (show v = 0 ∨ v = 1 by simp at hv; omega) with rfl | rfl
    · rw [hhome.1]
      exact ⟨by decide +kernel, by decide +kernel⟩
    · rw [hhome.2]
      exact ⟨by decide +kernel, by decide +kernel⟩
  obtain ⟨pos, n, hat, hrun⟩ := words_of_step "far" ⟨[.i64], [.i64]⟩ farLoad f ⟨false⟩ prog hf hfit hc hb
    (k := 0) (s := ⟨.load .i64 0 (-4096), [1]⟩) rfl nofun rfl
  obtain ⟨st', c', es, hexec, hwords, hran⟩ := hrun
    ⟨patternEnv.float, fun name _ _ _ => .error (.unknown name)⟩ patternEnv _ _ patternEnv_agrees hholds
    hclear
  cases hexec
  have hres := (hran.results 1 List.mem_cons_self .i64 (by rw [hvalues]; rfl)).1
  rw [hhome.2] at hres
  exact ⟨prog, pos, n, c', es, hc, hat, hwords, hres.trans hfar⟩

end TreeJit.Compile.A64
