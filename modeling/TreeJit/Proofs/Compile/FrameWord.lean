import TreeJit.Proofs.Compile.A64Legal
import TreeJit.Proofs.Compile.X64Legal

/-!
# The word of the frame size

What the code generators see of the size of a frame is a 32-bit word: the exact size modulo
`2 ^ 32` (`Func.WellFormed.size_toNat`).  For x86-64 no word is refused, and for AArch64 exactly the
words above `0xFFFFFF` are: those that are positive as the frame they are, the others because the
prologue has no room for them (`A64.compile_refuses_word`).  So a frame is judged by the remainder of
its size (`compile_judges_word`), and one of more than `2 ^ 32` bytes can pass for a small one.
-/

namespace TreeJit.SSA

theorem Func.WellFormed.size_toNat {f : Func} (hw : f.WellFormed) :
    (f.frame 0).size.toUInt32.toNat = f.layout.size % 2 ^ 32 := by
  rw [hw.size_eq]
  exact BitVec.toNat_ofNat _ _

theorem Func.WellFormed.toInt_size_of_mod {f : Func} (hw : f.WellFormed)
    (h : f.layout.size % 2 ^ 32 < 2 ^ 31) :
    (f.frame 0).size.toInt = (f.layout.size % 2 ^ 32 : Nat) := by
  have ht := hw.size_toNat
  have hc := BitVec.toInt_eq_toNat_cond (f.frame 0).size.toBitVec
  have e : (f.frame 0).size.toBitVec.toNat = (f.frame 0).size.toUInt32.toNat := rfl
  rw [e, ht, if_pos (by omega)] at hc
  exact hc

end TreeJit.SSA

namespace TreeJit.Compile

open SSA
open TreeJit.X64 (codeSize)

namespace A64

open TreeJit.A64

/-- an instruction that is refused wherever it stands is in no code -/
theorem assemble_error_of_mem {lines : List (Line Instr)} {i : Instr} (hm : .instr i ∈ lines)
    (hi : ∀ pos, ∃ e, i.encode pos = .error e) : ∃ e, TreeJit.A64.assemble lines = .error e := by
  cases h : TreeJit.A64.assemble lines with
  | error e => exact ⟨e, rfl⟩
  | ok p =>
    obtain ⟨ha, -⟩ := assembleLines_ok
      (fun pos i c hc => Instr.encode_shaped (mapError_eq_ok.mp hc)) h
    obtain ⟨pos, hst⟩ := standsAt_of_mem hm 0
    obtain ⟨c, hc⟩ := ha pos i hst
    obtain ⟨e, he⟩ := hi pos
    rw [mapError_eq_ok.mp hc] at he
    cases he

theorem subImm_refused {imm : UInt32} (h : 0xFFF < imm) (shift : Bool) (pos : Nat) :
    (Instr.subImm (.x sp) (.x sp) imm shift).encode pos = .error (.immediate imm) := by
  have hw : sameWidth [Reg.x sp, .x sp] = .ok () := rfl
  simp only [Instr.encode, Instr.precheck, Instr.word, addSubImm, hw, if_pos h, bind, Except.bind]

theorem lower_prologue {f : Func} {opts : Options} {lines : List (Line Instr)}
    (h : lower f opts = .ok lines) :
    ¬ maxFrame < (f.frame 0).size ∧ ∃ rest, lines = code (prologue (f.frame 0)) ++ rest := by
  obtain ⟨params, -, h⟩ := bind_eq_ok.mp h
  obtain ⟨returns, -, h⟩ := bind_eq_ok.mp h
  simp only at h
  split at h
  · cases h
  · rename_i hmax
    obtain ⟨-, -, h⟩ := bind_eq_ok.mp h
    obtain ⟨blocks, -, h⟩ := bind_eq_ok.mp h
    cases h
    refine ⟨hmax, ?_⟩
    rw [code, List.map_append, List.append_assoc]
    exact ⟨_, rfl⟩

/-- **A word above `0xFFFFFF` is refused**, as a frame or in the prologue -/
theorem compile_refuses_word {f : Func} (h : 0xFFFFFF < (f.frame 0).size.toUInt32.toNat)
    (opts : Options) : ∃ e, compile .a64 f opts = .error e := by
  cases hl : lower f opts with
  | error e => exact ⟨.function .a64 f.name e, by simp only [compile, hl]⟩
  | ok lines =>
    obtain ⟨hmax, rest, rfl⟩ := lower_prologue hl
    have hhi : (0xFFF : UInt32) < (f.frame 0).size.toUInt32 >>> 12 := by
      rw [UInt32.lt_iff_toNat_lt, UInt32.toNat_shiftRight]
      show 0xFFF < (f.frame 0).size.toUInt32.toNat >>> 12
      rw [Nat.shiftRight_eq_div_pow]
      omega
    have hne : (f.frame 0).size.toUInt32 >>> 12 ≠ 0 := by
      rintro e
      rw [e] at hhi
      exact absurd hhi (by decide)
    have hm : Line.instr (.subImm (.x sp) (.x sp) ((f.frame 0).size.toUInt32 >>> 12) true) ∈
        code (prologue (f.frame 0)) ++ rest := by
      refine List.mem_append_left _ (List.mem_map_of_mem ?_)
      simp only [prologue, if_pos hne]
      simp
    obtain ⟨e, he⟩ := assemble_error_of_mem hm fun pos => ⟨_, subImm_refused hhi true pos⟩
    exact ⟨.assembly e, by simp only [compile, hl, he, Except.mapError]⟩

end A64

/-- **A frame is judged by its size modulo `2 ^ 32`.**  For a function that is handed out: x86-64
refuses no frame at all, and AArch64 exactly the frames whose size leaves a remainder above
`0xFFFFFF`.  Any other frame is no reason to refuse the function, whatever its size. -/
theorem compile_judges_word (name : String) (sig : Signature) (as : List Action) (f : Func)
    (opts : Options) (hf : ((Draft.new name sig).perform as).finish.2 = .ok f) :
    (f.frame 0).size.toUInt32.toNat = f.layout.size % 2 ^ 32 ∧
    ((∀ lines, X64.lower f opts = .ok lines → codeSize lines < 2 ^ 31) →
      f.Passable X64.paramLimits X64.resultLimits → ∃ p, compile .x64 f opts = .ok p) ∧
    (0xFFFFFF < f.layout.size % 2 ^ 32 → ∃ e, compile .a64 f opts = .error e) ∧
    (f.layout.size % 2 ^ 32 ≤ 0xFFFFFF → f.Passable A64.paramLimits A64.resultLimits →
      (∃ p, compile .a64 f opts = .ok p) ∨
      (∃ lines b, A64.lower f opts = .ok lines ∧ A64.FarBranch lines b ∧
        compile .a64 f opts = .error (.assembly (.label (.far b.field b.label)))) ∨
      ∃ disp, f.NarrowHome disp ∧ compile .a64 f opts = .error (.assembly (.a64 (.offset disp 4)))) := by
  obtain ⟨-, -, hw⟩ := Draft.sound_of_finish hf
  have hn := Draft.importsNamed_of_finish hf
  have hword := hw.size_toNat
  refine ⟨hword, ?_, ?_, ?_⟩
  · intro hsize hfit
    rcases X64.lower_cases hw hn opts with ⟨lines, hl, -, hd⟩ | ⟨e, -, -, hno⟩
    · obtain ⟨p, hp, -⟩ := X64.assemble_of_lowered hd hw.nodup_labels (hsize lines hl)
      exact ⟨p, by simp only [compile, hl, hp, Except.mapError]⟩
    · exact absurd hfit hno
  · intro h
    exact A64.compile_refuses_word (by omega) opts
  · intro h hfit
    have hint := hw.toInt_size_of_mod (by omega)
    obtain ⟨lines, hl, hd⟩ := A64.lower_ok_of_word hw hn (by omega) (by omega) hfit opts
    have hc : compile .a64 f opts = (TreeJit.A64.assemble lines).mapError .assembly := by
      simp only [compile, hl]
    rw [hc]
    rcases A64.assemble_of_lowered hd hw.nodup_labels with ⟨p, hp, -⟩ | ⟨b, hb, hp⟩ | ⟨disp, hh, hp⟩
    · exact .inl ⟨p, by rw [hp]; rfl⟩
    · exact .inr (.inl ⟨lines, b, hl, hb, by rw [hp]; rfl⟩)
    · exact .inr (.inr ⟨disp, hh, by rw [hp]; rfl⟩)

def wideSlot : List Action :=
  [.createBlock, .switchTo 0, .createSlot 4294967296 8, .iconst .i64 7, .stackStore 0 0 1024,
    .stackLoad .i64 0 1024, .ret [1], .sealAll]

/-- its frame passes for one of 16 bytes, for both machines -/
theorem compile_judges_word_wideSlot :
    let f := ((Draft.new "f" ⟨[], [.i64]⟩).perform wideSlot).body.fn
    f.layout.size = 4294967312 ∧ (f.frame 0).size = 16 ∧
      (∃ p, compile .x64 f ⟨false⟩ = .ok p) ∧ ∃ p, compile .a64 f ⟨false⟩ = .ok p := by
  intro f
  have hl : f.layout.size = 4294967312 := by decide +kernel
  have hok : (compile .a64 f ⟨false⟩).isOk = true := by decide +kernel
  have hsize := X64.size_of_isShort (show X64.isShort f ⟨false⟩ = true by decide +kernel)
  obtain ⟨-, hx, -, ha⟩ := compile_judges_word "f" ⟨[], [.i64]⟩ wideSlot f ⟨false⟩
    (Draft.finish_of_isOk (by decide +kernel))
  refine ⟨hl, by decide +kernel, hx hsize (by decide +kernel), ?_⟩
  rcases ha (by omega) (by decide +kernel) with hp | ⟨lines, b, -, -, he⟩ | ⟨disp, -, he⟩
  · exact hp
  · rw [he] at hok
    cases hok
  · rw [he] at hok
    cases hok

end TreeJit.Compile
