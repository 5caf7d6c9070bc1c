import TreeJit.Proofs.Code.Relocation
import TreeJit.Proofs.Compile.FrameWord
import TreeJit.Proofs.Compile.LoopAlignment
import TreeJit.Proofs.SSA.Calls

/-!
# Linked functions

The code of a function refers to the names it calls, call by call, and linking writes an address for
each of them.  Here the two are put together: the reference that belongs to a call is found by
counting the calls in front of it, and the linked code loads there the address of the called name.

* `refs_of_compile`    the names the code refers to;
* `serves_of_compile`  linked code loads the address of every one of them;
* `linked_call`        the address at the reference of a call.
-/

namespace TreeJit

theorem SSA.Func.Calls.name {f : SSA.Func} {s : SSA.Step} {e : SSA.Import} (h : f.Calls s e) :
    f.calledName? s = some e.name := by
  obtain ⟨ref, args, hi, he⟩ := h.target
  unfold SSA.Func.calledName?
  rw [hi]
  simp only [he, Option.map_some]

namespace Compile

open SSA

variable {m : Machine} {f : Func} {opts : Options} {prog : Program}

/-- a frame whose word is too large for AArch64 would have been refused -/
theorem A64.word_of_compile (h : compile .a64 f opts = .ok prog) :
    (f.frame 0).size.toUInt32.toNat ≤ 0xFFFFFF := by
  refine Nat.le_of_not_lt fun hlt => ?_
  obtain ⟨e, he⟩ := A64.compile_refuses_word hlt opts
  rw [h] at he
  cases he

/-- **The code of a function refers to what it calls**, in the order of the calls. -/
theorem refs_of_compile (hw : f.WellFormed) (hn : f.ImportsNamed) (h : compile m f opts = .ok prog) :
    prog.refs.map SymbolRef.name = f.steps.filterMap f.calledName? := by
  cases m with
  | x64 =>
    obtain ⟨lines, hl, ha⟩ := X64.assemble_of_compile h
    rcases X64.lower_cases hw hn opts with ⟨lines', hl', -, hd⟩ | ⟨e, hl', -⟩
    · obtain rfl := Except.ok.inj (hl.symm.trans hl')
      exact hd.refs (fun pos i c hc => TreeJit.X64.Instr.encode_shaped (mapError_eq_ok.mp hc))
        (fun pos i c hc => TreeJit.X64.Instr.encode_symbol (mapError_eq_ok.mp hc)) ha
    · rw [hl] at hl'
      cases hl'
  | a64 =>
    obtain ⟨lines, hl, ha⟩ := A64.assemble_of_compile h
    have hword := A64.word_of_compile h
    have hmod := hw.size_toNat
    have hint := hw.toInt_size_of_mod (by omega)
    rcases A64.lower_cases_of_word hw hn (by omega) (by omega) opts with
      ⟨lines', hl', -, hd⟩ | ⟨⟨e, hl'⟩, -⟩
    · obtain rfl := Except.ok.inj (hl.symm.trans hl')
      exact hd.refs (fun pos i c hc => TreeJit.A64.Instr.encode_shaped (mapError_eq_ok.mp hc))
        (fun pos i c hc => TreeJit.A64.Instr.encode_symbol (mapError_eq_ok.mp hc)) ha
    · rw [hl] at hl'
      cases hl'

theorem refsIn_of_compile (h : compile m f opts = .ok prog) (hsize : prog.code.length < 2 ^ 63) :
    RefsIn prog.code.length prog.refs ∧ ∀ r ∈ prog.refs, r.StandsIn prog.code := by
  obtain ⟨lines, -, ha⟩ := lowered_of_compile h
  exact refs_of_assembled (fun _ _ _ hc => AnyInstr.encode_shaped hc)
    (fun _ _ _ _ _ _ hc hsym => AnyInstr.encode_refers hc hsym) ha hsize

/-- **Linked code loads the address of every name it refers to.** -/
theorem serves_of_compile (h : compile m f opts = .ok prog) {resolve : String → Option UInt64}
    {code : List UInt8} (hl : prog.link resolve = .ok code) (hsize : code.length < 2 ^ 63) :
    ∀ r ∈ prog.refs, r.Serves resolve prog.code code := by
  rw [length_link hl] at hsize
  obtain ⟨hin, hstand⟩ := refsIn_of_compile h hsize
  exact serves_of_link hin hstand hsize hl

/-- **The linked code leads every call to the address of its name.** -/
theorem linked_call (hw : f.WellFormed) (hn : f.ImportsNamed) (hc : compile m f opts = .ok prog)
    {resolve : String → Option UInt64} {code : List UInt8} (hl : prog.link resolve = .ok code)
    (hsize : code.length < 2 ^ 63) {before after : List Step} {s : Step}
    (hs : f.steps = before ++ s :: after) {e : Import} (he : f.Calls s e) :
    ∃ r, prog.refs[(before.filterMap f.calledName?).length]? = some r ∧ r.name = e.name ∧
      r.Serves resolve prog.code code := by
  have hnames := refs_of_compile hw hn hc
  rw [hs, List.filterMap_append, List.filterMap_cons, he.name] at hnames
  have hget := congrArg (fun l => l[(before.filterMap f.calledName?).length]?) hnames
  simp only [List.getElem?_map, List.getElem?_append_right (Nat.le_refl _), Nat.sub_self,
    List.getElem?_cons_zero] at hget
  obtain ⟨r, hr, hname⟩ := Option.map_eq_some_iff.mp hget
  exact ⟨r, hr, hname, serves_of_compile hc hl hsize r (List.mem_of_getElem? hr)⟩

end Compile

end TreeJit
