import TreeJit.Host.Linux
import TreeJit.Proofs.Code.Relocation
import TreeJit.Proofs.Compile.Linked
import TreeJit.Proofs.Host.Module

/-!
# Bodies that a module can place

A body that is well formed, short enough for its branches and calls nothing but names with addresses
is placed exactly if there are registers for it (`Placeable.prepare_cases`): its code assembles, every
reference in it is linked, and it is not empty.  Without registers for the parameters the fault says
so (`prepare_of_params`).

* `Placeable m fn`       what is asked of a body besides registers;
* `define_of_prepare`    defining a declared function is preparing its body and placing it.
-/

namespace TreeJit

open SSA
open TreeJit.X64 (codeSize)

/-! ## code -/

theorem X64.length_of_assemble {lines : List (Line X64.Instr)} {prog : Program}
    (h : X64.assemble lines = .ok prog) : prog.code.length = codeSize lines := by
  obtain ⟨-, -, hlen, -, -⟩ :=
    assembleLines_ok (fun _ _ _ hc => X64.Instr.encode_shaped (mapError_eq_ok.mp hc)) h
  rw [hlen, stopOf_mapError]
  rfl

namespace Compile

variable {f : Func} {opts : Options}

theorem X64.lower_prologue {lines : List (Line TreeJit.X64.Instr)} (h : X64.lower f opts = .ok lines) :
    ∃ rest, lines = X64.code (X64.prologue (f.frame 0)) ++ rest := by
  obtain ⟨params, -, h⟩ := bind_eq_ok.mp h
  obtain ⟨returns, -, h⟩ := bind_eq_ok.mp h
  obtain ⟨blocks, -, h⟩ := bind_eq_ok.mp h
  cases h
  rw [X64.code, List.map_append, List.append_assoc]
  exact ⟨_, rfl⟩

theorem X64.codeSize_pos {lines : List (Line TreeJit.X64.Instr)} (h : X64.lower f opts = .ok lines) :
    0 < codeSize lines := by
  obtain ⟨rest, rfl⟩ := X64.lower_prologue h
  exact Nat.lt_of_lt_of_le Nat.zero_lt_one (le_stopOf 1 _)

theorem X64.lower_of_params {g : SSA.Fault} (h : passing X64.paramLimits f.sig.params = .error g) :
    X64.lower f opts = .error (.signature g) := by
  unfold X64.lower
  rw [h]
  rfl

end Compile

namespace Host

/-! ## room for code -/

section
variable [Platform]

/-- the system has places for `k` pieces of code that branches can span, one after the other -/
def HasRoom : Nat → List Region → Prop
  | 0, _ => True
  | k + 1, rs => ∀ n < 2 ^ 31, ∃ a, Platform.map rs (pageBytes n) = some a ∧
      HasRoom k (rs ++ [⟨a, pageBytes n⟩])

theorem HasRoom.first {k : Nat} {rs : List Region} (h : HasRoom (k + 1) rs) : HasRoom 1 rs :=
  fun n hn => (h n hn).imp fun _ ha => ⟨ha.1, trivial⟩

end

/-- **Linux has room as long as there are addresses.** -/
theorem hasRoom_linux {machine : Machine} {k : Nat} {rs : List Region}
    (h : pageBehind rs + k * 2 ^ 31 ≤ codeEnd) : @HasRoom (.linux machine) k rs := by
  induction k generalizing rs with
  | zero => trivial
  | succ k ih =>
    intro n hn
    have hpages : pageBytes n ≤ 2 ^ 31 := by
      unfold pageBytes pageSize
      omega
    have hfits : pageBehind rs + pageBytes n ≤ codeEnd := by omega
    refine ⟨UInt64.ofNat (pageBehind rs), if_pos hfits, ih ?_⟩
    rw [pageBehind_append (if_pos hfits)]
    omega

namespace Module
variable {m : Module} {fn : Func} {d : Declared}

/-! ## declaring -/

/-- nothing in the module has this name -/
structure Free (m : Module) (name : String) : Prop where
  named : name ≠ ""
  byName : m.byName? name = none
  imported : m.import? name = none

/-- **A free name can be declared.** -/
theorem Free.declare {name : String} (h : m.Free name) (ho : m.closed = false) {sig : Signature}
    (hs : sig.isValid = true) : m.declare name sig =
      .ok ({ m with funcs := m.funcs.push { name, sig } }, m.funcs.size) := by
  have hc : ¬ (m.closed = true) := by rw [ho]; exact nofun
  have hb : ¬ ((m.byName? name).isSome = true) := by rw [h.byName]; exact nofun
  have hi : ¬ ((m.import? name).isSome = true) := by rw [h.imported]; exact nofun
  simp only [Module.declare, if_neg hc, if_neg h.named, (Signature.check_eq_ok_iff sig).mpr hs,
    if_neg hb, if_neg hi]

/-- a declared function without code -/
structure Awaits (m : Module) (n : Nat) (d : Declared) (fn : Func) : Prop where
  opened : m.closed = false
  declared : m.funcs[n]? = some d
  empty : d.placed = none
  sig : fn.sig = d.sig

/-! ## preparing a body -/

/-- the branches of the code of a body can span it -/
def Short (m : Module) (fn : Func) : Prop :=
  ∀ lines, Compile.X64.lower fn m.settings.options = .ok lines → X64.codeSize lines < 2 ^ 31

theorem mem_imports_of_called {name : String} (h : name ∈ fn.steps.filterMap fn.calledName?) :
    ∃ e ∈ fn.imports.toList, e.name = name := by
  obtain ⟨s, -, hs⟩ := List.mem_filterMap.mp h
  unfold Func.calledName? at hs
  split at hs
  · obtain ⟨e, he, rfl⟩ := Option.map_eq_some_iff.mp hs
    exact ⟨e, Array.mem_toList_iff.mpr (Array.mem_of_getElem? he), rfl⟩
  · cases hs

variable [Platform]

/-- a well-formed body whose calls have addresses, on a host with room for its code, which branches can
span -/
structure Placeable (m : Module) (fn : Func) : Prop where
  wellFormed : fn.WellFormed
  named : fn.ImportsNamed
  served : ∀ e ∈ fn.imports.toList, m.resolve e.name ≠ none
  short : m.Short fn
  machine : Platform.machine = .x64
  room : HasRoom 1 m.regions

/-- **A body is prepared exactly if there are registers for it and for what it calls.** -/
theorem Placeable.prepare_cases (h : m.Placeable fn) (d : Declared) :
    (fn.Passable Compile.X64.paramLimits Compile.X64.resultLimits ∧
      ∃ p refs, m.prepare d fn = .ok (p, refs) ∧ p.size < 2 ^ 31) ∨
    ¬ fn.Passable Compile.X64.paramLimits Compile.X64.resultLimits := by
  rcases Compile.X64.lower_cases h.wellFormed h.named m.settings.options with
    ⟨lines, hl, hfit, hd⟩ | ⟨-, -, -, hno⟩
  swap
  · exact .inr hno
  have hshort := h.short lines hl
  obtain ⟨prog, ha, href⟩ := Compile.X64.assemble_of_lowered hd h.wellFormed.nodup_labels hshort
  have hlen := X64.length_of_assemble ha
  have hc : Compile.compile Platform.machine fn m.settings.options = .ok prog := by
    simp only [h.machine, Compile.compile, hl, ha, Except.mapError]
  -- every reference is to a called name, and this name has an address
  have hserved : ∀ r ∈ prog.refs, (m.resolve r.name).isSome := by
    intro r hr
    have hm : r.name ∈ fn.steps.filterMap fn.calledName? := href ▸ List.mem_map_of_mem hr
    obtain ⟨e, he, hn⟩ := mem_imports_of_called hm
    exact Option.isSome_iff_ne_none.mpr (hn ▸ h.served e he)
  have hsize : prog.code.length < 2 ^ 63 := by omega
  obtain ⟨code, hlink, hp⟩ := link_eq (Compile.refsIn_of_compile hc hsize).1 hsize hserved
  have hlink : prog.link m.resolve = .ok code := hlink
  have hcode : code.length = X64.codeSize lines := hp.length.trans hlen
  have hne : ¬ (code.isEmpty = true) := by
    intro he
    have hpos := Compile.X64.codeSize_pos hl
    rw [← hcode, List.isEmpty_iff.mp he] at hpos
    exact absurd hpos (Nat.lt_irrefl 0)
  have hsmall : code.length < 2 ^ 31 := by omega
  obtain ⟨address, hmap, -⟩ := h.room code.length hsmall
  refine .inl ⟨hfit, ⟨address, code.length, fn⟩, prog.refs.length, ?_, hsmall⟩
  simp only [prepare, hc, hlink, if_neg hne, hmap]

theorem prepare_of_params (hm : Platform.machine = .x64) {g : SSA.Fault}
    (h : passing Compile.X64.paramLimits fn.sig.params = .error g) : m.prepare d fn =
      .error (.compile d.name (.function .x64 fn.name (.signature g))) := by
  simp only [prepare, hm, Compile.compile, Compile.X64.lower_of_params h]

/-! ## defining -/

/-- **Defining is preparing and placing.** -/
theorem define_of_prepare {n : Nat} (h : m.Awaits n d fn) :
    ∃ es, m.define n fn = match m.prepare d fn with
      | .error f => (m, es, .error f)
      | .ok (p, _) => (m.place n d p, es, .ok ()) := by
  have hc : ¬ (m.closed = true) := by rw [h.opened]; exact nofun
  have hp : ¬ (d.placed.isSome = true) := by rw [h.empty]; exact nofun
  have hs : ¬ (fn.sig ≠ d.sig) := fun e => e h.sig
  unfold define
  rw [if_neg hc, lookup_of_get h.declared]
  simp only [if_neg hp, if_neg hs]
  cases m.prepare d fn with
  | error f => exact ⟨_, rfl⟩
  | ok r => exact ⟨_, rfl⟩

end Module
end Host

end TreeJit
