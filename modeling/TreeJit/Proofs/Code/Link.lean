import TreeJit.Compile.Backend
import TreeJit.Proofs.Code.Labels
import TreeJit.Proofs.Code.Layout

/-!
# Linking, reference by reference

Linking writes one address after the other and keeps the length of the code.  The references of
assembled code stand in order and apart from each other (`refs_of_assembleLines`), so no address is
written over.
-/

namespace TreeJit

def SymbolRef.start (r : SymbolRef) : Nat := r.pos.toNatClampNeg

/-! ## writing -/

theorem window_overwrite {code bs : List UInt8} {pos n : Nat} (hp : pos ≤ code.length)
    (hn : bs.length = n) : ((overwrite code pos bs).drop pos).take n = bs := by
  have hlen : (code.take pos).length = pos := by
    rw [List.length_take]
    omega
  unfold overwrite
  rw [List.append_assoc, ← hn]
  calc (((code.take pos) ++ (bs ++ code.drop (pos + bs.length))).drop pos).take bs.length
      = (bs ++ code.drop (pos + bs.length)).take bs.length := by rw [List.drop_left' hlen]
    _ = bs := List.take_left

theorem length_patch (r : SymbolRef) (code : List UInt8) (addr : UInt64) :
    (r.patch code addr).length = r.kind.window := by
  unfold SymbolRef.patch
  cases r.kind with
  | abs64 => exact length_littleEndian 8 _
  | movWide64 => simp [moveWideBytes, wordBytes, RelocKind.window]
  | unknown n => rfl

theorem write_ok {r : SymbolRef} {code code' : List UInt8} {addr : UInt64}
    (h : r.write code addr = .ok code') :
    r.start + r.kind.window ≤ code.length ∧ code' = overwrite code r.start (r.patch code addr) := by
  unfold SymbolRef.write at h
  split at h
  · cases h
  · simp only at h
    split at h
    · cases h
    · split at h
      · cases h
      · rename_i hlen
        cases h
        exact ⟨Nat.le_of_not_lt hlen, rfl⟩

theorem link_cons {code code' : List UInt8} {r : SymbolRef} {rs : List SymbolRef}
    {resolve : String → Option UInt64} (h : Program.link ⟨code, r :: rs⟩ resolve = .ok code') :
    ∃ addr code1, resolve r.name = some addr ∧ r.write code addr = .ok code1 ∧
      Program.link ⟨code1, rs⟩ resolve = .ok code' := by
  unfold Program.link at h
  rw [List.foldlM_cons] at h
  cases ha : resolve r.name with
  | none =>
    rw [ha] at h
    cases h
  | some addr =>
    rw [ha] at h
    cases hw : r.write code addr with
    | error f =>
      simp only [hw] at h
      cases h
    | ok code1 =>
      simp only [hw] at h
      exact ⟨addr, code1, rfl, hw, h⟩

theorem length_link {code code' : List UInt8} {rs : List SymbolRef}
    {resolve : String → Option UInt64} (h : Program.link ⟨code, rs⟩ resolve = .ok code') :
    code'.length = code.length := by
  induction rs generalizing code with
  | nil =>
    cases h
    rfl
  | cons r rs ih =>
    obtain ⟨addr, code1, -, hw, h⟩ := link_cons h
    obtain ⟨hlen, rfl⟩ := write_ok hw
    refine (ih h).trans (length_overwrite _ _ _ ?_)
    rwa [length_patch]

/-! ## the references of assembled code -/

section
variable {ι ε : Type} {encode : Nat → ι → Except ε Chunk}

theorem chunks_apart (encode : Nat → ι → Except ε Chunk) (pos : Nat) (lines : List (Line ι)) :
    (∀ x ∈ chunksFrom encode pos lines, pos ≤ x.1 ∧
      x.1 + x.2.bytes.length ≤ stopOf encode pos lines) ∧
    (chunksFrom encode pos lines).Pairwise fun x y => x.1 + x.2.bytes.length ≤ y.1 := by
  induction lines generalizing pos with
  | nil => exact ⟨nofun, .nil⟩
  | cons x xs ih =>
    cases x with
    | mark l => exact ih pos
    | instr i =>
      cases hi : encode pos i with
      | error e =>
        have hz : (Line.instr i).sizeAt encode pos = 0 := sizeAt_error hi
        rw [stopOf_cons, hz]
        simp only [chunksFrom, hi]
        exact ih pos
      | ok c =>
        have hz : (Line.instr i).sizeAt encode pos = c.bytes.length := sizeAt_ok hi
        obtain ⟨h1, h2⟩ := ih (pos + c.bytes.length)
        rw [stopOf_cons, hz]
        simp only [chunksFrom, hi]
        refine ⟨fun y hy => ?_, List.pairwise_cons.mpr ⟨fun y hy => (h1 y hy).1, h2⟩⟩
        rcases List.mem_cons.mp hy with rfl | hy
        · exact ⟨Nat.le_refl _, le_stopOf _ xs⟩
        · have := h1 y hy
          omega

/-- the references of assembled code, each in the place its chunk has for it, in code that an offset
can measure: they lie inside the code, in order and apart from each other -/
theorem refs_of_assembleLines {onLabel : LabelFault → ε} {lines : List (Line ι)} {prog : Program}
    (hs : ∀ pos i c, encode pos i = .ok c → c.Shaped)
    (hw : ∀ pos i c off name kind, encode pos i = .ok c → c.symbol = some (off, name, kind) →
      off + kind.window ≤ c.bytes.length)
    (h : assembleLines encode onLabel lines = .ok prog) (hsize : prog.code.length < 2 ^ 63) :
    (∀ r ∈ prog.refs, 0 ≤ r.pos ∧ r.start + r.kind.window ≤ prog.code.length ∧
      ∃ p i c off, StandsAt encode 0 lines p (.instr i) ∧ encode p i = .ok c ∧
        c.symbol = some (off, r.name, r.kind) ∧ r.start = p + off) ∧
    prog.refs.Pairwise fun r s => r.start + r.kind.window ≤ s.start := by
  obtain ⟨-, -, hlen, -, href⟩ := assembleLines_ok hs h
  obtain ⟨hin, hap⟩ := chunks_apart encode 0 lines
  -- the reference of a chunk, at its place
  have hone : ∀ x ∈ chunksFrom encode 0 lines, ∀ r ∈ x.2.ref x.1, 0 ≤ r.pos ∧
      (∃ off, x.2.symbol = some (off, r.name, r.kind) ∧ r.start = x.1 + off) ∧
      x.1 ≤ r.start ∧ r.start + r.kind.window ≤ x.1 + x.2.bytes.length := by
    intro x hx r hr
    obtain ⟨⟨off, name, kind⟩, hsym, rfl⟩ := Option.map_eq_some_iff.mp hr
    obtain ⟨i, -, hc⟩ := mem_chunksFrom.mp hx
    have hoff := hw _ _ _ _ _ _ hc hsym
    have hle := (hin x hx).2
    have hpos : (Int64.ofNat (x.1 + off)).toNatClampNeg = x.1 + off := by
      rw [Int64.toNatClampNeg_ofNat_of_lt]
      omega
    refine ⟨?_, ⟨off, hsym, hpos⟩, ?_, ?_⟩
    · rw [Int64.le_iff_toInt_le, Int64.toInt_ofNat_of_lt (by omega)]
      exact Int.natCast_nonneg _
    · show x.1 ≤ (Int64.ofNat (x.1 + off)).toNatClampNeg
      omega
    · show (Int64.ofNat (x.1 + off)).toNatClampNeg + kind.window ≤ _
      omega
  rw [href]
  refine ⟨fun r hr => ?_, ?_⟩
  · obtain ⟨x, hx, hxr⟩ := List.mem_filterMap.mp hr
    obtain ⟨h0, ⟨off, hsym, hstart⟩, -, hstop⟩ := hone x hx r hxr
    obtain ⟨i, hst, hc⟩ := mem_chunksFrom.mp hx
    have hle := (hin x hx).2
    exact ⟨h0, by omega, x.1, i, x.2, off, hst, hc, hsym, hstart⟩
  · rw [List.pairwise_filterMap]
    refine hap.imp_of_mem fun hx hy hxy r hr s hs => ?_
    have h1 := hone _ hx r hr
    have h2 := hone _ hy s hs
    omega

end

theorem X64.Instr.encode_window {pos : Nat} {i : X64.Instr} {c : Chunk} {off : Nat} {name : String}
    {kind : RelocKind} (h : i.encode pos = .ok c) (hsym : c.symbol = some (off, name, kind)) :
    kind = .abs64 ∧ off + 8 ≤ c.bytes.length := by
  cases i with
  | jump | jumpIf =>
    cases h
    cases hsym
  | movSymbol dst l =>
    simp only [Instr.encode, bind, Except.bind, pure, Except.pure] at h
    repeat' split at h
    all_goals cases h
    cases hsym
    refine ⟨rfl, ?_⟩
    simp [rexBytes]
  | _ =>
    simp only [Instr.encode, bind, Except.bind, pure, Except.pure] at h
    repeat' split at h
    all_goals
      cases h
      try cases hsym

end TreeJit
