import TreeJit.Proofs.Compile.A64Legal
import TreeJit.Proofs.Compile.A64Moves
import TreeJit.Proofs.Compile.Transfer

/-!
# The code of a branch passes its arguments at once

On both machines the code that passes the arguments of a branch is one copy inside the frame after
the other (`X64.transfer_eq_copies`, `A64.transfer_eq_copies`), in the order of `Func.copies`.  A copy
moves the bytes of a home and keeps the stack pointer, so the code leaves in memory what those moves
leave: every parameter has what its argument had before the branch, also if the branch hands the
parameters of its own block to each other (`transfer_passes`).
-/

namespace TreeJit.Compile

open SSA

namespace A64

open TreeJit.A64

def copyCode (k : Copy) : List Instr := copy k.ty k.dst k.src

theorem copies_lead (E : Env) (c : Cpu) (ks : List Copy) :
    ∃ es, Leads E c (ks.flatMap copyCode) es fun c' => c'.sp = c.sp ∧
      c'.mem = c.mem.moveAll (ks.map (Copy.move c.sp)) := by
  induction ks generalizing c with
  | nil => exact ⟨_, .nil ⟨rfl, rfl⟩⟩
  | cons k ks ih =>
    obtain ⟨c1, hp, hk, hmem⟩ := copy_leads E c k.ty k.dst k.src
    obtain ⟨es, c2, hp2, hsp2, hmem2⟩ := ih c1
    rw [hk.sp, hmem] at hmem2
    rw [List.flatMap_cons]
    exact ⟨_, c2, performAll_append hp hp2, hsp2.trans hk.sp, hmem2⟩

theorem transfer_eq_copies (f : Func) (L : List RegLoc) (t : Target) :
    Ctx.transfer ⟨f, f.frame 0, L⟩ t = (f.copies t).flatMap copyCode := by
  rw [Func.copies, List.flatMap_append, ← flatten_mapIdx_copies, ← flatten_mapIdx_copies]
  rfl

theorem copies_taken (ks : List Copy) : ∀ i ∈ ks.flatMap copyCode, ∀ pos, ∃ ck, i.encode pos = .ok ck := by
  intro i hi pos
  obtain ⟨k, -, hi⟩ := List.mem_flatMap.mp hi
  -- a function without values has no narrow home
  let g : Func := ⟨"", .empty, #[], #[], #[], #[]⟩
  rcases (plain_copy (f := g) k.ty k.dst k.src i hi).1 pos with h | ⟨disp, ⟨v, hv, -⟩, -⟩
  · exact h
  · cases hv

theorem copies_encode (ks : List Copy) : ∀ i ∈ ks.flatMap copyCode, ∀ pos,
    i.encode pos = .ok { bytes := i.words.flatMap wordBytes } := by
  intro i hi pos
  let E : Env := ⟨.host, fun _ _ => .unordered, fun _ _ => .unordered⟩
  obtain ⟨es, c', hp, -⟩ := copies_lead E ⟨fun _ => 0, 0, fun _ => ⟨0, 0⟩, {}, {}⟩ ks
  obtain ⟨c1, r1, h1⟩ := perform_of_mem hp hi
  obtain ⟨ck, hck⟩ := copies_taken ks i hi pos
  rw [hck, (Instr.run_words hck h1).1]

end A64

/-- **Block arguments are passed as one simultaneous assignment.**  For a branch of a function that
is handed out, whose frame fits: in any state, the code that either machine runs for the arguments
leaves in the home of every parameter what the home of its argument had before, and changes no other
home and no slot.  For AArch64 the code is taken as the words that it is encoded to. -/
theorem transfer_passes (name : String) (sig : Signature) (as : List Action) (f : Func)
    (hf : ((Draft.new name sig).perform as).finish.2 = .ok f) (hfit : f.Fits) {b : Nat} {blk : Block}
    {s : Step} {t : Target} (hb : f.blocks[b]? = some blk) (hs : s ∈ blk.steps.toList)
    (ht : t ∈ s.inst.targets) (returns : List RegLoc) :
    (∀ (E : TreeJit.X64.Env) c, ∃ c',
      TreeJit.X64.performAll E (X64.Ctx.transfer ⟨f, f.frame 0, returns⟩ t) c = some (c', []) ∧
      c'.gpr X64.rsp = c.gpr X64.rsp ∧ f.Passed (c.gpr X64.rsp) t c.mem c'.mem) ∧
    (∀ i ∈ A64.Ctx.transfer ⟨f, f.frame 0, returns⟩ t, ∀ pos,
      i.encode pos = .ok { bytes := i.words.flatMap wordBytes }) ∧
    ∀ (E : TreeJit.A64.Env) c, ∃ c' es, TreeJit.A64.run E
        ((A64.Ctx.transfer ⟨f, f.frame 0, returns⟩ t).flatMap TreeJit.A64.Instr.words) c = some (c', es) ∧
      c'.sp = c.sp ∧ f.Passed c.sp t c.mem c'.mem := by
  obtain ⟨-, -, hw⟩ := Draft.sound_of_finish hf
  obtain ⟨rs, hi, -⟩ := hw.typed b blk hb s hs
  have hsup := hi.supplies t ht
  have hargs := Func.args_le hb hs ht
  rw [X64.transfer_eq_copies, A64.transfer_eq_copies]
  refine ⟨fun E c => ?_, A64.copies_encode _, fun E c => ?_⟩
  · obtain ⟨c', hp, hr, hmem⟩ := X64.copies_lead E c (f.copies t)
    refine ⟨c', hp, hr X64.rsp (by decide), ?_⟩
    rw [hmem]
    exact hw.passed hfit hsup hargs c.mem
  · obtain ⟨es, hl⟩ := A64.copies_lead E c (f.copies t)
    obtain ⟨c', hp, hsp, hmem⟩ := hl.run fun i hi => ⟨0, A64.copies_taken _ i hi 0⟩
    refine ⟨c', es, hp, hsp, ?_⟩
    rw [hmem]
    exact hw.passed hfit hsup hargs c.mem

/-- a block that hands its two parameters to itself, in the other order -/
def swapping : List Action :=
  [.createBlock, .appendFunctionParams 0, .createBlock, .appendParam 1 .f64x2, .appendParam 1 .f64x2,
    .switchTo 0, .splat .f64x2 0, .splat .f64x2 1, .jump 1 [4, 5], .switchTo 1, .jump 1 [3, 2], .sealAll]

/-- two vectors in homes of a frame -/
def twoVectors : Memory :=
  writeVal (writeVal {} .f64x2 0x8010 ⟨1, 2⟩) .f64x2 0x8020 ⟨3, 4⟩

/-- the two parameters have changed places, on both machines -/
theorem transfer_passes_swapping :
    let f := ((Draft.new "swap" ⟨[.f64, .f64], []⟩).perform swapping).body.fn
    let E : TreeJit.A64.Env := ⟨.host, fun _ _ => .unordered, fun _ _ => .unordered⟩
    let E' : TreeJit.X64.Env := ⟨.host, E.order, E.order32, fun _ _ => {}, fun _ => 0, fun _ _ => none, 0⟩
    (∃ c', TreeJit.X64.performAll E' (X64.Ctx.transfer ⟨f, f.frame 0, []⟩ ⟨1, [3, 2]⟩)
        ⟨fun _ => 0x8000, fun _ => ⟨0, 0⟩, {}, twoVectors⟩ = some (c', []) ∧
      c'.mem.bytes 16 0x8010 = twoVectors.bytes 16 0x8020 ∧
      c'.mem.bytes 16 0x8020 = twoVectors.bytes 16 0x8010) ∧
    ∃ c' es, TreeJit.A64.run E
        ((A64.Ctx.transfer ⟨f, f.frame 0, []⟩ ⟨1, [3, 2]⟩).flatMap TreeJit.A64.Instr.words)
        ⟨fun _ => 0, 0x8000, fun _ => ⟨0, 0⟩, {}, twoVectors⟩ = some (c', es) ∧
      c'.mem.bytes 16 0x8010 = twoVectors.bytes 16 0x8020 ∧
      c'.mem.bytes 16 0x8020 = twoVectors.bytes 16 0x8010 := by
  intro f E E'
  have hf : ((Draft.new "swap" ⟨[.f64, .f64], []⟩).perform swapping).finish.2 = .ok f :=
    Draft.finish_of_isOk (by decide +kernel)
  have hfit : f.layout.size < 2 ^ 31 := by decide +kernel
  have hps : f.blockParams 1 = [2, 3] := by decide +kernel
  have hhome2 : f.partAt 0x8000 (.home 2) = 0x8010 ∧ f.partSize (.home 2) = 16 := by decide +kernel
  have hhome3 : f.partAt 0x8000 (.home 3) = 0x8020 ∧ f.partSize (.home 3) = 16 := by decide +kernel
  have hb : f.blocks[1]? = some ⟨#[2, 3], #[⟨.jump ⟨1, [3, 2]⟩, []⟩], true, 2⟩ := by decide +kernel
  have hpassed : ∀ {m : Memory}, f.Passed 0x8000 ⟨1, [3, 2]⟩ twoVectors m →
      m.bytes 16 0x8010 = twoVectors.bytes 16 0x8020 ∧ m.bytes 16 0x8020 = twoVectors.bytes 16 0x8010 := by
    intro m h
    have h0 := h.params 0 2 (by rw [hps]; rfl)
    have h1 := h.params 1 3 (by rw [hps]; rfl)
    obtain ⟨v, hv, -, e0⟩ := h0
    obtain ⟨w, hw, -, e1⟩ := h1
    cases hv
    cases hw
    rw [hhome2.1, hhome2.2, hhome3.1] at e0
    rw [hhome2.1, hhome3.1, hhome3.2] at e1
    exact ⟨e0, e1⟩
  obtain ⟨hx, -, ha⟩ := transfer_passes "swap" ⟨[.f64, .f64], []⟩ swapping f hf hfit hb
    (s := ⟨.jump ⟨1, [3, 2]⟩, []⟩) (t := ⟨1, [3, 2]⟩) List.mem_cons_self List.mem_cons_self []
  constructor
  · obtain ⟨c', hp, -, h⟩ := hx E' ⟨fun _ => 0x8000, fun _ => ⟨0, 0⟩, {}, twoVectors⟩
    exact ⟨c', hp, hpassed h⟩
  · obtain ⟨c', es, hp, -, h⟩ := ha E ⟨fun _ => 0, 0x8000, fun _ => ⟨0, 0⟩, {}, twoVectors⟩
    exact ⟨c', es, hp, hpassed h⟩

end TreeJit.Compile
