import TreeJit.Proofs.Code.Padding
import TreeJit.Proofs.Compile.A64Legal
import TreeJit.Proofs.Compile.Fixed
import TreeJit.Proofs.Compile.X64Legal

/-!
# Aligning loops only adds padding

A function may be compiled with the headers of its loops at multiples of 16.  Both machines then lower
it to the same lines with padding in front of the labels of these blocks (`lowered_padded`), and the two
programs differ in nothing else (`compile_onlyPads`).

* `Func.LoopsTo f b`      a branch of block `b` or of a later one goes back to block `b`;
* `Func.AlignsLabel f l`  `l` is the label of such a block, other than the first;
* `blocksLines_padded`    the lines of blocks with padding and without;
* `lowered`               the lines of a function, for either machine.
-/

namespace TreeJit.SSA

open TreeJit.Compile

/-- a block is the target of a branch from itself or from a later block -/
def Func.LoopsTo (f : Func) (b : Nat) : Prop :=
  ∃ src blk s t, b ≤ src ∧ f.blocks[src]? = some blk ∧ s ∈ blk.steps.toList ∧ t ∈ s.inst.targets ∧
    t.block = b

def Func.AlignsLabel (f : Func) (l : String) : Prop := ∃ b, l = blockLabel b ∧ 0 < b ∧ f.LoopsTo b

section
variable {f : Func} {b : Nat}

theorem Func.isLoopHeader_iff : f.isLoopHeader b = true ↔ f.LoopsTo b := by
  unfold Func.isLoopHeader
  rw [List.any_eq_true]
  constructor
  · rintro ⟨blk, hblk, h⟩
    obtain ⟨k, hk⟩ := List.mem_iff_getElem?.mp hblk
    rw [List.getElem?_drop, Array.getElem?_toList] at hk
    obtain ⟨s, hs, h⟩ := Array.any_eq_true'.mp h
    obtain ⟨t, ht, h⟩ := List.any_eq_true.mp h
    exact ⟨b + k, blk, s, t, Nat.le_add_right b k, hk, Array.mem_toList_iff.mpr hs, ht, beq_iff_eq.mp h⟩
  · rintro ⟨src, blk, s, t, hsrc, hblk, hs, ht, h⟩
    refine ⟨blk, List.mem_iff_getElem?.mpr ⟨src - b, ?_⟩, ?_⟩
    · rw [List.getElem?_drop, Array.getElem?_toList, Nat.add_sub_cancel' hsrc, hblk]
    · exact Array.any_eq_true'.mpr ⟨s, Array.mem_toList_iff.mp hs,
        List.any_eq_true.mpr ⟨t, ht, beq_iff_eq.mpr h⟩⟩

theorem Func.LoopsTo.lt_size (h : f.LoopsTo b) : b < f.blocks.size := by
  obtain ⟨src, blk, -, -, hsrc, hblk, -⟩ := h
  obtain ⟨hlt, -⟩ := Array.getElem?_eq_some_iff.mp hblk
  omega

theorem Func.alignsLabel_iff : f.AlignsLabel (blockLabel b) ↔ 0 < b ∧ f.LoopsTo b := by
  constructor
  · rintro ⟨b', e, h⟩
    obtain rfl := blockLabel_inj e
    exact h
  · exact fun h => ⟨b, rfl, h⟩

theorem Func.LoopsTo.label_mem (h : f.LoopsTo b) : blockLabel b ∈ f.labels := by
  have hlt : b < f.blocks.toList.length := by
    rw [Array.length_toList]
    exact h.lt_size
  have := blockLabel_mem_labelsFrom (b := 0) hlt
  rwa [Nat.zero_add] at this

end

end TreeJit.SSA

namespace TreeJit.Compile

open SSA

/-! ## padding in front of a block -/

def padFor {ι : Type} (a : ι) (opts : Options) (f : Func) (b : Nat) : List (Line ι) :=
  if 0 < b && opts.alignLoops && f.isLoopHeader b then [.instr a] else []

section
variable {ι : Type} (a : ι) (f : Func)

theorem padFor_plain : padFor a ⟨false⟩ f = fun _ => [] := by
  funext b
  rw [padFor, Bool.and_false, Bool.false_and]
  rfl

theorem padFor_cases (b : Nat) : (f.AlignsLabel (blockLabel b) ∧ padFor a ⟨true⟩ f b = [.instr a]) ∨
    (¬ f.AlignsLabel (blockLabel b) ∧ padFor a ⟨true⟩ f b = []) := by
  have htest : (decide (0 < b) && true && f.isLoopHeader b) = true ↔ f.AlignsLabel (blockLabel b) := by
    rw [Bool.and_true, Bool.and_eq_true, decide_eq_true_iff, Func.isLoopHeader_iff,
      Func.alignsLabel_iff]
  by_cases h : f.AlignsLabel (blockLabel b)
  · exact .inl ⟨h, if_pos (htest.mpr h)⟩
  · exact .inr ⟨h, if_neg (mt htest.mp h)⟩

end

/-! ## blocks with padding and without -/

section
variable {ι : Type} {P : ι → Prop} {a : ι} {step : Nat → Step → Except StepFault (List (Line ι))}
  {f : Func} {front : List ι} {xs ys : List (Line ι)}

theorem holds_steps {b : Nat} {ss : List Step} {body : List (Line ι)}
    (hstep : ∀ b s ls, step b s = .ok ls → Holds P ls (elsesOf b s))
    (h : stepsLines (step b) ss = .ok body) : Holds P body (ss.flatMap (elsesOf b)) := by
  have hall : ∀ s ∈ ss, ∀ ls, step b s = .ok ls → Describes (fun _ => none) (fun _ => none) P
      (fun _ => True) ls (elsesOf b s) (none : Option String).toList := fun s _ ls hls => hstep b s ls hls
  simpa using stepsLines_ok hall h

theorem holds_blocks (hstep : ∀ b s ls, step b s = .ok ls → Holds P ls (elsesOf b s))
    {b : Nat} {blks : List Block} (h : blocksLines step (fun _ => []) b blks = .ok xs) :
    Holds P xs (labelsFrom b blks) := by
  have hall : ∀ (k : Nat) blk, blks[k]? = some blk → ∀ s ∈ blk.steps.toList, ∀ ls,
      step (b + k) s = .ok ls → Describes (fun _ => none) (fun _ => none) P (fun _ => True) ls
        (elsesOf (b + k) s) (none : Option String).toList :=
    fun k _ _ s _ ls hls => hstep (b + k) s ls hls
  have hnone : (blks.flatMap fun blk => blk.steps.toList.filterMap fun _ => (none : Option String)) =
      [] := List.flatMap_eq_nil_iff.mpr fun _ _ => List.filterMap_eq_nil_iff.mpr fun _ _ => rfl
  have hblocks := blocksLines_ok (fun _ => .nil) hall h
  rwa [hnone] at hblocks

theorem padded_steps {b : Nat} {ss : List Step} {body : List (Line ι)}
    (hstep : ∀ b s ls, step b s = .ok ls → Holds P ls (elsesOf b s))
    (h : stepsLines (step b) ss = .ok body) : Padded a f.AlignsLabel body body := by
  refine .refl fun l hl => ?_
  rw [(holds_steps hstep h).marks] at hl
  obtain ⟨s, -, hs⟩ := List.mem_flatMap.mp hl
  obtain rfl := eq_of_mem_elsesOf hs
  rintro ⟨b', e, -⟩
  exact blockLabel_ne_elseLabel b' b e.symm

/-- **The lines of blocks** with padding are those without, with padding in front of aligned labels. -/
theorem blocksLines_padded
    (hstep : ∀ b s ls, step b s = .ok ls → Holds P ls (elsesOf b s))
    {b : Nat} {blks : List Block} (hx : blocksLines step (padFor a ⟨false⟩ f) b blks = .ok xs)
    (hy : blocksLines step (padFor a ⟨true⟩ f) b blks = .ok ys) : Padded a f.AlignsLabel xs ys := by
  induction blks generalizing b xs ys with
  | nil =>
    cases hx
    cases hy
    exact .nil
  | cons blk blks ih =>
    obtain ⟨body, hbody, hx⟩ := bind_eq_ok.mp hx
    obtain ⟨rest, hrest, hx⟩ := bind_eq_ok.mp hx
    obtain ⟨body', hbody', hy⟩ := bind_eq_ok.mp hy
    obtain ⟨rest', hrest', hy⟩ := bind_eq_ok.mp hy
    -- steps are lowered without a look at the options
    obtain rfl : body' = body := Except.ok.inj (hbody'.symm.trans hbody)
    cases hx
    cases hy
    have hmore := (padded_steps hstep (mapError_eq_ok.mp hbody)).append (ih hrest hrest')
    rw [padFor_plain]
    rcases padFor_cases a f b with ⟨hyes, e⟩ | ⟨hno, e⟩
    · rw [e]
      exact .header hyes hmore
    · rw [e]
      exact .mark hno hmore

/-- the lines of a function: some code, and the blocks behind it -/
theorem padded_lines (hfront : Holds P (front.map .instr) [])
    (hstep : ∀ b s ls, step b s = .ok ls → Holds P ls (elsesOf b s))
    (hx : blocksLines step (padFor a ⟨false⟩ f) 0 f.blocks.toList = .ok xs)
    (hy : blocksLines step (padFor a ⟨true⟩ f) 0 f.blocks.toList = .ok ys) :
    Padded a f.AlignsLabel (front.map .instr ++ xs) (front.map .instr ++ ys) ∧
      Holds P (front.map .instr ++ xs) f.labels := by
  constructor
  · refine (Padded.refl ?_).append (blocksLines_padded hstep hx hy)
    rw [hfront.marks]
    exact nofun
  · rw [padFor_plain] at hx
    exact hfront.append (holds_blocks hstep hx)

end

/-! ## functions -/

namespace X64

theorem lower_padded {f : Func} {xs ys : List (Line TreeJit.X64.Instr)}
    (hx : lower f ⟨false⟩ = .ok xs) (hy : lower f ⟨true⟩ = .ok ys) :
    Padded (.align loopBoundary) f.AlignsLabel xs ys ∧
      Holds (fun i => i.isFixed = true) xs f.labels := by
  obtain ⟨params, hparams, hx⟩ := bind_eq_ok.mp hx
  obtain ⟨returns, hreturns, hx⟩ := bind_eq_ok.mp hx
  obtain ⟨blocks, hblocks, hx⟩ := bind_eq_ok.mp hx
  obtain ⟨params', hparams', hy⟩ := bind_eq_ok.mp hy
  obtain rfl : params' = params := Except.ok.inj (hparams'.symm.trans hparams)
  obtain ⟨returns', hreturns', hy⟩ := bind_eq_ok.mp hy
  obtain rfl : returns' = returns := Except.ok.inj (hreturns'.symm.trans hreturns)
  obtain ⟨blocks', hblocks', hy⟩ := bind_eq_ok.mp hy
  cases hx
  cases hy
  rw [lowerBlocks_eq] at hblocks hblocks'
  refine padded_lines (holds_code ?_) (fun b s ls hls => lowerStep_holds _ hls) hblocks hblocks'
  rw [List.all_append, fixed_prologue, List.all_flatMap, Bool.true_and]
  exact List.all_eq_true.mpr fun _ _ => fixed_spill _ _ _ _

end X64

namespace A64

theorem lower_padded {f : Func} {xs ys : List (Line TreeJit.A64.Instr)}
    (hx : lower f ⟨false⟩ = .ok xs) (hy : lower f ⟨true⟩ = .ok ys) :
    Padded (.align loopBoundary) f.AlignsLabel xs ys ∧
      Holds (fun i => i.isFixed = true) xs f.labels := by
  obtain ⟨params, hparams, hx⟩ := bind_eq_ok.mp hx
  obtain ⟨returns, hreturns, hx⟩ := bind_eq_ok.mp hx
  obtain ⟨params', hparams', hy⟩ := bind_eq_ok.mp hy
  obtain rfl : params' = params := Except.ok.inj (hparams'.symm.trans hparams)
  obtain ⟨returns', hreturns', hy⟩ := bind_eq_ok.mp hy
  obtain rfl : returns' = returns := Except.ok.inj (hreturns'.symm.trans hreturns)
  -- a frame that is too large is refused before any block is lowered
  by_cases hsize : maxFrame < (f.frame 0).size
  · simp only [if_pos hsize] at hx
    cases hx
  · simp only [if_neg hsize] at hx hy
    obtain ⟨blocks, hblocks, hx⟩ := bind_eq_ok.mp hx
    obtain ⟨blocks', hblocks', hy⟩ := bind_eq_ok.mp hy
    cases hx
    cases hy
    rw [lowerBlocks_eq] at hblocks hblocks'
    refine padded_lines (holds_code ?_) (fun b s ls hls => lowerStep_holds _ hls) hblocks hblocks'
    rw [List.all_append, fixed_prologue, List.all_flatMap, Bool.true_and]
    exact List.all_eq_true.mpr fun _ _ => fixed_spill _ _ _

end A64

/-! ## either machine -/

def lowered (m : Machine) (f : Func) (opts : Options) : Except FuncFault (List (Line AnyInstr)) :=
  match m with
  | .x64 => (X64.lower f opts).map (List.map (Line.map .x64))
  | .a64 => (A64.lower f opts).map (List.map (Line.map .a64))

theorem lowered_of_compile {m : Machine} {f : Func} {opts : Options} {p : Program}
    (h : compile m f opts = .ok p) :
    ∃ lines, lowered m f opts = .ok lines ∧ assemble m lines = .ok p := by
  cases m with
  | x64 =>
    obtain ⟨lines, hl, ha⟩ := X64.assemble_of_compile h
    refine ⟨lines.map (Line.map .x64), by rw [lowered, hl]; rfl, ?_⟩
    rwa [assemble, assembleLines_map]
  | a64 =>
    obtain ⟨lines, hl, ha⟩ := A64.assemble_of_compile h
    refine ⟨lines.map (Line.map .a64), by rw [lowered, hl]; rfl, ?_⟩
    rwa [assemble, assembleLines_map]

theorem lowered_padded {m : Machine} {f : Func} {xs ys : List (Line AnyInstr)}
    (hx : lowered m f ⟨false⟩ = .ok xs) (hy : lowered m f ⟨true⟩ = .ok ys) :
    Padded m.pad f.AlignsLabel xs ys ∧ markedLabels xs = f.labels ∧
      ∀ i, .instr i ∈ xs → i.machine = m ∧ ∀ pos pos', i.encode m pos = i.encode m pos' := by
  cases m with
  | x64 =>
    obtain ⟨xs', hxs, rfl⟩ := map_eq_ok.mp hx
    obtain ⟨ys', hys, rfl⟩ := map_eq_ok.mp hy
    obtain ⟨hpad, hholds⟩ := X64.lower_padded hxs hys
    refine ⟨hpad.map AnyInstr.x64, (markedLabels_map_line xs').trans hholds.marks, fun i hi => ?_⟩
    obtain ⟨j, hj, rfl⟩ := mem_map_line.mp hi
    refine ⟨rfl, fun pos pos' => ?_⟩
    show (j.encode pos).mapError AsmFault.x64 = (j.encode pos').mapError AsmFault.x64
    rw [TreeJit.X64.Instr.encode_fixed (hholds.holds j (mem_instrsOf.mpr hj)) pos pos']
  | a64 =>
    obtain ⟨xs', hxs, rfl⟩ := map_eq_ok.mp hx
    obtain ⟨ys', hys, rfl⟩ := map_eq_ok.mp hy
    obtain ⟨hpad, hholds⟩ := A64.lower_padded hxs hys
    refine ⟨hpad.map AnyInstr.a64, (markedLabels_map_line xs').trans hholds.marks, fun i hi => ?_⟩
    obtain ⟨j, hj, rfl⟩ := mem_map_line.mp hi
    refine ⟨rfl, fun pos pos' => ?_⟩
    show (j.encode pos).mapError AsmFault.a64 = (j.encode pos').mapError AsmFault.a64
    rw [TreeJit.A64.Instr.encode_fixed (hholds.holds j (mem_instrsOf.mpr hj)) pos pos']

/-- **Aligning loops only adds padding.**  Take the code of a function without and with aligned loops.
Both are made of the lines of the plain one, and mark the labels of the function, each once.

Every block but the first that a branch from itself or from a later block goes to starts at a multiple
of 16 in the aligned code, behind fewer than 16 bytes of instructions that do nothing; there is no other
padding.  Without it, both have the same instructions: the bytes are those of one encoding, but for the
fields of branches, and these lead to the same labels.  The references have the same names and forms in
the same order, each in the same instruction. -/
theorem compile_onlyPads {m : Machine} {f : Func} {p q : Program}
    (hp : compile m f ⟨false⟩ = .ok p) (hq : compile m f ⟨true⟩ = .ok q) :
    ∃ ps, lowered m f ⟨false⟩ = .ok (ps.map Part.line) ∧
      ps.filterMap Part.label? = f.labels ∧ f.labels.Nodup ∧
      (∀ b, 0 < b → f.LoopsTo b → ∃ t t' pad, PartAt 0 0 ps t t' (.mark (blockLabel b) pad) ∧
        16 ∣ t' + pad.length) ∧
      OnlyPads m f.AlignsLabel p q ps := by
  obtain ⟨xs, hx, hpx⟩ := lowered_of_compile hp
  obtain ⟨ys, hy, hqy⟩ := lowered_of_compile hq
  obtain ⟨hpad, hmarks, hinstrs⟩ := lowered_padded hx hy
  obtain ⟨ps, hlines, honly⟩ :=
    hpad.onlyPads (fun i hi => (hinstrs i hi).1) (fun i hi => (hinstrs i hi).2) hpx hqy
  have hlabels : ps.filterMap Part.label? = f.labels := by
    rw [← hmarks, ← hlines, markedLabels_map_part]
  obtain ⟨-, hnodup, -, -⟩ := assembleLines_passes hpx
  refine ⟨ps, hlines ▸ hx, hlabels, hmarks ▸ hnodup, fun b h0 hloop => ?_, honly⟩
  have hmem : blockLabel b ∈ ps.filterMap Part.label? := hlabels ▸ hloop.label_mem
  obtain ⟨t, t', pad, hat⟩ := partAt_of_label hmem
  have hhead : f.AlignsLabel (blockLabel b) := Func.alignsLabel_iff.mpr ⟨h0, hloop⟩
  exact ⟨t, t', pad, hat, (honly.header t t' _ pad hat hhead).2.2⟩

/-- the loop of `scaling` is padded by two bytes for one machine and by two words for the other -/
theorem compile_onlyPads_scaling :
    let f := ((Draft.new "scaled" ⟨[.i64, .f64], [.f64]⟩).perform scaling).body.fn
    (∃ p q ps, compile .x64 f ⟨false⟩ = .ok p ∧ compile .x64 f ⟨true⟩ = .ok q ∧
      q.code.length = p.code.length + 2 ∧ OnlyPads .x64 f.AlignsLabel p q ps) ∧
    ∃ p q ps, compile .a64 f ⟨false⟩ = .ok p ∧ compile .a64 f ⟨true⟩ = .ok q ∧
      q.code.length = p.code.length + 8 ∧ OnlyPads .a64 f.AlignsLabel p q ps := by
  intro f
  have hboth : ∀ m n, (match compile m f ⟨false⟩, compile m f ⟨true⟩ with
      | .ok p, .ok q => decide (q.code.length = p.code.length + n)
      | _, _ => false) = true →
      ∃ p q ps, compile m f ⟨false⟩ = .ok p ∧ compile m f ⟨true⟩ = .ok q ∧
        q.code.length = p.code.length + n ∧ OnlyPads m f.AlignsLabel p q ps := by
    intro m n h
    split at h
    · rename_i p q hp hq
      obtain ⟨ps, -, -, -, -, honly⟩ := compile_onlyPads hp hq
      exact ⟨p, q, ps, hp, hq, of_decide_eq_true h, honly⟩
    · cases h
  exact ⟨hboth .x64 2 (by decide +kernel), hboth .a64 8 (by decide +kernel)⟩

end TreeJit.Compile
