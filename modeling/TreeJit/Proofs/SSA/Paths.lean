import Mathlib.Data.List.Nodup
import TreeJit.Proofs.SSA.WellFormed

/-!
# Paths and assigned values

A path starts at the entry block and follows branches.  On it a value is assigned when its block is
entered, if it is a parameter, or when its step is performed.

* `Func.Path f before b`          a path through the blocks `before` that stands at block `b`;
* `Func.assignedBefore f before b k`   what was assigned when step `k` of `b` is reached;
* `Func.AssignedBeforeRead f`     along every path, values are read after they are assigned.

Construction looks at one block at a time and does not compare paths, so `AssignedBeforeRead` is a
property of its own (`crossing_reads_unassigned`).  What holds of every function that is handed out
is that a value read on a path was assigned on it exactly if the block that defines it lies on the
path (`Draft.assigned_iff_block_on_path`).
-/

namespace TreeJit.SSA

/-- a path through the blocks `before`, in order, that stands at a block -/
inductive Func.Path (f : Func) : List Nat → Nat → Prop where
  | entry : f.Path [] 0
  | next {before : List Nat} {b : Nat} {blk : Block} {s : Step} {t : Target}
      (h : f.Path before b) (hb : f.blocks[b]? = some blk) (hs : s ∈ blk.steps.toList)
      (ht : t ∈ s.inst.targets) : f.Path (before ++ [b]) t.block

def Func.blockAssigns (f : Func) (b : Nat) : List ValueNo :=
  match f.blocks[b]? with
  | some blk => blk.assigns
  | none => []

/-- the values a block has assigned before its step `k` -/
def Block.assignsUpTo (blk : Block) (k : Nat) : List ValueNo :=
  blk.params.toList ++ (blk.steps.toList.take k).flatMap Step.results

/-- the values assigned on a path before step `k` of the block where it stands -/
def Func.assignedBefore (f : Func) (before : List Nat) (b k : Nat) : List ValueNo :=
  before.flatMap f.blockAssigns ++
    match f.blocks[b]? with
    | some blk => blk.assignsUpTo k
    | none => []

/-- along every path, every value that a step reads was assigned before -/
def Func.AssignedBeforeRead (f : Func) : Prop :=
  ∀ before b blk k s, f.Path before b → f.blocks[b]? = some blk → blk.steps.toList[k]? = some s →
    ∀ v ∈ s.inst.reads, v ∈ f.assignedBefore before b k

section
variable {f : Func} {b d : Nat} {blk : Block}

theorem Func.blockAssigns_of (h : f.blocks[b]? = some blk) : f.blockAssigns b = blk.assigns := by
  rw [Func.blockAssigns, h]

theorem Func.assignedBefore_of (before : List Nat) (k : Nat) (h : f.blocks[b]? = some blk) :
    f.assignedBefore before b k = before.flatMap f.blockAssigns ++ blk.assignsUpTo k := by
  rw [Func.assignedBefore, h]

theorem Block.mem_assigns_of_upTo {k : Nat} {v : ValueNo} (h : v ∈ blk.assignsUpTo k) :
    v ∈ blk.assigns := by
  rcases List.mem_append.mp h with h | h
  · exact List.mem_append_left _ h
  · obtain ⟨s, hs, hv⟩ := List.mem_flatMap.mp h
    exact List.mem_append_right _ (List.mem_flatMap.mpr ⟨s, List.mem_of_mem_take hs, hv⟩)

/-- a block that assigns a value a step of it reads has done so before that step -/
theorem Func.WellFormed.upTo_of_mem_assigns (h : f.WellFormed) (hb : f.blocks[b]? = some blk)
    {k : Nat} {s : Step} (hk : blk.steps.toList[k]? = some s) {v : ValueNo}
    (hr : v ∈ s.inst.reads) (hv : v ∈ blk.assigns) : v ∈ blk.assignsUpTo k := by
  rcases List.mem_append.mp hv with hv | hv
  · exact List.mem_append_left _ hv
  · obtain ⟨s', hs', hv'⟩ := List.mem_flatMap.mp hv
    obtain ⟨j, hj⟩ := List.mem_iff_getElem?.mp hs'
    refine List.mem_append_right _ (List.mem_flatMap.mpr ⟨s', ?_, hv'⟩)
    -- the step that gives `v` is neither the one that reads it nor a later one
    have hlt : j < k := by
      rcases Nat.lt_trichotomy j k with hlt | rfl | hgt
      · exact hlt
      · obtain rfl : s' = s := Option.some.inj (hj.symm.trans hk)
        exact absurd (h.apart b blk hb s' hs' v hr v hv') (Nat.lt_irrefl _)
      · obtain ⟨hk', ek⟩ := List.getElem?_eq_some_iff.mp hk
        obtain ⟨hj', ej⟩ := List.getElem?_eq_some_iff.mp hj
        have hp := List.pairwise_iff_getElem.mp (h.ordered b blk hb) k j hk' hj' hgt
        rw [ek, ej] at hp
        exact absurd (hp v hr v hv') (Nat.lt_irrefl _)
    exact List.mem_iff_getElem?.mpr ⟨j, by rw [List.getElem?_take_of_lt hlt, hj]⟩

theorem Func.WellFormed.block_unique (h : f.WellFormed) {v : ValueNo} (hb : v ∈ f.blockAssigns b)
    (hd : v ∈ f.blockAssigns d) : b = d := by
  have hn : f.definitions.Nodup := h.defined.symm.nodup List.nodup_range
  unfold Func.definitions at hn
  rw [List.nodup_flatMap] at hn
  unfold Func.blockAssigns at hb hd
  split at hb
  · rename_i blk hblk
    split at hd
    · rename_i dst hdst
      by_contra hne
      have hl : f.blocks.toList[b]? = some blk := by simpa using hblk
      have hr : f.blocks.toList[d]? = some dst := by simpa using hdst
      obtain ⟨lb, eb⟩ := List.getElem?_eq_some_iff.mp hl
      obtain ⟨ld, ed⟩ := List.getElem?_eq_some_iff.mp hr
      rcases Nat.lt_or_gt_of_ne hne with hlt | hgt
      · have hp := List.pairwise_iff_getElem.mp hn.2 b d lb ld hlt
        rw [eb, ed] at hp
        exact hp hb hd
      · have hp := List.pairwise_iff_getElem.mp hn.2 d b ld lb hgt
        rw [eb, ed] at hp
        exact hp hd hb
    · cases hd
  · cases hb

theorem Func.WellFormed.block_of_value (h : f.WellFormed) {v : ValueNo} (hv : v < f.values.size) :
    ∃ d, v ∈ f.blockAssigns d := by
  obtain ⟨d, blk, hd, hm⟩ := Func.mem_definitions.mp (h.defined.mem_iff.mpr (List.mem_range.mpr hv))
  exact ⟨d, by rwa [Func.blockAssigns_of hd]⟩

/-- what is read was assigned on a path exactly if its block lies on the path -/
theorem Func.WellFormed.assigned_iff (h : f.WellFormed) (before : List Nat)
    (hb : f.blocks[b]? = some blk) {k : Nat} {s : Step} (hk : blk.steps.toList[k]? = some s)
    {v : ValueNo} (hr : v ∈ s.inst.reads) (hd : v ∈ f.blockAssigns d) :
    v ∈ f.assignedBefore before b k ↔ d ∈ before ∨ d = b := by
  rw [Func.assignedBefore_of before k hb, List.mem_append]
  constructor
  · rintro (hv | hv)
    · obtain ⟨c, hc, hcv⟩ := List.mem_flatMap.mp hv
      rw [h.block_unique hd hcv]
      exact .inl hc
    · have hm : v ∈ f.blockAssigns b := by
        rw [Func.blockAssigns_of hb]
        exact Block.mem_assigns_of_upTo hv
      exact .inr (h.block_unique hd hm)
  · rintro (hv | rfl)
    · exact .inl (List.mem_flatMap.mpr ⟨d, hv, hd⟩)
    · rw [Func.blockAssigns_of hb] at hd
      exact .inr (h.upTo_of_mem_assigns hb hk hr hd)

end

theorem Func.Path.entry_mem {f : Func} {before : List Nat} {b : Nat} (h : f.Path before b) :
    0 ∈ before ∨ 0 = b := by
  induction h with
  | entry => exact .inr rfl
  | next _ _ _ _ ih =>
    rcases ih with ih | rfl
    · exact .inl (List.mem_append_left _ ih)
    · exact .inl (by simp)

/-- **A value read on a path was assigned earlier on it exactly if the one block that defines it lies
on the path**, the block that reads it included; so the values of the entry block always were. -/
theorem Draft.assigned_iff_block_on_path (name : String) (sig : Signature) (as : List Action)
    (f : Func) (h : ((Draft.new name sig).perform as).finish.2 = .ok f) (before : List Nat)
    (b : Nat) (blk : Block) (k : Nat) (s : Step) (v : ValueNo) (hp : f.Path before b)
    (hb : f.blocks[b]? = some blk) (hk : blk.steps.toList[k]? = some s) (hr : v ∈ s.inst.reads) :
    ∃ d, (∀ d', v ∈ f.blockAssigns d' ↔ d' = d) ∧
      (v ∈ f.assignedBefore before b k ↔ d ∈ before ∨ d = b) ∧
      (d = 0 → v ∈ f.assignedBefore before b k) := by
  obtain ⟨-, -, hw⟩ := Draft.sound_of_finish h
  obtain ⟨_, ht, -⟩ := hw.typed b blk hb s (List.mem_of_getElem? hk)
  obtain ⟨d, hd⟩ := hw.block_of_value (ht.reads_lt v hr)
  have hi := hw.assigned_iff before hb hk hr hd
  refine ⟨d, fun d' => ⟨fun h' => hw.block_unique h' hd, ?_⟩, hi, ?_⟩
  · rintro rfl
    exact hd
  · rintro rfl
    exact hi.mpr hp.entry_mem

/-- a value made in one branch and returned where the branches meet -/
def crossing : List Action :=
  [.createBlock, .createBlock, .createBlock, .appendFunctionParams 0,
    .switchTo 0, .brif 0 1 [] 2 [], .switchTo 1, .iconst .i64 7, .jump 2 [],
    .switchTo 2, .ret [1], .sealAll]

def crossingFn : Func := ((Draft.new "f" ⟨[.i64], [.i64]⟩).perform crossing).body.fn

theorem crossing_path : crossingFn.Path [0] 2 := by
  have hb : crossingFn.blocks[0]? =
      some ⟨#[0], #[⟨.brif .i64 0 ⟨1, []⟩ ⟨2, []⟩, []⟩], true, 0⟩ := by decide +kernel
  exact .next (t := ⟨2, []⟩) .entry hb List.mem_cons_self (by decide)

/-- in block 2, after block 0, the value of block 1 is returned and was not assigned -/
theorem Draft.assigned_iff_block_on_path_crossing :
    ∃ d, (∀ d', 1 ∈ crossingFn.blockAssigns d' ↔ d' = d) ∧
      (1 ∈ crossingFn.assignedBefore [0] 2 0 ↔ d ∈ [0] ∨ d = 2) ∧
      (d = 0 → 1 ∈ crossingFn.assignedBefore [0] 2 0) :=
  Draft.assigned_iff_block_on_path "f" ⟨[.i64], [.i64]⟩ crossing crossingFn
    (Draft.finish_of_isOk (by decide +kernel)) [0] 2 ⟨#[], #[⟨.ret [1], []⟩], true, 2⟩ 0
    ⟨.ret [1], []⟩ 1 crossing_path (by decide +kernel) rfl (by decide)

/-- **Construction accepts a function that reads a value no block on its path has assigned.** -/
theorem crossing_reads_unassigned :
    ((Draft.new "f" ⟨[.i64], [.i64]⟩).perform crossing).finish.2 = .ok crossingFn ∧
      ¬ crossingFn.AssignedBeforeRead := by
  refine ⟨Draft.finish_of_isOk (by decide +kernel), fun h => ?_⟩
  have hv := h [0] 2 ⟨#[], #[⟨.ret [1], []⟩], true, 2⟩ 0 ⟨.ret [1], []⟩ crossing_path
    (by decide +kernel) rfl 1 (by decide)
  have hn : 1 ∉ crossingFn.assignedBefore [0] 2 0 := by decide +kernel
  exact hn hv

end TreeJit.SSA
