import TreeJit.Proofs.SSA.FrameRegions
import TreeJit.Proofs.Word.Copies

/-!
# Passing arguments through a frame

A branch passes its arguments by copies inside the frame (`Func.copies`): each argument goes from its
home to a place of the transfer area, and from there to the home of its parameter.  Homes and places
lie apart in a frame that fits, so the copies make one simultaneous assignment
(`Func.WellFormed.passed`): every parameter ends with what its argument had before the branch, and
nothing but the homes of the parameters and the transfer area changes (`Func.Passed`).
-/

namespace TreeJit.SSA

open Memory

/-! ## copies -/

/-- a value is copied from one offset of a frame to another -/
structure Copy where
  ty : Ty
  dst : Int32
  src : Int32

def Copy.move (base : UInt64) (k : Copy) : Move :=
  ⟨addressOf base k.dst, addressOf base k.src, homeSize k.ty⟩

namespace Func

def copies (f : Func) (t : Target) : List Copy :=
  let fr := f.frame 0
  (t.args.mapIdx fun i v => ⟨f.typeOf v, fr.staged i, fr.home v⟩) ++
    (f.blockParams t.block).mapIdx fun i p => ⟨f.typeOf p, fr.home p, fr.staged i⟩

/-- **A branch has passed its arguments**: every parameter has what its argument had before, all 8
or 16 bytes of it, and neither another home nor a slot has changed, nor anything but the homes of
the parameters and the transfer area. -/
structure Passed (f : Func) (base : UInt64) (t : Target) (m m' : Memory) : Prop where
  params : ∀ (i : Nat) p, (f.blockParams t.block)[i]? = some p →
    ∃ v, t.args[i]? = some v ∧ f.typeOf v = f.typeOf p ∧
      m'.bytes (f.partSize (.home p)) (f.partAt base (.home p)) =
        m.bytes (f.partSize (.home p)) (f.partAt base (.home v))
  kept : ∀ p, f.HasPart p → p ≠ .transfer → (∀ v ∈ f.blockParams t.block, p ≠ .home v) →
    m'.bytes (f.partSize p) (f.partAt base p) = m.bytes (f.partSize p) (f.partAt base p)
  rest : ∀ x, (∀ p ∈ f.blockParams t.block,
      f.partSize (.home p) ≤ dist (f.partAt base (.home p)) x) →
    f.partSize .transfer ≤ dist (f.partAt base .transfer) x → m'.get x = m.get x

theorem WellFormed.stageAt_eq {f : Func} {base : UInt64} (hw : f.WellFormed) (hf : f.Fits) {i : Nat}
    (hi : i < f.maxBranchArgs) :
    addressOf base ((f.frame 0).staged i) = base + UInt64.ofNat (f.layout.transfer + 16 * i) := by
  have h1 := f.layout_transfer
  have h2 : f.layout.size < 2 ^ 31 := hf
  rw [hw.staged_eq, addressOf_ofNat _ (by omega)]

/-! ## the relay of a branch -/

theorem mapIdx_eq_range {α β : Type} (g : Nat → α → β) (xs : List α) (d : α) :
    xs.mapIdx g = (List.range xs.length).map fun i => g i (xs.getD i d) := by
  refine List.ext_getElem (by simp) fun i h1 h2 => ?_
  rw [List.length_mapIdx] at h1
  simp [List.getD_eq_getElem?_getD, h1]

def homeOfNth (f : Func) (base : UInt64) (vs : List ValueNo) (i : Nat) : UInt64 :=
  f.partAt base (.home (vs.getD i 0))

def stageAt (f : Func) (base : UInt64) (i : Nat) : UInt64 := addressOf base ((f.frame 0).staged i)

def sizeOfNth (f : Func) (vs : List ValueNo) (i : Nat) : Nat := homeSize (f.typeOf (vs.getD i 0))

section
variable {f : Func} {base : UInt64} {t : Target}

theorem Supplies.nth (h : f.Supplies t) : t.args.length = (f.blockParams t.block).length ∧
    ∀ i < t.args.length, t.args.getD i 0 < f.values.size ∧
      (f.blockParams t.block).getD i 0 < f.values.size ∧
      f.typeOf (t.args.getD i 0) = f.typeOf ((f.blockParams t.block).getD i 0) := by
  obtain ⟨blk, ts, hb, hps, has⟩ := h
  have eps : f.blockParams t.block = blk.params.toList := by rw [blockParams, hb]
  have hnth : ∀ {vs : List ValueNo} (_ : f.HasTypes vs ts) (i : Nat), i < ts.length →
      f.values[vs.getD i 0]? = ts[i]? := by
    intro vs hvs i hi
    have hl : i < vs.length := hvs.length_eq ▸ hi
    have e := congrArg (fun l => l[i]?) hvs
    simp only [List.getElem?_map, List.getElem?_eq_getElem hl, List.getElem?_eq_getElem hi,
      Option.map_some, Option.some.injEq] at e
    rw [List.getD_eq_getElem?_getD, List.getElem?_eq_getElem hl, List.getElem?_eq_getElem hi,
      Option.getD_some, e]
  rw [eps, has.length_eq, hps.length_eq]
  refine ⟨rfl, fun i hi => ?_⟩
  have ha := hnth has i hi
  have hp := hnth hps i hi
  rw [List.getElem?_eq_getElem hi] at ha hp
  exact ⟨lt_of_values ha, lt_of_values hp, (typeOf_eq ha).trans (typeOf_eq hp).symm⟩

theorem Supplies.arg_lt (h : f.Supplies t) {v : ValueNo} (hv : v ∈ t.args) : v < f.values.size := by
  obtain ⟨i, hi, rfl⟩ := List.getElem_of_mem hv
  have := (h.nth.2 i hi).1
  rwa [List.getD_eq_getElem?_getD, List.getElem?_eq_getElem hi, Option.getD_some] at this

theorem Supplies.param_lt (h : f.Supplies t) {p : ValueNo} (hp : p ∈ f.blockParams t.block) :
    p < f.values.size := by
  obtain ⟨i, hi, rfl⟩ := List.getElem_of_mem hp
  have := (h.nth.2 i (h.nth.1 ▸ hi)).2.1
  rwa [List.getD_eq_getElem?_getD, List.getElem?_eq_getElem hi, Option.getD_some] at this

/-- the copies of a branch are a relay by way of the transfer area -/
theorem Supplies.moves_eq (h : f.Supplies t) : (f.copies t).map (Copy.move base) =
    relay t.args.length (f.homeOfNth base t.args) (f.stageAt base)
      (f.homeOfNth base (f.blockParams t.block)) (f.sizeOfNth (f.blockParams t.block)) := by
  obtain ⟨hlen, hnth⟩ := h.nth
  rw [copies, mapIdx_eq_range _ _ 0, mapIdx_eq_range _ _ 0, ← hlen, List.map_append, List.map_map,
    List.map_map, relay]
  congr 1
  refine List.map_congr_left fun i hi => ?_
  obtain ⟨-, -, hty⟩ := hnth i (List.mem_range.mp hi)
  show Move.mk _ _ _ = Move.mk _ _ _
  rw [sizeOfNth, ← hty]
  rfl

theorem WellFormed.blockParams_nodup (hw : f.WellFormed) (b : Nat) : (f.blockParams b).Nodup := by
  have hn : f.definitions.Nodup := hw.defined.symm.nodup List.nodup_range
  unfold blockParams
  split
  · rename_i blk hb
    have hl : f.blocks.toList[b]? = some blk := by simpa using hb
    have hblk := (List.nodup_flatMap.mp hn).1 blk (List.mem_of_getElem? hl)
    exact (List.nodup_append.mp hblk).1
  · exact List.nodup_nil

theorem WellFormed.relay (hw : f.WellFormed) (hf : f.Fits) (h : f.Supplies t)
    (hargs : t.args.length ≤ f.maxBranchArgs) :
    Relay t.args.length (f.homeOfNth base t.args) (f.stageAt base)
      (f.homeOfNth base (f.blockParams t.block)) (f.sizeOfNth (f.blockParams t.block)) := by
  obtain ⟨hlen, hnth⟩ := h.nth
  have hm := f.layout_mid
  have hs := f.layout_stop
  have htr := f.layout_transfer
  have hlt : f.layout.size < 2 ^ 31 := hf
  have hsize := fun i => homeSize_pos (f.typeOf ((f.blockParams t.block).getD i 0))
  -- homes lie in front of the transfer area
  have hhome : ∀ v < f.values.size, f.partAt base (.home v) = base + UInt64.ofNat (f.layout.home v) ∧
      f.layout.home v + homeSize (f.typeOf v) ≤ f.layout.mid :=
    fun v hv => ⟨hw.partAt_eq hf (p := .home v) hv, home_le (typeOf_values hv)⟩
  refine ⟨fun i _ => Nat.le_trans (hsize i).2 (by decide), ?_, ?_, ?_, ?_⟩
  · intro i j hij hj
    have h1 := hsize i
    have h2 := hsize j
    unfold stageAt sizeOfNth
    rw [hw.stageAt_eq hf (by omega), hw.stageAt_eq hf (by omega)]
    exact apart_offsets base h1.1 h2.1 (by omega) (by omega) (.inl (by omega))
  · intro i j hij hj
    obtain ⟨-, hpi, -⟩ := hnth i (by omega)
    obtain ⟨-, hpj, -⟩ := hnth j hj
    have hne : (f.blockParams t.block).getD i 0 ≠ (f.blockParams t.block).getD j 0 := by
      have hn := hw.blockParams_nodup t.block
      have hi' : i < (f.blockParams t.block).length := by omega
      have hj' : j < (f.blockParams t.block).length := by omega
      rw [List.getD_eq_getElem?_getD, List.getD_eq_getElem?_getD, List.getElem?_eq_getElem hi',
        List.getElem?_eq_getElem hj', Option.getD_some, Option.getD_some]
      exact fun e => absurd ((hn.getElem_inj_iff).mp e) (by omega)
    exact hw.apart_parts hf (p := .home _) (q := .home _) hpi hpj (fun e => hne (Part.home.inj e))
      (hsize i).1 (hsize j).1
  · intro i hi j hj
    obtain ⟨haj, -, hty⟩ := hnth j hj
    obtain ⟨e, hle⟩ := hhome _ haj
    have h1 := hsize i
    have h2 := homeSize_pos (f.typeOf (t.args.getD j 0))
    unfold stageAt sizeOfNth homeOfNth
    rw [hw.stageAt_eq hf (by omega), e, ← hty]
    exact apart_offsets base h1.1 h2.1 (by omega) (by omega) (.inr (by omega))
  · intro i hi j hj
    obtain ⟨-, hpi, -⟩ := hnth i hi
    obtain ⟨e, hle⟩ := hhome _ hpi
    have h1 := hsize i
    have h2 := hsize j
    unfold stageAt sizeOfNth homeOfNth
    rw [hw.stageAt_eq hf (by omega), e]
    exact apart_offsets base h1.1 h2.1 (by omega) (by omega) (.inl (by omega))

theorem WellFormed.get_copies (hw : f.WellFormed) (hf : f.Fits) (h : f.Supplies t)
    (hargs : t.args.length ≤ f.maxBranchArgs) (m : Memory) {x : UInt64}
    (hps : ∀ p ∈ f.blockParams t.block, f.partSize (.home p) ≤ dist (f.partAt base (.home p)) x)
    (htr : f.partSize .transfer ≤ dist (f.partAt base .transfer) x) :
    (m.moveAll ((f.copies t).map (Copy.move base))).get x = m.get x := by
  have hstage := f.layout_transfer
  have hlt : f.layout.size < 2 ^ 31 := hf
  rw [h.moves_eq]
  refine get_relay (fun i hi => ?_) fun i hi => ?_
  · have hsize := homeSize_pos (f.typeOf ((f.blockParams t.block).getD i 0))
    have htr' : 16 * f.maxBranchArgs ≤ dist (base + UInt64.ofNat f.layout.transfer) x := by
      rw [hw.partAt_eq hf (p := .transfer) trivial] at htr
      exact htr
    rw [stageAt, hw.stageAt_eq hf (by omega), UInt64.ofNat_add, ← UInt64.add_assoc]
    exact dist_place _ x (by unfold sizeOfNth; omega) (by unfold sizeOfNth; omega)
  · have hi' : i < (f.blockParams t.block).length := by
      rw [← h.nth.1]
      exact hi
    refine hps _ ?_
    rw [List.getD_eq_getElem?_getD, List.getElem?_eq_getElem hi', Option.getD_some]
    exact List.getElem_mem hi'

/-- **The copies of a branch pass its arguments.** -/
theorem WellFormed.passed (hw : f.WellFormed) (hf : f.Fits) (h : f.Supplies t)
    (hargs : t.args.length ≤ f.maxBranchArgs) (m : Memory) :
    f.Passed base t m (m.moveAll ((f.copies t).map (Copy.move base))) := by
  obtain ⟨hlen, hnth⟩ := h.nth
  have hget : ∀ x, (∀ p ∈ f.blockParams t.block, f.partSize (.home p) ≤ dist (f.partAt base (.home p)) x) →
      f.partSize .transfer ≤ dist (f.partAt base .transfer) x →
      (m.moveAll ((f.copies t).map (Copy.move base))).get x = m.get x :=
    fun _ => hw.get_copies hf h hargs m
  -- a byte of a part lies outside the other parts
  have hout : ∀ {p q : Part}, f.HasPart p → f.HasPart q → q ≠ p → 0 < f.partSize p → ∀ j < f.partSize p,
      f.partSize q ≤ dist (f.partAt base q) (f.partAt base p + UInt64.ofNat j) := by
    intro p q hp hq hne h0 j hj
    rcases Nat.eq_zero_or_pos (f.partSize q) with hz | hpos
    · omega
    · exact (hw.apart_parts hf hq hp hne hpos h0).le_dist hj
  refine ⟨fun i p hp => ?_, fun p hp hnt hnp => bytes_congr fun j hj => ?_, hget⟩
  · have hi := (List.getElem?_eq_some_iff.mp hp).1
    have hi' : i < t.args.length := by omega
    have ep : (f.blockParams t.block).getD i 0 = p := by
      rw [List.getD_eq_getElem?_getD, hp, Option.getD_some]
    have ea : t.args[i]? = some (t.args.getD i 0) := by
      rw [List.getD_eq_getElem?_getD, List.getElem?_eq_getElem hi', Option.getD_some]
    obtain ⟨-, -, hty⟩ := hnth i hi'
    rw [ep] at hty
    refine ⟨_, ea, hty, ?_⟩
    have hrelay : Relay t.args.length (f.homeOfNth base t.args) (f.stageAt base)
        (f.homeOfNth base (f.blockParams t.block)) (f.sizeOfNth (f.blockParams t.block)) :=
      hw.relay hf h hargs
    have hb := hrelay.bytes_eq m hi'
    rw [← h.moves_eq, sizeOfNth, homeOfNth, homeOfNth, ep] at hb
    exact hb
  · have h0 : 0 < f.partSize p := by omega
    refine hget _ (fun v hv => ?_) (hout (q := .transfer) hp trivial (Ne.symm hnt) h0 j hj)
    have hvp : f.HasPart (.home v) := h.param_lt hv
    exact hout hp hvp (Ne.symm (hnp v hv)) h0 j hj

end

end Func

end TreeJit.SSA
