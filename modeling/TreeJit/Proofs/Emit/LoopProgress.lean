import TreeJit.Proofs.Emit.LoopCode
import TreeJit.Proofs.SSA.Progress

/-!
# Vector loops can be written

A builder whose current block is open takes a whole loop: `enterLoop` finds its operands, the block
that it leaves open takes the body, and `leaveLoop` finds the parameters of the loop block and the
block behind it as `enterLoop` made them.

* `Draft.Open.each`              one operation for each value of a list;
* `Builder.enterLoop_ready`      the start of a loop;
* `Builder.leaveLoop_ready`      its end.
-/

namespace TreeJit

open SSA

namespace SSA.Draft
variable {d : Draft} {cur : Nat}

theorem Has.of_append {vs ws : List Int} {ts us : List Ty} (h : d.Has (vs ++ ws) (ts ++ us))
    (hl : vs.length = ts.length) : d.Has vs ts ∧ d.Has ws us := by
  obtain ⟨ns, e, h⟩ := h
  obtain ⟨xs, ys, rfl, rfl, rfl⟩ := List.map_eq_append_iff.mp e.symm
  unfold Func.HasTypes at h
  rw [List.map_append, List.map_append] at h
  obtain ⟨h1, h2⟩ := List.append_inj h (by simpa using hl)
  exact ⟨⟨xs, rfl, h1⟩, ⟨ys, rfl, h2⟩⟩

theorem has_of_typeOf {v : Int} {t : Ty} (h : d.typeOf v = t) (ht : t.isValid = true) :
    d.Has [v] [t] := by
  by_cases hv : v < 0
  · rw [typeOf, Func.typeOf, if_pos hv] at h
    subst h
    cases ht
  · obtain ⟨n, rfl⟩ := Int.eq_ofNat_of_zero_le (Int.not_lt.mp hv)
    exact Has.one (Emit.values_of_typeOf h ht)

theorem Open.each (h : d.Open cur) {op : Draft → Int → Draft × Int} {t u : Ty}
    (hop : ∀ (d' : Draft) (v : Int), d.Ahead cur d' → d'.Has [v] [t] → d'.Yields cur (op d' v) u)
    {vs : List Int} (hv : ∀ v ∈ vs, d.Has [v] [t]) :
    d.Ahead cur (d.each op vs).1 ∧
      (d.each op vs).1.Has (d.each op vs).2 (List.replicate vs.length u) := by
  induction vs generalizing d with
  | nil => exact ⟨h.ahead, Has.nil⟩
  | cons v vs ih =>
    obtain ⟨h1, hr1⟩ := hop d v h.ahead (hv v List.mem_cons_self)
    have hrest : ∀ u ∈ vs, (op d v).1.Has [u] [t] := fun u hu =>
      h1.has (hv u (List.mem_cons_of_mem _ hu))
    obtain ⟨h2, hr2⟩ := ih h1.isOpen (fun d' u h' hu => hop d' u (h1.trans h') hu) hrest
    exact ⟨h1.trans h2, (h2.has hr1).cons hr2⟩

end SSA.Draft

namespace Emit

/-! ## before the body -/

theorem isValid_loopTypes (arrays scalars : Nat) : ∀ t ∈ loopTypes arrays scalars, t.isValid = true := by
  intro t ht
  simp only [loopTypes, List.mem_append, List.mem_replicate, List.mem_cons, List.not_mem_nil,
    or_false, or_self] at ht
  rcases ht with ((⟨-, rfl⟩ | rfl) | ⟨-, rfl⟩) | rfl <;> rfl

theorem loopBlocks_ready {d : Draft} {cur : Nat} (h : d.Open cur) (arrays scalars : Nat) :
    (loopBlocks d arrays scalars).1.Open cur ∧
      d.body.fn.Grows (loopBlocks d arrays scalars).1.body.fn ∧
      (loopBlocks d arrays scalars).1.Has (loopBlocks d arrays scalars).2.1
        (List.replicate arrays .pointer) ∧
      (loopBlocks d arrays scalars).1.body.Fresh d.body.fn.blocks.size (loopTypes arrays scalars) ∧
      (loopBlocks d arrays scalars).1.body.Fresh (d.body.fn.blocks.size + 1) [] ∧
      d.createBlock.2 = d.body.fn.blocks.size ∧
      d.createBlock.1.createBlock.2 = (d.body.fn.blocks.size + 1 : Nat) := by
  obtain ⟨d', pointers, spread, result, index, bound, e, ha, hp, hs⟩ :=
    loopBlocks_params d arrays scalars
  obtain ⟨h1, hr1, hn1, hf1⟩ := h.createBlock
  obtain ⟨h2, hr2, -, hx2⟩ := h1.isOpen.createBlock
  rw [hn1] at hr2 hx2
  rw [hr1] at ha
  -- the parameters go to the first of the two blocks
  obtain ⟨h3, hg3, hv3, hf3, hx3⟩ :=
    h2.isOpen.appendParams (h2.fresh _ _ hf1) (isValid_loopTypes arrays scalars)
  rw [ha] at h3 hg3 hv3 hf3 hx3
  rw [e]
  have hpointers : d'.Has pointers (List.replicate arrays .pointer) := by
    obtain ⟨hgroups, -⟩ := Draft.Has.of_append hv3 (by simp [hp, hs])
    obtain ⟨hmost, -⟩ := Draft.Has.of_append hgroups (by simp [hp])
    exact (Draft.Has.of_append hmost (by simp [hp])).1
  exact ⟨h3, h1.grows.trans (h2.grows.trans hg3), hpointers, hf3,
    hx3 _ _ (Nat.succ_ne_self _) hx2, hr1, hr2⟩

/-- **The start of a loop can be written.** -/
theorem openLoop_ready {d : Draft} {cur : Nat} (h : d.Open cur) {l : VectorLoop}
    (hl : l.check d = .ok ()) (saved : List (Int × Int)) :
    (openLoop d l saved).1.Ready ∧ ∃ head : Nat, (openLoop d l saved).2.block = head ∧
      (openLoop d l saved).1.body.Takes head (loopTypes l.arrays.length l.scalars.length) ∧
      (openLoop d l saved).1.body.Takes (head + 1) [] ∧
      ∀ p ∈ (openLoop d l saved).2.pointers, (openLoop d l saved).1.Has [p] [.pointer] := by
  obtain ⟨ha, hs, hr, hc⟩ := VectorLoop.check_ok hl
  have harr : d.Has (l.arrays.map (·.value)) (List.replicate l.arrays.length .pointer) := by
    rw [← List.length_map (f := fun a : ColumnInput => a.value)]
    refine Draft.Has.replicate fun v hv => ?_
    obtain ⟨a, ham, rfl⟩ := List.mem_map.mp hv
    exact Draft.has_of_typeOf (ha a ham) rfl
  have hsc : ∀ v ∈ l.scalars.map (·.value), d.Has [v] [.f64] := by
    intro v hv
    obtain ⟨s, hsm, rfl⟩ := List.mem_map.mp hv
    exact Draft.has_of_typeOf (hs s hsm) rfl
  have hresult := Draft.has_of_typeOf hr rfl
  -- the broadcasts and the blocks
  have hsplat : ∀ (d' : Draft) (v : Int), d.Ahead cur d' → d'.Has [v] [.f64] →
      d'.Yields cur (d'.splat .f64x2 v) .f64x2 := fun d' v h' hv => h'.isOpen.splat rfl hv
  obtain ⟨h1, hr1⟩ := h.each hsplat hsc
  rw [List.length_map] at hr1
  cases e1 : d.each (fun d v => d.splat .f64x2 v) (l.scalars.map (·.value)) with
  | mk d1 lanes =>
  rw [e1] at h1 hr1
  simp only at h1 hr1
  obtain ⟨h2, hg2, hv2, hf2, hx2, hn2, hn2'⟩ :=
    loopBlocks_ready h1.isOpen l.arrays.length l.scalars.length
  cases e2 : loopBlocks d1 l.arrays.length l.scalars.length with
  | mk d2 rest =>
  obtain ⟨pointers, result, spread, index, bound⟩ := rest
  rw [e2] at h2 hg2 hv2 hf2 hx2
  simp only at h2 hg2 hv2 hf2 hx2
  -- the test for no rows
  obtain ⟨h3, hr3⟩ := h2.iconst (t := .i64) rfl 0
  cases e3 : d2.iconst .i64 0 with
  | mk d3 zero =>
  rw [e3] at h3 hr3
  simp only at h3 hr3
  have hcount : d3.Has [l.count] [.i64] :=
    h3.has ((h1.has (Draft.has_of_typeOf hc rfl)).mono hg2)
  obtain ⟨h4, hr4⟩ := h3.isOpen.icmp .eq (t := .i64) rfl hcount hr3
  cases e4 : d3.icmp IntCond.eq.code l.count zero with
  | mk d4 empty =>
  rw [e4] at h4 hr4
  simp only at h4 hr4
  have hargs : d4.Has (l.arrays.map (·.value) ++ [l.result] ++ lanes ++ [zero, l.count])
      (loopTypes l.arrays.length l.scalars.length) := by
    have hold := (h1.has (harr.append hresult)).append hr1
    exact ((hold.mono hg2).mono (h3.grows.trans h4.grows)).append (h4.has (hr3.cons hcount))
  have htakes := (h4.fresh _ _ (h3.fresh _ _ hf2)).takes
  have hexit := (h4.fresh _ _ (h3.fresh _ _ hx2)).takes
  obtain ⟨h5, hg5, ht5⟩ := h4.isOpen.brif (t := .i8) rfl hr4 hexit Draft.Has.nil htakes hargs
  have hcur : cur < d1.body.fn.blocks.size := by
    obtain ⟨blk, hb, -⟩ := h1.isOpen.block
    exact (Array.getElem?_eq_some_iff.mp hb).1
  rw [openLoop_eq, splats_eq]
  simp only [e1, e2, e3, e4, hn2, hn2']
  refine ⟨h5, d1.body.fn.blocks.size, rfl, ht5 _ _ (by omega) htakes, ht5 _ _ (by omega) hexit, ?_⟩
  intro p hp
  exact (hv2.of_replicate p hp).mono (h3.grows.trans (h4.grows.trans hg5))

theorem Builder.enterLoop_ready {b : Builder} (hst : b.state = .building) (hb : b.Healthy) {cur : Nat}
    (h : b.draft.Open cur) {l : VectorLoop} (hl : b.lanes = 1) (hc : l.check b.draft = .ok ()) :
    (b.enterLoop l).1.Healthy ∧ ∃ (f : LoopFrame) (head : Nat), (b.enterLoop l).2 = some f ∧
      f.block = head ∧ (b.enterLoop l).1.draft.Open head ∧
      (b.enterLoop l).1.draft.body.Takes head (loopTypes l.arrays.length l.scalars.length) ∧
      (b.enterLoop l).1.draft.body.Takes (head + 1) [] := by
  obtain ⟨h1, head, hblock, ht1, hx1, hp1⟩ := openLoop_ready h hc b.columns
  cases e1 : openLoop b.draft l b.columns with
  | mk d1 f =>
  rw [e1] at h1 hblock ht1 hx1 hp1
  simp only at h1 hblock ht1 hx1 hp1
  obtain ⟨h2, hg2, ht2⟩ := h1.switchTo ht1
  cases e2 : d1.switchTo f.block with
  | mk d2 u =>
  rw [← hblock, e2] at h2 hg2 ht2
  -- the loop block is open, and the pointers are among its parameters
  have hpair : ∀ (d' : Draft) (v : Int), d2.Ahead head d' → d'.Has [v] [.pointer] →
      d'.Yields head (d'.load .f64x2 v 0) .f64x2 := fun d' v h' hv => h'.isOpen.load rfl hv 0
  obtain ⟨h3, -⟩ := h2.each hpair fun p hp => (hp1 p hp).mono hg2
  rw [← loadPairs_eq] at h3
  cases e3 : loadPairs d2 f.pointers with
  | mk d3 pairs =>
  rw [e3] at h3
  simp only at h3
  have hstep : b.enterLoop l = ({ b with
      draft := d3
      columns := ((l.arrays.map (·.column)).zip pairs ++
        (l.scalars.map (·.column)).zip f.scalars).reverse
      lanes := 2 }, some f) := by
    refine attempt_eq hst hb ?_ ⟨hb.fault, h3.isOpen.fault⟩
    simp only [hl, hc, e1, e2, e3, h1.fault, ne_eq, not_true_eq_false, if_false, Option.isSome_none,
      Bool.false_eq_true]
  rw [hstep]
  exact ⟨⟨hb.fault, h3.isOpen.fault⟩, f, head, rfl, hblock, h3.isOpen,
    h3.takes _ _ (ht2 _ _ ht1), h3.takes _ _ (ht2 _ _ hx1)⟩

/-! ## after the body -/

theorem LoopLayout.has_params {L : LoopLayout} {d : Draft}
    (h : d.body.fn.HasTypes L.params L.paramTypes) :
    d.Has (L.pointers.map Int.ofNat) (List.replicate L.arrays.length .pointer) ∧
      d.Has [(L.target : Int)] [.pointer] ∧
      d.Has (L.spread.map Int.ofNat) (List.replicate L.scalars.length .f64x2) ∧
      d.Has [(L.index : Int)] [.i64] ∧ d.Has [(L.bound : Int)] [.i64] := by
  have hall : d.Has (L.pointers.map Int.ofNat ++ [(L.target : Int)] ++ L.spread.map Int.ofNat ++
      [(L.index : Int), (L.bound : Int)]) L.paramTypes := by
    refine ⟨L.params, ?_, h⟩
    simp [params]
  unfold paramTypes at hall
  obtain ⟨h1, h2⟩ := hall.of_append (by simp [L.length_pointers, L.length_spread])
  obtain ⟨h3, h4⟩ := h1.of_append (by simp [L.length_pointers])
  obtain ⟨h5, h6⟩ := h3.of_append (by simp [L.length_pointers])
  have h7 : d.Has [(L.index : Int)] [.i64] ∧ d.Has [(L.bound : Int)] [.i64] :=
    Draft.Has.of_append h2 rfl
  exact ⟨h5, h6, h4, h7.1, h7.2⟩

/-- **The end of a loop can be written.** -/
theorem closeBlock_ready {d : Draft} (L : LoopLayout) (saved : List (Int × Int)) (h : d.Open L.head)
    (hp : d.body.fn.HasTypes L.params L.paramTypes) {out : Int} {t : Ty} (ho : d.Has [out] [t])
    {d' : Draft} {pointers : List Int} {result index more : Int}
    (e : closeBlock d (L.frame saved) out = (d', pointers, result, index, more)) :
    d.Ahead L.head d' ∧ d'.Has [more] [.i8] ∧
      d'.Has (pointers ++ [result] ++ (L.frame saved).scalars ++ [index, (L.frame saved).bound])
        L.paramTypes := by
  obtain ⟨hptr, htgt, hspr, hidx, hbnd⟩ := L.has_params hp
  have h1 := h.store ho htgt 0
  cases e1 : d.store out (L.frame saved).result 0 with
  | mk d1 u1 =>
  rw [show (L.target : Int) = (L.frame saved).result from rfl, e1] at h1
  simp only at h1
  obtain ⟨h2, hr2⟩ := h1.isOpen.iconst (t := .i64) rfl pairBytes
  cases e2 : d1.iconst .i64 pairBytes with
  | mk d2 step =>
  rw [e2] at h2 hr2
  simp only at h2 hr2
  -- the pointers
  have h12 := h1.trans h2
  have hadd : ∀ (d' : Draft) (v : Int), d2.Ahead L.head d' → d'.Has [v] [.pointer] →
      d'.Yields L.head (d'.binary .iadd v step) .pointer :=
    fun d' v h' hv => h'.isOpen.binary rfl hv (h'.has hr2)
  obtain ⟨h3, hr3⟩ := h2.isOpen.each hadd (h12.has hptr).of_replicate
  rw [← advance_eq] at h3 hr3
  cases e3 : advance d2 step (L.frame saved).pointers with
  | mk d3 moved =>
  rw [show L.pointers.map Int.ofNat = (L.frame saved).pointers from rfl, e3] at h3 hr3
  simp only at h3 hr3
  -- the result, the index and the comparison
  have h13 := h12.trans h3
  obtain ⟨h4, hr4⟩ : d3.Yields L.head (d3.binary .iadd L.target step) .i64 :=
    h3.isOpen.binary rfl (h13.has htgt) (h3.has hr2)
  cases e4 : d3.binary .iadd (L.frame saved).result step with
  | mk d4 result' =>
  rw [show (L.target : Int) = (L.frame saved).result from rfl, e4] at h4 hr4
  simp only at h4 hr4
  obtain ⟨h5, hr5⟩ := h4.isOpen.iconst (t := .i64) rfl 2
  cases e5 : d4.iconst .i64 2 with
  | mk d5 two =>
  rw [e5] at h5 hr5
  simp only at h5 hr5
  have h15 := h13.trans (h4.trans h5)
  obtain ⟨h6, hr6⟩ : d5.Yields L.head (d5.binary .iadd L.index two) .i64 :=
    h5.isOpen.binary rfl (h15.has hidx) hr5
  cases e6 : d5.binary .iadd (L.frame saved).index two with
  | mk d6 index' =>
  rw [show (L.index : Int) = (L.frame saved).index from rfl, e6] at h6 hr6
  simp only at h6 hr6
  have h16 := h15.trans h6
  obtain ⟨h7, hr7⟩ := h6.isOpen.icmp .ult (t := .i64) rfl hr6 (h16.has hbnd)
  cases e7 : d6.icmp IntCond.ult.code index' (L.frame saved).bound with
  | mk d7 more' =>
  rw [show (L.bound : Int) = (L.frame saved).bound from rfl, e7] at h7 hr7
  simp only at h7 hr7
  have hblock : closeBlock d (L.frame saved) out = (d7, moved, result', index', more') := by
    simp only [closeBlock, e1, e2, e3, e4, e5, e6, e7]
  cases hblock.symm.trans e
  have h37 := h4.trans (h5.trans (h6.trans h7))
  have h17 := h16.trans h7
  have hmoved : d'.Has pointers (List.replicate L.arrays.length .pointer) := by
    have hlen : (L.frame saved).pointers.length = L.arrays.length :=
      (List.length_map _).trans L.length_pointers
    rw [hlen] at hr3
    exact h37.has hr3
  have hback := (hmoved.append ((h5.trans (h6.trans h7)).has hr4)).append (h17.has hspr)
  exact ⟨h17, hr7, hback.append ((h7.has hr6).cons (h17.has hbnd))⟩

theorem Builder.leaveLoop_ready {b : Builder} (hb : b.Healthy) (L : LoopLayout)
    (saved : List (Int × Int)) (h : b.draft.Open L.head)
    (hp : b.draft.body.fn.HasTypes L.params L.paramTypes)
    (ht : b.draft.body.Takes L.head L.paramTypes) (hx : b.draft.body.Takes (L.head + 1) [])
    {out : Int} {t : Ty} (ho : b.draft.Has [out] [t]) (hv : t.isVector = true) :
    (b.leaveLoop (L.frame saved) out).Healthy ∧
      (b.leaveLoop (L.frame saved) out).draft.Open (L.head + 1) := by
  obtain ⟨n, rfl, hn⟩ := Draft.Has.one_iff.mp ho
  -- the type of the result is one that a loop can store
  have htype : b.draft.typeOf n = .f64x2 ∨ b.draft.typeOf n = .i64x2 := by
    rw [Draft.typeOf, Func.typeOf_eq hn]
    cases t with
    | f64x2 => exact .inl rfl
    | i64x2 => exact .inr rfl
    | _ => cases hv
  cases e1 : closeBlock b.draft (L.frame saved) n with
  | mk d1 rest =>
  obtain ⟨pointers, result, index, more⟩ := rest
  obtain ⟨h1, hmore, hargs⟩ := closeBlock_ready L saved h hp ho e1
  obtain ⟨h2, -, ht2⟩ := h1.isOpen.brif (t := .i8) rfl hmore (h1.takes _ _ ht) hargs
    (h1.takes _ _ hx) Draft.Has.nil
  have hne : L.head + 1 ≠ L.head := Nat.succ_ne_self _
  have hx2 := ht2 _ _ hne (h1.takes _ _ hx)
  cases e2 : d1.brif more (L.frame saved).block (pointers ++ [result] ++ (L.frame saved).scalars ++
      [index, (L.frame saved).bound]) (L.frame saved).exit [] with
  | mk d2 u2 =>
  rw [show (L.head : Int) = (L.frame saved).block from rfl,
    show ((L.head + 1 : Nat) : Int) = (L.frame saved).exit from rfl, e2] at h2 hx2
  simp only at h2 hx2
  have hhead : L.head < d2.body.fn.blocks.size := Nat.lt_of_succ_lt hx2.lt
  obtain ⟨h3, ht3⟩ := h2.sealBlock hhead
  obtain ⟨h4, -, ht4⟩ := h3.switchTo (ht3 _ _ hne hx2)
  have h5 := h4.sealBlock (ht4 _ _ (ht3 _ _ hne hx2)).lt
  have e : closeLoop b.draft (L.frame saved) n =
      ((((d2.sealBlock L.head).1.switchTo (L.head + 1 : Nat)).1.sealBlock (L.head + 1 : Nat)).1) := by
    simp only [closeLoop_eq, e1, e2]
    rfl
  have hleave : b.leaveLoop (L.frame saved) n =
      { b with draft := closeLoop b.draft (L.frame saved) n, columns := saved, lanes := 1 } := by
    let b0 : Builder := { b with lanes := 1, columns := (L.frame saved).saved }
    have h0 : b0.Healthy := ⟨hb.fault, hb.draft⟩
    have hf0 : b0.sync.fault = none := by rw [h0.sync]; exact hb.fault
    have hc : Builder.Healthy { b0 with draft := closeLoop b.draft (L.frame saved) n } := by
      refine ⟨hb.fault, ?_⟩
      show (closeLoop b.draft (L.frame saved) n).fault = none
      rw [e]
      exact h5.fault
    have hno : ¬ (b0.draft.typeOf n ≠ .f64x2 ∧ b0.draft.typeOf n ≠ .i64x2) :=
      fun hne => htype.elim hne.1 hne.2
    have hstep : b.leaveLoop (L.frame saved) n =
        if b0.draft.typeOf n ≠ .f64x2 ∧ b0.draft.typeOf n ≠ .i64x2 then
          b0.fail (.loop (.body (b0.draft.typeOf n)))
        else Builder.sync { b0 with draft := closeLoop b0.draft (L.frame saved) n } := by
      have hs : b0.sync = b0 := h0.sync
      rw [Builder.leaveLoop, hf0, hs, h0.fault]
    rw [hstep, if_neg hno]
    exact hc.sync
  rw [hleave, e]
  exact ⟨⟨hb.fault, h5.fault⟩, h5⟩

end Emit

end TreeJit
