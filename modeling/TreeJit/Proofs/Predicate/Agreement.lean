import TreeJit.Host.Linux
import TreeJit.Predicate.Evaluate
import TreeJit.Proofs.Host.Calling
import TreeJit.Proofs.Predicate.Compile

/-!
# Predicates agree with their trees

Running a compiled predicate gives what evaluating its tree gives: on a single row, and on every
row of a batch, whose pairs of rows are worked by the vector function and whose last row, if their
number is odd, by the row function.

* `runRow_eq`            the row function on cells;
* `IsRow`                the row that a batch spells at a position;
* `runVector_eq`         the vector function on pairs of rows;
* `compile_agrees`       both together, for every predicate that was compiled.
-/

namespace TreeJit.Predicate

open SSA Emit Host Host.Module

/-! ## cells in memory -/

theorem length_cellBytes (cells : List UInt64) : (cellBytes cells).length = 8 * cells.length := by
  induction cells with
  | nil => rfl
  | cons x cells ih =>
    show (littleEndian 8 x.toNat ++ cellBytes cells).length = _
    rw [List.length_append, length_littleEndian, ih, List.length_cons]
    omega

theorem cellsAt_of_bytes {m : Memory} {p : UInt64} {cells : List UInt64}
    (h : m.bytes (8 * cells.length) p = cellBytes cells) : CellsAt m p cells := by
  induction cells generalizing p with
  | nil => exact fun c x hx => by simp at hx
  | cons x cells ih =>
    have e : 8 * (x :: cells).length = 8 + 8 * cells.length := by
      rw [List.length_cons]
      omega
    rw [e, Memory.bytes_append] at h
    obtain ⟨h1, h2⟩ := List.append_inj h (by rw [Memory.length_bytes, length_littleEndian])
    intro c y hy
    cases c with
    | zero =>
      cases hy
      have ep : p + UInt64.ofNat (8 * 0) = p := UInt64.add_zero p
      rw [ep, readVal_scalar _ _ rfl]
      show Val.mk (UInt64.ofNat (ofLittleEndian (m.bytes 8 p))) 0 = _
      rw [h1, ofLittleEndian_littleEndian, SSA.ofNat_toNat_mod]
    | succ c =>
      have ep : p + UInt64.ofNat (8 * (c + 1)) = p + UInt64.ofNat 8 + UInt64.ofNat (8 * c) := by
        rw [UInt64.add_assoc, ← UInt64.ofNat_add, Nat.mul_succ, Nat.add_comm]
      rw [ep]
      exact ih h2 c y hy

theorem toNat_ofInt32 (x : Int32) :
    x.toInt64.toUInt64.toNat < 2 ^ 31 ∨ 2 ^ 64 - 2 ^ 31 ≤ x.toInt64.toUInt64.toNat := by
  have h1 := x.le_toInt
  have h2 := x.toInt_lt
  have h3 : x.toInt64.toInt = x.toInt := Int32.toInt_toInt64 x
  have h4 : x.toInt64.toInt = x.toInt64.toUInt64.toBitVec.toInt := rfl
  rw [BitVec.toInt_eq_toNat_cond] at h4
  have h5 : x.toInt64.toUInt64.toBitVec.toNat = x.toInt64.toUInt64.toNat := rfl
  have h6 := x.toInt64.toUInt64.toNat_lt
  rw [h5] at h4
  split at h4
  · omega
  · omega

/-- the frame of a function lies below the buffers -/
theorem slotAddr_apart (f : Func) (slot : Nat) (off : Int32) {p n : Nat} (hp : heapStart ≤ p)
    (hn : p + n < 2 ^ 64) :
    Memory.Apart ((f.activation stackTop).slotAddr slot off) 8 (UInt64.ofNat p) n := by
  have e : (UInt64.ofNat p).toNat = p := UInt64.toNat_ofNat_of_lt' (by
    show p < 2 ^ 64
    omega)
  have hs : ((f.activation stackTop).slotAddr slot off).toNat < 2 ^ 47 + 2 ^ 32 := by
    show (stackTop - (f.frame 0).size.toInt64.toUInt64 +
      ((f.frame 0).slot slot + off).toInt64.toUInt64).toNat < _
    have h1 := toNat_ofInt32 (f.frame 0).size
    have h2 := toNat_ofInt32 ((f.frame 0).slot slot + off)
    have h3 := (f.frame 0).size.toInt64.toUInt64.toNat_lt
    have h4 := ((f.frame 0).slot slot + off).toInt64.toUInt64.toNat_lt
    have h5 : stackTop.toNat = 0x7FFFFFFFF000 := rfl
    rw [UInt64.toNat_add, UInt64.toNat_sub, h5]
    omega
  unfold heapStart at hp
  apply Memory.apart_of_le
  · rw [e]
    omega
  · rw [e]
    omega
  · rw [e]
    omega

/-! ## one row -/

theorem plain_i64 : Plain .i64 := ⟨rfl, rfl⟩

theorem lo_keep_ofBool (b : Bool) : (decide ((Val.keep .i8 (.ofBool b)).lo ≠ 0)) = b := by
  cases b <;> rfl

/-- what a predicate needs to run -/
structure Ready [Platform] (m : Host.Module) : Prop where
  opened : m.closed = false
  sound : m.Sound
  imports : HoldBuiltins m.imports

/-- **The row function says of cells whether the tree is true of them.** -/
theorem runRow_eq [Platform] (h : Machinery) {m : Host.Module} (hm : Ready m) {t : Tree}
    (hk : t.kind = .bool) {scalars : List Int} {p : Predicate} (hp : Placed m t scalars p)
    {cells : List UInt64} (hw : t.numColumns.toInt ≤ cells.length) (hlen : cells.length < 2 ^ 45)
    (hfuel : 0 < h.fuel) :
    runRow h m p cells = some (decide (t.eval h.float cells ≠ 0)) := by
  obtain ⟨n, name, f, hid, hf, hrow⟩ := hp.row
  have hsig := hrow.sig
  obtain ⟨w, hN, hfl, hcall⟩ := hf.call h hm.opened hm.sound hm.imports
    (by rw [hsig]; exact fun t ht => by obtain rfl := List.mem_singleton.mp ht; exact plain_i64)
    (by rw [hsig]; exact fun t ht => by obtain rfl := List.mem_singleton.mp ht; exact ⟨rfl, rfl⟩)
    (by rw [hsig]; exact Nat.le_refl 1)
  have hc := hcall [cellBytes cells] []
  -- the cells are in the one buffer, and the frame is elsewhere
  have hend : heapStart + (cellBytes cells).length < 2 ^ 64 := by
    rw [length_cellBytes]
    unfold heapStart
    omega
  have hbytes : (layAll {} (placements heapStart [cellBytes cells])).bytes (cellBytes cells).length
      (UInt64.ofNat heapStart) = cellBytes cells :=
    bytes_layAll (p := (heapStart, cellBytes cells)) (pairwise_placements ..)
      (fun q hq => by obtain rfl := List.mem_singleton.mp hq; exact hend) List.mem_cons_self
  have hcells : CellsAt (layAll {} (placements heapStart [cellBytes cells]))
      (UInt64.ofNat heapStart) cells := by
    apply cellsAt_of_bytes
    rw [← length_cellBytes]
    exact hbytes
  have hap : Memory.Apart ((f.activation stackTop).slotAddr 0 0) 8 (UInt64.ofNat heapStart)
      (8 * cells.length) := by
    apply slotAddr_apart f 0 0 (Nat.le_refl _)
    rw [← length_cellBytes]
    exact hend
  obtain ⟨mem', hrun⟩ := hrow.run w (h.fuel - 1) stackTop _ cells _ hN hcells (by omega) hap
  rw [Nat.sub_add_cancel hfuel, hfl, hk] at hrun
  rw [hsig] at hc
  unfold runRow
  rw [hid]
  have hargs : ([cellBytes cells].map Arg.buffer ++ ([] : List UInt64).map Arg.word) =
      [.buffer (cellBytes cells)] := rfl
  have hvals : Val.keepAll rowSig.params (((placements heapStart [cellBytes cells]).map
      (fun q : Nat × List UInt8 => UInt64.ofNat q.1) ++ []).map fun x => ⟨x, 0⟩) =
      [⟨UInt64.ofNat heapStart, 0⟩] := rfl
  rw [hargs, hvals, hrun] at hc
  rw [hc]
  exact congrArg some (lo_keep_ofBool _)

/-! ## batches -/

theorem commonLength_ok {b : Batch} {o : Option Nat} {cs : List Int} {n : Nat}
    (h : commonLength b o cs = .ok n) :
    (∀ c ∈ cs, ∃ xs, b.arrays.lookup c = some xs ∧ xs.length = n) ∧ ∀ k, o = some k → k = n := by
  induction cs generalizing o with
  | nil =>
    refine ⟨nofun, fun k hk => ?_⟩
    subst hk
    cases h
    rfl
  | cons c cs ih =>
    unfold commonLength at h
    cases hxs : b.arrays.lookup c with
    | none =>
      simp only [hxs] at h
      cases h
    | some xs =>
      -- the first column sets the length, the others must have it
      cases o with
      | none =>
        simp only [hxs] at h
        obtain ⟨h1, h2⟩ := ih h
        refine ⟨fun d hd => ?_, nofun⟩
        rcases List.mem_cons.mp hd with rfl | hd
        · exact ⟨xs, hxs, h2 _ rfl⟩
        · exact h1 d hd
      | some k =>
        simp only [hxs] at h
        split at h
        · cases h
        · rename_i hne
          obtain ⟨h1, h2⟩ := ih h
          have hk := h2 k rfl
          refine ⟨fun d hd => ?_, fun j hj => by cases hj; exact hk⟩
          rcases List.mem_cons.mp hd with rfl | hd
          · exact ⟨xs, hxs, by omega⟩
          · exact h1 d hd

theorem rows_ok {p : Predicate} {b : Batch} {n : Nat} (h : rows p b = .ok n) :
    p.arrays ≠ [] ∧ (∀ c ∈ p.arrays, ∃ xs, b.arrays.lookup c = some xs ∧ xs.length = n) ∧
      ∀ c ∈ p.scalars, ∃ x, b.scalars.lookup c = some x := by
  unfold rows at h
  split at h
  · cases h
  · rename_i hne
    split at h
    · cases h
    · rename_i k hk
      split at h
      · cases h
      · rename_i hfind
        cases h
        refine ⟨fun e => hne (by rw [e]; rfl), (commonLength_ok hk).1, fun c hc => ?_⟩
        have hs := List.find?_eq_none.mp hfind c hc
        exact Option.isSome_iff_exists.mp (by simpa using hs)

/-- the row that a batch spells at position `i`, as far as a tree can tell: element `i` of every
array column and the value of every scalar column -/
structure IsRow (t : Tree) (scalars : List Int) (b : Batch) (i : Nat) (row : List UInt64) : Prop where
  array : ∀ c ∈ t.columns, c.toInt ∉ scalars → ∃ xs x, b.arrays.lookup c.toInt = some xs ∧
    xs[i]? = some x ∧ row[c.toInt.toNat]? = some x
  scalar : ∀ c ∈ t.columns, c.toInt ∈ scalars → ∃ x, b.scalars.lookup c.toInt = some x ∧
    row[c.toInt.toNat]? = some x

theorem isRow_batchRow [Platform] {m : Host.Module} {t : Tree} (ht : t.check = .ok ())
    {scalars : List Int} {p : Predicate} (hp : Placed m t scalars p)
    (hw : ∀ c ∈ t.columns, c.toInt < t.numColumns.toInt) {b : Batch} {n i : Nat}
    (hr : rows p b = .ok n) (hi : i < n) : IsRow t scalars b i (batchRow p b i) := by
  obtain ⟨-, harr, hsca⟩ := rows_ok hr
  have hplace : ∀ c ∈ t.columns, ((c.toInt.toNat : Nat) : Int) = c.toInt ∧
      (batchRow p b i)[c.toInt.toNat]? = some (if p.arrays.contains c.toInt then
        ((b.arrays.lookup c.toInt).getD [])[i]?.getD 0 else (b.scalars.lookup c.toInt).getD 0) := by
    intro c hc
    have h0 : 0 ≤ c.toInt := Int64.le_iff_toInt_le.mp (columns_nonneg ht c hc)
    have h1 := hw c hc
    have e : ((c.toInt.toNat : Nat) : Int) = c.toInt := Int.toNat_of_nonneg h0
    refine ⟨e, ?_⟩
    have hlt : c.toInt.toNat < max p.width.toInt.toNat 1 := by
      rw [hp.width]
      omega
    unfold batchRow
    rw [List.getElem?_map, List.getElem?_range hlt, Option.map_some, e]
  refine ⟨fun c hc hns => ?_, fun c hc hs => ?_⟩
  · have hmem : c.toInt ∈ p.arrays := (hp.arrays _).mpr ⟨List.mem_map_of_mem hc, hns⟩
    obtain ⟨xs, hxs, hlen⟩ := harr _ hmem
    have hlt : i < xs.length := by omega
    have hx : xs[i]? = some xs[i] := List.getElem?_eq_getElem hlt
    refine ⟨xs, _, hxs, hx, ?_⟩
    rw [(hplace c hc).2, if_pos (by simpa using hmem), hxs, Option.getD_some, hx, Option.getD_some]
  · have hmem : c.toInt ∈ p.scalars := (hp.scalars _).mpr ⟨List.mem_map_of_mem hc, hs⟩
    obtain ⟨x, hx⟩ := hsca _ hmem
    have hnot : c.toInt ∉ p.arrays := fun h => ((hp.arrays _).mp h).2 hs
    refine ⟨x, hx, ?_⟩
    rw [(hplace c hc).2, if_neg (by simpa using hnot), hx, Option.getD_some]

/-- the tree has one value on all such rows -/
theorem IsRow.eval_eq {t : Tree} (ht : t.check = .ok ()) {scalars : List Int} {b : Batch} {i : Nat}
    {row row' : List UInt64} (h : IsRow t scalars b i row) (h' : IsRow t scalars b i row')
    (F : FloatOps) : t.eval F row = t.eval F row' := by
  apply Tree.eval_congr
  intro c hc
  rw [cell_of_nonneg (columns_nonneg ht c hc), cell_of_nonneg (columns_nonneg ht c hc)]
  by_cases hs : c.toInt ∈ scalars
  · obtain ⟨x, hx, hrow⟩ := h.scalar c hc hs
    obtain ⟨y, hy, hrow'⟩ := h'.scalar c hc hs
    rw [hrow, hrow', Option.some.inj (hx.symm.trans hy)]
  · obtain ⟨xs, x, hxs, hx, hrow⟩ := h.array c hc hs
    obtain ⟨ys, y, hys, hy, hrow'⟩ := h'.array c hc hs
    obtain rfl := Option.some.inj (hxs.symm.trans hys)
    rw [hrow, hrow', Option.some.inj (hx.symm.trans hy)]

/-! ## the vector function on a batch -/

theorem wordsOf_pairs (g : Nat → Val) (js : List Nat) :
    wordsOf (2 * js.length) (js.flatMap fun j => valBytes (g j)) =
      js.flatMap fun j => [(g j).lo.toNat, (g j).hi.toNat] := by
  induction js with
  | nil => rfl
  | cons j js ih =>
    have hword : ∀ x : UInt64, ofLittleEndian (littleEndian 8 x.toNat) = x.toNat := by
      intro x
      rw [ofLittleEndian_littleEndian, Nat.mod_eq_of_lt]
      exact x.toNat_lt
    rw [List.flatMap_cons, List.flatMap_cons, List.length_cons, Nat.mul_succ, valBytes,
      List.append_assoc, wordsOf, wordsOf]
    rw [List.take_left' (length_littleEndian ..), List.drop_left' (length_littleEndian ..),
      List.take_left' (length_littleEndian ..), List.drop_left' (length_littleEndian ..), ih, hword,
      hword]
    rfl

theorem flatMap_pairs {α : Type} (g : Nat → α) (n : Nat) :
    ((List.range n).flatMap fun j => [g (2 * j), g (2 * j + 1)]) = (List.range (2 * n)).map g := by
  induction n with
  | zero => rfl
  | succ n ih =>
    rw [List.range_succ, List.flatMap_append, ih, Nat.mul_succ, List.range_succ, List.range_succ]
    simp

theorem laneMask_toNat_ne (b : Bool) : decide ((laneMask b).toNat ≠ 0) = b := by
  cases b <;> rfl

theorem arrays_le {machine : Machine} {arrays scalars : List Int} {locs : List RegLoc}
    (h : passing (Compile.paramLimits machine) (vectorSig arrays scalars).params = .ok locs) :
    arrays.length ≤ 6 := by
  obtain ⟨hints, hfloats⟩ := Compile.paramLimits_nonneg machine
  have hc := (count_of_passingFrom h hints hfloats).1
  have h8 : (Compile.paramLimits machine).ints ≤ 8 := by cases machine <;> decide
  have hp : Ty.isInt .pointer = true := rfl
  have hcount : (vectorSig arrays scalars).params.countP Ty.isInt = arrays.length + 2 := by
    unfold vectorSig
    rw [List.countP_append, List.countP_append, List.countP_replicate, if_pos hp, List.countP_map]
    have hz : scalars.countP (Ty.isInt ∘ fun _ => Ty.f64) = 0 :=
      List.countP_eq_zero.mpr fun _ _ => Bool.false_ne_true
    rw [hz]
    rfl
  rw [hcount] at hc
  omega

def columnBytes (p : Predicate) (b : Batch) : List (List UInt8) :=
  p.arrays.map fun c => cellBytes ((b.arrays.lookup c).getD [])

def maskBytes (n : Nat) : List UInt8 := List.replicate (8 * n) 0

def columnPointers (p : Predicate) (b : Batch) : List UInt64 :=
  (placements heapStart (columnBytes p b)).map fun q => UInt64.ofNat q.1

theorem length_columnPointers (p : Predicate) (b : Batch) :
    (columnPointers p b).length = p.arrays.length := by
  simp [columnPointers, columnBytes]

def scalarWords (p : Predicate) (b : Batch) : List UInt64 :=
  p.scalars.map fun c => (b.scalars.lookup c).getD 0

theorem length_scalarWords (p : Predicate) (b : Batch) :
    (scalarWords p b).length = p.scalars.length := List.length_map ..

theorem holdsRows_of_bytes [Platform] {m : Host.Module} {t : Tree} {scalars : List Int}
    {p : Predicate} (hp : Placed m t scalars p) {b : Batch} {n : Nat} (hr : rows p b = .ok n)
    {R : Nat → List UInt64} (hR : ∀ i < n, IsRow t scalars b i (R i)) {mem : Memory}
    (hmem : ∀ q ∈ placements heapStart (columnBytes p b),
      mem.bytes q.2.length (UInt64.ofNat q.1) = q.2) :
    HoldsRows mem p.arrays p.scalars (columnPointers p b) (scalarWords p b) R n := by
  obtain ⟨-, harr, hsca⟩ := rows_ok hr
  refine ⟨fun i c a j hc ha hj => ?_, fun i c x j hc hx hj => ?_⟩
  · rw [columnPointers, List.getElem?_map] at ha
    obtain ⟨q, hq, rfl⟩ := Option.map_eq_some_iff.mp ha
    have hmem' := List.mem_of_getElem? hc
    obtain ⟨xs, hxs, hlen⟩ := harr c hmem'
    obtain ⟨hcol, hns⟩ := (hp.arrays c).mp hmem'
    obtain ⟨d, hd, rfl⟩ := List.mem_map.mp hcol
    have hq2 : q.2 = cellBytes xs := by
      have h := getElem?_placements hq
      unfold columnBytes at h
      rw [List.getElem?_map, hc, Option.map_some, hxs] at h
      exact (Option.some.inj h).symm
    have hcells : CellsAt mem (UInt64.ofNat q.1) xs := by
      apply cellsAt_of_bytes
      rw [← length_cellBytes, ← hq2]
      exact hmem q (List.mem_of_getElem? hq)
    obtain ⟨ys, y, hys, hy, hrow⟩ := (hR j hj).array d hd hns
    obtain rfl := Option.some.inj (hxs.symm.trans hys)
    rw [hcells j y hy, hrow, Option.getD_some]
  · rw [scalarWords, List.getElem?_map, hc, Option.map_some] at hx
    obtain ⟨hcol, hs⟩ := (hp.scalars c).mp (List.mem_of_getElem? hc)
    obtain ⟨d, hd, rfl⟩ := List.mem_map.mp hcol
    obtain ⟨y, hy, hrow⟩ := (hR j hj).scalar d hd hs
    rw [hy] at hx
    rw [hrow, Option.getD_some]
    exact Option.some.inj hx

theorem HoldsRows.mono {m : Memory} {arrays scalars : List Int} {ptrs words : List UInt64}
    {R : Nat → List UInt64} {n k : Nat} (h : HoldsRows m arrays scalars ptrs words R n)
    (hk : k ≤ n) : HoldsRows m arrays scalars ptrs words R k :=
  ⟨fun i c p j hc hp hj => h.arrays i c p j hc hp (by omega),
    fun i c x j hc hx hj => h.scalars i c x j hc hx (by omega)⟩

theorem batch_memory {p : Predicate} {b : Batch} {n k : Nat} (hn : n < 2 ^ 45) (hk : 2 * k ≤ n)
    (h6 : p.arrays.length ≤ 6)
    (harr : ∀ c ∈ p.arrays, ∃ xs, b.arrays.lookup c = some xs ∧ xs.length = n) :
    ∃ r, placements heapStart (columnBytes p b ++ [maskBytes (2 * k)]) =
        placements heapStart (columnBytes p b) ++ [(r, maskBytes (2 * k))] ∧
      (∀ q ∈ placements heapStart (columnBytes p b),
        (layAll {} (placements heapStart (columnBytes p b) ++ [(r, maskBytes (2 * k))])).bytes
          q.2.length (UInt64.ofNat q.1) = q.2) ∧
      ∀ q ∈ placements heapStart (columnBytes p b),
        Memory.Apart (UInt64.ofNat r) (16 * k) (UInt64.ofNat q.1) (16 * k) := by
  have hlenc : ∀ bs ∈ columnBytes p b, bs.length = 8 * n := by
    intro bs hbs
    obtain ⟨c, hc, rfl⟩ := List.mem_map.mp hbs
    obtain ⟨xs, hxs, hlen⟩ := harr c hc
    rw [length_cellBytes, hxs, Option.getD_some, hlen]
  have hlenm : (maskBytes (2 * k)).length = 16 * k := by
    rw [maskBytes, List.length_replicate]
    omega
  have hlen : ∀ bs ∈ columnBytes p b ++ [maskBytes (2 * k)], bs.length ≤ 8 * n := by
    intro bs hbs
    rcases List.mem_append.mp hbs with hbs | hbs
    · exact Nat.le_of_eq (hlenc bs hbs)
    · obtain rfl := List.mem_singleton.mp hbs
      omega
  have hcount : (columnBytes p b ++ [maskBytes (2 * k)]).length ≤ 7 := by
    rw [List.length_append, columnBytes, List.length_map, List.length_singleton]
    omega
  have hend : ∀ q ∈ placements heapStart (columnBytes p b ++ [maskBytes (2 * k)]),
      q.1 + q.2.length < 2 ^ 64 := by
    intro q hq
    have h1 := end_of_mem_placements hlen hq
    have h2 := Nat.mul_le_mul_right (8 * n + 2 * pageSize) hcount
    unfold heapStart at h1
    unfold pageSize at h1 h2
    omega
  have hpair := pairwise_placements heapStart (columnBytes p b ++ [maskBytes (2 * k)])
  obtain ⟨r, hps⟩ := placements_concat heapStart (columnBytes p b) (maskBytes (2 * k))
  rw [hps] at hend hpair
  refine ⟨r, hps, fun q hq => bytes_layAll hpair hend (List.mem_append_left _ hq), fun q hq => ?_⟩
  have hlt := (List.pairwise_append.mp hpair).2.2 q hq _ List.mem_cons_self
  have hap := apart_of_placements hlt (hend _ (List.mem_append_right _ List.mem_cons_self))
  have hqlen : q.2.length = 8 * n := by
    obtain ⟨i, hi⟩ := List.mem_iff_getElem?.mp hq
    exact hlenc _ (List.mem_of_getElem? (getElem?_placements hi))
  rw [hlenm, hqlen] at hap
  exact hap.symm.mono (Nat.le_refl _) (by omega)

theorem vectorSig_params {arrays scalars : List Int} :
    ∀ t ∈ (vectorSig arrays scalars).params, t = .i64 ∨ t = .f64 := by
  intro t ht
  unfold vectorSig at ht
  simp only [List.mem_append, List.mem_replicate, List.mem_singleton, List.mem_map] at ht
  rcases ht with (⟨-, rfl⟩ | rfl) | ⟨_, -, rfl⟩
  · exact .inl rfl
  · exact .inl rfl
  · exact .inr rfl

theorem wordsOf_masks (F : FloatOps) (t : Tree) (R : Nat → List UInt64) (k : Nat) :
    (wordsOf (2 * k) ((List.range k).flatMap fun j => valBytes (maskPair F t R j))).map
        (fun x => decide (x ≠ 0)) =
      (List.range (2 * k)).map fun i => decide (t.eval F (R i) ≠ 0) := by
  have h := wordsOf_pairs (maskPair F t R) (List.range k)
  rw [List.length_range] at h
  rw [h, List.map_flatMap, ← flatMap_pairs]
  refine congrArg (fun g => (List.range k).flatMap g) (funext fun j => ?_)
  rw [List.map_cons, List.map_cons, List.map_nil, maskPair, laneMask_toNat_ne, laneMask_toNat_ne]

theorem vector_args (p : Predicate) (b : Batch) (n : Nat) :
    p.arrays.map (fun c => Arg.buffer (cellBytes ((b.arrays.lookup c).getD []))) ++
        [.buffer (List.replicate (8 * n) 0), .word (UInt64.ofNat n)] ++
        p.scalars.map (fun c => Arg.word ((b.scalars.lookup c).getD 0)) =
      (columnBytes p b ++ [maskBytes n]).map .buffer ++
        (UInt64.ofNat n :: scalarWords p b).map .word := by
  simp [columnBytes, maskBytes, scalarWords, Function.comp_def]

theorem vector_vals (p : Predicate) (b : Batch) (r n : Nat) :
    Val.keepAll (vectorSig p.arrays p.scalars).params
      (((placements heapStart (columnBytes p b) ++ [(r, maskBytes n)]).map
        (fun q => UInt64.ofNat q.1) ++ UInt64.ofNat n :: scalarWords p b).map fun x => ⟨x, 0⟩) =
      (columnPointers p b ++ [UInt64.ofNat r, UInt64.ofNat n] ++ scalarWords p b).map
        fun x => ⟨x, 0⟩ := by
  have e : (placements heapStart (columnBytes p b) ++ [(r, maskBytes n)]).map
      (fun q => UInt64.ofNat q.1) ++ UInt64.ofNat n :: scalarWords p b =
      columnPointers p b ++ [UInt64.ofNat r, UInt64.ofNat n] ++ scalarWords p b := by
    simp [columnPointers]
  rw [e]
  refine keepAll_words vectorSig_params ?_
  rw [length_vectorSig, List.length_append, List.length_append, length_columnPointers,
    length_scalarWords]
  rfl

theorem mask_buffer (p : Predicate) (b : Batch) (r n : Nat) (mem : Memory) :
    ((placements heapStart (columnBytes p b) ++ [(r, maskBytes n)]).map fun q =>
      mem.bytes q.2.length (UInt64.ofNat q.1))[p.arrays.length]? =
      some (mem.bytes (8 * n) (UInt64.ofNat r)) := by
  rw [List.map_append, List.getElem?_append_right (by simp [columnBytes])]
  simp [columnBytes, maskBytes]

/-- **The vector function says of each row whether the tree is true of it.** -/
theorem runVector_eq [Platform] (h : Machinery) {m : Host.Module} (hm : Ready m) {t : Tree}
    {scalars : List Int} {p : Predicate} (hp : Placed m t scalars p) {b : Batch} {n : Nat}
    (hr : rows p b = .ok n) (hn : n < 2 ^ 45) (hfuel : n / 2 + 2 ≤ h.fuel) {R : Nat → List UInt64}
    (hR : ∀ i < n, IsRow t scalars b i (R i)) :
    runVector h m p b (2 * (n / 2)) =
      some ((List.range (2 * (n / 2))).map fun i => decide (t.eval h.float (R i) ≠ 0)) := by
  by_cases h0 : 2 * (n / 2) = 0
  · rw [runVector, if_pos h0, h0]
    rfl
  obtain ⟨hne, harr, -⟩ := rows_ok hr
  obtain ⟨c, id, name, f, hv, hid, hf, hvec⟩ := hp.vector hne
  have hsig := hvec.sig
  obtain ⟨locs, hpass⟩ := hf.passing
  rw [hsig] at hpass
  have hplain : ∀ t ∈ f.sig.params, Host.Plain t := by
    rw [hsig]
    intro t ht
    rcases vectorSig_params t ht with rfl | rfl <;> exact ⟨rfl, rfl⟩
  obtain ⟨w, hN, hfl, hcall⟩ := hf.call h hm.opened hm.sound hm.imports hplain
    (by rw [hsig]; exact nofun) (by rw [hsig]; exact Nat.zero_le 1)
  obtain ⟨r, hps, hbytes, hap⟩ := batch_memory (k := n / 2) hn (by omega) (arrays_le hpass) harr
  have hc := hcall (columnBytes p b ++ [maskBytes (2 * (n / 2))])
    (UInt64.ofNat (2 * (n / 2)) :: scalarWords p b)
  rw [hps, hsig, vector_vals] at hc
  -- the function on the columns where the call puts them
  have hrows := HoldsRows.mono (holdsRows_of_bytes hp hr hR hbytes) (show 2 * (n / 2) ≤ n by omega)
  obtain ⟨mem', hrun, hmasks⟩ := hvec.run w (h.fuel - (n / 2 + 2)) (n / 2) stackTop (UInt64.ofNat r)
    (columnPointers p b) (scalarWords p b) _ R hN (length_columnPointers p b) (length_scalarWords p b)
    (by omega) (fun a ha => by
      obtain ⟨q, hq, rfl⟩ := List.mem_map.mp ha
      exact hap q hq) hrows
  have efuel : h.fuel - (n / 2 + 2) + n / 2 + 2 = h.fuel := by omega
  rw [efuel] at hrun
  rw [hrun] at hc
  unfold runVector
  rw [if_neg h0, hv]
  simp only
  rw [hid, vector_args, hc]
  have hsize : 8 * (2 * (n / 2)) = 16 * (n / 2) := by omega
  simp only [List.length_map]
  rw [mask_buffer, hsize, hmasks, Option.map_some, hfl, wordsOf_masks]

/-! ## whole batches -/

theorem mapM_some {α β : Type} {f : α → Option β} {g : α → β} {xs : List α}
    (h : ∀ x ∈ xs, f x = some (g x)) : xs.mapM f = some (xs.map g) := by
  induction xs with
  | nil => rfl
  | cons x xs ih =>
    rw [List.mapM_cons, h x List.mem_cons_self, ih fun y hy => h y (List.mem_cons_of_mem _ hy)]
    rfl

/-- **A batch is evaluated row by row.** -/
theorem evaluate_eq [Platform] (h : Machinery) {m : Host.Module} (hm : Ready m) {t : Tree}
    (ht : t.check = .ok ()) (hk : t.kind = .bool) (hcol : ∀ c ∈ t.columns, c.toInt < 2 ^ 28)
    {scalars : List Int} {p : Predicate} (hp : Placed m t scalars p) {b : Batch} {n : Nat}
    (hb : ∀ s ∈ b.scalars, 0 ≤ s.1) (hr : rows p b = .ok n) (hn : n < 2 ^ 45)
    (hfuel : n / 2 + 2 ≤ h.fuel) {R : Nat → List UInt64} (hR : ∀ i < n, IsRow t scalars b i (R i)) :
    evaluate h m p b =
      .done ((List.range n).map fun i => decide (t.eval h.float (R i) ≠ 0)) := by
  have heven : n - n % 2 = 2 * (n / 2) := by omega
  obtain ⟨-, hw1, hw2⟩ := Tree.numColumns_bounds (by omega)
    (fun c hc => ⟨Int64.le_iff_toInt_le.mp (columns_nonneg ht c hc), hcol c hc⟩) (by omega)
  have hneg : (b.scalars.any fun s => decide (s.1 < 0)) = false := by
    rw [List.any_eq_false]
    intro s hs
    have := hb s hs
    simpa using this
  have htail : runTail h m p b (2 * (n / 2)) n = some ((List.range' (2 * (n / 2))
      (n - 2 * (n / 2))).map fun i => decide (t.eval h.float (R i) ≠ 0)) := by
    apply mapM_some
    intro j hj
    have hjn : j < n := by
      have := List.mem_range'_1.mp hj
      omega
    have hlen : (batchRow p b j).length = max t.numColumns.toInt.toNat 1 := by
      unfold batchRow
      rw [List.length_map, List.length_range, hp.width]
    have hrow := isRow_batchRow ht hp hw2 hr hjn
    rw [runRow_eq h hm hk hp (by omega) (by omega) (by omega), hrow.eval_eq ht (hR j hjn)]
  unfold evaluate
  rw [hr]
  simp only [heven, runVector_eq h hm hp hr hn hfuel hR, hneg, htail]
  have hall : List.range (2 * (n / 2)) ++ List.range' (2 * (n / 2)) (n - 2 * (n / 2)) =
      List.range n := by
    have happ := @List.range'_append_1 0 (2 * (n / 2)) (n - 2 * (n / 2))
    have e : 2 * (n / 2) + (n - 2 * (n / 2)) = n := by omega
    rw [Nat.zero_add, e] at happ
    rw [List.range_eq_range', List.range_eq_range', happ]
  rw [← List.map_append, hall]

/-- **Compiled predicates agree with their trees.**  A unit is built over a catalog that offers the
built-in operations and a predicate is compiled; as long as nothing closes the module, the predicate
is true of a row exactly if the tree does not evaluate to zero on it, and a batch gives one truth
value for each of its rows.  The machinery allows as many blocks as there are pairs of rows, and rows
and columns fit the address space. -/
theorem compile_agrees [Platform] {u u' v : CodeUnit} (hu : u.Reachable) {name : String} {t : Tree}
    {scalars : List Int} {p : Predicate} (hcol : ∀ c ∈ t.columns, c.toInt < 2 ^ 28)
    (hc : compile u name t scalars = (u', .done p)) (hv : CodeUnit.Steps u' v)
    (ho : v.module.closed = u'.module.closed) (h : Machinery) :
    (∀ row : List UInt64, t.numColumns.toInt ≤ row.length → row.length < 2 ^ 45 → 0 < h.fuel →
      evalRow h v.module p row = .done (decide (t.eval h.float row ≠ 0))) ∧
    ∀ (b : Batch) (n : Nat) (R : Nat → List UInt64), (∀ s ∈ b.scalars, 0 ≤ s.1) →
      rows p b = .ok n → n < 2 ^ 45 → n / 2 + 2 ≤ h.fuel → (∀ i < n, IsRow t scalars b i (R i)) →
      evaluate h v.module p b =
        .done ((List.range n).map fun i => decide (t.eval h.float (R i) ≠ 0)) := by
  obtain ⟨ht, hk, hs, hopen, hplaced⟩ := compile_done hu.sound hcol hc
  have hsound : v.Sound := (hu.sound.steps hs).steps hv
  have hm : Ready v.module := ⟨ho.trans hopen, hsound.module, hsound.imports⟩
  have hp : Placed v.module t scalars p := hplaced.steps hv.module
  refine ⟨fun row hw hlen hfuel => ?_, fun b n R hb hr hn hfuel hR =>
    evaluate_eq h hm ht hk hcol hp hb hr hn hfuel hR⟩
  unfold evalRow
  rw [hp.width, if_neg (by omega)]
  by_cases h0 : t.numColumns = 0
  · -- a tree without columns has one value; the row function is given one cell
    have hnone : ∀ c ∈ t.columns, False := by
      intro c hc
      have hnn := Int64.le_iff_toInt_le.mp (columns_nonneg ht c hc)
      have h1 := (Tree.numColumns_bounds (by omega) (fun c hc =>
        ⟨Int64.le_iff_toInt_le.mp (columns_nonneg ht c hc), hcol c hc⟩) (by omega)).2.2 c hc
      rw [h0] at h1
      have hz : (0 : Int64).toInt = 0 := rfl
      rw [hz] at h1 hnn
      omega
    have hz : t.numColumns.toInt = 0 := by
      rw [h0]
      rfl
    rw [if_pos h0, runRow_eq h hm hk hp (by rw [hz]; exact Int.zero_le_ofNat 1) (by decide) hfuel,
      Tree.eval_congr fun c hc => (hnone c hc).elim]
  · rw [if_neg h0, runRow_eq h hm hk hp hw hlen hfuel]

/-! ## an example -/

attribute [local instance] Platform.linuxX64

def freshUnit : CodeUnit where
  module := { settings := {}, imports := Catalog.builtinOps }
  catalog := ⟨Catalog.builtinOps⟩
  shared := true
  journal := [.moduleBuilt Catalog.builtinOps.length "speed"]

theorem holdsBuiltins_builtinOps : Catalog.HoldsBuiltins ⟨Catalog.builtinOps⟩ := by
  intro b
  cases b with
  | float op => cases op <;> decide +kernel
  | compare c => cases c <;> decide +kernel
  | intAdd | intSub | intMul => decide +kernel

theorem reachable_freshUnit : freshUnit.Reachable :=
  ⟨⟨Catalog.builtinOps⟩, {}, true, freshUnit, holdsBuiltins_builtinOps, rfl, .refl⟩

/-- `x < limit` -/
def belowLimit : Tree := .binary (.compare .lt) (.column 0 "x") (.column 1 "limit")

theorem columns_belowLimit : belowLimit.columns = [0, 1] := rfl

theorem sortedDistinct_belowLimit :
    sortedDistinct (belowLimit.columns.map Int64.toInt) = [0, 1] := by
  have h : (belowLimit.columns.map Int64.toInt).eraseDups = [0, 1] := by decide
  rw [sortedDistinct, h]
  exact List.mergeSort_of_pairwise (by decide)

def isMade (r : CodeUnit × Outcome Emit.Fault Compiled) : Bool :=
  match r.2 with
  | .done _ => true
  | _ => false

theorem exists_of_isMade {r : CodeUnit × Outcome Emit.Fault Compiled} (h : isMade r = true) :
    ∃ c, r = (r.1, .done c) := by
  obtain ⟨u, o⟩ := r
  cases o with
  | done c => exact ⟨c, rfl⟩
  | failed f => cases h
  | crashed => cases h

theorem compile_belowLimit : ∃ u p, compile freshUnit "below" belowLimit [1] = (u, .done p) ∧
    p.arrays = [0] ∧ p.scalars = [1] := by
  obtain ⟨row, hrow⟩ : ∃ c, makeRow freshUnit "below" belowLimit belowLimit.numColumns =
      ((makeRow freshUnit "below" belowLimit belowLimit.numColumns).1, .done c) :=
    exists_of_isMade (by decide +kernel)
  obtain ⟨vector, hvector⟩ : ∃ c, makeVector
      (makeRow freshUnit "below" belowLimit belowLimit.numColumns).1 "below" belowLimit [0] [1] =
      ((makeVector (makeRow freshUnit "below" belowLimit belowLimit.numColumns).1 "below" belowLimit
        [0] [1]).1, .done c) :=
    exists_of_isMade (by decide +kernel)
  have hcheck : check belowLimit [1] = .ok () := rfl
  have hpart : ([0, 1] : List Int).partition (fun c => [1].contains c) = ([1], [0]) := rfl
  unfold compile
  simp only [hcheck, sortedDistinct_belowLimit, hpart]
  rw [hrow]
  simp only [List.isEmpty_cons, Bool.false_eq_true, if_false]
  rw [hvector]
  exact ⟨_, _, rfl, rfl, rfl⟩

/-- three rows, the doubles 1, 3 and 2, and the limit 2.5 -/
def threeRows : Batch where
  arrays := [(0, [0x3FF0000000000000, 0x4008000000000000, 0x4000000000000000])]
  scalars := [(1, 0x4004000000000000)]

/-- an odd batch and a single row, with native operations -/
theorem compile_agrees_belowLimit :
    ∃ u p, compile freshUnit "below" belowLimit [1] = (u, .done p) ∧
      evalRow .host u.module p [0x3FF0000000000000, 0x4004000000000000] =
        .done (decide (belowLimit.eval .host [0x3FF0000000000000, 0x4004000000000000] ≠ 0)) ∧
      evaluate .host u.module p threeRows = .done ((List.range 3).map fun i =>
        decide (belowLimit.eval .host (batchRow p threeRows i) ≠ 0)) := by
  obtain ⟨u, p, hc, ha, hs⟩ := compile_belowLimit
  have hcol : ∀ c ∈ belowLimit.columns, c.toInt < 2 ^ 28 := by
    rw [columns_belowLimit]
    simp
  obtain ⟨hrow, hbatch⟩ := compile_agrees reachable_freshUnit hcol hc .refl rfl .host
  have hrows : rows p threeRows = .ok 3 := by
    unfold rows
    rw [ha, hs]
    rfl
  obtain ⟨ht, -, -, -, hp⟩ := compile_done reachable_freshUnit.sound hcol hc
  have hbelow : ∀ c ∈ belowLimit.columns, c.toInt < belowLimit.numColumns.toInt := by
    rw [columns_belowLimit, List.forall_mem_cons, List.forall_mem_singleton]
    decide
  exact ⟨u, p, hc, hrow _ (by decide) (by decide) (by decide),
    hbatch threeRows 3 (batchRow p threeRows) (by decide) hrows (by decide) (by decide)
      fun i hi => isRow_batchRow ht hp hbelow hrows hi⟩

end TreeJit.Predicate
