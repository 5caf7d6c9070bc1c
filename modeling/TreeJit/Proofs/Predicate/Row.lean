import TreeJit.Predicate.Basic
import TreeJit.Proofs.Emit.Reference
import TreeJit.Proofs.Tree.Emit
import TreeJit.Proofs.Word.Memory

/-!
# The row function

The row function keeps its pointer in the scratch frame, loads every cell through it and computes
the tree on the cells.

* `CellsAt m p cells`     the memory holds the cells of a row from an address on;
* `bindCells_sound`       every column is bound to the cell of its number;
* `Predicate.rowBody_sound`   the steps of the function;
* `RowFunction.run`       running it on a row gives the truth value of the tree.
-/

namespace TreeJit

open SSA Emit

def CellsAt (m : Memory) (p : UInt64) (cells : List UInt64) : Prop :=
  ∀ (c : Nat) (x : UInt64), cells[c]? = some x →
    readVal m .f64 (p + UInt64.ofNat (8 * c)) = ⟨x, 0⟩

theorem addressOf_element {c : Nat} (h : c < 2 ^ 28) (p : UInt64) :
    addressOf p (Builder.elementOffset (Int64.ofNat c) .f64) = p + UInt64.ofNat (8 * c) := by
  have e : (Builder.elementOffset (Int64.ofNat c) .f64).toInt64 = Int64.ofNat (8 * c) := by
    apply Int64.toInt_inj.mp
    have h1 : (Int64.ofNat c).toInt = c := Int64.toInt_ofNat_of_lt (by omega)
    have h2 : (Int64.ofNat (8 * c)).toInt = (8 * c : Nat) := Int64.toInt_ofNat_of_lt (by omega)
    have h3 : (Int64.ofNat Ty.f64.bytes).toInt = 8 := rfl
    rw [Int32.toInt_toInt64, Builder.elementOffset, Int64.toInt_toInt32, Int64.toInt_mul, h1, h2, h3,
      Int.bmod_eq_of_le (m := 2 ^ 64) (by omega) (by omega),
      Int.bmod_eq_of_le (m := 2 ^ 32) (by omega) (by omega)]
    omega
  rw [addressOf, e]
  rfl

/-! ## columns -/

def FloatColumns (cols : List (Int × Int)) (f : Func) : Prop :=
  ∀ i v, cols.lookup i = some v → ∃ n : ValueNo, v = n ∧ f.values[n]? = some .f64

def HoldCells (cols : List (Int × Int)) (st : State) (cells : List UInt64) : Prop :=
  ∀ i (n : ValueNo), cols.lookup i = some (n : Int) →
    st.get n = ⟨(cells[i.toNat]?).getD nanBits, 0⟩

theorem floatColumns_nil (f : Func) : FloatColumns [] f := nofun

theorem holdCells_nil (st : State) (cells : List UInt64) : HoldCells [] st cells := nofun

theorem FloatColumns.mono {cols : List (Int × Int)} {b b' : Body} {ss : List Step}
    (h : FloatColumns cols b.fn) (hw : b.Writes b' ss) : FloatColumns cols b'.fn := by
  intro i v hv
  obtain ⟨n, hn, ht⟩ := h i v hv
  exact ⟨n, hn, hw.values_get ht⟩

theorem HoldCells.keeps {cols : List (Int × Int)} {b : Body} {st st' : State} {cells : List UInt64}
    (h : HoldCells cols st cells) (hf : FloatColumns cols b.fn)
    (hk : st.Keeps b.fn.values.size st') : HoldCells cols st' cells := by
  intro i n hn
  obtain ⟨k, hk', ht⟩ := hf i n hn
  obtain rfl := Int.ofNat.inj hk'
  rw [hk.get n (Array.getElem?_eq_some_iff.mp ht).1]
  exact h i n hn

theorem lookup_cons_iff {cols : List (Int × Int)} {c i v u : Int} :
    ((c, v) :: cols).lookup i = some u ↔ (i = c ∧ u = v) ∨ (i ≠ c ∧ cols.lookup i = some u) := by
  rw [List.lookup_cons]
  by_cases h : i = c
  · simp [h, eq_comm]
  · have hb : (i == c) = false := by simpa using h
    simp [hb, h]

/-- the row pointer is kept in slot 0, at its start -/
def RowSlot (b : Builder) : Prop :=
  ∃ s : Scratch, b.scratch = some s ∧ s.slot = 0 ∧ s.find? "row" = some ⟨"row", .f64, .ref, 0⟩

def CellsMeaning (b : Builder) (d : Draft) (cols : List (Int × Int)) (ss : List Step)
    (limit : Nat) : Prop :=
  ∀ (w : World) (a : Activation) (st : State) (p : UInt64) (cells : List UInt64),
    d.body.fn.values.size ≤ st.regs.size → readVal st.mem .pointer (a.slotAddr 0 0) = ⟨p, 0⟩ →
    CellsAt st.mem p cells → limit ≤ cells.length → HoldCells b.columns st cells →
    ∃ st', Evolves w a st ss st' ∧ st.Keeps b.draft.body.fn.values.size st' ∧
      HoldCells cols st' cells

namespace Predicate

theorem loadCell {w : World} {a : Activation} {st : State} {p x : UInt64} {cells : List UInt64}
    {c k : Nat} (hc : c < 2 ^ 28) (hk : k + 1 < st.regs.size)
    (hp : readVal st.mem .pointer (a.slotAddr 0 0) = ⟨p, 0⟩) (hcells : CellsAt st.mem p cells)
    (hx : cells[c]? = some x) :
    ∃ st', Evolves w a st [⟨.stackLoad .pointer 0 0, [k]⟩,
        ⟨.load .f64 k (Builder.elementOffset (Int64.ofNat c) .f64), [k + 1]⟩] st' ∧
      st.Keeps k st' ∧ st'.get (k + 1) = ⟨x, 0⟩ := by
  have hget : (st.set k ⟨p, 0⟩).get k = ⟨p, 0⟩ := State.get_set_self _ (Nat.lt_of_succ_lt hk)
  have h1 : execStep w a st ⟨.stackLoad .pointer 0 0, [k]⟩ = .ok (.on (st.set k ⟨p, 0⟩)) := by
    rw [← hp]
    rfl
  have h2 : execStep w a (st.set k ⟨p, 0⟩)
      ⟨.load .f64 k (Builder.elementOffset (Int64.ofNat c) .f64), [k + 1]⟩ =
      .ok (.on ((st.set k ⟨p, 0⟩).set (k + 1) ⟨x, 0⟩)) := by
    show Except.ok (Next.on ((st.set k ⟨p, 0⟩).set (k + 1) (readVal st.mem .f64 (addressOf
      ((st.set k ⟨p, 0⟩).get k).lo (Builder.elementOffset (Int64.ofNat c) .f64))))) = _
    rw [hget, addressOf_element hc, hcells c x hx]
  refine ⟨_, .cons h1 (.one h2), ?_, State.get_set_self _ (by rw [State.size_set]; exact hk)⟩
  exact (State.keeps_set st _ (Nat.le_refl k)).trans (State.keeps_set _ _ (Nat.le_succ k))

theorem healthy_of_bindCells (c n : Nat) {b : Builder} (h : (bindCells b c n).Healthy) :
    b.Healthy := by
  induction n generalizing b c with
  | zero => exact h
  | succ n ih =>
    have h1 : (b.loadElement "row" (Int64.ofNat c)).1.Healthy := by
      have hh := ih (c + 1) h
      exact ⟨hh.fault, hh.draft⟩
    exact (Builder.attempt_sound h1).1

/-- **Columns are bound to the cells of their numbers.** -/
theorem bindCells_sound (c n : Nat) {b : Builder} (hS : b.draft.Holds Body.Sound) (hr : RowSlot b)
    (hc : c + n ≤ 2 ^ 28) (hf : FloatColumns b.columns b.draft.body.fn) {cur : Nat}
    (hcur : b.draft.body.current = some cur) (h : (bindCells b c n).Healthy) :
    b.Healthy ∧ ∃ (d : Draft) (cols : List (Int × Int)) (ss : List Step),
      bindCells b c n = { b with draft := d, columns := cols } ∧ d.Holds Body.Sound ∧
      b.draft.body.Writes d.body ss ∧ FloatColumns cols d.body.fn ∧
      CellsMeaning b d cols ss (c + n) := by
  induction n generalizing b c with
  | zero =>
    refine ⟨h, b.draft, b.columns, [], rfl, hS, .refl hcur, hf, ?_⟩
    intro w a st p cells _ _ _ _ hh
    exact ⟨st, .nil, .refl _ _, hh⟩
  | succ n ih =>
    cases h1 : b.loadElement "row" (Int64.ofNat c) with
    | mk b1 v =>
      have e : bindCells b c (n + 1) = bindCells (b1.bindColumn c v) (c + 1) n := by
        rw [bindCells, h1]
      rw [e] at h ⊢
      -- later loads keep faults, so this one succeeded
      have hh1 : b1.Healthy := by
        have hh := healthy_of_bindCells (c + 1) n h
        exact ⟨hh.fault, hh.draft⟩
      obtain ⟨hb, s, nm, k, d1, hs, hlk, hk, hS1, e1, hw1, hty1⟩ :=
        Builder.loadElement_sound (b := b) hS (by rw [h1]; exact hh1)
      obtain ⟨s', hs', hslot, hfind⟩ := hr
      obtain rfl : s = s' := Option.some.inj (hs.symm.trans hs')
      obtain rfl : k = 0 := Int.ofNat.inj (hk.symm.trans hslot)
      obtain rfl : nm = ⟨"row", .f64, .ref, 0⟩ := by
        rw [Scratch.lookup, hfind] at hlk
        exact (Except.ok.inj hlk).symm
      obtain ⟨rfl, rfl⟩ := Prod.mk.inj (h1.symm.trans e1)
      have hf1 : FloatColumns (((c : Int), ((b.draft.body.fn.values.size + 1 : Nat) : Int)) ::
          b.columns) d1.body.fn := by
        intro i v hv
        rcases lookup_cons_iff.mp hv with ⟨-, rfl⟩ | ⟨-, hv⟩
        · exact ⟨_, rfl, hty1⟩
        · exact hf.mono hw1 i v hv
      obtain ⟨-, d, cols, ss, e2, hS2, hw2, hf2, hm⟩ := ih (c + 1)
        (b := ({ b with draft := d1 } : Builder).bindColumn c
          ((b.draft.body.fn.values.size + 1 : Nat) : Int))
        hS1 ⟨s, hs, hslot, hfind⟩ (by omega) hf1 (hw1.current.trans hcur) h
      refine ⟨hb, d, cols, _, e2, hS2, hw1.trans hw2, hf2, ?_⟩
      intro w a st p cells hsz hp hcells hlim hh
      have hle1 : b.draft.body.fn.values.size + 1 < d1.body.fn.values.size :=
        (Array.getElem?_eq_some_iff.mp hty1).1
      have hle2 : d1.body.fn.values.size ≤ d.body.fn.values.size := hw2.size_le
      obtain ⟨x, hx⟩ : ∃ x, cells[c]? = some x :=
        ⟨_, List.getElem?_eq_getElem (by omega : c < cells.length)⟩
      obtain ⟨st2, hev, hkeep, hval⟩ := loadCell (w := w) (a := a) (k := b.draft.body.fn.values.size)
        (by omega : c < 2 ^ 28) (by omega) hp hcells hx
      have hh2 : HoldCells (((c : Int), ((b.draft.body.fn.values.size + 1 : Nat) : Int)) ::
          b.columns) st2 cells := by
        intro i m him
        rcases lookup_cons_iff.mp him with ⟨rfl, em⟩ | ⟨-, hm'⟩
        · obtain rfl : m = b.draft.body.fn.values.size + 1 := Int.ofNat.inj em
          rw [hval, Int.toNat_natCast, hx]
          rfl
        · exact hh.keeps hf hkeep i m hm'
      obtain ⟨st', hev', hkeep', hh'⟩ := hm w a st2 p cells (by rw [hkeep.size]; exact hsz)
        (by rw [hkeep.mem]; exact hp) (by rw [hkeep.mem]; exact hcells) (by omega) hh2
      exact ⟨st', hev.append hev', hkeep.trans (hkeep'.mono (by
        show b.draft.body.fn.values.size ≤ d1.body.fn.values.size
        omega)), hh'⟩

/-! ## the whole function -/

/-- what the steps of the row function do -/
def RowMeaning (t : Tree) (width : Nat) (d : Draft) (v : ValueNo) (ss : List Step) : Prop :=
  ∀ (w : World) (a : Activation) (st : State) (p : UInt64) (cells : List UInt64), Natives w →
    d.body.fn.imports.toList <+: a.fn.imports.toList → d.body.fn.values.size ≤ st.regs.size →
    st.get 0 = ⟨p, 0⟩ → CellsAt st.mem p cells → width ≤ cells.length →
    Memory.Apart (a.slotAddr 0 0) 8 p (8 * cells.length) →
    ∃ st', Evolves w a st ss st' ∧
      st'.get v = laneVal 1 t.kind (t.eval w.float cells) (t.eval w.float cells)

theorem columns_nonneg {t : Tree} (h : t.check = .ok ()) : ∀ c ∈ t.columns, 0 ≤ c := by
  induction t with
  | missing => exact nofun
  | literal bits => exact nofun
  | column i name =>
    intro c hc
    rw [Tree.columns, List.mem_singleton] at hc
    subst hc
    unfold Tree.check at h
    split at h
    · cases h
    · rename_i hi
      exact Int64.not_lt.mp hi
  | binary o l r ihl ihr =>
    obtain ⟨-, hl, -, hr, -⟩ := Tree.check_binary h
    intro c hc
    rw [Tree.columns] at hc
    rcases List.mem_append.mp hc with hc | hc
    · exact ihl hl c hc
    · exact ihr hr c hc

theorem cell_of_nonneg {row : List UInt64} {c : Int64} (h : 0 ≤ c) :
    Tree.cell row c = (row[c.toInt.toNat]?).getD nanBits := by
  rw [Tree.cell, if_neg (Int64.not_lt.mpr h)]

theorem cellsAt_store {m : Memory} {p s : UInt64} {cells : List UInt64} (h : CellsAt m p cells)
    {t : Ty} (v : Val) (ha : Memory.Apart s t.bytes p (8 * cells.length)) :
    CellsAt (writeVal m t s v) p cells := by
  intro c x hx
  have hc : c < cells.length := (List.getElem?_eq_some_iff.mp hx).1
  have hpart : Memory.Apart (p + UInt64.ofNat (8 * c)) 8 s t.bytes :=
    ha.symm.part (by omega) (by omega)
  rw [readVal_apart m v (u := .f64) hpart.symm]
  exact h c x hx

def rowScratch : Scratch :=
  { slot := 0, capacity := 8, next := 8, slots := [⟨"row", .f64, .ref, 0⟩] }

theorem allocate_row : Scratch.allocate { slot := ((0 : Nat) : Int), capacity := Int32.ofInt 8 } "row"
    .f64 .ref = .ok (rowScratch, ⟨"row", .f64, .ref, 0⟩) := by
  rfl

theorem RowMeaning.of_cells {t : Tree} (ht : t.check = .ok ()) {width : Nat} (b b' : Builder)
    {d : Draft} {v : ValueNo} {ss ss' : List Step} (hcols : b.columns = []) (hl : b'.lanes = 1)
    (hle : b'.draft.body.fn.values.size ≤ d.body.fn.values.size)
    (hm : CellsMeaning b b'.draft b'.columns ss width) (hm' : TreeMeaning t b' d v ss') :
    RowMeaning t width d v ([⟨.stackStore .pointer 0 0 0, []⟩] ++ ss ++ ss') := by
  intro w a st p cells hN himp hsz hp hcells hlen hap
  -- the pointer goes into its slot, which is none of the cells
  let st1 : State := { st with mem := writeVal st.mem .pointer (a.slotAddr 0 0) (st.get 0) }
  have hstep : execStep w a st ⟨.stackStore .pointer 0 0 0, []⟩ = .ok (.on st1) := rfl
  have hptr : readVal st1.mem .pointer (a.slotAddr 0 0) = ⟨p, 0⟩ := by
    show readVal (writeVal st.mem .pointer (a.slotAddr 0 0) (st.get 0)) .pointer _ = _
    rw [readVal_writeVal _ _ _ _ rfl, hp]
    rfl
  have hcells1 : CellsAt st1.mem p cells := cellsAt_store hcells (t := .pointer) _ hap
  obtain ⟨st2, hev2, hkeep2, hh2⟩ := hm w a st1 p cells (Nat.le_trans hle hsz) hptr hcells1 hlen
    (hcols ▸ holdCells_nil _ _)
  have hhold : t.ColumnsHold b' cells cells st2 := by
    intro c hcm n hn
    rw [hl, hh2 _ n hn, cell_of_nonneg (columns_nonneg ht c hcm)]
    rfl
  obtain ⟨st3, hev3, -, hv3⟩ := hm' w a st2 cells cells hN himp (by rw [hkeep2.size]; exact hsz) hhold
  refine ⟨st3, ((Evolves.one hstep).append hev2).append hev3, ?_⟩
  rw [hv3, hl]

theorem rowBody_sound [Host.Platform] {scope : Scope} (hc : scope.catalog.HoldsBuiltins) {t : Tree}
    (ht : t.check = .ok ()) {width : Nat} (hw : width ≤ 2 ^ 28) {b : Builder}
    (hS : b.draft.Holds Body.Sound) (hshape : b.draft.body.shape = Builder.startShape rowSig)
    (hparams : b.params = [0]) (hcols : b.columns = []) (hl : b.lanes = 1)
    (h : (rowBody t width scope b).1.Healthy) :
    b.Healthy ∧ ∃ (v : ValueNo) (b' : Builder) (ss : List Step),
      rowBody t width scope b = (b', some (v : Int)) ∧ b'.draft.Holds Body.Sound ∧
      b'.state = b.state ∧ b'.id = b.id ∧
      b'.draft.body.current = some 0 ∧ b'.draft.body.shape.code = [([0], ss)] ∧
      b'.draft.body.shape.sig = rowSig ∧ RowMeaning t width b'.draft v ss := by
  cases hp : (b.makeScratch 8).param 0 with
  | mk b2 p =>
    have e : rowBody t width scope b = t.emit scope (bindCells (b2.storeRef "row" p .f64) 0 width) := by
      simp only [rowBody, hp]
    rw [e] at h ⊢
    have h4 := Tree.healthy_of_emit t h
    have h3 := healthy_of_bindCells 0 width h4
    have h2 : b2.Healthy := (Builder.attempt_sound h3).1
    obtain ⟨h1, p', hp', e2⟩ := Builder.param_sound (b := b.makeScratch 8) (i := 0)
      (by rw [show ((0 : Nat) : Int) = 0 from rfl, hp]; exact h2)
    obtain ⟨rfl, rfl⟩ := Prod.mk.inj (hp.symm.trans e2)
    obtain ⟨hb, d1, hS1, e1, hs1⟩ := Builder.makeScratch_sound hS h1
    rw [e1] at hp' h3 h4 h ⊢
    have hsz0 : b.draft.body.fn.slots.size = 0 := by
      have := congrArg (fun x : Shape => x.slots.length) hshape
      simpa [Body.shape, Builder.startShape] using this
    obtain rfl : p = 0 := by
      rw [show ({ b with draft := d1, scratch := _ } : Builder).params = b.params from rfl,
        hparams] at hp'
      exact (Option.some.inj hp').symm
    obtain ⟨-, -, s, s', nm, v0, k, d3, hsc, hal, hv0, hk, e3, hS3, ha3⟩ :=
      Builder.storeRef_sound (b := { b with draft := d1, scratch := _ }) hS1 h3
    obtain rfl : v0 = 0 := (Int.ofNat.inj hv0).symm
    obtain rfl := Option.some.inj hsc
    -- the name is new, so it takes the start of the frame
    rw [hsz0, allocate_row] at hal
    obtain ⟨rfl, rfl⟩ := Prod.mk.inj (Except.ok.inj hal)
    obtain rfl : k = 0 := (Int.ofNat.inj hk).symm
    rw [e3] at h4 h ⊢
    rw [hshape] at hs1
    have hcur1 : d1.body.current = some 0 := congrArg Shape.current hs1
    have hw3 := ha3.writes
    have hcur3 : d3.body.current = some 0 := hw3.current.trans hcur1
    have hf3 : FloatColumns b.columns d3.body.fn := hcols ▸ floatColumns_nil _
    obtain ⟨-, d4, cols, ss4, e4, hS4, hw4, hf4, hm4⟩ := bindCells_sound 0 width
      (b := { b with draft := d3, scratch := some rowScratch }) hS3 ⟨_, rfl, rfl, rfl⟩ (by omega) hf3 hcur3 h4
    rw [e4] at h ⊢
    have hcb : t.ColumnsBound
        { b with draft := d4, scratch := some rowScratch, columns := cols } := by
      intro c _ v hv
      obtain ⟨n, hn, hty⟩ := hf4 _ v hv
      refine ⟨n, hn, ?_⟩
      rw [hty]
      show some Ty.f64 = some (laneTy b.lanes .float)
      rw [hl]
      rfl
    obtain ⟨-, v, d5, ss5, e5, hem5, hm5⟩ := Tree.emit_sound (fun _ => hc) t ht
      (b := { b with draft := d4, scratch := some rowScratch, columns := cols }) hS4
      (by show 1 ≤ b.lanes; omega) (hw4.current.trans hcur3) hcb h
    have hw : d1.body.Writes d5.body (([⟨.stackStore .pointer 0 0 0, []⟩] ++ ss4) ++ ss5) :=
      (hw3.trans hw4).trans hem5.writes
    rw [Nat.zero_add] at hm4
    refine ⟨hb, v, { b with draft := d5, scratch := some rowScratch, columns := cols },
      [⟨.stackStore .pointer 0 0 0, []⟩] ++ ss4 ++ ss5, e5,
      hem5.sound, rfl, rfl, hw.current.trans hcur1, ?_, ?_,
      .of_cells ht { b with draft := d3, scratch := some rowScratch }
        { b with draft := d4, scratch := some rowScratch, columns := cols } hcols hl
        hem5.writes.size_le hm4 hm5⟩
    · show d5.body.shape.code = _
      rw [hw.shape_code hcur1, hs1]
      rfl
    · show d5.body.fn.sig = _
      rw [hw.sig]
      exact congrArg Shape.sig hs1

theorem healthy_of_rowBody {scope : Scope} {t : Tree} {width : Nat} {b : Builder}
    (h : (rowBody t width scope b).1.Healthy) : b.Healthy := by
  cases hp : (b.makeScratch 8).param 0 with
  | mk b2 p =>
    have e : rowBody t width scope b = t.emit scope (bindCells (b2.storeRef "row" p .f64) 0 width) := by
      simp only [rowBody, hp]
    rw [e] at h
    have h3 := healthy_of_bindCells 0 width (Tree.healthy_of_emit t h)
    have h2 : b2.Healthy := (Builder.attempt_sound h3).1
    have h1 : (b.makeScratch 8).Healthy :=
      (Builder.param_sound (i := 0) (by rw [show ((0 : Nat) : Int) = 0 from rfl, hp]; exact h2)).1
    exact (Builder.attempt_sound h1).1

/-- a function that tells whether the tree is true of the cells behind its argument -/
structure RowFunction (t : Tree) (width : Nat) (f : Func) : Prop where
  sig : f.sig = rowSig
  run : ∀ (w : World) (fuel : Nat) (sp p : UInt64) (cells : List UInt64) (mem : Memory),
    Natives w → CellsAt mem p cells → width ≤ cells.length →
    Memory.Apart ((f.activation sp).slotAddr 0 0) 8 p (8 * cells.length) →
    ∃ mem', f.run w (fuel + 1) sp [⟨p, 0⟩] mem =
      .ok ([laneVal 1 t.kind (t.eval w.float cells) (t.eval w.float cells)], mem')

/-- **The row function computes the tree on the cells of a row.** -/
theorem rowFunction_of_finalize [Host.Platform] {scope : Scope}
    (hc : scope.catalog.HoldsBuiltins) {t : Tree} (ht : t.check = .ok ()) {width : Nat}
    (hw : width ≤ 2 ^ 28) {id : Nat} {name : String} {b b' : Builder} {x : Int} {f : Func}
    (hb : rowBody t width scope (Builder.new id name rowSig) = (b, some x))
    (hf : b.finalize [x] = (b', .ok f)) : RowFunction t width f := by
  have hh : (rowBody t width scope (Builder.new id name rowSig)).1.Healthy := by
    rw [hb]
    exact Builder.healthy_of_finalize hf
  obtain ⟨hshape, hS0, hparams⟩ := Builder.new_sound (healthy_of_rowBody hh)
  obtain ⟨-, v, b1, ss, e, hS, hst, hid, hcur, hcode, hsig, hm⟩ :=
    rowBody_sound hc ht hw hS0 hshape hparams rfl rfl hh
  obtain ⟨rfl, hx⟩ := Prod.mk.inj (hb.symm.trans e)
  cases hx
  obtain ⟨-, -, -, hwf, vs, hvs, cur, hcur', hfcode, hfvals, hfimp, -, hfsig⟩ :=
    Builder.finalize_sound hS hf
  obtain rfl : vs = [v] := by
    match vs, hvs with
    | [u], hvs =>
      have hu : v = u := Int.ofNat.inj (List.head_eq_of_cons_eq hvs)
      rw [hu]
  obtain rfl : cur = 0 := Option.some.inj (hcur'.symm.trans hcur)
  have hfc : f.code[0]? = some ([0], ss ++ [⟨.ret [v], []⟩]) := by
    rw [hfcode, hcode]
    rfl
  refine ⟨hfsig.trans hsig, ?_⟩
  intro w fuel sp p cells mem hN hcells hlen hap
  have hsize : f.values.size = b.draft.body.fn.values.size := by
    have hl := congrArg List.length hfvals
    simpa [Body.shape] using hl
  have hpos : 0 < f.values.size := by
    obtain ⟨entry, he, hty⟩ := hwf.entry
    have hp0 : f.sig.params = [.pointer] := by rw [hfsig, hsig]; rfl
    obtain ⟨blk, hblk, hps, -⟩ := Func.block_of_code hfc
    obtain rfl : entry = blk := Option.some.inj (he.symm.trans hblk)
    exact hty.lt_size 0 (by rw [hps]; exact List.mem_singleton.mpr rfl)
  have hargs : Val.keepAll f.sig.params [⟨p, 0⟩] = [⟨p, 0⟩] := by
    rw [hfsig, hsig]
    rfl
  obtain ⟨st', hev, hres⟩ := hm w (f.activation sp) ((f.startState mem).setAll [0] [⟨p, 0⟩]) p cells
    hN (by rw [show (f.activation sp).fn = f from rfl, hfimp]; exact List.prefix_rfl)
    (Nat.le_of_eq (by rw [State.size_setAll, Func.size_startState, hsize]))
    (State.get_set_self _ (by rw [Func.size_startState]; exact hpos))
    (by rw [State.mem_setAll]; exact hcells) hlen hap
  refine ⟨st'.mem, ?_⟩
  rw [Func.run_eq, hargs]
  refine runFrom_leave hfc hev ?_
  show Except.ok (Next.leave st' [st'.get v]) = _
  rw [hres]

end Predicate

end TreeJit
