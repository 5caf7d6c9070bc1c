import TreeJit.Proofs.Emit.AtWork
import TreeJit.Proofs.Emit.LoopMap
import TreeJit.Proofs.Predicate.Vector
import TreeJit.Proofs.Tree.Imports

/-!
# Predicates can be written

The code of a tree that passes its check can be written into the row function and into the vector
function, and both are handed out (`rowCode_completes`, `vectorCode_completes`).  All that is asked for
is that the built-in operations can be called and that every column has a place.
-/

namespace TreeJit

open SSA Emit

/-- the function `f` comes of a body without a fault, well formed and with nothing but built-in
operations among its imports -/
structure Emit.Completes (scope : Scope) (id : Nat) (name : String) (sig : Signature)
    (body : Scope → Builder → Builder × Option (List Int)) (f : Func) : Prop where
  written : ∃ b results b', body scope (.new id name sig) = (b, some results) ∧ b.id = id ∧
    b.fault = none ∧ b.finalize results = (b', .ok f) ∧ b'.fault = none
  wellFormed : f.WellFormed
  named : f.ImportsNamed
  sig : f.sig = sig
  native : ∀ e ∈ f.imports.toList, ∃ g : Host.Builtin, e = ⟨g.name, g.sig⟩

theorem Emit.completes_of_atWork {scope : Scope} {id : Nat} {name : String} {sig : Signature}
    {body : Scope → Builder → Builder × Option (List Int)} {b : Builder} {results : List Int}
    {cur : Nat} (e : body scope (.new id name sig) = (b, some results)) (hid : b.id = id) (h : b.AtWork cur)
    (hm : b.Made) (hn : b.draft.Native) (hsig : b.draft.body.fn.sig = sig)
    (hr : b.draft.Has results sig.returns)
    {ps : List ValueNo} {ss : List Step} (he : b.draft.body.fn.code[0]? = some (ps, ss))
    (ht : b.draft.body.fn.HasTypes ps sig.params)
    (hl : ∀ (n : Nat) p, b.draft.body.fn.code[n]? = some p → n ≠ cur → Leaves p.2) :
    ∃ f, Completes scope id name sig body f := by
  obtain ⟨b', f, hf, hb'⟩ := h.finalize hm (hsig ▸ hr) he (hsig ▸ ht) hl
  obtain ⟨hwf, hnamed⟩ := hm.wellFormed hf
  obtain ⟨-, -, -, -, -, -, -, -, -, -, himp, -, hs⟩ := Builder.finalize_sound hm.sound hf
  refine ⟨f, ⟨b, results, b', e, hid, h.fault, hf, hb'⟩, hwf, hnamed, hs.trans hsig, ?_⟩
  rw [himp]
  exact hn

theorem Emit.Builder.native_new {sig : Signature} (hs : sig.isValid = true) (id : Nat)
    (name : String) : (new id name sig).draft.Native := by
  have h := congrArg Shape.imports (new_sound (atWork_new hs id name).healthy).1
  have h : (new id name sig).draft.body.fn.imports.toList = [] := h
  unfold Draft.Native
  rw [h]
  exact nofun

namespace Predicate

/-! ## the row function -/

/-- a column is bound to a double -/
def Bound (cols : List (Int × Int)) (d : Draft) (i : Int) : Prop :=
  ∃ v : ValueNo, cols.lookup i = some (v : Int) ∧ d.body.fn.values[v]? = some .f64

theorem Bound.mono {cols : List (Int × Int)} {d d' : Draft} {i : Int} (h : Bound cols d i)
    (hg : d.body.fn.Grows d'.body.fn) : Bound cols d' i := by
  obtain ⟨v, hv, ht⟩ := h
  exact ⟨v, hv, hg.values v _ ht⟩

/-- **Columns can be bound to the cells of their numbers.** -/
theorem bindCells_ready (c n : Nat) {b : Builder} {cur : Nat} (h : b.AtWork cur)
    (hs : b.scratch = some rowScratch)
    (hr : rowScratch.Holds ⟨"row", .f64, .ref, 0⟩ b.draft.body.fn) :
    ∃ (d : Draft) (cols : List (Int × Int)),
      bindCells b c n = { b with draft := d, columns := cols } ∧ b.draft.Ahead cur d ∧
      (∀ i, Bound b.columns b.draft i → Bound cols d i) ∧
      ∀ i : Nat, c ≤ i → i < c + n → Bound cols d i := by
  induction n generalizing b c with
  | zero => exact ⟨b.draft, b.columns, rfl, h.isOpen.ahead, fun _ h => h, fun i h1 h2 => by omega⟩
  | succ n ih =>
    have hl : rowScratch.lookup "row" .ref = .ok ⟨"row", .f64, .ref, 0⟩ := rfl
    obtain ⟨d1, v, e1, h1, hv⟩ := h.loadElement (Int64.ofNat c) hs hl hr rfl
    obtain ⟨v, rfl, hty⟩ := Draft.Has.one_iff.mp hv
    let b1 : Builder := { b with draft := d1, columns := ((c : Int), (v : Int)) :: b.columns }
    have hwork : b1.AtWork cur := ⟨h.state, h.fault, h1.isOpen⟩
    obtain ⟨d, cols, e, hd, hold, hnew⟩ := ih (c + 1) hwork hs (hr.mono h1.grows)
    refine ⟨d, cols, ?_, h1.trans hd, fun i hi => hold i ?_, fun i hc hi => ?_⟩
    · rw [bindCells, e1]
      exact e
    · by_cases hic : i = c
      · exact ⟨v, lookup_cons_iff.mpr (.inl ⟨hic, rfl⟩), hty⟩
      · obtain ⟨u, hu, htu⟩ := hi.mono h1.grows
        exact ⟨u, lookup_cons_iff.mpr (.inr ⟨hic, hu⟩), htu⟩
    · by_cases hic : i = c
      · exact hold i ⟨v, lookup_cons_iff.mpr (.inl ⟨congrArg Nat.cast hic, rfl⟩), hty⟩
      · exact hnew i (by omega) (by omega)

theorem extendsBy_bindCells (c n : Nat) {b : Builder} :
    b.draft.ExtendsBy Action.IsNative (bindCells b c n).draft := by
  induction n generalizing b c with
  | zero => exact .refl _
  | succ n ih => exact (Builder.extendsBy_loadElement "row" (Int64.ofNat c)).trans (ih (c + 1))

theorem extendsBy_rowBody [Host.Platform] {scope : Scope} (hc : scope.catalog.HoldsBuiltins)
    {t : Tree} (ht : t.check = .ok ()) (width : Nat) (b : Builder) :
    b.draft.ExtendsBy Action.IsNative (rowBody t width scope b).1.draft :=
  ((((Builder.extendsBy_makeScratch 8).trans (Builder.extendsBy_param 0)).trans
    (Builder.extendsBy_storeRef "row" _ .f64)).trans (extendsBy_bindCells 0 width)).trans
      (t.extendsBy_emit hc ht _)

theorem rowBody_ready [Host.Platform] {scope : Scope} (hs : scope.Offers) {t : Tree}
    (ht : t.check = .ok ()) {width : Nat} (hcol : ∀ c ∈ t.columns, c.toInt < width) {b : Builder}
    (h : b.AtWork 0) (hscratch : b.scratch = none) (hslots : b.draft.body.fn.slots.size = 0)
    (hparams : b.params = [0]) (hp : b.draft.Has [0] [.pointer]) (hl : b.lanes = 1) :
    ∃ (b' : Builder) (v : Int), rowBody t width scope b = (b', some v) ∧ b'.id = b.id ∧ b'.AtWork 0 ∧
      b.draft.body.fn.Grows b'.draft.body.fn ∧ b'.draft.Has [v] [laneTy 1 t.kind] := by
  obtain ⟨d1, e1, h1, hslot⟩ := h.makeScratch hscratch (show (0 : Int) < 8 by decide)
  rw [hslots] at e1 hslot
  let s1 : Scratch := { slot := ((0 : Nat) : Int), capacity := Int32.ofInt 8 }
  let b1 : Builder := { b with draft := d1, scratch := some s1 }
  have hw1 : b1.AtWork 0 := ⟨h.state, h.fault, h1.isOpen⟩
  have e2 : b1.param 0 = (b1, 0) := hw1.param (show b1.params[0]? = some 0 by
    rw [show b1.params = b.params from rfl, hparams]
    rfl)
  -- the pointer of the row is kept in the only slot
  have hrow : rowScratch.Holds ⟨"row", .f64, .ref, 0⟩ d1.body.fn :=
    ⟨0, ⟨8, 16⟩, rfl, hslot, by decide, by decide⟩
  obtain ⟨d3, e3, h3⟩ := hw1.storeRef (t := .f64) rfl rfl allocate_row hrow (h1.has hp)
  let b3 : Builder := { b1 with draft := d3, scratch := some rowScratch }
  have hw3 : b3.AtWork 0 := ⟨h.state, h.fault, h3.isOpen⟩
  obtain ⟨d4, cols, e4, h4, -, hcells⟩ := bindCells_ready 0 width hw3 rfl (hrow.mono h3.grows)
  let b4 : Builder := { b3 with draft := d4, columns := cols }
  have hw4 : b4.AtWork 0 := ⟨h.state, h.fault, h4.isOpen⟩
  have hbound : t.Bound b4 := by
    intro c hc
    have h0 : 0 ≤ c.toInt := Int64.le_iff_toInt_le.mp (columns_nonneg ht c hc)
    have hlt := hcol c hc
    obtain ⟨n, hn, hty⟩ := hcells c.toInt.toNat (Nat.zero_le _) (by omega)
    rw [Int.toNat_of_nonneg h0] at hn
    refine ⟨n, hn, ?_⟩
    rw [show b4.lanes = 1 from hl]
    exact hty
  obtain ⟨d5, v, e5, h5, hv⟩ := Tree.emit_ready t ht (fun _ => hs) hw4 (Nat.le_of_eq hl.symm) hbound
  refine ⟨{ b4 with draft := d5 }, v, ?_, rfl, hw4.ahead h5,
    h1.grows.trans (h3.grows.trans (h4.grows.trans h5.grows)), ?_⟩
  · have e2' : (b.makeScratch 8).param 0 = (b1, 0) := by rw [e1]; exact e2
    simp only [rowBody, e2', e3]
    exact (congrArg (t.emit scope) e4).trans e5
  · rw [show b4.lanes = 1 from hl] at hv
    exact hv

/-- **The row function can be written.** -/
theorem rowCode_completes [Host.Platform] {scope : Scope} (hc : scope.catalog.HoldsBuiltins)
    (hs : scope.Offers) {t : Tree} (ht : t.check = .ok ()) (hk : t.kind = .bool) {width : Nat}
    (hw : width ≤ 2 ^ 28) (hcol : ∀ c ∈ t.columns, c.toInt < width) (id : Nat) (name : String) :
    ∃ f, Completes scope id name rowSig (rowCode t width) f := by
  have hvalid : rowSig.isValid = true := rfl
  have h0 := Builder.atWork_new hvalid id name
  obtain ⟨hshape, hS, hparams⟩ := Builder.new_sound h0.healthy
  have hvalues : (Builder.new id name rowSig).draft.body.fn.values.toList = [.pointer] :=
    congrArg Shape.values hshape
  have hp : (Builder.new id name rowSig).draft.body.fn.HasTypes [0] [.pointer] := by
    rw [Func.HasTypes.singleton_iff, ← Array.getElem?_toList, hvalues]
    rfl
  have hslots : (Builder.new id name rowSig).draft.body.fn.slots.size = 0 := by
    have := congrArg (fun x : Shape => x.slots.length) hshape
    simpa [Body.shape, Builder.startShape] using this
  obtain ⟨b, v, e, hid, hwork, hgrows, hv⟩ :=
    rowBody_ready hs ht hcol h0 rfl hslots hparams ⟨[0], rfl, hp⟩ rfl
  have hext := extendsBy_rowBody hc ht width (Builder.new id name rowSig)
  obtain ⟨-, v', b', ss, e', -, -, -, hcur, hcode, hsig, -⟩ :=
    rowBody_sound hc ht hw hS hshape hparams rfl rfl (by rw [e]; exact hwork.healthy)
  obtain ⟨rfl, -⟩ := Prod.mk.inj (e.symm.trans e')
  rw [e] at hext
  have hmade : b.Made := by
    obtain ⟨n, sig, hm⟩ := Builder.made_new id name rowSig
    exact ⟨n, sig, hm.trans hext.extends⟩
  have hcode : b.draft.body.fn.code = [([0], ss)] := hcode
  rw [hk] at hv
  refine completes_of_atWork (by simp only [rowCode, e]; rfl) hid hwork hmade
    (hext.native (Builder.native_new hvalid id name)) hsig hv (by rw [hcode]; rfl) (hp.mono hgrows) ?_
  intro n p hn hne
  rw [hcode] at hn
  exact absurd (Nat.lt_one_iff.mp (List.getElem?_eq_some_iff.mp hn).1) hne

/-! ## the vector function -/

theorem paramInputs_ready {b : Builder} {cur n : Nat} (h : b.AtWork cur)
    (hp : b.params = (List.range n).map Int.ofNat) (i : Nat) (cs : List Int) (hi : i + cs.length ≤ n) :
    ∃ xs : List ColumnInput, paramInputs b i cs = (b, xs) ∧
      xs.map (·.column) = cs ∧ xs.map (·.value) = (List.range' i cs.length).map Int.ofNat := by
  induction cs generalizing i with
  | nil => exact ⟨[], rfl, rfl, rfl⟩
  | cons c cs ih =>
    rw [List.length_cons] at hi
    obtain ⟨xs, e, hc, hv⟩ := ih (i + 1) (by omega)
    have e1 : b.param i = (b, (i : Int)) := h.param (by
      rw [hp, List.getElem?_map, List.getElem?_range (by omega)]
      rfl)
    refine ⟨⟨c, i⟩ :: xs, ?_, ?_, ?_⟩
    · simp only [paramInputs, e1, e]
    · rw [List.map_cons, hc]
    · rw [List.map_cons, hv, List.length_cons, List.range'_succ]
      rfl

theorem vectorBody_ready (t : Tree) {arrays scalars : List Int} (scope : Scope) {b : Builder}
    {cur : Nat} (h : b.AtWork cur)
    (hp : b.params = (List.range (vectorSig arrays scalars).params.length).map Int.ofNat) :
    ∃ l : VectorLoop, LoopOfParams arrays scalars l ∧
      vectorBody t arrays scalars scope b = b.vectorLoop l (t.emit scope) := by
  rw [length_vectorSig] at hp
  have hparam : ∀ i, i < arrays.length + 2 + scalars.length → b.param (i : Nat) = (b, (i : Int)) := by
    intro i hi
    refine h.param ?_
    rw [hp, List.getElem?_map, List.getElem?_range hi]
    rfl
  obtain ⟨xs, e1, hxc, hxv⟩ := paramInputs_ready h hp 0 arrays (by omega)
  obtain ⟨ys, e2, hyc, hyv⟩ := paramInputs_ready h hp (arrays.length + 2) scalars (Nat.le_refl _)
  have e3 := hparam arrays.length (by omega)
  have e4 : b.param ((arrays.length : Int) + 1) = (b, ((arrays.length + 1 : Nat) : Int)) :=
    hparam (arrays.length + 1) (by omega)
  refine ⟨⟨xs, ys, (arrays.length : Nat), (arrays.length + 1 : Nat)⟩,
    ⟨hxc, hxv, hyc, hyv, rfl, rfl⟩, ?_⟩
  simp only [vectorBody, e1, e2, e3, e4]

theorem LoopOfParams.check {arrays scalars : List Int} {l : VectorLoop}
    (hl : LoopOfParams arrays scalars l) {d : Draft}
    (hd : d.body.fn.values.toList = (vectorSig arrays scalars).params) : l.check d = .ok () := by
  have htype : ∀ (i : Nat) t, (vectorSig arrays scalars).params[i]? = some t → d.typeOf i = t := by
    intro i t ht
    refine Func.typeOf_eq ?_
    rw [← Array.getElem?_toList, hd]
    exact ht
  have hn : (List.replicate (arrays.length + 1) Ty.pointer ++ [Ty.i64]).length =
      arrays.length + 2 := by simp
  have hinput : ∀ {xs : List ColumnInput} {i k : Nat} {t : Ty},
      xs.map (·.value) = (List.range' i k).map Int.ofNat →
      (∀ j, i ≤ j → j < i + k → (vectorSig arrays scalars).params[j]? = some t) →
      xs.find? (fun a => d.typeOf a.value ≠ t) = none := by
    intro xs i k t hx ht
    refine List.find?_eq_none.mpr fun a ha => ?_
    have hm : a.value ∈ (List.range' i k).map Int.ofNat := hx ▸ List.mem_map_of_mem ha
    obtain ⟨j, hj, e⟩ := List.mem_map.mp hm
    obtain ⟨h1, h2⟩ := List.mem_range'_1.mp hj
    have := htype j t (ht j h1 h2)
    rw [← e]
    simpa using this
  have hpointer : ∀ j, j < arrays.length + 1 →
      (vectorSig arrays scalars).params[j]? = some .pointer := by
    intro j hj
    rw [vectorSig, List.append_assoc, List.getElem?_append_left (by simpa using hj),
      List.getElem?_replicate_of_lt hj]
  have hcount : (vectorSig arrays scalars).params[arrays.length + 1]? = some .i64 := by
    simp [vectorSig]
  have hscalar : ∀ j, arrays.length + 2 ≤ j → j < arrays.length + 2 + scalars.length →
      (vectorSig arrays scalars).params[j]? = some .f64 := by
    intro j h1 h2
    rw [vectorSig, List.getElem?_append_right (by rw [hn]; exact h1), hn, List.getElem?_map,
      List.getElem?_eq_getElem (by omega)]
    rfl
  unfold VectorLoop.check
  rw [hinput hl.values fun j _ hj => hpointer j (by omega), hinput hl.scalarValues hscalar]
  simp only [hl.result, hl.count, htype _ _ (hpointer _ (Nat.lt_succ_self _)), htype _ _ hcount, ne_eq,
    not_true_eq_false, if_false]

theorem lookup_of_columns {L : LoopLayout} {l : VectorLoop} {d : Body} {cur : Nat}
    (hf : L.Fits l d cur) {c : Int} (hc : c ∈ (l.arrays ++ l.scalars).map (·.column)) :
    ∃ v, (L.columns l).lookup c = some v := by
  cases hv : (L.columns l).lookup c with
  | some v => exact ⟨v, rfl⟩
  | none =>
    have hA : l.arrays.length = L.arrays.length := by simpa using congrArg List.length hf.arrays
    have hN : l.scalars.length = L.scalars.length := by simpa using congrArg List.length hf.scalars
    have hfst : (L.columns l).map Prod.fst = ((l.arrays ++ l.scalars).map (·.column)).reverse := by
      unfold LoopLayout.columns
      rw [List.map_reverse, List.map_append, List.map_fst_zip, List.map_fst_zip, ← List.map_append]
      · simp [LoopLayout.spread, hN]
      · simp [hA]
    have hm := List.mem_reverse.mpr hc
    rw [← hfst] at hm
    obtain ⟨p, hp, rfl⟩ := List.mem_map.mp hm
    have := List.lookup_eq_none_iff.mp hv p hp
    simp at this

theorem emit_written [Host.Platform] {scope : Scope} (hcat : scope.catalog.HoldsBuiltins) {t : Tree}
    (ht : t.check = .ok ()) {b : Builder} {cur : Nat} (h : b.AtWork cur) (hm : b.Made)
    (hn : b.draft.Native) (hl : b.lanes = 2) (hb : t.Bound b) :
    ∃ (d : Draft) (v : Int) (ss : List Step), t.emit scope b = ({ b with draft := d }, some v) ∧
      b.draft.Ahead cur d ∧ d.Has [v] [laneTy 2 t.kind] ∧ Builder.Made { b with draft := d } ∧
      d.Native ∧ b.draft.body.Writes d.body ss := by
  have hlanes : b.lanes ≠ 1 := by
    rw [hl]
    decide
  have hone : 1 ≤ b.lanes := by
    rw [hl]
    decide
  obtain ⟨d, v, e, hd, hv⟩ := Tree.emit_ready t ht (fun h => absurd h hlanes) h hone hb
  have hext : b.draft.ExtendsBy Action.IsNative d := by
    have hx := t.extendsBy_emit hcat ht b
    rwa [e] at hx
  have hmade : Builder.Made { b with draft := d } := by
    obtain ⟨n, sig, hx⟩ := hm
    exact ⟨n, sig, hx.trans hext.extends⟩
  obtain ⟨-, _, d', ss, e', hem, -⟩ := Tree.emit_sound (fun _ => hcat) t ht hm.sound hone
    h.isOpen.current hb.columnsBound (by rw [e]; exact (h.ahead hd).healthy)
  obtain rfl : d = d' := congrArg Builder.draft (Prod.mk.inj (e.symm.trans e')).1
  rw [hl] at hv
  exact ⟨d, v, ss, e, hd, hv, hmade, hext.native hn, hem.writes⟩

/-- what a vector loop around the code of a tree leaves -/
structure LoopWritten (b : Builder) (d : Draft) (head : Nat) : Prop where
  isOpen : d.Open (head + 1)
  made : Builder.Made { b with draft := d }
  values : b.draft.body.fn.values.toList <+: d.body.fn.values.toList
  native : d.Native

/-- **A vector loop around the code of a tree can be written.** -/
theorem vectorLoop_ready [Host.Platform] {scope : Scope} (hcat : scope.catalog.HoldsBuiltins)
    {t : Tree} (ht : t.check = .ok ()) (hk : t.kind = .bool) {b : Builder} {cur : Nat}
    (h : b.AtWork cur) (hm : b.Made) (hn : b.draft.Native) (hl : b.lanes = 1) {l : VectorLoop}
    (hc : l.check b.draft = .ok ())
    (hcol : ∀ c ∈ t.columns, c.toInt ∈ (l.arrays ++ l.scalars).map (·.column)) :
    ∃ (d : Draft) (head : Nat), b.vectorLoop l (t.emit scope) = ({ b with draft := d }, some ()) ∧
      LoopWritten b d head := by
  obtain ⟨h1, f, head, hf, hfb, ho1, ht1, hx1⟩ :=
    Builder.enterLoop_ready h.state h.healthy h.isOpen hl hc
  obtain ⟨-, -, L, d1, hfits, e1, hS1, hs1⟩ := Builder.enterLoop_sound hm.sound h.isOpen.current h1
  have hm1 := hm.ages (Builder.grows_enterLoop b l).1.ages
  rw [e1] at h1 hf ho1 ht1 hx1 hm1
  simp only at hf ho1 ht1 hx1
  obtain rfl : L.frame b.columns = f := Option.some.inj hf
  obtain rfl : L.head = head := Int.ofNat.inj hfb
  have hA : l.arrays.length = L.arrays.length := by simpa using congrArg List.length hfits.arrays
  have hN : l.scalars.length = L.scalars.length := by simpa using congrArg List.length hfits.scalars
  rw [hA, hN] at ht1
  -- the tree, on pairs of rows
  let b1 : Builder := { b with draft := d1, columns := L.columns l, lanes := 2 }
  have hw1 : b1.AtWork L.head := ⟨h.state, h.fault, ho1⟩
  have hn1 : d1.Native := hn.of_imports (congrArg Shape.imports hs1)
  have hbase : b.draft.body.shape.values.length = L.base := by
    rw [Body.shape_values_length, hfits.base]
  have hbound : t.Bound b1 := by
    intro c hct
    obtain ⟨v, hv⟩ := lookup_of_columns hfits (hcol c hct)
    obtain ⟨n, rfl, hty⟩ := LoopLayout.columns_typed hbase (congrArg Shape.values hs1) hv
    exact ⟨n, hv, hty⟩
  obtain ⟨d2, v, ss, e2, h2, hv, hm2, hn2, hw⟩ := emit_written hcat ht hw1 hm1 hn1 rfl hbound
  let b2 : Builder := { b1 with draft := d2 }
  -- the end of the loop
  have hp1 := L.hasTypes_params ht1 (LoopLayout.code_head hfits (congrArg Shape.code hs1))
  rw [hk] at hv
  obtain ⟨hb3, ho3⟩ := Builder.leaveLoop_ready (b := b2) (hw1.ahead h2).healthy L b.columns h2.isOpen
    (hp1.mono h2.grows) (h2.takes _ _ ht1) (h2.takes _ _ hx1) hv rfl
  have hm3 := hm2.ages (Builder.grows_leaveLoop b2 (L.frame b.columns) v).1.ages
  obtain ⟨-, u, o, d3, -, -, -, e3, -, hs3⟩ :=
    Builder.leaveLoop_sound (b := b2) hm2.sound L h2.isOpen.current hb3
  have e3 : b2.leaveLoop (L.frame b.columns) v = { b with draft := d3 } := by
    rw [e3, ← hl]
  rw [e3] at ho3 hm3
  refine ⟨d3, L.head, ?_, ho3, hm3, ?_, hn2.of_imports (congrArg Shape.imports hs3)⟩
  · simp only [Builder.vectorLoop, e1]
    rw [show t.emit scope b1 = _ from e2]
    simp only
    rw [show b2.leaveLoop (L.frame b.columns) v = _ from e3]
  · have hv1 : d1.body.fn.values.toList = b.draft.body.fn.values.toList ++ _ ++ _ ++ _ ++ _ :=
      congrArg Shape.values hs1
    have hv3 : d3.body.fn.values.toList = d2.body.fn.values.toList ++ _ := congrArg Shape.values hs3
    rw [hv3]
    refine List.IsPrefix.trans ?_ (hw.values.trans (List.prefix_append _ _))
    rw [hv1, List.append_assoc, List.append_assoc, List.append_assoc]
    exact List.prefix_append _ _

theorem hasTypes_range {f : Func} {ts : List Ty} (h : ts <+: f.values.toList) :
    f.HasTypes (List.range ts.length) ts := by
  obtain ⟨rest, e⟩ := h
  unfold Func.HasTypes
  refine List.ext_getElem? fun i => ?_
  rw [List.getElem?_map, List.getElem?_map]
  by_cases hi : i < ts.length
  · rw [List.getElem?_range hi, Option.map_some, ← Array.getElem?_toList, ← e,
      List.getElem?_append_left hi, List.getElem?_eq_getElem hi]
    rfl
  · rw [List.getElem?_eq_none (by simpa using hi), List.getElem?_eq_none (Nat.le_of_not_lt hi)]
    rfl

/-- a block that ends in a branch to other blocks than the entry -/
theorem leaves_brif {before : List Step} {t : Ty} {c : ValueNo} {yes no : Target}
    (hy : yes.block ≠ 0) (hn : no.block ≠ 0) : Leaves (before ++ [⟨.brif t c yes no, []⟩]) := by
  refine ⟨before, _, rfl, rfl, fun u hu => ?_⟩
  have hu : u ∈ [yes, no] := hu
  rw [List.mem_pair] at hu
  rcases hu with rfl | rfl
  · exact hy
  · exact hn

theorem vectorSig_isValid (arrays scalars : List Int) : (vectorSig arrays scalars).isValid = true := by
  simp [vectorSig, Signature.isValid, Ty.isValid]

/-- **The vector function can be written.** -/
theorem vectorCode_completes [Host.Platform] {scope : Scope} (hc : scope.catalog.HoldsBuiltins)
    {t : Tree} (ht : t.check = .ok ()) (hk : t.kind = .bool) {arrays scalars : List Int}
    (hcol : ∀ c ∈ t.columns, c.toInt ∈ arrays ++ scalars) (id : Nat) (name : String) :
    ∃ f, Completes scope id name (vectorSig arrays scalars) (vectorCode t arrays scalars) f := by
  have hvalid := vectorSig_isValid arrays scalars
  have h0 := Builder.atWork_new hvalid id name
  have hmade := Builder.made_new id name (vectorSig arrays scalars)
  obtain ⟨hshape, hS, hparams⟩ := Builder.new_sound h0.healthy
  have hvalues : (Builder.new id name (vectorSig arrays scalars)).draft.body.fn.values.toList =
      (vectorSig arrays scalars).params := congrArg Shape.values hshape
  obtain ⟨l, hl, e0⟩ := vectorBody_ready t scope h0 hparams
  have hcols : (l.arrays ++ l.scalars).map (·.column) = arrays ++ scalars := by
    rw [List.map_append, hl.columns, hl.scalarColumns]
  obtain ⟨d, head, e, hw⟩ := vectorLoop_ready hc ht hk h0 hmade (Builder.native_new hvalid id name) rfl
    (hl.check hvalues) (hcols ▸ hcol)
  have hatwork : Builder.AtWork { Builder.new id name (vectorSig arrays scalars) with draft := d }
      (head + 1) := ⟨rfl, rfl, hw.isOpen⟩
  -- the code: the entry block, the loop block and the block behind the loop
  obtain ⟨L, d1, d2, d3, out, ss, hloop, e'⟩ := vectorLoop_sound hc ht hS h0.isOpen.current
    (l := l) (by rw [e]; exact hatwork.healthy)
  rw [e] at e'
  obtain rfl : d = d3 := congrArg Builder.draft e'
  have hnum := numbered_of_fits hl hloop.fits hshape
  obtain rfl : head = L.head :=
    Nat.succ.inj (Option.some.inj (hw.isOpen.current.symm.trans hloop.current))
  have hcode : d.body.fn.code = [(List.range (vectorSig arrays scalars).params.length,
      L.openSteps ++ [L.enter]), (L.params, L.loadSteps ++ ss ++ (L.closeSteps (laneTy 2 t.kind) out
        d2.body.fn.values.size ++ [L.again d2.body.fn.values.size])), ([], [])] := by
    refine hloop.code.trans ?_
    rw [hshape]
    rfl
  have hsig : d.body.fn.sig = vectorSig arrays scalars :=
    hloop.sig.trans (congrArg Shape.sig hshape)
  have hbody : vectorCode t arrays scalars scope (Builder.new id name (vectorSig arrays scalars)) =
      ({ Builder.new id name (vectorSig arrays scalars) with draft := d }, some []) := by
    simp only [vectorCode, e0, e]
    rfl
  refine completes_of_atWork hbody rfl hatwork hw.made hw.native hsig Draft.Has.nil
    (by rw [hcode]; rfl) (hasTypes_range (hvalues ▸ hw.values)) ?_
  intro n p hn hne
  rw [hcode] at hn
  rw [hnum.head] at hne
  have hhead : L.head ≠ 0 := by rw [hnum.head]; exact Nat.one_ne_zero
  match n, hn with
  | 0, hn =>
    cases hn
    exact leaves_brif (Nat.succ_ne_zero _) hhead
  | 1, hn =>
    cases hn
    rw [← List.append_assoc]
    exact leaves_brif hhead (Nat.succ_ne_zero _)
  | 2, _ => exact absurd rfl hne

end Predicate
end TreeJit
