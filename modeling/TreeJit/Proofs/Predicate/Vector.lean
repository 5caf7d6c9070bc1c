import TreeJit.Proofs.Emit.LoopRun
import TreeJit.Proofs.Predicate.Row

/-!
# The vector function

The vector function is a loop around the code of the tree.  Its parameters are the pointers of the
array columns, the result pointer, the number of rows and the scalars, so the loop finds the columns
by their places in these lists (`paramInputs_sound`), and the tree finds them by their numbers.

* `vectorCode_of_finalize`  the code of the function;
* `VectorFunction.run`      running it on an even number of rows leaves one mask word for each.
-/

namespace TreeJit.Predicate

open SSA Emit

/-! ## parameters -/

theorem healthy_of_paramInputs (i : Nat) (cs : List Int) {b : Builder}
    (h : (paramInputs b i cs).1.Healthy) : b.Healthy := by
  induction cs generalizing i b with
  | nil => exact h
  | cons c cs ih =>
    have h1 : (b.param i).1.Healthy := ih (i + 1) h
    exact (Builder.attempt_sound h1).1

theorem param_value {b : Builder} {n i : Nat} (hp : b.params = (List.range n).map Int.ofNat)
    {v : Int} (hv : b.params[i]? = some v) : v = i := by
  rw [hp, List.getElem?_map] at hv
  obtain ⟨k, hk, rfl⟩ := Option.map_eq_some_iff.mp hv
  obtain ⟨hlt, rfl⟩ := List.getElem?_eq_some_iff.mp hk
  rw [List.getElem_range]
  rfl

theorem paramInputs_sound {b : Builder} {n : Nat} (hp : b.params = (List.range n).map Int.ofNat)
    (i : Nat) (cs : List Int) (h : (paramInputs b i cs).1.Healthy) :
    ∃ xs : List ColumnInput, paramInputs b i cs = (b, xs) ∧
      xs.map (·.column) = cs ∧ xs.map (·.value) = (List.range' i cs.length).map Int.ofNat := by
  induction cs generalizing i with
  | nil => exact ⟨[], rfl, rfl, rfl⟩
  | cons c cs ih =>
    have h1 : (b.param i).1.Healthy := healthy_of_paramInputs (i + 1) cs h
    obtain ⟨-, v, hv, e1⟩ := Builder.param_sound h1
    have hi : v = i := param_value hp hv
    have h2 : (paramInputs b (i + 1) cs).1.Healthy := by
      have hh : (paramInputs (b.param i).1 (i + 1) cs).1.Healthy := h
      rwa [e1] at hh
    obtain ⟨xs, e2, hc, hval⟩ := ih (i + 1) h2
    refine ⟨⟨c, v⟩ :: xs, ?_, ?_, ?_⟩
    · rw [paramInputs, e1]
      simp only [e2]
    · rw [List.map_cons, hc]
    · rw [List.map_cons, hval, hi, List.length_cons, List.range'_succ]
      rfl

/-! ## the code -/

/-- a loop around the code `ss` of a tree: the drafts before and after the tree and after the loop -/
structure TreeLoop (t : Tree) (b : Builder) (l : VectorLoop) (cur : Nat) (L : LoopLayout)
    (d1 d2 d3 : Draft) (out : ValueNo) (ss : List Step) : Prop where
  fits : L.Fits l b.draft.body cur
  start : d1.body.fn.values.size = L.next + L.arrays.length
  meaning : TreeMeaning t { b with draft := d1, columns := L.columns l, lanes := 2 } d2 out ss
  grows : d1.body.fn.values.size ≤ d2.body.fn.values.size
  sound : d3.Holds Body.Sound
  imports : d3.body.shape.imports = d2.body.shape.imports
  sig : d3.body.shape.sig = b.draft.body.shape.sig
  code : d3.body.shape.code = writeAt cur (L.openSteps ++ [L.enter]) b.draft.body.shape.code ++
    [(L.params, L.loadSteps ++ ss ++ (L.closeSteps (laneTy 2 t.kind) out d2.body.fn.values.size ++
      [L.again d2.body.fn.values.size])), ([], [])]
  size : d3.body.fn.values.size = L.moved d2.body.fn.values.size + 4
  current : d3.body.shape.current = some (L.head + 1)

theorem healthy_of_vectorLoop {scope : Scope} {t : Tree} {b : Builder} {l : VectorLoop}
    (h : (b.vectorLoop l (t.emit scope)).1.Healthy) : (b.enterLoop l).1.Healthy := by
  unfold Builder.vectorLoop at h
  split at h
  · rename_i b1 h1
    rw [h1]
    exact h
  · rename_i b1 f h1
    have hh : (t.emit scope b1).1.Healthy := by
      split at h
      · rename_i b2 h2
        rw [h2]
        exact h
      · rename_i b2 out h2
        rw [h2]
        exact (Builder.leaveLoop_eq h).1
    rw [h1]
    exact Tree.healthy_of_emit t hh

theorem vectorLoop_sound [Host.Platform] {scope : Scope} (hc : scope.catalog.HoldsBuiltins)
    {t : Tree} (ht : t.check = .ok ()) {b : Builder} (hS : b.draft.Holds Body.Sound) {cur : Nat}
    (hcur : b.draft.body.current = some cur) {l : VectorLoop}
    (h : (b.vectorLoop l (t.emit scope)).1.Healthy) :
    ∃ (L : LoopLayout) (d1 d2 d3 : Draft) (out : ValueNo) (ss : List Step),
      TreeLoop t b l cur L d1 d2 d3 out ss ∧
      (b.vectorLoop l (t.emit scope)).1 = { b with draft := d3, lanes := 1 } := by
  obtain ⟨-, hl, L, d1, hfits, h1, hS1, hs1⟩ := Builder.enterLoop_sound hS hcur
    (healthy_of_vectorLoop h)
  have hcur1 : d1.body.current = some L.head := congrArg Shape.current hs1
  have hbase : b.draft.body.shape.values.length = L.base := by
    rw [Body.shape_values_length, hfits.base]
  have hcb : t.ColumnsBound { b with draft := d1, columns := L.columns l, lanes := 2 } :=
    fun c _ v hv => LoopLayout.columns_typed hbase (congrArg Shape.values hs1) hv
  cases h2 : t.emit scope { b with draft := d1, columns := L.columns l, lanes := 2 } with
  | mk b2 out? =>
    have e : b.vectorLoop l (t.emit scope) = match out? with
        | none => (b2, none)
        | some out => (b2.leaveLoop (L.frame b.columns) out, some ()) := by
      rw [Builder.vectorLoop, h1]
      simp only [h2]
      cases out? <;> rfl
    rw [e] at h ⊢
    have hh2 : b2.Healthy := by
      cases out? with
      | none => exact h
      | some out => exact (Builder.leaveLoop_eq h).1
    obtain ⟨-, out, d2, ss, e2, hem, hm⟩ := Tree.emit_sound (fun _ => hc) t ht hS1
      (show 1 ≤ 2 by decide) hcur1 hcb (by rw [h2]; exact hh2)
    obtain ⟨rfl, rfl⟩ := Prod.mk.inj (h2.symm.trans e2)
    have hw : d1.body.Writes d2.body ss := hem.writes
    have hcur2 : d2.body.current = some L.head := hw.current.trans hcur1
    obtain ⟨-, u, o, d3, ho, hu, -, e3, hS3, hs3⟩ := Builder.leaveLoop_sound hem.sound L hcur2 h
    obtain rfl : out = o := Int.ofNat.inj ho
    have hty : d2.body.fn.values[out]? = some (laneTy 2 t.kind) := hem.typed
    obtain rfl : u = laneTy 2 t.kind := Option.some.inj (hu.symm.trans hty)
    have hs3' : d3.body.shape = { d2.body.shape with
        code := writeAt L.head (L.closeSteps (laneTy 2 t.kind) out d2.body.fn.values.size ++
          [L.again d2.body.fn.values.size]) d2.body.shape.code
        values := d2.body.shape.values ++ (.i64 :: List.replicate L.arrays.length .i64 ++
          [.i64, .i64, .i64, .i8])
        current := some (L.head + 1) } := hs3
    obtain ⟨hstart, hcode, hsize⟩ := LoopLayout.shape_around hfits hs1 hw hs3'
    refine ⟨L, d1, d2, d3, out, ss, ?_, ?_⟩
    · refine ⟨hfits, hstart, hm, hw.size_le, hS3, ?_, ?_, hcode, hsize, ?_⟩
      · rw [hs3']
      · rw [hs3']
        exact hw.sig.trans (congrArg Shape.sig hs1)
      · rw [hs3']
    · show Builder.leaveLoop _ _ _ = _
      rw [e3, ← hl]

/-! ## rows in memory -/

/-- the first `n` rows: array columns lie behind pointers, scalars have their value in each row -/
structure HoldsRows (m : Memory) (arrays scalars : List Int) (ptrs words : List UInt64)
    (rows : Nat → List UInt64) (n : Nat) : Prop where
  arrays : ∀ (i : Nat) (c : Int) (p : UInt64) (j : Nat), arrays[i]? = some c →
    ptrs[i]? = some p → j < n → readVal m .f64 (p + UInt64.ofNat (8 * j)) =
      ⟨((rows j)[c.toNat]?).getD nanBits, 0⟩
  scalars : ∀ (i : Nat) (c : Int) (x : UInt64) (j : Nat), scalars[i]? = some c →
    words[i]? = some x → j < n → ((rows j)[c.toNat]?).getD nanBits = x

theorem HoldsRows.pair {m : Memory} {arrays scalars : List Int} {ptrs words : List UInt64}
    {rows : Nat → List UInt64} {n : Nat} (h : HoldsRows m arrays scalars ptrs words rows (2 * n))
    {i j : Nat} {c : Int} {p : UInt64} (hc : arrays[i]? = some c) (hp : ptrs[i]? = some p)
    (hj : j < n) : readVal m .f64x2 (p + UInt64.ofNat (16 * j)) =
      ⟨((rows (2 * j))[c.toNat]?).getD nanBits, ((rows (2 * j + 1))[c.toNat]?).getD nanBits⟩ := by
  rw [readVal_pair, h.arrays i c p (2 * j) hc hp (by omega),
    h.arrays i c p (2 * j + 1) hc hp (by omega)]

theorem keepAll_words {ts : List Ty} (ht : ∀ t ∈ ts, t = .i64 ∨ t = .f64) {xs : List UInt64}
    (hl : ts.length = xs.length) :
    Val.keepAll ts (xs.map fun x => ⟨x, 0⟩) = xs.map fun x => ⟨x, 0⟩ := by
  induction ts generalizing xs with
  | nil =>
    cases xs with
    | nil => rfl
    | cons => cases hl
  | cons t ts ih =>
    cases xs with
    | nil => cases hl
    | cons x xs =>
      have hrest := ih (fun u hu => ht u (List.mem_cons_of_mem _ hu)) (Nat.succ.inj hl)
      have hx : Val.keep t ⟨x, 0⟩ = ⟨x, 0⟩ := by
        rcases ht t List.mem_cons_self with rfl | rfl <;> rfl
      show Val.keep t ⟨x, 0⟩ :: Val.keepAll ts (xs.map fun x => ⟨x, 0⟩) = _
      rw [hx, hrest]
      rfl

/-! ## the whole function -/

/-- the masks of rows `2 j` and `2 j + 1` -/
def maskPair (F : FloatOps) (t : Tree) (rows : Nat → List UInt64) (j : Nat) : Val :=
  ⟨laneMask (t.eval F (rows (2 * j)) ≠ 0), laneMask (t.eval F (rows (2 * j + 1)) ≠ 0)⟩

/-- a function that writes for each row whether the tree is true of it -/
structure VectorFunction (t : Tree) (arrays scalars : List Int) (f : Func) : Prop where
  sig : f.sig = vectorSig arrays scalars
  run : ∀ (w : World) (fuel n : Nat) (sp res : UInt64) (ptrs words : List UInt64) (mem : Memory)
    (rows : Nat → List UInt64), Natives w → ptrs.length = arrays.length →
    words.length = scalars.length → 16 * n < 2 ^ 64 →
    (∀ p ∈ ptrs, Memory.Apart res (16 * n) p (16 * n)) →
    HoldsRows mem arrays scalars ptrs words rows (2 * n) →
    ∃ mem', f.run w (fuel + n + 2) sp
        ((ptrs ++ [res, UInt64.ofNat (2 * n)] ++ words).map fun x => ⟨x, 0⟩) mem = .ok ([], mem') ∧
      mem'.bytes (16 * n) res = (List.range n).flatMap fun j => valBytes (maskPair w.float t rows j)

theorem getAll_arguments {f : Func} {m : Memory} {ptrs words : List UInt64} {r c : UInt64}
    {n k : Nat} (hn : ptrs.length = n) (hk : words.length = k) (hs : n + 2 + k ≤ f.values.size) :
    let st := (f.startState m).setAll (List.range (n + 2 + k))
      ((ptrs ++ [r, c] ++ words).map fun x => ⟨x, 0⟩)
    st.getAll (List.range' 0 n) = ptrs.map (fun x => ⟨x, 0⟩) ∧ st.get n = ⟨r, 0⟩ ∧
      st.get (n + 1) = ⟨c, 0⟩ ∧ st.getAll (List.range' (n + 2) k) = words.map fun x => ⟨x, 0⟩ := by
  intro st
  have h := State.getAll_setAll (f.startState m) (List.range (n + 2 + k))
    ((ptrs ++ [r, c] ++ words).map fun x => ⟨x, 0⟩) List.nodup_range (by simp [hn, hk]; omega)
    fun v hv => by
      rw [Func.size_startState]
      exact Nat.lt_of_lt_of_le (List.mem_range.mp hv) hs
  have e : List.range (n + 2 + k) = List.range' 0 n ++ [n, n + 1] ++ List.range' (n + 2) k := by
    rw [List.range_eq_range', ← List.range'_append_1, ← List.range'_append_1, Nat.zero_add,
      Nat.zero_add]
    rfl
  have h' : st.getAll (List.range' 0 n ++ [n, n + 1] ++ List.range' (n + 2) k) =
      (ptrs ++ [r, c] ++ words).map fun x => ⟨x, 0⟩ := by
    rw [← e]
    exact h
  simp only [State.getAll_append, List.map_append] at h'
  obtain ⟨h1, h2⟩ := List.append_inj h' (by simp [State.getAll, hn])
  obtain ⟨h3, h4⟩ := List.append_inj h1 (by simp [State.getAll, hn])
  have h5 : [st.get n, st.get (n + 1)] = [⟨r, 0⟩, ⟨c, 0⟩] := h4
  simp only [List.cons.injEq, and_true] at h5
  exact ⟨h3, h5.1, h5.2, h2⟩

theorem columnsHold_of_round {t : Tree} (ht : t.check = .ok ()) {arrays scalars : List Int}
    {L : LoopLayout} {l : VectorLoop} {b : Builder} (hb : b.columns = L.columns l)
    (hl : b.lanes = 2) (ha : l.arrays.map (·.column) = arrays)
    (hs : l.scalars.map (·.column) = scalars) {m : Memory} {ptrs words : List UInt64}
    {rows : Nat → List UInt64} {n j : Nat}
    (hr : HoldsRows m arrays scalars ptrs words rows (2 * n)) (hj : j < n) {st : State}
    (hpairs : st.getAll (List.range' L.next L.arrays.length) =
      ptrs.map fun p => readVal m .f64x2 (p + UInt64.ofNat (16 * j)))
    (hspread : st.getAll L.spread = words.map fun x => ⟨x, x⟩) :
    t.ColumnsHold b (rows (2 * j)) (rows (2 * j + 1)) st := by
  intro c hc v hv
  have hnn := columns_nonneg ht c hc
  rw [hl, cell_of_nonneg hnn, cell_of_nonneg hnn]
  rw [hb] at hv
  have hget : ∀ {k s : Nat} {xs : List Val} {i : Nat}, st.getAll (List.range' s k) = xs → i < k →
      xs[i]? = some (st.get (s + i)) := by
    intro k s xs i e hi
    rw [← e, State.getAll, List.getElem?_map, List.getElem?_range' hi, Nat.one_mul]
    rfl
  rcases LoopLayout.lookup_columns hv with ⟨i, hi, hci, e⟩ | ⟨i, hi, hci, e⟩
  · obtain rfl := Int.ofNat.inj e
    have hx := hget hpairs hi
    rw [List.getElem?_map] at hx
    obtain ⟨p, hp, hpv⟩ := Option.map_eq_some_iff.mp hx
    rw [ha] at hci
    rw [← hpv, hr.pair hci hp hj]
    rfl
  · obtain rfl := Int.ofNat.inj e
    have hx := hget hspread hi
    rw [List.getElem?_map] at hx
    obtain ⟨x, hx', hxv⟩ := Option.map_eq_some_iff.mp hx
    rw [hs] at hci
    rw [← hxv, hr.scalars i _ x (2 * j) hci hx' (by omega),
      hr.scalars i _ x (2 * j + 1) hci hx' (by omega)]
    rfl

/-- the loop of the vector function: its operands are the parameters, in order -/
structure LoopOfParams (arrays scalars : List Int) (l : VectorLoop) : Prop where
  columns : l.arrays.map (·.column) = arrays
  values : l.arrays.map (·.value) = (List.range' 0 arrays.length).map Int.ofNat
  scalarColumns : l.scalars.map (·.column) = scalars
  scalarValues : l.scalars.map (·.value) =
    (List.range' (arrays.length + 2) scalars.length).map Int.ofNat
  result : l.result = (arrays.length : Nat)
  count : l.count = (arrays.length + 1 : Nat)

theorem vectorBody_eq {t : Tree} {arrays scalars : List Int} {scope : Scope} {b : Builder}
    (h : (vectorBody t arrays scalars scope b).1.Healthy) :
    b.Healthy ∧ ∀ n, b.params = (List.range n).map Int.ofNat → ∃ l : VectorLoop,
      LoopOfParams arrays scalars l ∧
      vectorBody t arrays scalars scope b = b.vectorLoop l (t.emit scope) := by
  cases h1 : b.param arrays.length with
  | mk b1 result =>
  cases h2 : b1.param (arrays.length + 1 : Nat) with
  | mk b2 count =>
  cases h3 : paramInputs b2 0 arrays with
  | mk b3 as =>
  cases h4 : paramInputs b3 (arrays.length + 2) scalars with
  | mk b4 ss =>
    have e : vectorBody t arrays scalars scope b =
        b4.vectorLoop ⟨as, ss, result, count⟩ (t.emit scope) := by
      have h2' : b1.param ((arrays.length : Int) + 1) = (b2, count) := h2
      simp only [vectorBody, h1, h2', h3, h4]
    rw [e] at h ⊢
    -- every builder on the way is the first one
    have hh4 : b4.Healthy := (Builder.attempt_sound (healthy_of_vectorLoop h)).1
    have hh3 : b3.Healthy := healthy_of_paramInputs _ scalars (by rw [h4]; exact hh4)
    have hh2 : b2.Healthy := healthy_of_paramInputs _ arrays (by rw [h3]; exact hh3)
    obtain ⟨hh1, v2, hv2, e2⟩ := Builder.param_sound (b := b1) (i := arrays.length + 1)
      (by rw [h2]; exact hh2)
    obtain ⟨hh, v1, hv1, e1⟩ := Builder.param_sound (b := b) (i := arrays.length)
      (by rw [h1]; exact hh1)
    obtain ⟨rfl, rfl⟩ := Prod.mk.inj (h1.symm.trans e1)
    obtain ⟨rfl, rfl⟩ := Prod.mk.inj (h2.symm.trans e2)
    refine ⟨hh, fun n hp => ?_⟩
    obtain ⟨xs, e3, hxc, hxv⟩ := paramInputs_sound hp 0 arrays (by rw [h3]; exact hh3)
    obtain ⟨rfl, rfl⟩ := Prod.mk.inj (h3.symm.trans e3)
    obtain ⟨ys, e4, hyc, hyv⟩ := paramInputs_sound hp (arrays.length + 2) scalars
      (by rw [h4]; exact hh4)
    obtain ⟨rfl, rfl⟩ := Prod.mk.inj (h4.symm.trans e4)
    exact ⟨_, ⟨hxc, hxv, hyc, hyv, param_value hp hv1, param_value hp hv2⟩, rfl⟩

/-- the numbers of the loop of the vector function for `n` arrays and `k` scalars -/
structure Numbered (n k : Nat) (L : LoopLayout) : Prop where
  entry : L.entry = 0
  head : L.head = 1
  base : L.base = n + 2 + k
  arrays : L.arrays = List.range' 0 n
  scalars : L.scalars = List.range' (n + 2) k
  result : L.result = n
  count : L.count = n + 1

theorem numbered_of_fits {arrays scalars : List Int} {l : VectorLoop}
    (hl : LoopOfParams arrays scalars l) {b : Body} {L : LoopLayout} (hf : L.Fits l b 0)
    (hb : b.shape = Builder.startShape (vectorSig arrays scalars)) :
    Numbered arrays.length scalars.length L where
  entry := hf.entry
  head := by
    rw [hf.head, ← Body.shape_code_length, hb]
    rfl
  base := by
    rw [hf.base, ← Body.shape_values_length, hb]
    simp [Builder.startShape, vectorSig]
    omega
  arrays := ofNat_map_inj (hf.arrays.symm.trans hl.values)
  scalars := ofNat_map_inj (hf.scalars.symm.trans hl.scalarValues)
  result := Int.ofNat.inj (hf.result.symm.trans hl.result)
  count := Int.ofNat.inj (hf.count.symm.trans hl.count)

theorem Numbered.old {n k : Nat} {L : LoopLayout} (h : Numbered n k L) :
    ∀ v ∈ L.arrays ++ L.scalars ++ [L.result, L.count], v < L.base := by
  intro v hv
  rw [h.base]
  rw [h.arrays, h.scalars, h.result, h.count] at hv
  simp only [List.mem_append, List.mem_range'_1, List.mem_cons, List.not_mem_nil, or_false] at hv
  show v < n + 2 + k
  rcases hv with (⟨-, hv⟩ | ⟨-, hv⟩) | rfl | rfl
  · exact Nat.lt_of_lt_of_le hv (by omega)
  · exact hv
  · exact Nat.lt_of_lt_of_le (Nat.lt_succ_self v) (by omega)
  · exact Nat.lt_of_lt_of_le (Nat.lt_succ_self (n + 1)) (by omega)

theorem operands_of_arguments {n k : Nat} {L : LoopLayout} (h : Numbered n k L) {st : State}
    {ptrs words : List UInt64} {r c : UInt64}
    (h1 : st.getAll (List.range' 0 n) = ptrs.map fun x => ⟨x, 0⟩) (h2 : st.get n = ⟨r, 0⟩)
    (h3 : st.get (n + 1) = ⟨c, 0⟩)
    (h4 : st.getAll (List.range' (n + 2) k) = words.map fun x => ⟨x, 0⟩) :
    L.operands st = ⟨ptrs, r, words.map fun x => ⟨x, x⟩, c.toNat⟩ ∧
      ∀ v ∈ L.arrays ++ [L.result, L.count], (st.get v).hi = 0 := by
  refine ⟨?_, ?_⟩
  · unfold LoopLayout.operands
    have ha : (L.arrays.map fun v => (st.get v).lo) = ptrs := by
      have e := congrArg (List.map Val.lo) h1
      rw [State.getAll, List.map_map, List.map_map] at e
      rw [h.arrays]
      exact e.trans (List.map_id _)
    have hs : (L.scalars.map fun v => (⟨(st.get v).lo, (st.get v).lo⟩ : Val)) =
        words.map fun x => ⟨x, x⟩ := by
      have e := congrArg (List.map fun v : Val => (⟨v.lo, v.lo⟩ : Val)) h4
      rw [State.getAll, List.map_map, List.map_map] at e
      rw [h.scalars]
      exact e
    rw [ha, hs, h.result, h.count, h2, h3]
  · intro v hv
    rw [h.arrays, h.result, h.count] at hv
    rcases List.mem_append.mp hv with hv | hv
    · have hm : st.get v ∈ st.getAll (List.range' 0 n) := List.mem_map_of_mem hv
      rw [h1] at hm
      obtain ⟨x, -, hx⟩ := List.mem_map.mp hm
      rw [← hx]
    · simp only [List.mem_cons, List.not_mem_nil, or_false] at hv
      rcases hv with rfl | rfl
      · rw [h2]
      · rw [h3]

/-- the code of the vector function: a loop around the code `ss` of the tree -/
structure VectorCode (t : Tree) (arrays scalars : List Int) (f : Func) (L : LoopLayout)
    (l : VectorLoop) (b : Builder) (d1 d2 : Draft) (out : ValueNo) (ss : List Step) : Prop where
  sig : f.sig = vectorSig arrays scalars
  params : LoopOfParams arrays scalars l
  numbered : Numbered arrays.length scalars.length L
  code : LoopLayout.CodeIn L f (List.range (arrays.length + 2 + scalars.length)) [] ss
    (laneTy 2 t.kind) out d2.body.fn.values.size
  exit : f.code[L.head + 1]? = some ([], [] ++ [⟨.ret [], []⟩])
  start : d1.body.fn.values.size = L.next + L.arrays.length
  meaning : TreeMeaning t { b with draft := d1, columns := L.columns l, lanes := 2 } d2 out ss
  imports : d2.body.fn.imports.toList <+: f.imports.toList

theorem length_vectorSig (arrays scalars : List Int) :
    (vectorSig arrays scalars).params.length = arrays.length + 2 + scalars.length := by
  simp [vectorSig]
  omega

theorem vectorCode_of_finalize [Host.Platform] {scope : Scope} (hc : scope.catalog.HoldsBuiltins)
    {t : Tree} (ht : t.check = .ok ()) {arrays scalars : List Int} {id : Nat} {name : String}
    {b b' : Builder} {x : Unit} {f : Func}
    (hb : vectorBody t arrays scalars scope (Builder.new id name (vectorSig arrays scalars)) =
      (b, some x)) (hf : b.finalize [] = (b', .ok f)) :
    ∃ L l b0 d1 d2 out ss, VectorCode t arrays scalars f L l b0 d1 d2 out ss := by
  have hh : (vectorBody t arrays scalars scope
      (Builder.new id name (vectorSig arrays scalars))).1.Healthy := by
    rw [hb]
    exact Builder.healthy_of_finalize hf
  obtain ⟨hnew, heq⟩ := vectorBody_eq hh
  obtain ⟨hshape, hS0, hparams⟩ := Builder.new_sound hnew
  obtain ⟨l, hl, e⟩ := heq _ hparams
  rw [e] at hh
  have hcur0 : (Builder.new id name (vectorSig arrays scalars)).draft.body.current = some 0 :=
    congrArg Shape.current hshape
  obtain ⟨L, d1, d2, d3, out, ss, hloop, e'⟩ := vectorLoop_sound hc ht hS0 hcur0 hh
  have hb3 : b = { Builder.new id name (vectorSig arrays scalars) with draft := d3, lanes := 1 } := by
    rw [← e', ← e, hb]
  have hnum := numbered_of_fits hl hloop.fits hshape
  obtain ⟨-, -, -, -, vs, hvs, cur, hcur, hfcode, hfvals, hfimp, -, hfsig⟩ :=
    Builder.finalize_sound (b := b) (by rw [hb3]; exact hloop.sound) hf
  rw [hb3] at hcur hfcode hfvals hfimp hfsig
  simp only at hcur hfcode hfvals hfimp hfsig
  obtain rfl : vs = [] := List.map_eq_nil_iff.mp hvs.symm
  obtain rfl : cur = L.head + 1 := Option.some.inj (hcur.symm.trans hloop.current)
  have hcode : f.code = [(List.range (arrays.length + 2 + scalars.length), L.openSteps ++ [L.enter]),
      (L.params, L.loadSteps ++ ss ++ (L.closeSteps (laneTy 2 t.kind) out d2.body.fn.values.size ++
        [L.again d2.body.fn.values.size])), ([], [⟨.ret [], []⟩])] := by
    rw [hfcode, hloop.code, hshape, hnum.head, ← length_vectorSig]
    rfl
  have hsize : f.values.size = L.moved d2.body.fn.values.size + 4 := by
    have hlen := congrArg List.length hfvals
    rw [Array.length_toList, Body.shape_values_length] at hlen
    rw [hlen, hloop.size]
  refine ⟨L, l, _, d1, d2, out, ss, ?_, hl, hnum, ⟨?_, ?_, ?_, Nat.le_of_eq hsize.symm⟩, ?_,
    hloop.start, hloop.meaning, ?_⟩
  · rw [hfsig, hloop.sig, hshape]
    rfl
  · rw [hcode, hnum.entry]
    rfl
  · rw [hcode, hnum.head]
    rfl
  · rw [← hloop.start]
    exact hloop.grows
  · rw [hcode, hnum.head]
    rfl
  · rw [hfimp, hloop.imports]
    exact List.prefix_rfl

/-- the loop of the vector function runs, and its rounds compute the masks -/
theorem VectorCode.runs {t : Tree} (ht : t.check = .ok ()) (hk : t.kind = .bool)
    {arrays scalars : List Int} {f : Func} {L : LoopLayout} {l : VectorLoop} {b : Builder}
    {d1 d2 : Draft} {out : ValueNo} {ss : List Step}
    (h : VectorCode t arrays scalars f L l b d1 d2 out ss) {w : World} (hN : Natives w)
    {a : Activation} (ha : a.fn = f) {n : Nat} (hn : 16 * n < 2 ^ 64) {res : UInt64}
    {ptrs words : List UInt64} {rows : Nat → List UInt64} (hpl : ptrs.length = arrays.length)
    (hwl : words.length = scalars.length)
    (hap : ∀ p ∈ ptrs, Memory.Apart res (16 * n) p (16 * n)) {st : State}
    (hst : st.regs.size = f.values.size)
    (hrows : HoldsRows st.mem arrays scalars ptrs words rows (2 * n)) :
    LoopLayout.Runs L w a ⟨ptrs, res, words.map fun x => ⟨x, x⟩, 2 * n⟩ ss (laneTy 2 t.kind) out n
      st st.mem (maskPair w.float t rows) where
  arrays := by rw [h.numbered.arrays, List.length_range', hpl]
  spread := by rw [h.numbered.scalars, List.length_range', List.length_map, hwl]
  count := rfl
  small := by
    show 2 * n < 2 ^ 63
    omega
  vector := by
    rw [hk]
    rfl
  apart := hap
  size := by rw [hst, ha]
  body := by
    intro j hj st2 hsz _ hpairs hspread
    have hsize := h.code.size
    have hm : L.moved d2.body.fn.values.size = d2.body.fn.values.size + 1 + L.arrays.length := rfl
    have hcomp := h.meaning w a st2 (rows (2 * j)) (rows (2 * j + 1)) hN (by rw [ha]; exact h.imports)
      (by rw [hsz, hst]; omega)
      (columnsHold_of_round ht rfl rfl h.params.columns h.params.scalarColumns hrows hj hpairs hspread)
    rw [hk] at hcomp
    rw [← h.start]
    exact hcomp

/-- **The vector function writes for each row whether the tree is true of it.** -/
theorem vectorFunction_of_finalize [Host.Platform] {scope : Scope}
    (hc : scope.catalog.HoldsBuiltins) {t : Tree} (ht : t.check = .ok ()) (hk : t.kind = .bool)
    {arrays scalars : List Int} {id : Nat} {name : String} {b b' : Builder} {x : Unit} {f : Func}
    (hb : vectorBody t arrays scalars scope (Builder.new id name (vectorSig arrays scalars)) =
      (b, some x)) (hf : b.finalize [] = (b', .ok f)) : VectorFunction t arrays scalars f := by
  obtain ⟨L, l, b0, d1, d2, out, ss, h⟩ := vectorCode_of_finalize hc ht hb hf
  refine ⟨h.sig, ?_⟩
  intro w fuel n sp res ptrs words mem rows hN hpl hwl hn hap hrows
  let args : List Val := (ptrs ++ [res, UInt64.ofNat (2 * n)] ++ words).map fun x => ⟨x, 0⟩
  let st : State := (f.startState mem).setAll
    (List.range (arrays.length + 2 + scalars.length)) args
  have hmem : st.mem = mem := State.mem_setAll ..
  have hsize : st.regs.size = f.values.size := by
    rw [State.size_setAll, Func.size_startState]
  -- the parameters hold the arguments
  have hroom : arrays.length + 2 + scalars.length ≤ f.values.size := by
    have h1 := h.code.size
    have h2 := h.code.body
    have h3 := L.next_eq
    have h4 := h.numbered.base
    have h5 : L.first = L.base + L.scalars.length := rfl
    have h6 : L.moved d2.body.fn.values.size = d2.body.fn.values.size + 1 + L.arrays.length := rfl
    omega
  obtain ⟨g1, g2, g3, g4⟩ := getAll_arguments (f := f) (m := mem) (r := res)
    (c := UInt64.ofNat (2 * n)) hpl hwl hroom
  obtain ⟨hops, hword⟩ := operands_of_arguments h.numbered g1 g2 g3 g4
  have hcount : (UInt64.ofNat (2 * n)).toNat = 2 * n := by
    rw [UInt64.toNat_ofNat', Nat.mod_eq_of_lt (by omega)]
  rw [hcount] at hops
  have hargs : Val.keepAll f.sig.params args = args := by
    rw [h.sig]
    refine keepAll_words ?_ ?_
    · intro u hu
      simp only [vectorSig, List.mem_append, List.mem_replicate, List.mem_singleton,
        List.mem_map] at hu
      rcases hu with (⟨-, rfl⟩ | rfl) | ⟨-, -, rfl⟩
      · exact .inl rfl
      · exact .inl rfl
      · exact .inr rfl
    · rw [length_vectorSig]
      simp [hpl, hwl]
      omega
  have hruns := h.runs ht hk hN (a := f.activation sp) rfl hn hpl hwl hap hsize
    (by rw [hmem]; exact hrows)
  rw [← hops] at hruns
  have hstart : Evolves w (f.activation sp) st [] st := .nil
  obtain ⟨st', hrun, hat⟩ := h.code.run hstart h.numbered.old hword hruns (fuel + 1)
  refine ⟨st'.mem, ?_, ?_⟩
  · have hfuel : fuel + n + 2 = fuel + 1 + n + 1 := by omega
    rw [h.numbered.entry] at hrun
    rw [Func.run_eq, hargs, hfuel, hrun]
    exact runFrom_leave h.exit .nil rfl
  · rw [hat.mem, hops, hmem]
    exact LoopLayout.bytes_mapped (by rw [hk]; rfl) (Nat.le_of_lt hn)

end TreeJit.Predicate
