import TreeJit.Proofs.Emit.Shape

/-!
# Writing at the end of a block

A draft takes one instruction after the other.  What an operation leaves is said by what it adds, so
that the pieces of a function are put together by `Wrote.trans`.

* `Draft.Stands d cur n`        where a draft stands: in block `cur`, with `n` the next number;
* `Draft.Wrote d d' cur ss ts`  `d'` has the steps `ss` more than `d`, with results of the types `ts`;
* `Stands.iconst`, `.binary` ...  what one operation writes if it did not fail;
* `Draft.Writer.each_wrote`     one operation for each value of a list.
-/

namespace TreeJit.SSA

/-! ## code of several blocks -/

theorem modify_append_left {α : Type} {i : Nat} {X : List α} (Y : List α) (f : α → α)
    (h : i < X.length) : (X ++ Y).modify i f = X.modify i f ++ Y := by
  induction X generalizing i with
  | nil => cases h
  | cons x X ih =>
    cases i with
    | zero => rfl
    | succ i =>
      rw [List.cons_append, List.modify_succ_cons, List.modify_succ_cons, List.cons_append,
        ih (Nat.lt_of_succ_lt_succ h)]

theorem modify_length_append {α : Type} (X Y : List α) (y : α) (f : α → α) :
    (X ++ y :: Y).modify X.length f = X ++ f y :: Y := by
  induction X with
  | nil => rfl
  | cons x X ih => rw [List.cons_append, List.length_cons, List.modify_succ_cons, ih, List.cons_append]

theorem writeAt_append {cur : Nat} {ss : List Step} {X Y : List (List ValueNo × List Step)}
    (h : cur < X.length) : writeAt cur ss (X ++ Y) = writeAt cur ss X ++ Y :=
  modify_append_left Y _ h

theorem writeAt_length {ss : List Step} {X Y : List (List ValueNo × List Step)}
    {ps : List ValueNo} {rs : List Step} :
    writeAt X.length ss (X ++ (ps, rs) :: Y) = X ++ (ps, rs ++ ss) :: Y :=
  modify_length_append X Y (ps, rs) _

theorem length_writeAt (cur : Nat) (ss : List Step) (X : List (List ValueNo × List Step)) :
    (writeAt cur ss X).length = X.length := List.length_modify ..

theorem Draft.paramsAt_length {vs : List ValueNo} {X Y : List (List ValueNo × List Step)}
    {ps : List ValueNo} {rs : List Step} :
    Draft.paramsAt X.length vs (X ++ (ps, rs) :: Y) = X ++ (ps ++ vs, rs) :: Y :=
  modify_length_append X Y (ps, rs) _

theorem Body.shape_code_length (b : Body) : b.shape.code.length = b.fn.blocks.size := by
  simp [Body.shape, Func.code]

theorem Body.writes_of_shape {b b' : Body} {cur : Nat} {ss : List Step} {ts : List Ty}
    (hc : b.current = some cur)
    (h : b'.shape = { b.shape with
      code := writeAt cur ss b.shape.code, values := b.shape.values ++ ts }) :
    b.Writes b' ss where
  current := congrArg Shape.current h
  known := ⟨cur, hc, congrArg Shape.code h⟩
  sig := congrArg Shape.sig h
  slots := Array.toList_inj.mp (congrArg Shape.slots h)
  values := by
    rw [show b'.fn.values.toList = b.fn.values.toList ++ ts from congrArg Shape.values h]
    exact List.prefix_append _ _
  imports := ⟨[], (List.append_nil _).trans (congrArg Shape.imports h).symm⟩

theorem Body.typed_of_shape {b : Body} {xs ys : List Ty} {n k : Nat} {t : Ty}
    (h : b.shape.values = xs ++ List.replicate k t ++ ys) (hn : xs.length = n) :
    ∀ v ∈ List.range' n k, b.fn.values[v]? = some t := by
  intro v hv
  obtain ⟨h1, h2⟩ := List.mem_range'_1.mp hv
  rw [← Array.getElem?_toList, show b.fn.values.toList = _ from h, List.append_assoc,
    List.getElem?_append_right (by omega),
    List.getElem?_append_left (by rw [List.length_replicate]; omega), List.getElem?_replicate,
    if_pos (by omega)]

/-! ## where a draft stands, and what it has more -/

namespace Draft

/-- where a draft stands: `cur` is the current block, and the next value has number `n` -/
structure Stands (d : Draft) (cur n : Nat) : Prop where
  sound : d.Holds Body.Sound
  current : d.body.current = some cur
  size : d.body.fn.values.size = n

/-- `d'` is `d` with the steps `ss` at the end of block `cur`, whose results have the types `ts` -/
structure Wrote (d d' : Draft) (cur : Nat) (ss : List Step) (ts : List Ty) : Prop where
  sound : d'.Holds Body.Sound
  shape : d'.body.shape = { d.body.shape with
    code := writeAt cur ss d.body.shape.code
    values := d.body.shape.values ++ ts }

variable {d d' d'' : Draft} {cur n : Nat} {ss ss' : List Step} {ts ts' : List Ty}

namespace Wrote

theorem refl (hS : d.Holds Body.Sound) : d.Wrote d cur [] [] where
  sound := hS
  shape := by simp only [writeAt_nil, List.append_nil]

theorem trans (h : d.Wrote d' cur ss ts) (h' : d'.Wrote d'' cur ss' ts') :
    d.Wrote d'' cur (ss ++ ss') (ts ++ ts') where
  sound := h'.sound
  shape := by simp only [h'.shape, h.shape, writeAt_writeAt, List.append_assoc]

theorem stands (h : d.Wrote d' cur ss ts) (ha : d.Stands cur n) : d'.Stands cur (n + ts.length) where
  sound := h.sound
  current := (congrArg Shape.current h.shape).trans ha.current
  size := by
    rw [← Body.shape_values_length, h.shape, List.length_append, Body.shape_values_length, ha.size]

theorem older (h : d.Wrote d' cur ss ts) (ha : d.Stands cur n) {v : ValueNo} {t : Ty}
    (hv : d.body.fn.values[v]? = some t) : d'.body.fn.values[v]? = some t :=
  (Body.writes_of_shape ha.current h.shape).values_get hv

theorem newer {t : Ty} (h : d.Wrote d' cur ss (t :: ts)) (ha : d.Stands cur n) :
    d'.body.fn.values[n]? = some t := by
  rw [← Array.getElem?_toList, show d'.body.fn.values.toList = _ from congrArg Shape.values h.shape,
    List.getElem?_append_right (Nat.le_of_eq (by rw [Body.shape_values_length, ha.size])),
    Body.shape_values_length, ha.size, Nat.sub_self, List.getElem?_cons_zero]

end Wrote

/-- a fault lasts, so an operation that ends without one started without one -/
theorem healthy_of_attempt {α : Type} {a r : α} {op : Body → Except Fault (Body × α)}
    (e : d.attempt a op = (d', r)) (h : d'.fault = none) : d.fault = none :=
  (attempt_sound (by rw [e]; exact h)).1

namespace Stands

theorem wrote (ha : d.Stands cur n) {i : Inst} (h : d.Emits d' i ts) :
    d.Wrote d' cur [⟨i, List.range' n ts.length⟩] ts where
  sound _ := (ha.sound h.healthy).change h.appends.change
  shape := by rw [← ha.size]; exact h.appends.shape ha.current

theorem iconst (ha : d.Stands cur n) {t : Ty} {v : Int64} {r : Int} (e : d.iconst t v = (d', r))
    (h : d'.fault = none) :
    r = n ∧ d.Wrote d' cur [⟨.iconst t (Body.truncateTo t v.toUInt64), [n]⟩] [t] := by
  obtain ⟨hem, hr⟩ := iconst_emits ha.sound (t := t) (v := v) (by rw [e]; exact h)
  rw [e] at hem hr
  exact ⟨hr.trans (congrArg _ ha.size), ha.wrote hem⟩

theorem binary (ha : d.Stands cur n) {op : BinOp} {x y : ValueNo} {t : Ty} {r : Int}
    (hy : d.body.fn.values[y]? = some t) (e : d.binary op x y = (d', r)) (h : d'.fault = none) :
    r = n ∧ d.Wrote d' cur [⟨.binary op t x y, [n]⟩] [t] := by
  have hf : (d.binary op x y).1.fault = none := by rw [e]; exact h
  obtain ⟨u, v, w, hv, hw, hem, hr⟩ := binary_emits ha.sound hf
  rw [e] at hem hr
  obtain rfl := Int.ofNat.inj hv
  obtain rfl := Int.ofNat.inj hw
  obtain rfl := Option.some.inj ((Func.HasTypes.pair_iff.mp hem.appends.typed.2.1).2.symm.trans hy)
  exact ⟨hr.trans (congrArg _ ha.size), ha.wrote hem⟩

theorem icmp (ha : d.Stands cur n) {c : IntCond} {x y r : Int} (e : d.icmp c.code x y = (d', r))
    (h : d'.fault = none) : ∃ (t : Ty) (v w : ValueNo), x = v ∧ y = w ∧
      d.body.fn.HasTypes [v, w] [t, t] ∧ r = n ∧ d.Wrote d' cur [⟨.icmp c t v w, [n]⟩] [.i8] := by
  have hf : (d.icmp c.code x y).1.fault = none := by rw [e]; exact h
  obtain ⟨t, v, w, hv, hw, hem, hr⟩ := icmp_emits ha.sound hf
  rw [e] at hem hr
  exact ⟨t, v, w, hv, hw, hem.appends.typed.2.1, hr.trans (congrArg _ ha.size), ha.wrote hem⟩

theorem store (ha : d.Stands cur n) {x : Int} {p : ValueNo} {off : Int32} {u : Unit}
    (e : d.store x p off = (d', u)) (h : d'.fault = none) : ∃ (t : Ty) (v : ValueNo), x = v ∧
      d.body.fn.values[v]? = some t ∧ d.Wrote d' cur [⟨.store t v p off, []⟩] [] := by
  have hf : (d.store x p off).1.fault = none := by rw [e]; exact h
  obtain ⟨t, v, w, hv, hw, hem⟩ := store_emits ha.sound hf
  rw [e] at hem
  obtain rfl := Int.ofNat.inj hw
  exact ⟨t, v, hv, (Func.HasTypes.pair_iff.mp hem.appends.typed.1).1, ha.wrote hem⟩

theorem brif (ha : d.Stands cur n) {c : ValueNo} {ty : Ty} (yes no : Nat) {ys ns : List Int} {u : Unit}
    (hc : d.body.fn.values[c]? = some ty) (e : d.brif c yes ys no ns = (d', u))
    (h : d'.fault = none) : ∃ vs ws : List ValueNo, ys = vs.map Int.ofNat ∧ ns = ws.map Int.ofNat ∧
      d.Wrote d' cur [⟨.brif ty c ⟨yes, vs⟩ ⟨no, ws⟩, []⟩] [] := by
  have hf : (d.brif c yes ys no ns).1.fault = none := by rw [e]; exact h
  obtain ⟨ty', v, ⟨yes', vs⟩, ⟨no', ws⟩, hv, hyes, hys, hno, hns, hem⟩ := brif_emits ha.sound hf
  rw [e] at hem
  obtain rfl := Int.ofNat.inj hv
  obtain rfl : yes = yes' := Int.ofNat.inj hyes
  obtain rfl : no = no' := Int.ofNat.inj hno
  obtain rfl :=
    Option.some.inj ((Func.HasTypes.singleton_iff.mp hem.appends.typed.2.1).symm.trans hc)
  exact ⟨vs, ws, hys, hns, ha.wrote hem⟩

end Stands

end Draft

/-! ## one operation for each value -/

def Draft.each (op : Draft → Int → Draft × Int) (d : Draft) : List Int → Draft × List Int
  | [] => (d, [])
  | v :: vs =>
    let (d, x) := op d v
    let (d, xs) := Draft.each op d vs
    (d, x :: xs)

theorem Draft.healthy_of_each {op : Draft → Int → Draft × Int} {d : Draft}
    (hop : ∀ d v, (op d v).1.fault = none → d.fault = none) {vs : List Int}
    (h : (d.each op vs).1.fault = none) : d.fault = none := by
  induction vs generalizing d with
  | nil => exact h
  | cons v vs ih => exact hop d v (ih h)

def eachStep (inst : ValueNo → Inst) : Nat → List ValueNo → List Step
  | _, [] => []
  | k, n :: ns => ⟨inst n, [k]⟩ :: eachStep inst (k + 1) ns

/-- an operation on one value that writes the instruction for it, in bodies that satisfy `P` -/
structure Draft.Writer (P : Body → Prop) (op : Draft → Int → Draft × Int) (inst : ValueNo → Inst)
    (t : Ty) : Prop where
  sound : ∀ d v, d.Holds Body.Sound → (op d v).1.Holds Body.Sound
  healthy : ∀ d v, (op d v).1.fault = none → d.fault = none
  emits : ∀ d v, d.Holds Body.Sound → P d.body → (op d v).1.fault = none → ∃ n : ValueNo, v = n ∧
    d.body.Appends (inst n) [t] (op d v).1.body ∧ (op d v).2 = d.body.fn.values.size
  keeps : ∀ b b' ss, P b → b.Writes b' ss → P b'

namespace Draft.Writer
variable {P : Body → Prop} {op : Draft → Int → Draft × Int} {inst : ValueNo → Inst} {t : Ty}
  {d d' : Draft}

theorem each_wrote (hw : Writer P op inst t) {cur n : Nat} (ha : d.Stands cur n) (hP : P d.body)
    {vs rs : List Int} (e : d.each op vs = (d', rs)) (h : d'.fault = none) :
    ∃ ns : List ValueNo, vs = ns.map Int.ofNat ∧
      rs = (List.range' n ns.length).map Int.ofNat ∧
      d.Wrote d' cur (eachStep inst n ns) (List.replicate ns.length t) := by
  induction vs generalizing d n rs with
  | nil =>
    cases e
    exact ⟨[], rfl, rfl, .refl ha.sound⟩
  | cons v vs ih =>
    cases e2 : (op d v).1.each op vs with
    | mk d2 rs2 =>
      have hall : d.each op (v :: vs) = (d2, (op d v).2 :: rs2) := by
        show ((((op d v).1.each op vs)).1, (op d v).2 :: ((op d v).1.each op vs).2) = _
        rw [e2]
      obtain ⟨rfl, rfl⟩ := Prod.mk.inj (hall.symm.trans e)
      have hf1 : (op d v).1.fault = none := healthy_of_each hw.healthy (by rw [e2]; exact h)
      obtain ⟨k, rfl, happ, hr⟩ := hw.emits d v ha.sound hP hf1
      have h1 : d.Wrote (op d k).1 cur [⟨inst k, [n]⟩] [t] :=
        ⟨hw.sound d k ha.sound, by rw [← ha.size]; exact happ.shape ha.current⟩
      have hP1 := hw.keeps _ _ _ hP happ.writes
      obtain ⟨ns, rfl, rfl, h2⟩ := ih (h1.stands ha) hP1 e2
      refine ⟨k :: ns, rfl, ?_, h1.trans h2⟩
      rw [hr, ha.size]
      rfl

end Draft.Writer

theorem Draft.writer_splat : Writer (fun _ => True) (fun d v => d.splat .f64x2 v) (.splat .f64x2)
    .f64x2 where
  sound d v hS := sound_splat hS .f64x2 v
  healthy d v h := (attempt_sound h).1
  emits d v hS _ h := by
    obtain ⟨n, hn, hem, hr⟩ := splat_emits hS h
    exact ⟨n, hn, hem.appends, hr⟩
  keeps _ _ _ _ _ := trivial

theorem Draft.writer_load : Writer (fun _ => True) (fun d p => d.load .f64x2 p 0)
    (fun n => .load .f64x2 n 0) .f64x2 where
  sound d v hS := sound_load hS .f64x2 v 0
  healthy d v h := (attempt_sound h).1
  emits d v hS _ h := by
    obtain ⟨n, hn, hem, hr⟩ := load_emits hS h
    exact ⟨n, hn, hem.appends, hr⟩
  keeps _ _ _ _ _ := trivial

theorem Draft.writer_add (k : ValueNo) : Writer (fun b => b.fn.values[k]? = some .i64)
    (fun d p => d.binary .iadd p k) (fun n => .binary .iadd .i64 n k) .i64 where
  sound d v hS := sound_binary hS .iadd v k
  healthy d v h := (attempt_sound h).1
  emits d v hS hk h := by
    obtain ⟨t, n, m, hn, hm, hem, hr⟩ := binary_emits hS h
    obtain rfl : k = m := Int.ofNat.inj hm
    obtain rfl : t = .i64 :=
      Option.some.inj ((Func.HasTypes.pair_iff.mp hem.appends.typed.2.1).2.symm.trans hk)
    exact ⟨n, hn, hem.appends, hr⟩
  keeps _ _ _ h hw := hw.values_get h

end TreeJit.SSA
