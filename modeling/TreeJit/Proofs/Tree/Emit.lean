import TreeJit.Proofs.Emit.Builder
import TreeJit.Tree.Emit

/-!
# The code of a tree computes its value

`Tree.emit_sound`: code that was emitted for a tree leaves the value of the tree, in the
representation of its kind.  On single rows a number is the word of its pattern and a truth value is
1 or 0; on pairs of rows a number takes a lane for each row and a truth value is a lane of ones or
of zeros (`laneVal`).  The code changes no older value and no memory, so operands stay where they
are while the rest of the tree is computed.
-/

namespace TreeJit

open SSA Emit

def laneTy (lanes : Nat) (k : Kind) : Ty :=
  match k with
  | .float => if lanes = 1 then .f64 else .f64x2
  | .bool => if lanes = 1 then .i8 else .i64x2

/-- how the values of one row or of two are held -/
def laneVal (lanes : Nat) (k : Kind) (x y : UInt64) : Val :=
  match k with
  | .float => if lanes = 1 then ⟨x, 0⟩ else ⟨x, y⟩
  | .bool => if lanes = 1 then .ofBool (x ≠ 0) else ⟨laneMask (x ≠ 0), laneMask (y ≠ 0)⟩

/-- on one row or on two, by whether there is more than one -/
theorem laneTy_float_eq {lanes : Nat} (h : 1 ≤ lanes) :
    laneTy lanes .float = if 1 < lanes then .f64x2 else .f64 := by
  by_cases h1 : lanes = 1
  · simp [laneTy, h1]
  · have hgt : 1 < lanes := by omega
    simp [laneTy, h1, hgt]

theorem laneVal_float_eq {lanes : Nat} (h : 1 ≤ lanes) (x : UInt64) :
    laneVal lanes .float x x = if 1 < lanes then ⟨x, x⟩ else ⟨x, 0⟩ := by
  by_cases h1 : lanes = 1
  · simp [laneVal, h1]
  · have hgt : 1 < lanes := by omega
    simp [laneVal, h1, hgt]

theorem truthBits_ne_zero (b : Bool) : (decide (truthBits b ≠ 0)) = b := by
  cases b <;> rfl

/-- calls of built-in names compute what the operations say and touch no memory -/
def Natives (w : World) : Prop :=
  ∀ (f : Host.Builtin) (sp : UInt64) (x y : Val) (m : Memory),
    w.call f.name sp [x, y] m = .ok ([f.apply w.float x y], m)

/-- the code `ss` computes `x` in the value `v` -/
def Computes (w : World) (a : Activation) (st : State) (ss : List Step) (n : Nat) (v : ValueNo)
    (x : Val) : Prop :=
  ∃ st', Evolves w a st ss st' ∧ st.Keeps n st' ∧ st'.get v = x

theorem computes_of_step {w : World} {a : Activation} {st : State} {s : Step} {n v : Nat} {x : Val}
    (h : execStep w a st s = .ok (.on (st.set v x))) (hn : n ≤ v) (hv : v < st.regs.size) :
    Computes w a st [s] n v x :=
  ⟨st.set v x, .one h, State.keeps_set st x hn, State.get_set_self x hv⟩

/-- code after code; what was computed first is still there -/
theorem Computes.bind {w : World} {a : Activation} {st : State} {ss ss' : List Step}
    {n k v u : Nat} {x z : Val} (h : Computes w a st ss n v x) (hn : n ≤ k)
    (h' : ∀ mid : State, st.Keeps n mid → mid.get v = x → Computes w a mid ss' k u z) :
    Computes w a st (ss ++ ss') n u z := by
  obtain ⟨mid, he, hk, hx⟩ := h
  obtain ⟨st', he', hk', hx'⟩ := h' mid hk hx
  exact ⟨st', he.append he', hk.trans (hk'.mono hn), hx'⟩

/-! ## literals -/

/-- what an emission gives: the new draft, the number of the result and the steps -/
structure Emission (b : Builder) (d : Draft) (v : ValueNo) (t : Ty) (ss : List Step) : Prop where
  writes : b.draft.body.Writes d.body ss
  sound : d.Holds Body.Sound
  typed : d.body.fn.values[v]? = some t

theorem emitLiteral_sound {b : Builder} (hS : b.draft.Holds Body.Sound) (bits : UInt64)
    (h : (emitLiteral b bits).1.Healthy) :
    b.Healthy ∧ ∃ (v : ValueNo) (d : Draft) (ss : List Step),
      emitLiteral b bits = ({ b with draft := d }, (v : Int)) ∧
      Emission b d v (if 1 < b.lanes then .f64x2 else .f64) ss ∧
      ∀ w a st, d.body.fn.values.size ≤ st.regs.size →
        Computes w a st ss b.draft.body.fn.values.size v
          (if 1 < b.lanes then ⟨bits, bits⟩ else ⟨bits, 0⟩) := by
  cases h1 : b.draft.fconst .f64 bits with
  | mk d1 v1 =>
    have hS1 : d1.Holds Body.Sound := by
      have hs := Draft.sound_fconst hS .f64 bits
      rwa [h1] at hs
    have hconst : d1.fault = none → b.draft.fault = none ∧
        b.draft.body.Appends (.fconst .f64 bits) [.f64] d1.body ∧
        v1 = b.draft.body.fn.values.size := by
      intro hf
      have hf' : (b.draft.fconst .f64 bits).1.fault = none := by rw [h1]; exact hf
      obtain ⟨hem, hr⟩ := Draft.fconst_emits hS hf'
      rw [h1] at hem hr
      exact ⟨hem.healthy, hem.appends, hr⟩
    by_cases hl : 1 < b.lanes
    · cases h2 : d1.splat .f64x2 v1 with
      | mk d2 v2 =>
        have e : emitLiteral b bits = ({ b with draft := d2 }, v2) := by
          simp only [emitLiteral, Builder.onDraft, h1, if_pos hl, h2]
        rw [e] at h
        have hf2 : (d1.splat .f64x2 v1).1.fault = none := by rw [h2]; exact h.draft
        obtain ⟨v, hv, hem, hr⟩ := Draft.splat_emits hS1 hf2
        rw [h2] at hem hr
        obtain ⟨hf, ha, hv1⟩ := hconst hem.healthy
        obtain rfl : v = b.draft.body.fn.values.size := Int.ofNat.inj (hv.symm.trans hv1)
        have hsz := ha.size
        have hsz2 := hem.appends.size
        have hS2 : d2.Holds Body.Sound := by
          have hs := Draft.sound_splat hS1 .f64x2 v1
          rwa [h2] at hs
        refine ⟨⟨h.fault, hf⟩, d1.body.fn.values.size, d2, _, by rw [e]; exact congrArg _ hr,
          ⟨ha.writes.trans hem.appends.writes, hS2, ?_⟩, ?_⟩
        · rw [if_pos hl]
          exact hem.appends.result_type
        · intro w a st hst
          rw [if_pos hl]
          simp only [List.length_singleton] at hsz hsz2
          have hfirst : Computes w a st [⟨.fconst .f64 bits, [b.draft.body.fn.values.size]⟩]
              b.draft.body.fn.values.size b.draft.body.fn.values.size ⟨bits, 0⟩ :=
            computes_of_step rfl (Nat.le_refl _) (by omega)
          refine hfirst.bind (k := d1.body.fn.values.size) (by omega) fun mid hk hx => ?_
          refine computes_of_step (x := ⟨bits, bits⟩) ?_ (Nat.le_refl _) (by rw [hk.size]; omega)
          show Except.ok (Next.on (mid.set _ ⟨(mid.get _).lo, (mid.get _).lo⟩)) = _
          rw [hx]
          rfl
    · have e : emitLiteral b bits = ({ b with draft := d1 }, v1) := by
        simp only [emitLiteral, Builder.onDraft, h1, if_neg hl]
      rw [e] at h
      obtain ⟨hf, ha, hv1⟩ := hconst h.draft
      refine ⟨⟨h.fault, hf⟩, b.draft.body.fn.values.size, d1, _, by rw [e, hv1],
        ⟨ha.writes, hS1, ?_⟩, ?_⟩
      · rw [if_neg hl]
        exact ha.result_type
      · intro w a st hst
        rw [if_neg hl]
        exact computes_of_step rfl (Nat.le_refl _) (Nat.lt_of_lt_of_le ha.lt_size hst)

/-! ## operators -/

def Operator.kind (o : Operator) : Kind := if o.isCompare then .bool else .float

def Operator.builtin : Operator → Host.Builtin
  | .arith op => .float op
  | .compare c => .compare c
  | .other _ => .intAdd

theorem Operator.native_eq {o : Operator} (h : o.isValid = true) : o.native = o.builtin.name := by
  cases o with
  | arith op => rfl
  | compare c => rfl
  | other s => cases h

def floatBin : FloatOp → BinOp
  | .add => .fadd
  | .sub => .fsub
  | .mul => .fmul
  | .div => .fdiv

theorem floatOp?_floatBin (op : FloatOp) : (floatBin op).floatOp? = some op := by
  cases op <;> rfl

theorem inline_arith (op : FloatOp) (x y : Int) (d : Draft) :
    (Operator.arith op).inline x y d = d.binary (floatBin op) x y := by
  cases op <;> rfl

theorem evalBinary_float (F : FloatOps) (op : FloatOp) (lanes : Nat) (x0 x1 y0 y1 : UInt64) :
    evalBinary F (floatBin op) (laneTy lanes .float) (laneVal lanes .float x0 x1)
        (laneVal lanes .float y0 y1) =
      laneVal lanes .float (F.arith op x0 y0) (F.arith op x1 y1) := by
  unfold evalBinary
  rw [floatOp?_floatBin]
  by_cases h : lanes = 1
  · simp [laneTy, laneVal, h]
  · simp [laneTy, laneVal, h]

theorem evalFCmp_float (F : FloatOps) (c : FloatCond) (lanes : Nat) (x0 x1 y0 y1 : UInt64) :
    evalFCmp F c (laneTy lanes .float) (laneVal lanes .float x0 x1) (laneVal lanes .float y0 y1) =
      laneVal lanes .bool (truthBits (F.test c x0 y0)) (truthBits (F.test c x1 y1)) := by
  unfold evalFCmp
  by_cases h : lanes = 1
  · simp only [laneTy, laneVal, h, if_true, truthBits_ne_zero]
  · simp only [laneTy, laneVal, h, if_false, truthBits_ne_zero]

theorem fcmpResult_laneTy (lanes : Nat) :
    Body.fcmpResult (laneTy lanes .float) = laneTy lanes .bool := by
  unfold Body.fcmpResult
  by_cases h : lanes = 1
  · simp [laneTy, h]
  · simp [laneTy, h]

theorem execStep_builtin {w : World} {a : Activation} {st : State} {o : Operator} {n x y r : Nat}
    {x0 y0 : UInt64} (hN : Natives w) (ho : o.isValid = true)
    (hi : a.fn.imports[n]? = some ⟨o.builtin.name, o.builtin.sig⟩)
    (hx : st.get x = ⟨x0, 0⟩) (hy : st.get y = ⟨y0, 0⟩) :
    execStep w a st ⟨.call n [x, y], [r]⟩ =
      .ok (.on (st.set r (laneVal 1 o.kind (o.apply w.float x0 y0) 0))) := by
  have he : a.fn.imports.getD n ⟨"", .empty⟩ = ⟨o.builtin.name, o.builtin.sig⟩ := by
    rw [Array.getD_eq_getD_getElem?, hi]
    rfl
  unfold execStep
  simp only [he, State.getAll, List.map_cons, List.map_nil, hx, hy]
  cases o with
  | arith op =>
    simp only [Operator.builtin, Host.Builtin.sig, Val.keepAll, List.zipWith, Val.keep]
    rw [hN]
    simp only [Host.Builtin.apply, List.zipWith, Val.keep]
    rfl
  | compare c =>
    simp only [Operator.builtin, Host.Builtin.sig, Val.keepAll, List.zipWith, Val.keep]
    rw [hN]
    simp only [Host.Builtin.apply, List.zipWith, Val.keep]
    show _ = Except.ok (Next.on (st.set r (Val.ofBool (decide (truthBits _ ≠ 0)))))
    rw [truthBits_ne_zero]
    cases w.float.test c x0 y0 <;> rfl
  | other s => cases ho

theorem ty_of_hasTypes {f : Func} {v w : ValueNo} {t u : Ty} (h : f.HasTypes [v, w] [t, t])
    (hv : f.values[v]? = some u) : t = u := by
  have h1 := (Func.HasTypes.pair_iff.mp h).1
  exact Option.some.inj (h1.symm.trans hv)

/-- what an emitted operator computes from its operands -/
def OperatorMeaning (o : Operator) (lanes : Nat) (d : Draft) (n : Nat) (x y v : ValueNo)
    (ss : List Step) : Prop :=
  ∀ (w : World) (a : Activation) (st : State) (x0 x1 y0 y1 : UInt64), Natives w →
    d.body.fn.imports.toList <+: a.fn.imports.toList → d.body.fn.values.size ≤ st.regs.size →
    st.get x = laneVal lanes .float x0 x1 → st.get y = laneVal lanes .float y0 y1 →
    Computes w a st ss n v (laneVal lanes o.kind (o.apply w.float x0 y0) (o.apply w.float x1 y1))

theorem inline_sound {b : Builder} (hS : b.draft.Holds Body.Sound) {o : Operator}
    (ho : o.isValid = true) {x y : ValueNo}
    (hx : b.draft.body.fn.values[x]? = some (laneTy b.lanes .float))
    (h : (o.inline x y b.draft).1.fault = none) :
    b.draft.fault = none ∧ ∃ (v : ValueNo) (d : Draft) (ss : List Step),
      o.inline x y b.draft = (d, (v : Int)) ∧ Emission b d v (laneTy b.lanes o.kind) ss ∧
      OperatorMeaning o b.lanes d b.draft.body.fn.values.size x y v ss := by
  cases o with
  | other s => cases ho
  | arith op =>
    rw [inline_arith] at h ⊢
    obtain ⟨t, v, u, hv, hu, hem, hr⟩ := Draft.binary_emits hS h
    obtain rfl := Int.ofNat.inj hv
    obtain rfl := Int.ofNat.inj hu
    obtain rfl := ty_of_hasTypes hem.appends.typed.2.1 hx
    refine ⟨hem.healthy, _, _, _, Prod.ext rfl hr,
      ⟨hem.appends.writes, Draft.sound_binary hS _ _ _, hem.appends.result_type⟩, ?_⟩
    intro w a st x0 x1 y0 y1 _ _ hst hx0 hy0
    refine computes_of_step ?_ (Nat.le_refl _) (Nat.lt_of_lt_of_le hem.appends.lt_size hst)
    show Except.ok (Next.on (st.set _ (evalBinary _ _ _ _ _))) = _
    rw [hx0, hy0, evalBinary_float]
    rfl
  | compare c =>
    obtain ⟨t, v, u, hv, hu, hem, hr⟩ := Draft.fcmp_emits hS h
    obtain rfl := Int.ofNat.inj hv
    obtain rfl := Int.ofNat.inj hu
    obtain rfl := ty_of_hasTypes hem.appends.typed.2.1 hx
    have hty := hem.appends.result_type
    rw [fcmpResult_laneTy] at hty
    refine ⟨hem.healthy, _, _, _, Prod.ext rfl hr,
      ⟨hem.appends.writes, Draft.sound_fcmp hS _ _ _, hty⟩, ?_⟩
    intro w a st x0 x1 y0 y1 _ _ hst hx0 hy0
    refine computes_of_step ?_ (Nat.le_refl _) (Nat.lt_of_lt_of_le hem.appends.lt_size hst)
    show Except.ok (Next.on (st.set _ (evalFCmp _ _ _ _ _))) = _
    rw [hx0, hy0, evalFCmp_float]
    rfl

/-- **An emitted operator computes its value from its operands.** -/
theorem Operator.emit_sound [Host.Platform] {scope : Scope}
    (hc : scope.native = true → scope.catalog.HoldsBuiltins) {b : Builder}
    (hS : b.draft.Holds Body.Sound) {o : Operator} (ho : o.isValid = true) {x y : ValueNo}
    (hx : b.draft.body.fn.values[x]? = some (laneTy b.lanes .float))
    (h : (o.emit scope b x y).1.Healthy) :
    b.Healthy ∧ ∃ (v : ValueNo) (d : Draft) (ss : List Step),
      o.emit scope b x y = ({ b with draft := d }, (v : Int)) ∧
      Emission b d v (laneTy b.lanes o.kind) ss ∧
      OperatorMeaning o b.lanes d b.draft.body.fn.values.size x y v ss := by
  unfold Operator.emit at h ⊢
  by_cases hn : b.lanes = 1 ∧ scope.native = true
  · rw [if_pos hn] at h ⊢
    rw [Operator.native_eq ho] at h ⊢
    obtain ⟨hb, v, u, t, d, hv, hu, ht, e, hw, hS', hi, -, hty⟩ := Builder.call_sound (hc hn.2) hS h
    obtain rfl := Int.ofNat.inj hv
    obtain rfl := Int.ofNat.inj hu
    refine ⟨hb, _, d, _, e, ⟨hw, hS', ?_⟩, ?_⟩
    · rw [hty]
      cases o with
      | arith op => cases ht; simp [laneTy, Operator.kind, Operator.isCompare, hn.1]
      | compare c => cases ht; simp [laneTy, Operator.kind, Operator.isCompare, hn.1]
      | other s => cases ho
    · intro w a st x0 x1 y0 y1 hN himp hst hx0 hy0
      have hlt : b.draft.body.fn.values.size < d.body.fn.values.size :=
        (Array.getElem?_eq_some_iff.mp hty).1
      have hget : a.fn.imports[b.draft.body.fn.imports.size]? =
          some ⟨o.builtin.name, o.builtin.sig⟩ := by
        obtain ⟨is, e'⟩ := himp
        rw [← Array.getElem?_toList, ← e', hi, Array.toList_push, List.append_assoc,
          List.getElem?_append_right (by simp)]
        simp
      rw [hn.1] at hx0 hy0 ⊢
      have hstep := execStep_builtin (r := b.draft.body.fn.values.size) hN ho hget hx0 hy0
      refine computes_of_step (hstep.trans ?_) (Nat.le_refl _) (by omega)
      cases o with
      | arith op => rfl
      | compare c => rfl
      | other s => cases ho
  · rw [if_neg hn] at h ⊢
    have hd : (o.inline x y b.draft).1.fault = none := h.draft
    have hb : b.fault = none := h.fault
    obtain ⟨hf, v, d, ss, e, hem, hm⟩ := inline_sound hS ho hx hd
    refine ⟨⟨hb, hf⟩, v, d, ss, ?_, hem, hm⟩
    rw [Builder.onDraft, e]

/-! ## trees -/

/-- every column of the tree is a value of a number -/
def Tree.ColumnsBound (t : Tree) (b : Builder) : Prop :=
  ∀ c ∈ t.columns, ∀ v, b.columns.lookup c.toInt = some v →
    ∃ n : ValueNo, v = n ∧ b.draft.body.fn.values[n]? = some (laneTy b.lanes .float)

/-- the columns of the tree hold the cells of two rows -/
def Tree.ColumnsHold (t : Tree) (b : Builder) (r0 r1 : List UInt64) (st : State) : Prop :=
  ∀ c ∈ t.columns, ∀ n : ValueNo, b.columns.lookup c.toInt = some (n : Int) →
    st.get n = laneVal b.lanes .float (Tree.cell r0 c) (Tree.cell r1 c)

theorem Tree.check_binary {o : Operator} {l r : Tree} (h : (Tree.binary o l r).check = .ok ()) :
    o.isValid = true ∧ l.check = .ok () ∧ l.kind = .float ∧ r.check = .ok () ∧ r.kind = .float := by
  unfold Tree.check at h
  by_cases ho : o.isValid = true
  · rw [ho] at h
    simp only [Bool.not_true, Bool.false_eq_true, if_false] at h
    split at h
    · cases h
    · obtain ⟨_, hl, h⟩ := bind_eq_ok.mp h
      obtain ⟨_, hlk, h⟩ := bind_eq_ok.mp h
      obtain ⟨_, hr, h⟩ := bind_eq_ok.mp h
      have hk : ∀ t : Tree, ∀ u, checkOperand o t = .ok u → t.kind = .float := by
        intro t u h
        unfold checkOperand at h
        split at h
        · assumption
        · cases h
      exact ⟨ho, hl, hk l _ hlk, hr, hk r _ h⟩
  · simp only [ho, Bool.not_false, if_true] at h
    cases h

/-! A fault lasts, so a healthy result of an emission tells that it started healthy. -/

theorem Operator.healthy_of_inline {o : Operator} {x y : Int} {d : Draft}
    (h : (o.inline x y d).1.fault = none) : d.fault = none := by
  cases o with
  | arith op =>
    rw [inline_arith] at h
    exact (Draft.attempt_sound h).1
  | compare c => exact (Draft.attempt_sound h).1
  | other s => exact (Draft.attempt_sound h).1

theorem Operator.healthy_of_emit {scope : Scope} {o : Operator} {b : Builder} {x y : Int}
    (h : (o.emit scope b x y).1.Healthy) : b.Healthy := by
  unfold Operator.emit at h
  split at h
  · exact (Builder.attempt_sound h).1
  · exact ⟨h.fault, Operator.healthy_of_inline h.draft⟩

theorem healthy_of_emitLiteral {b : Builder} {bits : UInt64}
    (h : (emitLiteral b bits).1.Healthy) : b.Healthy := by
  unfold emitLiteral at h
  simp only at h
  split at h
  · have h2 : ((b.draft.fconst .f64 bits).1.splat .f64x2 (b.draft.fconst .f64 bits).2).1.fault =
      none := h.draft
    have h1 : (b.draft.fconst .f64 bits).1.fault = none := (Draft.attempt_sound h2).1
    exact ⟨h.fault, (Draft.attempt_sound h1).1⟩
  · have h1 : (b.draft.fconst .f64 bits).1.fault = none := h.draft
    exact ⟨h.fault, (Draft.attempt_sound h1).1⟩

theorem Tree.healthy_of_emit {scope : Scope} (t : Tree) {b : Builder}
    (h : (t.emit scope b).1.Healthy) : b.Healthy := by
  induction t generalizing b with
  | missing => exact h
  | column i name =>
    have hc : (b.column i.toInt).1.Healthy := h
    exact (Builder.attempt_sound hc).1
  | literal bits => exact healthy_of_emitLiteral h
  | binary o l r ihl ihr =>
    rw [Tree.emit] at h
    split at h
    · rename_i b1 hl
      exact ihl (by rw [hl]; exact h)
    · rename_i b1 x hl
      split at h
      · rename_i b2 hr
        exact ihl (by rw [hl]; exact ihr (by rw [hr]; exact h))
      · rename_i b2 y hr
        exact ihl (by rw [hl]; exact ihr (by rw [hr]; exact Operator.healthy_of_emit h))

/-- what the code of a tree computes -/
def TreeMeaning (t : Tree) (b : Builder) (d : Draft) (v : ValueNo) (ss : List Step) : Prop :=
  ∀ (w : World) (a : Activation) (st : State) (r0 r1 : List UInt64), Natives w →
    d.body.fn.imports.toList <+: a.fn.imports.toList → d.body.fn.values.size ≤ st.regs.size →
    t.ColumnsHold b r0 r1 st →
    Computes w a st ss b.draft.body.fn.values.size v
      (laneVal b.lanes t.kind (t.eval w.float r0) (t.eval w.float r1))

/-- **The code of an operator over two trees**: the left operand, then the right one, then the
operator.  The left value is still there when the operator needs it. -/
theorem TreeMeaning.binary {o : Operator} {l r : Tree} {b : Builder} {d1 d2 d3 : Draft}
    {x y v : ValueNo} {ss1 ss2 ss3 : List Step} (hlk : l.kind = .float) (hrk : r.kind = .float)
    (hcol : (Tree.binary o l r).ColumnsBound b)
    (hem1 : Emission b d1 x (laneTy b.lanes l.kind) ss1)
    (hem2 : Emission { b with draft := d1 } d2 y (laneTy b.lanes r.kind) ss2)
    (hem3 : Emission { b with draft := d2 } d3 v (laneTy b.lanes o.kind) ss3)
    (hm1 : TreeMeaning l b d1 x ss1) (hm2 : TreeMeaning r { b with draft := d1 } d2 y ss2)
    (hm3 : OperatorMeaning o b.lanes d3 d2.body.fn.values.size x y v ss3) :
    TreeMeaning (.binary o l r) b d3 v (ss1 ++ ss2 ++ ss3) := by
  intro w a st r0 r1 hN himp hsz hst
  have hle1 := hem1.writes.size_le
  have hle2 : d1.body.fn.values.size ≤ d2.body.fn.values.size := hem2.writes.size_le
  have hle3 : d2.body.fn.values.size ≤ d3.body.fn.values.size := hem3.writes.size_le
  have hxlt : x < d1.body.fn.values.size := (Array.getElem?_eq_some_iff.mp hem1.typed).1
  have hi2 : d2.body.fn.imports.toList <+: a.fn.imports.toList := hem3.writes.imports.trans himp
  have hi1 : d1.body.fn.imports.toList <+: a.fn.imports.toList := hem2.writes.imports.trans hi2
  have hleft := hm1 w a st r0 r1 hN hi1 (by omega) fun c hcm n hn =>
    hst c (by rw [Tree.columns]; exact List.mem_append_left _ hcm) n hn
  rw [List.append_assoc]
  refine hleft.bind (k := d1.body.fn.values.size) hle1 fun mid1 hk1 hv1 => ?_
  have hright := hm2 w a mid1 r0 r1 hN hi2 (by rw [hk1.size]; omega) fun c hcm n hn => by
    have hcm' : c ∈ (Tree.binary o l r).columns := by
      rw [Tree.columns]
      exact List.mem_append_right _ hcm
    obtain ⟨k, hk, hty⟩ := hcol c hcm' n hn
    obtain rfl := Int.ofNat.inj hk
    rw [hk1.get n (Array.getElem?_eq_some_iff.mp hty).1]
    exact hst c hcm' n hn
  refine hright.bind (k := d2.body.fn.values.size) hle2 fun mid2 hk2 hv2 => ?_
  have hxv : mid2.get x = laneVal b.lanes .float (l.eval w.float r0) (l.eval w.float r1) := by
    rw [hk2.get x hxlt, hv1, hlk]
  rw [hrk] at hv2
  exact hm3 w a mid2 _ _ _ _ hN himp (by rw [hk2.size, hk1.size]; omega) hxv hv2

/-- **The code of a tree computes its value on one row or on two.** -/
theorem Tree.emit_sound [Host.Platform] {scope : Scope}
    (hc : scope.native = true → scope.catalog.HoldsBuiltins) (t : Tree) (ht : t.check = .ok ())
    {b : Builder} (hS : b.draft.Holds Body.Sound) (hl : 1 ≤ b.lanes) {cur : Nat}
    (hcur : b.draft.body.current = some cur) (hcol : t.ColumnsBound b)
    (h : (t.emit scope b).1.Healthy) :
    b.Healthy ∧ ∃ (v : ValueNo) (d : Draft) (ss : List Step),
      t.emit scope b = ({ b with draft := d }, some (v : Int)) ∧
      Emission b d v (laneTy b.lanes t.kind) ss ∧ TreeMeaning t b d v ss := by
  induction t generalizing b with
  | missing => cases ht
  | column i name =>
    obtain ⟨hb, v, hv, e⟩ := Builder.column_sound h
    obtain ⟨n, rfl, hty⟩ := hcol i (by simp [Tree.columns]) v hv
    refine ⟨hb, n, b.draft, [], ?_, ⟨.refl hcur, hS, hty⟩, ?_⟩
    · rw [Tree.emit, e]
    · intro w a st r0 r1 _ _ _ hst
      exact ⟨st, .nil, .refl _ _, hst i (by simp [Tree.columns]) n hv⟩
  | literal bits =>
    have hh : (emitLiteral b bits).1.Healthy := h
    obtain ⟨hb, v, d, ss, e, hem, hm⟩ := emitLiteral_sound hS bits hh
    rw [← laneTy_float_eq hl] at hem
    refine ⟨hb, v, d, ss, by rw [Tree.emit, e], hem, ?_⟩
    intro w a st r0 r1 _ _ hst _
    have hcmp := hm w a st hst
    rwa [← laneVal_float_eq hl] at hcmp
  | binary o l r ihl ihr =>
    obtain ⟨ho, hlc, hlk, hrc, hrk⟩ := Tree.check_binary ht
    have hcl : l.ColumnsBound b := fun c hcm =>
      hcol c (by rw [Tree.columns]; exact List.mem_append_left _ hcm)
    cases hel : l.emit scope b with
    | mk b1 x? =>
      cases her : r.emit scope b1 with
      | mk b2 y? =>
        have hb2 : b2.Healthy := by
          cases x? with
          | none =>
            simp only [Tree.emit, hel] at h
            obtain ⟨-, v, d, ss, e, -⟩ := ihl hlc hS hl hcur hcl (by rw [hel]; exact h)
            rw [hel] at e
            cases (Prod.mk.inj e).2
          | some x =>
            cases y? with
            | none =>
              simp only [Tree.emit, hel, her] at h
              exact h
            | some y =>
              simp only [Tree.emit, hel, her] at h
              exact Operator.healthy_of_emit h
        have hb1 : b1.Healthy := Tree.healthy_of_emit r (by rw [her]; exact hb2)
        obtain ⟨hb, x, d1, ss1, e1, hem1, hm1⟩ := ihl hlc hS hl hcur hcl (by rw [hel]; exact hb1)
        obtain ⟨rfl, rfl⟩ := Prod.mk.inj (hel.symm.trans e1)
        have hcr : r.ColumnsBound { b with draft := d1 } := by
          intro c hcm v hv
          obtain ⟨n, rfl, hn⟩ := hcol c (by rw [Tree.columns]; exact List.mem_append_right _ hcm) v hv
          exact ⟨n, rfl, hem1.writes.values_get hn⟩
        have hcur1 : d1.body.current = some cur := hem1.writes.current.trans hcur
        obtain ⟨-, y, d2, ss2, e2, hem2, hm2⟩ := ihr (b := { b with draft := d1 }) hrc hem1.sound hl
          hcur1 hcr (by rw [her]; exact hb2)
        obtain ⟨rfl, rfl⟩ := Prod.mk.inj (her.symm.trans e2)
        have hfin : (Tree.binary o l r).emit scope b =
            ((o.emit scope { b with draft := d2 } x y).1,
              some (o.emit scope { b with draft := d2 } x y).2) := by
          simp only [Tree.emit, e1, e2]
        rw [hfin] at h ⊢
        have hx1 : d1.body.fn.values[x]? = some (laneTy b.lanes .float) := by
          rw [hem1.typed, hlk]
        have hx2 : d2.body.fn.values[x]? = some (laneTy b.lanes .float) :=
          hem2.writes.values_get hx1
        obtain ⟨-, v, d3, ss3, e3, hem3, hm3⟩ := Operator.emit_sound
          (b := { b with draft := d2 }) hc hem2.sound ho hx2 h
        exact ⟨hb, v, d3, ss1 ++ ss2 ++ ss3, by rw [e3],
          ⟨(hem1.writes.trans hem2.writes).trans hem3.writes, hem3.sound, hem3.typed⟩,
          .binary hlk hrk hcol hem1 hem2 hem3 hm1 hm2 hm3⟩

end TreeJit
