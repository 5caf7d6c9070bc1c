import TreeJit.Proofs.Emit.LoopProgress
import TreeJit.Proofs.Tree.Emit

/-!
# Trees can be written

A builder with an open block takes the code of every tree that passes its check.  The columns of the
tree must be bound to numbers of the type that rows have there and, where single rows call native
operations, the calls must reach the built-in ones.

* `Scope.Offers`          the built-in operations can be called where the unit wants calls;
* `Builder.AtWork b cur`  nothing is wrong with `b`, and its block `cur` takes the next instruction;
* `Builder.Yields`        what a piece of code with one result leaves behind;
* `Tree.Bound`            the columns of a tree have values;
* `Tree.emit_ready`       the code of a tree, by induction on the tree.
-/

namespace TreeJit

open SSA Emit

namespace Host.Builtin

theorem name_ne_empty (f : Builtin) : f.name ≠ "" := by
  cases f with
  | float op => cases op <;> exact nofun
  | compare c => cases c <;> exact nofun
  | intAdd | intSub | intMul => exact nofun

theorem sig_isValid (f : Builtin) : f.sig.isValid = true := by
  cases f <;> rfl

end Host.Builtin

/-- where single rows call native operations, the catalog has the built-in ones and the module has
their addresses -/
def Emit.Scope.Offers [Host.Platform] (s : Scope) : Prop :=
  s.native = true → s.catalog.HoldsBuiltins ∧ ∀ f : Host.Builtin, s.module.symbol? f.name ≠ none

namespace Emit.Builder
variable {b : Builder} {cur : Nat} {scope : Scope}

/-- a healthy builder whose block `cur` takes the next instruction -/
structure AtWork (b : Builder) (cur : Nat) : Prop where
  state : b.state = .building
  fault : b.fault = none
  isOpen : b.draft.Open cur

theorem AtWork.healthy (h : b.AtWork cur) : b.Healthy := ⟨h.fault, h.isOpen.fault⟩

theorem AtWork.ahead (h : b.AtWork cur) {d : Draft} (hd : b.draft.Ahead cur d) :
    AtWork { b with draft := d } cur := ⟨h.state, h.fault, hd.isOpen⟩

/-- more code in the draft, and a value of the type `t` -/
def Yields (cur : Nat) (b : Builder) (r : Builder × Int) (t : Ty) : Prop :=
  ∃ d v, r = ({ b with draft := d }, v) ∧ b.draft.Ahead cur d ∧ d.Has [v] [t]

theorem yields_of_draft {op : Draft → Draft × Int} {t : Ty} (h : b.draft.Yields cur (op b.draft) t) :
    b.Yields cur (b.onDraft op) t :=
  ⟨_, _, rfl, h.1, h.2⟩

theorem AtWork.column (h : b.AtWork cur) {i v : Int} (hv : b.columns.lookup i = some v) :
    b.column i = (b, v) := by
  refine attempt_eq h.state h.healthy ?_ h.healthy
  simp only [hv]

/-- **A call of a built-in operation can be written.** -/
theorem AtWork.call [Host.Platform] (h : b.AtWork cur) (hs : scope.Offers)
    (hn : scope.native = true) {f : Host.Builtin} {x y : Int} (ha : b.draft.Has [x, y] f.sig.params) {t : Ty}
    (ht : f.sig.returns = [t]) : b.Yields cur (b.call scope f.name [x, y]) t := by
  obtain ⟨hc, hsym⟩ := hs hn
  obtain ⟨h1, hr1, hi⟩ := h.isOpen.importFn f.name_ne_empty f.sig_isValid
  cases e1 : b.draft.importFn f.name f.sig with
  | mk d1 ref =>
  rw [e1] at h1 hr1 hi
  simp only at h1 hr1 hi
  obtain ⟨h2, hr2⟩ := h1.isOpen.call hi (h1.has ha)
  cases e2 : d1.call b.draft.body.fn.imports.size [x, y] with
  | mk d2 rs =>
  rw [e2] at h2 hr2
  simp only [ht] at h2 hr2
  obtain ⟨ns, rfl, hns⟩ := hr2
  obtain ⟨n, rfl⟩ : ∃ n, ns = [n] := List.length_eq_one_iff.mp hns.length_eq
  refine ⟨d2, n, ?_, h1.trans h2, [n], rfl, hns⟩
  refine attempt_eq h.state h.healthy ?_ ⟨h.fault, h2.isOpen.fault⟩
  have hop : scope.catalog.resolve f.name =
      .ok ⟨f.name, f.sig, Host.hostConv, .native (.builtin f)⟩ := by
    rw [Host.Catalog.resolve, hc f]
  have hno : ¬ ((scope.module.symbol? f.name).isNone = true) := fun e =>
    hsym f (Option.isNone_iff_eq_none.mp e)
  have hone : ¬ (f.sig.returns.length ≠ 1) := fun e => e (by rw [ht]; rfl)
  simp only [hop, if_neg hno, if_neg hone, e1, hr1, e2]
  rfl

end Emit.Builder

section
variable {b : Builder} {cur : Nat} {scope : Scope}

theorem laneTy_float (lanes : Nat) : laneTy lanes .float = .f64 ∨ laneTy lanes .float = .f64x2 := by
  unfold laneTy
  by_cases h : lanes = 1
  · rw [if_pos h]
    exact .inl rfl
  · rw [if_neg h]
    exact .inr rfl

theorem emitLiteral_ready (h : b.AtWork cur) (hl : 1 ≤ b.lanes) (bits : UInt64) :
    b.Yields cur (emitLiteral b bits) (laneTy b.lanes .float) := by
  obtain ⟨h1, hr1⟩ := h.isOpen.fconst bits
  cases e1 : b.draft.fconst .f64 bits with
  | mk d1 v =>
  rw [e1] at h1 hr1
  simp only at h1 hr1
  by_cases hv : 1 < b.lanes
  · obtain ⟨h2, hr2⟩ : d1.Yields cur (d1.splat .f64x2 v) .f64x2 := h1.isOpen.splat rfl hr1
    have hne : b.lanes ≠ 1 := Nat.ne_of_gt hv
    refine ⟨(d1.splat .f64x2 v).1, (d1.splat .f64x2 v).2, ?_, h1.trans h2, ?_⟩
    · simp only [emitLiteral, Builder.onDraft, e1, if_pos hv]
    · rw [laneTy, if_neg hne]
      exact hr2
  · have hone : b.lanes = 1 := Nat.le_antisymm (Nat.le_of_not_lt hv) hl
    refine ⟨d1, v, ?_, h1, ?_⟩
    · simp only [emitLiteral, Builder.onDraft, e1, if_neg hv]
    · rw [laneTy, if_pos hone]
      exact hr1

namespace Operator
variable {o : Operator} {x y : Int}

theorem inline_ready (ho : o.isValid = true) {d : Draft} (h : d.Open cur) (lanes : Nat)
    (hx : d.Has [x] [laneTy lanes .float]) (hy : d.Has [y] [laneTy lanes .float]) :
    d.Yields cur (o.inline x y d) (laneTy lanes o.kind) := by
  cases o with
  | other s => cases ho
  | arith op =>
    have hop : (floatBin op).allows (laneTy lanes .float) = true := by
      rcases laneTy_float lanes with e | e
      all_goals
        rw [e]
        cases op <;> rfl
    rw [inline_arith]
    exact h.binary hop hx hy
  | compare c =>
    have hc := h.fcmp c ((laneTy_float lanes).imp (fun e => by rw [e]; rfl) id) hx hy
    rwa [fcmpResult_laneTy] at hc

/-- **An operator can be written**, as a call or as an instruction. -/
theorem emit_ready [Host.Platform] (hs : b.lanes = 1 → scope.Offers) (h : b.AtWork cur)
    (ho : o.isValid = true)
    (hx : b.draft.Has [x] [laneTy b.lanes .float]) (hy : b.draft.Has [y] [laneTy b.lanes .float]) :
    b.Yields cur (o.emit scope b x y) (laneTy b.lanes o.kind) := by
  unfold Operator.emit
  by_cases hn : b.lanes = 1 ∧ scope.native = true
  · rw [if_pos hn, native_eq ho]
    have hxy := hx.cons hy
    rw [hn.1] at hxy ⊢
    cases o with
    | other s => cases ho
    | arith op => exact h.call (hs hn.1) hn.2 hxy rfl
    | compare c => exact h.call (hs hn.1) hn.2 hxy rfl
  · rw [if_neg hn]
    exact Builder.yields_of_draft (inline_ready ho h.isOpen b.lanes hx hy)

end Operator

namespace Tree

def Bound (t : Tree) (b : Builder) : Prop :=
  ∀ c ∈ t.columns, ∃ n : ValueNo, b.columns.lookup c.toInt = some (n : Int) ∧
    b.draft.body.fn.values[n]? = some (laneTy b.lanes .float)

theorem Bound.columnsBound {t : Tree} (h : t.Bound b) : t.ColumnsBound b := by
  intro c hc v hv
  obtain ⟨n, hn, hty⟩ := h c hc
  exact ⟨n, Option.some.inj (hv.symm.trans hn), hty⟩

theorem Bound.of_binary {o : Operator} {l r : Tree} (h : (binary o l r).Bound b) :
    l.Bound b ∧ r.Bound b :=
  ⟨fun c hc => h c (List.mem_append_left _ hc), fun c hc => h c (List.mem_append_right _ hc)⟩

theorem Bound.ahead {t : Tree} (h : t.Bound b) {d : Draft} (hd : b.draft.Ahead cur d) :
    t.Bound { b with draft := d } := by
  intro c hc
  obtain ⟨n, hn, hty⟩ := h c hc
  exact ⟨n, hn, hd.grows.values n _ hty⟩

/-- **The code of a tree can be written.** -/
theorem emit_ready [Host.Platform] (t : Tree) (ht : t.check = .ok ()) {b : Builder}
    (hs : b.lanes = 1 → scope.Offers) (h : b.AtWork cur) (hl : 1 ≤ b.lanes) (hb : t.Bound b) :
    ∃ d v, t.emit scope b = ({ b with draft := d }, some v) ∧ b.draft.Ahead cur d ∧
      d.Has [v] [laneTy b.lanes t.kind] := by
  induction t generalizing b with
  | missing => cases ht
  | column i name =>
    obtain ⟨n, hn, hty⟩ := hb i List.mem_cons_self
    refine ⟨b.draft, n, ?_, h.isOpen.ahead, Draft.Has.one hty⟩
    rw [Tree.emit, h.column hn]
  | literal bits =>
    obtain ⟨d, v, e, hd, hv⟩ := emitLiteral_ready h hl bits
    refine ⟨d, v, ?_, hd, hv⟩
    rw [Tree.emit, e]
  | binary o l r ihl ihr =>
    obtain ⟨ho, hlc, hlk, hrc, hrk⟩ := check_binary ht
    obtain ⟨hbl, hbr⟩ := hb.of_binary
    obtain ⟨d1, x, e1, h1, hx⟩ := ihl hlc hs h hl hbl
    obtain ⟨d2, y, e2, h2, hy⟩ := ihr (b := { b with draft := d1 }) hrc hs (h.ahead h1) hl
      (hbr.ahead h1)
    rw [hlk] at hx
    rw [hrk] at hy
    obtain ⟨d3, v, e3, h3, hv⟩ := Operator.emit_ready (b := { b with draft := d2 }) hs
      (h.ahead (h1.trans h2)) ho (h2.has hx) hy
    refine ⟨d3, v, ?_, (h1.trans h2).trans h3, hv⟩
    simp only [Tree.emit, e1, e2, e3]

end Tree

end

end TreeJit
