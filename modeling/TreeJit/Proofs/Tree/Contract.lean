import TreeJit.Proofs.Emit.Handling
import TreeJit.Proofs.Host.Helper
import TreeJit.Proofs.Predicate.Agreement
import TreeJit.Proofs.Tree.Ready

/-!
# What the code of a tree promises

Whoever writes the code of a tree into a builder gets straight-line code at the end of the active
block, a value of the tree's kind, and the value of the tree when the code is performed: on single
rows, by calls or by instructions, and on pairs of rows (`Tree.Fulfils`).  A call of a built-in name
means the body of its helper.

The promise needs a module that is open where single rows call native operations: a closed module
gives no addresses, and the first call is refused.
-/

namespace TreeJit

open SSA Emit

namespace SSA

theorem Draft.Open.plain_of_writes {d d' : Draft} {cur : Nat} {ss : List Step} (h : d'.Open cur)
    (hS : d'.Holds Body.Sound) (hcur : d.body.current = some cur) (hw : d.body.Writes d'.body ss) :
    ∀ s ∈ ss, s.inst.isTerminator = false := by
  obtain ⟨blk, hb, ho⟩ := h.block
  obtain ⟨c, hc, e⟩ := hw.known
  obtain rfl := Option.some.inj (hcur.symm.trans hc)
  have hcode := Func.code_of_block hb
  rw [e, writeAt, List.getElem?_modify_eq, Option.map_eq_map, Option.map_eq_some_iff] at hcode
  obtain ⟨p, -, hp⟩ := hcode
  have hsteps : p.2 ++ ss = blk.steps.toList := (Prod.mk.inj hp).2
  intro s hs
  refine ((hS h.fault).blocks cur blk hb).open_steps ho s ?_
  rw [← hsteps]
  exact List.mem_append_right _ hs

end SSA

namespace Tree

theorem eval_of_bool {t : Tree} (h : t.kind = .bool) (F : FloatOps) (row : List UInt64) :
    t.eval F row = truthBits true ∨ t.eval F row = truthBits false := by
  cases t with
  | binary o l r =>
    cases o with
    | arith | other => cases h
    | compare c =>
      show truthBits _ = _ ∨ truthBits _ = _
      cases F.test c (l.eval F row) (r.eval F row)
      · exact .inr rfl
      · exact .inl rfl
  | column | literal | missing => cases h

/-- **The contract**: what the code `ss` of the tree `t`, which led from the builder `b` to the draft
`d`, is and does -/
structure Fulfils (t : Tree) (b : Builder) (cur : Nat) (d : Draft) (v : ValueNo) (ss : List Step) :
    Prop where
  /-- no fault, and the block goes on -/
  isOpen : d.Open cur
  writes : b.draft.body.Writes d.body ss
  plain : ∀ s ∈ ss, s.inst.isTerminator = false
  blocks : d.body.fn.blocks.size = b.draft.body.fn.blocks.size
  slots : d.body.fn.slots = b.draft.body.fn.slots
  typed : d.body.fn.values[v]? = some (laneTy b.lanes t.kind)
  truth : t.kind = .bool → ∀ F row, t.eval F row = truthBits true ∨ t.eval F row = truthBits false
  /-- performing the code where the columns hold the cells of one row or of two -/
  computes : ∀ (w : World) (a : Activation) (st : State) (r0 r1 : List UInt64), RunsHelpers w →
    d.body.fn.imports.toList <+: a.fn.imports.toList → d.body.fn.values.size ≤ st.regs.size →
    t.ColumnsHold b r0 r1 st →
    Computes w a st ss b.draft.body.fn.values.size v
      (laneVal b.lanes t.kind (t.eval w.float r0) (t.eval w.float r1))

/-- **The code of a tree keeps the contract** on every healthy builder with an open block, in every
unit in use. -/
theorem emit_fulfils [Host.Platform] (catalog : Option Host.Catalog) (settings : Host.Settings)
    (native : Bool) (start : CodeUnit) (hb : CodeUnit.build catalog settings native = .ok start)
    (hn : native = true → (catalog.getD {}).HoldsBuiltins) (u : CodeUnit)
    (hu : CodeUnit.Handled start u) (i : Nat) (b : Builder) (hi : u.builders[i]? = some b)
    (hopen : native = true → b.lanes = 1 → u.module.closed = false) (hf : b.fault = none)
    (cur : Nat) (hc : b.draft.Open cur) (hl : b.lanes = 1 ∨ b.lanes = 2) (t : Tree)
    (ht : t.check = .ok ()) (hcol : t.Bound b) : ∃ (d : Draft) (v : ValueNo) (ss : List Step),
      t.emit u.scope b = ({ b with draft := d }, some (v : Int)) ∧ t.Fulfils b cur d v ss := by
  have hlanes : 1 ≤ b.lanes := by omega
  have hnative : u.scope.native = native := by
    obtain ⟨j, rfl⟩ := CodeUnit.build_ok hb
    exact hu.native
  have hcat : u.scope.native = true → u.scope.catalog.HoldsBuiltins := fun h =>
    (hu.symbol_ne (hn (hnative.symm.trans h)) hb).1
  have hoffers : b.lanes = 1 → u.scope.Offers := fun h1 h =>
    have hsym := hu.symbol_ne (hn (hnative.symm.trans h)) hb
    ⟨hsym.1, hsym.2 (hopen (hnative.symm.trans h) h1)⟩
  -- the code can be written, so nothing goes wrong, and then it means what it should
  have hwork : b.AtWork cur := ⟨hu.building hb hi hf hc, hf, hc⟩
  obtain ⟨d, v, e, hd, -⟩ := emit_ready t ht hoffers hwork hlanes hcol
  have hhealthy : (t.emit u.scope b).1.Healthy := by
    rw [e]
    exact ⟨hf, hd.isOpen.fault⟩
  have hsound := ((hu.builder hb).1 i b hi).sound
  obtain ⟨-, n, d', ss, e', hem, hm⟩ :=
    emit_sound hcat t ht hsound hlanes hc.current hcol.columnsBound hhealthy
  obtain rfl : d = d' := congrArg (fun r : Builder × Option Int => r.1.draft) (e.symm.trans e')
  refine ⟨d, n, ss, e', ?_⟩
  exact
    { isOpen := hd.isOpen
      writes := hem.writes
      plain := hd.isOpen.plain_of_writes hem.sound hc.current hem.writes
      blocks := hem.writes.blocks_size
      slots := hem.writes.slots
      typed := hem.typed
      truth := eval_of_bool
      computes := fun w a st r0 r1 hw => hm w a st r0 r1 (runsHelpers_iff.mp hw) }

attribute [local instance] Host.Platform.linuxX64

def gap : Tree :=
  .binary (.compare .lt) (.binary (.arith .sub) (.column 0 "x") (.column 1 "y"))
    (.literal 0x3FF0000000000000)

/-- a function of two numbers, which are the columns -/
def gapSession : List Emit.Op :=
  [.create "gap" ⟨[.f64, .f64], [.i8]⟩, .work 0 (.bindColumn 0 0), .work 0 (.bindColumn 1 1)]

def gapBuilder : Builder :=
  ((Builder.new 0 "gap" ⟨[.f64, .f64], [.i8]⟩).bindColumn 0 0).bindColumn 1 1

theorem open_gapBuilder : gapBuilder.draft.Open 0 :=
  ⟨⟨rfl, rfl⟩, rfl, _, rfl, rfl⟩

theorem bound_gap : gap.Bound gapBuilder := by
  show ∀ c ∈ [(0 : Int64), 1], _
  rw [List.forall_mem_cons, List.forall_mem_singleton]
  exact ⟨⟨0, rfl, rfl⟩, ⟨1, rfl, rfl⟩⟩

/-- the difference and the comparison, by calls -/
theorem emit_fulfils_gap : ∃ (d : Draft) (v : ValueNo) (ss : List Step),
    gap.emit (Predicate.freshUnit.perform gapSession).scope gapBuilder =
      ({ gapBuilder with draft := d }, some (v : Int)) ∧ gap.Fulfils gapBuilder 0 d v ss :=
  emit_fulfils (some ⟨Host.Catalog.builtinOps⟩) {} true Predicate.freshUnit rfl
    (fun _ => Predicate.holdsBuiltins_builtinOps) (Predicate.freshUnit.perform gapSession)
    (CodeUnit.handled_perform _ _) 0 gapBuilder rfl (fun _ _ => rfl) rfl 0 open_gapBuilder (.inl rfl)
    gap rfl bound_gap

/-- **Without an open module the promise is broken**: all else is given, and the first call faults. -/
theorem emit_closedGap :
    CodeUnit.build (some ⟨Host.Catalog.builtinOps⟩) {} true = .ok Predicate.freshUnit ∧
    Host.Catalog.HoldsBuiltins ⟨Host.Catalog.builtinOps⟩ ∧
    (Predicate.freshUnit.perform (gapSession ++ [.close])).builders[0]? = some gapBuilder ∧
    gapBuilder.fault = none ∧ gapBuilder.draft.Open 0 ∧ gapBuilder.lanes = 1 ∧ gap.check = .ok () ∧
    gap.Bound gapBuilder ∧
    (gap.emit (Predicate.freshUnit.perform (gapSession ++ [.close])).scope gapBuilder).1.fault =
      some (.lateOperation "Float64SubWrapping") ∧
    (gap.emit (Predicate.freshUnit.perform (gapSession ++ [.close])).scope gapBuilder).2 =
      some (-1) :=
  ⟨rfl, Predicate.holdsBuiltins_builtinOps, rfl, rfl, open_gapBuilder, rfl, rfl, bound_gap, rfl, rfl⟩

end Tree

end TreeJit
