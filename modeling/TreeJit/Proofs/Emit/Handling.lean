import TreeJit.Proofs.Emit.Linking
import TreeJit.Proofs.SSA.Progress

/-!
# Units in use

A unit hands out its module, so between operations on the unit anything may be done with the module
itself: functions declared and defined there, or the module closed (`Handled`).  What sessions keep is
kept then too, since such work touches neither builders nor catalog.

* `Builder.Spent`        a fault stops the builder, or its function is handed out;
* `Effect.spent`         a builder whose work has ended is spent;
* `Handled.builder`      what is known of every builder of a unit in use;
* `Handled.symbol_ne`    as long as the module is open, it has the operations of its snapshot.
-/

namespace TreeJit.Emit

open SSA

/-! ## builders that give nothing more -/

namespace Builder
variable {b b' : Builder}

/-- the builder takes nothing more -/
def Spent (b : Builder) : Prop := b.fault ≠ none ∨ b.draft.done = true

theorem Spent.ages (h : b.Spent) (ha : b.Ages b') : b'.Spent := by
  refine h.imp (fun hf => ?_) (fun hd => ?_)
  · obtain ⟨f, hf⟩ := Option.ne_none_iff_exists'.mp hf
    rw [ha.fault f hf]
    exact nofun
  · obtain ⟨as, e⟩ := ha.draft
    rw [e]
    exact Draft.done_perform hd as

theorem done_of_finalize {results : List Int} {fn : Func} (h : b.finalize results = (b', .ok fn)) :
    b'.draft.done = true := by
  unfold finalize at h
  split at h
  · simp only at h
    split at h
    · cases h
    · split at h
      · rename_i d fn he
        cases h
        exact Draft.done_of_finish he
      · cases h
  · cases h

theorem spent_of_finalize (hst : b.state = .building) {results : List Int} {r : Except Fault Func}
    (h : b.finalize results = (b', r)) : b'.Spent := by
  rcases b.finalize_cases results with ⟨hno, -⟩ | ⟨-, c, -, -, ⟨f, hf, e⟩ | ⟨fn, -, -, -, e⟩⟩
  · exact absurd hst hno
  · rw [h] at e
    cases e
    exact .inl (by rw [hf]; exact nofun)
  · rw [h] at e
    cases e
    exact .inr (done_of_finalize h)

end Builder

namespace CodeUnit
variable {u u' : CodeUnit} {o : Op}

/-- the work on a builder ends with its fault or with its function -/
def EndsSpent (u : CodeUnit) : Prop :=
  ∀ (i : Nat) (b : Builder), u.builders[i]? = some b → b.state ≠ .building → b.Spent

variable [Host.Platform]

theorem Effect.spent (h : Effect u o u') (hs : u.EndsSpent) : u'.EndsSpent := by
  intro i b' hb' hst'
  rcases h.builder_before hb' with ⟨b, hb, ha⟩ | ⟨name, sig, -, -, rfl, -⟩
  · by_cases hst : b.state = .building
    · obtain ⟨results, r, hfin, -⟩ := h.ended hb hst hb' hst'
      exact Builder.spent_of_finalize hst hfin
    · exact (hs i b hb hst).ages ha
  · exact absurd rfl hst'

theorem Effect.native (h : Effect u o u') : u'.native = u.native := by
  cases h <;> rfl

/-! ## units in use -/

/-- `u` is what became of `start` by operations on the unit and direct work on its module -/
inductive Handled (start : CodeUnit) : CodeUnit → Prop where
  | start : Handled start start
  | act {u : CodeUnit} (h : Handled start u) (o : Op) : Handled start (u.act o)
  | direct {u : CodeUnit} {m : Host.Module} (h : Handled start u)
      (hm : Host.Module.Step u.module m) : Handled start { u with module := m }

variable {start : CodeUnit}

theorem handled_perform (start : CodeUnit) (ops : List Op) : Handled start (start.perform ops) := by
  suffices ∀ u, Handled start u → Handled start (u.perform ops) from this start .start
  induction ops with
  | nil => exact fun _ h => h
  | cons o ops ih => exact fun u h => ih (u.act o) (h.act o)

theorem Handled.steps (h : Handled start u) : Steps start u := by
  induction h with
  | start => exact .refl
  | @act u _ o ih => exact ih.trans (steps_perform u [o])
  | direct _ hm ih => exact ih.tail (.direct hm)

theorem Handled.native (h : Handled start u) : u.native = start.native := by
  induction h with
  | start => rfl
  | @act u _ o ih => exact (u.act_effect o).native.trans ih
  | direct _ _ ih => exact ih

/-- **Every builder of a unit in use** was made by operations alone, and it is spent when its work
has ended. -/
theorem Handled.builder {catalog : Option Host.Catalog} {settings : Host.Settings} {native : Bool}
    (hb : build catalog settings native = .ok start) (h : Handled start u) :
    (∀ (i : Nat) (b : Builder), u.builders[i]? = some b → b.Made) ∧ u.EndsSpent := by
  induction h with
  | start =>
    refine ⟨made_build hb, ?_⟩
    obtain ⟨j, rfl⟩ := build_ok hb
    intro i b hi
    simp at hi
  | @act u _ o ih =>
    obtain ⟨hm, hs⟩ := ih
    exact ⟨fun i b hi => (u.act_effect o).made hm hi, (u.act_effect o).spent hs⟩
  | direct _ _ ih => exact ih

theorem Handled.building {catalog : Option Host.Catalog} {settings : Host.Settings} {native : Bool}
    (hb : build catalog settings native = .ok start) (h : Handled start u) {i : Nat} {b : Builder}
    (hi : u.builders[i]? = some b) (hf : b.fault = none) {cur : Nat} (ho : b.draft.Open cur) :
    b.state = .building := by
  refine Classical.byContradiction fun hst => ?_
  rcases (h.builder hb).2 i b hi hst with hbad | hdone
  · exact hbad hf
  · exact absurd (hdone.symm.trans ho.done) nofun

/-- **The open module has what its snapshot has**, and so has the catalog. -/
theorem Handled.symbol_ne {catalog : Option Host.Catalog} (hc : (catalog.getD {}).HoldsBuiltins)
    {settings : Host.Settings} {native : Bool} (hb : build catalog settings native = .ok start)
    (h : Handled start u) : u.catalog.HoldsBuiltins ∧
      (u.module.closed = false → ∀ f : Host.Builtin, u.module.symbol? f.name ≠ none) := by
  have hs := (sound_build hb hc).steps h.steps
  refine ⟨hs.catalog, fun hopen f => ?_⟩
  have hres : u.module.resolve f.name = some (Host.Entry.native (.builtin f)).address :=
    (Host.Module.resolve_eq_some_iff hs.module).mpr (.inl ⟨_, hs.imports f, rfl⟩)
  rw [Host.Module.symbol?, hopen, hres]
  exact Option.some_ne_none _

end CodeUnit
end TreeJit.Emit
