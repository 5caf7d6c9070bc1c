import TreeJit.Emit.CodeUnit
import TreeJit.Proofs.Host.Catalog
import TreeJit.Proofs.Host.Module

/-!
# The life of a unit

A unit is built over a catalog and then changed step by step (`CodeUnit.Step`): by its own
operations, by work on its builders, by additions to the catalog and by direct work on its module.
Over a catalog that offered the built-in operations from the start, catalog and module go on
offering them (`CodeUnit.Sound`), and code that was placed stays.

* `Step.module`        a step does at most one thing to the module;
* `Reachable.sound`    what every unit satisfies;
* `finalize_ok`        compiling a waiting body places it.
-/

namespace TreeJit.Emit

open SSA

theorem Builder.id_finalize (b : Builder) (results : List Int) : (b.finalize results).1.id = b.id := by
  have hfail : ∀ (b : Builder) (f : Fault), (b.fail f).id = b.id := by
    intro b f
    unfold fail
    split <;> rfl
  have hsync : ∀ b : Builder, b.sync.id = b.id := by
    intro b
    unfold sync
    split
    · exact hfail ..
    · rfl
  unfold finalize
  split
  · simp only
    split
    · exact hsync _
    · split
      · exact hsync _
      · rw [hfail]
        exact hsync _
  · rfl

namespace CodeUnit
variable {u u' : CodeUnit}

/-! ## what operations leave -/

@[simp] theorem module_note (u : CodeUnit) (es : List Event) : (u.note es).module = u.module := rfl

@[simp] theorem catalog_note (u : CodeUnit) (es : List Event) : (u.note es).catalog = u.catalog := rfl

@[simp] theorem module_poison (u : CodeUnit) (f : Fault) : (u.poison f).module = u.module := by
  unfold poison
  split <;> rfl

@[simp] theorem catalog_poison (u : CodeUnit) (f : Fault) : (u.poison f).catalog = u.catalog := by
  unfold poison
  split <;> rfl

@[simp] theorem module_absorb (u : CodeUnit) (i : Nat) (b : Builder) :
    (u.absorb i b).module = u.module := by
  unfold absorb
  simp only
  split
  · rw [module_poison]
  · rfl

@[simp] theorem catalog_absorb (u : CodeUnit) (i : Nat) (b : Builder) :
    (u.absorb i b).catalog = u.catalog := by
  unfold absorb
  simp only
  split
  · rw [catalog_poison]
  · rfl

theorem ops_of_add {c c' : Host.Catalog} {op : Host.Operation} (h : c.add op = .ok c') :
    c'.ops = c.ops ++ [op] := by
  obtain ⟨-, -, rfl⟩ := Host.Catalog.add_eq_ok_iff.mp h
  rfl

theorem create_cases (u : CodeUnit) (name : String) (sig : Signature) :
    ((u.create name sig).1 = u ∧ ∃ f, (u.create name sig).2 = .error f) ∨
      ∃ (m : Host.Module) (id : Nat), u.fault = none ∧ u.module.declare name sig = .ok (m, id) ∧
        u.create name sig = ({ u with
          module := m, builders := u.builders.push (.new id name sig)
          active := some u.builders.size }, .ok u.builders.size) := by
  unfold create
  split
  · exact .inl ⟨rfl, _, rfl⟩
  · exact .inl ⟨rfl, _, rfl⟩
  · rename_i hf _
    split
    · exact .inl ⟨rfl, _, rfl⟩
    · split
      · exact .inl ⟨rfl, _, rfl⟩
      · rename_i m id hd
        exact .inr ⟨m, id, hf, hd, rfl⟩

theorem update_some {α : Type} {i : Nat} {op : Scope → Builder → Builder × α} {a : α}
    (h : u.update i op = (u', some a)) :
    ∃ b b', u.builders[i]? = some b ∧ op u.scope b = (b', a) ∧ u' = u.absorb i b' := by
  unfold update at h
  split at h
  · cases h
  · rename_i b hb
    cases h
    exact ⟨b, _, hb, rfl, rfl⟩

theorem module_finish (u : CodeUnit) (i : Nat) (results : List Int) :
    (u.finish i results).1.module = u.module ∧ (u.finish i results).1.catalog = u.catalog := by
  unfold finish
  split
  · exact ⟨rfl, rfl⟩
  · simp only
    split <;> exact ⟨by simp, by simp⟩

theorem module_update {α : Type} (u : CodeUnit) (i : Nat) (op : Scope → Builder → Builder × α) :
    (u.update i op).1.module = u.module ∧ (u.update i op).1.catalog = u.catalog := by
  unfold update
  split
  · exact ⟨rfl, rfl⟩
  · exact ⟨by simp, by simp⟩

/-- ending the work of a builder leaves its body at the front of what waits -/
theorem finish_done {i : Nat} {results : List Int} {b : Builder} (hb : u.builders[i]? = some b)
    (h : u.finish i results = (u', .done ())) :
    ∃ b' fn rest, b.finalize results = (b', .ok fn) ∧ u'.pending = some ((b'.id, fn) :: rest) := by
  unfold finish at h
  rw [hb] at h
  simp only at h
  split at h
  · cases h
  · cases h
  · rename_i fn ps hr hps
    cases h
    exact ⟨_, fn, ps, Prod.ext rfl hr, rfl⟩

variable [Host.Platform]

/-! ## steps -/

inductive Step : CodeUnit → CodeUnit → Prop where
  | create (u : CodeUnit) (name : String) (sig : Signature) : Step u (u.create name sig).1
  | update {α : Type} (u : CodeUnit) (i : Nat) (op : Scope → Builder → Builder × α) :
      Step u (u.update i op).1
  | finish (u : CodeUnit) (i : Nat) (results : List Int) : Step u (u.finish i results).1
  | finalize (u : CodeUnit) (id : Int) : Step u (u.finalize id).1
  | close (u : CodeUnit) : Step u u.close
  | note (u : CodeUnit) (es : List Event) : Step u (u.note es)
  /-- the caller adds an operation to the catalog of the unit -/
  | register {u : CodeUnit} {op : Host.Operation} {c : Host.Catalog} (hs : u.shared = true)
      (h : u.catalog.add op = .ok c) : Step u { u with catalog := c }
  /-- direct work on the module -/
  | direct {u : CodeUnit} {m : Host.Module} (h : Host.Module.Step u.module m) :
      Step u { u with module := m }

abbrev Steps : CodeUnit → CodeUnit → Prop := Relation.ReflTransGen Step

theorem module_finalize (u : CodeUnit) (id : Int) :
    ((u.finalize id).1.module = u.module ∨
      ∃ fn, (u.finalize id).1.module = (u.module.define id fn).1) ∧
      (u.finalize id).1.catalog = u.catalog := by
  unfold finalize
  split
  · exact ⟨.inl rfl, rfl⟩
  · simp only
    split
    · exact ⟨.inl rfl, rfl⟩
    · rename_i fn _
      split
      all_goals exact ⟨.inr ⟨fn, by simp⟩, by simp⟩

/-- **A step leaves the module or is a step of it.** -/
theorem Step.module (h : Step u u') :
    u'.module = u.module ∨ Host.Module.Step u.module u'.module := by
  cases h with
  | create _ name sig =>
    rcases u.create_cases name sig with ⟨e, -⟩ | ⟨m, id, -, hd, e⟩
    · exact .inl (by rw [e])
    · rw [e]
      exact .inr (.declare hd)
  | update _ i op => exact .inl (u.module_update i op).1
  | finish _ i results => exact .inl (u.module_finish i results).1
  | finalize _ id =>
    rcases (u.module_finalize id).1 with e | ⟨fn, e⟩
    · exact .inl e
    · rw [e]
      exact .inr (.define u.module id fn)
  | close => exact .inr (.close u.module)
  | note es => exact .inl rfl
  | register => exact .inl rfl
  | direct h => exact .inr h

theorem Steps.module (h : Steps u u') : Host.Module.Steps u.module u'.module := by
  induction h with
  | refl => exact .refl
  | tail _ h ih =>
    rcases h.module with e | h
    · rw [e]
      exact ih
    · exact ih.tail h

theorem Step.catalog (h : Step u u') :
    u'.catalog = u.catalog ∨ ∃ op, u.catalog.add op = .ok u'.catalog := by
  cases h with
  | create _ name sig =>
    rcases u.create_cases name sig with ⟨e, -⟩ | ⟨m, id, -, hd, e⟩
    · exact .inl (by rw [e])
    · exact .inl (by rw [e])
  | update _ i op => exact .inl (u.module_update i op).2
  | finish _ i results => exact .inl (u.module_finish i results).2
  | finalize _ id => exact .inl (u.module_finalize id).2
  | close => exact .inl rfl
  | note es => exact .inl rfl
  | register _ h => exact .inr ⟨_, h⟩
  | direct h => exact .inl rfl

/-! ## what every unit satisfies -/

theorem holdsBuiltins_add {c c' : Host.Catalog} {op : Host.Operation} (hc : c.HoldsBuiltins)
    (h : c.add op = .ok c') : c'.HoldsBuiltins := by
  intro b
  have hc := hc b
  unfold Host.Catalog.find? at hc ⊢
  rw [ops_of_add h, List.find?_append, hc]
  rfl

/-- the built-in operations are on offer and the module is sound -/
structure Sound (u : CodeUnit) : Prop where
  catalog : u.catalog.HoldsBuiltins
  imports : Host.HoldBuiltins u.module.imports
  module : u.module.Sound

theorem Sound.step (hs : u.Sound) (h : Step u u') : u'.Sound := by
  have hcat : u'.catalog.HoldsBuiltins := by
    rcases h.catalog with e | ⟨op, hadd⟩
    · rw [e]
      exact hs.catalog
    · exact holdsBuiltins_add hs.catalog hadd
  rcases h.module with e | hm
  · exact ⟨hcat, by rw [e]; exact hs.imports, by rw [e]; exact hs.module⟩
  · exact ⟨hcat, by rw [Host.Module.imports_step hm]; exact hs.imports, hs.module.step hm⟩

theorem Sound.steps (hs : u.Sound) (h : Steps u u') : u'.Sound := by
  induction h with
  | refl => exact hs
  | tail _ h ih => exact ih.step h

theorem build_ok {catalog : Option Host.Catalog} {settings : Host.Settings} {native : Bool}
    (h : build catalog settings native = .ok u) : ∃ journal, u =
      { module := { settings, imports := (catalog.getD {}).ops }, catalog := catalog.getD {},
        shared := catalog.isSome, native, journal } := by
  obtain ⟨⟨m, es⟩, hm, h⟩ := bind_eq_ok.mp h
  cases h
  obtain ⟨_, -, hm⟩ := bind_eq_ok.mp hm
  obtain ⟨_, -, hm⟩ := bind_eq_ok.mp hm
  cases hm
  exact ⟨_, rfl⟩

theorem sound_build {catalog : Option Host.Catalog} {settings : Host.Settings} {native : Bool}
    (h : build catalog settings native = .ok u) (hc : (catalog.getD {}).HoldsBuiltins) :
    u.Sound := by
  obtain ⟨j, rfl⟩ := build_ok h
  exact ⟨hc, hc, Host.Module.sound_empty ..⟩

/-- the units over a catalog that offered the built-in operations when the unit was built -/
def Reachable (u : CodeUnit) : Prop :=
  ∃ (c : Host.Catalog) (settings : Host.Settings) (native : Bool) (start : CodeUnit),
    c.HoldsBuiltins ∧ build (some c) settings native = .ok start ∧ Steps start u

/-- **What every unit satisfies.** -/
theorem Reachable.sound (h : u.Reachable) : u.Sound := by
  obtain ⟨c, settings, native, start, hc, hb, hs⟩ := h
  exact (sound_build hb hc).steps hs

/-! ## compiling a function -/

theorem finalize_ok {id : Int} {c : Compiled} {fn : Func} {rest : List (Nat × Func)} {n : Nat}
    (hp : u.pending = some ((n, fn) :: rest)) (hn : (n : Int) = id)
    (h : u.finalize id = (u', .ok c)) :
    c.id = n ∧ u'.module.closed = false ∧ ∃ name, u'.module.Holds n name fn := by
  unfold finalize at h
  split at h
  · cases h
  · have hfind : (u.pending.getD []).find? (fun p => ((p.1 : Nat) : Int) = id) = some (n, fn) := by
      rw [hp]
      exact List.find?_cons_of_pos (by simpa using hn)
    simp only [hfind] at h
    split at h
    · cases h
    · cases h
    · rename_i hok _
      rcases u.module.define_cases id fn with ⟨-, f, hbad⟩ | ⟨k, d, p, hk, rfl, ha, e, -⟩
      · rw [hbad] at hok
        cases hok
      · cases h
        obtain rfl : n = k := by omega
        refine ⟨hn.symm, ?_, d.name, ?_⟩
        · show (u.module.define id p.fn).1.closed = false
          rw [e]
          exact ha.opened
        · show (u.module.define id p.fn).1.Holds n d.name p.fn
          rw [e]
          exact ha.holds

end CodeUnit

end TreeJit.Emit
