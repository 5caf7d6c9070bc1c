import TreeJit.Proofs.Emit.CodeUnit
import TreeJit.Proofs.Predicate.Vector

/-!
# Compiled predicates in their module

Compiling a tree makes a row function and, if there are array columns, a vector function, and both
are placed in the module of the unit.

* `numColumns_bounds`         columns below a bound make rows of that width;
* `makeFunction_done`         a function that was made has the code of its body;
* `compile_done`              what a compiled predicate consists of (`Placed`);
* `Placed.steps`              it stays as long as the unit is used.
-/

namespace TreeJit

open SSA Emit

/-! ## columns -/

theorem Tree.eval_congr {F : FloatOps} {row row' : List UInt64} {t : Tree}
    (h : ∀ c ∈ t.columns, Tree.cell row c = Tree.cell row' c) : t.eval F row = t.eval F row' := by
  induction t with
  | missing => rfl
  | literal bits => rfl
  | column i name => exact h i List.mem_cons_self
  | binary op l r ihl ihr =>
    have hl := ihl fun c hc => h c (List.mem_append_left _ hc)
    have hr := ihr fun c hc => h c (List.mem_append_right _ hc)
    rw [Tree.eval, Tree.eval, hl, hr]

theorem toInt_max (a b : Int64) : (max a b).toInt = max a.toInt b.toInt := by
  show (if a ≤ b then b else a).toInt = _
  by_cases h : a ≤ b
  · rw [if_pos h]
    have := Int64.le_iff_toInt_le.mp h
    omega
  · rw [if_neg h]
    have := mt Int64.le_iff_toInt_le.mpr h
    omega

theorem Tree.numColumns_bounds {n : Int} (hn : n < 2 ^ 63) {t : Tree}
    (h : ∀ c ∈ t.columns, 0 ≤ c.toInt ∧ c.toInt < n) (h0 : 0 ≤ n) :
    0 ≤ t.numColumns.toInt ∧ t.numColumns.toInt ≤ n ∧
      ∀ c ∈ t.columns, c.toInt < t.numColumns.toInt := by
  induction t with
  | missing => exact ⟨Int.le_refl 0, h0, nofun⟩
  | literal bits => exact ⟨Int.le_refl 0, h0, nofun⟩
  | column i name =>
    obtain ⟨h1, h2⟩ := h i List.mem_cons_self
    have e : (Tree.column i name).numColumns.toInt = i.toInt + 1 := by
      show (i + 1).toInt = _
      have e1 : (1 : Int64).toInt = 1 := rfl
      rw [Int64.toInt_add, e1]
      exact Int.bmod_eq_of_le (by omega) (by omega)
    rw [e]
    refine ⟨by omega, by omega, ?_⟩
    intro c hc
    obtain rfl := List.mem_singleton.mp hc
    omega
  | binary op l r ihl ihr =>
    obtain ⟨hl0, hl1, hl2⟩ := ihl fun c hc => h c (List.mem_append_left _ hc)
    obtain ⟨hr0, hr1, hr2⟩ := ihr fun c hc => h c (List.mem_append_right _ hc)
    have e : (Tree.binary op l r).numColumns.toInt =
        max 0 (max l.numColumns.toInt r.numColumns.toInt) := by
      rw [Tree.numColumns, toInt_max, toInt_max]
      rfl
    rw [e]
    refine ⟨by omega, by omega, ?_⟩
    intro c hc
    rcases List.mem_append.mp hc with hc | hc
    · have := hl2 c hc
      omega
    · have := hr2 c hc
      omega

theorem mem_sortedDistinct {xs : List Int} {x : Int} : x ∈ sortedDistinct xs ↔ x ∈ xs := by
  unfold sortedDistinct
  rw [List.mem_mergeSort, List.mem_eraseDups]

namespace Predicate

theorem check_ok {t : Tree} {scalars : List Int} (h : check t scalars = .ok ()) :
    t.check = .ok () ∧ t.kind = .bool := by
  unfold check at h
  split at h
  · cases h
  · rename_i ht
    split at h
    · cases h
    · rename_i hk
      exact ⟨ht, Classical.not_not.mp hk⟩

/-! ## making a function -/

theorem builders_absorb (u : CodeUnit) {i : Nat} (b : Builder) (hi : i < u.builders.size) :
    (u.absorb i b).builders[i]? = some b := by
  have hpoison : ∀ (u : CodeUnit) (f : Emit.Fault), (u.poison f).builders = u.builders := by
    intro u f
    unfold CodeUnit.poison
    split <;> rfl
  unfold CodeUnit.absorb
  simp only
  split
  · rw [hpoison]
    simp [hi]
  · simp [hi]

theorem attach_done {r : CodeUnit × Outcome Emit.Fault Compiled}
    {take : Compiled → Except Host.Fault Unit} {u : CodeUnit} {c : Compiled}
    (h : attach r take = (u, .done c)) : r = (u, .done c) ∧ take c = .ok () := by
  unfold attach at h
  split at h
  · cases h
  · cases h
  · split at h
    · cases h
    · rename_i ht
      cases h
      exact ⟨rfl, ht⟩

variable [Host.Platform]

theorem define_done {u u' : CodeUnit} {i : Nat} {results : List Int} {b : Builder} {c : Compiled}
    (hb : u.builders[i]? = some b) (h : define u i results = (u', .done c)) :
    CodeUnit.Steps u u' ∧ u'.module.closed = false ∧
      ∃ (b' : Builder) (f : Func) (n : Nat) (fname : String), b.finalize results = (b', .ok f) ∧
        c.id = n ∧ u'.module.Holds n fname f := by
  unfold define at h
  rw [hb] at h
  simp only at h
  split at h
  · cases h
  · cases h
  · rename_i u1 hfinish
    have s1 := CodeUnit.Step.finish u i results
    rw [hfinish] at s1
    obtain ⟨b', f, rest, hfin, hpend⟩ := CodeUnit.finish_done hb hfinish
    have hid : b'.id = b.id := by
      have := b.id_finalize results
      rwa [hfin] at this
    cases hc : u1.finalize b.id with
    | mk u2 r =>
      have s2 := CodeUnit.Step.finalize u1 b.id
      rw [hc] at s2 h
      obtain ⟨rfl, hr⟩ := Prod.mk.inj h
      cases r with
      | error f => cases hr
      | ok c' =>
        cases hr
        obtain ⟨hcid, hopen, fname, hholds⟩ := CodeUnit.finalize_ok hpend (by rw [hid]) hc
        exact ⟨(Relation.ReflTransGen.single s1).tail s2, hopen, b', f, _, fname, hfin, hcid, hholds⟩

/-- **A function that was made has the code of its body and is in the module.** -/
theorem makeFunction_done {u u' : CodeUnit} {name : String} {sig : Signature}
    {body : Scope → Builder → Builder × Option (List Int)} {c : Compiled}
    (h : makeFunction u name sig body = (u', .done c)) :
    CodeUnit.Steps u u' ∧ u'.module.closed = false ∧
      ∃ (scope : Scope) (id : Nat) (b b' : Builder) (results : List Int) (f : Func) (n : Nat)
        (fname : String), scope.catalog = u.catalog ∧
        body scope (Builder.new id name sig) = (b, some results) ∧
        b.finalize results = (b', .ok f) ∧ c.id = n ∧ u'.module.Holds n fname f := by
  unfold makeFunction at h
  split at h
  · cases h
  · rename_i u1 i hcreate
    have s1 := CodeUnit.Step.create u name sig
    rw [hcreate] at s1
    split at h
    · rename_i u2 results hupdate
      have s2 := CodeUnit.Step.update u1 i body
      rw [hupdate] at s2
      rcases u.create_cases name sig with ⟨-, f, hbad⟩ | ⟨m, id, -, -, e⟩
      · rw [hcreate] at hbad
        cases hbad
      rw [hcreate] at e
      obtain ⟨hu1, hi⟩ := Prod.mk.inj e
      cases hi
      obtain ⟨b0, b, hb0, hbody, hu2⟩ := CodeUnit.update_some hupdate
      have hbs : u1.builders = u.builders.push (.new id name sig) := by rw [hu1]
      have hnew : b0 = Builder.new id name sig := by
        rw [hbs, Array.getElem?_push_size] at hb0
        exact (Option.some.inj hb0).symm
      have hb : u2.builders[u.builders.size]? = some b := by
        rw [hu2]
        exact builders_absorb u1 b (by simp [hbs])
      obtain ⟨s3, hopen, b', f, n, fname, hfin, hid, hholds⟩ := define_done hb h
      have hcat : u1.scope.catalog = u.catalog := by
        rw [hu1]
        rfl
      rw [hnew] at hbody
      exact ⟨((Relation.ReflTransGen.single s1).tail s2).trans s3, hopen, u1.scope, id, b, b', results,
        f, n, fname, hcat, hbody, hfin, hid, hholds⟩
    · cases h

/-! ## a predicate in its module -/

/-- the predicate of a tree, with the columns in `scalars` apart, and its functions in a module -/
structure Placed (m : Host.Module) (t : Tree) (scalars : List Int) (p : Predicate) : Prop where
  width : p.width = t.numColumns
  arrays : ∀ c, c ∈ p.arrays ↔ c ∈ t.columns.map Int64.toInt ∧ c ∉ scalars
  scalars : ∀ c, c ∈ p.scalars ↔ c ∈ t.columns.map Int64.toInt ∧ c ∈ scalars
  row : ∃ (n : Nat) (name : String) (f : Func), p.row.id = n ∧ m.Holds n name f ∧
    RowFunction t t.numColumns.toInt.toNat f
  vector : p.arrays ≠ [] → ∃ (c : Compiled) (n : Nat) (name : String) (f : Func),
    p.vector = some c ∧ c.id = n ∧ m.Holds n name f ∧ VectorFunction t p.arrays p.scalars f

theorem Placed.steps {m m' : Host.Module} {t : Tree} {scalars : List Int} {p : Predicate}
    (h : Placed m t scalars p) (hs : Host.Module.Steps m m') : Placed m' t scalars p := by
  obtain ⟨hw, ha, hc, ⟨n, name, f, hid, hf, hrow⟩, hv⟩ := h
  refine ⟨hw, ha, hc, ⟨n, name, f, hid, hf.steps hs, hrow⟩, ?_⟩
  intro hne
  obtain ⟨c, n, name, f, hp, hid, hf, hvec⟩ := hv hne
  exact ⟨c, n, name, f, hp, hid, hf.steps hs, hvec⟩

theorem makeRow_done {u u' : CodeUnit} (hu : u.Sound) {name : String} {t : Tree}
    (ht : t.check = .ok ()) (hw : t.numColumns.toInt.toNat ≤ 2 ^ 28) {c : Compiled}
    (h : makeRow u name t t.numColumns = (u', .done c)) :
    CodeUnit.Steps u u' ∧ u'.module.closed = false ∧ ∃ (n : Nat) (fname : String) (f : Func),
      c.id = n ∧ u'.module.Holds n fname f ∧ RowFunction t t.numColumns.toInt.toNat f := by
  obtain ⟨hs, hopen, scope, id, b, b', results, f, n, fname, hcat, hbody, hfin, hid, hholds⟩ :=
    makeFunction_done (attach_done h).1
  refine ⟨hs, hopen, n, fname, f, hid, hholds, ?_⟩
  have hc : scope.catalog.HoldsBuiltins := by
    rw [hcat]
    exact hu.catalog
  cases hb : rowBody t t.numColumns.toInt.toNat scope (Builder.new id (name ++ "_row") rowSig) with
  | mk b1 v =>
    simp only [rowCode, hb] at hbody
    obtain ⟨rfl, hv⟩ := Prod.mk.inj hbody
    cases v with
    | none => cases hv
    | some v =>
      cases hv
      exact rowFunction_of_finalize hc ht hw hb hfin

theorem makeVector_done {u u' : CodeUnit} (hu : u.Sound) {name : String} {t : Tree}
    (ht : t.check = .ok ()) (hk : t.kind = .bool) {arrays scalars : List Int} {c : Compiled}
    (h : makeVector u name t arrays scalars = (u', .done c)) :
    CodeUnit.Steps u u' ∧ u'.module.closed = false ∧ ∃ (n : Nat) (fname : String) (f : Func),
      c.id = n ∧ u'.module.Holds n fname f ∧ VectorFunction t arrays scalars f := by
  obtain ⟨hs, hopen, scope, id, b, b', results, f, n, fname, hcat, hbody, hfin, hid, hholds⟩ :=
    makeFunction_done (attach_done h).1
  refine ⟨hs, hopen, n, fname, f, hid, hholds, ?_⟩
  have hc : scope.catalog.HoldsBuiltins := by
    rw [hcat]
    exact hu.catalog
  cases hb : vectorBody t arrays scalars scope
      (Builder.new id (name ++ "_vector") (vectorSig arrays scalars)) with
  | mk b1 v =>
    simp only [vectorCode, hb] at hbody
    obtain ⟨rfl, hv⟩ := Prod.mk.inj hbody
    cases v with
    | none => cases hv
    | some v =>
      cases hv
      exact vectorFunction_of_finalize hc ht hk hb hfin

/-- **What a compiled predicate consists of.** -/
theorem compile_done {u u' : CodeUnit} (hu : u.Sound) {name : String} {t : Tree}
    {scalars : List Int} {p : Predicate} (hcol : ∀ c ∈ t.columns, c.toInt < 2 ^ 28)
    (h : compile u name t scalars = (u', .done p)) :
    t.check = .ok () ∧ t.kind = .bool ∧ CodeUnit.Steps u u' ∧ u'.module.closed = false ∧
      Placed u'.module t scalars p := by
  unfold compile at h
  split at h
  · cases h
  · rename_i hcheck
    obtain ⟨ht, hk⟩ := check_ok hcheck
    have hnn : ∀ c ∈ t.columns, 0 ≤ c.toInt ∧ c.toInt < 2 ^ 28 := fun c hc =>
      ⟨Int64.le_iff_toInt_le.mp (columns_nonneg ht c hc), hcol c hc⟩
    obtain ⟨hw0, hw1, -⟩ := Tree.numColumns_bounds (by omega) hnn (by omega)
    simp only [List.partition_eq_filter_filter] at h
    have harr : ∀ c, c ∈ (sortedDistinct (t.columns.map Int64.toInt)).filter
        (not ∘ fun c => scalars.contains c) ↔ c ∈ t.columns.map Int64.toInt ∧ c ∉ scalars := by
      intro c
      rw [List.mem_filter, mem_sortedDistinct]
      simp
    have hsca : ∀ c, c ∈ (sortedDistinct (t.columns.map Int64.toInt)).filter
        (fun c => scalars.contains c) ↔ c ∈ t.columns.map Int64.toInt ∧ c ∈ scalars := by
      intro c
      rw [List.mem_filter, mem_sortedDistinct]
      simp
    split at h
    · cases h
    · cases h
    · rename_i u1 row hrow
      obtain ⟨s1, ho1, n, fname, f, hid, hholds, hfn⟩ := makeRow_done hu ht (by omega) hrow
      split at h
      · rename_i hempty
        cases h
        refine ⟨ht, hk, s1.tail (.note u1 _), ho1, rfl, harr, hsca,
          ⟨n, fname, f, hid, hholds, hfn⟩, ?_⟩
        intro hne
        exact absurd (List.isEmpty_iff.mp hempty) hne
      · split at h
        · cases h
        · cases h
        · rename_i u2 vector hvector
          obtain ⟨s2, ho2, k, vname, g, hvid, hvholds, hvfn⟩ :=
            makeVector_done (hu.steps s1) ht hk hvector
          cases h
          exact ⟨ht, hk, (s1.trans s2).tail (.note u2 _), ho2, rfl, harr, hsca,
            ⟨n, fname, f, hid, hholds.steps s2.module, hfn⟩,
            fun _ => ⟨vector, k, vname, g, rfl, hvid, hvholds, hvfn⟩⟩

end Predicate

end TreeJit
