import TreeJit.Emit.Loop
import TreeJit.Proofs.SSA.Straight

/-!
# Builders without a fault

A builder keeps its first fault and so does the draft below it, so a builder that is healthy at the
end was healthy all along and every operation on it did its work (`Builder.attempt_sound`).  Each
lemma `Builder.…_sound` starts from a healthy result and tells what the operation found and wrote.
-/

namespace TreeJit

open SSA

namespace Emit.Builder
variable {b : Builder}

structure Healthy (b : Builder) : Prop where
  fault : b.fault = none
  draft : b.draft.fault = none

theorem Healthy.sync (h : b.Healthy) : b.sync = b := by
  unfold Builder.sync
  rw [h.draft]

theorem healthy_of_sync (h : b.sync.fault = none) : b.Healthy := by
  unfold Builder.sync at h
  cases hd : b.draft.fault with
  | none =>
    rw [hd] at h
    exact ⟨h, hd⟩
  | some f =>
    rw [hd] at h
    unfold fail at h
    cases hb : b.fault with
    | none => simp [hb] at h
    | some g => simp [hb] at h

theorem fail_fault_ne (b : Builder) (f : Fault) : (b.fail f).fault ≠ none := by
  unfold fail
  split
  · rename_i h
    rw [h]
    exact nofun
  · exact nofun

/-- **An operation that leaves a builder healthy found it healthy and did its work.** -/
theorem attempt_sound {α : Type} {a : α} {step : Builder → Builder × Except Fault α}
    (h : (b.attempt a step).1.Healthy) :
    b.Healthy ∧ ∃ b' r, step b = (b', .ok r) ∧ b'.Healthy ∧ b.attempt a step = (b', r) := by
  unfold attempt at h ⊢
  by_cases hb : b.state = .building
  · rw [if_pos hb] at h ⊢
    cases hs : b.sync.fault with
    | some f =>
      simp only [hs] at h
      exact absurd h.fault (by rw [hs]; exact nofun)
    | none =>
      have hh := healthy_of_sync hs
      simp only [hs] at h ⊢
      rw [hh.sync] at h ⊢
      refine ⟨hh, ?_⟩
      cases hst : step b with
      | mk b1 r =>
        simp only [hst] at h ⊢
        cases h1 : b1.sync.fault with
        | some f =>
          simp only [h1] at h
          exact absurd h.fault (by rw [h1]; exact nofun)
        | none =>
          have hh1 := healthy_of_sync h1
          cases r with
          | error f =>
            simp only [h1] at h
            exact absurd h.fault (fail_fault_ne _ _)
          | ok r =>
            refine ⟨b1, r, rfl, hh1, ?_⟩
            show (b1.sync, r) = (b1, r)
            rw [hh1.sync]
  · rw [if_neg hb] at h
    exact absurd h.fault (fail_fault_ne _ _)

theorem building_of_attempt {α : Type} {nothing : α} {step : Builder → Builder × Except Fault α}
    (h : (b.attempt nothing step).1.fault = none) : b.state = .building := by
  refine Classical.byContradiction fun hst => ?_
  unfold attempt at h
  rw [if_neg hst] at h
  exact fail_fault_ne b _ h

theorem attempt_eq {b' : Builder} (hst : b.state = .building) (hb : b.Healthy) {α : Type}
    {a r : α} {step : Builder → Builder × Except Fault α} (hs : step b = (b', .ok r))
    (hb' : b'.Healthy) : b.attempt a step = (b', r) := by
  have hf := hb.fault
  have hf' := hb'.fault
  unfold attempt
  rw [if_pos hst, hb.sync]
  simp only [hf, hs, hb'.sync, hf']

theorem param_sound {i : Nat} (h : (b.param i).1.Healthy) :
    b.Healthy ∧ ∃ v, b.params[i]? = some v ∧ b.param i = (b, v) := by
  obtain ⟨hb, b', r, hs, -, e⟩ := attempt_sound h
  refine ⟨hb, ?_⟩
  have hi : ¬ ((i : Int) < 0) := by omega
  simp only [hi, if_false, Int.toNat_natCast] at hs
  split at hs
  · rename_i v hv
    cases hs
    exact ⟨_, hv, e⟩
  · cases hs

theorem column_sound {i : Int} (h : (b.column i).1.Healthy) :
    b.Healthy ∧ ∃ v, b.columns.lookup i = some v ∧ b.column i = (b, v) := by
  obtain ⟨hb, b', r, hs, -, e⟩ := attempt_sound h
  refine ⟨hb, ?_⟩
  split at hs
  · rename_i v hv
    cases hs
    exact ⟨_, hv, e⟩
  · cases hs

end Emit.Builder

namespace SSA.Body

theorem writes_import (b : Body) {cur : Nat} (h : b.current = some cur) (e : Import) :
    b.Writes { b with fn := { b.fn with imports := b.fn.imports.push e } } [] := by
  refine ⟨rfl, ⟨cur, h, (writeAt_nil _ _).symm⟩, rfl, rfl, List.prefix_rfl, ?_⟩
  rw [Array.toList_push]
  exact List.prefix_append _ _

end SSA.Body

namespace SSA.Draft
variable {d : Draft}

theorem importFn_sound {name : String} {sig : Signature}
    (h : (d.importFn name sig).1.fault = none) :
    d.fault = none ∧ sig.isValid = true ∧ d.importFn name sig =
      ({ d with body := { d.body with fn :=
          { d.body.fn with imports := d.body.fn.imports.push ⟨name, sig⟩ } } },
        (d.body.fn.imports.size : Int)) := by
  obtain ⟨hf, -, b, r, he, e⟩ := attempt_sound h
  refine ⟨hf, ?_⟩
  obtain ⟨_, -, he⟩ := bind_eq_ok.mp he
  split at he
  · cases he
  · rename_i hs
    cases he
    exact ⟨(Signature.check_eq_ok_iff sig).mp hs, e⟩

theorem callImport_sound (hS : d.Holds Body.Sound) {name : String} {sig : Signature}
    {args : List Int} {d1 d2 : Draft} {ref : Int} {rs : List Int}
    (h1 : d.importFn name sig = (d1, ref)) (h2 : d1.call ref args = (d2, rs))
    (h : d2.fault = none) :
    d.fault = none ∧ d2.Holds Body.Sound ∧ ∃ vs : List ValueNo, args = vs.map Int.ofNat ∧
      d.body.fn.HasTypes vs sig.params ∧
      rs = (List.range' d.body.fn.values.size sig.returns.length).map Int.ofNat ∧
      d.body.Writes d2.body [⟨.call d.body.fn.imports.size vs,
        List.range' d.body.fn.values.size sig.returns.length⟩] ∧
      d2.body.fn.imports = d.body.fn.imports.push ⟨name, sig⟩ ∧
      d2.body.fn.values.toList = d.body.fn.values.toList ++ sig.returns := by
  have hS1 : d1.Holds Body.Sound := by
    have hs := sound_importFn hS name sig
    rwa [h1] at hs
  have hc : (d1.call ref args).1.fault = none := by rw [h2]; exact h
  have hS2 : d2.Holds Body.Sound := by
    have hs := sound_call hS1 ref args
    rwa [h2] at hs
  obtain ⟨n, vs, ext, rfl, ea, he, hem, hr⟩ := call_emits hS1 hc
  rw [h2] at hem hr
  have hi : (d.importFn name sig).1.fault = none := by rw [h1]; exact hem.healthy
  obtain ⟨hf, -, e⟩ := importFn_sound hi
  obtain ⟨rfl, en⟩ := Prod.mk.inj (h1.symm.trans e)
  obtain rfl : n = d.body.fn.imports.size := Int.ofNat.inj en
  obtain rfl : ext = ⟨name, sig⟩ := by simpa using he.symm
  obtain ⟨ext', he', ht, -⟩ := hem.appends.typed
  obtain rfl : ext' = ⟨name, sig⟩ := by simpa using he'.symm
  obtain ⟨cur, -, hcur, -, -, -⟩ := hem.appends.result
  have hw := (Body.writes_import d.body hcur ⟨name, sig⟩).trans hem.appends.writes
  exact ⟨hf, hS2, vs, ea, ht, hr, hw, hem.appends.imports, hem.appends.values⟩

end SSA.Draft

def Host.Catalog.HoldsBuiltins [Host.Platform] (c : Host.Catalog) : Prop :=
  ∀ b : Host.Builtin, c.find? b.name = some ⟨b.name, b.sig, Host.hostConv, .native (.builtin b)⟩

namespace Emit.Builder
variable {b : Builder}

/-- **A call** of the operation that the catalog names: an import with its signature, and a step whose
one result is the answer -/
theorem call_emits {scope : Scope} {name : String} {args : List Int}
    (hS : b.draft.Holds Body.Sound) (h : (b.call scope name args).1.Healthy) :
    b.Healthy ∧ ∃ (op : Host.Operation) (vs : List ValueNo) (t : Ty) (d' : Draft),
      scope.catalog.resolve name = .ok op ∧ scope.module.symbol? name ≠ none ∧
      op.sig.returns = [t] ∧ args = vs.map Int.ofNat ∧
      b.call scope name args = ({ b with draft := d' }, (b.draft.body.fn.values.size : Int)) ∧
      b.draft.body.Writes d'.body
        [⟨.call b.draft.body.fn.imports.size vs, [b.draft.body.fn.values.size]⟩] ∧
      d'.Holds Body.Sound ∧
      d'.body.fn.imports = b.draft.body.fn.imports.push ⟨op.name, op.sig⟩ ∧
      b.draft.body.fn.HasTypes vs op.sig.params ∧
      d'.body.fn.values.toList = b.draft.body.fn.values.toList ++ [t] := by
  obtain ⟨hb, b', r, hs, hb', e⟩ := attempt_sound h
  refine ⟨hb, ?_⟩
  split at hs
  · cases hs
  · rename_i op hop
    split at hs
    · cases hs
    · rename_i hsym
      split at hs
      · cases hs
      · rename_i hlen
        obtain ⟨t, ht⟩ := List.length_eq_one_iff.mp (Classical.not_not.mp hlen)
        cases h1 : b.draft.importFn op.name op.sig with
        | mk d1 ref =>
          cases h2 : d1.call ref args with
          | mk d2 rs =>
            simp only [h1, h2] at hs
            obtain ⟨rfl, hr⟩ := Prod.mk.inj hs
            obtain ⟨-, hS2, vs, ea, hty, hrs, hw, hi, hv⟩ :=
              Draft.callImport_sound hS h1 h2 hb'.draft
            rw [ht] at hw hrs hv
            refine ⟨op, vs, t, d2, hop, fun hn => hsym (by rw [hn]; rfl), ht, ea, ?_, hw, hS2, hi,
              hty, hv⟩
            rw [hrs] at hr
            cases hr
            exact e

theorem call_sound [Host.Platform] {scope : Scope} (hc : scope.catalog.HoldsBuiltins)
    (hS : b.draft.Holds Body.Sound) {f : Host.Builtin} {x y : Int}
    (h : (b.call scope f.name [x, y]).1.Healthy) :
    b.Healthy ∧ ∃ (v u : ValueNo) (t : Ty) (d' : Draft), x = v ∧ y = u ∧ f.sig.returns = [t] ∧
      b.call scope f.name [x, y] = ({ b with draft := d' }, (b.draft.body.fn.values.size : Int)) ∧
      b.draft.body.Writes d'.body
        [⟨.call b.draft.body.fn.imports.size [v, u], [b.draft.body.fn.values.size]⟩] ∧
      d'.Holds Body.Sound ∧
      d'.body.fn.imports = b.draft.body.fn.imports.push ⟨f.name, f.sig⟩ ∧
      b.draft.body.fn.HasTypes [v, u] f.sig.params ∧
      d'.body.fn.values[b.draft.body.fn.values.size]? = some t := by
  obtain ⟨hb, op, vs, t, d', hop, -, ht, ea, e, hw, hS', hi, hty, hv⟩ := call_emits hS h
  obtain rfl : op = ⟨f.name, f.sig, Host.hostConv, .native (.builtin f)⟩ := by
    rw [Host.Catalog.resolve, hc f] at hop
    exact (Except.ok.inj hop).symm
  obtain ⟨v, u, rfl, rfl, rfl⟩ : ∃ v u : ValueNo, vs = [v, u] ∧ x = v ∧ y = u := by
    match vs, ea with
    | [v, u], ea =>
      obtain ⟨h3, h4⟩ : x = v ∧ y = u := by simpa using ea
      exact ⟨v, u, rfl, h3, h4⟩
  refine ⟨hb, v, u, t, d', rfl, rfl, ht, e, hw, hS', hi, hty, ?_⟩
  rw [← Array.getElem?_toList, hv, List.getElem?_append_right (by simp)]
  simp

end Emit.Builder

end TreeJit
