import TreeJit.Proofs.Emit.Builder
import TreeJit.Proofs.SSA.WellFormed

/-!
# Shapes of functions under construction

`Body.shape` is what code looks like from outside: parameters and steps of every block, the types of
the values, imports, slots and the current block.  Each lemma here says how an operation that
succeeded changed the shape, so that the shape of a whole function is computed from its
construction.

* `Builder.new_sound`         the function a builder starts with;
* `Builder.finalize_sound`    the function it hands out.
-/

namespace TreeJit

open SSA

namespace SSA

structure Shape where
  code : List (List ValueNo × List Step)
  values : List Ty
  imports : List Import
  slots : List Slot
  sig : Signature
  current : Option Nat

def Body.shape (b : Body) : Shape :=
  { code := b.fn.code, values := b.fn.values.toList, imports := b.fn.imports.toList,
    slots := b.fn.slots.toList, sig := b.fn.sig, current := b.current }

namespace Body
variable {b b' : Body}

theorem shape_values_length (b : Body) : b.shape.values.length = b.fn.values.size := by
  simp [shape]

theorem Appends.shape {i : Inst} {ts : List Ty} (h : b.Appends i ts b') {cur : Nat}
    (hc : b.current = some cur) :
    b'.shape = { b.shape with
      code := writeAt cur [⟨i, List.range' b.fn.values.size ts.length⟩] b.shape.code
      values := b.shape.values ++ ts } := by
  obtain ⟨cur', blk, hc', hb, ho, rfl⟩ := h.result
  obtain rfl : cur' = cur := Option.some.inj (hc'.symm.trans hc)
  have hcode := code_append b cur' i ts
  have hv := values_append b cur' i ts
  obtain ⟨bs, e⟩ := append_eq b cur' i ts
  unfold Body.shape
  rw [hcode, hv, e]

theorem code_mapBlock (b : Body) (n : Nat) (f : Block → Block)
    (g : List ValueNo × List Step → List ValueNo × List Step)
    (h : ∀ blk : Block, ((f blk).params.toList, (f blk).steps.toList) =
      g (blk.params.toList, blk.steps.toList)) :
    (b.mapBlock n f).fn.code = b.fn.code.modify n g := by
  refine List.ext_getElem? fun k => ?_
  rw [Func.code, Func.code, List.getElem?_map, List.getElem?_modify, List.getElem?_map,
    Array.getElem?_toList, Array.getElem?_toList]
  show ((b.fn.blocks.modify n f)[k]?).map _ = _
  rw [Array.getElem?_modify]
  cases b.fn.blocks[k]? with
  | none => simp
  | some blk =>
    by_cases e : n = k
    · simp [e, h]
    · simp [e]

theorem Writes.shape_code {ss : List Step} (h : b.Writes b' ss) {cur : Nat}
    (hc : b.current = some cur) : b'.shape.code = writeAt cur ss b.shape.code := by
  obtain ⟨cur', hc', e⟩ := h.known
  obtain rfl : cur' = cur := Option.some.inj (hc'.symm.trans hc)
  exact e

end Body

namespace Draft
variable {d : Draft}

theorem createBlock_sound (h : d.createBlock.1.fault = none) :
    d.fault = none ∧ d.createBlock.2 = d.body.fn.blocks.size ∧
      d.createBlock.1.body.shape =
        { d.body.shape with code := d.body.shape.code ++ [([], [])] } := by
  obtain ⟨hf, -, b, r, he, e⟩ := attempt_sound h
  cases he
  rw [show d.createBlock = _ from e]
  refine ⟨hf, rfl, ?_⟩
  simp [Body.shape, Func.code]

theorem switchTo_sound {n : Int} (h : (d.switchTo n).1.fault = none) :
    d.fault = none ∧ 0 ≤ n ∧
      (d.switchTo n).1.body.shape = { d.body.shape with current := some n.toNat } := by
  obtain ⟨hf, -, b, r, he, e⟩ := attempt_sound h
  obtain ⟨m, hm, he⟩ := bind_eq_ok.mp he
  cases he
  obtain ⟨-, rfl⟩ := Body.blockNo_ok hm
  rw [show d.switchTo m = _ from e]
  exact ⟨hf, by omega, rfl⟩

theorem sealBlock_sound {n : Int} (h : (d.sealBlock n).1.fault = none) :
    d.fault = none ∧ (d.sealBlock n).1.body.shape = d.body.shape := by
  obtain ⟨hf, -, b, r, he, e⟩ := attempt_sound h
  obtain ⟨m, hm, he⟩ := bind_eq_ok.mp he
  cases he
  rw [show d.sealBlock n = _ from e]
  refine ⟨hf, ?_⟩
  have hcode : (d.body.mapBlock m fun blk => { blk with sealed := true }).fn.code =
      d.body.fn.code := by
    refine (Body.code_mapBlock d.body m _ id ?_).trans (List.modify_id _ _)
    exact fun _ => rfl
  unfold Body.shape
  rw [hcode]
  rfl

theorem sealAll_sound (h : d.sealAll.1.fault = none) :
    d.fault = none ∧ d.sealAll.1.body.shape = d.body.shape := by
  obtain ⟨hf, -, b, r, he, e⟩ := attempt_sound h
  cases he
  rw [show d.sealAll = _ from e]
  refine ⟨hf, ?_⟩
  simp [Body.shape, Func.code]

def paramsAt (n : Nat) (vs : List ValueNo) (code : List (List ValueNo × List Step)) :
    List (List ValueNo × List Step) :=
  code.modify n fun p => (p.1 ++ vs, p.2)

theorem appendParam_sound {n : Nat} {t : Ty} (h : (d.appendParam n t).1.fault = none) :
    d.fault = none ∧ (d.appendParam n t).2 = d.body.fn.values.size ∧
      (d.appendParam n t).1.body.shape = { d.body.shape with
        code := paramsAt n [d.body.fn.values.size] d.body.shape.code
        values := d.body.shape.values ++ [t] } := by
  obtain ⟨hf, -, b, r, he, e⟩ := attempt_sound h
  obtain ⟨m, hm, he⟩ := bind_eq_ok.mp he
  obtain ⟨_, -, he⟩ := bind_eq_ok.mp he
  obtain ⟨_, -, he⟩ := bind_eq_ok.mp he
  cases he
  obtain ⟨-, em⟩ := Body.blockNo_ok hm
  obtain rfl : n = m := Int.ofNat.inj em
  rw [show d.appendParam n t = _ from e]
  refine ⟨hf, rfl, ?_⟩
  have hcode : (d.body.addParam n t).fn.code =
      paramsAt n [d.body.fn.values.size] d.body.fn.code :=
    Body.code_mapBlock (d.body.newValues [t]).1 n _ _ fun _ => by rw [Array.toList_push]
  have hv : (d.body.addParam n t).fn.values.toList = d.body.fn.values.toList ++ [t] :=
    Array.toList_appendList ..
  show (d.body.addParam n t).shape = _
  unfold Body.shape
  rw [hcode, hv]
  rfl

theorem paramsAt_nil (n : Nat) (code : List (List ValueNo × List Step)) :
    paramsAt n [] code = code := by
  unfold paramsAt
  simp only [List.append_nil]
  exact List.modify_id _ _

theorem paramsAt_paramsAt (n : Nat) (vs ws : List ValueNo)
    (code : List (List ValueNo × List Step)) :
    paramsAt n ws (paramsAt n vs code) = paramsAt n (vs ++ ws) code := by
  unfold paramsAt
  rw [List.modify_modify_eq]
  congr 1
  funext p
  simp

theorem healthy_of_appendParams {n : Int} {ts : List Ty}
    (h : (d.appendParams n ts).1.fault = none) : d.fault = none := by
  induction ts generalizing d with
  | nil => exact h
  | cons t ts ih =>
    have h1 : (d.appendParam n t).1.fault = none := ih h
    exact (attempt_sound h1).1

theorem appendParams_sound {n : Nat} {ts : List Ty} (h : (d.appendParams n ts).1.fault = none) :
    d.fault = none ∧ (d.appendParams n ts).2 =
        (List.range' d.body.fn.values.size ts.length).map Int.ofNat ∧
      (d.appendParams n ts).1.body.shape = { d.body.shape with
        code := paramsAt n (List.range' d.body.fn.values.size ts.length) d.body.shape.code
        values := d.body.shape.values ++ ts } := by
  induction ts generalizing d with
  | nil =>
    refine ⟨h, rfl, ?_⟩
    show d.body.shape = _
    simp only [List.length_nil, List.range'_zero, paramsAt_nil, List.append_nil]
  | cons t ts ih =>
    cases h1 : d.appendParam n t with
    | mk d1 v =>
      cases h2 : d1.appendParams n ts with
      | mk d2 vs =>
        have e : d.appendParams n (t :: ts) = (d2, v :: vs) := by
          rw [appendParams, h1]
          simp only [h2]
        rw [e] at h ⊢
        obtain ⟨hf1, hr2, hs2⟩ := ih (d := d1) (by rw [h2]; exact h)
        obtain ⟨hf, hr1, hs1⟩ := appendParam_sound (d := d) (n := n) (t := t) (by rw [h1]; exact hf1)
        rw [h2] at hr2 hs2
        rw [h1] at hr1 hs1
        simp only at hr1 hs1 hr2 hs2
        have hsz : d1.body.fn.values.size = d.body.fn.values.size + 1 := by
          rw [← Body.shape_values_length, ← Body.shape_values_length, hs1]
          simp
        refine ⟨hf, ?_, ?_⟩
        · show v :: vs = _
          rw [hr1, hr2, hsz, List.length_cons, List.range'_succ, List.map_cons]
          rfl
        · rw [hs2, hs1]
          simp only [hsz, List.length_cons, List.range'_succ, paramsAt_paramsAt,
            List.append_assoc, List.singleton_append]

theorem length_appendParams (n : Int) (ts : List Ty) : (d.appendParams n ts).2.length = ts.length := by
  induction ts generalizing d with
  | nil => rfl
  | cons t ts ih => exact congrArg (· + 1) ih

theorem appendParams_append (n : Int) (ts us : List Ty) :
    d.appendParams n (ts ++ us) = (((d.appendParams n ts).1.appendParams n us).1,
      (d.appendParams n ts).2 ++ ((d.appendParams n ts).1.appendParams n us).2) := by
  induction ts generalizing d with
  | nil => rfl
  | cons t ts ih =>
    show (((d.appendParam n t).1.appendParams n (ts ++ us)).1,
      (d.appendParam n t).2 :: ((d.appendParam n t).1.appendParams n (ts ++ us)).2) = _
    rw [ih]
    rfl

end Draft

end SSA

namespace Emit.Builder
variable {b : Builder}

def startShape (sig : Signature) : Shape :=
  { code := [(List.range sig.params.length, [])], values := sig.params, imports := [], slots := [],
    sig, current := some 0 }

theorem new_sound {id : Nat} {name : String} {sig : Signature} (h : (new id name sig).Healthy) :
    (new id name sig).draft.body.shape = startShape sig ∧
      (new id name sig).draft.Holds Body.Sound ∧
      (new id name sig).params = (List.range sig.params.length).map Int.ofNat := by
  have hS0 : (Draft.new name sig).Holds Body.Sound := fun hf => (Draft.holds_new name sig hf).1
  have hS1 := Draft.sound_createBlock hS0
  cases h1 : (Draft.new name sig).createBlock with
  | mk d1 e1 =>
    cases h2 : d1.appendFunctionParams e1 with
    | mk d2 ps =>
      have hnew : new id name sig =
          { id, name, draft := ((d2.switchTo e1).1.sealBlock e1).1, params := ps } := by
        simp only [new, h1, h2]
      rw [hnew] at h ⊢
      rw [h1] at hS1
      have hd : (((d2.switchTo e1).1).sealBlock e1).1.fault = none := h.draft
      obtain ⟨hf3, hs4⟩ := Draft.sealBlock_sound hd
      obtain ⟨hf2, -, hs3⟩ := Draft.switchTo_sound hf3
      -- the entry block has number 0
      have hp : (d1.appendParams e1 d1.body.fn.sig.params) = (d2, ps) := h2
      have hf1 : d1.fault = none := by
        have hf : (d1.appendParams e1 d1.body.fn.sig.params).1.fault = none := by
          rw [hp]
          exact hf2
        exact Draft.healthy_of_appendParams hf
      obtain ⟨-, hr1, hs1⟩ := Draft.createBlock_sound (d := Draft.new name sig) (by rw [h1]; exact hf1)
      rw [h1] at hr1 hs1
      have he : e1 = (0 : Nat) := hr1
      subst he
      have hsig : d1.body.fn.sig = sig := congrArg Shape.sig hs1
      have hsz : d1.body.fn.values.size = 0 := by
        rw [← Body.shape_values_length]
        exact congrArg (fun x : Shape => x.values.length) hs1
      rw [hsig] at hp
      have hfp : (d1.appendParams (0 : Nat) sig.params).1.fault = none := by
        rw [hp]
        exact hf2
      obtain ⟨-, hr2, hs2⟩ := Draft.appendParams_sound hfp
      rw [hp, hsz] at hr2 hs2
      refine ⟨?_, ?_, ?_⟩
      · show (((d2.switchTo _).1).sealBlock _).1.body.shape = _
        rw [hs4, hs3, hs2, hs1]
        simp [startShape, Draft.new, Body.shape, Func.code, Draft.paramsAt, List.range_eq_range']
      · have hS2 := Draft.sound_appendParams hS1 (0 : Nat) sig.params
        rw [hp] at hS2
        exact Draft.sound_sealBlock (Draft.sound_switchTo hS2 _) _
      · rw [List.range_eq_range']
        exact hr2

theorem healthy_of_finalize {results : List Int} {b' : Builder} {f : Func}
    (h : b.finalize results = (b', .ok f)) : b.Healthy := by
  unfold finalize at h
  split at h
  · simp only at h
    split at h
    · cases h
    · rename_i hs
      have h0 := healthy_of_sync hs
      exact ⟨h0.fault, h0.draft⟩
  · cases h

/-- the function a builder hands out: what it had, and a return at its end -/
theorem finalize_sound {results : List Int} {b' : Builder} {f : Func}
    (hS : b.draft.Holds Body.Sound) (h : b.finalize results = (b', .ok f)) :
    b.state = .building ∧ b'.fault = none ∧ b'.id = b.id ∧ f.WellFormed ∧
      ∃ vs : List ValueNo, results = vs.map Int.ofNat ∧ ∃ cur, b.draft.body.current = some cur ∧
        f.code = writeAt cur [⟨.ret vs, []⟩] b.draft.body.shape.code ∧
        f.values.toList = b.draft.body.shape.values ∧
        f.imports.toList = b.draft.body.shape.imports ∧
        f.slots.toList = b.draft.body.shape.slots ∧ f.sig = b.draft.body.shape.sig := by
  have hb := healthy_of_finalize h
  unfold finalize at h
  split at h
  · rename_i hst
    simp only at h
    split at h
    · cases h
    · rename_i hf
      have hb0 := healthy_of_sync hf
      have hsy : ({ b with state := .finalized } : Builder).sync = { b with state := .finalized } :=
        hb0.sync
      rw [hsy] at h
      cases h1 : b.draft.ret results with
      | mk d1 u1 =>
        cases h2 : d1.sealAll with
        | mk d2 u2 =>
          simp only [h1, h2] at h
          split at h
          · rename_i d3 fn h3
            cases h
            have hfin : d2.finish.2 = .ok f := by rw [h3]
            obtain ⟨hf2, rfl, hv⟩ := Draft.finish_ok hfin
            obtain ⟨hf1, hs2⟩ := Draft.sealAll_sound (d := d1) (by rw [h2]; exact hf2)
            rw [h2] at hs2
            have hret : (b.draft.ret results).1.fault = none := by
              rw [h1]
              exact hf1
            obtain ⟨vs, hvs, hem⟩ := Draft.ret_emits hS hret
            rw [h1] at hem
            obtain ⟨cur, -, hc, -, -, -⟩ := hem.appends.result
            have hs1 := hem.appends.shape hc
            have hS1 : d1.Holds Body.Sound := by
              have hs := Draft.sound_ret hS results
              rwa [h1] at hs
            have hS2 : d2.Holds Body.Sound := by
              have hs := Draft.sound_sealAll hS1
              rwa [h2] at hs
            refine ⟨hst, hb.fault, rfl, (hS2 hf2).wellFormed hv, vs, hvs, cur, hc, ?_⟩
            have hs : d2.body.shape = _ := hs2.trans hs1
            refine ⟨congrArg Shape.code hs, ?_, congrArg Shape.imports hs, congrArg Shape.slots hs,
              congrArg Shape.sig hs⟩
            have hvals := congrArg Shape.values hs
            rwa [List.append_nil] at hvals
          · cases h
  · cases h

end Emit.Builder

end TreeJit
