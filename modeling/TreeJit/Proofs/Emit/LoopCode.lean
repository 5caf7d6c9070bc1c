import TreeJit.Emit.Loop
import TreeJit.Proofs.Emit.Writing

/-!
# The code of vector loops

What `Builder.enterLoop` and `Builder.leaveLoop` write around a body.

* `LoopLayout`          the numbers of the blocks and values of a loop;
* `loopBlocks_sound`    its blocks and their parameters;
* `openLoop_sound`, `closeLoop_sound`   the steps before and after the body.
-/

namespace TreeJit

open SSA

namespace Emit

theorem splats_eq (d : Draft) (vs : List Int) :
    splats d vs = d.each (fun d v => d.splat .f64x2 v) vs := by
  induction vs generalizing d with
  | nil => rfl
  | cons v vs ih => simp only [splats, Draft.each, ih]

theorem loadPairs_eq (d : Draft) (ps : List Int) :
    loadPairs d ps = d.each (fun d p => d.load .f64x2 p 0) ps := by
  induction ps generalizing d with
  | nil => rfl
  | cons p ps ih => simp only [loadPairs, Draft.each, ih]

theorem advance_eq (d : Draft) (k : Int) (ps : List Int) :
    advance d k ps = d.each (fun d p => d.binary .iadd p k) ps := by
  induction ps generalizing d with
  | nil => rfl
  | cons p ps ih => simp only [advance, Draft.each, ih]

/-! ## layout -/

/-- the numbers of the blocks and values of a loop -/
structure LoopLayout where
  /-- the block before the loop -/
  entry : Nat
  /-- the loop block; the next one is behind the loop -/
  head : Nat
  /-- the first broadcast -/
  base : Nat
  arrays : List ValueNo
  scalars : List ValueNo
  result : ValueNo
  count : ValueNo

namespace LoopLayout
variable (L : LoopLayout)

def lanes : List ValueNo := List.range' L.base L.scalars.length

def first : Nat := L.base + L.scalars.length

/-! the parameters of the loop block -/

def pointers : List ValueNo := List.range' L.first L.arrays.length

def target : Nat := L.first + L.arrays.length

def spread : List ValueNo := List.range' (L.target + 1) L.scalars.length

theorem length_pointers : L.pointers.length = L.arrays.length := List.length_range'

theorem length_spread : L.spread.length = L.scalars.length := List.length_range'

def index : Nat := L.target + 1 + L.scalars.length

def bound : Nat := L.index + 1

def params : List ValueNo := L.pointers ++ [L.target] ++ L.spread ++ [L.index, L.bound]

def zero : Nat := L.bound + 1

def next : Nat := L.zero + 2

def frame (saved : List (Int × Int)) : LoopFrame where
  block := L.head
  exit := (L.head + 1 : Nat)
  pointers := L.pointers.map Int.ofNat
  result := L.target
  scalars := L.spread.map Int.ofNat
  index := L.index
  bound := L.bound
  saved := saved

def openSteps : List Step :=
  eachStep (.splat .f64x2) L.base L.scalars ++
    [⟨.iconst .i64 0, [L.zero]⟩, ⟨.icmp .eq .i64 L.count L.zero, [L.zero + 1]⟩]

def enter : Step :=
  ⟨.brif .i8 (L.zero + 1) ⟨L.head + 1, []⟩
    ⟨L.head, L.arrays ++ [L.result] ++ L.lanes ++ [L.zero, L.count]⟩, []⟩

def loadSteps : List Step := eachStep (fun n => .load .f64x2 n 0) L.next L.pointers

/-- the result pointer of the next round, if the first new value after the body is `k` -/
def moved (k : Nat) : Nat := k + 1 + L.arrays.length

def closeSteps (t : Ty) (out : ValueNo) (k : Nat) : List Step :=
  [⟨.store t out L.target 0, []⟩, ⟨.iconst .i64 16, [k]⟩] ++
    eachStep (fun n => .binary .iadd .i64 n k) (k + 1) L.pointers ++
    [⟨.binary .iadd .i64 L.target k, [L.moved k]⟩, ⟨.iconst .i64 2, [L.moved k + 1]⟩,
      ⟨.binary .iadd .i64 L.index (L.moved k + 1), [L.moved k + 2]⟩,
      ⟨.icmp .ult .i64 (L.moved k + 2) L.bound, [L.moved k + 3]⟩]

def again (k : Nat) : Step :=
  ⟨.brif .i8 (L.moved k + 3)
    ⟨L.head, List.range' (k + 1) L.arrays.length ++ [L.moved k] ++ L.spread ++
      [L.moved k + 2, L.bound]⟩ ⟨L.head + 1, []⟩, []⟩

def paramTypes : List Ty :=
  List.replicate L.arrays.length .pointer ++ [.pointer] ++
    List.replicate L.scalars.length .f64x2 ++ [.i64, .i64]

theorem length_paramTypes : L.paramTypes.length = L.arrays.length + L.scalars.length + 3 := by
  simp [paramTypes]
  omega

theorem params_eq : L.params = List.range' L.first (L.arrays.length + 1 + L.scalars.length + 2) := by
  have h1 : List.range' L.first (L.arrays.length + 1) = L.pointers ++ [L.target] :=
    List.range'_append_1.symm
  have h2 : List.range' L.first (L.arrays.length + 1 + L.scalars.length) =
      L.pointers ++ [L.target] ++ L.spread := by
    rw [← List.range'_append_1, h1]
    rfl
  have h3 : L.first + (L.arrays.length + 1 + L.scalars.length) = L.index := by
    unfold index target
    omega
  rw [← List.range'_append_1, h2, h3]
  rfl

end LoopLayout

/-! ## before the body -/

def loopTypes (arrays scalars : Nat) : List Ty :=
  List.replicate arrays .pointer ++ [.pointer] ++ List.replicate scalars .f64x2 ++ [.i64, .i64]

/-- the loop block with its parameters, and the block behind it -/
def loopBlocks (d : Draft) (arrays scalars : Nat) : Draft × List Int × Int × List Int × Int × Int :=
  let (d, block) := d.createBlock
  let (d, _) := d.createBlock
  let (d, pointers) := d.appendParams block (List.replicate arrays .pointer)
  let (d, result) := d.appendParam block .pointer
  let (d, spread) := d.appendParams block (List.replicate scalars .f64x2)
  let (d, index) := d.appendParam block .i64
  let (d, bound) := d.appendParam block .i64
  (d, pointers, result, spread, index, bound)

theorem loopBlocks_params (d : Draft) (arrays scalars : Nat) :
    ∃ (d' : Draft) (pointers spread : List Int) (result index bound : Int),
      loopBlocks d arrays scalars = (d', pointers, result, spread, index, bound) ∧
      d.createBlock.1.createBlock.1.appendParams d.createBlock.2 (loopTypes arrays scalars) =
        (d', pointers ++ [result] ++ spread ++ [index, bound]) ∧
      pointers.length = arrays ∧ spread.length = scalars := by
  refine ⟨_, _, _, _, _, _, rfl, ?_, ?_, ?_⟩
  · simp only [loopTypes, Draft.appendParams_append]
    rfl
  · exact (Draft.length_appendParams ..).trans List.length_replicate
  · exact (Draft.length_appendParams ..).trans List.length_replicate

theorem sound_loopBlocks {d : Draft} (hS : d.Holds Body.Sound) (arrays scalars : Nat) :
    (loopBlocks d arrays scalars).1.Holds Body.Sound := by
  obtain ⟨d', pointers, spread, result, index, bound, e, ha, -⟩ := loopBlocks_params d arrays scalars
  have hs := Draft.sound_appendParams (Draft.sound_createBlock (Draft.sound_createBlock hS))
    d.createBlock.2 (loopTypes arrays scalars)
  rw [ha] at hs
  rwa [e]

theorem healthy_of_loopBlocks {d : Draft} {arrays scalars : Nat}
    (h : (loopBlocks d arrays scalars).1.fault = none) : d.fault = none := by
  obtain ⟨d', pointers, spread, result, index, bound, e, ha, -⟩ := loopBlocks_params d arrays scalars
  rw [e] at h
  have h2 : d.createBlock.1.createBlock.1.fault = none :=
    Draft.healthy_of_appendParams (by rw [ha]; exact h)
  exact (Draft.createBlock_sound (Draft.createBlock_sound h2).1).1

theorem groups_inj {ps qs ss ts : List Int} {r u i j b c : Int}
    (h : ps ++ [r] ++ ss ++ [i, b] = qs ++ [u] ++ ts ++ [j, c]) (hp : ps.length = qs.length)
    (hs : ss.length = ts.length) : ps = qs ∧ r = u ∧ ss = ts ∧ i = j ∧ b = c := by
  obtain ⟨h1, h2⟩ := List.append_inj h (by simp [hp, hs])
  obtain ⟨h3, rfl⟩ := List.append_inj h1 (by simp [hp])
  obtain ⟨rfl, h4⟩ := List.append_inj h3 hp
  cases h2
  cases h4
  exact ⟨rfl, rfl, rfl, rfl, rfl⟩

theorem loopBlocks_sound {d : Draft} (L : LoopLayout)
    (hb : L.first = d.body.fn.values.size) (hh : L.head = d.body.fn.blocks.size)
    (h : (loopBlocks d L.arrays.length L.scalars.length).1.fault = none) :
    d.createBlock.2 = L.head ∧ d.createBlock.1.createBlock.2 = (L.head + 1 : Nat) ∧ ∃ d' : Draft,
      loopBlocks d L.arrays.length L.scalars.length = (d', L.pointers.map Int.ofNat,
        (L.target : Int), L.spread.map Int.ofNat, (L.index : Int), (L.bound : Int)) ∧
      d'.body.shape = { d.body.shape with
        code := d.body.shape.code ++ [(L.params, []), ([], [])]
        values := d.body.shape.values ++ L.paramTypes } := by
  obtain ⟨d', pointers, spread, result, index, bound, e, ha, hp, hs⟩ :=
    loopBlocks_params d L.arrays.length L.scalars.length
  rw [e] at h ⊢
  cases h1 : d.createBlock with
  | mk d1 block =>
  cases h2 : d1.createBlock with
  | mk d2 exit =>
    simp only [h1, h2] at ha ⊢
    -- no operation failed, the last one first
    have hf3 : (d2.appendParams block L.paramTypes).1.fault = none := by
      rw [show d2.appendParams block L.paramTypes = _ from ha]
      exact h
    have hf2 : d1.createBlock.1.fault = none := by
      rw [h2]
      exact Draft.healthy_of_appendParams hf3
    obtain ⟨hf1, hr2, hs2⟩ := Draft.createBlock_sound hf2
    obtain ⟨-, hr1, hs1⟩ := Draft.createBlock_sound (d := d) (by rw [h1]; exact hf1)
    rw [h1] at hr1 hs1
    rw [h2] at hr2 hs2
    obtain rfl : block = (L.head : Nat) := by rw [hh]; exact hr1
    have hexit : exit = (L.head + 1 : Nat) := by
      rw [show exit = _ from hr2, ← Body.shape_code_length, hs1, List.length_append,
        Body.shape_code_length, hh]
      rfl
    obtain ⟨-, hr3, hs3⟩ := Draft.appendParams_sound hf3
    rw [show d2.appendParams (L.head : Nat) L.paramTypes = _ from ha] at hr3 hs3
    -- the numbers of the parameters are those of the layout
    have hparams : List.range' d2.body.fn.values.size L.paramTypes.length = L.params := by
      have n2 : d2.body.fn.values.size = L.first := by
        rw [hb, ← Body.shape_values_length, ← Body.shape_values_length, hs2, hs1]
      rw [n2, L.params_eq, L.length_paramTypes]
      congr 1
      omega
    rw [hparams] at hr3 hs3
    have hgroups : pointers ++ [result] ++ spread ++ [index, bound] = L.pointers.map Int.ofNat ++
        [(L.target : Int)] ++ L.spread.map Int.ofNat ++ [(L.index : Int), (L.bound : Int)] := by
      rw [show pointers ++ [result] ++ spread ++ [index, bound] = _ from hr3]
      simp [LoopLayout.params]
    obtain ⟨rfl, rfl, rfl, rfl, rfl⟩ := groups_inj hgroups
      (by rw [hp, List.length_map, L.length_pointers])
      (by rw [hs, List.length_map, L.length_spread])
    refine ⟨rfl, hexit, d', rfl, ?_⟩
    have hlen : L.head = d.body.shape.code.length := by rw [hh, Body.shape_code_length]
    rw [hs3, hs2, hs1]
    simp only [hlen, List.append_assoc, List.cons_append, List.nil_append, Draft.paramsAt_length]

theorem openLoop_eq (d : Draft) (l : VectorLoop) (saved : List (Int × Int)) :
    openLoop d l saved =
      let (d, lanes) := splats d (l.scalars.map (·.value))
      let head := d.createBlock.2
      let exit := d.createBlock.1.createBlock.2
      let (d, pointers, result, scalars, index, bound) :=
        loopBlocks d l.arrays.length l.scalars.length
      let (d, zero) := d.iconst .i64 0
      let (d, empty) := d.icmp IntCond.eq.code l.count zero
      let (d, _) := d.brif empty exit []
        head (l.arrays.map (·.value) ++ [l.result] ++ lanes ++ [zero, l.count])
      (d, ⟨head, exit, pointers, result, scalars, index, bound, saved⟩) := by
  have ha : (l.arrays.map fun _ => Ty.pointer) = List.replicate l.arrays.length .pointer :=
    List.map_const'
  have hs : (l.scalars.map fun _ => Ty.f64x2) = List.replicate l.scalars.length .f64x2 :=
    List.map_const'
  simp only [openLoop, loopBlocks, ha, hs]

theorem ofNat_append_inj {as bs : List Int} {ns : List ValueNo} (h : as ++ bs = ns.map Int.ofNat) :
    ∃ xs ys : List ValueNo, as = xs.map Int.ofNat ∧ bs = ys.map Int.ofNat ∧ ns = xs ++ ys := by
  obtain ⟨xs, ys, rfl, h1, h2⟩ := List.map_eq_append_iff.mp h.symm
  exact ⟨xs, ys, h1.symm, h2.symm, rfl⟩

theorem ofNat_map_inj {xs ys : List ValueNo} (h : xs.map Int.ofNat = ys.map Int.ofNat) : xs = ys :=
  (List.map_inj_right fun _ _ => Int.ofNat.inj).mp h

theorem openLoop_operands {d d1 d2 d3 : Draft} (hS : d.Holds Body.Sound) {arrays lanes : List Int}
    {result count zero empty exit head : Int} {u : Unit} (h1 : d.iconst .i64 0 = (d1, zero))
    (h2 : d1.icmp IntCond.eq.code count zero = (d2, empty))
    (h3 : d2.brif empty exit [] head (arrays ++ [result] ++ lanes ++ [zero, count]) = (d3, u))
    (h : d3.fault = none) :
    ∃ (xs : List ValueNo) (r k : ValueNo), arrays = xs.map Int.ofNat ∧ result = r ∧ count = k := by
  have hS1 : d1.Holds Body.Sound := by
    have hs := Draft.sound_iconst hS .i64 0
    rwa [h1] at hs
  have hS2 : d2.Holds Body.Sound := by
    have hs := Draft.sound_icmp hS1 IntCond.eq.code count zero
    rwa [h2] at hs
  obtain ⟨_, _, _, _, -, -, -, -, hargs, -⟩ := Draft.brif_emits hS2 (by rw [h3]; exact h)
  obtain ⟨vs, ws, hvs, hws, -⟩ := ofNat_append_inj hargs
  obtain ⟨vs', -, hvs', -, -⟩ := ofNat_append_inj hvs
  obtain ⟨xs, rs, hxs, hrs, -⟩ := ofNat_append_inj hvs'
  obtain ⟨r, -, hr⟩ := List.mem_map.mp (hrs ▸ List.mem_singleton_self result)
  obtain ⟨k, -, hk⟩ := List.mem_map.mp
    (hws ▸ List.mem_cons_of_mem zero (List.mem_singleton_self count))
  exact ⟨xs, r, k, hxs, hr.symm, hk.symm⟩

theorem LoopLayout.enter_wrote (L : LoopLayout) {d d1 d2 d3 : Draft} {cur : Nat}
    (ha : d.Stands cur L.zero) {zero empty : Int} {u : Unit} (h1 : d.iconst .i64 0 = (d1, zero))
    (h2 : d1.icmp IntCond.eq.code L.count zero = (d2, empty))
    (h3 : d2.brif empty (L.head + 1 : Nat) [] L.head (L.arrays.map Int.ofNat ++ [(L.result : Int)] ++
      L.lanes.map Int.ofNat ++ [zero, (L.count : Int)]) = (d3, u)) (h : d3.fault = none) :
    d.Wrote d3 cur [⟨.iconst .i64 0, [L.zero]⟩, ⟨.icmp .eq .i64 L.count L.zero, [L.zero + 1]⟩,
      L.enter] [.i64, .i8] := by
  have hf2 := Draft.healthy_of_attempt h3 h
  have hf1 := Draft.healthy_of_attempt h2 hf2
  obtain ⟨rfl, w1⟩ := ha.iconst h1 hf1
  have ha1 : d1.Stands cur (L.zero + 1) := w1.stands ha
  obtain ⟨t, x, y, hx, hy, hty, rfl, w2⟩ := ha1.icmp h2 hf2
  obtain rfl := Int.ofNat.inj hx
  obtain rfl := Int.ofNat.inj hy
  obtain rfl : t = .i64 :=
    Option.some.inj ((Func.HasTypes.pair_iff.mp hty).2.symm.trans (w1.newer ha))
  obtain ⟨vs, ws, hvs, hws, w3⟩ := (w2.stands ha1).brif (L.head + 1) L.head (w2.newer ha1) h3 h
  obtain rfl : vs = [] := List.map_eq_nil_iff.mp hvs.symm
  obtain rfl : ws = L.arrays ++ [L.result] ++ L.lanes ++ [L.zero, L.count] := by
    refine ofNat_map_inj (hws.symm.trans ?_)
    simp
  exact w1.trans (w2.trans w3)

/-- **What is written before the body of a loop.** -/
theorem openLoop_sound {d : Draft} (hS : d.Holds Body.Sound) {cur : Nat}
    (hc : d.body.current = some cur) {l : VectorLoop} {saved : List (Int × Int)}
    (h : (openLoop d l saved).1.fault = none) :
    d.fault = none ∧ ∃ (L : LoopLayout) (d' : Draft), openLoop d l saved = (d', L.frame saved) ∧
      L.entry = cur ∧ L.head = d.body.fn.blocks.size ∧ L.base = d.body.fn.values.size ∧
      l.arrays.map (·.value) = L.arrays.map Int.ofNat ∧
      l.scalars.map (·.value) = L.scalars.map Int.ofNat ∧
      l.result = L.result ∧ l.count = L.count ∧ d'.Holds Body.Sound ∧
      d'.body.shape = { d.body.shape with
        code := writeAt cur (L.openSteps ++ [L.enter]) d.body.shape.code ++
          [(L.params, []), ([], [])]
        values := d.body.shape.values ++ List.replicate L.scalars.length .f64x2 ++
          L.paramTypes ++ [.i64, .i8] } := by
  rw [openLoop_eq, splats_eq] at h ⊢
  cases h1 : d.each (fun d v => d.splat .f64x2 v) (l.scalars.map (·.value)) with
  | mk d1 lanes =>
  cases h2 : loopBlocks d1 l.arrays.length l.scalars.length with
  | mk d2 rest =>
  obtain ⟨pointers, result, spread, index, bound⟩ := rest
  cases h3 : d2.iconst .i64 0 with
  | mk d3 zero =>
  cases h4 : d3.icmp IntCond.eq.code l.count zero with
  | mk d4 empty =>
  cases h5 : d4.brif empty d1.createBlock.1.createBlock.2 [] d1.createBlock.2
      (l.arrays.map (·.value) ++ [l.result] ++ lanes ++ [zero, l.count]) with
  | mk d5 u =>
    simp only [h1, h2, h3, h4, h5] at h ⊢
    -- no operation failed, the last one first
    have hf3 := Draft.healthy_of_attempt h4 (Draft.healthy_of_attempt h5 h)
    have hf2 := Draft.healthy_of_attempt h3 hf3
    have hf1 : d1.fault = none := healthy_of_loopBlocks (by rw [h2]; exact hf2)
    have hf : d.fault = none :=
      Draft.healthy_of_each Draft.writer_splat.healthy (by rw [h1]; exact hf1)
    -- the broadcasts
    have ha : d.Stands cur d.body.fn.values.size := ⟨hS, hc, rfl⟩
    obtain ⟨ns, hns, rfl, w1⟩ := Draft.writer_splat.each_wrote ha trivial h1 hf1
    have ha1 : d1.Stands cur (d.body.fn.values.size + ns.length) := by simpa using w1.stands ha
    have hblk : d1.body.fn.blocks.size = d.body.fn.blocks.size := by
      rw [← Body.shape_code_length, ← Body.shape_code_length, w1.shape, length_writeAt]
    -- the layout
    have hS2 : d2.Holds Body.Sound := by
      have hs := sound_loopBlocks w1.sound l.arrays.length l.scalars.length
      rwa [h2] at hs
    obtain ⟨xs, r, k, hxs, hr, hk⟩ := openLoop_operands hS2 h3 h4 h5 h
    let L : LoopLayout := ⟨cur, d.body.fn.blocks.size, d.body.fn.values.size, xs, ns, r, k⟩
    have hA : l.arrays.length = L.arrays.length := by simpa using congrArg List.length hxs
    have hN : l.scalars.length = L.scalars.length := by simpa using congrArg List.length hns
    rw [hA, hN] at h2
    obtain ⟨hhead, hexit, d2', e2, hs2⟩ := loopBlocks_sound L ha1.size.symm hblk.symm
      (by rw [h2]; exact hf2)
    obtain ⟨rfl, er⟩ := Prod.mk.inj (h2.symm.trans e2)
    have ha2 : d2.Stands cur L.zero := by
      refine ⟨hS2, (congrArg Shape.current hs2).trans ha1.current, ?_⟩
      rw [← Body.shape_values_length, hs2, List.length_append, Body.shape_values_length, ha1.size,
        L.length_paramTypes]
      simp only [LoopLayout.zero, LoopLayout.bound, LoopLayout.index, LoopLayout.target,
        LoopLayout.first, L]
      omega
    -- the steps after the blocks
    rw [hk] at h4
    rw [hxs, hr, hk, hexit, hhead] at h5
    have w2 := L.enter_wrote ha2 h3 h4 h5 h
    refine ⟨hf, L, d5, ?_, rfl, rfl, rfl, hxs, hns, hr, hk, w2.sound, ?_⟩
    · rw [hhead, hexit]
      cases er
      rfl
    · have hlt : cur < d.body.shape.code.length := by
        rw [Body.shape_code_length]
        exact (hS hf).current cur hc
      rw [w2.shape, hs2, w1.shape]
      simp (disch := simpa only [length_writeAt] using hlt) only [writeAt_append, writeAt_writeAt,
        List.append_assoc, LoopLayout.openSteps, List.cons_append, List.nil_append]
      rfl

theorem VectorLoop.check_ok {l : VectorLoop} {d : Draft} (h : l.check d = .ok ()) :
    (∀ a ∈ l.arrays, d.typeOf a.value = .pointer) ∧ (∀ s ∈ l.scalars, d.typeOf s.value = .f64) ∧
      d.typeOf l.result = .pointer ∧ d.typeOf l.count = .i64 := by
  unfold VectorLoop.check at h
  split at h
  · cases h
  · rename_i ha
    split at h
    · cases h
    · rename_i hs
      split at h
      · cases h
      · rename_i hr
        split at h
        · cases h
        · rename_i hc
          rw [List.find?_eq_none] at ha hs
          exact ⟨fun a hm => by simpa using ha a hm, fun s hm => by simpa using hs s hm,
            Classical.not_not.mp hr, Classical.not_not.mp hc⟩

theorem values_of_typeOf {d : Draft} {v : ValueNo} {t : Ty} (h : d.typeOf v = t)
    (ht : t.isValid = true) : d.body.fn.values[v]? = some t := by
  have hv : ¬ ((v : Int) < 0) := by omega
  rw [Draft.typeOf, Func.typeOf, if_neg hv, Int.toNat_natCast, Array.getD_eq_getD_getElem?] at h
  cases hg : d.body.fn.values[v]? with
  | none =>
    rw [hg] at h
    cases h
    cases ht
  | some u =>
    rw [hg] at h
    exact congrArg some h

theorem values_of_inputs {d : Draft} {xs : List ColumnInput} {ns : List ValueNo} {t : Ty}
    (ht : t.isValid = true) (hx : xs.map (·.value) = ns.map Int.ofNat)
    (hty : ∀ x ∈ xs, d.typeOf x.value = t) : ∀ v ∈ ns, d.body.fn.values[v]? = some t := by
  intro v hv
  have hm : Int.ofNat v ∈ xs.map (·.value) := by
    rw [hx]
    exact List.mem_map_of_mem hv
  obtain ⟨x, hxm, hxv⟩ := List.mem_map.mp hm
  exact values_of_typeOf (by rw [← hty x hxm, hxv]; rfl) ht

theorem LoopLayout.pairs_sound {d d1 d2 : Draft} (L : LoopLayout) (hS : d.Holds Body.Sound)
    (hn : d.body.fn.values.size = L.next) {u : Unit} {pairs : List Int}
    (h1 : d.switchTo L.head = (d1, u)) (h2 : loadPairs d1 (L.pointers.map Int.ofNat) = (d2, pairs))
    (h : d2.fault = none) :
    d2.Holds Body.Sound ∧ pairs = (List.range' L.next L.arrays.length).map Int.ofNat ∧
      d2.body.shape = { d.body.shape with
        code := writeAt L.head L.loadSteps d.body.shape.code
        values := d.body.shape.values ++ List.replicate L.arrays.length .f64x2
        current := some L.head } := by
  rw [loadPairs_eq] at h2
  have hf1 : d1.fault = none :=
    Draft.healthy_of_each Draft.writer_load.healthy (by rw [h2]; exact h)
  obtain ⟨-, -, hs1⟩ := Draft.switchTo_sound (d := d) (n := L.head) (by rw [h1]; exact hf1)
  rw [h1] at hs1
  have ha1 : d1.Stands L.head L.next := by
    refine ⟨?_, congrArg Shape.current hs1, ?_⟩
    · have hs := Draft.sound_switchTo hS L.head
      rwa [h1] at hs
    · rw [← hn, ← Body.shape_values_length, ← Body.shape_values_length, hs1]
  obtain ⟨ns, hns, hpairs, w2⟩ := Draft.writer_load.each_wrote ha1 trivial h2 h
  obtain rfl := ofNat_map_inj hns
  rw [L.length_pointers] at hpairs w2
  refine ⟨w2.sound, hpairs, ?_⟩
  rw [w2.shape, hs1]
  rfl

def LoopLayout.columns (L : LoopLayout) (l : VectorLoop) : List (Int × Int) :=
  ((l.arrays.map (·.column)).zip ((List.range' L.next L.arrays.length).map Int.ofNat) ++
    (l.scalars.map (·.column)).zip (L.spread.map Int.ofNat)).reverse

/-- the loop `l` has the layout `L` in the body `b` -/
structure LoopLayout.Fits (L : LoopLayout) (l : VectorLoop) (b : Body) (cur : Nat) : Prop where
  entry : L.entry = cur
  head : L.head = b.fn.blocks.size
  base : L.base = b.fn.values.size
  arrays : l.arrays.map (·.value) = L.arrays.map Int.ofNat
  scalars : l.scalars.map (·.value) = L.scalars.map Int.ofNat
  result : l.result = L.result
  count : l.count = L.count
  arraysTyped : ∀ v ∈ L.arrays, b.fn.values[v]? = some .pointer
  scalarsTyped : ∀ v ∈ L.scalars, b.fn.values[v]? = some .f64
  resultTyped : b.fn.values[L.result]? = some .pointer
  countTyped : b.fn.values[L.count]? = some .i64

/-- **What a loop writes up to its body.** -/
theorem Builder.enterLoop_sound {b : Builder} (hS : b.draft.Holds Body.Sound) {cur : Nat}
    (hc : b.draft.body.current = some cur) {l : VectorLoop} (h : (b.enterLoop l).1.Healthy) :
    b.Healthy ∧ b.lanes = 1 ∧ ∃ (L : LoopLayout) (d : Draft), L.Fits l b.draft.body cur ∧
      b.enterLoop l = ({ b with draft := d, columns := L.columns l, lanes := 2 },
        some (L.frame b.columns)) ∧ d.Holds Body.Sound ∧
      d.body.shape = { b.draft.body.shape with
        code := writeAt cur (L.openSteps ++ [L.enter]) b.draft.body.shape.code ++
          [(L.params, L.loadSteps), ([], [])]
        values := b.draft.body.shape.values ++ List.replicate L.scalars.length .f64x2 ++
          L.paramTypes ++ [.i64, .i8] ++ List.replicate L.arrays.length .f64x2
        current := some L.head } := by
  obtain ⟨hb, b', r, hs, hb', e⟩ := attempt_sound h
  refine ⟨hb, ?_⟩
  split at hs
  · cases hs
  · rename_i hl
    refine ⟨Classical.not_not.mp hl, ?_⟩
    split at hs
    · cases hs
    · rename_i hck
      cases h1 : openLoop b.draft l b.columns with
      | mk d1 f =>
        simp only [h1] at hs
        have hf1 : d1.fault = none := by
          have hd := hb'.draft
          split at hs
          · obtain ⟨rfl, -⟩ := Prod.mk.inj hs
            exact hd
          · cases hd1 : d1.fault with
            | none => rfl
            | some g => rename_i hn; exact absurd (by rw [hd1]; rfl) hn
        rw [hf1] at hs
        have hopen : (openLoop b.draft l b.columns).1.fault = none := by
          rw [h1]
          exact hf1
        obtain ⟨-, L, d1', e1, h2, h3, h4, h5, h6, h7, h8, hS1, hs1⟩ := openLoop_sound hS hc hopen
        obtain ⟨rfl, rfl⟩ := Prod.mk.inj (h1.symm.trans e1)
        cases h9 : d1.switchTo (L.frame b.columns).block with
        | mk d2 u =>
          cases h10 : loadPairs d2 (L.frame b.columns).pointers with
          | mk d3 pairs =>
            simp only [h9, h10] at hs
            obtain ⟨rfl, hr⟩ := Prod.mk.inj hs
            cases hr
            have hsz : d1.body.fn.values.size = L.next := by
              rw [← Body.shape_values_length, hs1]
              simp only [List.length_append, List.length_replicate, L.length_paramTypes,
                Body.shape_values_length, ← h4, List.length_cons, List.length_nil,
                LoopLayout.next, LoopLayout.zero, LoopLayout.bound, LoopLayout.index,
                LoopLayout.target, LoopLayout.first]
              omega
            obtain ⟨hS3, hpairs, hs3⟩ := L.pairs_sound hS1 hsz h9 h10 hb'.draft
            obtain ⟨ha, hsc, hres, hcnt⟩ := VectorLoop.check_ok hck
            refine ⟨L, d3, ⟨h2, h3, h4, h5, h6, h7, h8, values_of_inputs rfl h5 ha,
              values_of_inputs rfl h6 hsc, values_of_typeOf (h7 ▸ hres) rfl,
              values_of_typeOf (h8 ▸ hcnt) rfl⟩, ?_, hS3, ?_⟩
            · refine e.trans ?_
              rw [hpairs]
              rfl
            · have hL : L.head = (writeAt cur (L.openSteps ++ [L.enter])
                  b.draft.body.shape.code).length := by
                rw [length_writeAt, Body.shape_code_length, h3]
              rw [hs3, hs1]
              simp only [hL, writeAt_length]
              rfl

/-- a column inside a loop is a pair of rows or a broadcast -/
theorem LoopLayout.lookup_columns {L : LoopLayout} {l : VectorLoop} {c v : Int}
    (h : (L.columns l).lookup c = some v) :
    (∃ i < L.arrays.length, (l.arrays.map (·.column))[i]? = some c ∧ v = (L.next + i : Nat)) ∨
      ∃ i < L.scalars.length, (l.scalars.map (·.column))[i]? = some c ∧
        v = (L.target + 1 + i : Nat) := by
  obtain ⟨l₁, l₂, e, -⟩ := List.lookup_eq_some_iff.mp h
  have hm : (c, v) ∈ L.columns l := by
    rw [e]
    simp
  rw [columns, List.mem_reverse, List.mem_append] at hm
  have hzip : ∀ {cs : List Int} {n k : Nat}, (c, v) ∈ cs.zip ((List.range' n k).map Int.ofNat) →
      ∃ i < k, cs[i]? = some c ∧ v = (n + i : Nat) := by
    intro cs n k hz
    obtain ⟨i, hi⟩ := List.mem_iff_getElem?.mp hz
    obtain ⟨h1, h2⟩ := List.getElem?_zip_eq_some.mp hi
    rw [List.getElem?_map] at h2
    obtain ⟨u, hu, hv⟩ := Option.map_eq_some_iff.mp h2
    obtain ⟨hlt, rfl⟩ := List.getElem?_eq_some_iff.mp hu
    rw [List.length_range'] at hlt
    refine ⟨i, hlt, h1, ?_⟩
    rw [show v = Int.ofNat _ from hv.symm, List.getElem_range', Nat.one_mul]
    rfl
  rcases hm with hm | hm
  · exact .inl (hzip hm)
  · exact .inr (hzip hm)

theorem LoopLayout.columns_typed {L : LoopLayout} {l : VectorLoop} {b : Body} {ts : List Ty}
    (hts : ts.length = L.base) (hb : b.shape.values = ts ++ List.replicate L.scalars.length Ty.f64x2 ++
      L.paramTypes ++ [Ty.i64, Ty.i8] ++ List.replicate L.arrays.length Ty.f64x2) {c v : Int}
    (h : (L.columns l).lookup c = some v) :
    ∃ n : ValueNo, v = n ∧ b.fn.values[n]? = some .f64x2 := by
  rcases lookup_columns h with ⟨i, hi, -, rfl⟩ | ⟨i, hi, -, rfl⟩
  · refine ⟨L.next + i, rfl, Body.typed_of_shape (hb.trans (List.append_nil _).symm) ?_ _
      (List.mem_range'_1.mpr ⟨Nat.le_add_right _ _, Nat.add_lt_add_left hi _⟩)⟩
    · simp only [List.length_append, List.length_replicate, L.length_paramTypes, hts,
        List.length_cons, List.length_nil, next, zero, bound, index, target, first]
      omega
  · have hb' : b.shape.values = (ts ++ List.replicate L.scalars.length Ty.f64x2 ++
        List.replicate L.arrays.length Ty.pointer ++ [Ty.pointer]) ++
        List.replicate L.scalars.length Ty.f64x2 ++ ([Ty.i64, Ty.i64] ++ [Ty.i64, Ty.i8] ++
        List.replicate L.arrays.length Ty.f64x2) := by
      rw [hb, paramTypes]
      simp only [List.append_assoc]
    refine ⟨L.target + 1 + i, rfl, Body.typed_of_shape hb' ?_ _
      (List.mem_range'_1.mpr ⟨Nat.le_add_right _ _, Nat.add_lt_add_left hi _⟩)⟩
    simp only [List.length_append, List.length_replicate, hts, List.length_cons, List.length_nil,
      target, first]

/-! ## after the body -/

def closeBlock (d : Draft) (f : LoopFrame) (out : Int) : Draft × List Int × Int × Int × Int :=
  let (d, _) := d.store out f.result 0
  let (d, step) := d.iconst .i64 pairBytes
  let (d, pointers) := advance d step f.pointers
  let (d, result) := d.binary .iadd f.result step
  let (d, two) := d.iconst .i64 2
  let (d, index) := d.binary .iadd f.index two
  let (d, more) := d.icmp IntCond.ult.code index f.bound
  (d, pointers, result, index, more)

theorem closeLoop_eq (d : Draft) (f : LoopFrame) (out : Int) :
    closeLoop d f out =
      let (d, pointers, result, index, more) := closeBlock d f out
      let (d, _) := d.brif more f.block (pointers ++ [result] ++ f.scalars ++ [index, f.bound])
        f.exit []
      let (d, _) := d.sealBlock f.block
      let (d, _) := d.switchTo f.exit
      (d.sealBlock f.exit).1 := rfl

theorem closeBlock_sound {d : Draft} (hS : d.Holds Body.Sound) (L : LoopLayout)
    {saved : List (Int × Int)} (hc : d.body.current = some L.head) {out : Int}
    (h : (closeBlock d (L.frame saved) out).1.fault = none) :
    d.fault = none ∧ ∃ (t : Ty) (o : ValueNo) (d' : Draft), out = o ∧
      d.body.fn.values[o]? = some t ∧
      closeBlock d (L.frame saved) out =
        (d', (List.range' (d.body.fn.values.size + 1) L.arrays.length).map Int.ofNat,
          (L.moved d.body.fn.values.size : Int), ((L.moved d.body.fn.values.size + 2 : Nat) : Int),
          ((L.moved d.body.fn.values.size + 3 : Nat) : Int)) ∧ d'.Holds Body.Sound ∧
      d'.body.fn.values[L.moved d.body.fn.values.size + 3]? = some .i8 ∧
      d'.body.shape = { d.body.shape with
        code := writeAt L.head (L.closeSteps t o d.body.fn.values.size) d.body.shape.code
        values := d.body.shape.values ++ (.i64 :: List.replicate L.arrays.length .i64 ++
          [.i64, .i64, .i64, .i8]) } := by
  cases h1 : d.store out (L.frame saved).result 0 with
  | mk d1 u1 =>
  cases h2 : d1.iconst .i64 pairBytes with
  | mk d2 step =>
  cases h3 : advance d2 step (L.frame saved).pointers with
  | mk d3 pointers =>
  cases h4 : d3.binary .iadd (L.frame saved).result step with
  | mk d4 result =>
  cases h5 : d4.iconst .i64 2 with
  | mk d5 two =>
  cases h6 : d5.binary .iadd (L.frame saved).index two with
  | mk d6 index =>
  cases h7 : d6.icmp IntCond.ult.code index (L.frame saved).bound with
  | mk d7 more =>
    have e : closeBlock d (L.frame saved) out = (d7, pointers, result, index, more) := by
      simp only [closeBlock, h1, h2, h3, h4, h5, h6, h7]
    rw [e] at h ⊢
    -- no operation failed, the last one first
    have hf6 := Draft.healthy_of_attempt h7 h
    have hf5 := Draft.healthy_of_attempt h6 hf6
    have hf4 := Draft.healthy_of_attempt h5 hf5
    have hf3 := Draft.healthy_of_attempt h4 hf4
    rw [advance_eq] at h3
    have hadd : ∀ (d : Draft) (p : Int), (d.binary .iadd p step).1.fault = none → d.fault = none :=
      fun _ _ h => (Draft.attempt_sound h).1
    have hf2 : d2.fault = none := Draft.healthy_of_each hadd (by rw [h3]; exact hf3)
    have hf1 := Draft.healthy_of_attempt h2 hf2
    have hf := Draft.healthy_of_attempt h1 hf1
    -- the store and the step
    obtain ⟨k, hk⟩ : ∃ k, d.body.fn.values.size = k := ⟨_, rfl⟩
    rw [hk]
    have ha : d.Stands L.head k := ⟨hS, hc, hk⟩
    obtain ⟨t, o, ho, hty, w1⟩ := ha.store (p := L.target) h1 hf1
    have ha1 : d1.Stands L.head k := w1.stands ha
    obtain ⟨rfl, w2⟩ := ha1.iconst h2 hf2
    have ha2 : d2.Stands L.head (k + 1) := w2.stands ha1
    -- the pointers
    obtain ⟨ns, hns, rfl, w3⟩ := (Draft.writer_add k).each_wrote ha2 (w2.newer ha1) h3 hf3
    obtain rfl := ofNat_map_inj hns
    rw [L.length_pointers] at w3 ⊢
    have ha3 : d3.Stands L.head (L.moved k) := by
      simpa [LoopLayout.moved] using w3.stands ha2
    -- the result, the index and the comparison
    obtain ⟨rfl, w4⟩ := ha3.binary (x := L.target) (w3.older ha2 (w2.newer ha1)) h4 hf4
    have ha4 : d4.Stands L.head (L.moved k + 1) := w4.stands ha3
    obtain ⟨rfl, w5⟩ := ha4.iconst h5 hf5
    have ha5 : d5.Stands L.head (L.moved k + 2) := w5.stands ha4
    obtain ⟨rfl, w6⟩ := ha5.binary (x := L.index) (w5.newer ha4) h6 hf6
    have ha6 : d6.Stands L.head (L.moved k + 3) := w6.stands ha5
    obtain ⟨t7, x7, y7, hx7, hy7, hty7, rfl, w7⟩ := ha6.icmp h7 h
    obtain rfl := Int.ofNat.inj hx7
    obtain rfl : L.bound = y7 := Int.ofNat.inj hy7
    obtain rfl : t7 = .i64 :=
      Option.some.inj ((Func.HasTypes.pair_iff.mp hty7).1.symm.trans (w6.newer ha5))
    have w := w1.trans (w2.trans (w3.trans (w4.trans (w5.trans (w6.trans w7)))))
    refine ⟨hf, t, o, d7, ho, hty, rfl, w.sound, w7.newer ha6, w.shape.trans ?_⟩
    simp only [LoopLayout.closeSteps, List.append_assoc]
    rfl

theorem closeLoop_sound {d : Draft} (hS : d.Holds Body.Sound) (L : LoopLayout)
    {saved : List (Int × Int)} (hc : d.body.current = some L.head) {out : Int}
    (h : (closeLoop d (L.frame saved) out).fault = none) :
    d.fault = none ∧ ∃ (t : Ty) (o : ValueNo), out = o ∧ d.body.fn.values[o]? = some t ∧
      (closeLoop d (L.frame saved) out).Holds Body.Sound ∧
      (closeLoop d (L.frame saved) out).body.shape = { d.body.shape with
        code := writeAt L.head (L.closeSteps t o d.body.fn.values.size ++
          [L.again d.body.fn.values.size]) d.body.shape.code
        values := d.body.shape.values ++ (.i64 :: List.replicate L.arrays.length .i64 ++
          [.i64, .i64, .i64, .i8])
        current := some (L.head + 1) } := by
  rw [closeLoop_eq] at h ⊢
  cases h1 : closeBlock d (L.frame saved) out with
  | mk d1 rest =>
  obtain ⟨pointers, result, index, more⟩ := rest
  cases h2 : d1.brif more (L.frame saved).block
      (pointers ++ [result] ++ (L.frame saved).scalars ++ [index, (L.frame saved).bound])
      (L.frame saved).exit [] with
  | mk d2 u2 =>
  cases h3 : d2.sealBlock (L.frame saved).block with
  | mk d3 u3 =>
  cases h4 : d3.switchTo (L.frame saved).exit with
  | mk d4 u4 =>
    simp only [h1, h2, h3, h4] at h ⊢
    obtain ⟨hf4, hs5⟩ := Draft.sealBlock_sound h
    obtain ⟨hf3, -, hs4⟩ := Draft.switchTo_sound (d := d3) (n := (L.frame saved).exit)
      (by rw [h4]; exact hf4)
    obtain ⟨hf2, hs3⟩ := Draft.sealBlock_sound (d := d2) (n := (L.frame saved).block)
      (by rw [h3]; exact hf3)
    rw [h4] at hs4
    rw [h3] at hs3
    have hf1 := Draft.healthy_of_attempt h2 hf2
    have hclose : (closeBlock d (L.frame saved) out).1.fault = none := by
      rw [h1]
      exact hf1
    obtain ⟨hf, t, o, d1', ho, hty, e1, hS1, hty8, hs1⟩ := closeBlock_sound hS L hc hclose
    obtain ⟨rfl, er⟩ := Prod.mk.inj (h1.symm.trans e1)
    cases er
    have ha1 : d1.Stands L.head d1.body.fn.values.size :=
      ⟨hS1, (congrArg Shape.current hs1).trans hc, rfl⟩
    obtain ⟨vs, ws, hvs, hws, w2⟩ := ha1.brif L.head (L.head + 1) hty8 h2 hf2
    obtain rfl : vs = List.range' (d.body.fn.values.size + 1) L.arrays.length ++
        [L.moved d.body.fn.values.size] ++ L.spread ++
        [L.moved d.body.fn.values.size + 2, L.bound] := by
      refine ofNat_map_inj (hvs.symm.trans ?_)
      simp [LoopLayout.frame]
    obtain rfl : ws = [] := List.map_eq_nil_iff.mp hws.symm
    have hS3 : d3.Holds Body.Sound := by
      have hs := Draft.sound_sealBlock w2.sound (L.frame saved).block
      rwa [h3] at hs
    have hS4 : d4.Holds Body.Sound := by
      have hs := Draft.sound_switchTo hS3 (L.frame saved).exit
      rwa [h4] at hs
    refine ⟨hf, t, o, ho, hty, Draft.sound_sealBlock hS4 _, ?_⟩
    rw [hs5, hs4, hs3, w2.shape, hs1]
    simp only [writeAt_writeAt, List.append_nil]
    rfl

theorem Builder.leaveLoop_eq {b : Builder} {f : LoopFrame} {out : Int}
    (h : (b.leaveLoop f out).Healthy) :
    b.Healthy ∧ (b.draft.typeOf out = .f64x2 ∨ b.draft.typeOf out = .i64x2) ∧
      b.leaveLoop f out =
        { b with draft := closeLoop b.draft f out, columns := f.saved, lanes := 1 } := by
  let b0 : Builder := { b with lanes := 1, columns := f.saved }
  cases hf : b0.sync.fault with
  | some g =>
    have e : b.leaveLoop f out = b0.sync := by
      rw [Builder.leaveLoop, hf]
    rw [e] at h
    exact absurd (h.fault.symm.trans hf) nofun
  | none =>
    have h0 : b0.Healthy := healthy_of_sync hf
    have e : b.leaveLoop f out =
        if b0.draft.typeOf out ≠ .f64x2 ∧ b0.draft.typeOf out ≠ .i64x2 then
          b0.fail (.loop (.body (b0.draft.typeOf out)))
        else Builder.sync { b0 with draft := closeLoop b0.draft f out } := by
      rw [Builder.leaveLoop, hf, h0.sync, h0.fault]
    rw [e] at h ⊢
    split at h
    · exact absurd h.fault (fail_fault_ne _ _)
    · rename_i ht
      have h1 : Builder.Healthy { b0 with draft := closeLoop b0.draft f out } :=
        healthy_of_sync h.fault
      refine ⟨⟨h0.fault, h0.draft⟩, ?_, ?_⟩
      · by_cases h2 : b0.draft.typeOf out = .f64x2
        · exact .inl h2
        · exact .inr (Classical.not_not.mp fun h3 => ht ⟨h2, h3⟩)
      · rw [if_neg ht]
        exact h1.sync

/-- **What a loop writes after its body.** -/
theorem Builder.leaveLoop_sound {b : Builder} (hS : b.draft.Holds Body.Sound) (L : LoopLayout)
    {saved : List (Int × Int)} (hc : b.draft.body.current = some L.head) {out : Int}
    (h : (b.leaveLoop (L.frame saved) out).Healthy) :
    b.Healthy ∧ ∃ (t : Ty) (o : ValueNo) (d : Draft), out = o ∧
      b.draft.body.fn.values[o]? = some t ∧ t.isVector = true ∧
      b.leaveLoop (L.frame saved) out = { b with draft := d, columns := saved, lanes := 1 } ∧
      d.Holds Body.Sound ∧
      d.body.shape = { b.draft.body.shape with
        code := writeAt L.head (L.closeSteps t o b.draft.body.fn.values.size ++
          [L.again b.draft.body.fn.values.size]) b.draft.body.shape.code
        values := b.draft.body.shape.values ++ (.i64 :: List.replicate L.arrays.length .i64 ++
          [.i64, .i64, .i64, .i8])
        current := some (L.head + 1) } := by
  obtain ⟨hb, ht, e⟩ := leaveLoop_eq h
  rw [e] at h ⊢
  obtain ⟨-, t, o, rfl, hty, hS', hs⟩ := closeLoop_sound hS L hc h.draft
  refine ⟨hb, t, o, _, rfl, hty, ?_, rfl, hS', hs⟩
  have htype : b.draft.typeOf o = t := by
    have ho : ¬ ((o : Int) < 0) := by omega
    rw [Draft.typeOf, Func.typeOf, if_neg ho, Int.toNat_natCast, Array.getD_eq_getD_getElem?, hty]
    rfl
  rw [htype] at ht
  rcases ht with rfl | rfl
  · rfl
  · rfl

/-- **The code of a loop around steps**: `d1` is what the start of the loop leaves, `d2` has the steps
and `d3` has the whole loop. -/
theorem LoopLayout.shape_around {L : LoopLayout} {l : VectorLoop} {b : Body} {cur : Nat}
    (hfits : L.Fits l b cur) {d1 d2 d3 : Body} {ss : List Step} {t : Ty} {out : ValueNo}
    (h1 : d1.shape = { b.shape with
      code := writeAt cur (L.openSteps ++ [L.enter]) b.shape.code ++
        [(L.params, L.loadSteps), ([], [])]
      values := b.shape.values ++ List.replicate L.scalars.length .f64x2 ++
        L.paramTypes ++ [.i64, .i8] ++ List.replicate L.arrays.length .f64x2
      current := some L.head })
    (hw : d1.Writes d2 ss) (h3 : d3.shape = { d2.shape with
      code := writeAt L.head (L.closeSteps t out d2.fn.values.size ++
        [L.again d2.fn.values.size]) d2.shape.code
      values := d2.shape.values ++ (.i64 :: List.replicate L.arrays.length .i64 ++
        [.i64, .i64, .i64, .i8])
      current := some (L.head + 1) }) :
    d1.fn.values.size = L.next + L.arrays.length ∧
      d3.shape.code = writeAt cur (L.openSteps ++ [L.enter]) b.shape.code ++
        [(L.params, L.loadSteps ++ ss ++ (L.closeSteps t out d2.fn.values.size ++
          [L.again d2.fn.values.size])), ([], [])] ∧
      d3.fn.values.size = L.moved d2.fn.values.size + 4 := by
  have hcur1 : d1.current = some L.head := congrArg Shape.current h1
  have hhead : L.head = (writeAt cur (L.openSteps ++ [L.enter]) b.shape.code).length := by
    rw [length_writeAt, Body.shape_code_length, hfits.head]
  refine ⟨?_, ?_, ?_⟩
  · have hlen := congrArg (fun x : Shape => x.values.length) h1
    simp only [Body.shape_values_length, List.length_append, List.length_replicate,
      L.length_paramTypes, List.length_cons, List.length_nil, ← hfits.base] at hlen
    rw [hlen, next, zero, bound, index, target, first]
    omega
  · rw [h3]
    simp only [hw.shape_code hcur1, h1]
    rw [hhead, writeAt_length, writeAt_length]
  · rw [← Body.shape_values_length, h3]
    simp only [List.length_append, List.length_cons, List.length_replicate, List.length_nil,
      Body.shape_values_length, moved]
    omega

end Emit

end TreeJit
