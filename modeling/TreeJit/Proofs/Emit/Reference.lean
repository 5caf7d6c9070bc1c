import TreeJit.Proofs.Emit.Shape

/-!
# References in the scratch frame

A reference is a pointer that was stored in the scratch frame under a name.  Loading an element
loads the pointer and then the element behind it.
-/

namespace TreeJit.Emit.Builder

open SSA

variable {b : Builder}

theorem makeScratch_sound {size : Int} (hS : b.draft.Holds Body.Sound)
    (h : (b.makeScratch size).Healthy) :
    b.Healthy ∧ ∃ d : Draft, d.Holds Body.Sound ∧
      b.makeScratch size = { b with
        draft := d
        scratch := some { slot := b.draft.body.fn.slots.size, capacity := Int32.ofInt size } } ∧
      d.body.shape = { b.draft.body.shape with
        slots := b.draft.body.shape.slots ++ [⟨size, 16⟩] } := by
  unfold makeScratch at h ⊢
  obtain ⟨hb, b', r, hs, hb', e⟩ := attempt_sound h
  refine ⟨hb, ?_⟩
  rw [e]
  split at hs
  · cases hs
  · split at hs
    · cases hs
    · cases h1 : b.draft.createSlot size 16 with
      | mk d slot =>
        simp only [h1] at hs
        have hS1 : d.Holds Body.Sound := by
          have hs := Draft.sound_createSlot hS size 16
          rwa [h1] at hs
        have hf : d.fault = none := by
          have hd := hb'.draft
          split at hs
          · obtain ⟨rfl, -⟩ := Prod.mk.inj hs
            exact hd
          · obtain ⟨rfl, -⟩ := Prod.mk.inj hs
            exact hd
        rw [hf] at hs
        obtain ⟨rfl, -⟩ := Prod.mk.inj hs
        have hcs : (b.draft.createSlot size 16).1.fault = none := by
          rw [h1]
          exact hf
        obtain ⟨-, -, bd, slot', he, e1⟩ := Draft.attempt_sound hcs
        have e2 : b.draft.createSlot size 16 = ({ b.draft with body := bd }, slot') := e1
        obtain ⟨rfl, rfl⟩ := Prod.mk.inj (h1.symm.trans e2)
        obtain ⟨_, -, he⟩ := bind_eq_ok.mp he
        cases he
        refine ⟨_, hS1, rfl, ?_⟩
        simp [Body.shape, Func.code]

/-- there was no scratch frame before, and the new one has bytes -/
theorem makeScratch_new {size : Int} (h : (b.makeScratch size).Healthy) :
    b.scratch = none ∧ 0 < size := by
  unfold makeScratch at h
  obtain ⟨-, b', r, hs, -, -⟩ := attempt_sound h
  split at hs
  · cases hs
  · rename_i hnone
    split at hs
    · cases hs
    · rename_i hpos
      exact ⟨by simpa using hnone, by omega⟩

theorem storeSlot_sound {key : String} {t : Ty} {c : SlotCategory} {v : Int} {b' : Builder}
    (hS : b.draft.Holds Body.Sound) (hs : b.storeSlot key t c v = (b', .ok ())) (hb' : b'.Healthy) :
    ∃ (s s' : Scratch) (n : NamedSlot) (x k : Nat) (d : Draft),
      b.scratch = some s ∧ s.allocate key t c = .ok (s', n) ∧ v = x ∧ s'.slot = k ∧
      b' = { b with scratch := some s', draft := d } ∧ d.Holds Body.Sound ∧
      b.draft.body.Appends (.stackStore (b.draft.typeOf v) x k n.offset) [] d.body := by
  unfold storeSlot allocate at hs
  cases hsc : b.scratch with
  | none => simp only [hsc] at hs; cases hs
  | some s =>
    cases hal : s.allocate key t c with
    | error f => simp [hsc, hal, bind, Except.bind] at hs
    | ok p =>
      obtain ⟨s', n⟩ := p
      cases h1 : b.draft.stackStore v s'.slot n.offset with
      | mk d u1 =>
        simp only [hsc, hal, bind, Except.bind, pure, Except.pure, h1] at hs
        obtain ⟨rfl, -⟩ := Prod.mk.inj hs
        obtain ⟨u, x, k, rfl, hk, hem⟩ := Draft.stackStore_emits (d := b.draft) hS
          (by rw [h1]; exact hb'.draft)
        have hS1 := Draft.sound_stackStore hS x s'.slot n.offset
        rw [h1] at hem hS1
        -- the value has the type that is written with the instruction
        obtain rfl : b.draft.typeOf x = u :=
          Func.typeOf_eq (Func.HasTypes.singleton_iff.mp hem.appends.typed.1)
        exact ⟨s, s', n, x, k, d, rfl, hal, rfl, hk, rfl, hS1, hem.appends⟩

theorem storeValue_sound {key : String} {v : Int} (hS : b.draft.Holds Body.Sound)
    (h : (b.storeValue key v).Healthy) :
    b.Healthy ∧ (b.draft.typeOf v).isValid = true ∧
      ∃ (s s' : Scratch) (n : NamedSlot) (x k : Nat) (d : Draft),
      b.scratch = some s ∧ s.allocate key (b.draft.typeOf v) .value = .ok (s', n) ∧ v = x ∧
      s'.slot = k ∧ b.storeValue key v = { b with scratch := some s', draft := d } ∧
      d.Holds Body.Sound ∧
      b.draft.body.Appends (.stackStore (b.draft.typeOf v) x k n.offset) [] d.body := by
  unfold storeValue at h ⊢
  obtain ⟨hb, b', r, hs, hb', e⟩ := attempt_sound h
  rw [e]
  simp only at hs
  split at hs
  · cases hs
  · rename_i hv
    exact ⟨hb, by simpa using hv, storeSlot_sound hS hs hb'⟩

theorem storeRef_sound {name : String} {ptr : Int} {t : Ty} (hS : b.draft.Holds Body.Sound)
    (h : (b.storeRef name ptr t).Healthy) :
    b.Healthy ∧ t.isValid = true ∧ ∃ (s s' : Scratch) (n : NamedSlot) (v k : Nat) (d : Draft),
      b.scratch = some s ∧ s.allocate name t .ref = .ok (s', n) ∧ ptr = v ∧ s'.slot = k ∧
      b.storeRef name ptr t = { b with scratch := some s', draft := d } ∧ d.Holds Body.Sound ∧
      b.draft.body.Appends (.stackStore .pointer v k n.offset) [] d.body := by
  unfold storeRef at h ⊢
  obtain ⟨hb, b', r, hs, hb', e⟩ := attempt_sound h
  rw [e]
  simp only at hs
  split at hs
  · cases hs
  · rename_i hp
    split at hs
    · cases hs
    · rename_i ht
      have hs := storeSlot_sound hS hs hb'
      rw [Classical.not_not.mp hp] at hs
      exact ⟨hb, by simpa using ht, hs⟩

theorem loadValue_sound {key : String} (hS : b.draft.Holds Body.Sound)
    (h : (b.loadValue key).1.Healthy) :
    b.Healthy ∧ ∃ (s : Scratch) (n : NamedSlot) (k : Nat) (d : Draft),
      b.scratch = some s ∧ s.lookup key .value = .ok n ∧ s.slot = k ∧ d.Holds Body.Sound ∧
      b.loadValue key = ({ b with draft := d }, (b.draft.body.fn.values.size : Int)) ∧
      b.draft.body.Appends (.stackLoad n.ty k n.offset) [n.ty] d.body := by
  obtain ⟨hb, b', r, hs, hb', e⟩ := attempt_sound h
  refine ⟨hb, ?_⟩
  simp only [lookupSlot] at hs
  cases hsc : b.scratch with
  | none => simp only [hsc] at hs; cases hs
  | some s =>
    cases hal : s.lookup key .value with
    | error f => simp [hsc, hal, bind, Except.bind] at hs
    | ok n =>
      cases h1 : b.draft.stackLoad n.ty s.slot n.offset with
      | mk d v =>
        simp only [hsc, hal, bind, Except.bind, pure, Except.pure, h1] at hs
        obtain ⟨rfl, hr⟩ := Prod.mk.inj hs
        cases hr
        obtain ⟨k, hk, hem, hv⟩ := Draft.stackLoad_emits (d := b.draft) hS
          (by rw [h1]; exact hb'.draft)
        have hS1 := Draft.sound_stackLoad hS n.ty s.slot n.offset
        rw [h1] at hem hS1
        obtain rfl : r = (b.draft.body.fn.values.size : Int) := by rwa [h1] at hv
        exact ⟨s, n, k, d, rfl, hal, hk, hS1, e, hem.appends⟩

theorem loadRef_sound {key : String} {b' : Builder} {n : NamedSlot} {p : Int}
    (hS : b.draft.Holds Body.Sound) (hr : b.loadRef key = (b', .ok (n, p)))
    (hd : b'.draft.fault = none) :
    ∃ (s : Scratch) (k : Nat) (d : Draft), b.scratch = some s ∧ s.lookup key .ref = .ok n ∧
      s.slot = k ∧ d.Holds Body.Sound ∧ b' = { b with draft := d } ∧
      p = (b.draft.body.fn.values.size : Int) ∧
      b.draft.body.Appends (.stackLoad .pointer k n.offset) [.pointer] d.body := by
  unfold loadRef lookupSlot at hr
  cases hsc : b.scratch with
  | none => simp only [hsc] at hr; cases hr
  | some s =>
    cases hal : s.lookup key .ref with
    | error f => simp [hsc, hal, bind, Except.bind] at hr
    | ok n' =>
      cases h1 : b.draft.stackLoad .pointer s.slot n'.offset with
      | mk d q =>
        simp only [hsc, hal, bind, Except.bind, pure, Except.pure, h1] at hr
        cases hr
        obtain ⟨k, hk, hem, hp⟩ := Draft.stackLoad_emits (d := b.draft) hS (by rw [h1]; exact hd)
        have hS1 := Draft.sound_stackLoad hS .pointer s.slot n.offset
        rw [h1] at hem hp hS1
        exact ⟨s, k, d, rfl, hal, hk, hS1, rfl, hp, hem.appends⟩

theorem loadElement_sound {name : String} {i : Int64} (hS : b.draft.Holds Body.Sound)
    (h : (b.loadElement name i).1.Healthy) :
    b.Healthy ∧ ∃ (s : Scratch) (n : NamedSlot) (k : Nat) (d : Draft),
      b.scratch = some s ∧ s.lookup name .ref = .ok n ∧ s.slot = k ∧ d.Holds Body.Sound ∧
      b.loadElement name i = ({ b with draft := d }, ((b.draft.body.fn.values.size + 1 : Nat) : Int)) ∧
      b.draft.body.Writes d.body
        [⟨.stackLoad .pointer k n.offset, [b.draft.body.fn.values.size]⟩,
          ⟨.load n.ty b.draft.body.fn.values.size (elementOffset i n.ty),
            [b.draft.body.fn.values.size + 1]⟩] ∧
      d.body.fn.values[b.draft.body.fn.values.size + 1]? = some n.ty := by
  obtain ⟨hb, b', r, hs, hb', e⟩ := attempt_sound h
  refine ⟨hb, ?_⟩
  cases hr : b.loadRef name with
  | mk b1 q =>
    cases q with
    | error f => simp only [hr] at hs; cases hs
    | ok q =>
      obtain ⟨n, p⟩ := q
      cases h2 : b1.draft.load n.ty p (elementOffset i n.ty) with
      | mk d2 v =>
        simp only [hr, h2] at hs
        obtain ⟨rfl, hv⟩ := Prod.mk.inj hs
        cases hv
        have hd2 : (b1.draft.load n.ty p (elementOffset i n.ty)).1.fault = none := by
          rw [h2]
          exact hb'.draft
        obtain ⟨s, k, d1, hsc, hal, hk, hS1, rfl, rfl, ha1⟩ :=
          loadRef_sound hS hr (Draft.attempt_sound hd2).1
        obtain ⟨pv, hp, hem2, hr2⟩ := Draft.load_emits (d := d1) hS1 hd2
        have hS2 := Draft.sound_load hS1 n.ty b.draft.body.fn.values.size (elementOffset i n.ty)
        rw [h2] at hem2 hr2 hS2
        obtain rfl : pv = b.draft.body.fn.values.size := Int.ofNat.inj hp.symm
        have hsz := ha1.size
        simp only [List.length_singleton] at hsz
        have hw := ha1.writes.trans hem2.appends.writes
        have hty := hem2.appends.result_type
        rw [hsz] at hw hty
        refine ⟨s, n, k, d2, hsc, hal, hk, hS2, ?_, hw, hty⟩
        refine e.trans ?_
        rw [← hsz]
        exact congrArg _ hr2

theorem storeElement_sound {name : String} {i : Int64} {v : Int} (hS : b.draft.Holds Body.Sound)
    (h : (b.storeElement name i v).Healthy) :
    b.Healthy ∧ ∃ (s : Scratch) (n : NamedSlot) (k x : Nat) (d : Draft),
      b.scratch = some s ∧ s.lookup name .ref = .ok n ∧ s.slot = k ∧ v = x ∧
      d.Holds Body.Sound ∧ b.storeElement name i v = { b with draft := d } ∧
      b.draft.body.Writes d.body
        [⟨.stackLoad .pointer k n.offset, [b.draft.body.fn.values.size]⟩,
          ⟨.store n.ty x b.draft.body.fn.values.size (elementOffset i n.ty), []⟩] := by
  unfold storeElement at h ⊢
  obtain ⟨hb, b', r, hs, hb', e⟩ := attempt_sound h
  refine ⟨hb, ?_⟩
  rw [e]
  cases hr : b.loadRef name with
  | mk b1 q =>
    cases q with
    | error f => simp only [hr] at hs; cases hs
    | ok q =>
      obtain ⟨n, p⟩ := q
      simp only [hr] at hs
      split at hs
      · cases hs
      · rename_i hty
        have hty : b1.draft.typeOf v = n.ty := Classical.not_not.mp hty
        cases h2 : b1.draft.store v p (elementOffset i n.ty) with
        | mk d2 u =>
          simp only [h2] at hs
          obtain ⟨rfl, -⟩ := Prod.mk.inj hs
          have hd2 : (b1.draft.store v p (elementOffset i n.ty)).1.fault = none := by
            rw [h2]
            exact hb'.draft
          obtain ⟨s, k, d1, hsc, hal, hk, hS1, rfl, rfl, ha1⟩ :=
            loadRef_sound hS hr (Draft.attempt_sound hd2).1
          obtain ⟨t, x, pv, rfl, hp, hem2⟩ := Draft.store_emits (d := d1) hS1 hd2
          have hS2 := Draft.sound_store hS1 x b.draft.body.fn.values.size (elementOffset i n.ty)
          rw [h2] at hem2 hS2
          obtain rfl : pv = b.draft.body.fn.values.size := Int.ofNat.inj hp.symm
          obtain rfl : n.ty = t :=
            hty.symm.trans (Func.typeOf_eq (Func.HasTypes.pair_iff.mp hem2.appends.typed.1).1)
          have hw := ha1.writes.trans hem2.appends.writes
          exact ⟨s, n, k, x, d2, hsc, hal, hk, rfl, hS2, rfl, hw⟩

end TreeJit.Emit.Builder
