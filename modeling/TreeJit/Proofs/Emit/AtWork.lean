import TreeJit.Proofs.Emit.Session
import TreeJit.Proofs.SSA.Handover
import TreeJit.Proofs.Tree.Ready

/-!
# Builders at work

A builder over a valid signature starts with its entry block open (`Builder.atWork_new`), and one with
an open block takes parameters and references through the scratch frame.  At the end it hands out its
function, if the values to return have the types of the results and all blocks but the open one have
ended without going back to the entry (`Builder.AtWork.finalize`).

* `Scratch.Holds s n f`   the reference `n` lies in the frame slot of `s`.
-/

namespace TreeJit.Emit

open SSA

def Scratch.Holds (s : Scratch) (n : NamedSlot) (f : Func) : Prop :=
  ∃ (k : Nat) (r : Slot), s.slot = k ∧ f.slots[k]? = some r ∧ 0 ≤ n.offset.toInt ∧
    n.offset.toInt + Ty.pointer.bytes ≤ r.size

theorem Scratch.Holds.mono {s : Scratch} {n : NamedSlot} {f g : Func} (h : s.Holds n f)
    (hg : f.Grows g) : s.Holds n g := by
  obtain ⟨k, r, hk, hr, h0, hin⟩ := h
  exact ⟨k, r, hk, hg.slots k r hr, h0, hin⟩

namespace Builder
variable {b : Builder} {cur : Nat}

/-! ## the start -/

/-- **A builder starts with its entry block open.** -/
theorem atWork_new {sig : Signature} (hs : sig.isValid = true) (id : Nat) (name : String) :
    (new id name sig).AtWork 0 := by
  have h0 : (Draft.new name sig).Ready := by
    refine ⟨?_, rfl⟩
    rw [Draft.new, (Signature.check_eq_ok_iff sig).mpr hs]
  have hparams : ∀ t ∈ sig.params, t.isValid = true := by
    rw [Signature.isValid, Bool.and_eq_true] at hs
    exact List.all_eq_true.mp hs.1
  obtain ⟨h1, -, hr1, -, hf1⟩ := h0.createBlock
  have hsig := congrArg Shape.sig (Draft.createBlock_sound h1.fault).2.2
  cases e1 : (Draft.new name sig).createBlock with
  | mk d1 entry =>
  rw [e1] at h1 hr1 hf1 hsig
  obtain rfl : entry = (0 : Nat) := hr1
  have hsig : d1.body.fn.sig = sig := hsig
  obtain ⟨h2, -, -, -, hf2, -⟩ := h1.appendParams hf1 hparams
  cases e2 : d1.appendParams (0 : Nat) sig.params with
  | mk d2 params =>
  have e : new id name sig =
      { id, name, draft := ((d2.switchTo (0 : Nat)).1.sealBlock (0 : Nat)).1, params } := by
    have e2' : d1.appendFunctionParams ((0 : Nat) : Int) = (d2, params) := by
      rw [Draft.appendFunctionParams, hsig]
      exact e2
    simp only [new, e1, e2']
  rw [show (Draft.new name sig).body.fn.blocks.size = 0 from rfl, e2] at h2 hf2
  obtain ⟨h3, -, ht3⟩ := h2.switchTo hf2.takes
  rw [e]
  exact ⟨rfl, rfl, h3.sealBlock (ht3 _ _ hf2.takes).lt⟩

/-! ## operations -/

theorem AtWork.param (h : b.AtWork cur) {i : Nat} {v : Int} (hv : b.params[i]? = some v) :
    b.param i = (b, v) := by
  refine Builder.attempt_eq h.state h.healthy ?_ h.healthy
  have hi : ¬ ((i : Int) < 0) := by omega
  simp only [hi, if_false, Int.toNat_natCast, hv]

theorem AtWork.attempt_eq (h : b.AtWork cur) {b' : Builder}
    {step : Builder → Builder × Except Fault Unit} (hs : step b = (b', .ok ())) (hb' : b'.Healthy) :
    (b.attempt () step).1 = b' := by
  rw [Builder.attempt_eq h.state h.healthy hs hb']

theorem AtWork.makeScratch (h : b.AtWork cur) (hs : b.scratch = none) {size : Int} (h0 : 0 < size) :
    ∃ d, b.makeScratch size = { b with
        draft := d
        scratch := some { slot := b.draft.body.fn.slots.size, capacity := Int32.ofInt size } } ∧
      b.draft.Ahead cur d ∧ d.body.fn.slots[b.draft.body.fn.slots.size]? = some ⟨size, 16⟩ := by
  have halign : Body.slotAligns.contains 16 = true := by decide
  obtain ⟨h1, hr1, hslot⟩ := h.isOpen.createSlot h0 halign (by decide)
  cases e1 : b.draft.createSlot size 16 with
  | mk d slot =>
  rw [e1] at h1 hr1 hslot
  simp only at h1 hr1 hslot
  subst hr1
  refine ⟨d, ?_, h1, hslot⟩
  have hfree : ¬ (b.scratch.isSome = true) := by
    rw [hs]
    exact nofun
  refine h.attempt_eq ?_ ⟨h.fault, h1.isOpen.fault⟩
  simp only [if_neg hfree, if_neg (Int.not_le.mpr h0), e1, h1.isOpen.fault, Option.isSome_none,
    Bool.false_eq_true, if_false]

theorem AtWork.storeSlot (h : b.AtWork cur) {name : String} {t u : Ty} {c : SlotCategory} {v : Int}
    (hv : b.draft.Has [v] [u]) {s s' : Scratch} {n : NamedSlot} (hs : b.scratch = some s)
    (ha : s.allocate name t c = .ok (s', n)) {k : Nat} {r : Slot} (hk : s'.slot = k)
    (hr : b.draft.body.fn.slots[k]? = some r) (h0 : 0 ≤ n.offset.toInt)
    (hin : n.offset.toInt + u.bytes ≤ r.size) :
    ∃ d, b.storeSlot name t c v = ({ b with draft := d, scratch := some s' }, .ok ()) ∧
      b.draft.Ahead cur d := by
  have h1 := h.isOpen.stackStore hv hr h0 hin
  cases e1 : b.draft.stackStore v k n.offset with
  | mk d x =>
  rw [e1] at h1
  refine ⟨d, ?_, h1⟩
  simp only [Builder.storeSlot, allocate, hs, ha, bind, Except.bind, pure, Except.pure, hk, e1]

theorem AtWork.storeValue (h : b.AtWork cur) {name : String} {v : Int} {t : Ty}
    (ht : t.isValid = true) (hv : b.draft.Has [v] [t]) {s s' : Scratch} {n : NamedSlot}
    (hs : b.scratch = some s) (ha : s.allocate name t .value = .ok (s', n)) {k : Nat} {r : Slot}
    (hk : s'.slot = k) (hr : b.draft.body.fn.slots[k]? = some r) (h0 : 0 ≤ n.offset.toInt)
    (hin : n.offset.toInt + t.bytes ≤ r.size) :
    ∃ d, b.storeValue name v = { b with draft := d, scratch := some s' } ∧ b.draft.Ahead cur d := by
  obtain ⟨d, e, h1⟩ := h.storeSlot hv hs ha hk hr h0 hin
  refine ⟨d, ?_, h1⟩
  obtain ⟨x, rfl, hx⟩ := Draft.Has.one_iff.mp hv
  have hty : b.draft.typeOf x = t := Func.typeOf_eq hx
  refine h.attempt_eq ?_ ⟨h.fault, h1.isOpen.fault⟩
  simp only [hty, ht, Bool.not_true, Bool.false_eq_true, if_false, e]

theorem AtWork.storeRef (h : b.AtWork cur) {name : String} {t : Ty} (ht : t.isValid = true)
    {s s' : Scratch} {n : NamedSlot} (hs : b.scratch = some s)
    (ha : s.allocate name t .ref = .ok (s', n)) (hn : s'.Holds n b.draft.body.fn) {p : Int}
    (hp : b.draft.Has [p] [.pointer]) :
    ∃ d, b.storeRef name p t = { b with draft := d, scratch := some s' } ∧ b.draft.Ahead cur d := by
  obtain ⟨k, r, hk, hr, h0, hin⟩ := hn
  obtain ⟨d, e, h1⟩ := h.storeSlot hp hs ha hk hr h0 hin
  refine ⟨d, ?_, h1⟩
  obtain ⟨v, rfl, hv⟩ := Draft.Has.one_iff.mp hp
  have hty : b.draft.typeOf v = .pointer := Func.typeOf_eq hv
  refine h.attempt_eq ?_ ⟨h.fault, h1.isOpen.fault⟩
  simp only [hty, ne_eq, not_true_eq_false, if_false, ht, Bool.not_true, Bool.false_eq_true, e]

theorem AtWork.loadElement (h : b.AtWork cur) {name : String} (index : Int64) {s : Scratch}
    {n : NamedSlot} (hs : b.scratch = some s) (hl : s.lookup name .ref = .ok n)
    (hn : s.Holds n b.draft.body.fn) (ht : n.ty.isValid = true) :
    b.Yields cur (b.loadElement name index) n.ty := by
  obtain ⟨k, r, hk, hr, h0, hin⟩ := hn
  obtain ⟨h1, hr1⟩ := h.isOpen.stackLoad (t := .pointer) rfl hr h0 hin
  cases e1 : b.draft.stackLoad .pointer k n.offset with
  | mk d1 p =>
  rw [e1] at h1 hr1
  simp only at h1 hr1
  obtain ⟨h2, hr2⟩ := h1.isOpen.load ht hr1 (elementOffset index n.ty)
  cases e2 : d1.load n.ty p (elementOffset index n.ty) with
  | mk d2 v =>
  rw [e2] at h2 hr2
  simp only at h2 hr2
  refine ⟨d2, v, ?_, h1.trans h2, hr2⟩
  refine Builder.attempt_eq h.state h.healthy ?_ ⟨h.fault, h2.isOpen.fault⟩
  simp only [loadRef, lookupSlot, hs, hl, bind, Except.bind, pure, Except.pure, hk, e1, e2]

/-! ## the end -/

/-- **The function of a builder is handed out.** -/
theorem AtWork.finalize (h : b.AtWork cur) (hm : b.Made) {results : List Int}
    (hr : b.draft.Has results b.draft.body.fn.sig.returns) {ps : List ValueNo} {ss : List Step}
    (he : b.draft.body.fn.code[0]? = some (ps, ss))
    (ht : b.draft.body.fn.HasTypes ps b.draft.body.fn.sig.params)
    (hl : ∀ (n : Nat) p, b.draft.body.fn.code[n]? = some p → n ≠ cur → Leaves p.2) :
    ∃ b' f, b.finalize results = (b', .ok f) ∧ b'.fault = none := by
  obtain ⟨hS, hC⟩ : b.draft.body.Sound ∧ b.draft.body.Counted := by
    obtain ⟨name, sig, hx⟩ := hm
    exact hx.holds Body.kept_counted (Draft.counted_new name sig) h.isOpen.fault
  obtain ⟨entry, hentry, rfl, -⟩ := Func.block_of_code he
  obtain ⟨f, hf⟩ := h.isOpen.finish hS hC hr hentry ht fun n blk hb hn =>
    hl n _ (Func.code_of_block hb) hn
  refine ⟨{ b with state := .finalized, draft := (b.ended results).finish.1 }, f, ?_, h.fault⟩
  have hb : Healthy { b with state := .finalized } := ⟨h.fault, h.isOpen.fault⟩
  have hfin : (b.ended results).finish = ((b.ended results).finish.1, .ok f) := Prod.ext rfl hf
  have hfault := h.fault
  unfold Builder.finalize
  rw [if_pos h.state, hb.sync]
  simp only [hfault]
  rw [show ((b.draft.ret results).1.sealAll.1).finish = _ from hfin]

end Builder

end TreeJit.Emit
