import TreeJit.Proofs.Emit.Reference
import TreeJit.Proofs.Emit.Session

/-!
# Elements behind references

An access to an element loads the pointer that was stored under the name and goes through it with the
offset of the element.  Offsets are words: the offset that is written is the index times the size of
an element, reduced to 32 bits (`toInt_elementOffset`).  It is the offset of the element that was asked
for if the product is a word (`elementOffset_exact_iff`); no index is refused, so an index beyond that
reaches another element.

* `Builder.ReachesElement`   what an access writes;
* `element_accesses`         all accesses of all builders.
-/

namespace TreeJit

open SSA

/-! ## offsets -/

namespace Emit.Builder

/-- **The offset of an element** is its index times its size, reduced to a word. -/
theorem toInt_elementOffset (index : Int64) (t : Ty) :
    (elementOffset index t).toInt = (index.toInt * t.bytes).bmod (2 ^ 32) := by
  have hsize : (Int64.ofNat t.bytes).toInt = t.bytes := by
    cases t <;> rfl
  rw [elementOffset, Int64.toInt_toInt32, Int64.toInt_mul, hsize,
    Int.bmod_bmod_of_dvd (Nat.pow_dvd_pow 2 (by omega))]

theorem elementOffset_exact_iff (index : Int64) (t : Ty) :
    (elementOffset index t).toInt = index.toInt * t.bytes ↔
      -2 ^ 31 ≤ index.toInt * t.bytes ∧ index.toInt * t.bytes < 2 ^ 31 := by
  rw [toInt_elementOffset]
  constructor
  · intro h
    have h1 := Int.le_bmod (x := index.toInt * t.bytes) (m := 2 ^ 32) (by omega)
    have h2 := Int.bmod_lt (x := index.toInt * t.bytes) (m := 2 ^ 32) (by omega)
    omega
  · rintro ⟨h1, h2⟩
    exact Int.bmod_eq_of_le (by omega) (by omega)

end Emit.Builder

/-! ## no index is refused -/

namespace SSA
namespace Body

theorem isOk_bind_congr {ε α β γ : Type} {x : Except ε α} {f : α → Except ε β} {g : α → Except ε γ}
    (h : ∀ a, (f a).isOk = (g a).isOk) : (x >>= f).isOk = (x >>= g).isOk := by
  cases x with
  | error e => rfl
  | ok a => exact h a

/-- whether an instruction can be written does not depend on which one it is -/
theorem isOk_emit (b : Body) (i j : Inst) (ts : List Ty) : (b.emit i ts).isOk = (b.emit j ts).isOk := by
  unfold emit
  split
  · rfl
  · split <;> rfl

theorem isOk_emit_bind (b : Body) {α : Type} (i j : Inst) (ts : List Ty)
    (f : Body × List ValueNo → α) :
    (b.emit i ts >>= fun r => (.ok (f r) : Except Fault α)).isOk =
      (b.emit j ts >>= fun r => (.ok (f r) : Except Fault α)).isOk := by
  have h := isOk_emit b i j ts
  cases h1 : b.emit i ts <;> cases h2 : b.emit j ts <;> rw [h1, h2] at h <;> cases h <;> rfl

end Body

namespace Draft
variable {d : Draft}

theorem healthy_attempt_congr {α : Type} {nothing : α} {op op' : Body → Except Fault (Body × α)}
    (h : (op d.body).isOk = (op' d.body).isOk) :
    (d.attempt nothing op).1.fault = none ↔ (d.attempt nothing op').1.fault = none := by
  unfold attempt
  split
  · rfl
  · cases h1 : op d.body with
    | error e =>
      cases h2 : op' d.body with
      | error e' => simp
      | ok r' =>
        rw [h1, h2] at h
        cases h
    | ok r =>
      cases h2 : op' d.body with
      | error e' =>
        rw [h1, h2] at h
        cases h
      | ok r' => simp

theorem healthy_load_congr (t : Ty) (p : Int) (off off' : Int32) :
    (d.load t p off).1.fault = none ↔ (d.load t p off').1.fault = none :=
  healthy_attempt_congr (Body.isOk_bind_congr fun _ => Body.isOk_bind_congr fun _ =>
    Body.isOk_emit_bind _ _ _ _ _)

theorem healthy_store_congr (x p : Int) (off off' : Int32) :
    (d.store x p off).1.fault = none ↔ (d.store x p off').1.fault = none :=
  healthy_attempt_congr (Body.isOk_bind_congr fun _ => Body.isOk_bind_congr fun _ =>
    Body.isOk_emit_bind _ _ _ _ _)

end Draft
end SSA

namespace Emit.Builder
variable {b : Builder}

theorem healthy_attempt_iff {α : Type} {nothing : α} {step : Builder → Builder × Except Fault α} :
    (b.attempt nothing step).1.Healthy ↔
      b.state = .building ∧ b.Healthy ∧ ∃ b' r, step b = (b', .ok r) ∧ b'.Healthy := by
  constructor
  · intro h
    obtain ⟨hb, b', r, hs, hb', -⟩ := attempt_sound h
    exact ⟨building_of_attempt h.fault, hb, b', r, hs, hb'⟩
  · rintro ⟨hst, hb, b', r, hs, hb'⟩
    rw [attempt_eq hst hb hs hb']
    exact hb'

/-- **No index is refused**, and none makes an access possible. -/
theorem healthy_loadElement_congr (key : String) (i j : Int64) :
    (b.loadElement key i).1.Healthy → (b.loadElement key j).1.Healthy := by
  intro h
  obtain ⟨hst, hb, b', r, hs, hb'⟩ := healthy_attempt_iff.mp h
  refine healthy_attempt_iff.mpr ⟨hst, hb, ?_⟩
  cases hr : b.loadRef key with
  | mk b1 q =>
    cases q with
    | error f => simp only [hr] at hs; cases hs
    | ok q =>
      simp only [hr] at hs ⊢
      obtain ⟨rfl, -⟩ := Prod.mk.inj hs
      exact ⟨_, _, rfl, hb'.fault, (Draft.healthy_load_congr ..).mp hb'.draft⟩

theorem healthy_storeElement_congr (key : String) (i j : Int64) (v : Int) :
    (b.storeElement key i v).Healthy → (b.storeElement key j v).Healthy := by
  intro h
  obtain ⟨hst, hb, b', r, hs, hb'⟩ := healthy_attempt_iff.mp h
  refine healthy_attempt_iff.mpr ⟨hst, hb, ?_⟩
  cases hr : b.loadRef key with
  | mk b1 q =>
    cases q with
    | error f => simp only [hr] at hs; cases hs
    | ok q =>
      simp only [hr] at hs ⊢
      split at hs
      · cases hs
      · rename_i hty
        obtain ⟨rfl, -⟩ := Prod.mk.inj hs
        simp only [if_neg hty]
        exact ⟨_, _, rfl, hb'.fault, (Draft.healthy_store_congr ..).mp hb'.draft⟩

/-! ## accesses -/

/-- What an access to the element `index` behind `key` writes: the pointer that is kept under the name
is loaded from its place in the frame slot, and the access goes through it with the type of the
elements.  Its offset is the index times their size, reduced to a word. -/
def ReachesElement (b b' : Builder) (key : String) (index : Int64)
    (access : Ty → ValueNo → Int32 → Step) : Prop :=
  ∃ (s : Scratch) (n : NamedSlot) (k : Nat) (off : Int32),
    b.scratch = some s ∧ s.lookup key .ref = .ok n ∧ s.slot = k ∧
    off.toInt = (index.toInt * n.ty.bytes).bmod (2 ^ 32) ∧
    (off.toInt = index.toInt * n.ty.bytes ↔
      -2 ^ 31 ≤ index.toInt * n.ty.bytes ∧ index.toInt * n.ty.bytes < 2 ^ 31) ∧
    b.draft.body.Writes b'.draft.body
      [⟨.stackLoad .pointer k n.offset, [b.draft.body.fn.values.size]⟩,
        access n.ty b.draft.body.fn.values.size off]

/-- **Accesses to elements.**  One that leaves no fault writes the load of the pointer and the access
through it, at the index times the size of an element as far as this is a word; which index it is
never makes a fault. -/
theorem element_accesses (id : Nat) (name : String) (sig : Signature) (ws : List (Scope × Work))
    (key : String) (index : Int64) :
    let b := (new id name sig).workAll ws
    ((b.loadElement key index).1.Healthy →
      b.ReachesElement (b.loadElement key index).1 key index (fun t p off => ⟨.load t p off, [p + 1]⟩) ∧
      (b.loadElement key index).2 = ((b.draft.body.fn.values.size + 1 : Nat) : Int) ∧
      ∀ other, (b.loadElement key other).1.Healthy) ∧
    ∀ v, (b.storeElement key index v).Healthy → ∃ x : ValueNo, v = x ∧
      b.ReachesElement (b.storeElement key index v) key index (fun t p off => ⟨.store t x p off, []⟩) ∧
      ∀ other, (b.storeElement key other v).Healthy := by
  intro b
  have hS : b.draft.Holds Body.Sound := (made_workAll id name sig ws).sound
  constructor
  · intro h
    obtain ⟨-, s, n, k, d, hs, hl, hk, -, e, hw, -⟩ := loadElement_sound hS h
    refine ⟨⟨s, n, k, _, hs, hl, hk, toInt_elementOffset .., elementOffset_exact_iff .., ?_⟩, ?_,
      fun other => healthy_loadElement_congr key index other h⟩
    · rw [e]
      exact hw
    · rw [e]
  · intro v h
    obtain ⟨-, s, n, k, x, d, hs, hl, hk, hx, -, e, hw⟩ := storeElement_sound hS h
    refine ⟨x, hx, ⟨s, n, k, _, hs, hl, hk, toInt_elementOffset .., elementOffset_exact_iff .., ?_⟩,
      fun other => healthy_storeElement_congr key index other v h⟩
    rw [e]
    exact hw

def wordsBuilder : Builder :=
  (new 0 "f" ⟨[.i64], [.i64]⟩).workAll [(.bare, .makeScratch 16), (.bare, .storeRef "r" 0 .i64)]

/-- the element `2 ^ 29` has the offset of the element 0 -/
theorem element_accesses_farIndex :
    (wordsBuilder.loadElement "r" 0x20000000).1.Healthy ∧
    (wordsBuilder.storeElement "r" 0x20000000 0).Healthy ∧
    wordsBuilder.ReachesElement (wordsBuilder.loadElement "r" 0x20000000).1 "r" 0x20000000
      (fun t p off => ⟨.load t p off, [p + 1]⟩) ∧
    wordsBuilder.ReachesElement (wordsBuilder.storeElement "r" 0x20000000 0) "r" 0x20000000
      (fun t p off => ⟨.store t 0 p off, []⟩) ∧
    elementOffset 0x20000000 .i64 = elementOffset 0 .i64 := by
  have h := element_accesses 0 "f" ⟨[.i64], [.i64]⟩
    [(.bare, .makeScratch 16), (.bare, .storeRef "r" 0 .i64)] "r" 0x20000000
  have hload : (wordsBuilder.loadElement "r" 0x20000000).1.Healthy := ⟨rfl, rfl⟩
  have hstore : (wordsBuilder.storeElement "r" 0x20000000 0).Healthy := ⟨rfl, rfl⟩
  obtain ⟨x, hx, hreach, -⟩ := h.2 0 hstore
  obtain rfl : x = 0 := (Int.ofNat.inj hx).symm
  exact ⟨hload, hstore, (h.1 hload).1, hreach, rfl⟩

end Emit.Builder

end TreeJit
