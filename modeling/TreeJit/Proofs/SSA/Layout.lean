import Mathlib.Data.Nat.Bitwise
import TreeJit.Proofs.SSA.WellFormed
import TreeJit.SSA.Frame

/-!
# The frame in exact arithmetic

Frame offsets are 32-bit words and wrap.  `Func.layout` is the same layout in exact arithmetic, and
the frame is that layout with every offset taken modulo `2 ^ 32` (`Func.WellFormed.frame_eq`).  The
parts of the exact layout never meet:

* `Func.home_apart`     two homes;
* `Func.home_le`        homes lie in front of the slots;
* `Func.slot_within`    slots lie between the homes and the transfer area;
* `Func.args_le`        the transfer area has room for the arguments of every branch.
-/

namespace TreeJit.SSA

/-! ## rounding up -/

def roundUp (n a : Nat) : Nat := (n + a - 1) / a * a

theorem le_roundUp (n : Nat) {a : Nat} (ha : 0 < a) : n ≤ roundUp n a := by
  unfold roundUp
  have h := Nat.div_add_mod (n + a - 1) a
  have hm := Nat.mod_lt (n + a - 1) ha
  rw [Nat.mul_comm] at h
  omega

theorem roundUp_mod (n a : Nat) : roundUp n a % a = 0 := Nat.mul_mod_left _ a

theorem and_high_bits {x k : Nat} (hx : x < 2 ^ 32) (hk : k < 32) :
    x &&& (2 ^ 32 - 2 ^ k) = x / 2 ^ k * 2 ^ k := by
  have hpos : 0 < 2 ^ k := Nat.two_pow_pos k
  have hlt : 2 ^ k - 1 < 2 ^ 32 := by
    have := Nat.pow_lt_pow_right (a := 2) (by omega) hk
    omega
  have e : 2 ^ 32 - 2 ^ k = 2 ^ 32 - (2 ^ k - 1 + 1) := by omega
  apply Nat.eq_of_testBit_eq
  intro i
  rw [e, Nat.testBit_and, Nat.testBit_two_pow_sub_succ hlt, Nat.testBit_two_pow_sub_one,
    Nat.testBit_mul_two_pow, Nat.testBit_div_two_pow]
  by_cases hi : k ≤ i
  · by_cases hi' : i < 32
    · simp [hi, hi', Nat.sub_add_cancel hi, Nat.not_lt.mpr hi]
    · have hf : x.testBit i = false :=
        Nat.testBit_lt_two_pow (Nat.lt_of_lt_of_le hx (Nat.pow_le_pow_right (by omega) (by omega)))
      simp [hi, Nat.sub_add_cancel hi, hf]
  · simp [hi, Nat.not_le.mp hi]

/-- rounding in 32 bits is rounding modulo `2 ^ 32` -/
theorem alignUp_ofNat (n : Nat) {k : Nat} (hk : k < 32) :
    alignUp (Int32.ofNat n) (Int32.ofNat (2 ^ k)) = Int32.ofNat (roundUp n (2 ^ k)) := by
  have hpos : 0 < 2 ^ k := Nat.two_pow_pos k
  have hpow : 2 ^ k < 2 ^ 32 := Nat.pow_lt_pow_right (by omega) hk
  have emask : (~~~(Int32.ofNat (2 ^ k) - 1)).toBitVec = BitVec.ofNat 32 (2 ^ 32 - 2 ^ k) := by
    apply BitVec.eq_of_toNat_eq
    rw [Int32.toBitVec_not, Int32.toBitVec_sub, BitVec.toNat_not, BitVec.toNat_sub,
      Int32.toBitVec_ofNat', BitVec.toNat_ofNat, BitVec.toNat_ofNat]
    have e1 : (Int32.toBitVec 1).toNat = 1 := rfl
    rw [e1]
    omega
  have esum : (Int32.ofNat n + Int32.ofNat (2 ^ k) - 1).toBitVec =
      BitVec.ofNat 32 (n + 2 ^ k - 1) := by
    apply BitVec.eq_of_toNat_eq
    rw [Int32.toBitVec_sub, Int32.toBitVec_add, BitVec.toNat_sub, BitVec.toNat_add,
      Int32.toBitVec_ofNat', Int32.toBitVec_ofNat', BitVec.toNat_ofNat, BitVec.toNat_ofNat,
      BitVec.toNat_ofNat]
    have e1 : (Int32.toBitVec 1).toNat = 1 := rfl
    rw [e1]
    omega
  -- `2 ^ k` divides `2 ^ 32`, so the low bits can be cleared before or after the reduction
  have hsplit : 2 ^ 32 = 2 ^ k * 2 ^ (32 - k) := by
    rw [← Nat.pow_add, Nat.add_sub_cancel' (by omega)]
  have hclear : (n + 2 ^ k - 1) % 2 ^ 32 / 2 ^ k * 2 ^ k = roundUp n (2 ^ k) % 2 ^ 32 := by
    rw [hsplit, Nat.mod_mul_right_div_self, roundUp, Nat.mul_comm (2 ^ k) (2 ^ (32 - k)),
      Nat.mul_mod_mul_right]
  apply Int32.toBitVec_inj.mp
  apply BitVec.eq_of_toNat_eq
  unfold alignUp
  rw [Int32.toBitVec_and, emask, esum, BitVec.toNat_and, BitVec.toNat_ofNat, BitVec.toNat_ofNat,
    Nat.mod_eq_of_lt (show 2 ^ 32 - 2 ^ k < 2 ^ 32 by omega),
    and_high_bits (Nat.mod_lt _ (by omega)) hk, hclear, Int32.toBitVec_ofNat', BitVec.toNat_ofNat]

theorem ofNat_add_ofNat (m n : Nat) : Int32.ofNat m + Int32.ofNat n = Int32.ofNat (m + n) :=
  (Int32.ofNat_add m n).symm

/-! ## the exact layout -/

def homeSize (t : Ty) : Nat := if t.isVector then 16 else 8

theorem homeSize_pos (t : Ty) : 0 < homeSize t ∧ homeSize t ≤ 16 := by
  unfold homeSize
  split <;> omega

def exactValues : Nat → List Ty → List Nat × Nat
  | off, [] => ([], off)
  | off, t :: ts =>
    let here := if t.isVector then roundUp off 16 else off
    let (rest, after) := exactValues (here + homeSize t) ts
    (here :: rest, after)

def exactSlots : Nat → List Slot → List Nat × Nat
  | off, [] => ([], off)
  | off, s :: ss =>
    let here := roundUp off (if s.align = 16 then 16 else 8)
    let (rest, after) := exactSlots (here + roundUp s.size.toNat 8) ss
    (here :: rest, after)

structure Layout where
  homes : List Nat
  /-- the end of the homes -/
  mid : Nat
  slots : List Nat
  /-- the end of the slots -/
  stop : Nat
  transfer : Nat
  size : Nat

def Func.layout (f : Func) : Layout :=
  let vs := exactValues 0 f.values.toList
  let ss := exactSlots vs.2 f.slots.toList
  let transfer := roundUp ss.2 16
  { homes := vs.1, mid := vs.2, slots := ss.1, stop := ss.2, transfer,
    size := roundUp (transfer + 16 * f.maxBranchArgs) 16 }

def Func.layoutFrom (f : Func) (base : Nat) : Layout :=
  let vs := exactValues base f.values.toList
  let ss := exactSlots vs.2 f.slots.toList
  let transfer := roundUp ss.2 16
  { homes := vs.1, mid := vs.2, slots := ss.1, stop := ss.2, transfer,
    size := roundUp (transfer + 16 * f.maxBranchArgs) 16 }

def Layout.home (L : Layout) (v : ValueNo) : Nat := L.homes.getD v 0

def Layout.slot (L : Layout) (s : Nat) : Nat := L.slots.getD s 0

theorem le_exactValues (off : Nat) (ts : List Ty) : off ≤ (exactValues off ts).2 := by
  induction ts generalizing off with
  | nil => exact Nat.le_refl off
  | cons t ts ih =>
    have h := ih ((if t.isVector then roundUp off 16 else off) + homeSize t)
    have hr := le_roundUp off (show 0 < 16 by omega)
    show off ≤ (exactValues _ ts).2
    split at h
    · rename_i ht
      rw [if_pos ht]
      omega
    · rename_i ht
      rw [if_neg ht]
      omega

theorem le_exactSlots (off : Nat) (ss : List Slot) : off ≤ (exactSlots off ss).2 := by
  induction ss generalizing off with
  | nil => exact Nat.le_refl off
  | cons s ss ih =>
    have h := ih (roundUp off (if s.align = 16 then 16 else 8) + roundUp s.size.toNat 8)
    have hr := le_roundUp off (show 0 < (if s.align = 16 then 16 else 8) by split <;> omega)
    show off ≤ (exactSlots _ ss).2
    omega

theorem le_here (off : Nat) (t : Ty) : off ≤ if t.isVector then roundUp off 16 else off := by
  split
  · exact le_roundUp off (by omega)
  · exact Nat.le_refl off

theorem le_of_mem_exactValues {off : Nat} {ts : List Ty} {h : Nat}
    (hm : h ∈ (exactValues off ts).1) : off ≤ h := by
  induction ts generalizing off with
  | nil => cases hm
  | cons t ts ih =>
    have hhere := le_here off t
    rcases List.mem_cons.mp hm with rfl | hm
    · exact hhere
    · have := ih hm
      omega

theorem exactValues_home {off : Nat} {ts : List Ty} {i : Nat} {h : Nat} {t : Ty}
    (hi : (exactValues off ts).1[i]? = some h) (ht : ts[i]? = some t) :
    h + homeSize t ≤ (exactValues off ts).2 ∧
      ∀ (j k : Nat), i < j → (exactValues off ts).1[j]? = some k → h + homeSize t ≤ k := by
  induction ts generalizing off i with
  | nil => cases ht
  | cons u ts ih =>
    cases i with
    | zero =>
      cases ht
      cases hi
      refine ⟨le_exactValues _ ts, ?_⟩
      intro j k hj hk
      cases j with
      | zero => omega
      | succ j => exact le_of_mem_exactValues (List.mem_of_getElem? hk)
    | succ i =>
      obtain ⟨h1, h2⟩ := ih hi ht
      refine ⟨h1, ?_⟩
      intro j k hj hk
      cases j with
      | zero => omega
      | succ j => exact h2 j k (by omega) hk

theorem le_of_mem_exactSlots {off : Nat} {ss : List Slot} {h : Nat}
    (hm : h ∈ (exactSlots off ss).1) : off ≤ h := by
  induction ss generalizing off with
  | nil => cases hm
  | cons s ss ih =>
    have hr := le_roundUp off (show 0 < (if s.align = 16 then 16 else 8) by split <;> omega)
    rcases List.mem_cons.mp hm with rfl | hm
    · exact hr
    · have := ih hm
      omega

theorem exactSlots_slot {off : Nat} {ss : List Slot} {i : Nat} {h : Nat} {s : Slot}
    (hi : (exactSlots off ss).1[i]? = some h) (hs : ss[i]? = some s) :
    off ≤ h ∧ h + s.size.toNat ≤ (exactSlots off ss).2 ∧
      ∀ (j k : Nat), i < j → (exactSlots off ss).1[j]? = some k → h + s.size.toNat ≤ k := by
  induction ss generalizing off i with
  | nil => cases hs
  | cons u ss ih =>
    have hr := le_roundUp off (show 0 < (if u.align = 16 then 16 else 8) by split <;> omega)
    have hend := le_exactSlots
      (roundUp off (if u.align = 16 then 16 else 8) + roundUp u.size.toNat 8) ss
    have hsize := le_roundUp u.size.toNat (show 0 < 8 by omega)
    cases i with
    | zero =>
      cases hs
      cases hi
      refine ⟨hr, ?_, ?_⟩
      · show _ ≤ (exactSlots _ ss).2
        omega
      · intro j k hj hk
        cases j with
        | zero => omega
        | succ j =>
          have hk' : _ + roundUp s.size.toNat 8 ≤ k :=
            le_of_mem_exactSlots (List.mem_of_getElem? hk)
          omega
    | succ i =>
      obtain ⟨h1, h2, h3⟩ := ih hi hs
      refine ⟨by omega, h2, ?_⟩
      intro j k hj hk
      cases j with
      | zero => omega
      | succ j => exact h3 j k (by omega) hk

theorem length_exactValues (off : Nat) (ts : List Ty) :
    (exactValues off ts).1.length = ts.length := by
  induction ts generalizing off with
  | nil => rfl
  | cons t ts ih => exact congrArg (· + 1) (ih _)

theorem length_exactSlots (off : Nat) (ss : List Slot) :
    (exactSlots off ss).1.length = ss.length := by
  induction ss generalizing off with
  | nil => rfl
  | cons s ss ih => exact congrArg (· + 1) (ih _)

/-! ## frames modulo `2 ^ 32` -/

theorem placeValues_ofNat (off : Nat) (ts : List Ty) :
    placeValues (Int32.ofNat off) ts =
      ((exactValues off ts).1.map Int32.ofNat, Int32.ofNat (exactValues off ts).2) := by
  induction ts generalizing off with
  | nil => rfl
  | cons t ts ih =>
    have hhome : homeOf t (Int32.ofNat off) =
        Int32.ofNat (if t.isVector then roundUp off 16 else off) := by
      unfold homeOf
      split
      · exact alignUp_ofNat off (k := 4) (by omega)
      · rfl
    have hbytes : homeBytes t = Int32.ofNat (homeSize t) := by
      unfold homeBytes homeSize
      split <;> rfl
    simp only [placeValues]
    rw [hhome, hbytes, ofNat_add_ofNat, ih]
    rfl

theorem placeSlots_ofNat {ss : List Slot} (off : Nat)
    (hs : ∀ s ∈ ss, 0 < s.size ∧ s.align ∈ Body.slotAligns) :
    placeSlots (Int32.ofNat off) ss =
      ((exactSlots off ss).1.map Int32.ofNat, Int32.ofNat (exactSlots off ss).2) := by
  induction ss generalizing off with
  | nil => rfl
  | cons s ss ih =>
    obtain ⟨hpos, halign⟩ := hs s List.mem_cons_self
    let a := if s.align = 16 then 16 else 8
    have ealign : slotAlign s = Int32.ofNat a := by
      simp only [Body.slotAligns, List.mem_cons, List.not_mem_nil, or_false] at halign
      unfold slotAlign
      rcases halign with e | e | e | e | e <;> simp only [a, e] <;> rfl
    have ehere : alignUp (Int32.ofNat off) (slotAlign s) = Int32.ofNat (roundUp off a) := by
      rw [ealign]
      by_cases h16 : s.align = 16
      · simp only [a, if_pos h16]
        exact alignUp_ofNat off (k := 4) (by omega)
      · simp only [a, if_neg h16]
        exact alignUp_ofNat off (k := 3) (by omega)
    have esize : alignUp (Int32.ofInt s.size) 8 = Int32.ofNat (roundUp s.size.toNat 8) := by
      have e : Int32.ofInt s.size = Int32.ofNat s.size.toNat := by
        rw [← Int32.ofInt_eq_ofNat, Int.toNat_of_nonneg (by omega)]
      rw [e]
      exact alignUp_ofNat _ (k := 3) (by omega)
    simp only [placeSlots]
    rw [ehere, esize, ofNat_add_ofNat, ih _ (fun s hm => hs s (List.mem_cons_of_mem _ hm))]
    rfl

namespace Func
variable {f : Func}

theorem layoutFrom_base (f : Func) (base : Nat) : base ≤ (f.layoutFrom base).mid :=
  le_exactValues _ _

theorem layoutFrom_mid (f : Func) (base : Nat) :
    (f.layoutFrom base).mid ≤ (f.layoutFrom base).stop := le_exactSlots _ _

theorem layoutFrom_stop (f : Func) (base : Nat) :
    (f.layoutFrom base).stop ≤ (f.layoutFrom base).transfer := le_roundUp _ (by omega)

theorem layoutFrom_transfer (f : Func) (base : Nat) :
    (f.layoutFrom base).transfer + 16 * f.maxBranchArgs ≤ (f.layoutFrom base).size :=
  le_roundUp _ (by omega)

theorem layoutFrom_size_mod (f : Func) (base : Nat) : (f.layoutFrom base).size % 16 = 0 :=
  roundUp_mod _ 16

theorem layout_mid (f : Func) : f.layout.mid ≤ f.layout.stop := f.layoutFrom_mid 0

theorem layout_stop (f : Func) : f.layout.stop ≤ f.layout.transfer := f.layoutFrom_stop 0

theorem layout_transfer (f : Func) :
    f.layout.transfer + 16 * f.maxBranchArgs ≤ f.layout.size := f.layoutFrom_transfer 0

theorem layout_size_mod (f : Func) : f.layout.size % 16 = 0 := f.layoutFrom_size_mod 0

/-- the exact size of the frame is a 32-bit offset -/
def Fits (f : Func) : Prop := f.layout.size < 2 ^ 31

/-- **A frame is its exact layout, every offset taken modulo `2 ^ 32`.** -/
theorem WellFormed.frameFrom_eq (hw : f.WellFormed) (base : Nat) : f.frame (Int32.ofNat base) =
    { values := ((f.layoutFrom base).homes.map Int32.ofNat).toArray
      slots := ((f.layoutFrom base).slots.map Int32.ofNat).toArray
      transfer := Int32.ofNat (f.layoutFrom base).transfer
      size := Int32.ofNat (f.layoutFrom base).size } := by
  have hv : placeValues (Int32.ofNat base) f.values.toList =
      ((f.layoutFrom base).homes.map Int32.ofNat, Int32.ofNat (f.layoutFrom base).mid) :=
    placeValues_ofNat base _
  have hsl : placeSlots (Int32.ofNat (f.layoutFrom base).mid) f.slots.toList =
      ((f.layoutFrom base).slots.map Int32.ofNat, Int32.ofNat (f.layoutFrom base).stop) :=
    placeSlots_ofNat _ hw.slots
  have ht : alignUp (Int32.ofNat (f.layoutFrom base).stop) 16 =
      Int32.ofNat (f.layoutFrom base).transfer :=
    alignUp_ofNat _ (k := 4) (by omega)
  have hm : Int32.ofNat f.maxBranchArgs * 16 = Int32.ofNat (16 * f.maxBranchArgs) := by
    rw [Nat.mul_comm, Int32.ofNat_mul]
    rfl
  have hz : alignUp (Int32.ofNat ((f.layoutFrom base).transfer + 16 * f.maxBranchArgs)) 16 =
      Int32.ofNat (f.layoutFrom base).size :=
    alignUp_ofNat _ (k := 4) (by omega)
  unfold Func.frame
  simp only [hv, hsl, ht, hm, ofNat_add_ofNat, hz]

theorem WellFormed.frame_eq (hw : f.WellFormed) : f.frame 0 =
    { values := (f.layout.homes.map Int32.ofNat).toArray
      slots := (f.layout.slots.map Int32.ofNat).toArray
      transfer := Int32.ofNat f.layout.transfer
      size := Int32.ofNat f.layout.size } :=
  hw.frameFrom_eq 0

section
variable (hw : f.WellFormed)
include hw

theorem WellFormed.home_eq {v : ValueNo} (hv : v < f.values.size) :
    (f.frame 0).home v = Int32.ofNat (f.layout.home v) := by
  have hl : v < f.layout.homes.length := by
    show v < (exactValues 0 f.values.toList).1.length
    rw [length_exactValues]
    exact hv
  rw [hw.frame_eq, Frame.home, Layout.home]
  simp [Array.getD_eq_getD_getElem?, List.getD_eq_getElem?_getD, hl]

theorem WellFormed.slot_eq {s : Nat} (hs : s < f.slots.size) :
    (f.frame 0).slot s = Int32.ofNat (f.layout.slot s) := by
  have hl : s < f.layout.slots.length := by
    show s < (exactSlots _ f.slots.toList).1.length
    rw [length_exactSlots]
    exact hs
  rw [hw.frame_eq, Frame.slot, Layout.slot]
  simp [Array.getD_eq_getD_getElem?, List.getD_eq_getElem?_getD, hl]

theorem WellFormed.staged_eq (i : Nat) :
    (f.frame 0).staged i = Int32.ofNat (f.layout.transfer + 16 * i) := by
  have e : Int32.ofNat i * 16 = Int32.ofNat (16 * i) := by
    rw [Nat.mul_comm, Int32.ofNat_mul]
    rfl
  rw [hw.frame_eq, Frame.staged, e, ofNat_add_ofNat]

theorem WellFormed.size_eq : (f.frame 0).size = Int32.ofNat f.layout.size := by
  rw [hw.frame_eq]

end

theorem homes_get {v : ValueNo} (hv : v < f.values.size) (base : Nat) :
    (f.layoutFrom base).homes[v]? = some ((f.layoutFrom base).home v) := by
  have hl : v < (f.layoutFrom base).homes.length := by
    show v < (exactValues base f.values.toList).1.length
    rw [length_exactValues]
    exact hv
  rw [Layout.home, List.getD_eq_getElem?_getD, List.getElem?_eq_getElem hl, Option.getD_some]

theorem slots_get {s : Nat} (hs : s < f.slots.size) (base : Nat) :
    (f.layoutFrom base).slots[s]? = some ((f.layoutFrom base).slot s) := by
  have hl : s < (f.layoutFrom base).slots.length := by
    show s < (exactSlots _ f.slots.toList).1.length
    rw [length_exactSlots]
    exact hs
  rw [Layout.slot, List.getD_eq_getElem?_getD, List.getElem?_eq_getElem hl, Option.getD_some]

theorem values_get {v : ValueNo} {t : Ty} (hv : f.values[v]? = some t) :
    f.values.toList[v]? = some t := by simpa using hv

theorem lt_of_values {v : ValueNo} {t : Ty} (hv : f.values[v]? = some t) : v < f.values.size :=
  (Array.getElem?_eq_some_iff.mp hv).1

section
variable (base : Nat)

theorem homeFrom_within {v : ValueNo} {t : Ty} (hv : f.values[v]? = some t) :
    base ≤ (f.layoutFrom base).home v ∧
      (f.layoutFrom base).home v + homeSize t ≤ (f.layoutFrom base).mid := by
  have hg := homes_get (lt_of_values hv) base
  exact ⟨le_of_mem_exactValues (List.mem_of_getElem? hg), (exactValues_home hg (values_get hv)).1⟩

theorem homeFrom_apart {u v : ValueNo} {s t : Ty} (hu : f.values[u]? = some s)
    (hv : f.values[v]? = some t) (hne : u ≠ v) :
    (f.layoutFrom base).home u + homeSize s ≤ (f.layoutFrom base).home v ∨
      (f.layoutFrom base).home v + homeSize t ≤ (f.layoutFrom base).home u := by
  have gu := homes_get (lt_of_values hu) base
  have gv := homes_get (lt_of_values hv) base
  rcases Nat.lt_or_gt_of_ne hne with hlt | hgt
  · exact .inl ((exactValues_home gu (values_get hu)).2 v _ hlt gv)
  · exact .inr ((exactValues_home gv (values_get hv)).2 u _ hgt gu)

theorem slotFrom_within {s : Nat} {d : Slot} (hs : f.slots[s]? = some d) :
    (f.layoutFrom base).mid ≤ (f.layoutFrom base).slot s ∧
      (f.layoutFrom base).slot s + d.size.toNat ≤ (f.layoutFrom base).stop := by
  have h := exactSlots_slot (slots_get (Array.getElem?_eq_some_iff.mp hs).1 base)
    (show f.slots.toList[s]? = some d by simpa using hs)
  exact ⟨h.1, h.2.1⟩

theorem slotFrom_apart {r s : Nat} {c d : Slot} (hr : f.slots[r]? = some c)
    (hs : f.slots[s]? = some d) (hne : r ≠ s) :
    (f.layoutFrom base).slot r + c.size.toNat ≤ (f.layoutFrom base).slot s ∨
      (f.layoutFrom base).slot s + d.size.toNat ≤ (f.layoutFrom base).slot r := by
  have gr := slots_get (Array.getElem?_eq_some_iff.mp hr).1 base
  have gs := slots_get (Array.getElem?_eq_some_iff.mp hs).1 base
  rcases Nat.lt_or_gt_of_ne hne with hlt | hgt
  · exact .inl ((exactSlots_slot gr (show f.slots.toList[r]? = some c by simpa using hr)).2.2
      s _ hlt gs)
  · exact .inr ((exactSlots_slot gs (show f.slots.toList[s]? = some d by simpa using hs)).2.2
      r _ hgt gr)

end

theorem home_le {v : ValueNo} {t : Ty} (hv : f.values[v]? = some t) :
    f.layout.home v + homeSize t ≤ f.layout.mid :=
  (homeFrom_within 0 hv).2

theorem home_apart {u v : ValueNo} {s t : Ty} (hu : f.values[u]? = some s)
    (hv : f.values[v]? = some t) (hne : u ≠ v) :
    f.layout.home u + homeSize s ≤ f.layout.home v ∨
      f.layout.home v + homeSize t ≤ f.layout.home u :=
  homeFrom_apart 0 hu hv hne

theorem slot_within {s : Nat} {d : Slot} (hs : f.slots[s]? = some d) :
    f.layout.mid ≤ f.layout.slot s ∧ f.layout.slot s + d.size.toNat ≤ f.layout.stop :=
  slotFrom_within 0 hs

/-! ## the transfer area -/

theorem le_foldl_max {α : Type} (g : α → Nat) (xs : List α) (m : Nat) :
    m ≤ xs.foldl (fun m x => max m (g x)) m ∧
      ∀ x ∈ xs, g x ≤ xs.foldl (fun m x => max m (g x)) m := by
  induction xs generalizing m with
  | nil => exact ⟨Nat.le_refl m, nofun⟩
  | cons x xs ih =>
    obtain ⟨h1, h2⟩ := ih (max m (g x))
    rw [List.foldl_cons]
    refine ⟨by omega, ?_⟩
    intro y hy
    rcases List.mem_cons.mp hy with rfl | hy
    · omega
    · exact h2 y hy

theorem le_foldl_steps (ss : List Step) (m : Nat) :
    m ≤ ss.foldl (fun m s => s.inst.targets.foldl (fun m t => max m t.args.length) m) m ∧
      ∀ s ∈ ss, ∀ t ∈ s.inst.targets, t.args.length ≤
        ss.foldl (fun m s => s.inst.targets.foldl (fun m t => max m t.args.length) m) m := by
  induction ss generalizing m with
  | nil => exact ⟨Nat.le_refl m, List.forall_mem_nil _⟩
  | cons s ss ih =>
    rw [List.foldl_cons]
    obtain ⟨h1, h2⟩ := ih (s.inst.targets.foldl (fun m t => max m t.args.length) m)
    obtain ⟨h3, h4⟩ := le_foldl_max (fun t : Target => t.args.length) s.inst.targets m
    refine ⟨Nat.le_trans h3 h1, ?_⟩
    intro s' hs' t ht
    rcases List.mem_cons.mp hs' with rfl | hs'
    · exact Nat.le_trans (h4 t ht) h1
    · exact h2 s' hs' t ht

/-- the transfer area has room for the arguments of every branch -/
theorem args_le {b : Nat} {blk : Block} {s : Step} {t : Target} (hb : f.blocks[b]? = some blk)
    (hs : s ∈ blk.steps.toList) (ht : t ∈ s.inst.targets) : t.args.length ≤ f.maxBranchArgs := by
  have hmem : s ∈ f.steps := by
    unfold Func.steps
    exact List.mem_flatMap.mpr ⟨blk, Array.mem_toList_iff.mpr (Array.mem_of_getElem? hb), hs⟩
  exact (le_foldl_steps f.steps 0).2 s hmem t ht

end Func

end TreeJit.SSA
