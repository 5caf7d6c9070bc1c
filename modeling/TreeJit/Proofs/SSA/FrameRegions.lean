import TreeJit.Proofs.SSA.FrameParts
import TreeJit.Proofs.Word.Memory

/-!
# The parts of a frame in memory

A frame that fits puts its parts apart: the bytes of two parts never meet, wherever the frame begins
(`Func.WellFormed.apart_parts`).  So an access to a slot keeps clear of the homes
(`Func.WellFormed.clear_slot`), and its address is that of the slot plus the offset, without wrapping
(`Func.WellFormed.slotAccess_eq`).
-/

namespace TreeJit.SSA

open Memory

theorem apart_offsets (a : UInt64) {h n k l : Nat} (hn : 0 < n) (hl : 0 < l) (hh : h + n < 2 ^ 32)
    (hk : k + l < 2 ^ 32) (h1 : h + n ≤ k ∨ k + l ≤ h) :
    Apart (a + UInt64.ofNat h) n (a + UInt64.ofNat k) l := by
  have key : ∀ {h n k l : Nat}, 0 < n → h + n ≤ k → k + l < 2 ^ 32 →
      Apart (a + UInt64.ofNat h) n (a + UInt64.ofNat k) l := by
    intro h n k l hn hle hk
    have e : a + UInt64.ofNat k = a + UInt64.ofNat h + UInt64.ofNat (k - h) := by
      rw [UInt64.add_assoc, ← UInt64.ofNat_add, Nat.add_sub_cancel' (by omega)]
    refine ⟨?_, ?_⟩
    · rw [e, dist_add _ _ (by omega)]
      omega
    · rw [dist_add_add (show h < k by omega) (by omega)]
      omega
  rcases h1 with h1 | h1
  · exact key hn h1 hk
  · exact (key hl h1 hh).symm

namespace Func

def partAt (f : Func) (base : UInt64) (p : Part) : UInt64 := addressOf base ((f.frame 0).start p)

def InHome (f : Func) (base x : UInt64) : Prop :=
  ∃ v < f.values.size, dist (f.partAt base (.home v)) x < f.partSize (.home v)

def ClearOfHomes (f : Func) (base a : UInt64) (n : Nat) : Prop :=
  ∀ v < f.values.size, Apart (f.partAt base (.home v)) (f.partSize (.home v)) a n

section
variable {f : Func} {base : UInt64}

theorem WellFormed.partAt_eq (hw : f.WellFormed) (hf : f.Fits) {p : Part} (hp : f.HasPart p) :
    f.partAt base p = base + UInt64.ofNat (f.layout.start p) := by
  have hle := (layoutFrom_within 0 hp).2
  have hlt : (f.layoutFrom 0).size < 2 ^ 31 := hf
  have e : (f.frame 0).start p = Int32.ofNat (f.layout.start p) := hw.start_eq 0 hp
  rw [partAt, e]
  by_cases h : f.layout.start p < 2 ^ 31
  · exact addressOf_ofNat base h
  · exact absurd (show f.layout.start p < 2 ^ 31 by
      have : f.layout.start p + f.partSize p ≤ (f.layoutFrom 0).size := hle
      omega) h

theorem WellFormed.apart_parts (hw : f.WellFormed) (hf : f.Fits)
    {p q : Part} (hp : f.HasPart p) (hq : f.HasPart q) (hne : p ≠ q) (h0 : 0 < f.partSize p)
    (h1 : 0 < f.partSize q) :
    Apart (f.partAt base p) (f.partSize p) (f.partAt base q) (f.partSize q) := by
  have hlp := (layoutFrom_within 0 hp).2
  have hlq := (layoutFrom_within 0 hq).2
  have hlt : (f.layoutFrom 0).size < 2 ^ 31 := hf
  rw [hw.partAt_eq hf hp, hw.partAt_eq hf hq]
  exact apart_offsets base h0 h1 (Nat.lt_of_le_of_lt hlp (by omega)) (Nat.lt_of_le_of_lt hlq (by omega))
    (layoutFrom_apart 0 hp hq hne)

/-! ## homes and slots -/

theorem ClearOfHomes.not_inHome {a : UInt64} {n i : Nat} (h : f.ClearOfHomes base a n) (hi : i < n) :
    ¬ f.InHome base (a + UInt64.ofNat i) := by
  rintro ⟨v, hv, hlt⟩
  exact absurd ((h v hv).le_dist hi) (Nat.not_le.mpr hlt)

theorem slotHolds_le {s n : Nat} {off : Int32} (h : f.SlotHolds s off n) :
    f.layout.mid ≤ f.layout.slot s + off.toInt.toNat ∧
      f.layout.slot s + off.toInt.toNat + n ≤ f.layout.transfer := by
  obtain ⟨d, hd, hoff, hsize⟩ := h
  obtain ⟨h1, h2⟩ := slot_within hd
  have h3 := f.layout_stop
  exact ⟨by omega, by omega⟩

theorem ofNat_of_nonneg {off : Int32} (h : 0 ≤ off.toInt) : off = Int32.ofNat off.toInt.toNat := by
  rw [← Int32.ofInt_eq_ofNat, Int.toNat_of_nonneg h, Int32.ofInt_toInt]

theorem WellFormed.slotAccess_place (hw : f.WellFormed) (hf : f.Fits) {s n : Nat} {off : Int32}
    (h : f.SlotHolds s off n) : addressOf base ((f.frame 0).slot s + off) =
      base + UInt64.ofNat (f.layout.slot s + off.toInt.toNat) := by
  obtain ⟨-, hle⟩ := slotHolds_le h
  have h1 := f.layout_transfer
  have h2 : f.layout.size < 2 ^ 31 := hf
  obtain ⟨d, hd, hoff, -⟩ := h
  rw [hw.slot_eq (Array.getElem?_eq_some_iff.mp hd).1]
  conv => lhs; rw [ofNat_of_nonneg hoff]
  rw [ofNat_add_ofNat, addressOf_ofNat _ (by omega)]

theorem WellFormed.slotAccess_eq (hw : f.WellFormed) (hf : f.Fits) {s n : Nat} {off : Int32}
    (h : f.SlotHolds s off n) :
    addressOf base ((f.frame 0).slot s + off) = addressOf (f.partAt base (.slot s)) off := by
  rw [hw.slotAccess_place hf h]
  have hlt := off.toInt_lt
  obtain ⟨d, hd, hoff, -⟩ := h
  have hs : f.HasPart (.slot s) := (Array.getElem?_eq_some_iff.mp hd).1
  rw [hw.partAt_eq hf hs]
  conv => rhs; rw [ofNat_of_nonneg hoff]
  rw [addressOf_ofNat _ (by omega), UInt64.add_assoc, ← UInt64.ofNat_add]
  rfl

theorem WellFormed.clear_slot (hw : f.WellFormed) (hf : f.Fits) {s n : Nat} {off : Int32}
    (h : f.SlotHolds s off n) (hn : 0 < n) :
    f.ClearOfHomes base (addressOf base ((f.frame 0).slot s + off)) n := by
  intro v hv
  obtain ⟨hmid, hle⟩ := slotHolds_le h
  have h1 := f.layout_transfer
  have h2 : f.layout.size < 2 ^ 31 := hf
  have hhome := home_le (typeOf_values hv)
  rw [hw.slotAccess_place hf h, hw.partAt_eq hf (p := .home v) hv]
  exact apart_offsets base (homeSize_pos _).1 hn (Nat.lt_of_le_of_lt hhome (by omega)) (by omega)
    (.inl (Nat.le_trans hhome hmid))

end

end Func

end TreeJit.SSA
