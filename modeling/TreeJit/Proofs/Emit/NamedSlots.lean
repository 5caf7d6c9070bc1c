import Mathlib.Data.List.Pairwise
import TreeJit.Emit.Scratch
import TreeJit.Proofs.SSA.Layout

/-!
# The slots of a scratch frame

A name takes the next free part of the scratch frame on its first use and keeps it.  The parts are
aligned to their width, lie one after the other and have no byte in common.

* `Scratch.Laid s size used`   the invariant: `used` of `size` bytes are handed out;
* `Laid.allocate`              handing out one more part keeps it.

The next offset is the word of `used`, which wraps in one case only: a frame slot beyond `2 ^ 31` bytes
whose first `2 ^ 31` bytes are all handed out.
-/

namespace TreeJit.Emit

open SSA

/-! ## one slot -/

namespace NamedSlot

/-- the type of what is kept: a reference is kept as a pointer -/
def held (n : NamedSlot) : Ty :=
  match n.category with
  | .value => n.ty
  | .ref => .pointer

def start (n : NamedSlot) : Int := n.offset.toInt

def stop (n : NamedSlot) : Int := n.offset.toInt + n.held.bytes

def Apart (n m : NamedSlot) : Prop := n.stop ≤ m.start ∨ m.stop ≤ n.start

instance : Std.Symm Apart := ⟨fun _ _ => Or.symm⟩

theorem width_eq (n : NamedSlot) : n.category.width n.ty = Int32.ofNat n.held.bytes := by
  unfold SlotCategory.width held
  cases n.category <;> rfl

theorem held_isValid {n : NamedSlot} (h : n.ty.isValid = true) : n.held.isValid = true := by
  unfold held
  cases n.category
  · exact h
  · rfl

end NamedSlot

theorem bytes_pow {t : Ty} (h : t.isValid = true) : ∃ k ≤ 4, t.bytes = 2 ^ k := by
  cases t with
  | i8 => exact ⟨0, by omega, rfl⟩
  | i16 => exact ⟨1, by omega, rfl⟩
  | i32 | f32 => exact ⟨2, by omega, rfl⟩
  | i64 | f64 => exact ⟨3, by omega, rfl⟩
  | f64x2 | i64x2 => exact ⟨4, by omega, rfl⟩
  | invalid => cases h

namespace Scratch
variable {s s' : Scratch} {key : String} {t : Ty} {c : SlotCategory} {n : NamedSlot}

/-! ## finding and making -/

theorem mem_of_find? (h : s.find? key = some n) : n ∈ s.slots := List.mem_of_find?_eq_some h

theorem name_of_find? (h : s.find? key = some n) : n.name = key := by
  have := List.find?_some h
  exact eq_of_beq this

theorem lookup_ok (h : s.lookup key c = .ok n) : s.find? key = some n ∧ n.category = c := by
  unfold lookup at h
  split at h
  · cases h
  · rename_i m hm
    split at h
    · rename_i hc
      cases h
      exact ⟨hm, hc⟩
    · cases h

/-- what handing out does: it finds the name, or the name is new and takes the next free part -/
theorem allocate_cases (h : s.allocate key t c = .ok (s', n)) :
    (s' = s ∧ s.find? key = some n ∧ n.category = c ∧ n.ty = t) ∨
    (s.find? key = none ∧
      n = { name := key, ty := t, category := c, offset := roundUp s.next (c.width t) } ∧
      s' = { s with next := n.offset + c.width t, slots := n :: s.slots }) := by
  unfold allocate at h
  split at h
  · rename_i m hm
    split at h
    · rename_i hu
      cases h
      exact .inl ⟨rfl, hm, hu.1, hu.2⟩
    · cases h
  · rename_i hm
    simp only at h
    split at h
    · cases h
    · cases h
      exact .inr ⟨hm, rfl, rfl⟩

theorem allocate_ok (h : s.allocate key t c = .ok (s', n)) :
    s'.find? key = some n ∧ n.category = c ∧ n.ty = t ∧ s'.slot = s.slot ∧ s'.capacity = s.capacity := by
  rcases allocate_cases h with ⟨rfl, hf, hc, ht⟩ | ⟨-, rfl, rfl⟩
  · exact ⟨hf, hc, ht, rfl, rfl⟩
  · refine ⟨?_, rfl, rfl, rfl, rfl⟩
    exact List.find?_cons_of_pos (beq_self_eq_true key)

theorem mem_allocate (h : s.allocate key t c = .ok (s', n)) {m : NamedSlot} (hm : m ∈ s.slots) :
    m ∈ s'.slots := by
  rcases allocate_cases h with ⟨rfl, -⟩ | ⟨-, -, rfl⟩
  · exact hm
  · exact List.mem_cons_of_mem _ hm

/-! ## the invariant -/

/-- the slots of a scratch frame in a frame slot of `size` bytes, of which `used` are handed out -/
structure Laid (s : Scratch) (size : Int) (used : Nat) : Prop where
  next : s.next = Int32.ofNat used
  used_le : (used : Int) ≤ size
  used_word : used ≤ 2 ^ 31
  valid : ∀ n ∈ s.slots, n.ty.isValid = true
  start : ∀ n ∈ s.slots, 0 ≤ n.start
  aligned : ∀ n ∈ s.slots, n.start % n.held.bytes = 0
  stop : ∀ n ∈ s.slots, n.stop ≤ used
  apart : s.slots.Pairwise NamedSlot.Apart

variable {size : Int} {used : Nat}

theorem laid_empty {slot : Int} {capacity : Int32} (h : 0 ≤ size) :
    ({ slot, capacity } : Scratch).Laid size 0 where
  next := rfl
  used_le := h
  used_word := by omega
  valid := nofun
  start := nofun
  aligned := nofun
  stop := nofun
  apart := .nil

/-- a new slot lies after all others, if it lies in the frame slot at all -/
theorem next_slot (hused : used ≤ 2 ^ 31) {w k : Nat} (hk : k ≤ 4) (hw : w = 2 ^ k) {off : Int32}
    (hoff : off = roundUp (Int32.ofNat used) (Int32.ofNat w)) (h0 : 0 ≤ off.toInt) :
    ∃ start : Nat, off.toInt = start ∧ used ≤ start ∧ start % w = 0 ∧ start + w ≤ 2 ^ 31 ∧
      off + Int32.ofNat w = Int32.ofNat (start + w) := by
  have hpos : 0 < w := by
    rw [hw]
    exact Nat.two_pow_pos k
  have h16 : w ≤ 16 := by
    have := Nat.pow_le_pow_right (show 2 > 0 by omega) hk
    omega
  have hround : off = Int32.ofNat (SSA.roundUp used w) := by
    rw [hoff, hw]
    exact SSA.alignUp_ofNat used (by omega)
  have hmod := SSA.roundUp_mod used w
  have hlow := SSA.le_roundUp used hpos
  have hhigh : SSA.roundUp used w < used + w := by
    unfold SSA.roundUp
    have := Nat.div_mul_le_self (used + w - 1) w
    omega
  -- rounding past the largest word would give a negative offset
  have hlt : SSA.roundUp used w < 2 ^ 31 := by
    by_contra hge
    rw [hround, Int32.toInt_ofNat', Int.bmod_def, show Int32.size = 2 ^ 32 from rfl] at h0
    omega
  have hfit : SSA.roundUp used w + w ≤ 2 ^ 31 := by
    obtain ⟨q, hq⟩ := Nat.dvd_of_mod_eq_zero hmod
    have hall : 2 ^ 31 = w * 2 ^ (31 - k) := by
      rw [hw, ← Nat.pow_add]
      congr 1
      omega
    rw [hq, hall] at hlt ⊢
    have hq' : q < 2 ^ (31 - k) := Nat.lt_of_mul_lt_mul_left hlt
    calc w * q + w = w * (q + 1) := by rw [Nat.mul_succ]
      _ ≤ w * 2 ^ (31 - k) := Nat.mul_le_mul_left w hq'
  refine ⟨SSA.roundUp used w, ?_, hlow, hmod, hfit, ?_⟩
  · rw [hround, Int32.toInt_ofNat']
    exact Int.bmod_eq_of_le (by omega) (by have : (Int32.size : Int) = 2 ^ 32 := rfl; omega)
  · rw [hround, SSA.ofNat_add_ofNat]

/-- **Handing out a part keeps the invariant**, if the part lies in the frame slot. -/
theorem Laid.allocate (h : s.Laid size used) (ha : s.allocate key t c = .ok (s', n))
    (ht : t.isValid = true) (h0 : 0 ≤ n.start) (hin : n.stop ≤ size) :
    ∃ used', used ≤ used' ∧ s'.Laid size used' := by
  rcases allocate_cases ha with ⟨rfl, -⟩ | ⟨-, hn, rfl⟩
  · exact ⟨used, Nat.le_refl _, h⟩
  · have hty : n.ty = t := by rw [hn]
    have hcat : n.category = c := by rw [hn]
    obtain ⟨k, hk, hw⟩ := bytes_pow (n.held_isValid (by rw [hty]; exact ht))
    have hwidth := n.width_eq
    rw [hty, hcat] at hwidth
    have hoff : n.offset = roundUp (Int32.ofNat used) (Int32.ofNat n.held.bytes) := by
      rw [← hwidth, ← h.next, hn]
    obtain ⟨start, hstart, hlow, hmod, hword, hnext⟩ := next_slot h.used_word hk hw hoff h0
    have hstop : n.stop = ((start + n.held.bytes : Nat) : Int) := by
      rw [NamedSlot.stop, hstart]
      rfl
    have hle : ∀ m ∈ s.slots, m.stop ≤ ((start + n.held.bytes : Nat) : Int) := by
      intro m hm
      have := h.stop m hm
      omega
    refine ⟨start + n.held.bytes, by omega, ?_⟩
    exact
      { next := by rw [hwidth]; exact hnext
        used_le := by rw [← hstop]; exact hin
        used_word := hword
        valid := List.forall_mem_cons.mpr ⟨by rw [hty]; exact ht, h.valid⟩
        start := List.forall_mem_cons.mpr ⟨h0, h.start⟩
        aligned := by
          refine List.forall_mem_cons.mpr ⟨?_, h.aligned⟩
          rw [NamedSlot.start, hstart]
          omega
        stop := List.forall_mem_cons.mpr ⟨Int.le_of_eq hstop, hle⟩
        apart := by
          refine List.pairwise_cons.mpr ⟨fun m hm => .inr ?_, h.apart⟩
          have := h.stop m hm
          rw [NamedSlot.start, hstart]
          omega }

/-- **Slots of different names have no byte in common.** -/
theorem Laid.apart_of_ne (h : s.Laid size used) {m : NamedSlot} (hn : n ∈ s.slots) (hm : m ∈ s.slots)
    (hne : n ≠ m) : n.Apart m :=
  h.apart.forall hn hm hne

/-- what is handed out, as long as the frame slot is not larger than words can count -/
theorem Laid.toInt_next (h : s.Laid size used) (hs : size < 2 ^ 31) : s.next.toInt = used := by
  have := h.used_le
  rw [h.next, Int32.toInt_ofNat']
  exact Int.bmod_eq_of_le (by omega) (by have : (Int32.size : Int) = 2 ^ 32 := rfl; omega)

end Scratch

end TreeJit.Emit
