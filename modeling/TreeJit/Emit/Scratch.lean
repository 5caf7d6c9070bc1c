import TreeJit.Emit.Fault

/-!
# The scratch frame

A function may reserve one frame slot and hand out parts of it by name.  A name keeps the offset,
the type and the category of its first use; offsets only grow and nothing is released.  Offsets are
32-bit words, as they are in the instructions that use them.
-/

namespace TreeJit.Emit

open SSA

/-- a named part of the scratch frame; for a reference, `ty` is the type of the elements -/
structure NamedSlot where
  name : String
  ty : Ty
  category : SlotCategory
  offset : Int32
  deriving DecidableEq

def SlotCategory.width (c : SlotCategory) (t : Ty) : Int32 :=
  match c with
  | .value => Int32.ofNat t.bytes
  | .ref => Int32.ofNat Ty.pointer.bytes

structure Scratch where
  /-- the frame slot -/
  slot : Int
  capacity : Int32
  /-- the bytes handed out -/
  next : Int32 := 0
  /-- the names, the last one first -/
  slots : List NamedSlot := []

def roundUp (offset width : Int32) : Int32 := (offset + width - 1) &&& ~~~(width - 1)

namespace Scratch

def find? (s : Scratch) (name : String) : Option NamedSlot := s.slots.find? fun n => n.name == name

def allocate (s : Scratch) (name : String) (t : Ty) (c : SlotCategory) :
    Except Fault (Scratch × NamedSlot) :=
  match s.find? name with
  | some n =>
    if n.category = c ∧ n.ty = t then .ok (s, n)
    else .error (.slotUse name (n.category, n.ty) (c, t))
  | none =>
    let width := c.width t
    let offset := roundUp s.next width
    if s.capacity < offset + width then .error (.scratchFull name width offset s.capacity)
    else
      let n : NamedSlot := { name, ty := t, category := c, offset }
      .ok ({ s with next := offset + width, slots := n :: s.slots }, n)

def lookup (s : Scratch) (name : String) (c : SlotCategory) : Except Fault NamedSlot :=
  match s.find? name with
  | none => .error (.slotUndefined name)
  | some n => if n.category = c then .ok n else .error (.slotCategory name n.category)

theorem find?_of_allocate {s s' : Scratch} {name other : String} {t : Ty} {c : SlotCategory}
    {n m : NamedSlot} (h : s.allocate name t c = .ok (s', n)) (hm : s.find? other = some m) :
    s'.find? other = some m := by
  unfold allocate at h
  cases hf : s.find? name with
  | some k =>
    simp only [hf] at h
    split at h
    · cases h
      exact hm
    · cases h
  | none =>
    simp only [hf] at h
    split at h
    · cases h
    · cases h
      have hne : name ≠ other := by
        rintro rfl
        rw [hf] at hm
        cases hm
      simp only [find?, List.find?_cons, beq_eq_false_iff_ne.mpr hne]
      exact hm

end Scratch

end TreeJit.Emit
