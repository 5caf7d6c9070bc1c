import TreeJit.SSA.Func

/-!
# Frames

Every value and every stack slot has a fixed place in the frame, its home.  Scalars take 8 bytes,
vectors 16 with the same alignment, slots their size rounded up to 8.  After them comes the
transfer area, 16 bytes for each argument of the branch with the most: arguments are staged there,
so that a branch that permutes parameters never reads a home it has already overwritten.

Offsets are 32-bit and wrap, as the machines' displacements do.
-/

namespace TreeJit.SSA

structure Frame where
  values : Array Int32
  slots : Array Int32
  transfer : Int32
  size : Int32
  deriving DecidableEq

def alignUp (v align : Int32) : Int32 := (v + align - 1) &&& ~~~(align - 1)

def homeOf (t : Ty) (off : Int32) : Int32 := if t.isVector then alignUp off 16 else off

def homeBytes (t : Ty) : Int32 := if t.isVector then 16 else 8

/-- the homes of values, from an offset on, and the offset after them -/
def placeValues : Int32 → List Ty → List Int32 × Int32
  | off, [] => ([], off)
  | off, t :: ts =>
    let here := homeOf t off
    let (rest, after) := placeValues (here + homeBytes t) ts
    (here :: rest, after)

/-- the alignment of a slot in the frame: at least 8 -/
def slotAlign (s : Slot) : Int32 :=
  let a := Int32.ofInt s.align
  if a < 8 then 8 else a

def placeSlots : Int32 → List Slot → List Int32 × Int32
  | off, [] => ([], off)
  | off, s :: ss =>
    let here := alignUp off (slotAlign s)
    let (rest, after) := placeSlots (here + alignUp (Int32.ofInt s.size) 8) ss
    (here :: rest, after)

/-- the number of arguments of the branch with the most -/
def Func.maxBranchArgs (f : Func) : Nat :=
  f.steps.foldl (fun m s => s.inst.targets.foldl (fun m t => max m t.args.length) m) 0

def Func.frame (f : Func) (base : Int32) : Frame :=
  let (values, off1) := placeValues base f.values.toList
  let (slots, off2) := placeSlots off1 f.slots.toList
  let transfer := alignUp off2 16
  { values := values.toArray, slots := slots.toArray, transfer,
    size := alignUp (transfer + Int32.ofNat f.maxBranchArgs * 16) 16 }

namespace Frame

def home (fr : Frame) (v : ValueNo) : Int32 := fr.values.getD v 0

def slot (fr : Frame) (s : Nat) : Int32 := fr.slots.getD s 0

/-- where argument `i` of a branch is staged -/
def staged (fr : Frame) (i : Nat) : Int32 := fr.transfer + Int32.ofNat i * 16

end Frame

@[simp] theorem placeValues_length (off : Int32) (ts : List Ty) :
    (placeValues off ts).1.length = ts.length := by
  induction ts generalizing off with
  | nil => rfl
  | cons t ts ih => simp [placeValues, ih]

@[simp] theorem placeSlots_length (off : Int32) (ss : List Slot) :
    (placeSlots off ss).1.length = ss.length := by
  induction ss generalizing off with
  | nil => rfl
  | cons s ss ih => simp [placeSlots, ih]

end TreeJit.SSA
