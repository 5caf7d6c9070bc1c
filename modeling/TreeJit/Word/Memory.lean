import Std.Data.HashMap
import TreeJit.Word.LittleEndian

/-!
# Memory

Bytes by address; what was never written is zero.  `Memory.read` and `Memory.write` move numbers in
little-endian order at any alignment; addresses wrap.
-/

namespace TreeJit

structure Memory where
  cells : Std.HashMap UInt64 UInt8 := {}

namespace Memory

def get (m : Memory) (a : UInt64) : UInt8 := m.cells.getD a 0

def set (m : Memory) (a : UInt64) (b : UInt8) : Memory := ⟨m.cells.insert a b⟩

@[simp] theorem get_set (m : Memory) (a x : UInt64) (b : UInt8) :
    (m.set a b).get x = if a = x then b else m.get x := by
  simp [get, set, Std.HashMap.getD_insert]

def bytes (m : Memory) : Nat → UInt64 → List UInt8
  | 0, _ => []
  | n + 1, a => m.get a :: m.bytes n (a + 1)

def setBytes (m : Memory) : UInt64 → List UInt8 → Memory
  | _, [] => m
  | a, b :: bs => (m.set a b).setBytes (a + 1) bs

def read (m : Memory) (n : Nat) (a : UInt64) : Nat := ofLittleEndian (m.bytes n a)

def write (m : Memory) (n : Nat) (a : UInt64) (v : Nat) : Memory := m.setBytes a (littleEndian n v)

@[simp] theorem length_bytes (m : Memory) (n : Nat) (a : UInt64) : (m.bytes n a).length = n := by
  induction n generalizing a with
  | zero => rfl
  | succ n ih => simp [bytes, ih]

end Memory

end TreeJit
