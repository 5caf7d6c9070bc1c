import TreeJit.Word.Power

/-!
# Little-endian bytes

* `littleEndian n v`    the `n` low bytes of `v`, least significant first;
* `ofLittleEndian bs`   the number a byte list spells.

Reading back what was written gives the number modulo `256 ^ n` (`ofLittleEndian_littleEndian`).
-/

namespace TreeJit

/-- the `n` low bytes of `v`, least significant first -/
def littleEndian : Nat → Nat → List UInt8
  | 0, _ => []
  | n + 1, v => UInt8.ofNat (v % 256) :: littleEndian n (v / 256)

/-- the number spelled by bytes, least significant first -/
def ofLittleEndian : List UInt8 → Nat
  | [] => 0
  | b :: bs => b.toNat + 256 * ofLittleEndian bs

@[simp] theorem length_littleEndian (n v : Nat) : (littleEndian n v).length = n := by
  induction n generalizing v with
  | zero => rfl
  | succ n ih => simp [littleEndian, ih]

theorem ofLittleEndian_nil : ofLittleEndian [] = 0 := rfl

theorem ofLittleEndian_cons (b : UInt8) (bs : List UInt8) :
    ofLittleEndian (b :: bs) = b.toNat + 256 * ofLittleEndian bs := rfl

/-- what was written reads back, up to the bytes that were dropped -/
theorem ofLittleEndian_littleEndian (n v : Nat) :
    ofLittleEndian (littleEndian n v) = v % 256 ^ n := by
  induction n generalizing v with
  | zero => simp [littleEndian, ofLittleEndian, Nat.mod_one]
  | succ n ih =>
    have hb : (UInt8.ofNat (v % 256)).toNat = v % 256 := by
      simp [UInt8.toNat_ofNat']
    rw [littleEndian, ofLittleEndian_cons, ih, hb, Nat.pow_succ, Nat.mul_comm (256 ^ n) 256,
      Nat.mod_mul]

end TreeJit
