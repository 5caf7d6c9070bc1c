import TreeJit.SSA.Value

/-!
# Regions of memory

Addresses wrap, so a region is an address and a length on a circle.  `Apart a n b k` says that the
`n` bytes from `a` on and the `k` bytes from `b` on do not meet, by the two distances.

* `get_setBytes`          every byte after a region was written;
* `bytes_setBytes_slice`  part of what was written reads back;
* `bytes_setBytes_apart`  the rest of the memory stays;
* `readVal_writeVal`, `readVal_apart`   the same for values of a type.
-/

namespace TreeJit

theorem ofLittleEndian_append (as bs : List UInt8) :
    ofLittleEndian (as ++ bs) = ofLittleEndian as + 256 ^ as.length * ofLittleEndian bs := by
  induction as with
  | nil => simp [ofLittleEndian]
  | cons a as ih =>
    rw [List.cons_append, ofLittleEndian_cons, ofLittleEndian_cons, ih, List.length_cons,
      Nat.pow_succ, Nat.mul_add, ← Nat.mul_assoc, Nat.mul_comm 256 (256 ^ _)]
    omega

end TreeJit

namespace TreeJit.Memory

def dist (a x : UInt64) : Nat := (x - a).toNat

theorem dist_self (a : UInt64) : dist a a = 0 := by
  simp [dist]

theorem dist_add (a : UInt64) (i : Nat) (h : i < 2 ^ 64) : dist a (a + UInt64.ofNat i) = i := by
  have e : a + UInt64.ofNat i - a = UInt64.ofNat i := by
    rw [UInt64.add_comm, UInt64.add_sub_cancel]
  rw [dist, e, UInt64.toNat_ofNat', Nat.mod_eq_of_lt h]

theorem dist_lt (a x : UInt64) : dist a x < 2 ^ 64 := (x - a).toNat_lt

theorem dist_of_le {a x : UInt64} (h : a.toNat ≤ x.toNat) : dist a x = x.toNat - a.toNat := by
  have h1 := a.toNat_lt
  have h2 := x.toNat_lt
  rw [dist, UInt64.toNat_sub]
  omega

theorem dist_of_lt {a x : UInt64} (h : x.toNat < a.toNat) :
    dist a x = 2 ^ 64 - (a.toNat - x.toNat) := by
  have h1 := a.toNat_lt
  rw [dist, UInt64.toNat_sub]
  omega

theorem dist_succ {a x : UInt64} (h : x ≠ a) : dist a x = dist (a + 1) x + 1 := by
  have h1 := a.toNat_lt
  have h2 := x.toNat_lt
  have hne : x.toNat ≠ a.toNat := fun e => h (UInt64.toNat_inj.mp e)
  rw [dist, dist, UInt64.toNat_sub, UInt64.toNat_sub, UInt64.toNat_add]
  have e1 : (1 : UInt64).toNat = 1 := rfl
  rw [e1]
  omega

theorem dist_add_add {a : UInt64} {i k : Nat} (hi : i < k) (hk : k < 2 ^ 64) :
    dist (a + UInt64.ofNat k) (a + UInt64.ofNat i) = 2 ^ 64 - (k - i) := by
  have h1 := a.toNat_lt
  rw [dist, UInt64.toNat_sub, UInt64.toNat_add, UInt64.toNat_add, UInt64.toNat_ofNat',
    UInt64.toNat_ofNat']
  omega

/-- the `n` bytes from `a` on and the `k` bytes from `b` on do not meet -/
def Apart (a : UInt64) (n : Nat) (b : UInt64) (k : Nat) : Prop := n ≤ dist a b ∧ k ≤ dist b a

theorem Apart.symm {a b : UInt64} {n k : Nat} (h : Apart a n b k) : Apart b k a n := ⟨h.2, h.1⟩

theorem apart_of_le {a b : UInt64} {n k : Nat} (h : a.toNat + n ≤ b.toNat)
    (hb : b.toNat + k ≤ 2 ^ 64 + a.toNat) (hab : a.toNat < b.toNat) : Apart a n b k := by
  refine ⟨?_, ?_⟩
  · rw [dist_of_le (by omega)]
    omega
  · rw [dist_of_lt (by omega)]
    omega

theorem Apart.le_dist {a b : UInt64} {n k j : Nat} (h : Apart a n b k) (hj : j < k) :
    n ≤ dist a (b + UInt64.ofNat j) := by
  obtain ⟨h1, h2⟩ := h
  have hk := dist_lt b a
  have ha := a.toNat_lt
  have hb := b.toNat_lt
  unfold dist at h1 h2 hk ⊢
  rw [UInt64.toNat_sub] at h1 h2 hk ⊢
  rw [UInt64.toNat_add, UInt64.toNat_ofNat']
  omega

theorem Apart.mono {a b : UInt64} {n k n' k' : Nat} (h : Apart a n b k) (hn : n' ≤ n)
    (hk : k' ≤ k) : Apart a n' b k' := ⟨Nat.le_trans hn h.1, Nat.le_trans hk h.2⟩

theorem Apart.part {a b : UInt64} {n k i n' : Nat} (h : Apart a n b k) (hi : i + n' ≤ n)
    (hn : 0 < n') : Apart (a + UInt64.ofNat i) n' b k := by
  obtain ⟨h1, h2⟩ := h
  have ha := a.toNat_lt
  have hb := b.toNat_lt
  unfold Apart dist at *
  rw [UInt64.toNat_sub] at h1 h2
  rw [UInt64.toNat_sub, UInt64.toNat_sub, UInt64.toNat_add, UInt64.toNat_ofNat']
  omega

/-! ## bytes -/

theorem get_setBytes (m : Memory) (a x : UInt64) (bs : List UInt8) (h : bs.length ≤ 2 ^ 64) :
    (m.setBytes a bs).get x = (bs[dist a x]?).getD (m.get x) := by
  induction bs generalizing m a with
  | nil => simp [setBytes]
  | cons b bs ih =>
    rw [List.length_cons] at h
    rw [setBytes, ih _ _ (by omega), get_set]
    by_cases e : x = a
    · subst e
      have hd : dist (x + 1) x = 2 ^ 64 - 1 := by
        have h1 := x.toNat_lt
        rw [dist, UInt64.toNat_sub, UInt64.toNat_add]
        have e1 : (1 : UInt64).toNat = 1 := rfl
        rw [e1]
        omega
      rw [List.getElem?_eq_none (by omega), dist_self, if_pos rfl]
      rfl
    · rw [dist_succ e, if_neg (Ne.symm e), List.getElem?_cons_succ]

theorem get_setBytes_out (m : Memory) {a x : UInt64} {bs : List UInt8}
    (h : bs.length ≤ dist a x) : (m.setBytes a bs).get x = m.get x := by
  have hx := dist_lt a x
  rw [get_setBytes m a x bs (by omega), List.getElem?_eq_none h]
  rfl

theorem getElem?_bytes (m : Memory) (n : Nat) (a : UInt64) (i : Nat) :
    (m.bytes n a)[i]? = if i < n then some (m.get (a + UInt64.ofNat i)) else none := by
  induction n generalizing a i with
  | zero => simp [bytes]
  | succ n ih =>
    cases i with
    | zero => simp [bytes]
    | succ i =>
      have e : a + 1 + UInt64.ofNat i = a + UInt64.ofNat (i + 1) := by
        rw [UInt64.add_assoc, UInt64.add_comm 1, UInt64.ofNat_add]
        rfl
      rw [bytes, List.getElem?_cons_succ, ih, e]
      by_cases hi : i < n
      · rw [if_pos hi, if_pos (Nat.succ_lt_succ hi)]
      · rw [if_neg hi, if_neg (by omega)]

theorem bytes_append (m : Memory) (n k : Nat) (a : UInt64) :
    m.bytes (n + k) a = m.bytes n a ++ m.bytes k (a + UInt64.ofNat n) := by
  induction n generalizing a with
  | zero =>
    have e : a + UInt64.ofNat 0 = a := UInt64.add_zero a
    rw [Nat.zero_add, e]
    rfl
  | succ n ih =>
    have e : a + 1 + UInt64.ofNat n = a + UInt64.ofNat (n + 1) := by
      rw [UInt64.add_assoc, UInt64.add_comm 1, UInt64.ofNat_add]
      rfl
    rw [Nat.succ_add, bytes, ih, bytes, List.cons_append, e]

theorem bytes_congr {m m' : Memory} {n : Nat} {a : UInt64}
    (h : ∀ i < n, m.get (a + UInt64.ofNat i) = m'.get (a + UInt64.ofNat i)) :
    m.bytes n a = m'.bytes n a := by
  refine List.ext_getElem? fun i => ?_
  rw [getElem?_bytes, getElem?_bytes]
  by_cases hi : i < n
  · rw [if_pos hi, if_pos hi, h i hi]
  · rw [if_neg hi, if_neg hi]

/-- equal regions begin with equal regions -/
theorem bytes_of_le {m m' : Memory} {k n : Nat} {a b : UInt64} (hk : k ≤ n)
    (h : m'.bytes n b = m.bytes n a) : m'.bytes k b = m.bytes k a := by
  obtain ⟨l, rfl⟩ := Nat.exists_eq_add_of_le hk
  rw [bytes_append, bytes_append] at h
  exact (List.append_inj h (by rw [length_bytes, length_bytes])).1

theorem bytes_setBytes_apart (m : Memory) {a b : UInt64} {n : Nat} {bs : List UInt8}
    (h : Apart a bs.length b n) : (m.setBytes a bs).bytes n b = m.bytes n b :=
  bytes_congr fun _ hi => get_setBytes_out m (h.le_dist hi)

theorem bytes_setBytes_slice (m : Memory) (a : UInt64) (bs : List UInt8) (i n : Nat)
    (hl : bs.length ≤ 2 ^ 64) (hn : i + n ≤ bs.length) :
    (m.setBytes a bs).bytes n (a + UInt64.ofNat i) = (bs.drop i).take n := by
  refine List.ext_getElem? fun j => ?_
  rw [getElem?_bytes]
  by_cases hj : j < n
  · have e : a + UInt64.ofNat i + UInt64.ofNat j = a + UInt64.ofNat (i + j) := by
      rw [UInt64.add_assoc, ← UInt64.ofNat_add]
    rw [if_pos hj, e, get_setBytes m a _ bs hl, dist_add a _ (by omega),
      List.getElem?_eq_getElem (by omega), List.getElem?_take_of_lt hj, List.getElem?_drop,
      List.getElem?_eq_getElem (by omega), Option.getD_some]
  · rw [if_neg hj, List.getElem?_eq_none (by rw [List.length_take]; omega)]

theorem bytes_setBytes_self (m : Memory) (a : UInt64) (bs : List UInt8) (hl : bs.length ≤ 2 ^ 64) :
    (m.setBytes a bs).bytes bs.length a = bs := by
  have h := bytes_setBytes_slice m a bs 0 bs.length hl (by omega)
  rw [List.drop_zero, List.take_length] at h
  have e : a + UInt64.ofNat 0 = a := UInt64.add_zero a
  rwa [e] at h

/-! ## numbers -/

theorem bytes_write_self (m : Memory) (n : Nat) (a : UInt64) (v : Nat) (h : n ≤ 2 ^ 64) :
    (m.write n a v).bytes n a = littleEndian n v := by
  have hb := bytes_setBytes_self m a (littleEndian n v) (by rw [length_littleEndian]; exact h)
  rwa [length_littleEndian] at hb

theorem read_write_self (m : Memory) (n : Nat) (a : UInt64) (v : Nat) (h : n ≤ 2 ^ 64) :
    (m.write n a v).read n a = v % 256 ^ n := by
  rw [read, bytes_write_self m n a v h, ofLittleEndian_littleEndian]

theorem get_write_out (m : Memory) {n : Nat} {a x : UInt64} (v : Nat) (h : n ≤ dist a x) :
    (m.write n a v).get x = m.get x := by
  refine get_setBytes_out m ?_
  rw [length_littleEndian]
  exact h

theorem bytes_write_apart (m : Memory) {a b : UInt64} {n k : Nat} (v : Nat) (h : Apart a n b k) :
    (m.write n a v).bytes k b = m.bytes k b :=
  bytes_congr fun _ hi => get_write_out m v (h.le_dist hi)

theorem read_write_apart (m : Memory) {a b : UInt64} {n k : Nat} (v : Nat) (h : Apart a n b k) :
    (m.write n a v).read k b = m.read k b := by
  rw [read, bytes_write_apart m v h, read]

theorem ofLittleEndian_lt (bs : List UInt8) : ofLittleEndian bs < 256 ^ bs.length := by
  induction bs with
  | nil => simp [ofLittleEndian]
  | cons b bs ih =>
    have hb := b.toNat_lt
    rw [ofLittleEndian_cons, List.length_cons, Nat.pow_succ]
    omega

theorem read_lt (m : Memory) (n : Nat) (a : UInt64) : m.read n a < 256 ^ n := by
  have h := ofLittleEndian_lt (m.bytes n a)
  rwa [length_bytes] at h

end TreeJit.Memory

namespace TreeJit.SSA

open Memory

/-! ## addresses -/

theorem addressOf_ofNat (a : UInt64) {n : Nat} (h : n < 2 ^ 31) :
    addressOf a (Int32.ofNat n) = a + UInt64.ofNat n := by
  have e : (Int32.ofNat n).toInt64 = Int64.ofNat n := by
    apply Int64.toInt_inj.mp
    rw [Int32.toInt_toInt64, Int32.toInt_ofNat_of_lt (by omega), Int64.toInt_ofNat_of_lt (by omega)]
  rw [addressOf, e]
  rfl

/-- the distance from an offset of the frame -/
theorem dist_place (a x : UInt64) {h n : Nat} (hh : h + n < 2 ^ 32)
    (hx : ¬ (h ≤ Memory.dist a x ∧ Memory.dist a x < h + n)) :
    n ≤ Memory.dist (a + UInt64.ofNat h) x := by
  have h1 := a.toNat_lt
  have h2 := x.toNat_lt
  unfold Memory.dist at hx ⊢
  rw [UInt64.toNat_sub] at hx ⊢
  rw [UInt64.toNat_add, UInt64.toNat_ofNat']
  omega

theorem dist_offset (a : UInt64) {h j : Nat} (hj : h + j < 2 ^ 64) :
    Memory.dist a (a + UInt64.ofNat h + UInt64.ofNat j) = h + j := by
  rw [UInt64.add_assoc, ← UInt64.ofNat_add, Memory.dist_add _ _ hj]

/-! ## values -/

theorem ofNat_mod_and (x : UInt64) (n : Nat) (h : n ≤ 64) :
    UInt64.ofNat (x.toNat % 2 ^ n) = x &&& UInt64.ofNat (2 ^ n - 1) := by
  apply UInt64.toNat_inj.mp
  have hx := x.toNat_lt
  have hle : 2 ^ n ≤ 2 ^ 64 := Nat.pow_le_pow_right (by omega) h
  have hpos : 0 < 2 ^ n := Nat.two_pow_pos n
  have hm : x.toNat % 2 ^ n < 2 ^ n := Nat.mod_lt _ hpos
  rw [UInt64.toNat_and, UInt64.toNat_ofNat', UInt64.toNat_ofNat', Nat.mod_eq_of_lt (by omega),
    Nat.mod_eq_of_lt (a := 2 ^ n - 1) (by omega), Nat.and_two_pow_sub_one_eq_mod]

theorem readVal_scalar (m : Memory) {t : Ty} (a : UInt64) (h : t.isVector = false) :
    readVal m t a = ⟨UInt64.ofNat (m.read t.bytes a), 0⟩ := by
  rw [readVal, h]
  rfl

theorem readVal_vector (m : Memory) {t : Ty} (a : UInt64) (h : t.isVector = true) :
    readVal m t a = ⟨UInt64.ofNat (m.read 8 a), UInt64.ofNat (m.read 8 (a + 8))⟩ := by
  rw [readVal, if_pos h]

/-- the pair `j` of an array of doubles is its elements `2 j` and `2 j + 1` -/
theorem readVal_pair (m : Memory) (p : UInt64) (j : Nat) :
    readVal m .f64x2 (p + UInt64.ofNat (16 * j)) =
      ⟨(readVal m .f64 (p + UInt64.ofNat (8 * (2 * j)))).lo,
        (readVal m .f64 (p + UInt64.ofNat (8 * (2 * j + 1)))).lo⟩ := by
  have e0 : 8 * (2 * j) = 16 * j := by omega
  have e1 : p + UInt64.ofNat (8 * (2 * j + 1)) = p + UInt64.ofNat (16 * j) + 8 := by
    rw [Nat.mul_succ, e0, UInt64.ofNat_add, ← UInt64.add_assoc]
    rfl
  rw [readVal_vector _ _ rfl, e1, e0, readVal_scalar _ _ rfl, readVal_scalar _ _ rfl]
  rfl

theorem bytes_of_isVector {t : Ty} (h : t.isVector = true) : t.bytes = 16 := by
  cases t <;> first | rfl | cases h

theorem writeVal_scalar (m : Memory) {t : Ty} (a : UInt64) (v : Val) (h : t.isVector = false) :
    writeVal m t a v = m.write t.bytes a v.lo.toNat := by
  rw [writeVal, h]
  rfl

theorem writeVal_vector (m : Memory) {t : Ty} (a : UInt64) (v : Val) (h : t.isVector = true) :
    writeVal m t a v = (m.write 8 a v.lo.toNat).write 8 (a + 8) v.hi.toNat := by
  rw [writeVal, if_pos h]

theorem get_writeVal_out (m : Memory) {t : Ty} {a x : UInt64} (v : Val) (h : t.bytes ≤ dist a x) :
    (writeVal m t a v).get x = m.get x := by
  by_cases hv : t.isVector = true
  · have hb := bytes_of_isVector hv
    have hx := dist_lt a x
    have h8 : 8 ≤ dist (a + 8) x := by
      have h1 := a.toNat_lt
      have h2 := x.toNat_lt
      unfold Memory.dist at h hx ⊢
      rw [UInt64.toNat_sub] at h hx ⊢
      rw [UInt64.toNat_add]
      have e : (8 : UInt64).toNat = 8 := rfl
      rw [e]
      omega
    rw [writeVal_vector _ _ _ hv, get_write_out _ _ h8, get_write_out _ _ (by omega)]
  · rw [writeVal_scalar _ _ _ (by simpa using hv), get_write_out _ _ h]

theorem get_writeVal_congr {m m' : Memory} {t : Ty} {a x : UInt64} {v : Val}
    (h : m.get x = m'.get x) : (writeVal m t a v).get x = (writeVal m' t a v).get x := by
  have hw : ∀ {m m' : Memory} (n : Nat) (a : UInt64) (w : Nat), n ≤ 16 → m.get x = m'.get x →
      (m.write n a w).get x = (m'.write n a w).get x := by
    intro m m' n a w hn hx
    have hl : (littleEndian n w).length ≤ 2 ^ 64 := by
      rw [length_littleEndian]
      omega
    rw [Memory.write, Memory.write, get_setBytes _ _ _ _ hl, get_setBytes _ _ _ _ hl, hx]
  unfold writeVal
  split
  · exact hw 8 _ _ (by omega) (hw 8 _ _ (by omega) h)
  · exact hw _ _ _ (by cases t <;> simp [Ty.bytes]) h

def valBytes (v : Val) : List UInt8 := littleEndian 8 v.lo.toNat ++ littleEndian 8 v.hi.toNat

theorem apart_add_eight (a : UInt64) : Apart (a + 8) 8 a 8 := by
  unfold Apart Memory.dist
  have h1 := a.toNat_lt
  have e : (8 : UInt64).toNat = 8 := rfl
  rw [UInt64.toNat_sub, UInt64.toNat_sub, UInt64.toNat_add, e]
  omega

theorem bytes_writeVal_vector (m : Memory) {t : Ty} (a : UInt64) (v : Val) (ht : t.isVector = true) :
    (writeVal m t a v).bytes 16 a = valBytes v := by
  rw [writeVal_vector _ _ _ ht, show 16 = 8 + 8 from rfl, bytes_append]
  refine congr (congrArg _ ?_) ?_
  · rw [bytes_write_apart _ _ (apart_add_eight a), bytes_write_self _ _ _ _ (by omega)]
  · exact bytes_write_self _ _ _ _ (by omega)

theorem readVal_of_bytes {m m' : Memory} {t : Ty} {a b : UInt64}
    (h : m'.bytes t.bytes b = m.bytes t.bytes a) : readVal m' t b = readVal m t a := by
  by_cases hv : t.isVector = true
  · rw [bytes_of_isVector hv, show 16 = 8 + 8 from rfl, bytes_append, bytes_append] at h
    obtain ⟨hlo, hhi⟩ := List.append_inj h (by rw [length_bytes, length_bytes])
    have hhi' : m'.bytes 8 (b + 8) = m.bytes 8 (a + 8) := hhi
    simp only [readVal_vector _ _ hv, Memory.read, hlo, hhi']
  · have hs : t.isVector = false := by simpa using hv
    rw [readVal_scalar m' b hs, readVal_scalar m a hs, Memory.read, Memory.read, h]

theorem readVal_congr {m m' : Memory} {t : Ty} {a : UInt64}
    (h : ∀ i < t.bytes, m.get (a + UInt64.ofNat i) = m'.get (a + UInt64.ofNat i)) :
    readVal m t a = readVal m' t a :=
  readVal_of_bytes (bytes_congr h)

theorem bytes_writeVal_apart (m : Memory) {t : Ty} {a b : UInt64} {n : Nat} (v : Val)
    (h : Memory.Apart a t.bytes b n) : (writeVal m t a v).bytes n b = m.bytes n b :=
  Memory.bytes_congr fun _ hi => get_writeVal_out m v (h.le_dist hi)

theorem readVal_apart (m : Memory) {t u : Ty} {a b : UInt64} (v : Val)
    (h : Memory.Apart a t.bytes b u.bytes) : readVal (writeVal m t a v) u b = readVal m u b :=
  readVal_of_bytes (bytes_writeVal_apart m v h)

theorem ofNat_toNat_mod (x : UInt64) : UInt64.ofNat (x.toNat % 256 ^ 8) = x := by
  rw [Nat.mod_eq_of_lt (by have := x.toNat_lt; omega), UInt64.ofNat_toNat]

/-- a written value reads back as far as its type keeps it -/
theorem readVal_writeVal (m : Memory) (t : Ty) (a : UInt64) (v : Val) (ht : t.isValid = true) :
    readVal (writeVal m t a v) t a = v.keep t := by
  have hvec : ∀ m : Memory, ((m.write 8 a v.lo.toNat).write 8 (a + 8) v.hi.toNat).read 8 a =
      v.lo.toNat % 256 ^ 8 := by
    intro m
    rw [read_write_apart _ _ (apart_add_eight a), read_write_self _ _ _ _ (by omega)]
  have hsc : ∀ n : Nat, n ≤ 8 → UInt64.ofNat ((m.write n a v.lo.toNat).read n a) =
      v.lo &&& UInt64.ofNat (2 ^ (8 * n) - 1) := by
    intro n hn
    rw [read_write_self _ _ _ _ (by omega), show (256 : Nat) = 2 ^ 8 from rfl, ← Nat.pow_mul,
      ofNat_mod_and _ _ (by omega)]
  cases t with
  | f64x2 | i64x2 =>
    rw [readVal_vector _ _ rfl, writeVal_vector _ _ _ rfl, hvec, read_write_self _ _ _ _ (by omega),
      ofNat_toNat_mod, ofNat_toNat_mod]
    rfl
  | i8 | i16 | i32 | f32 =>
    rw [readVal_scalar _ _ rfl, writeVal_scalar _ _ _ rfl, hsc _ (by decide)]
    rfl
  | i64 | f64 =>
    rw [readVal_scalar _ _ rfl, writeVal_scalar _ _ _ rfl]
    show Val.mk (UInt64.ofNat ((m.write 8 a v.lo.toNat).read 8 a)) 0 = _
    rw [read_write_self _ _ _ _ (by omega), ofNat_toNat_mod]
    rfl
  | invalid => cases ht

end TreeJit.SSA
