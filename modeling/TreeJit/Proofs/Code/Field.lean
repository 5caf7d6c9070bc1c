import Mathlib.Data.Nat.Bitwise
import TreeJit.Proofs.Code.Layout
import TreeJit.Proofs.Word.Memory

/-!
# Displacement fields

How a displacement is read out of an encoded branch, said apart from how it is put there.

* `Field.displacement f bytes`   the number of bytes that the field of a branch stands for, with its
                                 sign;
* `Field.origin f pos n`         the offset it counts from;
* `Field.Covers f n i`           bit `i` of a branch of `n` bytes belongs to the field;
* `Field.Spans f rel`            the field has room for a displacement.

`Branch.fill_ok` says that filling in a displacement changes no other bit and leads to the target;
`Branch.fill_error` says when it fails.
-/

namespace TreeJit

def Field.displacement (f : Field) (bytes : List UInt8) : Int :=
  match f with
  | .rel32 => (BitVec.ofNat 32 (ofLittleEndian (bytes.drop (bytes.length - 4)))).toInt
  | .imm26 => 4 * (BitVec.ofNat 26 (ofLittleEndian bytes)).toInt
  | .imm19 => 4 * (BitVec.ofNat 19 (ofLittleEndian bytes / 2 ^ 5)).toInt

/-- the offset from which a branch of `n` bytes at `pos` counts -/
def Field.origin (f : Field) (pos n : Nat) : Nat :=
  match f with
  | .rel32 => pos + n
  | .imm26 | .imm19 => pos

/-- the bits of the field in a branch of `n` bytes -/
def Field.Covers (f : Field) (n i : Nat) : Prop :=
  match f with
  | .rel32 => 8 * (n - 4) ≤ i
  | .imm26 => i < 26
  | .imm19 => 5 ≤ i ∧ i < 24

/-- the displacements for which the field has room; of words there are only multiples of four -/
def Field.Spans (f : Field) (rel : Int) : Prop :=
  match f with
  | .rel32 => -2 ^ 31 ≤ rel ∧ rel < 2 ^ 31
  | .imm26 => -2 ^ 27 ≤ rel ∧ rel < 2 ^ 27
  | .imm19 => -2 ^ 20 ≤ rel ∧ rel < 2 ^ 20

/-! ## numbers in two's complement -/

theorem twosComplement_lt (n : Nat) (i : Int) : twosComplement n i < 2 ^ n := by
  have hpos : (0 : Int) < (2 ^ n : Nat) := Int.natCast_pos.mpr (Nat.two_pow_pos n)
  have h1 := Int.emod_lt_of_pos i hpos
  have h2 := Int.emod_nonneg i (Int.ne_of_gt hpos)
  unfold twosComplement
  omega

theorem toInt_twosComplement (n : Nat) {i : Int} (h : -2 ^ n ≤ i ∧ i < 2 ^ n) :
    (BitVec.ofNat (n + 1) (twosComplement (n + 1) i)).toInt = i := by
  have e : BitVec.ofNat (n + 1) (twosComplement (n + 1) i) = BitVec.ofInt (n + 1) i := by
    apply BitVec.eq_of_toNat_eq
    rw [BitVec.toNat_ofNat, BitVec.toNat_ofInt, Nat.mod_eq_of_lt (twosComplement_lt _ _)]
    rfl
  have hp : ((2 ^ (n + 1) : Nat) : Int) = 2 * 2 ^ n := by
    rw [Nat.pow_succ, Nat.mul_comm]
    push_cast
    rfl
  rw [e, BitVec.toInt_ofInt]
  apply Int.bmod_eq_of_le
  · rw [hp]
    omega
  · rw [hp]
    omega

theorem testBit_withField (word : UInt32) {lo n : Nat} (h : lo + n ≤ 32) (i : Int) (k : Nat) :
    (withField word lo n i).toNat.testBit k =
      if lo ≤ k ∧ k < lo + n then (twosComplement n i).testBit (k - lo) else word.toNat.testBit k := by
  have hn : 0 < 2 ^ n := Nat.two_pow_pos n
  have hlo : 0 < 2 ^ lo := Nat.two_pow_pos lo
  have hle : 2 ^ n * 2 ^ lo ≤ 2 ^ 32 := by
    rw [← Nat.pow_add]
    exact Nat.pow_le_pow_right (by omega) (by omega)
  have hmask : (2 ^ n - 1) * 2 ^ lo < 2 ^ 32 := by
    rw [Nat.sub_mul, Nat.one_mul]
    omega
  have hval : twosComplement n i * 2 ^ lo < 2 ^ 32 :=
    Nat.lt_of_lt_of_le (Nat.mul_lt_mul_of_pos_right (twosComplement_lt n i) hlo) hle
  have emask : (~~~UInt32.ofNat ((2 ^ n - 1) * 2 ^ lo)).toNat =
      2 ^ 32 - ((2 ^ n - 1) * 2 ^ lo + 1) := by
    rw [UInt32.toNat_not, UInt32.toNat_ofNat', Nat.mod_eq_of_lt hmask, UInt32.size]
    omega
  unfold withField
  rw [UInt32.toNat_or, UInt32.toNat_and, emask, UInt32.toNat_ofNat', Nat.mod_eq_of_lt hval,
    Nat.testBit_or, Nat.testBit_and, Nat.testBit_two_pow_sub_succ hmask, Nat.testBit_mul_two_pow,
    Nat.testBit_mul_two_pow, Nat.testBit_two_pow_sub_one]
  by_cases h1 : lo ≤ k
  · by_cases h2 : k < lo + n
    · have h3 : k - lo < n := by omega
      simp [h1, h2, h3]
    · have h3 : ¬ k - lo < n := by omega
      have h4 : (twosComplement n i).testBit (k - lo) = false :=
        Nat.testBit_lt_two_pow (Nat.lt_of_lt_of_le (twosComplement_lt n i)
          (Nat.pow_le_pow_right (by omega) (by omega)))
      have h5 : 32 ≤ k → word.toNat.testBit k = false := fun hk =>
        Nat.testBit_lt_two_pow (Nat.lt_of_lt_of_le word.toNat_lt
          (Nat.pow_le_pow_right (by omega) hk))
      by_cases h6 : k < 32
      · simp [h1, h2, h3, h4, h6]
      · simp [h1, h2, h3, h4, h6, h5 (by omega)]
  · have h6 : k < 32 := by omega
    simp [h1, h6]

theorem withField_field (word : UInt32) {lo n : Nat} (h : lo + n ≤ 32) (i : Int) :
    BitVec.ofNat n ((withField word lo n i).toNat / 2 ^ lo) =
      BitVec.ofNat n (twosComplement n i) := by
  apply BitVec.eq_of_getLsbD_eq
  intro k hk
  rw [BitVec.getLsbD_ofNat, BitVec.getLsbD_ofNat, Nat.testBit_div_two_pow,
    testBit_withField word h, if_pos (by omega), Nat.add_sub_cancel]

/-! ## bytes and words -/

theorem ofLittleEndian_wordBytes (w : UInt32) : ofLittleEndian (wordBytes w) = w.toNat := by
  rw [wordBytes, ofLittleEndian_littleEndian]
  exact Nat.mod_eq_of_lt w.toNat_lt

theorem toNat_wordAt {bytes : List UInt8} (h : bytes.length = 4) :
    (wordAt bytes 0).toNat = ofLittleEndian bytes := by
  have hlt := Memory.ofLittleEndian_lt bytes
  rw [h] at hlt
  rw [wordAt, List.drop_zero, List.take_of_length_le (Nat.le_of_eq h), UInt32.toNat_ofNat']
  exact Nat.mod_eq_of_lt hlt

theorem testBit_append (as bs : List UInt8) {i : Nat} (h : i < 8 * as.length) :
    (ofLittleEndian (as ++ bs)).testBit i = (ofLittleEndian as).testBit i := by
  have e : ofLittleEndian (as ++ bs) =
      2 ^ (8 * as.length) * ofLittleEndian bs + ofLittleEndian as := by
    rw [ofLittleEndian_append, Nat.pow_mul, Nat.add_comm]
  have hlt : ofLittleEndian as < 2 ^ (8 * as.length) := by
    rw [Nat.pow_mul]
    exact Memory.ofLittleEndian_lt as
  rw [e, Nat.testBit_two_pow_mul_add _ hlt, if_pos h]

/-! ## filling in -/

theorem withField_bytes {bytes : List UInt8} (hb : bytes.length = 4) {lo n : Nat} (h : lo + n ≤ 32)
    (i : Int) : (wordBytes (withField (wordAt bytes 0) lo n i)).length = bytes.length ∧
      ∀ k, ¬ (lo ≤ k ∧ k < lo + n) →
        (ofLittleEndian (wordBytes (withField (wordAt bytes 0) lo n i))).testBit k =
          (ofLittleEndian bytes).testBit k := by
  refine ⟨by rw [hb]; exact length_littleEndian _ _, fun k hk => ?_⟩
  rw [ofLittleEndian_wordBytes, testBit_withField _ h, if_neg hk, toNat_wordAt hb]

theorem toInt_withField (word : UInt32) {lo n : Nat} (h : lo + (n + 1) ≤ 32) {i : Int}
    (hi : -2 ^ n ≤ i ∧ i < 2 ^ n) :
    (BitVec.ofNat (n + 1)
      (ofLittleEndian (wordBytes (withField word lo (n + 1) i)) / 2 ^ lo)).toInt = i := by
  rw [ofLittleEndian_wordBytes, withField_field _ h, toInt_twosComplement n hi]

/-- filling in the last four bytes: the others are as they were -/
theorem rel32_bits {bytes : List UInt8} (ds : List UInt8) {i : Nat}
    (hi : i < 8 * (bytes.length - 4)) :
    (ofLittleEndian (bytes.take (bytes.length - 4) ++ ds)).testBit i =
      (ofLittleEndian bytes).testBit i := by
  have hi' : i < 8 * (bytes.take (bytes.length - 4)).length := by
    rw [List.length_take, Nat.min_eq_left (Nat.sub_le _ _)]
    exact hi
  rw [testBit_append _ _ hi', ← testBit_append _ (bytes.drop (bytes.length - 4)) hi',
    List.take_append_drop]

theorem rel32_displacement {bytes : List UInt8} (h : 4 ≤ bytes.length) {i : Int}
    (hi : -2 ^ 31 ≤ i ∧ i < 2 ^ 31) :
    Field.rel32.displacement
      (bytes.take (bytes.length - 4) ++ littleEndian 4 (twosComplement 32 i)) = i := by
  have hlt := twosComplement_lt 32 i
  have hl : (bytes.take (bytes.length - 4)).length = bytes.length - 4 := by
    rw [List.length_take]
    omega
  have hn : (bytes.take (bytes.length - 4) ++ littleEndian 4 (twosComplement 32 i)).length - 4 =
      bytes.length - 4 := by
    rw [List.length_append, hl, length_littleEndian]
    omega
  show (BitVec.ofNat 32 _).toInt = i
  rw [hn, List.drop_left' hl, ofLittleEndian_littleEndian, Nat.mod_eq_of_lt (by omega),
    toInt_twosComplement 31 hi]

theorem four_mul_tdiv {rel : Int} (h : rel.tmod 4 = 0) : 4 * rel.tdiv 4 = rel := by
  have := Int.tmod_add_mul_tdiv rel 4
  omega

/-- **Filling in a displacement** changes the bits of the field only, and leads to the target. -/
theorem Branch.fill_ok {b : Branch} {pos t : Nat} {bytes bs : List UInt8}
    (hs : match b.field with
      | .rel32 => 4 ≤ bytes.length
      | _ => bytes.length = 4)
    (h : b.fill pos t bytes = .ok bs) :
    bs.length = bytes.length ∧
      (∀ i < 8 * bytes.length, ¬ b.field.Covers bytes.length i →
        (ofLittleEndian bs).testBit i = (ofLittleEndian bytes).testBit i) ∧
      (b.field.origin pos bytes.length : Int) + b.field.displacement bs = t ∧
      b.field.Spans ((t : Int) - b.field.origin pos bytes.length) := by
  refine ⟨Branch.length_fill hs h, ?_⟩
  unfold Branch.fill at h
  cases hf : b.field with
  | rel32 =>
    rw [hf] at h hs
    simp only at h hs
    split at h
    · cases h
    · rename_i hr
      have hrange : -2 ^ 31 ≤ ((t : Int) - (pos + bytes.length : Nat)) ∧
          ((t : Int) - (pos + bytes.length : Nat)) < 2 ^ 31 := by omega
      cases h
      refine ⟨fun i _ hi => rel32_bits _ (Nat.not_le.mp hi), ?_, hrange⟩
      rw [rel32_displacement hs hrange]
      show ((pos + bytes.length : Nat) : Int) + _ = t
      omega
  | imm26 =>
    rw [hf] at h hs
    simp only at h hs
    split at h
    · cases h
    · rename_i hm
      split at h
      · cases h
      · rename_i hr
        cases h
        have hrel := four_mul_tdiv (Decidable.not_not.mp hm)
        generalize ((t : Int) - pos).tdiv 4 = w at hr hrel ⊢
        have e := toInt_withField (wordAt bytes 0) (show 0 + 26 ≤ 32 by omega)
          (show -2 ^ 25 ≤ w ∧ w < 2 ^ 25 by omega)
        rw [Nat.pow_zero, Nat.div_one] at e
        refine ⟨fun i _ hi => (withField_bytes hs (by omega) w).2 i fun hc => hi ?_, ?_, ?_⟩
        · show i < 26
          omega
        · show (pos : Int) + 4 * (BitVec.ofNat 26 _).toInt = t
          rw [e]
          omega
        · show -2 ^ 27 ≤ (t : Int) - pos ∧ (t : Int) - pos < 2 ^ 27
          omega
  | imm19 =>
    rw [hf] at h hs
    simp only at h hs
    split at h
    · cases h
    · rename_i hm
      split at h
      · cases h
      · rename_i hr
        cases h
        have hrel := four_mul_tdiv (Decidable.not_not.mp hm)
        generalize ((t : Int) - pos).tdiv 4 = w at hr hrel ⊢
        have e := toInt_withField (wordAt bytes 0) (show 5 + 19 ≤ 32 by omega)
          (show -2 ^ 18 ≤ w ∧ w < 2 ^ 18 by omega)
        refine ⟨fun i _ hi => (withField_bytes hs (by omega) w).2 i hi, ?_, ?_⟩
        · show (pos : Int) + 4 * (BitVec.ofNat 19 _).toInt = t
          rw [e]
          omega
        · show -2 ^ 20 ≤ (t : Int) - pos ∧ (t : Int) - pos < 2 ^ 20
          omega

/-- why a displacement is not filled in: it is no number of words, or there is no room for it -/
theorem Branch.fill_error {b : Branch} {pos t : Nat} {bytes : List UInt8} {e : LabelFault}
    (h : b.fill pos t bytes = .error e) :
    (e = .misaligned ∧ b.field ≠ .rel32 ∧ ¬ (4 : Int) ∣ t - pos) ∨
      (e = .far b.field b.label ∧
        ¬ b.field.Spans ((t : Int) - b.field.origin pos bytes.length)) := by
  unfold Branch.fill at h
  cases hf : b.field with
  | rel32 =>
    rw [hf] at h
    simp only at h
    split at h
    · rename_i hr
      cases h
      refine .inr ⟨rfl, ?_⟩
      show ¬ (-2 ^ 31 ≤ ((t : Int) - (pos + bytes.length : Nat)) ∧
        ((t : Int) - (pos + bytes.length : Nat)) < 2 ^ 31)
      omega
    · cases h
  | imm26 | imm19 =>
    rw [hf] at h
    simp only at h
    split at h
    · rename_i hm
      cases h
      exact .inl ⟨rfl, nofun, fun hd => hm (Int.tmod_eq_zero_of_dvd hd)⟩
    · rename_i hm
      split at h
      · rename_i hr
        cases h
        have hrel := four_mul_tdiv (Decidable.not_not.mp hm)
        refine .inr ⟨rfl, ?_⟩
        simp only [Field.Spans, Field.origin]
        omega
      · cases h

/-! ## closing a chunk -/

section
variable {ι ε : Type} {encode : Nat → ι → Except ε Chunk} {lines : List (Line ι)} {c : Chunk} {pos : Nat}

/-- a closed chunk has the bits of its encoding outside the field, and its branch leads to where the
label is found -/
theorem Chunk.Shaped.close_fills (hs : c.Shaped) {labels : Labels} {bytes : List UInt8}
    (h : c.close labels pos = .ok bytes) :
    bytes.length = c.bytes.length ∧
      (∀ k < 8 * c.bytes.length, (∀ b, c.branch = some b → ¬ b.field.Covers c.bytes.length k) →
        (ofLittleEndian bytes).testBit k = (ofLittleEndian c.bytes).testBit k) ∧
      ∀ b, c.branch = some b → ∃ t, labels.lookup b.label = some t ∧
        (b.field.origin pos c.bytes.length : Int) + b.field.displacement bytes = t ∧
        b.field.Spans ((t : Int) - b.field.origin pos c.bytes.length) := by
  unfold Chunk.close at h
  cases hb : c.branch with
  | none =>
    rw [hb] at h
    cases h
    exact ⟨rfl, fun _ _ _ => rfl, nofun⟩
  | some b =>
    rw [hb] at h
    simp only at h
    split at h
    · cases h
    · rename_i t ht
      obtain ⟨hlen, hbits, hlead, hspan⟩ := Branch.fill_ok (hs b hb) h
      refine ⟨hlen, fun k hk hcov => hbits k hk (hcov b rfl), ?_⟩
      intro b' e
      cases e
      exact ⟨t, ht, hlead, hspan⟩

theorem Chunk.Shaped.close_ok (hs : c.Shaped) (hn : (markedLabels lines).Nodup) {bytes : List UInt8}
    (h : c.close (labelsOf encode lines) pos = .ok bytes) :
    bytes.length = c.bytes.length ∧
      (∀ k < 8 * c.bytes.length, (∀ b, c.branch = some b → ¬ b.field.Covers c.bytes.length k) →
        (ofLittleEndian bytes).testBit k = (ofLittleEndian c.bytes).testBit k) ∧
      ∀ b, c.branch = some b → ∃ t, StandsAt encode 0 lines t (.mark b.label) ∧
        (b.field.origin pos c.bytes.length : Int) + b.field.displacement bytes = t ∧
        b.field.Spans ((t : Int) - b.field.origin pos c.bytes.length) := by
  obtain ⟨hlen, hbits, hlead⟩ := hs.close_fills h
  refine ⟨hlen, hbits, fun b hb => ?_⟩
  obtain ⟨t, ht, hto⟩ := hlead b hb
  exact ⟨t, (lookup_marksFrom hn).mp ht, hto⟩

theorem Chunk.close_error (hn : (markedLabels lines).Nodup) {f : LabelFault}
    (h : c.close (labelsOf encode lines) pos = .error f) :
    ∃ b, c.branch = some b ∧
      ((f = .undefined b.field b.label ∧ Line.mark b.label ∉ lines) ∨
        ∃ t, StandsAt encode 0 lines t (.mark b.label) ∧
          ((f = .far b.field b.label ∧
              ¬ b.field.Spans ((t : Int) - b.field.origin pos c.bytes.length)) ∨
            (f = .misaligned ∧ b.field ≠ .rel32 ∧ ¬ (4 : Int) ∣ t - pos))) := by
  unfold Chunk.close at h
  cases hb : c.branch with
  | none =>
    rw [hb] at h
    cases h
  | some b =>
    rw [hb] at h
    simp only at h
    refine ⟨b, rfl, ?_⟩
    split at h
    · rename_i hnone
      cases h
      refine .inl ⟨rfl, fun hmem => ?_⟩
      obtain ⟨t, ht⟩ := standsAt_of_mem hmem 0
      rw [labelsOf, (lookup_marksFrom hn).mpr ht] at hnone
      cases hnone
    · rename_i t ht
      exact .inr ⟨t, (lookup_marksFrom hn).mp ht, (Branch.fill_error h).symm⟩

end

end TreeJit
