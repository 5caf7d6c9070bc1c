import TreeJit.Proofs.A64.Machine

/-!
# Words put together from fields

An instruction word is a base with numbers put into some of its fields (`pack`).  If the fields lie
apart from each other and from the ones of the base, each is read back, and the other bits are those
of the base (`pack_spec`).
-/

namespace TreeJit.A64

/-! ## bits -/

theorem testBit_field (w : UInt32) (lo n i : Nat) :
    (field w lo n).testBit i = (decide (i < n) && w.toNat.testBit (lo + i)) := by
  rw [field, Nat.testBit_mod_two_pow, Nat.testBit_div_two_pow, Nat.add_comm]

theorem field_or (x y : UInt32) (lo n : Nat) :
    field (x ||| y) lo n = field x lo n ||| field y lo n := by
  apply Nat.eq_of_testBit_eq
  intro i
  rw [Nat.testBit_or, testBit_field, testBit_field, testBit_field, UInt32.toNat_or, Nat.testBit_or,
    Bool.and_or_distrib_left]

theorem testBit_shiftLeft (x k : UInt32) (hk : k.toNat < 32) (i : Nat) :
    (x <<< k).toNat.testBit i = (decide (i < 32) && (decide (k.toNat ≤ i) && x.toNat.testBit (i - k.toNat))) := by
  rw [UInt32.toNat_shiftLeft, Nat.testBit_mod_two_pow, Nat.mod_eq_of_lt hk, Nat.testBit_shiftLeft]

section
variable {x k mask : UInt32} {lo n m : Nat}

theorem testBit_of_lt (hx : x.toNat < 2 ^ m) {i : Nat} (hi : m ≤ i) : x.toNat.testBit i = false :=
  Nat.testBit_lt_two_pow (Nat.lt_of_lt_of_le hx (Nat.pow_le_pow_right (by omega) hi))

theorem field_shiftLeft (hx : x.toNat < 2 ^ n) (hk : k.toNat = lo) (h : lo + n ≤ 32) (hn : 0 < n) :
    field (x <<< k) lo n = x.toNat := by
  apply Nat.eq_of_testBit_eq
  intro i
  rw [testBit_field, testBit_shiftLeft x k (by omega), hk, Nat.add_sub_cancel_left,
    decide_eq_true (Nat.le_add_right lo i), Bool.true_and]
  by_cases hi : i < n
  · rw [decide_eq_true hi, decide_eq_true (show lo + i < 32 by omega), Bool.true_and, Bool.true_and]
  · rw [decide_eq_false hi, testBit_of_lt hx (Nat.not_lt.mp hi), Bool.false_and]

theorem field_shiftLeft_apart (hx : x.toNat < 2 ^ m) (hk : k.toNat < 32)
    (h : lo + n ≤ k.toNat ∨ k.toNat + m ≤ lo) : field (x <<< k) lo n = 0 := by
  apply Nat.eq_of_testBit_eq
  intro i
  rw [testBit_field, testBit_shiftLeft x k hk, Nat.zero_testBit]
  by_cases hi : i < n
  · rcases h with h | h
    · rw [decide_eq_false (show ¬ k.toNat ≤ lo + i by omega), Bool.false_and, Bool.and_false,
        Bool.and_false]
    · rw [testBit_of_lt hx (by omega), Bool.and_false, Bool.and_false, Bool.and_false]
  · rw [decide_eq_false hi, Bool.false_and]

/-- a mask does not see what lies in a field that it does not have -/
theorem shiftLeft_and (hx : x.toNat < 2 ^ n) (hk : k.toNat < 32) (h : field mask k.toNat n = 0) :
    (x <<< k) &&& mask = 0 := by
  apply UInt32.toNat_inj.mp
  apply Nat.eq_of_testBit_eq
  intro i
  rw [UInt32.toNat_and, Nat.testBit_and, testBit_shiftLeft x k hk]
  show _ = Nat.testBit 0 i
  rw [Nat.zero_testBit]
  by_cases hi : k.toNat ≤ i
  · by_cases hn : i - k.toNat < n
    · have hb := testBit_field mask k.toNat n (i - k.toNat)
      rw [h, Nat.zero_testBit, decide_eq_true hn, Bool.true_and, Nat.add_sub_cancel' hi] at hb
      rw [← hb, Bool.and_false]
    · rw [testBit_of_lt hx (Nat.not_lt.mp hn), Bool.and_false, Bool.and_false, Bool.false_and]
  · rw [decide_eq_false hi, Bool.false_and, Bool.and_false, Bool.false_and]

end

theorem field_of_lt {x : UInt32} {lo : Nat} (h : x.toNat < 2 ^ lo) (n : Nat) : field x lo n = 0 := by
  rw [field, Nat.div_eq_of_lt h, Nat.zero_mod]

/-- a word that differs from another one in a field that is zero there -/
theorem exists_or_field {w w' : UInt32} {lo n : Nat} (h : lo + n ≤ 32) (hn : 0 < n) (hw : field w lo n = 0)
    (hbits : ∀ k < 32, ¬ (lo ≤ k ∧ k < lo + n) → w'.toNat.testBit k = w.toNat.testBit k) :
    ∃ x : UInt32, x.toNat = field w' lo n ∧ w' = w ||| (x <<< UInt32.ofNat lo) := by
  have hx : (UInt32.ofNat (field w' lo n)).toNat = field w' lo n := by
    have hlt : field w' lo n < 2 ^ n := Nat.mod_lt _ (Nat.two_pow_pos n)
    have hle : 2 ^ n ≤ 2 ^ 32 := Nat.pow_le_pow_right (by omega) (by omega)
    rw [UInt32.toNat_ofNat', Nat.mod_eq_of_lt (by omega)]
  have hlo : (UInt32.ofNat lo).toNat = lo := by
    rw [UInt32.toNat_ofNat', Nat.mod_eq_of_lt (by omega)]
  refine ⟨_, hx, UInt32.toNat_inj.mp (Nat.eq_of_testBit_eq fun k => ?_)⟩
  rw [UInt32.toNat_or, Nat.testBit_or, testBit_shiftLeft _ _ (by omega), hlo, hx, testBit_field]
  by_cases hk : k < 32
  · by_cases hin : lo ≤ k ∧ k < lo + n
    · have hzero := testBit_field w lo n (k - lo)
      rw [hw, Nat.zero_testBit, decide_eq_true (by omega), Bool.true_and, Nat.add_sub_cancel' hin.1] at hzero
      rw [← hzero, decide_eq_true hk, decide_eq_true hin.1, decide_eq_true (show k - lo < n by omega),
        Nat.add_sub_cancel' hin.1, Bool.false_or, Bool.true_and, Bool.true_and, Bool.true_and]
    · rw [hbits k hk hin]
      by_cases h1 : lo ≤ k
      · rw [decide_eq_false (show ¬ k - lo < n by omega), Bool.false_and, Bool.and_false, Bool.and_false,
          Bool.or_false]
      · rw [decide_eq_false h1, Bool.false_and, Bool.and_false, Bool.or_false]
  · rw [decide_eq_false hk, Bool.false_and, Bool.or_false, testBit_of_lt w'.toNat_lt (Nat.not_lt.mp hk),
      testBit_of_lt w.toNat_lt (Nat.not_lt.mp hk)]

theorem or_and (x y z : UInt32) : (x ||| y) &&& z = (x &&& z) ||| (y &&& z) := by
  apply UInt32.toNat_inj.mp
  apply Nat.eq_of_testBit_eq
  intro i
  simp only [UInt32.toNat_and, UInt32.toNat_or, Nat.testBit_and, Nat.testBit_or, Bool.and_or_distrib_right]

/-! ## packed words -/

/-- a base with numbers put into fields, given by their first bits and widths -/
def pack (base : UInt32) : List (UInt32 × Nat) → List UInt32 → UInt32
  | p :: ps, x :: xs => pack (base ||| (x <<< p.1)) ps xs
  | _, _ => base

theorem pack_nil (base : UInt32) : pack base [] [] = base := rfl

theorem pack_cons (base : UInt32) (p : UInt32 × Nat) (ps : List (UInt32 × Nat)) (x : UInt32)
    (xs : List UInt32) : pack base (p :: ps) (x :: xs) = pack (base ||| (x <<< p.1)) ps xs := rfl

theorem pack_low (base x : UInt32) (n : Nat) : pack base [(0, n)] [x] = base ||| x := by
  rw [pack_cons, pack_nil, UInt32.shiftLeft_zero]

/-- the fields lie apart from each other and have no bit of the base -/
def Packs (base : UInt32) (ps : List (UInt32 × Nat)) : Prop :=
  (∀ p ∈ ps, p.1.toNat + p.2 ≤ 32 ∧ 0 < p.2 ∧ field base p.1.toNat p.2 = 0) ∧
    ps.Pairwise fun p q => p.1.toNat + p.2 ≤ q.1.toNat ∨ q.1.toNat + q.2 ≤ p.1.toNat

instance (base : UInt32) (ps : List (UInt32 × Nat)) : Decidable (Packs base ps) :=
  inferInstanceAs (Decidable (_ ∧ _))

/-- **What a packed word shows**: every number in its field, the base in the fields beside them, and
the base under a mask that leaves the fields out. -/
theorem pack_spec {base : UInt32} {ps : List (UInt32 × Nat)} {xs : List UInt32} (h : Packs base ps)
    (hx : List.Forall₂ (fun p x => x.toNat < 2 ^ p.2) ps xs) :
    List.Forall₂ (fun p x => field (pack base ps xs) p.1.toNat p.2 = x.toNat) ps xs ∧
      (∀ lo n, (∀ p ∈ ps, lo + n ≤ p.1.toNat ∨ p.1.toNat + p.2 ≤ lo) →
        field (pack base ps xs) lo n = field base lo n) ∧
      ∀ mask, (∀ p ∈ ps, field mask p.1.toNat p.2 = 0) → pack base ps xs &&& mask = base &&& mask := by
  induction hx generalizing base with
  | nil => exact ⟨.nil, fun _ _ _ => rfl, fun _ _ => rfl⟩
  | @cons p x ps xs hlt hx ih =>
    obtain ⟨hin, hap⟩ := h
    obtain ⟨⟨h32, hpos, hz⟩, hin⟩ := List.forall_mem_cons.mp hin
    obtain ⟨hp, hap⟩ := List.pairwise_cons.mp hap
    have hk : p.1.toNat < 32 := by omega
    -- a field beside the first one sees the base
    have hbeside : ∀ lo n, (lo + n ≤ p.1.toNat ∨ p.1.toNat + p.2 ≤ lo) →
        field (base ||| (x <<< p.1)) lo n = field base lo n := by
      intro lo n hlo
      rw [field_or, field_shiftLeft_apart hlt hk hlo, Nat.or_zero]
    have hrest : Packs (base ||| (x <<< p.1)) ps := by
      refine ⟨fun q hq => ?_, hap⟩
      obtain ⟨hq32, hq0, hqz⟩ := hin q hq
      exact ⟨hq32, hq0, (hbeside _ _ (hp q hq).symm).trans hqz⟩
    obtain ⟨hself, hout, hmask⟩ := ih hrest
    refine ⟨.cons ?_ hself, fun lo n hlo => ?_, fun mask hm => ?_⟩
    · have e := hout p.1.toNat p.2 fun q hq => hp q hq
      rw [pack, e, field_or, hz, field_shiftLeft hlt rfl h32 hpos, Nat.zero_or]
    · obtain ⟨h1, h2⟩ := List.forall_mem_cons.mp hlo
      exact (hout lo n h2).trans (hbeside lo n h1)
    · obtain ⟨h1, h2⟩ := List.forall_mem_cons.mp hm
      rw [pack, hmask mask h2, or_and, shiftLeft_and hlt hk h1, UInt32.or_zero]

end TreeJit.A64
