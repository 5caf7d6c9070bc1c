import Mathlib.Algebra.Order.Field.Power
import Mathlib.Data.Rat.Lemmas
import Mathlib.Tactic.Linarith
import Mathlib.Tactic.Ring
import TreeJit.Word.Binary

/-!
# The nearest double

A finite double is a number, and of the doubles nearest to a number one has an even pattern
(`IsNearestDouble`).  There is only one such double (`IsNearestDouble.unique`), and for an integer it
is the one that `doubleOfInt` gives (`isNearest_doubleOfInt`).

Magnitudes are counted in units of the smallest one, `2 ^ (-1074)` (`doubleUnits`): they grow with the
pattern, and from a power of two on they are multiples of its last place.
-/

namespace TreeJit

def Binary.value? : Binary → Option ℚ
  | .finite neg m q => some ((if neg then -1 else 1) * m * 2 ^ q)
  | _ => none

def doubleValue? (bits : UInt64) : Option ℚ := (BinaryFormat.double.decode bits.toNat).value?

/-- `bits` is the double nearest to `x`, a tie goes to the even pattern, and zero has no sign -/
structure IsNearestDouble (x : ℚ) (bits : UInt64) : Prop where
  nearest : ∃ v, doubleValue? bits = some v ∧ ∀ c w, doubleValue? c = some w → |v - x| ≤ |w - x|
  even : ∀ v c w, doubleValue? bits = some v → doubleValue? c = some w → w ≠ v →
    |w - x| = |v - x| → 2 ∣ bits.toNat
  sign : 2 ^ 63 ≤ bits.toNat ↔ x < 0

/-! ## magnitudes -/

/-- the magnitude of a pattern without its sign, in units of the smallest magnitude -/
def doubleUnits (n : Nat) : Nat :=
  if n / 2 ^ 52 = 0 then n % 2 ^ 52 else (2 ^ 52 + n % 2 ^ 52) * 2 ^ (n / 2 ^ 52 - 1)

def doubleUnit : ℚ := 2 ^ (-1074 : ℤ)

theorem doubleUnit_pos : 0 < doubleUnit := zpow_pos (by norm_num) _

theorem units_of_one : ((2 ^ 1074 : Nat) : ℚ) * doubleUnit = 1 := by
  have h : ∀ k : Nat, ((2 ^ k : Nat) : ℚ) * 2 ^ (-k : ℤ) = 1 := fun k => by
    rw [Nat.cast_pow, Nat.cast_ofNat, ← zpow_natCast, ← zpow_add₀ two_ne_zero, add_neg_cancel,
      zpow_zero]
  exact h 1074

theorem doubleUnits_pack {m : Nat} (p : Nat) (h1 : 2 ^ 52 ≤ m) (h2 : m ≤ 2 ^ 53) :
    doubleUnits (m + p * 2 ^ 52) = m * 2 ^ p := by
  unfold doubleUnits
  rcases Nat.lt_or_eq_of_le h2 with h2 | rfl
  · have hd : (m + p * 2 ^ 52) / 2 ^ 52 = p + 1 := by omega
    have hm : (m + p * 2 ^ 52) % 2 ^ 52 = m - 2 ^ 52 := by omega
    rw [hd, hm, if_neg (Nat.succ_ne_zero p), Nat.add_sub_cancel, Nat.add_sub_cancel' h1]
  · have hd : (2 ^ 53 + p * 2 ^ 52) / 2 ^ 52 = p + 2 := by omega
    have hm : (2 ^ 53 + p * 2 ^ 52) % 2 ^ 52 = 0 := by omega
    rw [hd, hm, if_neg (Nat.succ_ne_zero _), Nat.add_zero, show p + 2 - 1 = p + 1 from rfl,
      Nat.pow_succ 2 p, ← Nat.mul_assoc, Nat.mul_right_comm]

/-- a pattern is small or is put together from a fraction and an exponent -/
theorem doubleUnits_cases (n : Nat) : (n < 2 ^ 52 ∧ doubleUnits n = n) ∨
    ∃ m p, n = m + p * 2 ^ 52 ∧ 2 ^ 52 ≤ m ∧ m < 2 ^ 53 ∧ doubleUnits n = m * 2 ^ p := by
  by_cases h : n < 2 ^ 52
  · refine .inl ⟨h, ?_⟩
    rw [doubleUnits, if_pos (Nat.div_eq_of_lt h), Nat.mod_eq_of_lt h]
  · have e : n = (n % 2 ^ 52 + 2 ^ 52) + (n / 2 ^ 52 - 1) * 2 ^ 52 := by omega
    refine .inr ⟨n % 2 ^ 52 + 2 ^ 52, n / 2 ^ 52 - 1, e, by omega, by omega, ?_⟩
    conv_lhs => rw [e]
    exact doubleUnits_pack _ (by omega) (by omega)

/-- **Magnitudes grow with the pattern.** -/
theorem strictMono_doubleUnits : StrictMono doubleUnits := by
  refine strictMono_nat_of_lt_succ fun n => ?_
  rcases doubleUnits_cases n with ⟨h, e⟩ | ⟨m, p, rfl, h1, h2, e⟩
  · rcases Nat.lt_or_eq_of_le (Nat.succ_le_of_lt h) with hs | hs
    · rw [e, doubleUnits, if_pos (Nat.div_eq_of_lt hs), Nat.mod_eq_of_lt hs]
      exact Nat.lt_succ_self n
    · rw [e, show n + 1 = 2 ^ 52 + 0 * 2 ^ 52 by omega, doubleUnits_pack 0 (by omega) (by omega)]
      omega
  · rw [e, show m + p * 2 ^ 52 + 1 = m + 1 + p * 2 ^ 52 by omega,
      doubleUnits_pack p (by omega) (by omega)]
    exact Nat.mul_lt_mul_of_pos_right (Nat.lt_succ_self m) (Nat.two_pow_pos p)

/-- from `2 ^ (52 + p)` units on, magnitudes are multiples of `2 ^ p` units -/
theorem dvd_doubleUnits {n p : Nat} (h : (p + 1) * 2 ^ 52 ≤ n) : 2 ^ p ∣ doubleUnits n := by
  rcases doubleUnits_cases n with ⟨hn, -⟩ | ⟨m, q, rfl, -, hm, e⟩
  · omega
  · rw [e]
    exact Nat.dvd_mul_left_of_dvd (Nat.pow_dvd_pow 2 (by omega)) m

/-- **What a finite double is as a number.** -/
theorem doubleValue?_eq (bits : UInt64) : doubleValue? bits =
    if bits.toNat % 2 ^ 63 < 2047 * 2 ^ 52 then
      some ((if 2 ^ 63 ≤ bits.toNat then -1 else 1) * doubleUnits (bits.toNat % 2 ^ 63) * doubleUnit)
    else none := by
  have hlt : bits.toNat < 2 ^ 64 := bits.toNat_lt
  have hneg : (bits.toNat / 2 ^ 63 % 2 == 1) = decide (2 ^ 63 ≤ bits.toNat) := by
    rw [Bool.eq_iff_iff, beq_iff_eq, decide_eq_true_eq]
    omega
  have he : bits.toNat / 2 ^ 52 % 2 ^ 11 = bits.toNat % 2 ^ 63 / 2 ^ 52 := by omega
  have hf : bits.toNat % 2 ^ 52 = bits.toNat % 2 ^ 63 % 2 ^ 52 := by omega
  have hdec : BinaryFormat.double.decode bits.toNat =
      if bits.toNat % 2 ^ 63 / 2 ^ 52 = 2047 then
        if bits.toNat % 2 ^ 63 % 2 ^ 52 = 0 then .infinite (decide (2 ^ 63 ≤ bits.toNat)) else .nan
      else if bits.toNat % 2 ^ 63 / 2 ^ 52 = 0 then
        .finite (decide (2 ^ 63 ≤ bits.toNat)) (bits.toNat % 2 ^ 63 % 2 ^ 52) (-1074)
      else .finite (decide (2 ^ 63 ≤ bits.toNat)) (2 ^ 52 + bits.toNat % 2 ^ 63 % 2 ^ 52)
        (-1074 + (bits.toNat % 2 ^ 63 / 2 ^ 52 - 1 : Nat)) := by
    rw [← hneg, ← he, ← hf]
    rfl
  have hn : bits.toNat % 2 ^ 63 < 2 ^ 63 := Nat.mod_lt _ (Nat.two_pow_pos 63)
  generalize bits.toNat % 2 ^ 63 = n at hdec hn ⊢
  rw [doubleValue?, hdec]
  by_cases htop : n / 2 ^ 52 = 2047
  · have hfar : ¬ n < 2047 * 2 ^ 52 := by omega
    rw [if_pos htop, if_neg hfar]
    split <;> rfl
  · have hnear : n < 2047 * 2 ^ 52 := by omega
    rw [if_neg htop, if_pos hnear, doubleUnits, doubleUnit]
    split
    · simp only [Binary.value?, decide_eq_true_eq]
    · simp only [Binary.value?, decide_eq_true_eq]
      refine congrArg some ?_
      rw [zpow_add₀ two_ne_zero, zpow_natCast]
      generalize (2 : ℚ) ^ (-1074 : ℤ) = unit
      push_cast
      ring

/-! ## only one double is nearest -/

def doubleSign (bits : UInt64) : ℚ := if 2 ^ 63 ≤ bits.toNat then -1 else 1

theorem doubleValue?_eq_some_iff {bits : UInt64} {v : ℚ} : doubleValue? bits = some v ↔
    bits.toNat % 2 ^ 63 < 2047 * 2 ^ 52 ∧
      v = doubleSign bits * doubleUnits (bits.toNat % 2 ^ 63) * doubleUnit := by
  rw [doubleValue?_eq, doubleSign]
  split
  · exact ⟨fun h => ⟨‹_›, (Option.some.inj h).symm⟩, fun h => congrArg some h.2.symm⟩
  · exact ⟨nofun, fun h => absurd h.1 ‹_›⟩

/-- between two different doubles of one sign with even patterns there is another one -/
theorem exists_double_between {b c : UInt64} {v w : ℚ} (hv : doubleValue? b = some v)
    (hw : doubleValue? c = some w) (hs : 2 ^ 63 ≤ b.toNat ↔ 2 ^ 63 ≤ c.toNat)
    (hb : 2 ∣ b.toNat) (hc : 2 ∣ c.toNat) (hlt : b.toNat % 2 ^ 63 < c.toNat % 2 ^ 63) :
    ∃ d u, doubleValue? d = some u ∧ (v < u ∧ u < w ∨ w < u ∧ u < v) := by
  obtain ⟨-, rfl⟩ := doubleValue?_eq_some_iff.mp hv
  obtain ⟨hfin, rfl⟩ := doubleValue?_eq_some_iff.mp hw
  have hlb : b.toNat < 2 ^ 64 := b.toNat_lt
  have hlc : c.toNat < 2 ^ 64 := c.toNat_lt
  have hd : (UInt64.ofNat (b.toNat + 1)).toNat = b.toNat + 1 :=
    UInt64.toNat_ofNat_of_lt' (by show b.toNat + 1 < 2 ^ 64; omega)
  have hmod : (b.toNat + 1) % 2 ^ 63 = b.toNat % 2 ^ 63 + 1 := by omega
  have hsc : doubleSign c = doubleSign b := by
    rw [doubleSign, doubleSign]
    exact if_congr hs.symm rfl rfl
  have hsd : doubleSign (UInt64.ofNat (b.toNat + 1)) = doubleSign b := by
    rw [doubleSign, doubleSign, hd]
    exact if_congr (by omega) rfl rfl
  refine ⟨UInt64.ofNat (b.toNat + 1), _, doubleValue?_eq_some_iff.mpr ⟨?_, rfl⟩, ?_⟩
  · rw [hd, hmod]
    omega
  -- the pattern behind `b` is in front of `c`, as both are even
  have h1 : (doubleUnits (b.toNat % 2 ^ 63) : ℚ) < doubleUnits (b.toNat % 2 ^ 63 + 1) :=
    Nat.cast_lt.mpr (strictMono_doubleUnits (Nat.lt_succ_self _))
  have h2 : (doubleUnits (b.toNat % 2 ^ 63 + 1) : ℚ) < doubleUnits (c.toNat % 2 ^ 63) :=
    Nat.cast_lt.mpr (strictMono_doubleUnits (by omega))
  rw [hsc, hsd, hd, hmod]
  rw [doubleSign]
  have hu := doubleUnit_pos
  split
  · refine .inr ⟨?_, ?_⟩ <;> exact mul_lt_mul_of_pos_right (by linarith) hu
  · refine .inl ⟨?_, ?_⟩ <;> exact mul_lt_mul_of_pos_right (by linarith) hu

/-- **Only one double is nearest** to a number. -/
theorem IsNearestDouble.unique {x : ℚ} {b c : UInt64} (hb : IsNearestDouble x b)
    (hc : IsNearestDouble x c) : b = c := by
  obtain ⟨v, hv, hbn⟩ := hb.nearest
  obtain ⟨w, hw, hcn⟩ := hc.nearest
  have hdist : |v - x| = |w - x| := le_antisymm (hbn c w hw) (hcn b v hv)
  have hs : 2 ^ 63 ≤ b.toNat ↔ 2 ^ 63 ≤ c.toNat := hb.sign.trans hc.sign.symm
  have hlb : b.toNat < 2 ^ 64 := b.toNat_lt
  have hlc : c.toNat < 2 ^ 64 := c.toNat_lt
  have hmid : ∀ d u, doubleValue? d = some u → ¬ (v < u ∧ u < w ∨ w < u ∧ u < v) := by
    intro d u hu hbetween
    have hle := hbn d u hu
    rcases abs_cases (v - x) with ⟨e1, _⟩ | ⟨e1, _⟩ <;>
      rcases abs_cases (w - x) with ⟨e2, _⟩ | ⟨e2, _⟩ <;>
      rcases abs_cases (u - x) with ⟨e3, _⟩ | ⟨e3, _⟩ <;>
      rcases hbetween with ⟨_, _⟩ | ⟨_, _⟩ <;> linarith
  have hmag : b.toNat % 2 ^ 63 = c.toNat % 2 ^ 63 := by
    by_cases hvw : w = v
    · -- the same number has one magnitude
      obtain ⟨-, e1⟩ := doubleValue?_eq_some_iff.mp hv
      obtain ⟨-, e2⟩ := doubleValue?_eq_some_iff.mp hw
      have hsign : doubleSign c = doubleSign b := by
        rw [doubleSign, doubleSign]
        exact if_congr hs.symm rfl rfl
      have hne : doubleSign b ≠ 0 := by
        rw [doubleSign]
        split <;> norm_num
      rw [e1, e2, hsign] at hvw
      have h := mul_left_cancel₀ hne (mul_right_cancel₀ doubleUnit_pos.ne' hvw)
      exact (strictMono_doubleUnits.injective (Nat.cast_injective h)).symm
    · have heb := hb.even v c w hv hw hvw hdist.symm
      have hec := hc.even w b v hw hv (Ne.symm hvw) hdist
      rcases Nat.lt_trichotomy (b.toNat % 2 ^ 63) (c.toNat % 2 ^ 63) with h | h | h
      · obtain ⟨d, u, hu, hbetween⟩ := exists_double_between hv hw hs heb hec h
        exact absurd hbetween (hmid d u hu)
      · exact h
      · obtain ⟨d, u, hu, hbetween⟩ := exists_double_between hw hv hs.symm hec heb h
        exact absurd hbetween.symm (hmid d u hu)
  exact UInt64.toNat_inj.mp (by omega)

/-! ## integers -/

theorem roundDiv_near (num : Nat) {den : Nat} (hd : 0 < den) :
    2 * |(BinaryFormat.roundDiv num den * den : ℤ) - num| ≤ den ∧
      (2 * |(BinaryFormat.roundDiv num den * den : ℤ) - num| = den →
        2 ∣ BinaryFormat.roundDiv num den) := by
  have hmod := Nat.mod_lt num hd
  have hdm : den * (num / den) + num % den = num := Nat.div_add_mod num den
  obtain ⟨q, hq⟩ : ∃ q, num / den = q := ⟨_, rfl⟩
  obtain ⟨r, hr⟩ : ∃ r, num % den = r := ⟨_, rfl⟩
  rw [hq, hr] at hdm
  rw [hr] at hmod
  have hlow : (q * den : ℤ) - num = -r := by
    rw [← hdm]
    push_cast
    ring
  have hhigh : ((q + 1 : Nat) * den : ℤ) - num = den - r := by
    rw [← hdm]
    push_cast
    ring
  simp only [BinaryFormat.roundDiv, hq, hr]
  split
  · rw [hhigh, abs_of_nonneg (by omega)]
    omega
  · rw [hlow, abs_neg, abs_of_nonneg (by omega)]
    omega

/-- the double `m * 2 ^ p` units is nearest to `x` units if it is off by half of its last place at
most; a tie is even -/
theorem doubleUnits_nearest {x : ℚ} {m p : Nat} (hx : 2 ^ 52 * 2 ^ p ≤ x)
    (hm : 2 * |m * 2 ^ p - x| ≤ 2 ^ p) (heven : 2 * |m * 2 ^ p - x| = 2 ^ p → 2 ∣ m) (n : Nat) :
    |m * 2 ^ p - x| ≤ |doubleUnits n - x| ∧
      (|doubleUnits n - x| = |m * 2 ^ p - x| → (doubleUnits n : ℚ) ≠ m * 2 ^ p → 2 ∣ m) := by
  have hp : (0 : ℚ) < 2 ^ p := by positivity
  -- another multiple of the last place is one place off at least
  have hmul : ∀ j : Nat, j ≠ m → 2 ^ p ≤ |(j * 2 ^ p : ℚ) - x| + |m * 2 ^ p - x| := by
    intro j hj
    have hone : (1 : ℚ) ≤ |(j : ℚ) - m| := by
      exact_mod_cast Int.one_le_abs (show (j : ℤ) - m ≠ 0 by omega)
    calc (2 : ℚ) ^ p ≤ |(j : ℚ) - m| * 2 ^ p := le_mul_of_one_le_left hp.le hone
      _ = |(j * 2 ^ p : ℚ) - m * 2 ^ p| := by rw [← sub_mul, abs_mul, abs_of_pos hp]
      _ ≤ |(j * 2 ^ p : ℚ) - x| + |x - m * 2 ^ p| := abs_sub_le _ _ _
      _ = |(j * 2 ^ p : ℚ) - x| + |m * 2 ^ p - x| := by rw [abs_sub_comm x]
  by_cases hn : (p + 1) * 2 ^ 52 ≤ n
  · obtain ⟨j, hj⟩ := dvd_doubleUnits hn
    have hju : (doubleUnits n : ℚ) = j * 2 ^ p := by rw [hj, Nat.mul_comm]; push_cast; rfl
    rw [hju]
    by_cases hjm : j = m
    · rw [hjm]
      exact ⟨le_refl _, fun _ h => absurd rfl h⟩
    · have h := hmul j hjm
      exact ⟨by linarith, fun e _ => heven (by linarith)⟩
  · -- what is smaller is farther away than the power of two below `x`
    have hlt : (doubleUnits n : ℚ) < 2 ^ 52 * 2 ^ p := by
      have h := strictMono_doubleUnits (show n < 2 ^ 52 + p * 2 ^ 52 by omega)
      rw [doubleUnits_pack p (le_refl _) (by omega)] at h
      exact_mod_cast h
    have hpow : |m * 2 ^ p - x| ≤ x - 2 ^ 52 * 2 ^ p := by
      by_cases h : 2 ^ 52 = m
      · rw [← h, abs_sub_comm, Nat.cast_pow, Nat.cast_ofNat, abs_of_nonneg (by linarith)]
      · have := hmul (2 ^ 52) h
        rw [abs_sub_comm, Nat.cast_pow, Nat.cast_ofNat, abs_of_nonneg (by linarith)] at this
        linarith
    rw [abs_sub_comm (doubleUnits n : ℚ), abs_of_nonneg (a := x - doubleUnits n) (by linarith)]
    exact ⟨by linarith, fun e _ => by linarith⟩

theorem floorLog2_one {n : Nat} (hn : n ≠ 0) : BinaryFormat.floorLog2 n 1 = n.log2 := by
  have hlog : (1 : Nat).log2 = 0 := by decide
  unfold BinaryFormat.floorLog2
  simp only [hlog, Nat.cast_zero, sub_zero, Int.toNat_natCast, one_mul, Int.toNat_neg_natCast,
    pow_zero, mul_one, if_neg (Nat.not_lt.mpr (Nat.log2_self_le hn))]

theorem roundDiv_bounds {a b lo hi : Nat} (hb : 0 < b) (h1 : lo * b ≤ a) (h2 : a ≤ hi * b) :
    lo ≤ BinaryFormat.roundDiv a b ∧ BinaryFormat.roundDiv a b ≤ hi := by
  have hnear := (roundDiv_near a hb).1
  generalize BinaryFormat.roundDiv a b = m at hnear ⊢
  have habs := le_abs_self ((m * b : ℤ) - a)
  have habs' := neg_abs_le ((m * b : ℤ) - a)
  have h1' : (lo * b : ℤ) ≤ a := by exact_mod_cast h1
  have h2' : (a : ℤ) ≤ hi * b := by exact_mod_cast h2
  have hb' : (0 : ℤ) < b := by exact_mod_cast hb
  constructor
  · by_contra hlt
    have h : ((m + 1) * b : ℤ) ≤ lo * b :=
      mul_le_mul_of_nonneg_right (by exact_mod_cast Nat.lt_of_not_le hlt) hb'.le
    linarith
  · by_contra hlt
    have h : ((hi + 1) * b : ℤ) ≤ m * b :=
      mul_le_mul_of_nonneg_right (by exact_mod_cast Nat.lt_of_not_le hlt) hb'.le
    linarith

theorem roundDiv_units {a b c p m : Nat} (hb : 0 < b) (hc : b * c = 2 ^ p)
    (hm : BinaryFormat.roundDiv a b = m) :
    2 * |(m * 2 ^ p : ℚ) - (a * c : Nat)| ≤ 2 ^ p ∧
      (2 * |(m * 2 ^ p : ℚ) - (a * c : Nat)| = 2 ^ p → 2 ∣ m) := by
  obtain ⟨hnear, heven⟩ := roundDiv_near a hb
  rw [hm] at hnear heven
  have hcpos : (0 : ℚ) < c := by
    have : c ≠ 0 := by
      rintro rfl
      exact absurd hc (Nat.two_pow_pos p).ne
    exact_mod_cast Nat.pos_of_ne_zero this
  have hp : (2 : ℚ) ^ p = b * c := by exact_mod_cast hc.symm
  have hscale : 2 * |(m * 2 ^ p : ℚ) - (a * c : Nat)| = (2 * |(m * b : ℤ) - a| : ℤ) * c := by
    rw [hp, show (m * (b * c) : ℚ) - (a * c : Nat) = ((m * b : ℤ) - a : ℤ) * c by push_cast; ring,
      abs_mul, abs_of_pos hcpos]
    push_cast
    ring
  rw [hscale, hp]
  refine ⟨mul_le_mul_of_nonneg_right (by exact_mod_cast hnear) hcpos.le, fun e => heven ?_⟩
  exact_mod_cast mul_right_cancel₀ hcpos.ne' e

theorem pattern_le {m p : Nat} (hm : m ≤ 2 ^ 53) (hp : p ≤ 1085) : m + p * 2 ^ 52 ≤ 2047 * 2 ^ 52 := by
  omega

/-- the pattern for a positive natural number: a fraction, an exponent, and what they are off by -/
theorem exists_round_nat {n : Nat} (hn : n ≠ 0) (hlt : n < 2 ^ 64) (neg : Bool) : ∃ m p : Nat,
    BinaryFormat.double.round neg n 1 = (if neg then 2 ^ 63 else 0) + (m + p * 2 ^ 52) ∧
      2 ^ 52 ≤ m ∧ m ≤ 2 ^ 53 ∧ p ≤ 1085 ∧ 2 ^ 52 * 2 ^ p ≤ n * 2 ^ 1074 ∧
      2 * |(m * 2 ^ p : ℚ) - (n * 2 ^ 1074 : Nat)| ≤ 2 ^ p ∧
      (2 * |(m * 2 ^ p : ℚ) - (n * 2 ^ 1074 : Nat)| = 2 ^ p → 2 ∣ m) := by
  obtain ⟨k, hk⟩ : ∃ k, n.log2 = k := ⟨_, rfl⟩
  have hlow : 2 ^ k ≤ n := hk ▸ Nat.log2_self_le hn
  have hhigh : n < 2 ^ (k + 1) := hk ▸ Nat.lt_log2_self
  have hk64 : k < 64 := (Nat.pow_lt_pow_iff_right (by decide)).mp (Nat.lt_of_le_of_lt hlow hlt)
  -- the quotient that is rounded, and its unit
  obtain ⟨m, hm⟩ : ∃ m, BinaryFormat.roundDiv (n * 2 ^ (52 - k)) (2 ^ (k - 52)) = m := ⟨_, rfl⟩
  have hunit : 2 ^ (k - 52) * 2 ^ (min k 52 + 1022) = 2 ^ (k + 1022) := by
    rw [← Nat.pow_add, show k - 52 + (min k 52 + 1022) = k + 1022 by omega]
  have hscale : n * 2 ^ (52 - k) * 2 ^ (min k 52 + 1022) = n * 2 ^ 1074 := by
    rw [Nat.mul_assoc, ← Nat.pow_add, show 52 - k + (min k 52 + 1022) = 1074 by omega]
  obtain ⟨hnear, heven⟩ := roundDiv_units (Nat.two_pow_pos (k - 52)) hunit hm
  rw [hscale] at hnear heven
  obtain ⟨hm1, hm2⟩ : 2 ^ 52 ≤ m ∧ m ≤ 2 ^ 53 := by
    rw [← hm]
    refine roundDiv_bounds (Nat.two_pow_pos _) ?_ ?_
    · rw [← Nat.pow_add, show 52 + (k - 52) = k + (52 - k) by omega, Nat.pow_add]
      exact Nat.mul_le_mul_right _ hlow
    · rw [← Nat.pow_add, show 53 + (k - 52) = k + 1 + (52 - k) by omega, Nat.pow_add]
      exact Nat.mul_le_mul_right _ hhigh.le
  have hle : 2 ^ 52 * 2 ^ (k + 1022) ≤ n * 2 ^ 1074 := by
    rw [← Nat.pow_add, show 52 + (k + 1022) = k + 1074 by omega, Nat.pow_add]
    exact Nat.mul_le_mul_right _ hlow
  refine ⟨m, k + 1022, ?_, hm1, hm2, by omega, hle, hnear, heven⟩
  have hplace : max ((k : ℤ) - 52) (-1074) = k - 52 := by omega
  have h1 : (-((k : ℤ) - 52)).toNat = 52 - k := by omega
  have h2 : ((k : ℤ) - 52).toNat = k - 52 := by omega
  have h3 : ((k : ℤ) - 52 - -1074).toNat = k + 1022 := by omega
  have hmin : min (2047 * 2 ^ 52) (m + (k + 1022) * 2 ^ 52) = m + (k + 1022) * 2 ^ 52 :=
    Nat.min_eq_right (pattern_le hm2 (by omega))
  have hround : BinaryFormat.double.round neg n 1 = BinaryFormat.double.withSign neg
      (min (2047 * 2 ^ 52) (BinaryFormat.roundDiv (n * 2 ^ (-max ((k : ℤ) - 52) (-1074)).toNat)
        (1 * 2 ^ (max ((k : ℤ) - 52) (-1074)).toNat) +
        (max ((k : ℤ) - 52) (-1074) - -1074).toNat * 2 ^ 52)) := by
    rw [BinaryFormat.round, if_neg hn, floorLog2_one hn, hk]
    rfl
  rw [hround, hplace, h1, h2, h3, one_mul, hm, hmin]
  cases neg
  · simp only [BinaryFormat.withSign, Bool.false_eq_true, if_false, Nat.zero_add]
  · rfl

/-- a double with the fraction `m` and the exponent `p` is nearest to `y` units with its sign, if it
is off by half of its last place at most and a tie is even -/
theorem isNearest_of_units {x y : ℚ} {bits : UInt64} {m p : Nat}
    (hmod : bits.toNat % 2 ^ 63 = m + p * 2 ^ 52) (hm1 : 2 ^ 52 ≤ m) (hm2 : m ≤ 2 ^ 53)
    (hp : p ≤ 1085) (hsign : 2 ^ 63 ≤ bits.toNat ↔ x < 0) (hx : x = doubleSign bits * y * doubleUnit)
    (hy : 2 ^ 52 * 2 ^ p ≤ y) (hnear : 2 * |m * 2 ^ p - y| ≤ 2 ^ p)
    (heven : 2 * |m * 2 ^ p - y| = 2 ^ p → 2 ∣ m) : IsNearestDouble x bits := by
  obtain ⟨s, hs⟩ : ∃ s : ℚ, doubleSign bits = s := ⟨_, rfl⟩
  rw [hs] at hx
  have hs1 : s = 1 ∨ s = -1 := by
    rw [← hs, doubleSign]
    split
    · exact .inr rfl
    · exact .inl rfl
  have hval : doubleValue? bits = some (s * (m * 2 ^ p) * doubleUnit) := by
    rw [doubleValue?_eq_some_iff, hmod, doubleUnits_pack p hm1 hm2, hs]
    refine ⟨by omega, ?_⟩
    push_cast
    rfl
  have hbits : 2 ∣ m → 2 ∣ bits.toNat := by omega
  -- distances are counted in units, and the sign has no part in them
  have hdist : ∀ u : ℚ, |s * u * doubleUnit - x| = |u - y| * doubleUnit := by
    intro u
    have habs : |s| = 1 := by rcases hs1 with rfl | rfl <;> simp
    rw [hx, ← sub_mul, ← mul_sub, abs_mul, abs_mul, habs, one_mul, abs_of_pos doubleUnit_pos]
  have hcases : ∀ c w, doubleValue? c = some w → ∃ n : Nat,
      w = s * doubleUnits n * doubleUnit ∨ w = s * (-doubleUnits n) * doubleUnit := by
    intro c w hw
    obtain ⟨-, rfl⟩ := doubleValue?_eq_some_iff.mp hw
    refine ⟨c.toNat % 2 ^ 63, ?_⟩
    rw [doubleSign]
    rcases hs1 with rfl | rfl <;> split <;> simp
  -- a double of the other sign is farther away than zero
  have hother : ∀ n : Nat, |m * 2 ^ p - y| < |-(doubleUnits n : ℚ) - y| := by
    intro n
    have hn : (0 : ℚ) ≤ doubleUnits n := Nat.cast_nonneg _
    have hp0 : (0 : ℚ) < 2 ^ p := by positivity
    have habs : |-(doubleUnits n : ℚ) - y| = y + doubleUnits n := by
      rw [abs_sub_comm, sub_neg_eq_add, abs_of_nonneg (by linarith)]
    rw [habs]
    linarith
  refine ⟨⟨_, hval, fun c w hw => ?_⟩, fun v c w hv hw hne hd => ?_, hsign⟩
  · obtain ⟨n, rfl | rfl⟩ := hcases c w hw
    · rw [hdist, hdist]
      exact mul_le_mul_of_nonneg_right (doubleUnits_nearest hy hnear heven n).1 doubleUnit_pos.le
    · rw [hdist, hdist]
      exact mul_le_mul_of_nonneg_right (hother n).le doubleUnit_pos.le
  · obtain rfl := Option.some.inj (hval.symm.trans hv)
    obtain ⟨n, rfl | rfl⟩ := hcases c w hw
    · rw [hdist, hdist] at hd
      refine hbits ((doubleUnits_nearest hy hnear heven n).2
        (mul_right_cancel₀ doubleUnit_pos.ne' hd) fun e => hne ?_)
      rw [e]
    · rw [hdist, hdist] at hd
      exact absurd (mul_right_cancel₀ doubleUnit_pos.ne' hd) (hother n).ne'

theorem isNearest_zero : IsNearestDouble 0 0 := by
  have hzero : doubleValue? 0 = some 0 := by
    rw [doubleValue?_eq_some_iff]
    exact ⟨by decide, by simp [doubleUnits]⟩
  refine ⟨⟨0, hzero, fun c w _ => ?_⟩, fun _ _ _ _ _ _ _ => Nat.dvd_zero 2, ?_⟩
  · rw [sub_zero, abs_zero]
    exact abs_nonneg _
  · simp

/-- **An integer becomes the nearest double.** -/
theorem isNearest_doubleOfInt {i : ℤ} (hi : i.natAbs < 2 ^ 64) :
    IsNearestDouble i (doubleOfInt i) := by
  by_cases h0 : i = 0
  · subst h0
    rw [show doubleOfInt 0 = 0 by decide, Int.cast_zero]
    exact isNearest_zero
  obtain ⟨m, p, hround, hm1, hm2, hp, hle, hnear, heven⟩ :=
    exists_round_nat (Int.natAbs_ne_zero.mpr h0) hi (decide (i < 0))
  have hbits : (doubleOfInt i).toNat = (if i < 0 then 2 ^ 63 else 0) + (m + p * 2 ^ 52) := by
    rw [doubleOfInt, hround, UInt64.toNat_ofNat_of_lt']
    · simp only [decide_eq_true_eq]
    · show _ < 2 ^ 64
      split <;> omega
  have hmod : (doubleOfInt i).toNat % 2 ^ 63 = m + p * 2 ^ 52 := by
    rw [hbits]
    split <;> omega
  have hsign : 2 ^ 63 ≤ (doubleOfInt i).toNat ↔ i < 0 := by
    rw [hbits]
    split
    · exact ⟨fun _ => ‹_›, fun _ => by omega⟩
    · exact ⟨fun _ => by omega, fun _ => absurd ‹_› ‹_›⟩
  refine isNearest_of_units hmod hm1 hm2 hp (hsign.trans ?_) ?_ (by exact_mod_cast hle) hnear heven
  · exact_mod_cast Iff.rfl
  · rw [doubleSign, if_congr hsign rfl rfl, Nat.cast_mul, ← mul_assoc, mul_assoc (_ * _),
      units_of_one, mul_one, Nat.cast_natAbs, Int.cast_abs]
    split
    · rw [abs_of_neg (by exact_mod_cast ‹i < 0›), neg_mul_neg, one_mul]
    · rw [abs_of_nonneg (by exact_mod_cast Int.not_lt.mp ‹_›), one_mul]

/-- `2 ^ 53 + 1` lies between two doubles -/
example : doubleOfInt 9007199254740993 = doubleOfInt 9007199254740992 := by decide

end TreeJit
