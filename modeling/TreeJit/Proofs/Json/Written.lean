import Mathlib.Data.List.Basic
import TreeJit.Decimal.Reader
import TreeJit.Json.Quoted
import TreeJit.Json.Reader

/-!
# Written JSON reads back

The writer quotes strings and spells numbers, the reader takes the value at the start of a list of
bytes.  Here the reader meets what the writer made, with anything behind it.

* `utf8Next_utf8Char`      a character;
* `digits?_toDigits`       a number in decimal digits;
* `JsonValue.string_quoted`   a string;
* `JsonValue.value_quoted`, `value_toString`   strings and numbers as values;
* `JsonValue.members_one`, `members_more`    members of an object, one by one.
-/

namespace TreeJit

/-! ## characters -/

theorem length_utf8Code (n : Nat) : 0 < (utf8Code n).length ∧ (utf8Code n).length ≤ 4 := by
  unfold utf8Code
  split
  · exact ⟨Nat.zero_lt_succ _, Nat.le_of_ble_eq_true rfl⟩
  · split
    · exact ⟨Nat.zero_lt_succ _, Nat.le_of_ble_eq_true rfl⟩
    · split <;> exact ⟨Nat.zero_lt_succ _, Nat.le_of_ble_eq_true rfl⟩

theorem utf8Code_lt {n : Nat} (hn : n < 0x110000) : ∀ b ∈ utf8Code n, b < 256 := by
  unfold utf8Code
  intro b hb
  split at hb
  · simp only [List.mem_singleton] at hb
    omega
  · split at hb
    · simp only [List.mem_cons, List.not_mem_nil, or_false] at hb
      omega
    · split at hb <;>
      · simp only [List.mem_cons, List.not_mem_nil, or_false] at hb
        omega

theorem isTail_low (n : Nat) : isTail (0x80 + n % 64) = true := by
  unfold isTail
  refine decide_eq_true ?_
  omega

theorem codePoint_utf8Code {n : Nat} (hn : n.isValidChar) (r : List Nat) :
    codePoint? (utf8Code n ++ r) = some (n, (utf8Code n).length) := by
  have hlt : n < 0x110000 := by
    rcases hn with h | ⟨-, h⟩ <;> omega
  unfold utf8Code
  split
  · rename_i h1
    show codePoint? (n :: r) = some (n, 1)
    simp only [codePoint?, if_pos h1]
  · rename_i h1
    split
    · rename_i h2
      show codePoint? ((0xC0 + n / 64) :: (0x80 + n % 64) :: r) = some (n, 2)
      have ha : ¬ 0xC0 + n / 64 < 0x80 := by omega
      have h : 0xC2 ≤ 0xC0 + n / 64 ∧ 0xC0 + n / 64 < 0xE0 ∧ isTail (0x80 + n % 64) :=
        ⟨by omega, by omega, isTail_low n⟩
      simp only [codePoint?, if_neg ha, if_pos h]
      congr 2
      omega
    · rename_i h2
      split
      · rename_i h3
        show codePoint? ((0xE0 + n / 4096) :: (0x80 + n / 64 % 64) :: (0x80 + n % 64) :: r) =
          some (n, 3)
        have ha : ¬ 0xE0 + n / 4096 < 0x80 := by omega
        have h : ¬ (0xC2 ≤ 0xE0 + n / 4096 ∧ 0xE0 + n / 4096 < 0xE0 ∧
          isTail (0x80 + n / 64 % 64) = true) := by omega
        have hv : (0xE0 + n / 4096) % 16 * 4096 + (0x80 + n / 64 % 64) % 64 * 64 +
          (0x80 + n % 64) % 64 = n := by omega
        have h' : 0xE0 ≤ 0xE0 + n / 4096 ∧ 0xE0 + n / 4096 < 0xF0 ∧
            isTail (0x80 + n / 64 % 64) = true ∧ isTail (0x80 + n % 64) = true ∧ 0x800 ≤ n ∧
            ¬ (0xD800 ≤ n ∧ n < 0xE000) := by
          refine ⟨by omega, by omega, isTail_low _, isTail_low _, by omega, ?_⟩
          rcases hn with h | ⟨h, -⟩ <;> omega
        simp only [codePoint?, if_neg ha, if_neg h, hv, if_pos h']
      · rename_i h3
        show codePoint? ((0xF0 + n / 262144) :: (0x80 + n / 4096 % 64) :: (0x80 + n / 64 % 64) ::
          (0x80 + n % 64) :: r) = some (n, 4)
        have ha : ¬ 0xF0 + n / 262144 < 0x80 := by omega
        have h : ¬ (0xC2 ≤ 0xF0 + n / 262144 ∧ 0xF0 + n / 262144 < 0xE0 ∧
          isTail (0x80 + n / 4096 % 64) = true) := by omega
        have h' : ∀ k, ¬ (0xE0 ≤ 0xF0 + n / 262144 ∧ 0xF0 + n / 262144 < 0xF0 ∧
            isTail (0x80 + n / 4096 % 64) = true ∧ isTail (0x80 + n / 64 % 64) = true ∧ 0x800 ≤ k ∧
            ¬ (0xD800 ≤ k ∧ k < 0xE000)) := by omega
        have hv : (0xF0 + n / 262144) % 8 * 262144 + (0x80 + n / 4096 % 64) % 64 * 4096 +
          (0x80 + n / 64 % 64) % 64 * 64 + (0x80 + n % 64) % 64 = n := by omega
        have h4 : 0xF0 ≤ 0xF0 + n / 262144 ∧ 0xF0 + n / 262144 < 0xF8 ∧
            isTail (0x80 + n / 4096 % 64) = true ∧ isTail (0x80 + n / 64 % 64) = true ∧
            isTail (0x80 + n % 64) = true ∧ 0x10000 ≤ n ∧ n < 0x110000 :=
          ⟨by omega, by omega, isTail_low _, isTail_low _, isTail_low _, by omega, hlt⟩
        simp only [codePoint?, if_neg ha, if_neg h, if_neg (h' _), hv, if_pos h4]

theorem toNat_utf8Char (c : Char) : (utf8Char c).map UInt8.toNat = utf8Code c.toNat := by
  have hv : c.toNat < 0xD800 ∨ 0xDFFF < c.toNat ∧ c.toNat < 0x110000 := c.valid
  have hlt : c.toNat < 0x110000 := by omega
  unfold utf8Char
  rw [List.map_map]
  conv_rhs => rw [← List.map_id (utf8Code c.toNat)]
  refine List.map_congr_left fun b hb => ?_
  have hb := utf8Code_lt hlt b hb
  rw [Function.comp_apply, UInt8.toNat_ofNat', Nat.mod_eq_of_lt hb, id]

/-- **The first character of a text is the one that was written first.** -/
theorem utf8Next_utf8Char (c : Char) (bs : List UInt8) :
    utf8Next (utf8Char c ++ bs) = some (c, bs) := by
  have hlen : (utf8Char c).length = (utf8Code c.toNat).length := List.length_map ..
  obtain ⟨hpos, hle⟩ := length_utf8Code c.toNat
  cases hc : utf8Char c ++ bs with
  | nil =>
    have := congrArg List.length hc
    rw [List.length_append, List.length_nil] at this
    omega
  | cons b r =>
    have htake : ((b :: r).take 4).map UInt8.toNat =
        utf8Code c.toNat ++ (bs.take (4 - (utf8Char c).length)).map UInt8.toNat := by
      rw [← hc, List.take_append, List.take_of_length_le (by omega), List.map_append,
        toNat_utf8Char]
    unfold utf8Next
    rw [htake, codePoint_utf8Code (show c.toNat.isValidChar from c.valid)]
    show some (Char.ofNat c.toNat, (b :: r).drop _) = _
    rw [← hlen, ← hc, List.drop_left, Char.ofNat_toNat]

theorem utf8Bytes_append (a b : String) : utf8Bytes (a ++ b) = utf8Bytes a ++ utf8Bytes b := by
  unfold utf8Bytes
  rw [String.toList_append, List.flatMap_append]

theorem utf8Char_ascii {c : Char} (h : c.toNat < 0x80) : utf8Char c = [UInt8.ofNat c.toNat] := by
  unfold utf8Char utf8Code
  rw [if_pos h]
  rfl

/-! ## digits -/

theorem toNat_of_isDigit {c : Char} (h : c.isDigit = true) : 48 ≤ c.toNat ∧ c.toNat ≤ 57 := by
  unfold Char.isDigit at h
  obtain ⟨h1, h2⟩ := Bool.and_eq_true_iff.mp h
  exact ⟨UInt32.le_iff_toNat_le.mp (of_decide_eq_true h1), UInt32.le_iff_toNat_le.mp (of_decide_eq_true h2)⟩

namespace Decimal

theorem digitsFrom?_of_isDigit {cs : List Char} (h : ∀ c ∈ cs, c.isDigit = true) (acc : Nat) :
    digitsFrom? 10 acc cs = some (Nat.ofDigitChars 10 cs acc) := by
  induction cs generalizing acc with
  | nil => rfl
  | cons c cs ih =>
    have hc := toNat_of_isDigit (h c List.mem_cons_self)
    have hd : digitValue? c = some (c.toNat - '0'.toNat) := by
      unfold digitValue?
      refine if_pos ⟨?_, ?_⟩
      · exact UInt32.le_iff_toNat_le.mpr hc.1
      · exact UInt32.le_iff_toNat_le.mpr hc.2
    have hlt : c.toNat - '0'.toNat < 10 := by
      show c.toNat - 48 < 10
      omega
    simp only [digitsFrom?, hd, if_pos hlt]
    rw [ih (fun x hx => h x (List.mem_cons_of_mem _ hx)), Nat.ofDigitChars_cons]

/-- **Digits spell their number.** -/
theorem digits?_toDigits (n : Nat) : digits? 10 (Nat.toDigits 10 n) = some n := by
  unfold digits?
  rw [if_neg (by simp [Nat.toDigits_ne_nil]),
    digitsFrom?_of_isDigit fun c hc => Nat.isDigit_of_mem_toDigits (by decide) (by decide) hc,
    Nat.ofDigitChars_toDigits (by decide) (by decide)]

end Decimal

theorem head_toDigits {n : Nat} (hn : 0 < n) : ∃ c cs, Nat.toDigits 10 n = c :: cs ∧ c ≠ '0' := by
  induction n using Nat.strongRecOn with
  | _ n ih =>
    rcases Nat.lt_or_ge n 10 with h | h
    · refine ⟨_, [], Nat.toDigits_of_lt_base h, fun e => ?_⟩
      have := congrArg Char.toNat e
      rw [Nat.toNat_digitChar_of_lt_ten h] at this
      have h0 : '0'.toNat = 48 := rfl
      omega
    · obtain ⟨c, cs, e, hc⟩ := ih (n / 10) (by omega) (by omega)
      refine ⟨c, cs ++ [(n % 10).digitChar], ?_, hc⟩
      rw [Nat.toDigits_of_base_le (by decide) h, e, List.cons_append]

namespace JsonValue

theorem isSpace_eq_false {b : UInt8} (h : 0x20 < b) : isSpace b = false := by
  unfold isSpace
  have h1 : b ≠ 0x20 := by rintro rfl; exact absurd h (by decide)
  have h2 : b ≠ 0x09 := by rintro rfl; exact absurd h (by decide)
  have h3 : b ≠ 0x0A := by rintro rfl; exact absurd h (by decide)
  have h4 : b ≠ 0x0D := by rintro rfl; exact absurd h (by decide)
  simp [h1, h2, h3, h4]

theorem skipSpaces_cons {b : UInt8} (h : 0x20 < b) (r : List UInt8) :
    skipSpaces (b :: r) = b :: r := by
  unfold skipSpaces
  rw [List.dropWhile_cons, isSpace_eq_false h, if_neg Bool.false_ne_true]

/-! ## strings -/

theorem shortEscape_bytes {e : UInt8} {c : Char} (h : shortEscape? e = some c) (he : e ≠ 0x75)
    (bs : List UInt8) : stringChar? (0x5C :: e :: bs) = some (c, bs) := by
  unfold stringChar?
  split
  · rename_i r heq
    exact absurd (List.cons.inj (List.cons.inj heq).2).1 he
  · rename_i e' r _ heq
    obtain ⟨rfl, rfl⟩ := List.cons.inj (List.cons.inj heq).2
    rw [h]
    rfl
  · rename_i b r _ h1 heq
    obtain ⟨hb, hr⟩ := List.cons.inj heq
    exact (h1 e bs hb.symm hr.symm).elim
  · rename_i heq
    cases heq

theorem stringChar_plain {b : UInt8} (h : 0x20 ≤ b) (hb : b ≠ 0x5C) (r : List UInt8) :
    stringChar? (b :: r) = utf8Next (b :: r) := by
  unfold stringChar?
  split
  · rename_i heq
    exact absurd (List.cons.inj heq).1 hb
  · rename_i heq
    exact absurd (List.cons.inj heq).1 hb
  · rename_i b' r' _ _ heq
    obtain ⟨rfl, rfl⟩ := List.cons.inj heq
    refine if_neg ?_
    rintro (h' | h')
    · exact absurd h (UInt8.not_le.mpr h')
    · exact hb h'
  · rename_i heq
    cases heq

theorem hexDigit_bytes : ∀ d : Fin 16,
    utf8Char (Hex.digit d) = [UInt8.ofNat (Hex.digit d).toNat] ∧
      Char.ofNat (UInt8.ofNat (Hex.digit d).toNat).toNat = Hex.digit d ∧
      Hex.value? (Hex.digit d) = some d.val := by
  decide

theorem bytes_hexDigits (k n : Nat) :
    ∃ bs, (Hex.digits k n).flatMap utf8Char = bs ∧ bs.length = k ∧
      bs.map (fun b => Char.ofNat b.toNat) = Hex.digits k n := by
  refine ⟨_, rfl, ?_⟩
  induction k generalizing n with
  | zero => exact ⟨rfl, rfl⟩
  | succ k ih =>
    obtain ⟨hlen, hmap⟩ := ih (n / 16)
    obtain ⟨hb, hc, -⟩ := hexDigit_bytes ⟨n % 16, Nat.mod_lt _ (by decide)⟩
    rw [Hex.digits, List.flatMap_append, List.map_append, hmap, List.length_append, hlen]
    simp only [List.flatMap_cons, List.flatMap_nil, List.append_nil, hb, List.length_singleton,
      List.map_cons, List.map_nil, hc, and_self]

theorem number_hexDigits (k n : Nat) :
    Hex.number? (String.ofList (Hex.digits k n)) = some (n % 16 ^ k) := by
  unfold Hex.number?
  rw [String.toList_ofList]
  induction k generalizing n with
  | zero => rw [Nat.pow_zero, Nat.mod_one, Hex.digits, List.foldlM_nil, Option.pure_def]
  | succ k ih =>
    obtain ⟨-, -, hv⟩ := hexDigit_bytes ⟨n % 16, Nat.mod_lt _ (by decide)⟩
    rw [Hex.digits, List.foldlM_append, ih, Nat.pow_succ, Nat.mul_comm (16 ^ k), Nat.mod_mul,
      Nat.add_comm]
    simp only [Option.bind_eq_bind, Option.bind_some, List.foldlM_cons, List.foldlM_nil, hv,
      Option.map_some, Option.pure_def]

theorem hex4_fixed {n : Nat} (hn : n < 65536) (bs : List UInt8) :
    hex4? (utf8Bytes (Hex.fixed 4 n) ++ bs) = some (n, bs) := by
  obtain ⟨ds, hds, hlen, hmap⟩ := bytes_hexDigits 4 n
  have hb : utf8Bytes (Hex.fixed 4 n) = ds := by
    unfold utf8Bytes Hex.fixed
    rw [String.toList_ofList, hds]
  have hl : (Hex.digits 4 n).length = 4 := by rw [← hmap, List.length_map, hlen]
  unfold hex4?
  rw [hb, List.take_left' hlen, List.drop_left' hlen, hmap]
  simp only [if_pos hl, number_hexDigits]
  rw [Option.map_some, Nat.mod_eq_of_lt hn]

theorem stringChar_hex (r : List UInt8) :
    stringChar? (0x5C :: 0x75 :: r) = (hex4? r).map fun (n, r) => escaped n r := by
  unfold stringChar?
  split
  · rename_i heq
    rw [(List.cons.inj (List.cons.inj heq).2).2]
  · rename_i h heq
    exact absurd (List.cons.inj (List.cons.inj heq).2).1.symm h
  · rename_i h _ heq
    obtain ⟨h1, h2⟩ := List.cons.inj heq
    exact (h _ h1.symm h2.symm).elim
  · rename_i heq
    cases heq

theorem escaped_low {n : Nat} (h : n < 0xD800) (bs : List UInt8) :
    escaped n bs = (Char.ofNat n, bs) := by
  have h1 : ¬ (0xD800 ≤ n ∧ n < 0xDC00) := by omega
  have h2 : ¬ (0xDC00 ≤ n ∧ n < 0xE000) := by omega
  unfold escaped
  rw [if_neg h1, if_neg h2]

theorem utf8Bytes_numericEscape (n : Nat) :
    utf8Bytes (JsonText.numericEscape n) = 0x5C :: 0x75 :: utf8Bytes (Hex.fixed 4 n) := by
  have hu : utf8Bytes "\\u" = [0x5C, 0x75] := by decide
  unfold JsonText.numericEscape
  rw [utf8Bytes_append, hu, List.cons_append, List.cons_append, List.nil_append]

theorem stringChar_numeric {c : Char} (h : c.toNat < 0xD800) (bs : List UInt8) :
    stringChar? (utf8Bytes (JsonText.numericEscape c.toNat) ++ bs) = some (c, bs) := by
  rw [utf8Bytes_numericEscape, List.cons_append, List.cons_append, stringChar_hex,
    hex4_fixed (by omega), Option.map_some]
  show some (escaped c.toNat bs) = _
  rw [escaped_low h, Char.ofNat_toNat]

theorem head_utf8Char {c : Char} (h : 0x20 ≤ c.toNat) (hq : c ≠ '"') (hs : c ≠ '\\') :
    ∃ b r, utf8Char c = b :: r ∧ 0x20 ≤ b ∧ b ≠ 0x5C ∧ b ≠ 0x22 := by
  have hv : c.toNat < 0xD800 ∨ 0xDFFF < c.toNat ∧ c.toNat < 0x110000 := c.valid
  have hcode : ∃ n ns, utf8Code c.toNat = n :: ns ∧ 0x20 ≤ n ∧ n < 256 ∧ n ≠ 0x5C ∧ n ≠ 0x22 := by
    have h1 : c.toNat ≠ 0x5C := fun e => hs (Char.toNat_inj.mp e)
    have h2 : c.toNat ≠ 0x22 := fun e => hq (Char.toNat_inj.mp e)
    unfold utf8Code
    split
    · exact ⟨_, _, rfl, by omega, by omega, h1, h2⟩
    · split
      · exact ⟨_, _, rfl, by omega, by omega, by omega, by omega⟩
      · split <;> exact ⟨_, _, rfl, by omega, by omega, by omega, by omega⟩
  obtain ⟨n, ns, e, h1, h2, h3, h4⟩ := hcode
  have hn : (UInt8.ofNat n).toNat = n := by
    rw [UInt8.toNat_ofNat', Nat.mod_eq_of_lt h2]
  refine ⟨UInt8.ofNat n, ns.map UInt8.ofNat, ?_, ?_, ?_, ?_⟩
  · unfold utf8Char
    rw [e, List.map_cons]
  · exact UInt8.le_iff_toNat_le.mpr (hn.symm ▸ h1)
  · exact fun e => h3 (hn.symm.trans (congrArg UInt8.toNat e))
  · exact fun e => h4 (hn.symm.trans (congrArg UInt8.toNat e))

/-- **An escaped character reads back**, and it does not start like a closing quote. -/
theorem stringChar_escapeChar (c : Char) (bs : List UInt8) :
    stringChar? (utf8Bytes (JsonText.escapeChar c) ++ bs) = some (c, bs) ∧
      ∃ b r, utf8Bytes (JsonText.escapeChar c) = b :: r ∧ b ≠ 0x22 := by
  have hshort : ∀ (t : String) (e : UInt8), utf8Bytes t = [0x5C, e] → e ≠ 0x75 →
      shortEscape? e = some c → stringChar? (utf8Bytes t ++ bs) = some (c, bs) ∧
        ∃ b r, utf8Bytes t = b :: r ∧ b ≠ 0x22 := by
    intro t e ht he hc
    rw [ht]
    exact ⟨shortEscape_bytes hc he bs, _, _, rfl, by decide⟩
  unfold JsonText.escapeChar
  split
  · rename_i h
    exact hshort _ 0x22 rfl (by decide) (h ▸ rfl)
  split
  · rename_i h
    exact hshort _ 0x5C rfl (by decide) (h ▸ rfl)
  split
  · rename_i h
    exact hshort _ 0x6E rfl (by decide) (h ▸ rfl)
  split
  · rename_i h
    exact hshort _ 0x72 rfl (by decide) (h ▸ rfl)
  split
  · rename_i h
    exact hshort _ 0x74 rfl (by decide) (h ▸ rfl)
  split
  · rename_i h
    refine hshort _ 0x62 rfl (by decide) ?_
    rw [show c = Char.ofNat 8 from Char.toNat_inj.mp h]
    rfl
  split
  · rename_i h
    refine hshort _ 0x66 rfl (by decide) ?_
    rw [show c = Char.ofNat 12 from Char.toNat_inj.mp h]
    rfl
  split
  · rename_i h
    have hlow : c.toNat < 0xD800 := by
      rcases h with h | rfl | rfl | rfl | h | h
      · omega
      · decide
      · decide
      · decide
      · omega
      · omega
    refine ⟨stringChar_numeric hlow bs, ?_⟩
    rw [utf8Bytes_numericEscape]
    exact ⟨0x5C, _, rfl, by decide⟩
  · rename_i hq hs _ _ _ _ _ hn
    have hb : utf8Bytes (String.singleton c) = utf8Char c := by
      unfold utf8Bytes
      rw [String.toList_singleton, List.flatMap_cons, List.flatMap_nil, List.append_nil]
    obtain ⟨b, r, e, h1, h2, h3⟩ := head_utf8Char (c := c) (by omega) hq hs
    rw [hb]
    refine ⟨?_, b, r, e, h3⟩
    rw [e, List.cons_append, stringChar_plain h1 h2, ← List.cons_append, ← e, utf8Next_utf8Char]

theorem stringBody_cons {fuel : Nat} {b : UInt8} {r : List UInt8} (hb : b ≠ 0x22) {c : Char}
    {r' : List UInt8} (h : stringChar? (b :: r) = some (c, r')) :
    stringBody? (fuel + 1) (b :: r) = (stringBody? fuel r').map fun (cs, r) => (c :: cs, r) := by
  conv_lhs => unfold stringBody?
  split
  · rename_i heq
    exact absurd (List.cons.inj heq).1 hb
  · simp only [h, Option.bind_eq_bind, Option.bind_some, Option.pure_def]
    cases stringBody? fuel r' <;> rfl

theorem stringBody_escaped (cs : List Char) (bs : List UInt8) {fuel : Nat} (hf : cs.length < fuel) :
    stringBody? fuel ((cs.flatMap fun c => utf8Bytes (JsonText.escapeChar c)) ++ 0x22 :: bs) =
      some (cs, bs) := by
  obtain ⟨fuel, rfl⟩ := Nat.exists_eq_add_of_lt hf
  induction cs with
  | nil => rfl
  | cons c cs ih =>
    obtain ⟨h, b, r, hb, hq⟩ := stringChar_escapeChar c
      ((cs.flatMap fun c => utf8Bytes (JsonText.escapeChar c)) ++ 0x22 :: bs)
    rw [List.flatMap_cons, List.append_assoc]
    rw [hb, List.cons_append] at h ⊢
    have hfuel : (c :: cs).length + fuel + 1 = cs.length + fuel + 1 + 1 := by
      rw [List.length_cons]
      omega
    rw [hfuel, stringBody_cons hq h, ih (by omega)]
    rfl

theorem utf8Bytes_quoted (s : String) : utf8Bytes (JsonText.quoted s) =
    0x22 :: ((s.toList.flatMap fun c => utf8Bytes (JsonText.escapeChar c)) ++ [0x22]) := by
  have hj : utf8Bytes (String.join (s.toList.map JsonText.escapeChar)) =
      s.toList.flatMap fun c => utf8Bytes (JsonText.escapeChar c) := by
    unfold utf8Bytes
    rw [String.toList_join, List.flatMap_map, List.flatMap_assoc]
  unfold JsonText.quoted
  rw [utf8Bytes_append, utf8Bytes_append, hj]
  rfl

theorem length_escapeChar (c : Char) : 1 ≤ (utf8Bytes (JsonText.escapeChar c)).length := by
  obtain ⟨-, b, r, hb, -⟩ := stringChar_escapeChar c []
  rw [hb]
  exact Nat.succ_le_succ (Nat.zero_le _)

theorem length_le_flatMap {α β : Type} (xs : List α) {f : α → List β} (h : ∀ x, 1 ≤ (f x).length) :
    xs.length ≤ (xs.flatMap f).length := by
  induction xs with
  | nil => exact Nat.le_refl _
  | cons x xs ih =>
    rw [List.length_cons, List.flatMap_cons, List.length_append, Nat.add_comm]
    exact Nat.add_le_add (h x) ih

/-- **A quoted string reads back.** -/
theorem string_quoted (s : String) (bs : List UInt8) :
    string? (utf8Bytes (JsonText.quoted s) ++ bs) = some (s.toList, bs) := by
  have hlen : s.toList.length ≤
      (s.toList.flatMap fun c => utf8Bytes (JsonText.escapeChar c)).length :=
    length_le_flatMap _ length_escapeChar
  rw [utf8Bytes_quoted, List.cons_append, List.append_assoc]
  show stringBody? _ _ = _
  refine stringBody_escaped s.toList bs ?_
  rw [List.length_cons, List.length_append]
  omega

/-! ## numbers -/

/-- what may follow the digits of a number -/
structure Ends (b : UInt8) : Prop where
  digit : isDigit b = false
  point : b ≠ 0x2E
  exponent : ¬ (b = 0x65 ∨ b = 0x45)

theorem ends_brace : Ends 0x7D := ⟨by decide, by decide, by decide⟩

theorem digit_bytes {c : Char} (h : c.isDigit = true) : utf8Char c = [UInt8.ofNat c.toNat] ∧
    isDigit (UInt8.ofNat c.toNat) = true ∧ Char.ofNat (UInt8.ofNat c.toNat).toNat = c := by
  obtain ⟨h1, h2⟩ := toNat_of_isDigit h
  have hn : (UInt8.ofNat c.toNat).toNat = c.toNat := by
    rw [UInt8.toNat_ofNat', Nat.mod_eq_of_lt (by omega)]
  refine ⟨utf8Char_ascii (by omega), decide_eq_true ⟨?_, ?_⟩, ?_⟩
  · exact UInt8.le_iff_toNat_le.mpr (hn.symm ▸ h1)
  · exact UInt8.le_iff_toNat_le.mpr (hn.symm ▸ h2)
  · rw [hn, Char.ofNat_toNat]

theorem bytes_digits {cs : List Char} (h : ∀ c ∈ cs, c.isDigit = true) :
    (∀ b ∈ cs.flatMap utf8Char, isDigit b = true) ∧
      (cs.flatMap utf8Char).map (fun b => Char.ofNat b.toNat) = cs := by
  induction cs with
  | nil => exact ⟨nofun, rfl⟩
  | cons c cs ih =>
    obtain ⟨hb, hd, hc⟩ := digit_bytes (h c List.mem_cons_self)
    obtain ⟨h1, h2⟩ := ih fun x hx => h x (List.mem_cons_of_mem _ hx)
    rw [List.flatMap_cons, hb, List.singleton_append, List.map_cons, hc, h2]
    exact ⟨List.forall_mem_cons.mpr ⟨hd, h1⟩, rfl⟩

theorem digits_append {ds : List UInt8} (hd : ∀ b ∈ ds, isDigit b = true) (hne : ds ≠ [])
    {b : UInt8} (hb : isDigit b = false) (r : List UInt8) :
    digits? (ds ++ b :: r) = some (ds, b :: r) := by
  have ht : (ds ++ b :: r).takeWhile isDigit = ds := by
    rw [List.takeWhile_append_of_pos hd, List.takeWhile_cons, hb, if_neg Bool.false_ne_true,
      List.append_nil]
  have hr : (ds ++ b :: r).dropWhile isDigit = b :: r := by
    rw [List.dropWhile_append_of_pos hd, List.dropWhile_cons, hb, if_neg Bool.false_ne_true]
  unfold digits?
  simp only [ht, hr]
  rw [if_neg (by simpa using hne)]

theorem wholePart_zero (r : List UInt8) : wholePart? (0x30 :: r) = some ([0x30], r) := rfl

theorem wholePart_cons {b : UInt8} (h : b ≠ 0x30) (r : List UInt8) :
    wholePart? (b :: r) = digits? (b :: r) := by
  unfold wholePart?
  split
  · rename_i heq
    exact absurd (List.cons.inj heq).1 h
  · rfl

theorem fraction_none {b : UInt8} (h : b ≠ 0x2E) (r : List UInt8) :
    fraction? (b :: r) = some ([], b :: r) := by
  unfold fraction?
  split
  · rename_i heq
    exact absurd (List.cons.inj heq).1 h
  · rfl

theorem exponent_none {b : UInt8} (h : ¬ (b = 0x65 ∨ b = 0x45)) (r : List UInt8) :
    exponent? (b :: r) = some ([], b :: r) := if_neg h

theorem isDigit_toDigits (n : Nat) : ∀ c ∈ Nat.toDigits 10 n, c.isDigit = true := fun _ hc =>
  Nat.isDigit_of_mem_toDigits (by decide) (by decide) hc

theorem wholePart_toDigits (n : Nat) {b : UInt8} (hb : isDigit b = false) (r : List UInt8) :
    wholePart? ((Nat.toDigits 10 n).flatMap utf8Char ++ b :: r) =
      some ((Nat.toDigits 10 n).flatMap utf8Char, b :: r) := by
  rcases Nat.eq_zero_or_pos n with rfl | hn
  · rw [Nat.toDigits_zero]
    exact wholePart_zero _
  · obtain ⟨c, cs, e, hc⟩ := head_toDigits hn
    have hall := isDigit_toDigits n
    rw [e] at hall ⊢
    obtain ⟨hb1, -, hc1⟩ := digit_bytes (hall c List.mem_cons_self)
    have hdig := (bytes_digits hall).1
    rw [List.flatMap_cons, hb1, List.singleton_append] at hdig ⊢
    rw [List.cons_append, wholePart_cons, ← List.cons_append, digits_append hdig nofun hb]
    intro h0
    rw [h0] at hc1
    exact hc hc1.symm

theorem number_of_whole {bs whole r : List UInt8} {b : UInt8} (hs : ∀ r', bs ≠ 0x2D :: r')
    (hw : wholePart? bs = some (whole, b :: r)) (hb : Ends b) :
    number? bs = some (whole.map fun b => Char.ofNat b.toNat, b :: r) := by
  unfold number?
  split
  rename_i sign bs' heq
  split at heq
  · exact absurd rfl (hs _)
  · obtain ⟨rfl, rfl⟩ := Prod.mk.inj heq
    simp only [hw, fraction_none hb.point, exponent_none hb.exponent, Option.bind_eq_bind,
      Option.bind_some, Option.pure_def, List.nil_append, List.append_nil]

theorem utf8Bytes_toString (n : Nat) :
    utf8Bytes (toString n) = (Nat.toDigits 10 n).flatMap utf8Char := by
  unfold utf8Bytes
  rw [Nat.toString_eq_repr, Nat.repr_eq_ofList_toDigits, String.toList_ofList]

theorem head_toString (n : Nat) : ∃ b r, utf8Bytes (toString n) = b :: r ∧ isDigit b = true := by
  have hall := isDigit_toDigits n
  rw [utf8Bytes_toString]
  cases e : Nat.toDigits 10 n with
  | nil => exact absurd e Nat.toDigits_ne_nil
  | cons c cs =>
    rw [e] at hall
    obtain ⟨hb, hd, -⟩ := digit_bytes (hall c List.mem_cons_self)
    rw [List.flatMap_cons, hb]
    exact ⟨_, _, rfl, hd⟩

/-- **A number reads back**, as its digits. -/
theorem number_toString (n : Nat) {b : UInt8} (hb : Ends b) (r : List UInt8) :
    number? (utf8Bytes (toString n) ++ b :: r) = some (Nat.toDigits 10 n, b :: r) := by
  obtain ⟨b0, r0, e, hd⟩ := head_toString n
  have hsign : ∀ r', utf8Bytes (toString n) ++ b :: r ≠ 0x2D :: r' := by
    intro r' h
    rw [e, List.cons_append] at h
    rw [(List.cons.inj h).1] at hd
    exact absurd hd (by decide)
  have hwhole : wholePart? (utf8Bytes (toString n) ++ b :: r) =
      some ((Nat.toDigits 10 n).flatMap utf8Char, b :: r) := by
    rw [utf8Bytes_toString]
    exact wholePart_toDigits n hb.digit r
  rw [number_of_whole hsign hwhole hb, (bytes_digits (isDigit_toDigits n)).2]

/-! ## values -/

theorem value_quoted (fuel depth : Nat) (s : String) (bs : List UInt8) :
    value? (fuel + 1) depth (utf8Bytes (JsonText.quoted s) ++ bs) = some (.string s.toList, bs) := by
  have hs := string_quoted s bs
  rw [utf8Bytes_quoted, List.cons_append] at hs ⊢
  rw [value?, skipSpaces_cons (by decide)]
  simp only [hs]
  rfl

theorem value_toString (fuel depth : Nat) (n : Nat) {b : UInt8} (hb : Ends b) (r : List UInt8) :
    value? (fuel + 1) depth (utf8Bytes (toString n) ++ b :: r) =
      some (.number (Nat.toDigits 10 n), b :: r) := by
  have hn := number_toString n hb r
  obtain ⟨b0, r0, e, hd⟩ := head_toString n
  have hlow : 0x30 ≤ b0 ∧ b0 ≤ 0x39 := of_decide_eq_true hd
  have hne : ∀ x : UInt8, isDigit x = false → b0 ≠ x := by
    rintro x hx rfl
    rw [hd] at hx
    cases hx
  rw [e, List.cons_append] at hn ⊢
  rw [value?, skipSpaces_cons (UInt8.lt_of_lt_of_le (by decide) hlow.1)]
  simp only [if_neg (hne 0x7B (by decide)), if_neg (hne 0x5B (by decide)),
    if_neg (hne 0x22 (by decide)), if_neg (hne 0x6E (by decide)), if_neg (hne 0x74 (by decide)),
    if_neg (hne 0x66 (by decide)), hn]
  rfl

/-! ## objects -/

theorem value_object {fuel depth : Nat} {r r' : List UInt8} {ms : List (List Char × JsonValue)}
    (hd : depth < maxDepth) (h : members? fuel (depth + 1) (0x22 :: r) = some (ms, r')) :
    value? (fuel + 1) depth (0x7B :: 0x22 :: r) = some (.object ms, r') := by
  rw [value?, skipSpaces_cons (by decide)]
  simp only [skipSpaces_cons (show (0x20 : UInt8) < 0x22 by decide), if_neg (Nat.not_le.mpr hd),
    if_true]
  split
  · rename_i heq
    exact absurd (List.cons.inj heq).1 (by decide)
  · rw [h]
    rfl

theorem value_emptyObject {fuel depth : Nat} {r : List UInt8} (hd : depth < maxDepth) :
    value? (fuel + 1) depth (0x7B :: 0x7D :: r) = some (.object [], r) := by
  rw [value?, skipSpaces_cons (by decide)]
  simp only [skipSpaces_cons (show (0x20 : UInt8) < 0x7D by decide), if_neg (Nat.not_le.mpr hd),
    if_true]

theorem members_one {fuel depth : Nat} {k : String} {v : JsonValue} {r r' : List UInt8}
    (h : value? fuel depth r = some (v, 0x7D :: r')) :
    members? (fuel + 1) depth (utf8Bytes (JsonText.quoted k) ++ 0x3A :: r) =
      some ([(k.toList, v)], r') := by
  have hs := string_quoted k (0x3A :: r)
  rw [utf8Bytes_quoted, List.cons_append] at hs ⊢
  rw [members?, skipSpaces_cons (by decide)]
  simp only [hs, skipSpaces_cons (show (0x20 : UInt8) < 0x3A by decide), h,
    skipSpaces_cons (show (0x20 : UInt8) < 0x7D by decide)]

theorem members_more {fuel depth : Nat} {k : String} {v : JsonValue} {r r' : List UInt8}
    (h : value? fuel depth r = some (v, 0x2C :: r')) :
    members? (fuel + 1) depth (utf8Bytes (JsonText.quoted k) ++ 0x3A :: r) =
      (members? fuel depth r').map fun (ms, r) => ((k.toList, v) :: ms, r) := by
  have hs := string_quoted k (0x3A :: r)
  rw [utf8Bytes_quoted, List.cons_append] at hs ⊢
  rw [members?, skipSpaces_cons (by decide)]
  simp only [hs, skipSpaces_cons (show (0x20 : UInt8) < 0x3A by decide), h,
    skipSpaces_cons (show (0x20 : UInt8) < 0x2C by decide)]

end JsonValue

end TreeJit
