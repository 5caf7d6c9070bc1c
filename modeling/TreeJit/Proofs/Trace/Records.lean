import TreeJit.Proofs.Json.Extent
import TreeJit.Proofs.Trace.RoundTrip
import TreeJit.Proofs.Word.Copies

/-!
# The records of a trace

A trace that can be read to its end is something in front and records.  What is in front settles the
table and where the records start, so other records may stand in their place: reading then gives the
samples of those.  The window of the table may reach into the records, since the table can end before
its window does; but nothing behind the table's last brace is looked at.

* `recordsOf_flatMap`     bytes are the bytes of their records;
* `readTable_behind`      the table with other bytes behind it;
* `read_records`          a trace with other records;
* `samplesOf_perm`        records in another order.
-/

namespace TreeJit.Trace

/-! ## bytes of records -/

/-- **Bytes are the bytes of their records.** -/
theorem recordsOf_flatMap {n : Nat} {bs : List UInt8} (h : bs.length = recordSize * n) :
    (recordsOf n bs).flatMap recordBytes = bs ∧ (recordsOf n bs).length = n := by
  induction n generalizing bs with
  | zero => exact ⟨(List.length_eq_zero_iff.mp h).symm, rfl⟩
  | succ n ih =>
    have h16 : bs.length = 16 * n + 16 := h
    have hlen : (bs.drop recordSize).length = recordSize * n := by
      show (bs.drop 16).length = 16 * n
      rw [List.length_drop]
      omega
    obtain ⟨hbs, hn⟩ := ih hlen
    have hword : ∀ w : List UInt8, w.length = 8 →
        littleEndian 8 (UInt64.ofNat (ofLittleEndian w)).toNat = w := by
      intro w hw
      have hlt := Memory.ofLittleEndian_lt w
      rw [hw] at hlt
      rw [UInt64.toNat_ofNat_of_lt' hlt, ← hw, littleEndian_ofLittleEndian]
    have hrecord : recordBytes ⟨UInt64.ofNat (ofLittleEndian (bs.take 8)),
        (UInt64.ofNat (ofLittleEndian ((bs.drop 8).take 8))).toInt64⟩ = bs.take recordSize := by
      unfold recordBytes
      rw [UInt64.toUInt64_toInt64, hword _ (by rw [List.length_take]; omega),
        hword _ (by rw [List.length_take, List.length_drop]; omega)]
      exact List.take_add.symm
    rw [recordsOf, List.flatMap_cons, hrecord, hbs, List.length_cons, hn]
    exact ⟨List.take_append_drop .., rfl⟩

theorem readRecords_flatMap (t : KindTable) (rs : List Record) :
    readRecords t (rs.flatMap recordBytes) = samplesOf t rs := by
  have hlen := length_records rs
  have hdiv : (rs.flatMap recordBytes).length / recordSize = rs.length := by
    rw [hlen, Nat.mul_div_cancel_left _ (by decide)]
  have hmod : (rs.flatMap recordBytes).length % recordSize = 0 := by
    rw [hlen, Nat.mul_mod_right]
  have hrs : recordsOf rs.length (rs.flatMap recordBytes) = rs := by
    simpa using recordsOf_append rs []
  unfold readRecords
  rw [hdiv, hmod, hrs]
  rcases samplesOf t rs with ⟨ss, _ | f⟩ <;> rfl

/-- bytes that were read to their end are whole records -/
theorem readRecords_eq_none {t : KindTable} {bs : List UInt8} {ss : List Sample}
    (h : readRecords t bs = (ss, none)) :
    ∃ rs, bs = rs.flatMap recordBytes ∧ samplesOf t rs = (ss, none) := by
  have hmod : bs.length % recordSize = 0 := by
    unfold readRecords at h
    split at h
    · cases h
    · refine Classical.byContradiction fun hne => ?_
      rw [if_neg hne] at h
      cases h
  have hlen : bs.length = recordSize * (bs.length / recordSize) := by
    have := Nat.div_add_mod bs.length recordSize
    omega
  obtain ⟨hbs, -⟩ := recordsOf_flatMap hlen
  refine ⟨_, hbs.symm, ?_⟩
  rw [← hbs, readRecords_flatMap] at h
  exact h

/-! ## what is in front -/

theorem KindTable.not_number {v : JsonValue} {t : KindTable} (h : KindTable.ofJson? v = some t)
    (n : List Char) : v ≠ .number n := by
  rintro rfl
  cases h

theorem readTable_behind {window : Nat} {bs rest : List UInt8} {t : KindTable}
    (h : readTable window bs = some (t, rest)) :
    ∃ n, rest = bs.drop n ∧ ∀ bs', bs'.length = bs.length → bs'.take n = bs.take n →
      readTable window bs' = some (t, bs'.drop n) := by
  unfold readTable at h
  cases hv : JsonValue.read (bs.take window) with
  | none => simp only [hv] at h; cases h
  | some x =>
    obtain ⟨v, r⟩ := x
    cases ht : KindTable.ofJson? v with
    | none => simp only [hv, ht] at h; cases h
    | some t' =>
      simp only [hv, ht] at h
      cases h
      refine ⟨_, rfl, fun bs' hlen hfront => ?_⟩
      obtain ⟨p, hp, hread⟩ := JsonValue.read_extent hv (KindTable.not_number ht)
      have hplen := congrArg List.length hp
      rw [List.length_append] at hplen
      have hstop : (bs.take window).length - r.length = p.length := by omega
      have hwin : (bs.take window).length = min window bs.length := List.length_take
      rw [hstop] at hfront ⊢
      obtain ⟨hneed, -⟩ := @tableIntake_bounds window bs.length p.length (by omega)
      -- the table's own bytes are the same, and as many bytes follow in the window
      have hp' : bs'.take window = p ++ (bs'.take window).drop p.length := by
        have e : (bs'.take window).take p.length = p := by
          have h1 := congrArg (List.take p.length) hfront
          rw [List.take_take, List.take_take, Nat.min_eq_left hneed] at h1
          rw [List.take_take, Nat.min_eq_left (by omega), h1]
          have h2 := congrArg (List.take p.length) hp
          rwa [List.take_take, Nat.min_eq_left (by omega), List.take_left] at h2
        conv_lhs => rw [← List.take_append_drop p.length (bs'.take window), e]
      have hr : ((bs'.take window).drop p.length).length = r.length := by
        rw [List.length_drop, List.length_take, hlen]
        omega
      have hread' : JsonValue.read (bs'.take window) =
          some (v, (bs'.take window).drop p.length) := by
        conv_lhs => rw [hp']
        exact hread _ hr
      have hstop' : (bs'.take window).length - ((bs'.take window).drop p.length).length =
          p.length := by
        rw [hr, List.length_take, hlen]
        omega
      unfold readTable
      simp only [hread', ht, hstop', hlen]

theorem word_congr {bs bs' : List UInt8} {k a : Nat} (h : bs'.take k = bs.take k) (ha : a + 4 ≤ k) :
    (bs'.drop a).take 4 = (bs.drop a).take 4 := by
  have hcut : ∀ l : List UInt8, (l.drop a).take 4 = ((l.take k).drop a).take 4 := by
    intro l
    rw [List.drop_take, List.take_take, Nat.min_eq_left (by omega)]
  rw [hcut, h, ← hcut]

/-- **A trace with other records**: what is in front of the records of a trace that can be read to its
end settles how they are read. -/
theorem read_records {bs : List UInt8} {ss : List Sample} (h : read bs = (ss, none)) :
    ∃ (t : KindTable) (front : List UInt8) (rs : List Record),
      bs = front ++ rs.flatMap recordBytes ∧ samplesOf t rs = (ss, none) ∧
      ∀ rs', rs'.length = rs.length → read (front ++ rs'.flatMap recordBytes) = samplesOf t rs' := by
  have hread := h
  simp only [read] at h
  split at h
  · cases h
  rename_i h12
  split at h
  · cases h
  rename_i hmagic
  split at h
  · cases h
  rename_i hversion
  split at h
  · cases h
  rename_i t rest htable
  split at h
  · cases h
  rename_i hpad
  obtain ⟨rs, hbody, hss⟩ := readRecords_eq_none h
  obtain ⟨n, rfl, hbehind⟩ := readTable_behind htable
  rw [List.drop_drop, List.drop_drop] at hbody
  have hstart : ∃ start, start = headerSize + (n +
      padding (ofLittleEndian ((bs.drop (4 * 2)).take 4))) := ⟨_, rfl⟩
  obtain ⟨start, hs⟩ := hstart
  rw [← hs] at hbody
  refine ⟨t, bs.take start, rs, by rw [← hbody, List.take_append_drop], hss, fun rs' hlen => ?_⟩
  by_cases hnil : rs = []
  · -- there are no records
    subst hnil
    obtain rfl := List.length_eq_zero_iff.mp hlen
    rw [hss, ← hread, List.flatMap_nil, List.append_nil]
    rw [List.flatMap_nil] at hbody
    rw [List.take_of_length_le (List.drop_eq_nil_iff.mp hbody)]
  have hle : start ≤ bs.length := by
    refine Classical.byContradiction fun hgt => hnil ?_
    have hz := congrArg List.length hbody
    rw [List.length_drop, length_records, Nat.sub_eq_zero_of_le (by omega)] at hz
    exact List.length_eq_zero_iff.mp ((Nat.mul_eq_zero.mp hz.symm).resolve_left (by decide))
  have hfront : (bs.take start).length = start := by rw [List.length_take, Nat.min_eq_left hle]
  obtain ⟨bs', hbs'⟩ : ∃ bs', bs' = bs.take start ++ rs'.flatMap recordBytes := ⟨_, rfl⟩
  have htake : bs'.take start = bs.take start := by rw [hbs', List.take_left' hfront]
  have hdrop : bs'.drop start = rs'.flatMap recordBytes := by rw [hbs', List.drop_left' hfront]
  have hlen' : bs'.length = bs.length := by
    have e := congrArg List.length hbody
    rw [List.length_drop, length_records] at e
    rw [hbs', List.length_append, hfront, length_records, hlen, ← e]
    omega
  have h12' : headerSize = 12 := rfl
  have hword : ∀ i ≤ 2, (bs'.drop (4 * i)).take 4 = (bs.drop (4 * i)).take 4 := fun i hi =>
    word_congr htake (by omega)
  have htable' := hbehind (bs'.drop headerSize) (by rw [List.length_drop, List.length_drop, hlen'])
    (by
      rw [List.take_drop, List.take_drop]
      have e := congrArg (List.take (headerSize + n)) htake
      rw [List.take_take, List.take_take, Nat.min_eq_left (by omega)] at e
      rw [e])
  rw [← hbs']
  simp only [read, hlen', if_neg h12, hword 0 (by decide), hword 1 (by decide), hword 2 (by decide),
    if_neg hmagic, if_neg hversion, htable', List.length_drop]
  simp only [List.length_drop] at hpad
  rw [if_neg hpad, List.drop_drop, List.drop_drop, ← hs, hdrop, readRecords_flatMap]

/-! ## samples in another order -/

theorem samplesOf_cons_iff {t : KindTable} {r : Record} {rs : List Record} {ss : List Sample} :
    samplesOf t (r :: rs) = (ss, none) ↔ ∃ k ss', t.lookup r.id = some k ∧
      samplesOf t rs = (ss', none) ∧ ss = ⟨k.name, k.flags, r.duration⟩ :: ss' := by
  rw [samplesOf]
  cases t.lookup r.id with
  | none => simp
  | some k =>
    rcases hrs : samplesOf t rs with ⟨ss', f⟩
    constructor
    · intro e
      obtain ⟨rfl, rfl⟩ := Prod.mk.inj e
      exact ⟨k, ss', rfl, rfl, rfl⟩
    · rintro ⟨k', ss1, hk, e, rfl⟩
      cases hk
      cases e
      rfl

/-- **Records in another order** give the samples in another order. -/
theorem samplesOf_perm {t : KindTable} {rs rs' : List Record} (h : rs.Perm rs') {ss : List Sample}
    (hss : samplesOf t rs = (ss, none)) : ∃ ss', samplesOf t rs' = (ss', none) ∧ ss.Perm ss' := by
  induction h generalizing ss with
  | nil => exact ⟨ss, hss, .refl _⟩
  | cons r _ ih =>
    obtain ⟨k, ss1, hk, h1, rfl⟩ := samplesOf_cons_iff.mp hss
    obtain ⟨ss2, h2, hp⟩ := ih h1
    exact ⟨_, samplesOf_cons_iff.mpr ⟨k, ss2, hk, h2, rfl⟩, hp.cons _⟩
  | swap r r' rs =>
    obtain ⟨k', ss1, hk', h1, rfl⟩ := samplesOf_cons_iff.mp hss
    obtain ⟨k, ss2, hk, h2, rfl⟩ := samplesOf_cons_iff.mp h1
    refine ⟨_, samplesOf_cons_iff.mpr ⟨k, _, hk, samplesOf_cons_iff.mpr ⟨k', ss2, hk', h2, rfl⟩, rfl⟩, ?_⟩
    exact .swap _ _ _
  | trans _ _ ih1 ih2 =>
    obtain ⟨ss1, h1, hp1⟩ := ih1 hss
    obtain ⟨ss2, h2, hp2⟩ := ih2 h1
    exact ⟨ss2, h2, hp1.trans hp2⟩

end TreeJit.Trace
