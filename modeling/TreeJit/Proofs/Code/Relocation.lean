import TreeJit.Code.Listing
import TreeJit.Proofs.Code.Field
import TreeJit.Proofs.Code.Link

/-!
# Linking writes the places of the references and nothing else

Of code whose references lie inside it and apart from each other (`RefsIn`), linking makes code of
the same length that is told apart by two things: the bytes outside the places are the old ones, and
each place holds what its reference writes there (`Patched`, `link_eq`).  What is written depends on
the old bytes of the same place only, and not on an address that was written there before
(`patch_patch`); so linking linked code again is linking the code (`Patched.link_eq_link`).

Assembled code has such references (`refs_of_assembled`), and a place of four move-wide words still
loads the same register after linking, now with the address (`serves_of_link`).
-/

namespace TreeJit

/-! ## places -/

def SymbolRef.Covers (r : SymbolRef) (k : Nat) : Prop := r.start ≤ k ∧ k < r.start + r.kind.window

def SymbolRef.place (r : SymbolRef) (code : List UInt8) : List UInt8 :=
  (code.drop r.start).take r.kind.window

/-- references of the known kinds whose places lie in `n` bytes, in order and apart -/
structure RefsIn (n : Nat) (rs : List SymbolRef) : Prop where
  known : ∀ r ∈ rs, r.kind = .abs64 ∨ r.kind = .movWide64
  inside : ∀ r ∈ rs, 0 ≤ r.pos ∧ r.start + r.kind.window ≤ n
  apart : rs.Pairwise fun r s => r.start + r.kind.window ≤ s.start

theorem RefsIn.tail {n : Nat} {r : SymbolRef} {rs : List SymbolRef} (h : RefsIn n (r :: rs)) :
    RefsIn n rs :=
  ⟨fun s hs => h.known s (List.mem_cons_of_mem _ hs),
    fun s hs => h.inside s (List.mem_cons_of_mem _ hs), (List.pairwise_cons.mp h.apart).2⟩

theorem SymbolRef.place_congr {r : SymbolRef} {code code' : List UInt8}
    (h : ∀ k, r.Covers k → code[k]? = code'[k]?) : r.place code = r.place code' := by
  apply List.ext_getElem?
  intro j
  simp only [place, List.getElem?_take, List.getElem?_drop]
  split
  · exact h _ ⟨by omega, by omega⟩
  · rfl

theorem SymbolRef.getElem?_of_place {r : SymbolRef} {code code' : List UInt8}
    (h : r.place code = r.place code') {k : Nat} (hk : r.Covers k) : code[k]? = code'[k]? := by
  have hj : k - r.start < r.kind.window := by
    obtain ⟨h1, h2⟩ := hk
    omega
  have e := congrArg (fun bs : List UInt8 => bs[k - r.start]?) h
  simpa only [place, List.getElem?_take, List.getElem?_drop, if_pos hj,
    Nat.add_sub_cancel' hk.1] using e

theorem getElem?_overwrite_out {code bs : List UInt8} {pos k : Nat}
    (hp : pos + bs.length ≤ code.length) (hk : ¬ (pos ≤ k ∧ k < pos + bs.length)) :
    (overwrite code pos bs)[k]? = code[k]? := by
  have hl : (code.take pos).length = pos := by
    rw [List.length_take]
    omega
  unfold overwrite
  by_cases hlt : k < pos
  · rw [List.append_assoc, List.getElem?_append_left (by omega), List.getElem?_take, if_pos hlt]
  · rw [List.getElem?_append_right (by rw [List.length_append]; omega), List.getElem?_drop,
      List.length_append, hl]
    congr 1
    omega

/-! ## writing one reference -/

theorem SymbolRef.write_eq {r : SymbolRef} {code : List UInt8} (addr : UInt64)
    (hk : r.kind = .abs64 ∨ r.kind = .movWide64) (h0 : 0 ≤ r.pos)
    (hin : r.start + r.kind.window ≤ code.length) (hn : code.length < 2 ^ 63) :
    r.write code addr = .ok (overwrite code r.start (r.patch code addr)) := by
  have hpos : r.pos = Int64.ofNat r.start := (Int64.ofNat_toNatClampNeg r.pos h0).symm
  have hstop : ¬ Int64.ofNat code.length < r.pos + Int64.ofNat r.kind.window := by
    rw [hpos, ← Int64.ofNat_add, Int64.lt_iff_toInt_lt, Int64.toInt_ofNat_of_lt hn,
      Int64.toInt_ofNat_of_lt (by omega)]
    omega
  have hneg : ¬ r.pos < 0 := Int64.not_lt.mpr h0
  have hrun : ¬ code.length < r.start + r.kind.window := Nat.not_lt.mpr hin
  have hout : (decide (r.pos < 0) ||
      decide (Int64.ofNat code.length < r.pos + Int64.ofNat r.kind.window)) = false := by
    simp [hneg, hstop]
  unfold write
  rcases hk with e | e
  · rw [e] at hout hrun ⊢
    simp only [hout]
    exact if_neg hrun
  · rw [e] at hout hrun ⊢
    simp only [hout]
    exact if_neg hrun

theorem SymbolRef.place_overwrite {r : SymbolRef} {code bs : List UInt8}
    (hin : r.start + r.kind.window ≤ code.length) (hb : bs.length = r.kind.window) :
    r.place (overwrite code r.start bs) = bs := window_overwrite (by omega) hb

/-! ## move-wide words -/

theorem twosComplement_natCast (n k : Nat) : twosComplement n (k : Int) = k % 2 ^ n := by
  unfold twosComplement
  rw [← Int.natCast_emod, Int.toNat_natCast]

theorem withImm16_eq (w imm : UInt32) : withImm16 w imm = withField w 5 16 imm.toNat := by
  have e : (imm &&& 0xFFFF) <<< 5 = UInt32.ofNat (twosComplement 16 imm.toNat * 2 ^ 5) := by
    apply UInt32.toNat_inj.mp
    rw [twosComplement_natCast, UInt32.toNat_ofNat', UInt32.toNat_shiftLeft, UInt32.toNat_and]
    show (imm.toNat &&& 2 ^ 16 - 1) <<< 5 % 2 ^ 32 = _
    rw [Nat.and_two_pow_sub_one_eq_mod, Nat.shiftLeft_eq]
  unfold withImm16 withField
  rw [e]
  rfl

theorem withField_withField (w : UInt32) {lo n : Nat} (h : lo + n ≤ 32) (i j : Int) :
    withField (withField w lo n i) lo n j = withField w lo n j := by
  apply UInt32.toNat_inj.mp
  apply Nat.eq_of_testBit_eq
  intro k
  rw [testBit_withField _ h, testBit_withField _ h, testBit_withField _ h]
  split <;> rfl

theorem withImm16_withImm16 (w a b : UInt32) : withImm16 (withImm16 w a) b = withImm16 w b := by
  rw [withImm16_eq, withImm16_eq, withImm16_eq, withField_withField w (by omega)]

def imm16 (w : UInt32) : Nat := w.toNat / 2 ^ 5 % 2 ^ 16

theorem imm16_withImm16 (w imm : UInt32) (h : imm.toNat < 2 ^ 16) :
    imm16 (withImm16 w imm) = imm.toNat := by
  have e := congrArg BitVec.toNat (withField_field w (show 5 + 16 ≤ 32 by omega) imm.toNat)
  rw [BitVec.toNat_ofNat, BitVec.toNat_ofNat, twosComplement_natCast, Nat.mod_eq_of_lt h,
    Nat.mod_eq_of_lt h] at e
  rw [withImm16_eq, imm16, e]

theorem toNat_halfword (addr : UInt64) (i : Nat) :
    (halfword addr i).toNat = addr.toNat / 65536 ^ i % 65536 := by
  have h := Nat.mod_lt (addr.toNat / 65536 ^ i) (show 0 < 65536 by omega)
  rw [halfword, UInt32.toNat_ofNat', Nat.mod_eq_of_lt (by omega)]

theorem halfword_lt (addr : UInt64) (i : Nat) : (halfword addr i).toNat < 2 ^ 16 := by
  rw [toNat_halfword]
  exact Nat.mod_lt _ (by omega)

theorem sum_halfwords (addr : UInt64) :
    (halfword addr 0).toNat + (halfword addr 1).toNat * 2 ^ 16 + (halfword addr 2).toNat * 2 ^ 32 +
      (halfword addr 3).toNat * 2 ^ 48 = addr.toNat := by
  have h := addr.toNat_lt
  simp only [toNat_halfword]
  omega

/-! ## words in code -/

theorem wordAt_flatMap {ws : List UInt32} {i : Nat} {w : UInt32} (h : ws[i]? = some w) :
    wordAt (ws.flatMap wordBytes) (4 * i) = w := by
  induction ws generalizing i with
  | nil => cases h
  | cons u ws ih =>
    have hlen : (wordBytes u).length = 4 := length_littleEndian 4 _
    rw [List.flatMap_cons]
    cases i with
    | zero =>
      cases h
      rw [wordAt, Nat.mul_zero, List.drop_zero, ← hlen, List.take_left, ofLittleEndian_wordBytes,
        UInt32.ofNat_toNat]
    | succ i =>
      have e : 4 * (i + 1) = (wordBytes u).length + 4 * i := by omega
      rw [wordAt, e, List.drop_length_add_append]
      exact ih h

theorem wordAt_take_drop (code : List UInt8) {pos n k : Nat} (h : k + 4 ≤ n) :
    wordAt ((code.drop pos).take n) k = wordAt code (pos + k) := by
  rw [wordAt, wordAt, List.drop_take, List.take_take, List.drop_drop, Nat.min_eq_left (by omega)]

theorem moveWideBytes_place (code : List UInt8) (pos : Nat) (addr : UInt64) :
    moveWideBytes code pos addr = moveWideBytes ((code.drop pos).take 16) 0 addr := by
  simp only [moveWideBytes, List.flatMap_cons, List.flatMap_nil, Nat.zero_add]
  rw [wordAt_take_drop code (show 4 * 0 + 4 ≤ 16 by omega),
    wordAt_take_drop code (show 4 * 1 + 4 ≤ 16 by omega),
    wordAt_take_drop code (show 4 * 2 + 4 ≤ 16 by omega),
    wordAt_take_drop code (show 4 * 3 + 4 ≤ 16 by omega)]

theorem wordAt_moveWideBytes (code : List UInt8) (pos : Nat) (addr : UInt64) {i : Nat} (hi : i < 4) :
    wordAt (moveWideBytes code pos addr) (4 * i) =
      withImm16 (wordAt code (pos + 4 * i)) (halfword addr i) := by
  have e : moveWideBytes code pos addr =
      ([0, 1, 2, 3].map fun i => withImm16 (wordAt code (pos + 4 * i)) (halfword addr i)).flatMap
        wordBytes := by
    rw [moveWideBytes, List.flatMap_map]
  rw [e]
  apply wordAt_flatMap
  rw [List.getElem?_map, show [0, 1, 2, 3] = List.range 4 from rfl, List.getElem?_range hi]
  rfl

/-! ## what is written -/

namespace SymbolRef
variable {r : SymbolRef}

/-- what is written depends on the old bytes of the place only -/
theorem patch_congr {c d : List UInt8} (h : r.place c = r.place d) (addr : UInt64) :
    r.patch c addr = r.patch d addr := by
  unfold patch
  cases hk : r.kind with
  | movWide64 =>
    rw [place, place, hk] at h
    show moveWideBytes c r.start addr = moveWideBytes d r.start addr
    rw [moveWideBytes_place c, moveWideBytes_place d]
    exact congrArg (moveWideBytes · 0 addr) h
  | _ => rfl

/-- and not on an address that was written there before -/
theorem patch_patch {c d : List UInt8} {a : UInt64} (h : r.place c = r.patch d a) (b : UInt64) :
    r.patch c b = r.patch d b := by
  unfold patch at h ⊢
  cases hk : r.kind with
  | movWide64 =>
    rw [place, hk] at h
    have hw : ∀ i < 4, wordAt c (r.start + 4 * i) =
        withImm16 (wordAt d (r.start + 4 * i)) (halfword a i) := by
      intro i hi
      rw [← wordAt_take_drop c (show 4 * i + 4 ≤ 16 by omega), ← wordAt_moveWideBytes d _ a hi]
      exact congrArg (wordAt · (4 * i)) h
    show moveWideBytes c r.start b = moveWideBytes d r.start b
    simp only [moveWideBytes, List.flatMap_cons, List.flatMap_nil]
    rw [hw 0 (by omega), hw 1 (by omega), hw 2 (by omega), hw 3 (by omega)]
    simp only [withImm16_withImm16]
  | _ => rfl

end SymbolRef

/-! ## linked code -/

/-- `code'` is `code` with the addresses of the references written into their places -/
structure Patched (code : List UInt8) (rs : List SymbolRef) (resolve : String → Option UInt64)
    (code' : List UInt8) : Prop where
  length : code'.length = code.length
  outside : ∀ k, (∀ r ∈ rs, ¬ r.Covers k) → code'[k]? = code[k]?
  place : ∀ r ∈ rs, ∀ addr, resolve r.name = some addr → r.place code' = r.patch code addr

theorem Patched.unique {code c d : List UInt8} {rs : List SymbolRef}
    {resolve : String → Option UInt64} (hall : ∀ r ∈ rs, (resolve r.name).isSome)
    (hc : Patched code rs resolve c) (hd : Patched code rs resolve d) : c = d := by
  apply List.ext_getElem?
  intro k
  by_cases hk : ∃ r ∈ rs, r.Covers k
  · obtain ⟨r, hr, hcov⟩ := hk
    obtain ⟨addr, ha⟩ := Option.isSome_iff_exists.mp (hall r hr)
    exact r.getElem?_of_place ((hc.place r hr addr ha).trans (hd.place r hr addr ha).symm) hcov
  · have hout : ∀ r ∈ rs, ¬ r.Covers k := fun r hr hcov => hk ⟨r, hr, hcov⟩
    rw [hc.outside k hout, hd.outside k hout]

theorem RefsIn.not_covers {n k : Nat} {r s : SymbolRef} {rs : List SymbolRef}
    (h : RefsIn n (r :: rs)) (hs : s ∈ rs) (hr : r.Covers k) : ¬ s.Covers k := by
  have hle := (List.pairwise_cons.mp h.apart).1 s hs
  rintro ⟨hk, -⟩
  have := hr.2
  omega

theorem Patched.cons {code d : List UInt8} {r : SymbolRef} {rs : List SymbolRef} {addr : UInt64}
    {resolve : String → Option UInt64} (hn : RefsIn code.length (r :: rs))
    (ha : resolve r.name = some addr)
    (hd : Patched (overwrite code r.start (r.patch code addr)) rs resolve d) :
    Patched code (r :: rs) resolve d := by
  have hin := (hn.inside r List.mem_cons_self).2
  have hb := length_patch r code addr
  have hout : ∀ k, ¬ r.Covers k → (overwrite code r.start (r.patch code addr))[k]? = code[k]? :=
    fun k hk => getElem?_overwrite_out (by omega) (by rwa [hb])
  refine ⟨hd.length.trans (length_overwrite _ _ _ (by omega)), ?_, ?_⟩
  · intro k hk
    rw [hd.outside k fun s hs => hk s (List.mem_cons_of_mem _ hs), hout k (hk r List.mem_cons_self)]
  · intro s hs b hsb
    rcases List.mem_cons.mp hs with rfl | hs
    · -- the references behind this one leave its place alone
      rw [ha] at hsb
      cases hsb
      rw [SymbolRef.place_congr fun k hk => hd.outside k fun t ht => hn.not_covers ht hk]
      exact SymbolRef.place_overwrite hin hb
    · rw [hd.place s hs b hsb]
      exact SymbolRef.patch_congr (SymbolRef.place_congr fun k hk =>
        hout k fun hr => hn.not_covers hs hr hk) b

/-- **Linking writes every reference**, if all of them are resolved. -/
theorem link_eq {code : List UInt8} {rs : List SymbolRef} {resolve : String → Option UInt64}
    (hn : RefsIn code.length rs) (hlen : code.length < 2 ^ 63)
    (hall : ∀ r ∈ rs, (resolve r.name).isSome) :
    ∃ code', Program.link ⟨code, rs⟩ resolve = .ok code' ∧ Patched code rs resolve code' := by
  induction rs generalizing code with
  | nil => exact ⟨code, rfl, rfl, fun _ _ => rfl, nofun⟩
  | cons r rs ih =>
    obtain ⟨addr, ha⟩ := Option.isSome_iff_exists.mp (hall r List.mem_cons_self)
    obtain ⟨h0, hin⟩ := hn.inside r List.mem_cons_self
    have hw := r.write_eq addr (hn.known r List.mem_cons_self) h0 hin hlen
    have hl : (overwrite code r.start (r.patch code addr)).length = code.length :=
      length_overwrite _ _ _ (by rwa [length_patch])
    have hn' : RefsIn (overwrite code r.start (r.patch code addr)).length rs := by
      rw [hl]
      exact hn.tail
    obtain ⟨d, hd, hp⟩ := ih hn' (by rwa [hl]) fun s hs => hall s (List.mem_cons_of_mem _ hs)
    refine ⟨d, ?_, hp.cons hn ha⟩
    unfold Program.link at hd ⊢
    rw [List.foldlM_cons]
    simp only [ha, hw]
    exact hd

/-- **Linking names the first reference that is not resolved.** -/
theorem link_unresolved {code : List UInt8} {before after : List SymbolRef} {r : SymbolRef}
    {resolve : String → Option UInt64} (hn : RefsIn code.length (before ++ r :: after))
    (hlen : code.length < 2 ^ 63) (hall : ∀ s ∈ before, (resolve s.name).isSome)
    (hr : resolve r.name = none) :
    Program.link ⟨code, before ++ r :: after⟩ resolve = .error (.unresolved r.name) := by
  have hbefore : RefsIn code.length before :=
    ⟨fun s hs => hn.known s (List.mem_append_left _ hs),
      fun s hs => hn.inside s (List.mem_append_left _ hs), (List.pairwise_append.mp hn.apart).1⟩
  obtain ⟨d, hd, -⟩ := link_eq hbefore hlen hall
  unfold Program.link at hd ⊢
  simp only at hd
  simp only [List.foldlM_append, hd, bind, Except.bind, List.foldlM_cons, hr]

theorem resolved_or_first (resolve : String → Option UInt64) (rs : List SymbolRef) :
    (∀ r ∈ rs, (resolve r.name).isSome) ∨
      ∃ (before : List SymbolRef) (r : SymbolRef) (after : List SymbolRef), rs = before ++ r :: after ∧
        (∀ s ∈ before, (resolve s.name).isSome) ∧ resolve r.name = none := by
  induction rs with
  | nil => exact .inl nofun
  | cons r rs ih =>
    cases hr : resolve r.name with
    | none => exact .inr ⟨[], r, rs, rfl, nofun, hr⟩
    | some addr =>
      have hs : (resolve r.name).isSome := by rw [hr]; rfl
      rcases ih with h | ⟨before, s, after, rfl, h, hn⟩
      · exact .inl (List.forall_mem_cons.mpr ⟨hs, h⟩)
      · exact .inr ⟨r :: before, s, after, rfl, List.forall_mem_cons.mpr ⟨hs, h⟩, hn⟩

/-- **Linking linked code again** is linking the code: nothing of the first addresses is left. -/
theorem Patched.link_eq_link {code code' : List UInt8} {rs : List SymbolRef}
    {first second : String → Option UInt64} (hn : RefsIn code.length rs)
    (hlen : code.length < 2 ^ 63) (hfirst : ∀ r ∈ rs, (first r.name).isSome)
    (h : Patched code rs first code') :
    Program.link ⟨code', rs⟩ second = Program.link ⟨code, rs⟩ second := by
  have hn' : RefsIn code'.length rs := by rwa [h.length]
  have hlen' : code'.length < 2 ^ 63 := by rwa [h.length]
  rcases resolved_or_first second rs with hall | ⟨before, r, after, rfl, hall, hr⟩
  · obtain ⟨c, hc, hpc⟩ := link_eq hn hlen hall
    obtain ⟨d, hd, hpd⟩ := link_eq hn' hlen' hall
    have hpd' : Patched code rs second d := by
      refine ⟨hpd.length.trans h.length, fun k hk => ?_, fun r hr addr ha => ?_⟩
      · rw [hpd.outside k hk, h.outside k hk]
      · obtain ⟨a, hfa⟩ := Option.isSome_iff_exists.mp (hfirst r hr)
        rw [hpd.place r hr addr ha]
        exact SymbolRef.patch_patch (h.place r hr a hfa) addr
    rw [hc, hd, hpc.unique hall hpd']
  · rw [link_unresolved hn hlen hall hr, link_unresolved hn' hlen' hall hr]

/-! ## the references of assembled code -/

/-- a word of the sequence that loads an address: the first clears the register, the others keep
what is there -/
def A64.moveWide (dst : Reg) (imm : UInt32) (i : Nat) : UInt32 :=
  if i = 0 then movz dst imm 0 else movk dst imm i

theorem A64.moveWide_congr {dst src : Reg} (h : dst.field = src.field) (imm : UInt32) (i : Nat) :
    moveWide dst imm i = moveWide src imm i := by
  unfold moveWide movz movk
  rw [h]

theorem A64.moveWide_clear (dst : Reg) {i : Nat} (hi : i < 4) :
    moveWide dst 0 i &&& ~~~(0x1FFFE0 : UInt32) = moveWide dst 0 i := by
  have h : ∀ k < 32, ∀ i < 4, moveWide (.x (k : Nat)) 0 i &&& ~~~(0x1FFFE0 : UInt32) =
      moveWide (.x (k : Nat)) 0 i := by decide
  have e : dst.field = (Reg.x ((dst.id % 32).toNat : Nat)).field := by
    have hk : (((dst.id % 32).toNat : Int) % 32).toNat = (dst.id % 32).toNat := by omega
    show UInt32.ofNat (dst.id % 32).toNat = UInt32.ofNat (((dst.id % 32).toNat : Int) % 32).toNat
    rw [hk]
  rw [moveWide_congr e]
  exact h _ (by omega) i hi

/-- a new immediate leaves the instruction and its register alone -/
theorem A64.withImm16_moveWide (dst : Reg) {imm : UInt32} {i : Nat} (hi : i < 4)
    (h : imm.toNat < 2 ^ 16) : withImm16 (moveWide dst 0 i) imm = moveWide dst imm i := by
  have hand : imm &&& 0xFFFF = imm := by
    apply UInt32.toNat_inj.mp
    rw [UInt32.toNat_and]
    show imm.toNat &&& 2 ^ 16 - 1 = _
    rw [Nat.and_two_pow_sub_one_eq_mod, Nat.mod_eq_of_lt h]
  have hz : (0 : UInt32) <<< 5 = 0 := rfl
  rw [withImm16, moveWide_clear dst hi, hand]
  unfold moveWide
  split
  · rw [movz, movz, hz, UInt32.or_zero, UInt32.or_assoc _ dst.field, UInt32.or_comm dst.field,
      ← UInt32.or_assoc]
  · rw [movk, movk, hz, UInt32.or_zero, UInt32.or_assoc _ dst.field, UInt32.or_comm dst.field,
      ← UInt32.or_assoc]

theorem A64.movSymbolWords_get (dst : Reg) {i : Nat} (hi : i < 4) :
    (movSymbolWords dst)[i]? = some (moveWide dst 0 i) := by
  match i with
  | 0 | 1 | 2 | 3 => rfl

/-- the reference of a chunk stands in bytes that no label changes: eight of them, or the whole
sequence that loads an address -/
structure Chunk.Refers (c : Chunk) (off : Nat) (kind : RelocKind) : Prop where
  branch : c.branch = none
  known : kind = .abs64 ∨ kind = .movWide64
  inside : off + kind.window ≤ c.bytes.length
  words : kind = .movWide64 → off = 0 ∧
    ∃ dst : A64.Reg, dst.width = .w64 ∧ c.bytes = (A64.movSymbolWords dst).flatMap wordBytes

section
variable {pos : Nat} {c : Chunk} {off : Nat} {name : String} {kind : RelocKind}

theorem X64.Instr.encode_refers {i : X64.Instr} (h : i.encode pos = .ok c)
    (hsym : c.symbol = some (off, name, kind)) : c.Refers off kind := by
  obtain ⟨rfl, hin⟩ := encode_window h hsym
  refine ⟨?_, .inl rfl, hin, nofun⟩
  rw [encode_branch h]
  cases i with
  | jump | jumpIf =>
    cases h
    cases hsym
  | _ => rfl

theorem A64.Instr.encode_refers {i : A64.Instr} (h : i.encode pos = .ok c)
    (hsym : c.symbol = some (off, name, kind)) : c.Refers off kind := by
  unfold Instr.encode at h
  cases hp : i.precheck with
  | error e =>
    rw [hp] at h
    cases h
  | ok u =>
    rw [hp] at h
    cases i with
    | movImm | align =>
      cases h
      cases hsym
    | movSymbol dst l =>
      have hw : dst.width = .w64 := by
        simp only [precheck] at hp
        split at hp
        · cases hp
        · rename_i hw
          exact Decidable.not_not.mp hw
      cases h
      cases hsym
      refine ⟨rfl, .inr rfl, ?_, fun _ => ⟨rfl, dst, hw, rfl⟩⟩
      rw [length_words]
      exact Nat.le_refl 16
    | _ =>
      simp only [bind, Except.bind] at h
      split at h
      · cases h
      · cases h
        cases hsym

theorem AnyInstr.encode_refers {m : Machine} {i : AnyInstr} (h : i.encode m pos = .ok c)
    (hsym : c.symbol = some (off, name, kind)) : c.Refers off kind := by
  rcases AnyInstr.encode_ok h with ⟨j, -, hj⟩ | ⟨-, j, -, hj⟩
  · exact X64.Instr.encode_refers hj hsym
  · exact A64.Instr.encode_refers hj hsym

end

/-- the place of a reference in code before linking and, behind it, with an address: eight bytes in
little-endian order, or four words that load a register, with the address in their immediates -/
def SymbolRef.Loads (r : SymbolRef) (code code' : List UInt8) (addr : UInt64) : Prop :=
  match r.kind with
  | .abs64 => (code'.drop r.start).take 8 = littleEndian 8 addr.toNat
  | .movWide64 =>
    (∃ dst : A64.Reg, dst.width = .w64 ∧ ∀ i < 4,
      wordAt code (r.start + 4 * i) = A64.moveWide dst 0 i ∧
      wordAt code' (r.start + 4 * i) = A64.moveWide dst (halfword addr i) i) ∧
    imm16 (wordAt code' r.start) + imm16 (wordAt code' (r.start + 4)) * 2 ^ 16 +
      imm16 (wordAt code' (r.start + 8)) * 2 ^ 32 + imm16 (wordAt code' (r.start + 12)) * 2 ^ 48 =
        addr.toNat
  | .unknown _ => False

def SymbolRef.StandsIn (r : SymbolRef) (code : List UInt8) : Prop :=
  ∃ (p : Nat) (c : Chunk) (off : Nat), c.Refers off r.kind ∧ r.start = p + off ∧
    (code.drop p).take c.bytes.length = c.bytes

/-- the symbol has an address, and the linked code loads it -/
def SymbolRef.Serves (r : SymbolRef) (resolve : String → Option UInt64) (code code' : List UInt8) :
    Prop := ∃ addr, resolve r.name = some addr ∧ r.Loads code code' addr

theorem SymbolRef.loads_of_place {r : SymbolRef} {code code' : List UInt8} {addr : UInt64}
    (hs : r.StandsIn code) (h : r.place code' = r.patch code addr) : r.Loads code code' addr := by
  obtain ⟨p, c, off, hc, hstart, hbytes⟩ := hs
  unfold Loads
  rcases hc.known with hk | hk
  · rw [place, patch, hk] at h
    rw [hk]
    exact h
  · obtain ⟨rfl, dst, hw, e⟩ := hc.words hk
    rw [place, patch, hk] at h
    rw [hk]
    have hold : ∀ i < 4, wordAt code (r.start + 4 * i) = A64.moveWide dst 0 i := by
      intro i hi
      have hl : c.bytes.length = 16 := by
        rw [e, length_words]
        rfl
      rw [hstart, Nat.add_zero, ← wordAt_take_drop code (show 4 * i + 4 ≤ 16 by omega), ← hl,
        hbytes, e]
      exact wordAt_flatMap (A64.movSymbolWords_get dst hi)
    have hnew : ∀ i < 4, wordAt code' (r.start + 4 * i) =
        withImm16 (wordAt code (r.start + 4 * i)) (halfword addr i) := by
      intro i hi
      rw [← wordAt_take_drop code' (show 4 * i + 4 ≤ 16 by omega)]
      exact (congrArg (wordAt · (4 * i)) h).trans (wordAt_moveWideBytes code r.start addr hi)
    have himm : ∀ i < 4, imm16 (wordAt code' (r.start + 4 * i)) = (halfword addr i).toNat := by
      intro i hi
      rw [hnew i hi, imm16_withImm16 _ _ (halfword_lt addr i)]
    refine ⟨⟨dst, hw, fun i hi => ⟨hold i hi, ?_⟩⟩, ?_⟩
    · rw [hnew i hi, hold i hi, A64.withImm16_moveWide dst hi (halfword_lt addr i)]
    · rw [← sum_halfwords addr, ← himm 0 (by omega), ← himm 1 (by omega), ← himm 2 (by omega),
        ← himm 3 (by omega)]
      rfl

/-- **Linked code loads the address of every symbol.** -/
theorem serves_of_link {code code' : List UInt8} {rs : List SymbolRef}
    {resolve : String → Option UInt64} (hn : RefsIn code.length rs) (hs : ∀ r ∈ rs, r.StandsIn code)
    (hlen : code.length < 2 ^ 63) (h : Program.link ⟨code, rs⟩ resolve = .ok code') :
    ∀ r ∈ rs, r.Serves resolve code code' := by
  rcases resolved_or_first resolve rs with hall | ⟨before, s, after, rfl, hall, hno⟩
  · obtain ⟨d, hd, hp⟩ := link_eq hn hlen hall
    obtain rfl := Except.ok.inj (hd.symm.trans h)
    intro r hr
    obtain ⟨addr, ha⟩ := Option.isSome_iff_exists.mp (hall r hr)
    exact ⟨addr, ha, SymbolRef.loads_of_place (hs r hr) (hp.place r hr addr ha)⟩
  · rw [link_unresolved hn hlen hall hno] at h
    cases h

/-- the references of assembled code, with the chunks that make them as they stand in the code -/
theorem refs_of_assembled {ι ε : Type} {encode : Nat → ι → Except ε Chunk} {onLabel : LabelFault → ε}
    {lines : List (Line ι)} {prog : Program}
    (hs : ∀ pos i c, encode pos i = .ok c → c.Shaped)
    (hr : ∀ pos i c off name kind, encode pos i = .ok c → c.symbol = some (off, name, kind) →
      c.Refers off kind)
    (h : assembleLines encode onLabel lines = .ok prog) (hsize : prog.code.length < 2 ^ 63) :
    RefsIn prog.code.length prog.refs ∧ ∀ r ∈ prog.refs, r.StandsIn prog.code := by
  obtain ⟨hrefs, hap⟩ := refs_of_assembleLines hs
    (fun _ _ _ _ _ _ hc hsym => (hr _ _ _ _ _ _ hc hsym).inside) h hsize
  obtain ⟨-, -, -, hcl, -⟩ := assembleLines_ok hs h
  refine ⟨⟨fun r hm => ?_, fun r hm => ⟨(hrefs r hm).1, (hrefs r hm).2.1⟩, hap⟩, fun r hm => ?_⟩
  · obtain ⟨-, -, p, i, c, off, -, hc, hsym, -⟩ := hrefs r hm
    exact (hr _ _ _ _ _ _ hc hsym).known
  · obtain ⟨-, -, p, i, c, off, hst, hc, hsym, hstart⟩ := hrefs r hm
    have href := hr _ _ _ _ _ _ hc hsym
    have hclose := hcl p i c hst hc
    rw [Chunk.close, href.branch] at hclose
    exact ⟨p, c, off, href, hstart, (Except.ok.inj hclose).symm⟩

section
variable {m : Machine} {l : Listing} {prog : Program}

/-- **Linking assembled code writes the places of its references and nothing else.**  The places lie
inside the code and apart.  If every symbol has an address, there is linked code: it has the length
of the code and its bytes outside the places, and the places load the addresses; linking it again
forgets these addresses.  Otherwise the first symbol without an address is named. -/
theorem Listing.link_writes_places (h : l.assemble m = .ok prog) (hsize : prog.code.length < 2 ^ 63)
    (resolve : String → Option UInt64) :
    (∀ r ∈ prog.refs, 0 ≤ r.pos ∧ r.start + r.kind.window ≤ prog.code.length) ∧
    prog.refs.Pairwise (fun r s => r.start + r.kind.window ≤ s.start) ∧
    ((∀ r ∈ prog.refs, (resolve r.name).isSome) → ∃ code', prog.link resolve = .ok code' ∧
      code'.length = prog.code.length ∧
      (∀ k, (∀ r ∈ prog.refs, ¬ r.Covers k) → code'[k]? = prog.code[k]?) ∧
      (∀ r ∈ prog.refs, ∃ addr, resolve r.name = some addr ∧ r.Loads prog.code code' addr) ∧
      ∀ other, Program.link ⟨code', prog.refs⟩ other = prog.link other) ∧
    ∀ before r after, prog.refs = before ++ r :: after →
      (∀ s ∈ before, (resolve s.name).isSome) → resolve r.name = none →
        prog.link resolve = .error (.unresolved r.name) := by
  obtain ⟨hin, hstand⟩ := refs_of_assembled (fun _ _ _ hc => AnyInstr.encode_shaped hc)
    (fun _ _ _ _ _ _ hc hsym => AnyInstr.encode_refers hc hsym) h hsize
  refine ⟨hin.inside, hin.apart, fun hall => ?_, fun before r after e hall hr => ?_⟩
  · obtain ⟨code', hlink, hp⟩ := link_eq hin hsize hall
    exact ⟨code', hlink, hp.length, hp.outside, serves_of_link hin hstand hsize hlink,
      fun other => hp.link_eq_link hin hsize hall⟩
  · obtain ⟨code, refs⟩ := prog
    cases e
    exact link_unresolved hin hsize hall hr

end

/-- a loop that loads an address in each of the two ways -/
def twoAddresses : Listing :=
  .group [.mark "loop", .instr (.a64 (.movSymbol (.x 3) "near")), .instr (.a64 (.jump "loop")),
    .instr (.x64 (.movSymbol 0 "far"))]

/-- with both addresses known the loop loads them, and with one of them missing it is named -/
theorem Listing.link_writes_places_twoAddresses :
    ∃ prog, twoAddresses.assemble .a64 = .ok prog ∧
      prog.refs = [⟨0, "near", .movWide64⟩, ⟨22, "far", .abs64⟩] ∧
      (∃ code', prog.link (fun _ => some 0x123456789ABCDEF0) = .ok code' ∧
        ∀ r ∈ prog.refs, r.Loads prog.code code' 0x123456789ABCDEF0) ∧
      prog.link (fun name => if name = "near" then some 1 else none) =
        .error (.unresolved "far") := by
  have hp : (twoAddresses.assemble .a64).map (fun p => (p.code.length, p.refs)) =
      .ok (30, [⟨0, "near", .movWide64⟩, ⟨22, "far", .abs64⟩]) := rfl
  cases h : twoAddresses.assemble .a64 with
  | error e =>
    rw [h] at hp
    cases hp
  | ok prog =>
    rw [h] at hp
    obtain ⟨hlen, hrefs⟩ := Prod.mk.inj (Except.ok.inj hp)
    have hsize : prog.code.length < 2 ^ 63 := by omega
    refine ⟨prog, rfl, hrefs, ?_, ?_⟩
    · obtain ⟨code', hlink, -, -, hloads, -⟩ :=
        (link_writes_places h hsize fun _ => some 0x123456789ABCDEF0).2.2.1 fun _ _ => rfl
      refine ⟨code', hlink, fun r hr => ?_⟩
      obtain ⟨addr, ha, hl⟩ := hloads r hr
      cases ha
      exact hl
    · refine (link_writes_places h hsize _).2.2.2 [⟨0, "near", .movWide64⟩]
        ⟨22, "far", .abs64⟩ [] hrefs ?_ rfl
      simp

end TreeJit
