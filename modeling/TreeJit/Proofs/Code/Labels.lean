import TreeJit.Code.Listing
import TreeJit.Proofs.Code.Field

/-!
# Branches lead to their labels

What assembling a listing for one machine gives, for any tree of groups, marks and instructions of
that machine.

* `AnyInstr.branch?`           the branch an instruction makes and the field it uses for it;
* `ResolvesAt m lines pos i bytes`   the bytes of an instruction differ from its encoding in the field
                               of its branch only, and the field leads to the label;
* `Listing.assemble_resolves`  a listing that is assembled is resolved, the four reasons why a listing
                               is not, and that AArch64 code keeps to words.
-/

namespace TreeJit

/-! ## the chunks of an instruction -/

theorem X64.Instr.encode_branch {pos : Nat} {i : X64.Instr} {c : Chunk}
    (h : i.encode pos = .ok c) : c.branch = i.label?.map fun l => ⟨.rel32, l⟩ := by
  cases i with
  | jump | jumpIf =>
    cases h
    rfl
  | _ =>
    simp only [Instr.encode, bind, Except.bind, pure, Except.pure] at h
    repeat' split at h
    all_goals
      cases h
      try rfl

theorem X64.Instr.encode_shaped {pos : Nat} {i : X64.Instr} {c : Chunk}
    (h : i.encode pos = .ok c) : c.Shaped := by
  intro b hb
  rw [X64.Instr.encode_branch h] at hb
  cases i with
  | jump | jumpIf =>
    cases h
    cases hb
    simp
  | _ => cases hb

theorem A64.Instr.encode_words {pos : Nat} {i : A64.Instr} {c : Chunk}
    (h : i.encode pos = .ok c) : ∃ ws : List UInt32, c.bytes = ws.flatMap wordBytes ∧
      c.branch = i.branch? ∧ (i.branch?.isSome = true → ws.length = 1) := by
  unfold Instr.encode at h
  cases hp : i.precheck with
  | error e =>
    rw [hp] at h
    cases h
  | ok u =>
    rw [hp] at h
    cases i with
    | movImm | movSymbol | align =>
      cases h
      exact ⟨_, rfl, rfl, nofun⟩
    | _ =>
      simp only [bind, Except.bind] at h
      split at h
      · cases h
      · rename_i w _
        cases h
        exact ⟨[w], (List.append_nil _).symm, rfl, fun _ => rfl⟩

theorem length_words (ws : List UInt32) : (ws.flatMap wordBytes).length = 4 * ws.length := by
  induction ws with
  | nil => rfl
  | cons w ws ih =>
    rw [List.flatMap_cons, List.length_append, ih, wordBytes, length_littleEndian, List.length_cons]
    omega

theorem A64.Instr.encode_length {pos : Nat} {i : A64.Instr} {c : Chunk}
    (h : i.encode pos = .ok c) : c.bytes.length % 4 = 0 := by
  obtain ⟨ws, e, -, -⟩ := encode_words h
  rw [e, length_words]
  omega

theorem A64.Instr.encode_shaped {pos : Nat} {i : A64.Instr} {c : Chunk}
    (h : i.encode pos = .ok c) : c.Shaped := by
  intro b hb
  obtain ⟨ws, e, hbr, h1⟩ := encode_words h
  rw [hbr] at hb
  have hl : c.bytes.length = 4 := by rw [e, length_words, h1 (by rw [hb]; rfl)]
  have hf : b.field ≠ .rel32 := by
    cases i with
    | jump | jumpIf | jumpIfZero | jumpIfNotZero =>
      cases hb
      exact nofun
    | _ => cases hb
  split
  · rename_i hr
    exact absurd hr hf
  · exact hl

/-- padding ends at a multiple of the boundary, wherever in words it starts -/
theorem A64.Instr.encode_align {pos : Nat} {n : Int} {c : Chunk} (hpos : pos % 4 = 0)
    (h : (A64.Instr.align n).encode pos = .ok c) : n ∣ ((pos + c.bytes.length : Nat) : Int) := by
  unfold Instr.encode Instr.precheck at h
  simp only at h
  split at h
  · cases h
  · rename_i hn
    cases h
    obtain ⟨hn4, hand⟩ : 4 ≤ n ∧ n.toNat &&& (n.toNat - 1) = 0 := by omega
    obtain ⟨k, hk⟩ := (Nat.and_sub_one_eq_zero_iff_isPowerOfTwo (by omega)).mp hand
    have hd : 4 ∣ n.toNat := by
      have h2 : 2 ≤ k := by
        by_contra hlt
        have h1 : 2 ^ k ≤ 2 ^ 1 := Nat.pow_le_pow_right (by omega) (by omega)
        omega
      rw [hk]
      exact Nat.pow_dvd_pow 2 h2
    have hm : pos % n.toNat % 4 = 0 := by rw [Nat.mod_mod_of_dvd _ hd, hpos]
    have hlt := Nat.mod_lt pos (show 0 < n.toNat by omega)
    -- the missing bytes are a number of words
    have hmiss : 4 * ((n.toNat - pos % n.toNat) % n.toNat / 4) =
        (n.toNat - pos % n.toNat) % n.toNat := by
      rw [Nat.mul_comm]
      refine Nat.div_mul_cancel ((Nat.dvd_mod_iff hd).mpr (Nat.dvd_sub hd ?_))
      exact Nat.dvd_of_mod_eq_zero hm
    have hz : (pos + (n.toNat - pos % n.toNat) % n.toNat) % n.toNat = 0 := by
      have hsum : pos + (n.toNat - pos % n.toNat) = n.toNat * (pos / n.toNat) + n.toNat := by
        have := Nat.div_add_mod pos n.toNat
        omega
      rw [Nat.add_mod_mod, hsum, Nat.mul_add_mod, Nat.mod_self]
    have e : n = (n.toNat : Int) := by omega
    rw [length_words, List.length_replicate, hmiss, e]
    exact Int.natCast_dvd_natCast.mpr (Nat.dvd_of_mod_eq_zero hz)

/-! ## instructions of either machine -/

def AnyInstr.machine : AnyInstr → Machine
  | .x64 _ => .x64
  | .a64 _ => .a64

/-- the branch an instruction makes: x86-64 jumps have a trailing number, AArch64 has a wide field for
the plain jump and a narrow one for the others -/
def AnyInstr.branch? : AnyInstr → Option Branch
  | .x64 (.jump l) | .x64 (.jumpIf _ l) => some ⟨.rel32, l⟩
  | .a64 (.jump l) => some ⟨.imm26, l⟩
  | .a64 (.jumpIf _ l) | .a64 (.jumpIfZero _ l) | .a64 (.jumpIfNotZero _ l) => some ⟨.imm19, l⟩
  | _ => none

theorem mapError_eq_ok {ε δ α : Type} {x : Except ε α} {f : ε → δ} {a : α} :
    x.mapError f = .ok a ↔ x = .ok a := by
  cases x <;> simp [Except.mapError]

theorem map_eq_ok {ε α β : Type} {x : Except ε α} {f : α → β} {r : β} :
    x.map f = .ok r ↔ ∃ a, x = .ok a ∧ f a = r := by
  cases x <;> simp [Except.map]

theorem mapError_eq_error {ε δ α : Type} {x : Except ε α} {f : ε → δ} {e : δ} :
    x.mapError f = .error e ↔ ∃ g, x = .error g ∧ e = f g := by
  cases x <;> simp [Except.mapError, eq_comm]

section
variable {m : Machine} {pos : Nat} {i : AnyInstr} {c : Chunk}

theorem AnyInstr.encode_ok (h : i.encode m pos = .ok c) :
    (∃ j, i = .x64 j ∧ j.encode pos = .ok c) ∨ (m = .a64 ∧ ∃ j, i = .a64 j ∧ j.encode pos = .ok c) := by
  cases i with
  | x64 j =>
    simp only [AnyInstr.encode] at h
    split at h
    · cases h
    · exact .inl ⟨j, rfl, mapError_eq_ok.mp h⟩
  | a64 j =>
    cases m with
    | x64 =>
      simp only [AnyInstr.encode] at h
      split at h <;> cases h
    | a64 => exact .inr ⟨rfl, j, rfl, mapError_eq_ok.mp h⟩

theorem AnyInstr.encode_shaped (h : i.encode m pos = .ok c) : c.Shaped := by
  rcases AnyInstr.encode_ok h with ⟨j, -, hj⟩ | ⟨-, j, -, hj⟩
  · exact X64.Instr.encode_shaped hj
  · exact A64.Instr.encode_shaped hj

theorem AnyInstr.encode_branch (h : i.encode m pos = .ok c) : c.branch = i.branch? := by
  rcases AnyInstr.encode_ok h with ⟨j, rfl, hj⟩ | ⟨-, j, rfl, hj⟩
  · rw [X64.Instr.encode_branch hj]
    cases j <;> rfl
  · obtain ⟨ws, -, e, -⟩ := A64.Instr.encode_words hj
    rw [e]
    cases j <;> rfl

theorem AnyInstr.encode_ne_label {e : AsmFault} (h : i.encode m pos = .error e) (f : LabelFault) :
    e ≠ .label f := by
  rintro rfl
  cases i with
  | x64 j =>
    simp only [AnyInstr.encode] at h
    split at h
    · cases h
    · obtain ⟨g, -, hg⟩ := mapError_eq_error.mp h
      cases hg
  | a64 j =>
    cases m with
    | x64 =>
      simp only [AnyInstr.encode] at h
      split at h <;> cases h
    | a64 =>
      obtain ⟨g, -, hg⟩ := mapError_eq_error.mp h
      cases hg

end

/-! ## listings -/

section
variable (m : Machine) (lines : List (Line AnyInstr))

abbrev Stands (pos : Nat) (x : Line AnyInstr) : Prop := StandsAt (AnyInstr.encode m) 0 lines pos x

/-- the bytes of an instruction at `pos`: its encoding, but for the field of its branch, which leads
to the offset where the label is marked -/
structure ResolvesAt (pos : Nat) (i : AnyInstr) (bytes : List UInt8) : Prop where
  encoded : ∃ c, i.encode m pos = .ok c ∧ bytes.length = c.bytes.length ∧
    ∀ k < 8 * c.bytes.length, (∀ b, i.branch? = some b → ¬ b.field.Covers c.bytes.length k) →
      (ofLittleEndian bytes).testBit k = (ofLittleEndian c.bytes).testBit k
  leads : ∀ b, i.branch? = some b → ∃ t, (∀ t', Stands m lines t' (.mark b.label) ↔ t' = t) ∧
    (b.field.origin pos bytes.length : Int) + b.field.displacement bytes = t

def Rejects : Prop := ∃ pos i e, Stands m lines pos (.instr i) ∧ i.encode m pos = .error e

def Dangles : Prop := ∃ i b, Line.instr i ∈ lines ∧ i.branch? = some b ∧ Line.mark b.label ∉ lines

/-- the field of a branch has no room for the displacement to its label -/
def Overreaches : Prop :=
  ∃ pos i b c t, Stands m lines pos (.instr i) ∧ i.branch? = some b ∧ i.encode m pos = .ok c ∧
    Stands m lines t (.mark b.label) ∧
    ¬ b.field.Spans ((t : Int) - b.field.origin pos c.bytes.length)

end

section
variable {m : Machine} {lines : List (Line AnyInstr)}

theorem stopOf_mod_four (hm : ∀ i, Line.instr i ∈ lines → i.machine = .a64) {pos : Nat}
    (hpos : pos % 4 = 0) : stopOf (AnyInstr.encode .a64) pos lines % 4 = 0 := by
  refine stopOf_mod hpos fun p i c hi hc => ?_
  rcases AnyInstr.encode_ok hc with ⟨j, rfl, -⟩ | ⟨-, j, -, hj⟩
  · cases hm _ hi
  · exact A64.Instr.encode_length hj

theorem standsAt_mod_four (hm : ∀ i, Line.instr i ∈ lines → i.machine = .a64) {pos : Nat}
    {x : Line AnyInstr} (h : Stands .a64 lines pos x) : pos % 4 = 0 := by
  obtain ⟨before, after, rfl, rfl⟩ := h
  exact stopOf_mod_four (fun i hi => hm i (List.mem_append_left _ hi)) rfl

theorem stands_unique (hn : (markedLabels lines).Nodup) {l : String} {t t' : Nat}
    (h : Stands m lines t (.mark l)) (h' : Stands m lines t' (.mark l)) : t' = t := by
  have h1 := (lookup_marksFrom hn).mpr h
  have h2 := (lookup_marksFrom hn).mpr h'
  exact Option.some.inj (h2.symm.trans h1)

/-- **A closed chunk is resolved.** -/
theorem resolvesAt_of_close (hn : (markedLabels lines).Nodup) {pos : Nat} {i : AnyInstr} {c : Chunk}
    (hc : i.encode m pos = .ok c) {bytes : List UInt8}
    (h : c.close (labelsOf (AnyInstr.encode m) lines) pos = .ok bytes) :
    ResolvesAt m lines pos i bytes := by
  obtain ⟨hlen, hbits, hlead⟩ := (AnyInstr.encode_shaped hc).close_ok hn h
  rw [AnyInstr.encode_branch hc] at hbits hlead
  refine ⟨⟨c, hc, hlen, hbits⟩, fun b hb => ?_⟩
  obtain ⟨t, ht, ho, -⟩ := hlead b hb
  refine ⟨t, fun t' => ⟨stands_unique hn ht, ?_⟩, by rw [hlen]; exact ho⟩
  rintro rfl
  exact ht

/-- in code for one machine every displacement is a number of words where it has to be -/
theorem not_misaligned (hm : ∀ i, Line.instr i ∈ lines → i.machine = m) {pos t : Nat} {i : AnyInstr}
    {b : Branch} (hst : Stands m lines pos (.instr i)) (hb : i.branch? = some b)
    (hf : b.field ≠ .rel32) (ht : Stands m lines t (.mark b.label)) : (4 : Int) ∣ t - pos := by
  have hmi := hm i hst.mem
  cases i with
  | x64 j => cases j <;> cases hb <;> exact absurd rfl hf
  | a64 j =>
    cases hmi
    have h1 := standsAt_mod_four hm hst
    have h2 := standsAt_mod_four hm ht
    omega

end

/-- **Label resolution.**  Take any tree of groups, marks and instructions of one machine.

If it is assembled, every instruction stands in the code with all the bits of its encoding outside
the field of its branch, and that field, with its sign and counted from the end of an x86-64 jump or
the start of an AArch64 branch, leads to the one offset where the label is marked.

It is not assembled exactly if an instruction is refused, a label is marked twice, a branch names a
label that is never marked, or a displacement does not fit.

AArch64 code has a number of words after every line, so that no displacement is ever misaligned and
padding ends at a multiple of its boundary. -/
theorem Listing.assemble_resolves (m : Machine) (l : Listing)
    (hm : ∀ i, Line.instr i ∈ l.lines → i.machine = m) :
    (∀ prog, l.assemble m = .ok prog →
      prog.code.length = stopOf (AnyInstr.encode m) 0 l.lines ∧
      ∀ pos i, Stands m l.lines pos (.instr i) →
        ResolvesAt m l.lines pos i
          ((prog.code.drop pos).take ((Line.instr i).sizeAt (AnyInstr.encode m) pos))) ∧
    ((∃ e, l.assemble m = .error e) ↔
      Rejects m l.lines ∨ ¬ (markedLabels l.lines).Nodup ∨ Dangles l.lines ∨
        Overreaches m l.lines) ∧
    (m = .a64 →
      (∀ before after, l.lines = before ++ after →
        stopOf (AnyInstr.encode m) 0 before % 4 = 0) ∧
      l.assemble m ≠ .error (.label .misaligned) ∧
      ∀ before after n, l.lines = before ++ .instr (.a64 (.align n)) :: after →
        (∃ c, (AnyInstr.a64 (.align n)).encode m (stopOf (AnyInstr.encode m) 0 before) = .ok c) →
        n ∣ (stopOf (AnyInstr.encode m) 0 (before ++ [.instr (.a64 (.align n))]) : Int)) := by
  have hshape : ∀ pos i c, AnyInstr.encode m pos i = .ok c → c.Shaped :=
    fun _ _ _ h => AnyInstr.encode_shaped h
  refine ⟨?_, ⟨?_, ?_⟩, ?_⟩
  · intro prog h
    obtain ⟨ha, hn, hlen, hcl, -⟩ := assembleLines_ok hshape h
    refine ⟨hlen, fun pos i hst => ?_⟩
    obtain ⟨c, hc⟩ := ha pos i hst
    rw [sizeAt_ok hc]
    exact resolvesAt_of_close hn hc (hcl pos i c hst hc)
  · rintro ⟨e, h⟩
    rcases assembleLines_error h with ⟨pos, i, hst, hi⟩ | ⟨l', -, hn⟩ | ⟨-, hn, pos, i, c, f, hst, hc, hf, -⟩
    · exact .inl ⟨pos, i, e, hst, hi⟩
    · exact .inr (.inl hn)
    · obtain ⟨b, hb, hcase⟩ := Chunk.close_error hn hf
      rw [AnyInstr.encode_branch hc] at hb
      rcases hcase with ⟨-, hlab⟩ | ⟨t, ht, ⟨-, hspan⟩ | ⟨-, hfld, hbad⟩⟩
      · exact .inr (.inr (.inl ⟨i, b, hst.mem, hb, hlab⟩))
      · exact .inr (.inr (.inr ⟨pos, i, b, c, t, hst, hb, hc, ht, hspan⟩))
      · exact absurd (not_misaligned hm hst hb hfld ht) hbad
  · -- an assembled listing shows none of the four
    intro hcause
    cases h : l.assemble m with
    | error e => exact ⟨e, rfl⟩
    | ok prog =>
      exfalso
      obtain ⟨ha, hn, -, hcl, -⟩ := assembleLines_ok hshape h
      rcases hcause with ⟨pos, i, e, hst, he⟩ | hdup | ⟨i, b, hi, hb, hlab⟩ |
        ⟨pos, i, b, c, t, hst, hb, hc, ht, hspan⟩
      · obtain ⟨c, hc⟩ := ha pos i hst
        rw [he] at hc
        cases hc
      · exact hdup hn
      · obtain ⟨pos, hst⟩ := standsAt_of_mem hi 0
        obtain ⟨c, hc⟩ := ha pos i hst
        obtain ⟨t, ht, -⟩ := (resolvesAt_of_close hn hc (hcl pos i c hst hc)).leads b hb
        exact hlab ((ht t).mpr rfl).mem
      · rw [← AnyInstr.encode_branch hc] at hb
        obtain ⟨-, -, hlead⟩ := (AnyInstr.encode_shaped hc).close_ok hn (hcl pos i c hst hc)
        obtain ⟨t', ht', -, hspan'⟩ := hlead b hb
        rw [stands_unique hn ht ht'] at hspan'
        exact hspan hspan'
  · rintro rfl
    refine ⟨?_, ?_, ?_⟩
    · intro before after e
      rw [e] at hm
      exact stopOf_mod_four (fun i hi => hm i (List.mem_append_left _ hi)) rfl
    · intro h
      rcases assembleLines_error h with ⟨pos, i, hst, hi⟩ | ⟨l', e, -⟩ | ⟨-, hn, pos, i, c, f, hst, hc, hf, e⟩
      · exact AnyInstr.encode_ne_label hi _ rfl
      · cases e
      · cases e
        obtain ⟨b, hb, ⟨e, -⟩ | ⟨t, ht, ⟨e, -⟩ | ⟨-, hfld, hbad⟩⟩⟩ := Chunk.close_error hn hf
        · cases e
        · cases e
        · rw [AnyInstr.encode_branch hc] at hb
          exact hbad (not_misaligned hm hst hb hfld ht)
    · rintro before after n e ⟨c, hc⟩
      rw [e] at hm
      have hpos : stopOf (AnyInstr.encode .a64) 0 before % 4 = 0 :=
        stopOf_mod_four (fun i hi => hm i (List.mem_append_left _ hi)) rfl
      rw [stopOf_append, stopOf_cons, stopOf_nil, sizeAt_ok hc]
      rcases AnyInstr.encode_ok hc with ⟨j, hj, -⟩ | ⟨-, j, hj, hjc⟩
      · cases hj
      · cases hj
        exact A64.Instr.encode_align hpos hjc

/-- a loop with a branch forward over padding and a branch back -/
def paddedLoop : Listing :=
  .group [.instr (.a64 (.jumpIfZero (.x 0) "out")), .instr (.a64 (.jump "next")),
    .group [.instr (.a64 (.align 16)), .mark "loop",
      .group [.instr (.a64 .nop), .mark "next", .instr (.a64 (.jumpIf 1 "loop"))]],
    .mark "out", .instr (.a64 .ret)]

theorem Listing.assemble_resolves_paddedLoop :
    ∃ prog, paddedLoop.assemble .a64 = .ok prog ∧ prog.code.length = 28 ∧
      ResolvesAt .a64 paddedLoop.lines 20 (.a64 (.jumpIf 1 "loop")) ((prog.code.drop 20).take 4) ∧
      ((prog.code.drop 20).take 4 = [0xE1, 0xFF, 0xFF, 0x54]) := by
  have hm : ∀ i, Line.instr i ∈ paddedLoop.lines → i.machine = .a64 := by
    intro i hi
    simp only [paddedLoop, Listing.lines, Listing.linesOfAll, List.mem_append, List.mem_cons,
      List.not_mem_nil, or_false, false_or, Line.instr.injEq, reduceCtorEq] at hi
    rcases hi with rfl | rfl | ⟨rfl | rfl | rfl⟩ | rfl <;> rfl
  have hst : Stands .a64 paddedLoop.lines 20 (.instr (.a64 (.jumpIf 1 "loop"))) :=
    ⟨paddedLoop.lines.take 6, paddedLoop.lines.drop 7, rfl, by decide⟩
  obtain ⟨prog, h, hcode⟩ : ∃ prog, paddedLoop.assemble .a64 = .ok prog ∧ prog.code =
      [0xC0, 0x00, 0x00, 0xB4, 0x04, 0x00, 0x00, 0x14, 0x1F, 0x20, 0x03, 0xD5, 0x1F, 0x20, 0x03,
        0xD5, 0x1F, 0x20, 0x03, 0xD5, 0xE1, 0xFF, 0xFF, 0x54, 0xC0, 0x03, 0x5F, 0xD6] :=
    ⟨⟨_, []⟩, rfl, rfl⟩
  obtain ⟨hlen, hres⟩ := (Listing.assemble_resolves .a64 paddedLoop hm).1 prog h
  refine ⟨prog, h, by rw [hcode]; rfl, hres 20 _ hst, by rw [hcode]; rfl⟩

end TreeJit
