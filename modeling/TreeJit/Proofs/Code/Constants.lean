import TreeJit.Proofs.A64.Performs
import TreeJit.Proofs.X64.RoundTrip

/-!
# Constants in registers

A constant load leaves its constant in the register and changes nothing else, for all 2^64
constants.

On x86-64 there are three encodings.  A constant that is its low 32 bits takes the 32-bit move, which
clears the upper half; one that is its low 32 bits with the sign carried on takes the move with a
signed constant (`signedConstant`); all others are written out.  `step` reads one instruction from
the left of some code and does what it does; what it leaves is the code behind that instruction.

On AArch64 the halfwords that are not zero are put down one by one, the first one with a word that
clears the others (`run_movImmWords`).
-/

namespace TreeJit.X64

/-! ## one step of the machine -/

/-- a signed constant into a register: opcode `0xC7` with the digit 0 -/
def signedConstant (bs : List UInt8) : Option (Instr × List UInt8) := do
  let (h, bs) ← readHead bs
  if h.escaped = true ∨ h.op ≠ 0xC7 ∨ h.legacy ≠ [] then none
  else
    let (m, bs) ← h.readModRM bs
    match m.rm with
    | .reg hi c =>
      if m.reg ≠ 0 then none
      else (readInt32 bs).map fun (imm, rest) => (.movImm ⟨gpr hi c, h.width⟩ imm.toInt64, rest)
    | .mem _ => none

/-- one instruction, moves of signed constants among them, and the bytes behind it -/
def decodeNext (bs : List UInt8) : Option (Instr × List UInt8) := (decodeOne bs).or (signedConstant bs)

def step (E : Env) (code : List UInt8) (c : Cpu) : Option (Cpu × List Event × List UInt8) := do
  let (i, rest) ← decodeNext code
  let (c', es) ← i.perform E c
  return (c', es, rest)

theorem step_of_decode {E : Env} {code rest : List UInt8} {c c' : Cpu} {es : List Event} {i : Instr}
    (hd : decodeNext code = some (i, rest)) (hp : i.perform E c = some (c', es)) :
    step E code c = some (c', es, rest) := by
  simp only [step, hd, hp, Option.bind_eq_bind, Option.bind_some, Option.pure_def]

/-! ## halves of words -/

theorem ofNat_low (y : UInt64) : UInt64.ofNat (y.toNat % 256 ^ 4) = y &&& 0xFFFFFFFF := by
  apply UInt64.toNat_inj.mp
  rw [UInt64.toNat_and, UInt64.toNat_ofNat']
  have e : y.toNat &&& (0xFFFFFFFF : UInt64).toNat = y.toNat % 2 ^ 32 :=
    Nat.and_two_pow_sub_one_eq_mod _ 32
  omega

theorem low_of_unsigned {v : Int64} (h0 : 0 ≤ v.toInt) (h : v.toInt ≤ 0xFFFFFFFF) :
    v.toUInt64 &&& 0xFFFFFFFF = v.toUInt64 := by
  have hv : (v.toUInt64.toNat : Int) = v.toInt := by
    change 0 ≤ v.toBitVec.toInt at h0
    change (v.toBitVec.toNat : Int) = v.toBitVec.toInt
    rw [BitVec.toInt_eq_toNat_cond] at h0 ⊢
    have := v.toBitVec.isLt
    omega
  have hlt : v.toUInt64.toNat < 256 ^ 4 := by omega
  rw [← ofNat_low, Nat.mod_eq_of_lt hlt, UInt64.ofNat_toNat]

/-- a constant between -2^31 and 2^31 is its low half, with the sign carried on -/
theorem signed_low {v : Int64} (h0 : -0x80000000 ≤ v.toInt) (h : v.toInt ≤ 0x7FFFFFFF) :
    (UInt32.ofNat (v.toUInt64.toNat % 256 ^ 4)).toInt32.toInt64 = v := by
  apply Int64.toInt_inj.mp
  rw [Int32.toInt_toInt64]
  show (BitVec.ofNat 32 (v.toBitVec.toNat % 256 ^ 4)).toInt = v.toBitVec.toInt
  change -0x80000000 ≤ v.toBitVec.toInt at h0
  change v.toBitVec.toInt ≤ 0x7FFFFFFF at h
  rw [BitVec.toInt_eq_toNat_cond] at h0 h
  rw [BitVec.toInt_eq_toNat_cond, BitVec.toInt_eq_toNat_cond, BitVec.toNat_ofNat]
  have := v.toBitVec.isLt
  omega

/-! ## the encodings -/

section
variable {c : RegCode} {id : RegId}

theorem decodeNext_short (hn : c.Names id) (w : Bool) (n : Nat) (code : List UInt8) :
    decodeNext (rexBytes w false c.high false ++ [0xB8 + c.code] ++
        littleEndian (if w then 8 else 4) n ++ code) =
      some (.movImm ⟨id, if w then .w64 else .w32⟩
        (UInt64.ofNat (n % 256 ^ if w then 8 else 4)).toInt64, code) := by
  rw [decodeNext, decodeOne_mov hn]
  rfl

theorem readModRM_digit {h : Head} (hn : c.Names id) (rest : List UInt8) :
    h.readModRM ((0xC0 ||| c.code) :: rest) = some (⟨0, .reg h.b c.code⟩, rest) :=
  @readModRM_reg h 0 c.code (by decide) hn.lt rest

theorem decodeNext_signed (hn : c.Names id) (n : Nat) (code : List UInt8) :
    decodeNext (rexBytes true false c.high false ++ [0xC7, 0xC0 ||| c.code] ++
        littleEndian 4 n ++ code) =
      some (.movImm (.r64 id) (UInt32.ofNat (n % 256 ^ 4)).toInt32.toInt64, code) := by
  have hhead := readHead_append (w := true) (r := false) (b := c.high) (f := false)
    (rfl : List.all [] isLegacy = true) (.one 0xC7 (by decide))
    ((0xC0 ||| c.code) :: (littleEndian 4 n ++ code))
  rw [List.nil_append, List.append_assoc, List.singleton_append] at hhead
  rw [List.append_assoc, List.append_assoc, List.cons_append, List.singleton_append]
  -- the tables of the other opcodes do not have this one
  have hone : decodeOne (rexBytes true false c.high false ++
      0xC7 :: (0xC0 ||| c.code) :: (littleEndian 4 n ++ code)) = none := by
    have hlong : isShortOp 0xC7 = false := by decide
    rw [decodeOne, hhead]
    simp only [Option.bind_eq_bind, Option.bind_some, Head.isShort, hlong, Bool.and_false,
      Bool.false_eq_true, if_false]
    rw [readModRM_digit hn]
    rfl
  rw [decodeNext, hone, Option.none_or, signedConstant, hhead]
  simp only [Option.bind_eq_bind, Option.bind_some]
  rw [if_neg (by decide), readModRM_digit hn]
  simp only [Option.bind_some, ne_eq, not_true, if_false, readInt32, readNumber_littleEndian,
    Option.map_some, Head.b, any_b_rexOf, hn.eq, width_rexOf, if_true]
  rfl

end

/-! ## constants -/

/-- code that puts a constant into a register, changes nothing else, and is passed in one step -/
def PutsConstant (bytes : List UInt8) (id : RegId) (y : UInt64) : Prop :=
  ∀ E code c, step E (bytes ++ code) c = some (c.setGpr id y, [], code)

section
variable {id : RegId}

/-- the 32-bit move clears the upper half -/
theorem putsConstant_short {c : RegCode} (hn : c.Names id) (y : UInt64) :
    PutsConstant (rexBytes false false c.high false ++ [0xB8 + c.code] ++ littleEndian 4 y.toNat) id
      (y &&& 0xFFFFFFFF) := by
  intro E code cpu
  refine step_of_decode (decodeNext_short hn false y.toNat code) ?_
  show some (cpu.setGpr id (UInt64.ofNat (y.toNat % 256 ^ 4) &&& 0xFFFFFFFF), []) = _
  rw [ofNat_low, UInt64.and_assoc, UInt64.and_self]

theorem putsConstant_signed {c : RegCode} (hn : c.Names id) {v : Int64} (h0 : -0x80000000 ≤ v.toInt)
    (h : v.toInt ≤ 0x7FFFFFFF) :
    PutsConstant (rexBytes true false c.high false ++ [0xC7, 0xC0 ||| c.code] ++
      littleEndian 4 v.toUInt64.toNat) id v.toUInt64 := by
  intro E code cpu
  refine step_of_decode (decodeNext_signed hn _ code) ?_
  rw [signed_low h0 h]
  rfl

theorem putsConstant_full {c : RegCode} (hn : c.Names id) (y : UInt64) :
    PutsConstant (rexBytes true false c.high false ++ [0xB8 + c.code] ++ littleEndian 8 y.toNat) id
      y := by
  intro E code cpu
  refine step_of_decode (decodeNext_short hn true y.toNat code) ?_
  show some (cpu.setGpr id (UInt64.ofNat (y.toNat % 256 ^ 8)), []) = _
  rw [Nat.mod_eq_of_lt (show y.toNat < 256 ^ 8 from y.toNat_lt),
    UInt64.ofNat_toNat]

/-- **A 64-bit constant load**, whichever of the three encodings the constant takes. -/
theorem movImm_r64 (hr : IsGpr id) (v : Int64) (pos : Nat) :
    ∃ bytes, (Instr.movImm (.r64 id) v).encode pos = .ok { bytes := bytes } ∧
      PutsConstant bytes id v.toUInt64 := by
  obtain ⟨c, hc, hn⟩ := RegCode.of_names hr
  simp only [Instr.encode, movImmBytes, Reg.r64, hc, bind, Except.bind]
  by_cases hu : 0 ≤ v.toInt ∧ v.toInt ≤ 0xFFFFFFFF
  · refine ⟨_, by rw [if_pos hu]; rfl, ?_⟩
    have hp := putsConstant_short hn v.toUInt64
    rwa [low_of_unsigned hu.1 hu.2] at hp
  · rw [if_neg hu]
    by_cases hs : -0x80000000 ≤ v.toInt ∧ v.toInt ≤ 0x7FFFFFFF
    · exact ⟨_, by rw [if_pos hs]; rfl, putsConstant_signed hn hs.1 hs.2⟩
    · exact ⟨_, by rw [if_neg hs]; rfl, putsConstant_full hn v.toUInt64⟩

/-- **A 32-bit constant load** puts down the low half and clears the upper one. -/
theorem movImm_r32 (hr : IsGpr id) (v : Int64) (pos : Nat) :
    ∃ bytes, (Instr.movImm (.r32 id) v).encode pos = .ok { bytes := bytes } ∧
      PutsConstant bytes id (v.toUInt64 &&& 0xFFFFFFFF) := by
  obtain ⟨c, hc, hn⟩ := RegCode.of_names hr
  simp only [Instr.encode, movImmBytes, Reg.r32, hc, bind, Except.bind]
  exact ⟨_, rfl, putsConstant_short hn v.toUInt64⟩

end

end TreeJit.X64

namespace TreeJit.A64

/-! ## words -/

theorem decode_pack {f : Form} {ps : List (UInt32 × Nat)} {xs : List UInt32} {w : UInt32}
    (hf : f.Takes ps) (hx : List.Forall₂ (fun p x => x.toNat < 2 ^ p.2) ps xs)
    (hw : w = pack f.pattern ps xs) : decode w = some f := by
  rw [hw]
  exact decode_eq hf.1 (mask_pack hf hx)

theorem decode_mov {f : Form} (hf : f.Takes [(21, 2), (5, 16), (0, 5)]) (dst : Reg) {p : Nat × UInt32}
    (hp : p.1 < 4 ∧ p.2.toNat < 2 ^ 16) :
    decode (f.pattern ||| (UInt32.ofNat p.1 <<< 21) ||| (p.2 <<< 5) ||| dst.field) = some f := by
  have hi : (UInt32.ofNat p.1).toNat < 2 ^ 2 := by
    rw [UInt32.toNat_ofNat', Nat.mod_eq_of_lt (by omega)]
    exact hp.1
  exact decode_pack hf (.cons hi (.cons hp.2 (.cons dst.field_lt .nil)))
    (by rw [pack_cons, pack_cons, pack_low])

/-- a halfword that clears the others, and at most three that keep them -/
def MoveWide (ws : List UInt32) : Prop :=
  ∃ w us, ws = w :: us ∧ us.length ≤ 3 ∧ decode w = some .movz ∧ ∀ u ∈ us, decode u = some .movk

theorem length_halfwords (y : UInt64) : 1 ≤ (halfwords y).length ∧ (halfwords y).length ≤ 4 := by
  unfold halfwords
  split
  · exact ⟨by decide, by decide⟩
  · rename_i hne
    exact ⟨Nat.one_le_iff_ne_zero.mpr fun h => hne (List.eq_nil_of_length_eq_zero h),
      List.length_filterMap_le _ _⟩

theorem moveWide_movImmWords (dst : Reg) (y : UInt64) : MoveWide (movImmWords dst y) := by
  obtain ⟨h1, h4⟩ := length_halfwords y
  have hmem := fun p => mem_halfwords (y := y) (p := p)
  unfold movImmWords
  cases hs : halfwords y with
  | nil =>
    rw [hs] at h1
    cases h1
  | cons p rest =>
    rw [hs] at h4 hmem
    obtain ⟨hp, hrest⟩ := List.forall_mem_cons.mp hmem
    refine ⟨_, _, rfl, ?_, decode_mov Form.takes_mov.1 dst hp, fun u hu => ?_⟩
    · rw [List.length_map]
      exact Nat.le_of_succ_le_succ h4
    · obtain ⟨q, hq, rfl⟩ := List.mem_map.mp hu
      exact decode_mov Form.takes_mov.2 dst (hrest q hq)

/-! ## constants -/

/-- words that put a constant into a register and change nothing else -/
def PutsConstant (ws : List UInt32) (n : Nat) (y : UInt64) : Prop :=
  ∀ E c, run E ws c = some (c.setX n y, [])

/-- **A constant load**: its words are moves of halfwords, and put down the part of the constant that
the register's width takes. -/
theorem movImm_words {n : Nat} (hn : n < 31) {w : Width} (hw : w ≠ .none) (v : Int64) (pos : Nat) :
    ∃ ws, (Instr.movImm ⟨(n : Nat), w⟩ v).encode pos = .ok { bytes := ws.flatMap wordBytes } ∧
      MoveWide ws ∧
      PutsConstant ws n (if w = .w32 then v.toUInt64 &&& 0xFFFFFFFF else v.toUInt64) := by
  have hcheck : Reg.check ⟨(n : Nat), w⟩ = .ok () :=
    Reg.Sound.check ⟨⟨Int.natCast_nonneg n, Int.ofNat_le.mpr (Nat.le_of_lt hn)⟩, hw⟩
  refine ⟨movImmWords ⟨(n : Nat), w⟩ (if w = .w32 then v.toUInt64 &&& 0xFFFFFFFF else v.toUInt64),
    ?_, moveWide_movImmWords _ _, fun E c => ?_⟩
  · simp only [Instr.encode, Instr.precheck, hcheck, bind, Except.bind]
    rfl
  · rw [run_movImmWords, Reg.number_ofNat (Nat.lt_succ_of_lt hn), Cpu.setReg_of_ne c (Nat.ne_of_lt hn)]

end TreeJit.A64

namespace TreeJit

/-- **Every constant is put down** exactly, in each of the sixteen registers of x86-64 and in the
registers 0 to 30 of AArch64, whatever they held before, or its low 32 bits with zeros in front of
them.  All other registers, the flags and memory stay as they are. -/
theorem movImm_puts_constant (v : Int64) (pos : Nat) :
    (∀ id, X64.IsGpr id →
      (∃ bytes, (X64.Instr.movImm (.r64 id) v).encode pos = .ok { bytes := bytes } ∧
        X64.PutsConstant bytes id v.toUInt64) ∧
      ∃ bytes, (X64.Instr.movImm (.r32 id) v).encode pos = .ok { bytes := bytes } ∧
        X64.PutsConstant bytes id (v.toUInt64 &&& 0xFFFFFFFF)) ∧
    ∀ n : Nat, n < 31 →
      (∃ ws, (A64.Instr.movImm (.x n) v).encode pos = .ok { bytes := ws.flatMap wordBytes } ∧
        A64.MoveWide ws ∧ A64.PutsConstant ws n v.toUInt64) ∧
      ∃ ws, (A64.Instr.movImm (.w n) v).encode pos = .ok { bytes := ws.flatMap wordBytes } ∧
        A64.MoveWide ws ∧ A64.PutsConstant ws n (v.toUInt64 &&& 0xFFFFFFFF) :=
  ⟨fun _ h => ⟨X64.movImm_r64 h v pos, X64.movImm_r32 h v pos⟩,
    fun _ h => ⟨A64.movImm_words (w := .w64) h nofun v pos,
      A64.movImm_words (w := .w32) h nofun v pos⟩⟩

/-- a negative constant in `r12` takes the sign extension, one with two halfwords of zeros in `x30`
takes two words -/
theorem movImm_puts_constant_corners :
    X64.PutsConstant [0x49, 0xC7, 0xC4, 0xFB, 0xFF, 0xFF, 0xFF] 12 (-5 : Int64).toUInt64 ∧
      ∃ ws, ws.flatMap wordBytes = [0x1E, 0x00, 0xB0, 0xD2, 0x3E, 0x00, 0xE0, 0xF2] ∧
        A64.MoveWide ws ∧ A64.PutsConstant ws 30 0x0001000080000000 := by
  obtain ⟨⟨bytes, he, hp⟩, -⟩ := (movImm_puts_constant (-5) 0).1 12 (by decide)
  obtain ⟨⟨ws, he', hw', hp'⟩, -⟩ := (movImm_puts_constant 0x0001000080000000 0).2 30 (by decide)
  have hbytes : (A64.Instr.movImm (.x 30) 0x0001000080000000).encode 0 =
      .ok { bytes := [0x1E, 0x00, 0xB0, 0xD2, 0x3E, 0x00, 0xE0, 0xF2] } := by decide +kernel
  refine ⟨?_, ws, ?_, hw', hp'⟩
  · cases he
    exact hp
  · exact congrArg Chunk.bytes (Except.ok.inj (he'.symm.trans hbytes))

end TreeJit
