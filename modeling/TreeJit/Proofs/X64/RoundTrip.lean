import Mathlib.Data.Fintype.Basic
import Mathlib.Tactic.FinCases
import TreeJit.Proofs.Word.Memory
import TreeJit.Proofs.X64.Decode

/-!
# Encoded instructions read back

`Instr.Regular` are the instructions whose operands exist and have sizes the instruction takes, and
`Instr.written` is what the bytes of one say: a zero extension has a 32-bit destination, and the
address of a symbol is still zero.

The encoder builds almost everything with `modRM`, so one lemma carries the argument
(`decodeOne_modRM`): what `modRM` put down is read as its head and its operands.  Each instruction
then only has to be found in the opcode tables (`Instr.Regular.readsBack`).
-/

namespace TreeJit.X64

/-! ## registers -/

/-- `c` is the machine's number of the register `id` -/
structure RegCode.Names (c : RegCode) (id : RegId) : Prop where
  lt : c.code < 8
  eq : gpr c.high c.code = id
  /-- the other low bytes are those of `ah ch dh bh` without REX -/
  low : c.byteRex = false → c.code < 4

theorem RegCode.of_names {id : RegId} (h : 0 ≤ id ∧ id < 16) :
    ∃ c, RegCode.of id = .ok c ∧ c.Names id := by
  obtain ⟨n, rfl⟩ := Int.eq_ofNat_of_zero_le h.1
  have hn : n < 16 := Int.ofNat_lt.mp h.2
  have key : ∀ k : Fin 16, ∃ c, RegCode.of (k.val : Int) = .ok c ∧ c.code < 8 ∧
      gpr c.high c.code = (k.val : Int) ∧ (c.byteRex = false → c.code < 4) := by
    intro k
    fin_cases k <;> exact ⟨_, rfl, by decide, by decide, by decide⟩
  obtain ⟨c, hc, h1, h2, h3⟩ := key ⟨n, hn⟩
  exact ⟨c, hc, h1, h2, h3⟩

theorem RegCode.ofX_names {x : XReg} (h : x ≤ 15) :
    ∃ c, RegCode.ofX x = .ok c ∧ c.code < 8 ∧ xmm c.high c.code = x := by
  have hn : x.toNat < 16 := by
    have := UInt8.le_iff_toNat_le.mp h
    exact Nat.lt_succ_of_le this
  have key : ∀ k : Fin 16, ∃ c, RegCode.ofX (UInt8.ofNat k) = .ok c ∧ c.code < 8 ∧
      xmm c.high c.code = UInt8.ofNat k := by
    intro k
    fin_cases k <;> exact ⟨_, rfl, by decide, by decide⟩
  have := key ⟨x.toNat, hn⟩
  rwa [UInt8.ofNat_toNat] at this

/-! ## the head -/

def rexOf (w r b force : Bool) : Option Rex :=
  if w || r || b || force then some ⟨w, r, false, b⟩ else none

/-- bytes that are read as an opcode -/
inductive IsOpcode : List UInt8 → Bool → UInt8 → Prop where
  | one (op : UInt8) (h : isLegacy op = false ∧ op &&& 0xF0 ≠ 0x40 ∧ op ≠ 0x0F) :
      IsOpcode [op] false op
  | two (op : UInt8) : IsOpcode [0x0F, op] true op

section
variable {legacy opcode : List UInt8} {w r b f esc : Bool} {op : UInt8}

theorem readRex_rexBytes {bs : List UInt8} {c : UInt8} (hc : c &&& 0xF0 ≠ 0x40) :
    readRex (rexBytes w r b f ++ c :: bs) = (rexOf w r b f, c :: bs) := by
  cases w <;> cases r <;> cases b <;> cases f <;>
    first
      | rfl
      | simp [rexBytes, rexOf, readRex, hc]

theorem isLegacy_rexBytes : (rexBytes w r b f).all (fun c => !isLegacy c) = true := by
  revert w r b f
  decide

theorem readHead_append (hl : legacy.all isLegacy = true) (ho : IsOpcode opcode esc op)
    (rest : List UInt8) :
    readHead (legacy ++ rexBytes w r b f ++ opcode ++ rest) =
      some (⟨legacy, rexOf w r b f, esc, op⟩, rest) := by
  -- the first byte behind the legacy bytes is not one of them
  have hstop : ∃ c bs, rexBytes w r b f ++ (opcode ++ rest) = c :: bs ∧ isLegacy c = false := by
    cases hx : rexBytes w r b f with
    | nil =>
      cases ho with
      | one _ h => exact ⟨_, _, rfl, h.1⟩
      | two => exact ⟨_, _, rfl, rfl⟩
    | cons c cs =>
      refine ⟨_, _, rfl, ?_⟩
      have hall := isLegacy_rexBytes (w := w) (r := r) (b := b) (f := f)
      rw [hx] at hall
      simpa using List.all_eq_true.mp hall c List.mem_cons_self
  obtain ⟨c, bs, hcb, hc⟩ := hstop
  have hl := List.all_eq_true.mp hl
  have htake : (legacy ++ rexBytes w r b f ++ opcode ++ rest).takeWhile isLegacy = legacy := by
    rw [List.append_assoc, List.append_assoc, List.takeWhile_append_of_pos hl, hcb,
      List.takeWhile_cons_of_neg (by simp [hc]), List.append_nil]
  have hdrop : (legacy ++ rexBytes w r b f ++ opcode ++ rest).dropWhile isLegacy =
      rexBytes w r b f ++ (opcode ++ rest) := by
    rw [List.append_assoc, List.append_assoc, List.dropWhile_append_of_pos hl, hcb,
      List.dropWhile_cons_of_neg (by simp [hc])]
  unfold readHead
  rw [hdrop, htake]
  cases ho with
  | one _ h =>
    rw [List.singleton_append, readRex_rexBytes h.2.1]
    simp [h.2.2]
  | two op =>
    rw [show [0x0F, op] ++ rest = 0x0F :: op :: rest from rfl, readRex_rexBytes (by decide)]
    simp

@[simp] theorem any_w_rexOf : (rexOf w r b f).any Rex.w = w := by
  cases w <;> cases r <;> cases b <;> cases f <;> rfl

@[simp] theorem any_r_rexOf : (rexOf w r b f).any Rex.r = r := by
  cases w <;> cases r <;> cases b <;> cases f <;> rfl

@[simp] theorem any_x_rexOf : (rexOf w r b f).any Rex.x = false := by
  cases w <;> cases r <;> cases b <;> cases f <;> rfl

@[simp] theorem any_b_rexOf : (rexOf w r b f).any Rex.b = b := by
  cases w <;> cases r <;> cases b <;> cases f <;> rfl

theorem rexOf_eq_none : rexOf w r b f = none ↔ (w || r || b || f) = false := by
  cases w <;> cases r <;> cases b <;> cases f <;> decide

end

/-! ## numbers behind the operands -/

theorem readNumber_littleEndian (n v : Nat) (rest : List UInt8) :
    readNumber n (littleEndian n v ++ rest) = some (v % 256 ^ n, rest) := by
  have hl : (littleEndian n v).length = n := length_littleEndian n v
  unfold readNumber
  rw [if_pos (by simp), List.take_left' hl, List.drop_left' hl, ofLittleEndian_littleEndian]

theorem readInt32_littleEndian (i : Int32) (rest : List UInt8) :
    readInt32 (littleEndian 4 i.toUInt32.toNat ++ rest) = some (i, rest) := by
  have hmod : i.toUInt32.toNat % 256 ^ 4 = i.toUInt32.toNat := Nat.mod_eq_of_lt i.toUInt32.toNat_lt
  rw [readInt32, readNumber_littleEndian, hmod, Option.map_some]
  show some ((UInt32.ofNat i.toUInt32.toNat).toInt32, rest) = _
  rw [UInt32.ofNat_toNat]
  rfl

theorem readInt8_littleEndian {i : Int32} (h : -128 ≤ i ∧ i ≤ 127) (rest : List UInt8) :
    readInt8 (littleEndian 1 i.toUInt32.toNat ++ rest) = some (i, rest) := by
  have h1 : -128 ≤ i.toInt := Int32.le_iff_toInt_le.mp h.1
  have h2 : i.toInt ≤ 127 := Int32.le_iff_toInt_le.mp h.2
  have key : (UInt8.ofNat (i.toUInt32.toNat % 256)).toInt8.toInt32 = i := by
    apply Int32.toInt_inj.mp
    rw [Int8.toInt_toInt32]
    show (BitVec.ofNat 8 (i.toBitVec.toNat % 256)).toInt = i.toBitVec.toInt
    change -128 ≤ i.toBitVec.toInt at h1
    change i.toBitVec.toInt ≤ 127 at h2
    rw [BitVec.toInt_eq_toNat_cond] at h1 h2
    rw [BitVec.toInt_eq_toNat_cond, BitVec.toInt_eq_toNat_cond, BitVec.toNat_ofNat]
    have := i.toBitVec.isLt
    omega
  show some ((UInt8.ofNat (i.toUInt32.toNat % 256)).toInt8.toInt32, rest) = _
  rw [key]

/-! ## operands -/

theorem modRM_fields (mode : UInt8) {reg rm : UInt8} (hm : mode ∈ [0x00, 0x40, 0x80, 0xC0]) (hr : reg < 8)
    (hc : rm < 8) :
    (mode ||| (reg &&& 7) <<< 3 ||| rm) >>> 6 = mode >>> 6 ∧
      ((mode ||| (reg &&& 7) <<< 3 ||| rm) >>> 3) &&& 7 = reg ∧
      (mode ||| (reg &&& 7) <<< 3 ||| rm) &&& 7 = rm := by
  -- the modes are tried one by one, as the list has them
  have key : ∀ a b : Fin 8, [0x00, 0x40, 0x80, 0xC0].all fun mode : UInt8 =>
      (mode ||| (UInt8.ofNat a &&& 7) <<< 3 ||| UInt8.ofNat b) >>> 6 = mode >>> 6 ∧
      ((mode ||| (UInt8.ofNat a &&& 7) <<< 3 ||| UInt8.ofNat b) >>> 3) &&& 7 = UInt8.ofNat a ∧
      (mode ||| (UInt8.ofNat a &&& 7) <<< 3 ||| UInt8.ofNat b) &&& 7 = UInt8.ofNat b := by decide
  have hall := key ⟨reg.toNat, UInt8.lt_iff_toNat_lt.mp hr⟩ ⟨rm.toNat, UInt8.lt_iff_toNat_lt.mp hc⟩
  have hmode := of_decide_eq_true (List.all_eq_true.mp hall mode hm)
  simpa only [UInt8.ofNat_toNat] using hmode

theorem readDisp_dispBytes (m : Mem) (c : RegCode) (rest : List UInt8) :
    (m.dispBytes c).1 ∈ [0x00, 0x40, 0x80] ∧
      ((m.dispBytes c).1 >>> 6 = 0 → c.code ≠ 5) ∧
      readDisp ((m.dispBytes c).1 >>> 6) ((m.dispBytes c).2 ++ rest) = some (m.disp, rest) := by
  unfold Mem.dispBytes
  by_cases h0 : m.disp = 0 ∧ c.code ≠ 5
  · rw [if_pos h0, h0.1]
    exact ⟨by decide, fun _ => h0.2, rfl⟩
  · rw [if_neg h0]
    by_cases h8 : -128 ≤ m.disp ∧ m.disp ≤ 127
    · rw [if_pos h8]
      refine ⟨by simp, fun h => absurd h (show (0x40 : UInt8) >>> 6 ≠ 0 by decide), ?_⟩
      have e : (0x40 : UInt8) >>> 6 = 1 := by decide
      show readDisp ((0x40 : UInt8) >>> 6) _ = _
      rw [e]
      exact readInt8_littleEndian h8 rest
    · rw [if_neg h8]
      refine ⟨by simp, fun h => absurd h (show (0x80 : UInt8) >>> 6 ≠ 0 by decide), ?_⟩
      have e : (0x80 : UInt8) >>> 6 = 2 := by decide
      show readDisp ((0x80 : UInt8) >>> 6) _ = _
      rw [e]
      exact readInt32_littleEndian m.disp rest

/-- an `r/m` operand as it will be read -/
inductive Rm.Reads : Rm → Bool → RmField → Prop where
  | reg {c : RegCode} (f : Bool) (h : c.code < 8) : Reads (.reg c f) c.high (.reg c.high c.code)
  | mem {m : Mem} {id : RegId} {c : RegCode} (base : m.base = some (.r64 id))
      (code : RegCode.of id = .ok c) (names : c.Names id) : Reads (.mem m) c.high (.mem m)

/-- whether an operand insists on a REX byte -/
def Rm.forces : Rm → Bool
  | .reg _ f => f
  | .mem _ => false

theorem readBase_sib {h : Head} (hx : h.x = false) {mode code : UInt8} (h8 : code < 8)
    (h5 : mode = 0 → code ≠ 5) (rest : List UInt8) :
    h.readBase mode code ((if code = 4 then [0x24] else []) ++ rest) = some (code, rest) := by
  unfold Head.readBase
  by_cases h4 : code = 4
  · subst h4
    have e1 : ((0x24 : UInt8) >>> 3) &&& 7 = 4 := by decide
    have e2 : (0x24 : UInt8) &&& 7 = 4 := by decide
    simp [hx, e1, e2]
  · simp only [if_neg h4, List.nil_append]
    rw [if_neg]
    rintro ⟨h0, rfl⟩
    exact h5 h0 rfl

theorem readModRM_reg {h : Head} {reg code : UInt8} (hr : reg < 8) (hc : code < 8)
    (rest : List UInt8) :
    h.readModRM (((0xC0 : UInt8) ||| (reg &&& 7) <<< 3 ||| code) :: rest) =
      some (⟨reg, .reg h.b code⟩, rest) := by
  obtain ⟨e1, e2, e3⟩ := modRM_fields 0xC0 (by decide) hr hc
  have e : (0xC0 : UInt8) >>> 6 = 3 := by decide
  rw [Head.readModRM, e1, e2, e3, if_pos e]

theorem readModRM_mem {h : Head} {m : Mem} {id : RegId} {c : RegCode}
    (hm : m.base = some (.r64 id)) (hc : c.Names id) (hb : h.b = c.high) (hx : h.x = false)
    {reg : UInt8} (hr : reg < 8) (rest : List UInt8) :
    h.readModRM ([(m.dispBytes c).1 ||| c.code ||| (reg &&& 7) <<< 3] ++
      (if c.code = 4 then [0x24] else []) ++ (m.dispBytes c).2 ++ rest) =
      some (⟨reg, .mem m⟩, rest) := by
  obtain ⟨hmode, h5, hdisp⟩ := readDisp_dispBytes m c rest
  have hswap : (m.dispBytes c).1 ||| c.code ||| (reg &&& 7) <<< 3 =
      (m.dispBytes c).1 ||| (reg &&& 7) <<< 3 ||| c.code := by
    rw [UInt8.or_assoc, UInt8.or_comm c.code, ← UInt8.or_assoc]
  obtain ⟨e1, e2, e3⟩ := modRM_fields _ (List.mem_append_left [0xC0] hmode) hr hc.lt
  have hne : (m.dispBytes c).1 >>> 6 ≠ 3 := by
    have key : [0x00, 0x40, 0x80].all fun mode : UInt8 => mode >>> 6 ≠ 3 := by decide
    exact of_decide_eq_true (List.all_eq_true.mp key _ hmode)
  have hat : Mem.at (gpr h.b c.code) m.disp = m := by
    rw [hb, hc.eq]
    cases m
    cases hm
    rfl
  rw [hswap, List.append_assoc, List.append_assoc, List.singleton_append, Head.readModRM, e1, e2, e3,
    if_neg hne, readBase_sib hx hc.lt h5]
  simp only [Option.bind_eq_bind, Option.bind_some, hdisp, hat]
  rfl

theorem modRM_mem {m : Mem} {c : RegCode} (hm : m.baseCode = .ok c) (legacy opcode : List UInt8)
    (w force : Bool) (reg : RegCode) :
    modRM legacy w opcode reg (.mem m) force =
      .ok (legacy ++ rexBytes w reg.high c.high force ++ opcode ++
        [(m.dispBytes c).1 ||| c.code ||| (reg.code &&& 7) <<< 3] ++
        (if c.code = 4 then [0x24] else []) ++ (m.dispBytes c).2) := by
  unfold modRM
  simp only [hm, bind, Except.bind]
  rfl

/-- **What `modRM` puts down is read as its head and its operands.** -/
theorem decodeOne_modRM (legacy : List UInt8) (w : Bool) (reg : RegCode) (force : Bool)
    {opcode : List UInt8} {esc b : Bool} {op : UInt8} {rm : Rm} {field : RmField} (hl : legacy.all isLegacy = true)
    (ho : IsOpcode opcode esc op) (hs : (!esc && isShortOp op) = false) (hr : reg.code < 8)
    (hrm : rm.Reads b field) :
    ∃ bytes, modRM legacy w opcode reg rm force = .ok bytes ∧ ∀ rest,
      decodeOne (bytes ++ rest) =
        Head.form ⟨legacy, rexOf w reg.high b (force || rm.forces), esc, op⟩ ⟨reg.code, field⟩ rest := by
  cases hrm with
  | @reg c f hc =>
    refine ⟨_, rfl, fun rest => ?_⟩
    have hhead := readHead_append (w := w) (r := reg.high) (b := c.high) (f := force || f) hl ho
      (((0xC0 : UInt8) ||| (reg.code &&& 7) <<< 3 ||| c.code) :: rest)
    unfold decodeOne
    rw [List.append_assoc, List.singleton_append, hhead]
    simp only [Option.bind_eq_bind, Option.bind_some, Head.isShort, hs, Bool.false_eq_true, if_false]
    rw [readModRM_reg hr hc]
    simp only [Option.bind_some, Head.b, any_b_rexOf, Rm.forces]
  | @mem m id c hm hcode hc =>
    have hbase : m.baseCode = .ok c := by
      rw [Mem.baseCode, hm]
      exact hcode
    refine ⟨_, modRM_mem hbase legacy opcode w force reg, fun rest => ?_⟩
    have hhead := readHead_append (w := w) (r := reg.high) (b := c.high) (f := force) hl ho
      ([(m.dispBytes c).1 ||| c.code ||| (reg.code &&& 7) <<< 3] ++
        (if c.code = 4 then [0x24] else []) ++ (m.dispBytes c).2 ++ rest)
    unfold decodeOne
    simp only [List.append_assoc] at hhead ⊢
    rw [hhead]
    simp only [Option.bind_eq_bind, Option.bind_some, Head.isShort, hs, Bool.false_eq_true, if_false]
    have hread := readModRM_mem (h := ⟨legacy, rexOf w reg.high c.high force, esc, op⟩) hm hc
      any_b_rexOf any_x_rexOf hr rest
    simp only [List.append_assoc] at hread
    rw [hread]
    simp only [Option.bind_some, Rm.forces, Bool.or_false]

/-! ## instructions -/

def IsGpr (id : RegId) : Prop := 0 ≤ id ∧ id < 16

instance : DecidablePred IsGpr := fun id => inferInstanceAs (Decidable (0 ≤ id ∧ id < 16))

def Mem.Based (m : Mem) : Prop := ∃ id, m.base = some (.r64 id) ∧ IsGpr id

/-- the operands exist and have sizes the instruction takes -/
def Instr.Regular : Instr → Prop
  | .movSymbol dst name => IsGpr dst ∧ name ≠ ""
  | .movReg dst src => IsGpr dst.id ∧ IsGpr src.id ∧ dst.width = src.width ∧ src.width ≠ .none
  | .store dst src => dst.Based ∧ IsGpr src.id ∧ src.width ≠ .none
  | .load dst src => IsGpr dst.id ∧ src.Based ∧ dst.width.isWide = true
  | .loadZx dst src n => IsGpr dst.id ∧ src.Based ∧ (n = 1 ∨ n = 2)
  | .zx8 dst src => IsGpr dst.id ∧ IsGpr src.id
  | .zx16 dst src => IsGpr dst.id ∧ IsGpr src.id
  | .alu _ dst src => IsGpr dst.id ∧ IsGpr src.id ∧ dst.width = src.width ∧ src.width.isWide = true
  | .imul dst src => IsGpr dst.id ∧ IsGpr src.id ∧ dst.width = .w64 ∧ src.width = .w64
  | .aluImm _ dst _ => IsGpr dst.id ∧ dst.width.isWide = true
  | .lea dst src => IsGpr dst.id ∧ dst.width = .w64 ∧ src.Based
  | .setcc _ dst => IsGpr dst.id ∧ dst.width = .w8
  | .push reg => IsGpr reg
  | .pop reg => IsGpr reg
  | .call reg => IsGpr reg
  | .ret => True
  | .xload _ dst src => dst ≤ 15 ∧ src.Based
  | .xstore _ dst src => dst.Based ∧ src ≤ 15
  | .sse _ dst src => dst ≤ 15 ∧ src ≤ 15
  | .cmppd dst src predicate => dst ≤ 15 ∧ src ≤ 15 ∧ predicate ≤ 7
  | .movqToX dst src => dst ≤ 15 ∧ IsGpr src.id
  | .movqFromX dst src => IsGpr dst.id ∧ src ≤ 15
  | .movImm _ _ | .jump _ | .jumpIf _ _ | .align _ => False

def Instr.written : Instr → Instr
  | .movSymbol dst _ => .movImm (.r64 dst) 0
  | .loadZx dst src n => .loadZx (.r32 dst.id) src n
  | .zx8 dst src => .zx8 (.r32 dst.id) (.r8 src.id)
  | .zx16 dst src => .zx16 (.r32 dst.id) (.r16 src.id)
  | .setcc cond dst => .setcc (cond &&& 0x0F) dst
  | .movqToX dst src => .movqToX dst (.r64 src.id)
  | .movqFromX dst src => .movqFromX (.r64 dst.id) src
  | i => i

def Instr.symbol? : Instr → Option String
  | .movSymbol _ name => some name
  | _ => none

theorem Rm.ofReg_reads {r : Reg} (h : IsGpr r.id) :
    ∃ c : RegCode, c.Names r.id ∧ Rm.ofReg r = .ok (.reg c (r.width == .w8 && c.byteRex)) ∧
      (Rm.reg c (r.width == .w8 && c.byteRex)).Reads c.high (.reg c.high c.code) := by
  obtain ⟨c, hc, hn⟩ := RegCode.of_names h
  exact ⟨c, hn, by simp only [Rm.ofReg, hc, bind, Except.bind]; rfl, .reg _ hn.lt⟩

theorem Rm.ofX_reads {x : XReg} (h : x ≤ 15) :
    ∃ c : RegCode, xmm c.high c.code = x ∧ Rm.ofX x = .ok (.reg c false) ∧
      (Rm.reg c false).Reads c.high (.reg c.high c.code) := by
  obtain ⟨c, hc, hlt, hx⟩ := RegCode.ofX_names h
  exact ⟨c, hx, by simp only [Rm.ofX, hc, bind, Except.bind]; rfl, .reg _ hlt⟩

theorem Mem.Based.reads {m : Mem} (h : m.Based) : ∃ b, (Rm.mem m).Reads b (.mem m) := by
  obtain ⟨id, hm, hid⟩ := h
  obtain ⟨c, hc, hn⟩ := RegCode.of_names hid
  exact ⟨c.high, .mem hm hc hn⟩

section
variable {b esc : Bool} {op : UInt8} {opcode : List UInt8} {rm : Rm} {field : RmField}

theorem decodeOne_modRMReg (legacy : List UInt8) (w : Bool) {reg : Reg} (hreg : IsGpr reg.id)
    (hl : legacy.all isLegacy = true) (ho : IsOpcode opcode esc op)
    (hs : (!esc && isShortOp op) = false) (hrm : rm.Reads b field) :
    ∃ (c : RegCode) (bytes : List UInt8), c.Names reg.id ∧
      modRMReg legacy w opcode reg rm = .ok bytes ∧ ∀ rest,
      decodeOne (bytes ++ rest) =
        Head.form ⟨legacy, rexOf w c.high b ((reg.width == .w8 && c.byteRex) || rm.forces), esc, op⟩
          ⟨c.code, field⟩ rest := by
  obtain ⟨c, hc, hn⟩ := RegCode.of_names hreg
  obtain ⟨bytes, hb, hd⟩ :=
    decodeOne_modRM legacy w c (reg.width == .w8 && c.byteRex) hl ho hs hn.lt hrm
  exact ⟨c, bytes, hn, by simp only [modRMReg, hc, bind, Except.bind]; exact hb, hd⟩

theorem decodeOne_modRMX (legacy : List UInt8) (w : Bool) {x : XReg} (hx : x ≤ 15)
    (hl : legacy.all isLegacy = true) (ho : IsOpcode opcode esc op)
    (hs : (!esc && isShortOp op) = false) (hrm : rm.Reads b field) :
    ∃ (c : RegCode) (bytes : List UInt8), xmm c.high c.code = x ∧
      modRMX legacy w opcode x rm = .ok bytes ∧ ∀ rest,
      decodeOne (bytes ++ rest) =
        Head.form ⟨legacy, rexOf w c.high b rm.forces, esc, op⟩ ⟨c.code, field⟩ rest := by
  obtain ⟨c, hc, hlt, hx⟩ := RegCode.ofX_names hx
  obtain ⟨bytes, hb, hd⟩ := decodeOne_modRM legacy w c false hl ho hs hlt hrm
  refine ⟨c, bytes, hx, by simp only [modRMX, hc, bind, Except.bind]; exact hb, fun rest => ?_⟩
  rw [hd, Bool.false_or]

end

/-! ### operand sizes -/

section
variable {v : Width} {r b f esc : Bool} {op : UInt8}

theorem width_rexOf (w : Bool) :
    Head.width ⟨[], rexOf w r b f, esc, op⟩ = if w then .w64 else .w32 := by
  cases w <;> simp [Head.width, Head.w]

theorem width_of_isWide (hv : v.isWide = true) :
    Head.width ⟨[], rexOf (v == .w64) r b f, esc, op⟩ = v := by
  rw [width_rexOf]
  revert hv
  cases v <;> decide

/-- 16-bit operands also have a legacy byte -/
theorem width_of_ne_byte (h0 : v ≠ .none) (h8 : v ≠ .w8) :
    Head.width ⟨v.legacy, rexOf (v == .w64) r b f, esc, op⟩ = v := by
  cases v <;> first | contradiction | simp [Head.width, Head.w, Width.legacy]

theorem isGpr_legacy : Head.isGpr ⟨v.legacy, rexOf (v == .w64) r b f, esc, op⟩ = true := by
  cases v <;> rfl

theorem isLegacy_legacy (v : Width) : v.legacy.all isLegacy = true := by
  cases v <;> decide

/-- a byte register is read back where its number comes with REX or needs none -/
theorem byteReg_eq {h : Head} {c : RegCode} {id : RegId} (hn : c.Names id)
    (hx : c.byteRex = true → h.rex ≠ none) : h.byteReg c.high c.code = some (.r8 id) := by
  unfold Head.byteReg
  rw [hn.eq, if_neg]
  rintro ⟨hr, h4⟩
  cases hb : c.byteRex with
  | true => exact hx hb hr
  | false => exact absurd (hn.low hb) (UInt8.not_lt.mpr h4)

theorem rexOf_ne_none (hf : f = true) {w : Bool} : rexOf w r b f ≠ none := by
  rw [Ne, rexOf_eq_none, hf, Bool.or_true]
  exact Bool.noConfusion

end

/-! ### instructions -/

/-- an encoded instruction reads back, whatever stands behind it -/
def Instr.ReadsBack (i : Instr) : Prop :=
  ∃ c : Chunk, (∀ pos, i.encode pos = .ok c) ∧ c.branch = none ∧
    c.symbol = i.symbol?.map (fun name => (2, name, .abs64)) ∧
    ∀ rest, decodeOne (c.bytes ++ rest) = some (i.written, rest)

section
variable {i : Instr} {b esc : Bool} {op : UInt8} {opcode : List UInt8} {rm : Rm} {field : RmField}

theorem readsBack_modRMReg (legacy : List UInt8) (w : Bool) {reg : Reg} (hreg : IsGpr reg.id)
    (hl : legacy.all isLegacy = true) (ho : IsOpcode opcode esc op)
    (hs : (!esc && isShortOp op) = false) (hrm : rm.Reads b field) (hi : i.symbol? = none)
    (he : ∀ pos, i.encode pos = do return { bytes := ← modRMReg legacy w opcode reg rm })
    (hf : ∀ (c : RegCode) rest, c.Names reg.id →
      Head.form ⟨legacy, rexOf w c.high b ((reg.width == .w8 && c.byteRex) || rm.forces), esc, op⟩
        ⟨c.code, field⟩ rest = some (i.written, rest)) : i.ReadsBack := by
  obtain ⟨c, bytes, hn, hb, hdec⟩ := decodeOne_modRMReg legacy w hreg hl ho hs hrm
  refine ⟨{ bytes }, fun pos => ?_, rfl, by rw [hi]; rfl, fun rest => ?_⟩
  · rw [he pos, hb]
    rfl
  · rw [hdec, hf c rest hn]

theorem readsBack_modRMX (legacy : List UInt8) (w : Bool) {x : XReg} (hx : x ≤ 15)
    (hl : legacy.all isLegacy = true) (ho : IsOpcode opcode esc op)
    (hs : (!esc && isShortOp op) = false) (hrm : rm.Reads b field) (hi : i.symbol? = none)
    (he : ∀ pos, i.encode pos = do return { bytes := ← modRMX legacy w opcode x rm })
    (hf : ∀ (c : RegCode) rest, xmm c.high c.code = x →
      Head.form ⟨legacy, rexOf w c.high b rm.forces, esc, op⟩ ⟨c.code, field⟩ rest =
        some (i.written, rest)) : i.ReadsBack := by
  obtain ⟨c, bytes, hn, hb, hdec⟩ := decodeOne_modRMX legacy w hx hl ho hs hrm
  refine ⟨{ bytes }, fun pos => ?_, rfl, by rw [hi]; rfl, fun rest => ?_⟩
  · rw [he pos, hb]
    rfl
  · rw [hdec, hf c rest hn]

end

theorem form_alu (op : AluOp) (rex : Option Rex) (reg code : UInt8) (hi : Bool) (rest : List UInt8) :
    Head.form ⟨[], rex, false, op.opcode⟩ ⟨reg, .reg hi code⟩ rest =
      some (.alu op ⟨gpr hi code, Head.width ⟨[], rex, false, op.opcode⟩⟩
        ⟨gpr (Head.r ⟨[], rex, false, op.opcode⟩) reg, Head.width ⟨[], rex, false, op.opcode⟩⟩,
        rest) := by
  cases op <;> rfl

theorem form_sse (op : SseOp) (rex : Option Rex) (reg code : UInt8) (hi : Bool) (rest : List UInt8) :
    Head.form ⟨op.opcode.1, rex, true, op.opcode.2⟩ ⟨reg, .reg hi code⟩ rest =
      some (.sse op (xmm (Head.r ⟨op.opcode.1, rex, true, op.opcode.2⟩) reg) (xmm hi code), rest) := by
  have hset : op.opcode.2 &&& 0xF0 ≠ 0x90 := by cases op <;> decide
  rw [Head.form, if_pos rfl, Head.escapedForm, if_neg hset]
  cases op <;> rfl

theorem readsBack_store {dst : Mem} {src : Reg} (h : (Instr.store dst src).Regular) :
    (Instr.store dst src).ReadsBack := by
  obtain ⟨hd, hs, h0⟩ := h
  obtain ⟨b, hreads⟩ := hd.reads
  by_cases h8 : src.width = .w8
  · refine readsBack_modRMReg [] false hs (by decide) (.one 0x88 (by decide)) (by decide) hreads rfl
      (fun pos => by simp only [Instr.encode, h8]; rfl) (fun c rest hn => ?_)
    simp only [Head.form, Head.plainForm, Head.r, any_r_rexOf]
    rw [byteReg_eq hn]
    · cases src
      cases h8
      rfl
    · exact fun hb => rexOf_ne_none (by rw [h8, hb]; rfl)
  · refine readsBack_modRMReg src.width.legacy (src.width == .w64) hs (isLegacy_legacy _)
      (.one 0x89 (by decide)) (by decide) hreads rfl
      (fun pos => by simp only [Instr.encode, Width.movOpcode, if_neg h8]) (fun c rest hn => ?_)
    simp only [Head.form, Head.plainForm, isGpr_legacy, width_of_ne_byte h0 h8, Head.r, any_r_rexOf,
      hn.eq]
    rfl

theorem readsBack_movReg {dst src : Reg} (h : (Instr.movReg dst src).Regular) :
    (Instr.movReg dst src).ReadsBack := by
  obtain ⟨hd, hs, hw, h0⟩ := h
  obtain ⟨k, hk, hrm, hreads⟩ := Rm.ofReg_reads hd
  by_cases h8 : src.width = .w8
  · refine readsBack_modRMReg [] false hs (by decide) (.one 0x88 (by decide)) (by decide) hreads rfl
      (fun pos => ?_) (fun c rest hn => ?_)
    · rw [h8] at hw
      simp only [Instr.encode, sameWidth, h8, if_pos hw, hrm]
      rfl
    · simp only [Head.form, Head.plainForm, Head.r, any_r_rexOf]
      rw [byteReg_eq hn, byteReg_eq hk]
      · cases src
        cases dst
        cases h8
        cases hw
        rfl
      · exact fun hb => rexOf_ne_none (by rw [Rm.forces, hw, h8, hb, Bool.or_comm]; rfl)
      · exact fun hb => rexOf_ne_none (by rw [h8, hb]; rfl)
  · refine readsBack_modRMReg src.width.legacy (src.width == .w64) hs (isLegacy_legacy _)
      (.one 0x89 (by decide)) (by decide) hreads rfl (fun pos => ?_) (fun c rest hn => ?_)
    · simp only [Instr.encode, sameWidth, if_pos hw, hrm, Width.movOpcode, if_neg h8]
      rfl
    · simp only [Head.form, Head.plainForm, isGpr_legacy, width_of_ne_byte h0 h8, Head.r, any_r_rexOf,
        hn.eq, hk.eq]
      cases dst
      cases hw
      rfl

theorem readsBack_load {dst : Reg} {src : Mem} (h : (Instr.load dst src).Regular) :
    (Instr.load dst src).ReadsBack := by
  obtain ⟨hd, hs, hw⟩ := h
  obtain ⟨b, hreads⟩ := hs.reads
  refine readsBack_modRMReg [] (dst.width == .w64) hd (by decide) (.one 0x8B (by decide)) (by decide)
    hreads rfl (fun pos => by simp only [Instr.encode, hw]; rfl) (fun c rest hn => ?_)
  simp only [Head.form, Head.plainForm, width_of_isWide hw, Head.r, any_r_rexOf, hn.eq]
  rfl

theorem readsBack_lea {dst : Reg} {src : Mem} (h : (Instr.lea dst src).Regular) :
    (Instr.lea dst src).ReadsBack := by
  obtain ⟨hd, hw, hs⟩ := h
  obtain ⟨b, hreads⟩ := hs.reads
  refine readsBack_modRMReg [] true hd (by decide) (.one 0x8D (by decide)) (by decide)
    hreads rfl (fun pos => by simp only [Instr.encode, hw]; rfl) (fun c rest hn => ?_)
  simp only [Head.form, Head.plainForm, width_rexOf, Head.r, any_r_rexOf, hn.eq]
  cases dst
  cases hw
  rfl

theorem readsBack_loadZx {dst : Reg} {src : Mem} {n : Int} (h : (Instr.loadZx dst src n).Regular) :
    (Instr.loadZx dst src n).ReadsBack := by
  obtain ⟨hd, hs, hn⟩ := h
  obtain ⟨b, hreads⟩ := hs.reads
  have hd' : IsGpr (Reg.r32 dst.id).id := hd
  rcases hn with rfl | rfl
  · refine readsBack_modRMReg [] false hd' (by decide) (.two 0xB6) (by decide) hreads rfl
      (fun pos => rfl) (fun c rest hn => ?_)
    simp only [Head.form, Head.escapedForm, width_rexOf, Head.r, any_r_rexOf, hn.eq]
    rfl
  · refine readsBack_modRMReg [] false hd' (by decide) (.two 0xB7) (by decide) hreads rfl
      (fun pos => rfl) (fun c rest hn => ?_)
    simp only [Head.form, Head.escapedForm, width_rexOf, Head.r, any_r_rexOf, hn.eq]
    rfl

theorem readsBack_zx8 {dst src : Reg} (h : (Instr.zx8 dst src).Regular) :
    (Instr.zx8 dst src).ReadsBack := by
  obtain ⟨hd, hs⟩ := h
  have hd' : IsGpr (Reg.r32 dst.id).id := hd
  have hs' : IsGpr (Reg.r8 src.id).id := hs
  obtain ⟨k, hk, hrm, hreads⟩ := Rm.ofReg_reads hs'
  refine readsBack_modRMReg [] false hd' (by decide) (.two 0xB6) (by decide) hreads rfl
    (fun pos => by simp only [Instr.encode, hrm]; rfl) (fun c rest hn => ?_)
  simp only [Head.form, Head.escapedForm, width_rexOf, Head.r, any_r_rexOf, hn.eq]
  rw [byteReg_eq hk]
  · rfl
  · exact fun hb => rexOf_ne_none (by rw [Rm.forces, hb, Bool.or_comm]; rfl)

theorem readsBack_zx16 {dst src : Reg} (h : (Instr.zx16 dst src).Regular) :
    (Instr.zx16 dst src).ReadsBack := by
  obtain ⟨hd, hs⟩ := h
  have hd' : IsGpr (Reg.r32 dst.id).id := hd
  have hs' : IsGpr (Reg.r16 src.id).id := hs
  obtain ⟨k, hk, hrm, hreads⟩ := Rm.ofReg_reads hs'
  refine readsBack_modRMReg [] false hd' (by decide) (.two 0xB7) (by decide) hreads rfl
    (fun pos => by simp only [Instr.encode, hrm]; rfl) (fun c rest hn => ?_)
  simp only [Head.form, Head.escapedForm, width_rexOf, Head.r, any_r_rexOf, hn.eq, hk.eq]
  rfl

theorem readsBack_alu {op : AluOp} {dst src : Reg} (h : (Instr.alu op dst src).Regular) :
    (Instr.alu op dst src).ReadsBack := by
  obtain ⟨hd, hs, hw, hwide⟩ := h
  obtain ⟨k, hk, hrm, hreads⟩ := Rm.ofReg_reads hd
  rw [← hw] at hwide
  refine readsBack_modRMReg [] (dst.width == .w64) hs (by decide)
    (.one op.opcode (by cases op <;> decide)) (by cases op <;> decide) hreads rfl
    (fun pos => ?_) (fun c rest hn => ?_)
  · simp only [Instr.encode, sameWidth, if_pos hw, hrm, hwide]
    rfl
  · rw [form_alu, width_of_isWide hwide, Head.r, any_r_rexOf, hn.eq, hk.eq, hw]
    cases dst
    cases hw
    rfl

theorem readsBack_imul {dst src : Reg} (h : (Instr.imul dst src).Regular) :
    (Instr.imul dst src).ReadsBack := by
  obtain ⟨hd, hs, hwd, hws⟩ := h
  obtain ⟨k, hk, hrm, hreads⟩ := Rm.ofReg_reads hs
  refine readsBack_modRMReg [] true hd (by decide) (.two 0xAF) (by decide) hreads rfl
    (fun pos => ?_) (fun c rest hn => ?_)
  · simp only [Instr.encode, sameWidth, hwd, hws, hrm]
    rfl
  · simp only [Head.form, Head.escapedForm, width_rexOf, Head.r, any_r_rexOf, hn.eq, hk.eq]
    cases dst
    cases src
    cases hwd
    cases hws
    rfl

theorem readsBack_xload {form : XForm} {dst : XReg} {src : Mem}
    (h : (Instr.xload form dst src).Regular) : (Instr.xload form dst src).ReadsBack := by
  obtain ⟨hd, hs⟩ := h
  obtain ⟨b, hreads⟩ := hs.reads
  refine readsBack_modRMX form.legacy false hd (by cases form <;> decide) (.two 0x10) (by decide)
    hreads rfl (fun pos => rfl) (fun c rest hn => ?_)
  simp only [Head.form, Head.escapedForm, Head.r, any_r_rexOf, hn]
  cases form <;> rfl

theorem readsBack_xstore {form : XForm} {dst : Mem} {src : XReg}
    (h : (Instr.xstore form dst src).Regular) : (Instr.xstore form dst src).ReadsBack := by
  obtain ⟨hd, hs⟩ := h
  obtain ⟨b, hreads⟩ := hd.reads
  refine readsBack_modRMX form.legacy false hs (by cases form <;> decide) (.two 0x11) (by decide)
    hreads rfl (fun pos => rfl) (fun c rest hn => ?_)
  simp only [Head.form, Head.escapedForm, Head.r, any_r_rexOf, hn]
  cases form <;> rfl

theorem readsBack_sse {op : SseOp} {dst src : XReg} (h : (Instr.sse op dst src).Regular) :
    (Instr.sse op dst src).ReadsBack := by
  obtain ⟨hd, hs⟩ := h
  obtain ⟨k, hk, hrm, hreads⟩ := Rm.ofX_reads hs
  refine readsBack_modRMX op.opcode.1 false hd (by cases op <;> decide) (.two op.opcode.2) rfl
    hreads rfl (fun pos => by simp only [Instr.encode, hrm]; rfl) (fun c rest hn => ?_)
  rw [form_sse, Head.r, any_r_rexOf, hn, hk]
  rfl

theorem readsBack_movqToX {dst : XReg} {src : Reg} (h : (Instr.movqToX dst src).Regular) :
    (Instr.movqToX dst src).ReadsBack := by
  obtain ⟨hd, hs⟩ := h
  have hs' : IsGpr (Reg.r64 src.id).id := hs
  obtain ⟨k, hk, hrm, hreads⟩ := Rm.ofReg_reads hs'
  refine readsBack_modRMX [0x66] true hd (by decide) (.two 0x6E) (by decide)
    hreads rfl (fun pos => by simp only [Instr.encode, hrm]; rfl) (fun c rest hn => ?_)
  simp only [Head.form, Head.escapedForm, Head.r, Head.w, any_w_rexOf, any_r_rexOf, hn, hk.eq]
  rfl

theorem readsBack_movqFromX {dst : Reg} {src : XReg} (h : (Instr.movqFromX dst src).Regular) :
    (Instr.movqFromX dst src).ReadsBack := by
  obtain ⟨hd, hs⟩ := h
  have hd' : IsGpr (Reg.r64 dst.id).id := hd
  obtain ⟨k, hk, hrm, hreads⟩ := Rm.ofReg_reads hd'
  refine readsBack_modRMX [0x66] true hs (by decide) (.two 0x7E) (by decide)
    hreads rfl (fun pos => by simp only [Instr.encode, hrm]; rfl) (fun c rest hn => ?_)
  simp only [Head.form, Head.escapedForm, Head.r, Head.w, any_w_rexOf, any_r_rexOf, hn, hk.eq]
  rfl

theorem readsBack_cmppd {dst src : XReg} {predicate : UInt8}
    (h : (Instr.cmppd dst src predicate).Regular) : (Instr.cmppd dst src predicate).ReadsBack := by
  obtain ⟨hd, hs, hp⟩ := h
  obtain ⟨k, hk, hrm, hreads⟩ := Rm.ofX_reads hs
  obtain ⟨c, bytes, hn, he, hdec⟩ := decodeOne_modRMX [0x66] false hd (by decide) (.two 0xC2)
    (by decide) hreads
  refine ⟨{ bytes := bytes ++ [predicate] }, fun pos => ?_, rfl, rfl, fun rest => ?_⟩
  · simp only [Instr.encode, if_neg (UInt8.not_lt.mpr hp), hrm, bind, Except.bind, pure, Except.pure, he]
  · rw [List.append_assoc, hdec]
    simp only [Head.form, Head.escapedForm, Head.r, any_r_rexOf, hn, hk]
    rfl

theorem setcc_fields (cond : Cond) :
    (0x90 ||| (cond &&& 0xF)) &&& 0xF0 = 0x90 ∧ (0x90 ||| (cond &&& 0xF)) &&& 0xF = cond &&& 0xF := by
  have key : ∀ n : Fin 16, (0x90 ||| UInt8.ofNat n) &&& 0xF0 = 0x90 ∧
      (0x90 ||| UInt8.ofNat n) &&& 0xF = UInt8.ofNat n := by decide
  have hlt : (cond &&& 0xF).toNat < 16 := by
    rw [UInt8.toNat_and]
    exact Nat.lt_succ_of_le Nat.and_le_right
  have := key ⟨(cond &&& 0xF).toNat, hlt⟩
  simpa only [UInt8.ofNat_toNat] using this

theorem readsBack_setcc {cond : Cond} {dst : Reg} (h : (Instr.setcc cond dst).Regular) :
    (Instr.setcc cond dst).ReadsBack := by
  obtain ⟨hd, hw⟩ := h
  obtain ⟨k, hk, hrm, hreads⟩ := Rm.ofReg_reads hd
  obtain ⟨bytes, he, hdec⟩ := decodeOne_modRM [] false ⟨0, false, false⟩ false (by decide)
    (.two (0x90 ||| (cond &&& 0xF))) rfl (by decide) hreads
  refine ⟨{ bytes }, fun pos => ?_, rfl, rfl, fun rest => ?_⟩
  · simp only [Instr.encode, hrm, bind, Except.bind, he]
    rw [hw]
    rfl
  · obtain ⟨hset, hcond⟩ := setcc_fields cond
    rw [hdec, Head.form, if_pos rfl, Head.escapedForm, if_pos hset]
    simp only [hcond]
    rw [byteReg_eq hk]
    · cases dst
      cases hw
      rfl
    · exact fun hb => rexOf_ne_none (by rw [Rm.forces, hw, hb]; rfl)

theorem readsBack_aluImm {op : AluImmOp} {dst : Reg} {imm : Int32}
    (h : (Instr.aluImm op dst imm).Regular) : (Instr.aluImm op dst imm).ReadsBack := by
  obtain ⟨hd, hw⟩ := h
  obtain ⟨k, hk, hrm, hreads⟩ := Rm.ofReg_reads hd
  have hdigit : op.digit < 8 := by cases op <;> decide
  by_cases hsmall : -128 ≤ imm ∧ imm ≤ 127
  · obtain ⟨bytes, he, hdec⟩ := decodeOne_modRM [] (dst.width == .w64) ⟨op.digit, false, false⟩ false
      (by decide) (.one 0x83 (by decide)) (by decide) hdigit hreads
    refine ⟨{ bytes := bytes ++ littleEndian 1 imm.toUInt32.toNat }, fun pos => ?_, rfl, rfl,
      fun rest => ?_⟩
    · simp only [Instr.encode, hrm, hw, decide_eq_true hsmall, bind, Except.bind]
      simp only [if_true, he]
      rfl
    · rw [List.append_assoc, hdec]
      simp only [Head.form, Head.plainForm, width_of_isWide hw, hk.eq, readInt8_littleEndian hsmall]
      cases op <;> rfl
  · obtain ⟨bytes, he, hdec⟩ := decodeOne_modRM [] (dst.width == .w64) ⟨op.digit, false, false⟩ false
      (by decide) (.one 0x81 (by decide)) (by decide) hdigit hreads
    refine ⟨{ bytes := bytes ++ littleEndian 4 imm.toUInt32.toNat }, fun pos => ?_, rfl, rfl,
      fun rest => ?_⟩
    · simp only [Instr.encode, hrm, hw, decide_eq_false hsmall, bind, Except.bind]
      simp only [Bool.false_eq_true, if_false, he]
      rfl
    · rw [List.append_assoc, hdec]
      simp only [Head.form, Head.plainForm, width_of_isWide hw, hk.eq, readInt32_littleEndian]
      cases op <;> rfl

/-! ### forms with the register in the opcode -/

theorem short_fields (base : UInt8) {code : UInt8} (hb : base ∈ [0x50, 0x58, 0xB8]) (hc : code < 8) :
    isLegacy (base ||| code) = false ∧ (base ||| code) &&& 0xF0 ≠ 0x40 ∧ base ||| code ≠ 0x0F ∧
      isShortOp (base ||| code) = true ∧ base ||| code ≠ 0xC3 ∧
      (base ||| code) &&& 0xF8 = base ∧ (base ||| code) &&& 7 = code ∧
      0xB8 + code = 0xB8 ||| code := by
  have key : ∀ n : Fin 8, [0x50, 0x58, 0xB8].all fun base : UInt8 =>
      isLegacy (base ||| UInt8.ofNat n) = false ∧ (base ||| UInt8.ofNat n) &&& 0xF0 ≠ 0x40 ∧
      base ||| UInt8.ofNat n ≠ 0x0F ∧ isShortOp (base ||| UInt8.ofNat n) = true ∧
      base ||| UInt8.ofNat n ≠ 0xC3 ∧ (base ||| UInt8.ofNat n) &&& 0xF8 = base ∧
      (base ||| UInt8.ofNat n) &&& 7 = UInt8.ofNat n ∧
      0xB8 + UInt8.ofNat n = 0xB8 ||| UInt8.ofNat n := by decide
  have hall := key ⟨code.toNat, UInt8.lt_iff_toNat_lt.mp hc⟩
  have hbase := of_decide_eq_true (List.all_eq_true.mp hall base hb)
  simpa only [UInt8.ofNat_toNat] using hbase

theorem decodeOne_short {base code : UInt8} (hb : base ∈ [0x50, 0x58, 0xB8]) (hc : code < 8)
    (w b : Bool) (rest : List UInt8) :
    decodeOne (rexBytes w false b false ++ [base ||| code] ++ rest) =
      Head.shortForm ⟨[], rexOf w false b false, false, base ||| code⟩ rest := by
  obtain ⟨h1, h2, h3, h4, -⟩ := short_fields base hb hc
  have hhead := readHead_append (w := w) (r := false) (b := b) (f := false)
    (rfl : List.all [] isLegacy = true) (.one (base ||| code) ⟨h1, h2, h3⟩) rest
  rw [List.nil_append] at hhead
  rw [decodeOne, hhead]
  simp only [Option.bind_eq_bind, Option.bind_some, Head.isShort, Bool.not_false, h4, Bool.and_true,
    if_true]

theorem readsBack_push {reg : RegId} (h : (Instr.push reg).Regular) : (Instr.push reg).ReadsBack := by
  obtain ⟨c, hc, hn⟩ := RegCode.of_names h
  obtain ⟨-, -, -, -, hret, hop, hcode, -⟩ := short_fields 0x50 (by decide) hn.lt
  refine ⟨{ bytes := rexBytes false false c.high false ++ [0x50 ||| c.code] }, fun pos => ?_, rfl, rfl,
    fun rest => ?_⟩
  · simp only [Instr.encode, shortForm, hc, bind, Except.bind, pure, Except.pure, List.append_nil]
  · rw [decodeOne_short (by decide) hn.lt]
    simp only [Head.shortForm, ne_eq, not_true, if_false, if_neg hret, hop, hcode, if_true, Head.b,
      any_b_rexOf, hn.eq]
    rfl

theorem readsBack_pop {reg : RegId} (h : (Instr.pop reg).Regular) : (Instr.pop reg).ReadsBack := by
  obtain ⟨c, hc, hn⟩ := RegCode.of_names h
  obtain ⟨-, -, -, -, hret, hop, hcode, -⟩ := short_fields 0x58 (by decide) hn.lt
  have hne : (0x58 : UInt8) ≠ 0x50 := by decide
  refine ⟨{ bytes := rexBytes false false c.high false ++ [0x58 ||| c.code] }, fun pos => ?_, rfl, rfl,
    fun rest => ?_⟩
  · simp only [Instr.encode, shortForm, hc, bind, Except.bind, pure, Except.pure, List.append_nil]
  · rw [decodeOne_short (by decide) hn.lt]
    simp only [Head.shortForm, ne_eq, not_true, if_false, if_neg hret, hop, hcode, if_neg hne, if_true,
      Head.b, any_b_rexOf, hn.eq]
    rfl

theorem decodeOne_mov {c : RegCode} {id : RegId} (hn : c.Names id) (w : Bool) (n : Nat)
    (rest : List UInt8) :
    decodeOne (rexBytes w false c.high false ++ [0xB8 + c.code] ++
        littleEndian (if w then 8 else 4) n ++ rest) =
      some (.movImm ⟨id, if w then .w64 else .w32⟩
        (UInt64.ofNat (n % 256 ^ if w then 8 else 4)).toInt64, rest) := by
  obtain ⟨-, -, -, -, hret, hop, hcode, hadd⟩ := short_fields 0xB8 (by decide) hn.lt
  have h50 : (0xB8 : UInt8) ≠ 0x50 := by decide
  have h58 : (0xB8 : UInt8) ≠ 0x58 := by decide
  rw [hadd, List.append_assoc, decodeOne_short (by decide) hn.lt]
  simp only [Head.shortForm, ne_eq, not_true, if_false, if_neg hret, hop, hcode, if_neg h50,
    if_neg h58, Head.w, Head.b, any_w_rexOf, any_b_rexOf, hn.eq, width_rexOf,
    readNumber_littleEndian, Option.map_some]

/-- the address of a symbol is still zero -/
theorem readsBack_movSymbol {dst : RegId} {name : String} (h : (Instr.movSymbol dst name).Regular) :
    (Instr.movSymbol dst name).ReadsBack := by
  obtain ⟨hd, hname⟩ := h
  obtain ⟨c, hc, hn⟩ := RegCode.of_names hd
  refine ⟨⟨rexBytes true false c.high false ++ [0xB8 + c.code] ++ littleEndian 8 0, none,
    some (2, name, .abs64)⟩, fun pos => ?_, rfl, rfl, fun rest => ?_⟩
  · simp only [Instr.encode, hc, if_neg hname, bind, Except.bind]
    rfl
  · exact decodeOne_mov hn true 0 rest

theorem readsBack_ret : Instr.ret.ReadsBack :=
  ⟨{ bytes := [0xC3] }, fun _ => rfl, rfl, rfl, fun _ => rfl⟩

/-- a call through a register has a ModRM byte, with the digit 2 -/
theorem readsBack_call {reg : RegId} (h : (Instr.call reg).Regular) : (Instr.call reg).ReadsBack := by
  obtain ⟨c, hc, hn⟩ := RegCode.of_names h
  obtain ⟨bytes, he, hdec⟩ := decodeOne_modRM [] false ⟨2, false, false⟩ false (by decide)
    (.one 0xFF (by decide)) (by decide) (by decide) (.reg (c := c) false hn.lt)
  have hbytes : rexBytes false false c.high false ++ [0xFF] ++ [0xD0 ||| c.code] = bytes :=
    Except.ok.inj he
  refine ⟨{ bytes }, fun pos => ?_, rfl, rfl, fun rest => ?_⟩
  · rw [← hbytes]
    simp only [Instr.encode, shortForm, hc, bind, Except.bind, pure, Except.pure]
  · rw [hdec]
    simp only [Head.form, Head.plainForm, hn.eq]
    rfl

/-- **Every regular instruction reads back.** -/
theorem Instr.Regular.readsBack {i : Instr} (h : i.Regular) : i.ReadsBack := by
  cases i with
  | movSymbol dst name => exact readsBack_movSymbol h
  | movReg dst src => exact readsBack_movReg h
  | store dst src => exact readsBack_store h
  | load dst src => exact readsBack_load h
  | loadZx dst src n => exact readsBack_loadZx h
  | zx8 dst src => exact readsBack_zx8 h
  | zx16 dst src => exact readsBack_zx16 h
  | alu op dst src => exact readsBack_alu h
  | imul dst src => exact readsBack_imul h
  | aluImm op dst imm => exact readsBack_aluImm h
  | lea dst src => exact readsBack_lea h
  | setcc cond dst => exact readsBack_setcc h
  | push reg => exact readsBack_push h
  | pop reg => exact readsBack_pop h
  | ret => exact readsBack_ret
  | call reg => exact readsBack_call h
  | xload form dst src => exact readsBack_xload h
  | xstore form dst src => exact readsBack_xstore h
  | sse op dst src => exact readsBack_sse h
  | cmppd dst src p => exact readsBack_cmppd h
  | movqToX dst src => exact readsBack_movqToX h
  | movqFromX dst src => exact readsBack_movqFromX h
  | movImm dst value => exact h.elim
  | jump l => exact h.elim
  | jumpIf cond l => exact h.elim
  | align n => exact h.elim

/-! ## listings -/

theorem decodeOne_nil : decodeOne [] = none := rfl

theorem decodeUpTo_cons {bs rest : List UInt8} {i : Instr} (h : decodeOne (bs ++ rest) = some (i, rest))
    (n pos : Nat) : decodeUpTo (n + 1) pos (bs ++ rest) =
      (decodeUpTo n (pos + bs.length) rest).map ((pos, i) :: ·) := by
  have hlen : (bs ++ rest).length - rest.length = bs.length := by simp
  cases e : bs ++ rest with
  | nil =>
    rw [e, decodeOne_nil] at h
    cases h
  | cons b bs' =>
    rw [e] at h hlen
    simp only [decodeUpTo, h, hlen, Option.bind_eq_bind, Option.bind_some]
    cases decodeUpTo n (pos + bs.length) rest <;> rfl

/-- the reference an instruction at an offset makes: its address stands behind two bytes -/
def Instr.ref? (i : Instr) (pos : Nat) : Option SymbolRef :=
  i.symbol?.map fun name => ⟨Int64.ofNat (pos + 2), name, .abs64⟩

theorem layout_regular {is : List Instr} (h : ∀ i ∈ is, i.Regular) (pos : Nat) (labels : Labels) :
    ∃ (placed : List (Nat × Instr)) (cs : List (Nat × Chunk)) (code : List UInt8),
      placed.map Prod.snd = is ∧
      layout (AnyInstr.encode .x64) .label pos labels (is.map fun i => .instr (.x64 i)) =
        .ok (cs, labels) ∧
      (∀ ls, closeAll ls cs = .ok code) ∧
      (∀ n, is.length ≤ n →
        decodeUpTo n pos code = some (placed.map fun x => (x.1, x.2.written))) ∧
      is.length ≤ code.length ∧
      (cs.filterMap fun x => x.2.ref x.1) = placed.filterMap fun x => x.2.ref? x.1 := by
  induction is generalizing pos with
  | nil => exact ⟨[], [], [], rfl, rfl, fun _ => rfl, fun n _ => by cases n <;> rfl, le_rfl, rfl⟩
  | cons i is ih =>
    obtain ⟨c, henc, hbr, hsym, hdec⟩ := (h i List.mem_cons_self).readsBack
    obtain ⟨placed, cs, code, hp, hl, hcl, hd, hlen, href⟩ :=
      ih (fun j hj => h j (List.mem_cons_of_mem i hj)) (pos + c.bytes.length)
    have hany : AnyInstr.encode .x64 pos (.x64 i) = .ok c := by
      rw [AnyInstr.encode, if_neg (fun hn => hn.1 rfl), henc pos]
      rfl
    have hpos : 0 < c.bytes.length := by
      rw [List.length_pos_iff]
      intro he
      have := hdec []
      rw [he, List.nil_append, decodeOne_nil] at this
      cases this
    refine ⟨(pos, i) :: placed, (pos, c) :: cs, c.bytes ++ code, by rw [List.map_cons, hp], ?_, ?_, ?_,
      ?_, ?_⟩
    · simp only [List.map_cons, layout, hany, hl]
    · intro ls
      simp only [closeAll, Chunk.close, hbr, hcl]
    · intro n hn
      obtain ⟨n, rfl⟩ : ∃ k, n = k + 1 := ⟨n - 1, by simp only [List.length_cons] at hn; omega⟩
      rw [decodeUpTo_cons (hdec code), hd n (by simpa using hn)]
      rfl
    · rw [List.length_cons, List.length_append]
      omega
    · have hr : c.ref pos = i.ref? pos := by
        rw [Chunk.ref, hsym, Instr.ref?, Option.map_map]
        rfl
      rw [List.filterMap_cons, List.filterMap_cons, hr, href]

end TreeJit.X64

namespace TreeJit

open X64

/-- **Code reads back as the instructions that were asked for.**  Any tree of groups of regular
instructions is assembled, and a decoder that knows nothing of the encoder finds in the code the
instructions in order, one behind the other with no byte left: with their sizes, registers, bases,
displacements and immediates.  Where the address of a symbol is loaded, the reference to the symbol
stands at the immediate. -/
theorem Listing.decodeAll_assemble (l : Listing) (is : List Instr)
    (hl : l.lines = is.map fun i => .instr (.x64 i)) (hr : ∀ i ∈ is, i.Regular) :
    ∃ (p : Program) (placed : List (Nat × Instr)), l.assemble .x64 = .ok p ∧
      placed.map Prod.snd = is ∧
      decodeAll p.code = some (placed.map fun x => (x.1, x.2.written)) ∧
      p.refs = placed.filterMap fun x => x.2.ref? x.1 := by
  obtain ⟨placed, cs, code, hp, hlay, hcl, hd, hlen, href⟩ := layout_regular hr 0 []
  refine ⟨⟨code, cs.filterMap fun x => x.2.ref x.1⟩, placed, ?_, hp, hd _ hlen, href⟩
  rw [Listing.assemble, TreeJit.assemble, assembleLines, hl, hlay]
  simp only [hcl]

/-- operands from the corners of the format: bases with a SIB byte or a forced displacement, byte
registers with a bare REX, both prefixes at once -/
def corners : List Instr :=
  [.store (.at rsp 0) (.r8 rsi), .load (.r64 rbp) (.at 13 0), .loadZx (.r64 r9) (.at 12 (-129)) 2,
    .setcc condNP (.r8 rdi), .aluImm .sub (.r64 rsp) 128, .movqToX 9 (.r64 r11), .xload .ss 8 (.at rbp 127),
    .movSymbol r11 "scan", .call r11]

theorem Listing.decodeAll_assemble_corners : ∃ (p : Program) (placed : List (Nat × Instr)),
    (Listing.group (corners.map fun i => .instr (.x64 i))).assemble .x64 = .ok p ∧
      placed.map Prod.snd = corners ∧
      decodeAll p.code = some (placed.map fun x => (x.1, x.2.written)) ∧
      p.refs = placed.filterMap fun x => x.2.ref? x.1 := by
  refine Listing.decodeAll_assemble _ corners rfl ?_
  intro i hi
  simp only [corners, List.mem_cons, List.not_mem_nil, or_false] at hi
  rcases hi with rfl | rfl | rfl | rfl | rfl | rfl | rfl | rfl | rfl
  · exact ⟨⟨rsp, rfl, by decide⟩, by decide, by decide⟩
  · exact ⟨by decide, ⟨13, rfl, by decide⟩, rfl⟩
  · exact ⟨by decide, ⟨12, rfl, by decide⟩, .inr rfl⟩
  · exact ⟨by decide, rfl⟩
  · exact ⟨by decide, rfl⟩
  · exact ⟨by decide, by decide⟩
  · exact ⟨by decide, ⟨rbp, rfl, by decide⟩⟩
  · exact ⟨by decide, by decide⟩
  · exact (by decide : IsGpr r11)

end TreeJit
