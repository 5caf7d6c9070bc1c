import TreeJit.Compile.Backend
import TreeJit.Proofs.Compile.Blocks
import TreeJit.Proofs.SSA.Passing
import TreeJit.Proofs.X64.RoundTrip

/-!
# Every legal function compiles for x86-64

What the builder lets through is enough for the lowering: there is an operation for every operation
and type that a typed instruction has, every instruction it is lowered to has an encoding, and every
label that is named is marked once.  What is left is the number of registers of the calling
convention (`compile_x64_ok_iff`).

* `Instr.Plain`             an instruction with an encoding, without labels and symbols; everything
                            but branches and calls is lowered to such;
* `lowerStep_cases`         the lines of a typed step, or the one reason why there are none;
* `lower_cases`             the same of a function.
-/

namespace TreeJit.X64

def Instr.Taken (i : Instr) : Prop := ∀ pos, ∃ c, i.encode pos = .ok c

def Instr.Plain (i : Instr) : Prop := i.Taken ∧ i.label? = none ∧ i.symbol? = none

theorem Instr.Regular.taken {i : Instr} (h : i.Regular) : i.Taken := by
  obtain ⟨c, hc, -⟩ := h.readsBack
  exact fun pos => ⟨c, hc pos⟩

def codeSize (lines : List (Line Instr)) : Nat := stopOf Instr.encode 0 lines

theorem taken_movImm {r : RegId} (h : IsGpr r) (v : Int64) : (Instr.movImm (.r64 r) v).Taken := by
  intro pos
  obtain ⟨c, hc, -⟩ := RegCode.of_names h
  simp only [Instr.encode, movImmBytes, Reg.r64, hc, bind, Except.bind]
  split_ifs <;> exact ⟨_, rfl⟩

theorem taken_jump (l : String) : (Instr.jump l).Taken := fun _ => ⟨_, rfl⟩

theorem taken_jumpIf (cond : Cond) (l : String) : (Instr.jumpIf cond l).Taken := fun _ => ⟨_, rfl⟩

theorem taken_align : (Instr.align Compile.loopBoundary).Taken := fun _ => ⟨_, rfl⟩

theorem Instr.encode_symbol {pos : Nat} {i : Instr} {c : Chunk} (h : i.encode pos = .ok c) :
    (c.symbol.map fun x => x.2.1) = i.symbol? := by
  cases i with
  | jump | jumpIf =>
    cases h
    rfl
  | _ =>
    simp only [Instr.encode, bind, Except.bind, pure, Except.pure] at h
    repeat' split at h
    all_goals
      cases h
      try rfl

theorem Instr.encode_label {pos : Nat} {i : Instr} {c : Chunk} (h : i.encode pos = .ok c) :
    c.branch.map Branch.label = i.label? := by
  rw [Instr.encode_branch h, Option.map_map]
  cases i.label? <;> rfl

theorem Mem.based_at {r : RegId} (h : IsGpr r) (disp : Int32) : (Mem.at r disp).Based :=
  ⟨r, rfl, h⟩

end TreeJit.X64

namespace TreeJit.Compile.X64

open SSA TreeJit.X64

theorem isGpr_rax : IsGpr rax := by decide
theorem isGpr_rcx : IsGpr rcx := by decide
theorem isGpr_rsp : IsGpr rsp := by decide
theorem isGpr_rbp : IsGpr rbp := by decide
theorem isGpr_callTarget : IsGpr callTarget := by decide

theorem based_onStack (off : Int32) : (onStack off).Based := Mem.based_at isGpr_rsp off

/-! ## single instructions -/

abbrev PlainCode (is : List Instr) : Prop :=
  Compile.PlainCode Instr.label? Instr.symbol? Instr.Taken is

section
variable {r s : RegId} {m : Mem} {x y : XReg}

theorem plain_of_regular {i : Instr} (h : i.Regular) (hl : i.label? = none) (hs : i.symbol? = none) :
    i.Plain := ⟨h.taken, hl, hs⟩

theorem plain_load {w : Width} (hr : IsGpr r) (hm : m.Based) (hw : w.isWide = true) :
    (Instr.load ⟨r, w⟩ m).Plain := plain_of_regular ⟨hr, hm, hw⟩ rfl rfl

theorem plain_store {w : Width} (hr : IsGpr r) (hm : m.Based) (hw : w ≠ .none) :
    (Instr.store m ⟨r, w⟩).Plain := plain_of_regular ⟨hm, hr, hw⟩ rfl rfl

theorem plain_xload {t : XForm} (hx : x ≤ 15) (hm : m.Based) : (Instr.xload t x m).Plain :=
  plain_of_regular ⟨hx, hm⟩ rfl rfl

theorem plain_xstore {t : XForm} (hx : x ≤ 15) (hm : m.Based) : (Instr.xstore t m x).Plain :=
  plain_of_regular ⟨hm, hx⟩ rfl rfl

theorem plain_movImm (hr : IsGpr r) (v : Int64) : (Instr.movImm (.r64 r) v).Plain :=
  ⟨taken_movImm hr v, rfl, rfl⟩

theorem plain_zx8 (hr : IsGpr r) : (Instr.zx8 (.r64 r) (.r64 r)).Plain :=
  plain_of_regular ⟨hr, hr⟩ rfl rfl

theorem plain_zx16 (hr : IsGpr r) : (Instr.zx16 (.r64 r) (.r64 r)).Plain :=
  plain_of_regular ⟨hr, hr⟩ rfl rfl

theorem plain_movReg {w : Width} (hr : IsGpr r) (hs : IsGpr s) (hw : w ≠ .none) :
    (Instr.movReg ⟨r, w⟩ ⟨s, w⟩).Plain :=
  plain_of_regular ⟨hr, hs, rfl, hw⟩ rfl rfl

theorem plain_normalize (hr : IsGpr r) (t : Ty) : PlainCode (normalize r t) := by
  intro i hi
  cases t with
  | i8 =>
    rw [List.mem_singleton.mp hi]
    exact plain_zx8 hr
  | i16 =>
    rw [List.mem_singleton.mp hi]
    exact plain_zx16 hr
  | i32 =>
    rw [List.mem_singleton.mp hi]
    exact plain_movReg hr hr nofun
  | _ => cases hi

variable (c : Ctx)

theorem plain_loadInt (hr : IsGpr r) (v : ValueNo) : (c.loadInt r v).Plain :=
  plain_load hr (based_onStack _) rfl

theorem plain_storeInt (hr : IsGpr r) (v : ValueNo) : (c.storeInt v r).Plain :=
  plain_store hr (based_onStack _) nofun

theorem plain_loadFloat (t : Ty) (hx : x ≤ 15) (v : ValueNo) : (c.loadFloat t x v).Plain :=
  plain_xload hx (based_onStack _)

theorem plain_storeFloat (t : Ty) (hx : x ≤ 15) (v : ValueNo) : (c.storeFloat t v x).Plain :=
  plain_xstore hx (based_onStack _)

theorem plain_alu {op : AluOp} {w : Width} (hr : IsGpr r) (hs : IsGpr s) (hw : w.isWide = true) :
    (Instr.alu op ⟨r, w⟩ ⟨s, w⟩).Plain := plain_of_regular ⟨hr, hs, rfl, hw⟩ rfl rfl

theorem plain_imul (hr : IsGpr r) (hs : IsGpr s) : (Instr.imul (.r64 r) (.r64 s)).Plain :=
  plain_of_regular ⟨hr, hs, rfl, rfl⟩ rfl rfl

theorem plain_sse {op : SseOp} (hx : x ≤ 15) (hy : y ≤ 15) : (Instr.sse op x y).Plain :=
  plain_of_regular ⟨hx, hy⟩ rfl rfl

theorem plain_setcc (cond : Cond) (hr : IsGpr r) : (Instr.setcc cond (.r8 r)).Plain :=
  plain_of_regular ⟨hr, rfl⟩ rfl rfl

end

/-! ## values, memory and operations -/

section
variable (c : Ctx)

theorem plain_copy (t : Ty) (dst src : Int32) : PlainCode (copy t (onStack dst) (onStack src)) := by
  unfold copy
  split
  · exact .cons (plain_xload (by decide) (based_onStack _))
      (.cons (plain_xstore (by decide) (based_onStack _)) .nil)
  · exact .cons (plain_load isGpr_rax (based_onStack _) rfl)
      (.cons (plain_store isGpr_rax (based_onStack _) nofun) .nil)

/-- a register list whose members exist, also when it is too short -/
theorem isGpr_getD {ints : List RegId} (h : ∀ r ∈ ints, IsGpr r) (n : Nat) :
    IsGpr (ints.getD n rax) := by
  rw [List.getD_eq_getElem?_getD]
  cases e : ints[n]? with
  | none => exact isGpr_rax
  | some r => exact h r (List.mem_of_getElem? e)

theorem xreg_le {n : Nat} (h : n < 8) : UInt8.ofNat n ≤ 15 := by
  have : (UInt8.ofNat n).toNat = n := by
    rw [UInt8.toNat_ofNat']
    exact Nat.mod_eq_of_lt (by omega)
  rw [UInt8.le_iff_toNat_le, this]
  show n ≤ 15
  omega

theorem plain_spill {ints : List RegId} (h : ∀ r ∈ ints, IsGpr r) (v : ValueNo) {loc : RegLoc}
    (hl : loc.index < 8) : PlainCode (c.spill ints v loc) := by
  unfold Ctx.spill
  cases loc.file with
  | int =>
    have hr := isGpr_getD h loc.index
    exact .append (plain_normalize hr _) (.cons (plain_storeInt c hr v) .nil)
  | float => exact .cons (plain_storeFloat c _ (xreg_le hl) v) .nil

theorem plain_unspill {ints : List RegId} (h : ∀ r ∈ ints, IsGpr r) (t : Ty) (v : ValueNo)
    {loc : RegLoc} (hl : loc.index < 8) : (c.unspill ints t v loc).Plain := by
  unfold Ctx.unspill
  cases loc.file with
  | int => exact plain_loadInt c (isGpr_getD h loc.index) v
  | float => exact plain_loadFloat c t (xreg_le hl) v

theorem plain_loadZx {m : Mem} (hm : m.Based) {n : Int} (hn : n = 1 ∨ n = 2) :
    (Instr.loadZx (.r64 rax) m n).Plain := plain_of_regular ⟨isGpr_rax, hm, hn⟩ rfl rfl

theorem plain_loadFrom (t : Ty) {m : Mem} (hm : m.Based) (dst : ValueNo) :
    PlainCode (c.loadFrom t m dst) := by
  have hstore : PlainCode [c.storeInt dst rax] := .cons (plain_storeInt c isGpr_rax dst) .nil
  unfold Ctx.loadFrom
  split
  · exact .cons (plain_loadZx hm (.inl rfl)) hstore
  · exact .cons (plain_loadZx hm (.inr rfl)) hstore
  · exact .cons (plain_load isGpr_rax hm rfl) hstore
  · exact .cons (plain_load isGpr_rax hm rfl) hstore
  · exact .cons (plain_xload (by decide) hm)
      (.cons (plain_xstore (by decide) (based_onStack _)) .nil)

theorem plain_storeTo (t : Ty) {m : Mem} (hm : m.Based) (src : ValueNo) :
    PlainCode (c.storeTo t m src) := by
  have hload := plain_loadInt c isGpr_rax src
  unfold Ctx.storeTo
  split
  · exact .cons hload (.cons (plain_store isGpr_rax hm nofun) .nil)
  · exact .cons hload (.cons (plain_store isGpr_rax hm nofun) .nil)
  · exact .cons hload (.cons (plain_store isGpr_rax hm nofun) .nil)
  · exact .cons hload (.cons (plain_store isGpr_rax hm nofun) .nil)
  · exact .cons (plain_xload (by decide) (based_onStack _))
      (.cons (plain_xstore (by decide) hm) .nil)

theorem plain_binary {op : BinOp} {t : Ty} (h : op.allows t = true) (x y dst : ValueNo) :
    ∃ is, c.binary op t x y dst = .ok is ∧ PlainCode is := by
  unfold Ctx.binary
  by_cases ht : t.isInt = true
  · rw [if_pos ht]
    have hop : ∃ i, scalarIntOp? op = some i ∧ i.Plain := by
      cases op with
      | iadd => exact ⟨_, rfl, plain_alu isGpr_rax isGpr_rcx rfl⟩
      | isub => exact ⟨_, rfl, plain_alu isGpr_rax isGpr_rcx rfl⟩
      | imul => exact ⟨_, rfl, plain_imul isGpr_rax isGpr_rcx⟩
      | band => exact ⟨_, rfl, plain_alu isGpr_rax isGpr_rcx rfl⟩
      | bor => exact ⟨_, rfl, plain_alu isGpr_rax isGpr_rcx rfl⟩
      | fadd | fsub | fmul | fdiv => cases t <;> cases h <;> cases ht
    obtain ⟨i, hi, hp⟩ := hop
    rw [hi]
    refine ⟨_, rfl, .append (.append ?_ (plain_normalize isGpr_rax t)) ?_⟩
    · exact .cons (plain_loadInt c isGpr_rax x) (.cons (plain_loadInt c isGpr_rcx y) (.cons hp .nil))
    · exact .cons (plain_storeInt c isGpr_rax dst) .nil
  · rw [if_neg ht]
    have hop : ∃ i, (if t = .i64x2 then vectorIntOp? op else floatOp? op t) = some i := by
      cases op <;> cases t <;>
        first
          | exact absurd h Bool.false_ne_true
          | exact absurd rfl ht
          | exact ⟨_, rfl⟩
    obtain ⟨i, hi⟩ := hop
    rw [hi]
    exact ⟨_, rfl, .cons (plain_loadFloat c t (by decide) x)
      (.cons (plain_loadFloat c t (by decide) y)
        (.cons (plain_sse (by decide) (by decide)) (.cons (plain_storeFloat c t (by decide) dst) .nil)))⟩

theorem plain_icmp (cc : IntCond) (t : Ty) (x y dst : ValueNo) : PlainCode (c.icmp cc t x y dst) := by
  have hcmp : (if t = .i32 then Instr.alu .cmp (.r32 rax) (.r32 rcx)
      else .alu .cmp (.r64 rax) (.r64 rcx)).Plain := by
    split
    · exact plain_alu isGpr_rax isGpr_rcx rfl
    · exact plain_alu isGpr_rax isGpr_rcx rfl
  exact .cons (plain_loadInt c isGpr_rax x) (.cons (plain_loadInt c isGpr_rcx y)
    (.cons hcmp (.cons (plain_setcc _ isGpr_rax) (.cons (plain_zx8 isGpr_rax)
      (.cons (plain_storeInt c isGpr_rax dst) .nil)))))

theorem plain_scalarCompare (op : SseOp) (cc : FloatCond) : PlainCode (scalarCompare op cc) := by
  have hset : ∀ cond, (Instr.setcc cond (.r8 rax)).Plain := fun cond => plain_setcc cond isGpr_rax
  have hboth : ∀ (cond : Cond) (o : AluOp), PlainCode [.setcc cond (.r8 rcx), .zx8 (.r64 rcx) (.r64 rcx),
      .zx8 (.r64 rax) (.r64 rax), .alu o (.r32 rax) (.r32 rcx)] := fun cond o =>
    .cons (plain_setcc cond isGpr_rcx) (.cons (plain_zx8 isGpr_rcx) (.cons (plain_zx8 isGpr_rax)
      (.cons (plain_alu isGpr_rax isGpr_rcx rfl) .nil)))
  cases cc with
  | lt | le => exact .cons (plain_sse (x := 1) (y := 0) (by decide) (by decide)) (.cons (hset _) .nil)
  | gt | ge => exact .cons (plain_sse (x := 0) (y := 1) (by decide) (by decide)) (.cons (hset _) .nil)
  | eq | ne =>
    exact .cons (plain_sse (x := 0) (y := 1) (by decide) (by decide)) (.cons (hset _) (hboth _ _))

theorem plain_fcmp (cc : FloatCond) (t : Ty) (x y dst : ValueNo) : PlainCode (c.fcmp cc t x y dst) := by
  unfold Ctx.fcmp
  split
  · -- the operands of a lane comparison are the first two registers, in one order or the other
    obtain ⟨p, swap, e, hp⟩ : ∃ p swap, laneCompare cc = (p, swap) ∧ p ≤ 7 := by
      cases cc <;> exact ⟨_, _, rfl, by decide⟩
    rw [e]
    have hx : ∀ x : XReg, x ≤ 15 → (Instr.xload .upd x (c.home y)).Plain := fun _ h =>
      plain_xload h (based_onStack _)
    cases swap with
    | true =>
      exact .cons (plain_xload (by decide) (based_onStack _)) (.cons (hx 1 (by decide))
        (.cons (plain_of_regular ⟨by decide, by decide, hp⟩ rfl rfl)
          (.cons (plain_xstore (by decide) (based_onStack _)) .nil)))
    | false =>
      exact .cons (plain_xload (by decide) (based_onStack _)) (.cons (hx 1 (by decide))
        (.cons (plain_of_regular ⟨by decide, by decide, hp⟩ rfl rfl)
          (.cons (plain_xstore (by decide) (based_onStack _)) .nil)))
  · refine .append (.append ?_ (plain_scalarCompare _ cc)) ?_
    · exact .cons (plain_loadFloat c t (by decide) x) (.cons (plain_loadFloat c t (by decide) y) .nil)
    · exact .cons (plain_zx8 isGpr_rax) (.cons (plain_storeInt c isGpr_rax dst) .nil)

theorem plain_splat {t : Ty} (h : t.isVector = true) (x dst : ValueNo) :
    ∃ is, c.splat t x dst = .ok is ∧ PlainCode is := by
  have hstore : PlainCode [.xstore .upd (c.home dst) 0] :=
    .cons (plain_xstore (by decide) (based_onStack _)) .nil
  cases t with
  | f64x2 => exact ⟨_, rfl, .cons (plain_xload (by decide) (based_onStack _))
      (.cons (plain_sse (by decide) (by decide)) hstore)⟩
  | i64x2 => exact ⟨_, rfl, .cons (plain_loadInt c isGpr_rax x)
      (.cons (plain_of_regular ⟨by decide, isGpr_rax⟩ rfl rfl)
        (.cons (plain_sse (by decide) (by decide)) hstore))⟩
  | i8 | i16 | i32 | i64 | f32 | f64 | invalid => cases h

theorem plain_transfer (t : Target) : PlainCode (c.transfer t) := by
  refine .append (.flatten fun is his => ?_) (.flatten fun is his => ?_)
  · obtain ⟨k, hk, rfl⟩ := List.mem_mapIdx.mp his
    exact plain_copy _ _ _
  · obtain ⟨k, hk, rfl⟩ := List.mem_mapIdx.mp his
    exact plain_copy _ _ _

/-! ## calls and returns -/

theorem proper_params : paramLimits.Proper := fun c => by
  cases c
  · exact ⟨by decide, .inl rfl⟩
  · exact ⟨by decide, .inl rfl⟩

theorem proper_results : resultLimits.Proper := fun c => by
  cases c
  · exact ⟨by decide, .inr rfl⟩
  · exact ⟨by decide, .inr rfl⟩

theorem index_lt_of_params {ts : List Ty} {ls : List RegLoc} (h : passing paramLimits ts = .ok ls) :
    ∀ loc ∈ ls, loc.index < 8 := by
  intro loc hl
  have := passing_lt (fun c => (proper_params c).1) h loc hl
  cases e : loc.file <;> simp [e, paramLimits, RegLimits.forParams, RegLimits.limit] at this <;> omega

theorem index_lt_of_results {ts : List Ty} {ls : List RegLoc} (h : passing resultLimits ts = .ok ls) :
    ∀ loc ∈ ls, loc.index < 8 := by
  intro loc hl
  have := passing_lt (fun c => (proper_results c).1) h loc hl
  cases e : loc.file <;> simp [e, resultLimits, RegLimits.forResults, RegLimits.limit] at this <;> omega

theorem isGpr_intArgs : ∀ r ∈ intArgs, IsGpr r := by decide

theorem isGpr_intResults : ∀ r ∈ intResults, IsGpr r := by decide

theorem plain_ret (args : List ValueNo) (h : ∀ loc ∈ c.returns, loc.index < 8) :
    PlainCode (c.ret args) := by
  refine .append (fun i hi => ?_) ?_
  · obtain ⟨⟨v, loc, t⟩, hm, rfl⟩ := List.mem_map.mp hi
    have hl : loc ∈ c.returns := (List.of_mem_zip (List.of_mem_zip hm).2).1
    exact plain_unspill c isGpr_intResults t v (h loc hl)
  · exact .cons (plain_movReg isGpr_rsp isGpr_rbp nofun)
      (.cons (plain_of_regular isGpr_rbp rfl rfl) (.cons (plain_of_regular trivial rfl rfl) .nil))

end

/-! ## steps -/

section
variable {N : String → Prop}

/-- lines that mark, name and refer to what they should -/
abbrev Lowered (N : String → Prop) (ls : List (Line Instr)) (marks symbols : List String) : Prop :=
  Describes Instr.label? Instr.symbol? Instr.Taken N ls marks symbols

variable (c : Ctx)

theorem lowered_goto {t : Target} (h : N (blockLabel t.block)) :
    Lowered N (c.goto t) [] [] := by
  have hjump : Lowered N [.instr (.jump (blockLabel t.block))] [] [] :=
    .instr (taken_jump _) fun l hl => by
      cases hl
      exact h
  rw [Ctx.goto, code, List.map_append]
  exact (plain_transfer c t).lowered.append hjump

theorem lowered_brif {b : Nat} {cond : ValueNo} {yes no : Target} (hb : N (elseLabel b))
    (hy : N (blockLabel yes.block)) (hn : N (blockLabel no.block)) :
    Lowered N (c.brif b cond yes no) [elseLabel b] [] := by
  have htest : Lowered N (code [c.loadInt rax cond, .alu .test (.r64 rax) (.r64 rax)]) [] [] :=
    PlainCode.lowered (.cons (plain_loadInt c isGpr_rax cond)
      (.cons (plain_alu isGpr_rax isGpr_rax rfl) .nil))
  have hjump : Lowered N [.instr (.jumpIf condE (elseLabel b))] [] [] :=
    .instr (taken_jumpIf _ _) fun l hl => by
      cases hl
      exact hb
  exact (((htest.append hjump).append (lowered_goto c hy)).append (.mark _)).append (lowered_goto c hn)

/-- a call is lowered if its signature fits, and that is all that can be wrong -/
theorem call_cases {n : Nat} (args results : List ValueNo) {ext : Import}
    (he : c.fn.imports[n]? = some ext) (hname : ext.name ≠ "") :
    (∃ is, c.call n args results = .ok is ∧ ext.sig.Passable paramLimits resultLimits ∧
      Lowered N (code is) [] [ext.name]) ∨
    ∃ g, c.call n args results = .error (.call ext.name g) ∧ g.Overflow ∧
      ¬ ext.sig.Passable paramLimits resultLimits := by
  have hget : c.fn.imports.getD n ⟨"", .empty⟩ = ext := by
    rw [Array.getD_eq_getD_getElem?, he, Option.getD_some]
  simp only [Ctx.call, hget]
  rcases ext.sig.passing_cases proper_params proper_results with
    ⟨ins, outs, hp, hr, hfit⟩ | ⟨g, hg, hno, hp | ⟨ins, hp, hr⟩⟩
  · rw [hp, hr]
    refine .inl ⟨_, rfl, hfit, ?_⟩
    have hload : PlainCode ((args.zip (ins.zip ext.sig.params)).map
        fun m => c.unspill intArgs m.2.2 m.1 m.2.1) := by
      intro i hi
      obtain ⟨⟨v, loc, t⟩, hm, rfl⟩ := List.mem_map.mp hi
      have hl : loc ∈ ins := (List.of_mem_zip (List.of_mem_zip hm).2).1
      exact plain_unspill c isGpr_intArgs t v (index_lt_of_params hp loc hl)
    have hstore : PlainCode ((results.zip outs).flatMap fun m => c.spill intResults m.1 m.2) :=
      .flatMap fun ⟨v, loc⟩ hm =>
        plain_spill c isGpr_intResults v (index_lt_of_results hr loc (List.of_mem_zip hm).2)
    have hsym : Lowered N [.instr (.movSymbol callTarget ext.name)] [] [ext.name] :=
      .instr (Instr.Regular.taken ⟨isGpr_callTarget, hname⟩) nofun
    have hcall : Lowered N (code [.movSymbol callTarget ext.name, .call callTarget]) [] [ext.name] :=
      hsym.append (PlainCode.lowered
        (.cons (plain_of_regular (i := .call callTarget) isGpr_callTarget rfl rfl) .nil))
    have := (hload.lowered.append hcall).append hstore.lowered
    simpa only [code, ← List.map_append, List.append_assoc, List.nil_append, List.append_nil]
      using this
  · rw [hp]
    exact .inr ⟨g, rfl, hg, hno⟩
  · rw [hp, hr]
    exact .inr ⟨g, rfl, hg, hno⟩

/-- **The lines of a typed step**, or the one reason why there are none -/
theorem lowerStep_cases {f : Func} (hf : f.WellFormed) (hn : f.ImportsNamed) (hc : c.fn = f)
    (hret : ∀ loc ∈ c.returns, loc.index < 8) {b : Nat} {blk : Block} (hb : f.blocks[b]? = some blk)
    {s : Step} (hs : s ∈ blk.steps.toList) :
    (∃ ls, c.lowerStep b s = .ok ls ∧ f.CallPassable paramLimits resultLimits s ∧
      Lowered (· ∈ f.labels) ls (elsesOf b s) (f.calledName? s).toList) ∨
    ∃ e, c.lowerStep b s = .error e ∧ (∃ name g, e = .call name g ∧ g.Overflow) ∧
      ¬ f.CallPassable paramLimits resultLimits s := by
  subst hc
  obtain ⟨rs, ht, -⟩ := hf.typed b blk hb s hs
  obtain ⟨inst, results⟩ := s
  cases inst with
  | iconst t bits | fconst t bits =>
    refine .inl ⟨_, rfl, nofun, PlainCode.lowered ?_⟩
    exact .cons (plain_movImm isGpr_rax _) (.cons (plain_storeInt c isGpr_rax _) .nil)
  | binary op t x y =>
    obtain ⟨is, hi, hp⟩ := plain_binary c ht.1 x y (results.headD 0)
    refine .inl ⟨code is, ?_, nofun, hp.lowered⟩
    simp only [Ctx.lowerStep, hi]
    rfl
  | icmp cc t x y => exact .inl ⟨_, rfl, nofun, (plain_icmp c cc t x y _).lowered⟩
  | fcmp cc t x y => exact .inl ⟨_, rfl, nofun, (plain_fcmp c cc t x y _).lowered⟩
  | splat t x =>
    obtain ⟨is, hi, hp⟩ := plain_splat c ht.1 x (results.headD 0)
    refine .inl ⟨code is, ?_, nofun, hp.lowered⟩
    simp only [Ctx.lowerStep, hi]
    rfl
  | extractLane t x lane => exact .inl ⟨_, rfl, nofun, (plain_copy _ _ _).lowered⟩
  | load t p off =>
    refine .inl ⟨_, rfl, nofun, PlainCode.lowered (.cons (plain_loadInt c isGpr_rcx p) ?_)⟩
    exact plain_loadFrom c t (Mem.based_at isGpr_rcx off) _
  | store t x p off =>
    refine .inl ⟨_, rfl, nofun, PlainCode.lowered (.cons (plain_loadInt c isGpr_rcx p) ?_)⟩
    exact plain_storeTo c t (Mem.based_at isGpr_rcx off) x
  | stackLoad t k off =>
    exact .inl ⟨_, rfl, nofun, (plain_loadFrom c t (based_onStack _) _).lowered⟩
  | stackStore t x k off =>
    exact .inl ⟨_, rfl, nofun, (plain_storeTo c t (based_onStack _) x).lowered⟩
  | stackAddr k off =>
    refine .inl ⟨_, rfl, nofun, PlainCode.lowered (.cons ?_ (.cons (plain_storeInt c isGpr_rax _) .nil))⟩
    exact plain_of_regular ⟨isGpr_rax, rfl, based_onStack _⟩ rfl rfl
  | call n args =>
    obtain ⟨ext, he, -⟩ := ht
    have hname : ext.name ≠ "" := hn ext (Array.mem_toList_iff.mpr (Array.mem_of_getElem? he))
    rcases call_cases (N := (· ∈ c.fn.labels)) c args results he hname with
      ⟨is, hi, hfits, hl⟩ | ⟨g, hi, hg, hno⟩
    · refine .inl ⟨code is, ?_, (Func.callPassable_iff he).mpr hfits, ?_⟩
      · simp only [Ctx.lowerStep, hi]
        rfl
      · show Lowered _ _ _ (c.fn.imports[n]?.map Import.name).toList
        rw [he]
        exact hl
    · refine .inr ⟨.call ext.name g, ?_, ⟨ext.name, g, rfl, hg⟩, mt (Func.callPassable_iff he).mp hno⟩
      simp only [Ctx.lowerStep, hi]
      rfl
  | jump t => exact .inl ⟨_, rfl, nofun, lowered_goto c ht.1.label_mem⟩
  | brif t cond yes no =>
    obtain ⟨-, -, hy, hno, -⟩ := ht
    exact .inl ⟨_, rfl, nofun, lowered_brif c (Func.elses_mem hb hs _ List.mem_cons_self)
      hy.label_mem hno.label_mem⟩
  | ret args => exact .inl ⟨_, rfl, nofun, (plain_ret c args hret).lowered⟩

/-! ## functions -/

theorem lowerSteps_eq (b : Nat) (ss : List Step) : c.lowerSteps b ss = stepsLines (c.lowerStep b) ss := by
  induction ss with
  | nil => rfl
  | cons s ss ih => rw [Ctx.lowerSteps, stepsLines, ih]

theorem lowerBlocks_eq (opts : Options) (b : Nat) (blks : List Block) :
    c.lowerBlocks opts b blks = blocksLines c.lowerStep (padding opts c.fn) b blks := by
  induction blks generalizing b with
  | nil => rfl
  | cons blk blks ih =>
    rw [Ctx.lowerBlocks, blocksLines, ih, Ctx.lowerBlock, lowerSteps_eq]
    cases (stepsLines (c.lowerStep b) blk.steps.toList).mapError (FuncFault.inBlock b) with
    | error e => rfl
    | ok body => rfl

theorem lowered_padding (opts : Options) (f : Func) (b : Nat) :
    Lowered N (padding opts f b) [] [] := by
  unfold padding
  split
  · exact (show PlainCode [.align loopBoundary] from .cons ⟨taken_align, rfl, rfl⟩ .nil).lowered
  · exact .nil

theorem plain_prologue (fr : Frame) : PlainCode (prologue fr) := by
  refine .append (.cons (plain_of_regular isGpr_rbp rfl rfl)
    (.cons (plain_movReg isGpr_rbp isGpr_rsp nofun) .nil)) ?_
  split
  · exact .cons (plain_of_regular ⟨isGpr_rsp, rfl⟩ rfl rfl) .nil
  · exact .nil

end

/-- **What a well-formed function is lowered to**, or the one reason why it is not lowered -/
theorem lower_cases {f : Func} (hf : f.WellFormed) (hn : f.ImportsNamed) (opts : Options) :
    (∃ lines, lower f opts = .ok lines ∧ f.Passable paramLimits resultLimits ∧
      Lowered (· ∈ f.labels) lines f.labels (f.steps.filterMap f.calledName?)) ∨
    ∃ e, lower f opts = .error e ∧ (∃ g, (Fault.function .x64 f.name e).cause? = some g ∧ g.Overflow) ∧
      ¬ f.Passable paramLimits resultLimits := by
  unfold lower
  rcases f.sig.passing_cases proper_params proper_results with
    ⟨params, returns, hp, hr, hsig⟩ | ⟨g, hg, hno, hp | ⟨params, hp, hr⟩⟩
  · obtain ⟨c, hc, hfn, hreturns⟩ : ∃ c : Ctx, { fn := f, frame := f.frame 0, returns } = c ∧
        c.fn = f ∧ c.returns = returns := ⟨_, rfl, rfl, rfl⟩
    rw [hp, hr]
    simp only [bind, Except.bind, Except.mapError, hc, lowerBlocks_eq, hfn]
    rcases blocksLines_cases f c.lowerStep (padding opts f)
        (Q := f.CallPassable paramLimits resultLimits) (lowered_padding opts f)
        (fun b blk hb s hs => lowerStep_cases c hf hn hfn (hreturns ▸ index_lt_of_results hr) hb hs) with
      ⟨lines, hl, hq, hd⟩ | ⟨b, e, hl, ⟨name, g, rfl, hg⟩, hno⟩
    · have hin : PlainCode (((f.blockParams 0).zip params).flatMap
          fun m => c.spill intArgs m.1 m.2) :=
        .flatMap fun ⟨v, loc⟩ hm =>
          plain_spill c isGpr_intArgs v (index_lt_of_params hp loc (List.of_mem_zip hm).2)
      rw [hl]
      exact .inl ⟨_, rfl, ⟨hsig, hq⟩, ((plain_prologue (f.frame 0)).append hin).lowered.append hd⟩
    · rw [hl]
      exact .inr ⟨_, rfl, ⟨g, rfl, hg⟩, fun h => hno h.2⟩
  · rw [hp]
    exact .inr ⟨_, rfl, ⟨g, rfl, hg⟩, fun h => hno h.1⟩
  · rw [hp, hr]
    exact .inr ⟨_, rfl, ⟨g, rfl, hg⟩, fun h => hno h.1⟩

end TreeJit.Compile.X64

namespace TreeJit.Compile

open SSA
open TreeJit.X64 (codeSize)

/-- lowered lines are assembled, if the code is short enough for its branches -/
theorem X64.assemble_of_lowered {lines : List (Line TreeJit.X64.Instr)} {labels symbols : List String}
    (h : Lowered (· ∈ labels) lines labels symbols) (hn : labels.Nodup)
    (hsize : codeSize lines < 2 ^ 31) :
    ∃ p, TreeJit.X64.assemble lines = .ok p ∧ p.refs.map SymbolRef.name = symbols := by
  rcases h.assemble AsmFault.label hn
      (fun pos i c hc => TreeJit.X64.Instr.encode_shaped (mapError_eq_ok.mp hc))
      (fun pos i c hc => TreeJit.X64.Instr.encode_label (mapError_eq_ok.mp hc))
      (fun pos i c hc => TreeJit.X64.Instr.encode_symbol (mapError_eq_ok.mp hc)) with
    hok | ⟨pos, i, e, -, hi, he, -⟩ | ⟨pos, i, c, b, t, hst, hc, hb, ht, hbad⟩
  · exact hok
  · obtain ⟨c, hc⟩ := hi pos
    rw [hc] at he
    cases he
  · -- both ends of the branch lie inside the code
    have hfld : b.field = .rel32 := by
      rw [TreeJit.X64.Instr.encode_branch (mapError_eq_ok.mp hc)] at hb
      obtain ⟨l, -, rfl⟩ := Option.map_eq_some_iff.mp hb
      rfl
    have hfrom := hst.le
    have hto := ht.le
    rw [sizeAt_ok hc, stopOf_mapError] at hfrom
    rw [stopOf_mapError] at hto
    unfold codeSize at hsize
    rcases hbad with ⟨hfar, -⟩ | ⟨hne, -⟩
    · refine absurd ?_ hfar
      rw [hfld]
      show -2 ^ 31 ≤ (t : Int) - (pos + c.bytes.length : Nat) ∧ (t : Int) - (pos + c.bytes.length : Nat) < 2 ^ 31
      omega
    · exact absurd hfld hne

/-- whether the branches in the code of a function, if it has code, can span it -/
def X64.isShort (f : Func) (opts : Options) : Bool :=
  match X64.lower f opts with
  | .ok lines => decide (codeSize lines < 2 ^ 31)
  | .error _ => true

theorem X64.size_of_isShort {f : Func} {opts : Options} (h : X64.isShort f opts = true) :
    ∀ lines, X64.lower f opts = .ok lines → codeSize lines < 2 ^ 31 := by
  intro lines hl
  rw [X64.isShort, hl] at h
  exact of_decide_eq_true h

/-- **Every function that is handed out compiles for x86-64**, exactly if there are registers for it
and for what it calls; otherwise the fault says which registers are missing.  The code refers to the
called functions in the order of the calls. -/
theorem compile_x64_ok_iff (name : String) (sig : Signature) (as : List Action) (f : Func)
    (opts : Options) (hf : ((Draft.new name sig).perform as).finish.2 = .ok f)
    (hsize : ∀ lines, X64.lower f opts = .ok lines → codeSize lines < 2 ^ 31) :
    ((∃ p, compile .x64 f opts = .ok p) ↔ f.Passable X64.paramLimits X64.resultLimits) ∧
    (∀ e, compile .x64 f opts = .error e → ∃ g, e.cause? = some g ∧ g.Overflow) ∧
    ∀ p, compile .x64 f opts = .ok p → p.refs.map SymbolRef.name = f.steps.filterMap f.calledName? := by
  obtain ⟨-, -, hw⟩ := Draft.sound_of_finish hf
  rcases X64.lower_cases hw (Draft.importsNamed_of_finish hf) opts with
    ⟨lines, hl, hfit, hd⟩ | ⟨e, hl, hg, hno⟩
  · obtain ⟨p, hp, href⟩ := X64.assemble_of_lowered hd hw.nodup_labels (hsize lines hl)
    have hc : compile .x64 f opts = .ok p := by
      simp only [compile, hl, hp, Except.mapError]
    rw [hc]
    refine ⟨⟨fun _ => hfit, fun _ => ⟨p, rfl⟩⟩, fun e he => ?_, fun q hq => ?_⟩
    · cases he
    · cases hq
      exact href
  · have hc : compile .x64 f opts = .error (.function .x64 f.name e) := by
      simp only [compile, hl]
    rw [hc]
    refine ⟨⟨?_, fun h => absurd h hno⟩, fun e' he => ?_, fun q hq => ?_⟩
    · rintro ⟨p, hp⟩
      cases hp
    · cases he
      exact hg
    · cases hq

/-- a loop that scales a number as often as its counter says, and once more behind the loop -/
def scaling : List Action :=
  [.importFn "scale" ⟨[.i64, .f64], [.f64]⟩, .createBlock, .appendFunctionParams 0, .createBlock,
    .appendParam 1 .i64, .appendParam 1 .f64, .createBlock, .switchTo 0, .jump 1 [0, 1],
    .switchTo 1, .call 0 [2, 3], .iconst .i64 1, .binary .isub 2 5, .brif 6 1 [6, 4] 2 [],
    .switchTo 2, .call 0 [0, 4], .ret [7], .sealAll]

/-- the loop compiles, with its header aligned, and refers twice to what it calls -/
theorem compile_x64_ok_iff_scaling :
    let f := ((Draft.new "scaled" ⟨[.i64, .f64], [.f64]⟩).perform scaling).body.fn
    (∃ p, compile .x64 f ⟨true⟩ = .ok p) ∧
      ∀ p, compile .x64 f ⟨true⟩ = .ok p → p.refs.map SymbolRef.name = ["scale", "scale"] := by
  intro f
  have hsize : ∀ lines, X64.lower f ⟨true⟩ = .ok lines → codeSize lines < 2 ^ 31 := by
    have h : (match X64.lower f ⟨true⟩ with
        | .ok lines => decide (codeSize lines < 2 ^ 31)
        | .error _ => true) = true := by decide +kernel
    intro lines hl
    rw [hl] at h
    exact of_decide_eq_true h
  have hnames : f.steps.filterMap f.calledName? = ["scale", "scale"] := by decide +kernel
  have := compile_x64_ok_iff "scaled" ⟨[.i64, .f64], [.f64]⟩ scaling f ⟨true⟩
    (Draft.finish_of_isOk (by decide +kernel)) hsize
  rw [hnames] at this
  exact ⟨this.1.mpr (by decide +kernel), this.2.2⟩

end TreeJit.Compile
