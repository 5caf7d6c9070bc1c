import TreeJit.Proofs.Compile.Calls
import TreeJit.Proofs.Compile.Transfer

/-!
# Places in the code of a function

`Stands x lines b k rest` says that the lines `rest` are what is left of a listing in front of the
code of step `k` of block `b`.  In the listing of a function every block stands behind its label,
which is marked nowhere else (`HasBlocks`, `lower_ok`), so a branch comes to the first
step of its block with its arguments in the homes of the parameters (`Sim.goto`, `Sim.brif`).
-/

namespace TreeJit.Compile.X64

open SSA TreeJit.X64

/-! ## labels -/

theorem seek_append {l : String} {pre post : List (Line Instr)} (h : l ∉ markedLabels pre) :
    seek l (pre ++ .mark l :: post) = some (.mark l :: post) := by
  induction pre with
  | nil => exact if_pos rfl
  | cons x pre ih =>
    cases x with
    | instr i => exact ih h
    | mark m =>
      obtain ⟨hne, hpre⟩ := not_or.mp (mt List.mem_cons.mpr h)
      rw [List.cons_append, seek, if_neg (Ne.symm hne)]
      exact ih hpre

/-- the label of a listing without repetitions is found where it is marked -/
theorem seek_eq {l : String} {lines pre post : List (Line Instr)}
    (hn : (markedLabels lines).Nodup) (e : lines = pre ++ .mark l :: post) :
    seek l lines = some (.mark l :: post) := by
  subst e
  refine seek_append fun hm => ?_
  rw [markedLabels_append] at hn
  exact (List.nodup_append.mp hn).2.2 l hm l List.mem_cons_self rfl

theorem Runs.toLabel {E : Env} {lines rest : List (Line Instr)} {l : String} {c : Cpu}
    (h : seek l lines = some (.mark l :: rest)) :
    Runs E lines (goto lines l c) [.label l] (.at rest c) := by
  rw [goto, h]
  exact Runs.one rfl

/-! ## places -/

def Stands (x : Ctx) (lines : List (Line Instr)) (b k : Nat) (rest : List (Line Instr)) : Prop :=
  ∃ blk here tail pre, x.fn.blocks[b]? = some blk ∧
    x.lowerSteps b (blk.steps.toList.drop k) = .ok here ∧ rest = here ++ tail ∧ lines = pre ++ rest

theorem Stands.step {x : Ctx} {lines rest : List (Line Instr)} {b k : Nat}
    (h : Stands x lines b k rest) {blk : Block} (hb : x.fn.blocks[b]? = some blk) {s : Step}
    (hk : blk.steps.toList[k]? = some s) :
    ∃ ls rest', x.lowerStep b s = .ok ls ∧ rest = ls ++ rest' ∧ Stands x lines b (k + 1) rest' := by
  obtain ⟨blk', here, tail, pre, hb', hl, rfl, e⟩ := h
  obtain rfl : blk' = blk := Option.some.inj (hb'.symm.trans hb)
  obtain ⟨hlt, hget⟩ := List.getElem?_eq_some_iff.mp hk
  rw [List.drop_eq_getElem_cons hlt, hget] at hl
  obtain ⟨ls, hls, hl⟩ := bind_eq_ok.mp hl
  obtain ⟨more, hmore, hl⟩ := bind_eq_ok.mp hl
  cases hl
  refine ⟨ls, more ++ tail, hls, List.append_assoc _ _ _, blk', more, tail, pre ++ ls, hb, hmore,
    rfl, ?_⟩
  rw [e, List.append_assoc, List.append_assoc]

/-- every block stands behind its label, and no label is marked twice -/
structure HasBlocks (x : Ctx) (lines : List (Line Instr)) : Prop where
  nodup : (markedLabels lines).Nodup
  block : ∀ (b : Nat) blk, x.fn.blocks[b]? = some blk →
    ∃ pre rest, lines = pre ++ .mark (blockLabel b) :: rest ∧ Stands x lines b 0 rest

theorem HasBlocks.seek {x : Ctx} {lines : List (Line Instr)} (h : HasBlocks x lines) {b : Nat}
    {blk : Block} (hb : x.fn.blocks[b]? = some blk) :
    ∃ rest, TreeJit.X64.seek (blockLabel b) lines = some (.mark (blockLabel b) :: rest) ∧
      Stands x lines b 0 rest := by
  obtain ⟨pre, rest, e, hst⟩ := h.block b blk hb
  exact ⟨rest, seek_eq h.nodup e, hst⟩

theorem lowerBlocks_split {x : Ctx} {opts : Options} {b k : Nat} {blks : List Block}
    {lines : List (Line Instr)} (h : x.lowerBlocks opts b blks = .ok lines) {blk : Block}
    (hk : blks[k]? = some blk) :
    ∃ pre body post, lines = pre ++ .mark (blockLabel (b + k)) :: (body ++ post) ∧
      x.lowerSteps (b + k) blk.steps.toList = .ok body ∧ (k = 0 → pre = padding opts x.fn b) := by
  rw [lowerBlocks_eq] at h
  obtain ⟨pre, body, post, e, hbody, hpre⟩ := blocksLines_split h hk
  exact ⟨pre, body, post, e, (lowerSteps_eq ..).trans hbody, hpre⟩

/-- **The lines of a function**: what is run first, the first block, and all blocks behind their
labels -/
theorem lower_ok {f : Func} (hf : f.WellFormed) (hn : f.ImportsNamed) {opts : Options}
    {lines : List (Line Instr)} (h : lower f opts = .ok lines) :
    ∃ params x, passing paramLimits f.sig.params = .ok params ∧
      passing resultLimits f.sig.returns = .ok x.returns ∧ x.fn = f ∧ x.frame = f.frame 0 ∧
      HasBlocks x lines ∧ ∃ rest, lines = code (x.opening params) ++ .mark (blockLabel 0) :: rest ∧
        Stands x lines 0 0 rest := by
  have hnodup : (markedLabels lines).Nodup := by
    rcases lower_cases hf hn opts with ⟨lines', hl, -, hd⟩ | ⟨e, hl, -⟩
    · rw [h] at hl
      cases hl
      rw [hd.marks]
      exact hf.nodup_labels
    · rw [h] at hl
      cases hl
  obtain ⟨params, hp, h⟩ := bind_eq_ok.mp h
  obtain ⟨returns, hr, h⟩ := bind_eq_ok.mp h
  obtain ⟨blocks, hblocks, h⟩ := bind_eq_ok.mp h
  let x : Ctx := ⟨f, f.frame 0, returns⟩
  have e : code (x.opening params) ++ blocks = lines := Except.ok.inj h
  refine ⟨params, x, mapError_eq_ok.mp hp, mapError_eq_ok.mp hr, rfl, rfl, ⟨hnodup, ?_⟩, ?_⟩
  · intro b blk hb
    obtain ⟨pre, body, post, rfl, hbody, -⟩ :=
      lowerBlocks_split hblocks (k := b) (by rw [Array.getElem?_toList]; exact hb)
    rw [Nat.zero_add] at hbody e
    refine ⟨code (x.opening params) ++ pre, body ++ post, ?_, blk, body, post,
      code (x.opening params) ++ pre ++ [.mark (blockLabel b)], hb, hbody, rfl, ?_⟩
    · rw [← e, List.append_assoc]
    · rw [← e, List.append_assoc, List.append_assoc]
      rfl
  · obtain ⟨blk, hb, -⟩ := hf.entry
    obtain ⟨pre, body, post, rfl, hbody, hpre⟩ :=
      lowerBlocks_split hblocks (k := 0) (by rw [Array.getElem?_toList]; exact hb)
    -- the first block is never padded
    obtain rfl : pre = [] := hpre rfl
    refine ⟨body ++ post, e.symm, blk, body, post,
      code (x.opening params) ++ [.mark (blockLabel 0)], hb, hbody, rfl, ?_⟩
    rw [← e, List.append_assoc]
    rfl

/-! ## branches -/

section
variable {K : Call} {A : ValueNo → Prop} {st : State} {c : Cpu} {L : List RegLoc}
variable {lines tail : List (Line Instr)}

/-- **A branch** comes to the first step of its block -/
theorem Sim.goto (hK : K.Ok) (hb : HasBlocks (K.ctx L) lines) (h : Sim K A st c) {t : Target}
    (ht : K.fn.Supplies t) (hA : ∀ v ∈ t.args, A v) (hk : t.args.length ≤ K.fn.maxBranchArgs)
    (tail : List (Line Instr)) :
    ∃ rest c', Runs K.env lines (.at ((K.ctx L).goto t ++ tail) c) [.label (blockLabel t.block)]
        (.at rest c') ∧ Stands (K.ctx L) lines t.block 0 rest ∧
      Sim K (fun v => v ∈ K.fn.blockParams t.block ∨ A v)
        (st.setAll (K.fn.blockParams t.block) (st.getAll t.args)) c' := by
  obtain ⟨blk, ts, hblk, -⟩ := id ht
  obtain ⟨rest, hseek, hst⟩ := hb.seek hblk
  obtain ⟨c1, hrun, h1⟩ := (h.transfer (L := L) hK ht hA hk).runs lines
    (.instr (.jump (blockLabel t.block)) :: tail)
  refine ⟨rest, c1, ?_, hst, h1⟩
  have hjump := (Runs.ofNext K.env lines c1 (.instr (.jump (blockLabel t.block)) :: tail)).trans
    (Runs.toLabel hseek)
  have := hrun.trans hjump
  rwa [Ctx.goto, code, List.map_append, List.append_assoc]

/-- **A conditional branch** -/
theorem Sim.brif (hK : K.Ok) (hb : HasBlocks (K.ctx L) lines) (h : Sim K A st c) {b : Nat}
    {ty : Ty} {cond : ValueNo} {yes no t : Target} (hty : ty.isInt = true)
    (hcond : K.fn.values[cond]? = some ty) (hAc : A cond)
    (et : t = if (st.get cond).lo = 0 then no else yes) (ht : K.fn.Supplies t)
    (hA : ∀ v ∈ t.args, A v) (hk : t.args.length ≤ K.fn.maxBranchArgs) {pre : List (Line Instr)}
    (e : lines = pre ++ ((K.ctx L).brif b cond yes no ++ tail)) :
    ∃ rest c' ms, Runs K.env lines (.at ((K.ctx L).brif b cond yes no ++ tail) c) ms (.at rest c') ∧
      Shows K [.block t.block] ms ∧ Stands (K.ctx L) lines t.block 0 rest ∧
      Sim K (fun v => v ∈ K.fn.blockParams t.block ∨ A v)
        (st.setAll (K.fn.blockParams t.block) (st.getAll t.args)) c' := by
  obtain ⟨hs, h32⟩ := scalar_of_isInt hty
  obtain ⟨w, hw, hp⟩ := h.loadInt (L := L) hK hAc hcond hs rax
  have ew : (st.get cond).lo = w := hw.lo h32
  let c1 := c.setGpr rax w
  let c2 := c1.setFlags (logicFlags64 (w &&& w))
  have h2 : Sim K A st c2 := (h.setGpr (by decide) w).setFlags _
  have htest : (Instr.alu .test (.r64 rax) (.r64 rax)).perform K.env c1 = some (c2, []) := rfl
  have hflag : c2.flags.test condE = decide ((st.get cond).lo = 0) := by
    show (w &&& w == 0) = _
    rw [ew, UInt64.and_self, Bool.beq_eq_decide_eq]
  -- what is run first, the branch to `yes`, and the label with the branch to `no`
  let first := code [(K.ctx L).loadInt rax cond, .alu .test (.r64 rax) (.r64 rax),
    .jumpIf condE (elseLabel b)] ++ (K.ctx L).goto yes
  let other := .mark (elseLabel b) :: ((K.ctx L).goto no ++ tail)
  have ecode : (K.ctx L).brif b cond yes no ++ tail = first ++ other := by
    rw [Ctx.brif, List.append_assoc, List.append_assoc]
    rfl
  have efirst : first ++ other = .instr ((K.ctx L).loadInt rax cond) ::
      .instr (.alu .test (.r64 rax) (.r64 rax)) :: .instr (.jumpIf condE (elseLabel b)) ::
        ((K.ctx L).goto yes ++ other) := List.append_assoc _ _ _
  rw [ecode] at e ⊢
  have hseek : TreeJit.X64.seek (elseLabel b) lines = some other :=
    seek_eq hb.nodup (e.trans (List.append_assoc _ _ _).symm)
  let branch : List (Line Instr) :=
    .instr (.jumpIf condE (elseLabel b)) :: ((K.ctx L).goto yes ++ other)
  have hstart := (Runs.perform hp lines (.instr (.alu .test (.r64 rax) (.r64 rax)) :: branch)).trans
    (Runs.perform htest lines branch)
  have hbranch : next K.env lines c2 branch = (if decide ((st.get cond).lo = 0) then
      TreeJit.X64.goto lines (elseLabel b) c2 else .at ((K.ctx L).goto yes ++ other) c2, []) := by
    rw [← hflag]
    rfl
  have hjump := hstart.trans (Runs.one hbranch)
  rw [efirst]
  by_cases hz : (st.get cond).lo = 0
  · rw [if_pos hz] at et
    subst et
    rw [if_pos (decide_eq_true hz)] at hjump
    obtain ⟨rest, c3, hrun, hst, h3⟩ := h2.goto hK hb ht hA hk tail
    exact ⟨rest, c3, _, (hjump.trans (Runs.toLabel hseek)).trans hrun,
      .inner b (.one (.block _)), hst, h3⟩
  · rw [if_neg hz] at et
    subst et
    rw [if_neg (by simpa using hz)] at hjump
    obtain ⟨rest, c3, hrun, hst, h3⟩ := h2.goto hK hb ht hA hk other
    exact ⟨rest, c3, _, hjump.trans hrun, .one (.block _), hst, h3⟩

end

end TreeJit.Compile.X64
