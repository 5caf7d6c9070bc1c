import TreeJit.Proofs.SSA.Calls
import TreeJit.Proofs.SSA.Progress
import TreeJit.Proofs.SSA.WellFormed

/-!
# Functions are handed out

`Draft.finish` hands out a function that passes the checks of `Func.verify`.  A draft under
construction passes them once its open block has returned, if all other blocks have ended and none
of them goes back to the entry.  That the entry was never the target of a branch is read off its
count, which is right at all times.

* `Body.Counted`        every block knows how many branches go to it;
* `Func.verify_eq_ok`   what the checks at the end ask for;
* `Draft.Open.finish`   the function of such a draft is handed out.
-/

namespace TreeJit.SSA

/-! ## branches are counted -/

def Func.branches (f : Func) : List Target := f.steps.flatMap fun s => s.inst.targets

theorem Func.steps_eq_code (f : Func) : f.steps = f.code.flatMap Prod.snd := by
  rw [Func.steps, Func.code, List.flatMap_map]

namespace Body
variable {b b' : Body}

def Counted (b : Body) : Prop :=
  ∀ (n : Nat) blk, b.fn.blocks[n]? = some blk →
    blk.preds = b.fn.branches.countP fun t => t.block == n

theorem steps_append_perm {cur : Nat} {blk : Block} (hb : b.fn.blocks[cur]? = some blk) (i : Inst)
    (ts : List Ty) : (b.append cur i ts).fn.steps.Perm
      (b.fn.steps ++ [⟨i, List.range' b.fn.values.size ts.length⟩]) := by
  rw [Func.steps_eq_code, code_append, Func.steps_eq_code]
  exact flatMap_modify_perm _ _ _ _ cur _ (Func.code_of_block hb) (List.Perm.refl _)

theorem preds_of_modify {bs : Array Block} {k n : Nat} {g : Block → Block} {blk : Block}
    (hg : ∀ c, (g c).preds = c.preds) (h : (bs.modify k g)[n]? = some blk) :
    ∃ c, bs[n]? = some c ∧ blk.preds = c.preds := by
  rw [Array.getElem?_modify] at h
  split at h
  · obtain ⟨c, hc, rfl⟩ := Option.map_eq_some_iff.mp h
    exact ⟨c, hc, hg c⟩
  · exact ⟨blk, h, rfl⟩

/-- **Every change counts the branches it adds.** -/
theorem Counted.change (h : b.Counted) (hs : b.Sound) (hc : b.Change b') : b'.Counted := by
  -- steps that stay the same have the same branches
  have hsame : ∀ {n : Nat} {blk' : Block}, b'.fn.steps = b.fn.steps →
      (∃ blk, b.fn.blocks[n]? = some blk ∧ blk'.preds = blk.preds) →
      blk'.preds = b'.fn.branches.countP fun t => t.block == n := by
    rintro n blk' e ⟨blk, hb, hp⟩
    rw [Func.branches, e, hp]
    exact h n blk hb
  cases hc with
  | block =>
    have hsteps : ({ b.fn with blocks := b.fn.blocks.push {} } : Func).steps = b.fn.steps := by
      simp [Func.steps]
    intro n blk hb
    have hb : (b.fn.blocks.push {})[n]? = some blk := hb
    rw [Array.getElem?_push] at hb
    split at hb
    · -- no branch goes to a block that did not exist
      rename_i hn
      cases hb
      symm
      show (({ b.fn with blocks := b.fn.blocks.push {} } : Func).branches.countP _) = 0
      rw [Func.branches, hsteps, List.countP_eq_zero]
      intro t ht
      obtain ⟨s, hs', ht⟩ := List.mem_flatMap.mp ht
      obtain ⟨k, old, hk, hin⟩ := Func.mem_steps.mp hs'
      obtain ⟨dest, hd, -⟩ := ((hs.blocks k old hk).steps s hin).counted t ht
      have hlt := (Array.getElem?_eq_some_iff.mp hd).1
      simp only [beq_iff_eq]
      omega
    · exact hsame hsteps ⟨blk, hb, rfl⟩
  | switch | slot | ext =>
    intro n blk hb
    exact hsame rfl ⟨blk, hb, rfl⟩
  | @param k t old hk hp ht =>
    intro n blk hb
    refine hsame (steps_mapBlock (b := (b.newValues [t]).1) k _ (by exact fun _ => rfl)) ?_
    have hb : (b.fn.blocks.modify k _)[n]? = some blk := hb
    exact preds_of_modify (by exact fun _ => rfl) hb
  | @sealOne k hk =>
    intro n blk hb
    refine hsame (steps_mapBlock k _ (by exact fun _ => rfl)) ?_
    have hb : (b.fn.blocks.modify k _)[n]? = some blk := hb
    exact preds_of_modify (by exact fun _ => rfl) hb
  | sealAll =>
    intro n blk hb
    have hb : (b.fn.blocks.map _)[n]? = some blk := hb
    rw [Array.getElem?_map] at hb
    obtain ⟨c, hc, rfl⟩ := Option.map_eq_some_iff.mp hb
    exact hsame (by simp [Func.steps, List.flatMap_map]) ⟨c, hc, rfl⟩
  | @step cur old i ts hcur hb ho ht =>
    intro n blk hn
    rw [append_blocks] at hn
    obtain ⟨c, hc, rfl⟩ := Option.map_eq_some_iff.mp hn
    have hperm := (steps_append_perm hb i ts).flatMap_right fun s => s.inst.targets
    rw [Func.branches, hperm.countP_eq, List.flatMap_append, List.countP_append, List.flatMap_singleton]
    show c.preds + _ = _
    rw [h n c hc]
    rfl

theorem kept_counted : Draft.Kept fun b => b.Sound ∧ b.Counted where
  current _ h := h.1.current
  params _ h := h.1.paramsKnown
  step _ _ h hc := ⟨h.1.change hc, h.2.change h.1 hc⟩

end Body

theorem Draft.counted_new (name : String) (sig : Signature) :
    (Draft.new name sig).Holds fun b => b.Sound ∧ b.Counted := by
  refine fun hf => ⟨(Draft.holds_new name sig hf).1, ?_⟩
  intro n blk hb
  simp [Draft.new] at hb

/-! ## the checks at the end -/

theorem checkBlocks_eq (fn : String) (i : Nat) {bs : List Block}
    (h : ∀ b ∈ bs, b.sealed = true ∧ b.isClosed = true) : checkBlocks fn i bs = .ok () := by
  induction bs generalizing i with
  | nil => rfl
  | cons b bs ih =>
    obtain ⟨hs, hc⟩ := h b List.mem_cons_self
    rw [checkBlocks, hs, hc]
    exact ih (i + 1) fun c hc => h c (List.mem_cons_of_mem _ hc)

theorem checkEntry_eq {f : Func} (i : Nat) {ps : List ValueNo} {ts : List Ty} (h : f.HasTypes ps ts) :
    checkEntry f i ps ts = .ok () := by
  induction ps generalizing i ts with
  | nil =>
    cases ts with
    | nil => rfl
    | cons => cases h
  | cons p ps ih =>
    cases ts with
    | nil => cases h
    | cons t ts =>
      obtain ⟨hp, hps⟩ := Func.HasTypes.cons_iff.mp h
      rw [checkEntry, if_pos (Func.typeOf_eq hp)]
      exact ih (i + 1) hps

theorem Func.verify_eq_ok {f : Func} {entry : Block} (he : f.blocks[0]? = some entry)
    (ht : f.HasTypes entry.params.toList f.sig.params) (h0 : entry.preds = 0)
    (hb : ∀ (n : Nat) blk, f.blocks[n]? = some blk → blk.sealed = true ∧ blk.isClosed = true) :
    f.verify = .ok () := by
  have hlen : require (entry.params.size == f.sig.params.length)
      (.entryArity f.name entry.params.size f.sig.params.length) = .ok () := by
    rw [require, if_pos (by simpa using ht.length_eq)]
  have hblocks : checkBlocks f.name 0 f.blocks.toList = .ok () := by
    refine checkBlocks_eq _ _ fun b hm => ?_
    obtain ⟨n, hn⟩ := List.mem_iff_getElem?.mp hm
    exact hb n b (by rwa [Array.getElem?_toList] at hn)
  rw [Func.verify, he]
  show (require (entry.params.size == f.sig.params.length) _ >>= fun _ =>
    checkEntry f 0 entry.params.toList f.sig.params >>= fun _ =>
      require (entry.preds == 0) _ >>= fun _ => checkBlocks f.name 0 f.blocks.toList) = _
  rw [hlen, checkEntry_eq 0 ht, h0, hblocks]
  rfl

/-! ## the end of a draft -/

/-- steps that end a block without going back to the entry -/
def Leaves (ss : List Step) : Prop :=
  ∃ (before : List Step) (s : Step), ss = before ++ [s] ∧ s.inst.isTerminator = true ∧
    ∀ t : Target, t ∈ s.inst.targets → t.block ≠ 0

theorem Leaves.closed {blk : Block} (h : Leaves blk.steps.toList) : blk.isClosed = true := by
  obtain ⟨before, s, e, ht, -⟩ := h
  have hlast : blk.steps.back? = some s := by
    rw [← Array.getLast?_toList, e, List.getLast?_concat]
  rw [Block.isClosed, hlast]
  exact ht

namespace Body
variable {b : Body}

/-- nothing goes to the entry of a body with one open block and others that leave -/
theorem Sound.entryFree (h : b.Sound) {cur : Nat} {old : Block} (ho : b.fn.blocks[cur]? = some old)
    (hopen : old.isClosed = false)
    (hl : ∀ (n : Nat) blk, b.fn.blocks[n]? = some blk → n ≠ cur → Leaves blk.steps.toList) :
    ∀ t ∈ b.fn.branches, t.block ≠ 0 := by
  intro t ht
  obtain ⟨s, hs, ht⟩ := List.mem_flatMap.mp ht
  obtain ⟨n, blk, hb, hs⟩ := Func.mem_steps.mp hs
  have hno : s.inst.isTerminator = false → t.block ≠ 0 := by
    intro hf
    rw [targets_of_isTerminator hf] at ht
    cases ht
  by_cases hn : n = cur
  · subst hn
    obtain rfl := Option.some.inj (hb.symm.trans ho)
    exact hno ((h.blocks n blk hb).open_steps hopen s hs)
  · -- only the last step can have targets
    obtain ⟨before, last, e, -, hlast⟩ := hl n blk hb hn
    have hended := (h.blocks n blk hb).ended
    rw [e, List.dropLast_concat] at hended
    rw [e, List.mem_append, List.mem_singleton] at hs
    rcases hs with hs | rfl
    · exact hno (hended s hs)
    · exact hlast t ht

end Body

def Func.allSealed (f : Func) : Func :=
  { f with blocks := f.blocks.map fun b => { b with sealed := true } }

namespace Draft
variable {d : Draft} {cur : Nat}

theorem Open.ret (h : d.Open cur) {vs : List ValueNo}
    (hr : d.body.fn.HasTypes vs d.body.fn.sig.returns) :
    (d.ret (vs.map Int.ofNat)).1 = { d with body := d.body.append cur (.ret vs) [] } := by
  obtain ⟨old, hold, hopen⟩ := h.block
  have he : d.body.ret (vs.map Int.ofNat) = .ok (d.body.append cur (.ret vs) [], ()) := by
    rw [Body.ret, Body.arguments_eq _ hr]
    show d.body.emitNone (.ret vs) = _
    rw [Body.emitNone, Body.emit_eq h.current hold hopen]
    rfl
  rw [Draft.ret, attempt_of_ok h.fault h.done he]

theorem Ready.sealAll (h : d.Ready) :
    d.sealAll.1 = { d with body := { d.body with fn := d.body.fn.allSealed } } := by
  have he : d.body.sealAll = .ok ({ d.body with fn := d.body.fn.allSealed }, ()) := rfl
  rw [Draft.sealAll, attempt_of_ok h.fault h.done he]

theorem Ready.finish (h : d.Ready) (hv : d.body.fn.verify = .ok ()) :
    d.finish.2 = .ok d.body.fn := by
  have ho : d.obstacle = none := by
    rw [obstacle, h.fault, h.done]
    rfl
  rw [Draft.finish, ho]
  simp only [hv]

end Draft

theorem Body.returned_block {b : Body} {cur n : Nat} {vs : List ValueNo} {blk : Block}
    (h : (b.append cur (.ret vs) []).fn.allSealed.blocks[n]? = some blk) :
    ∃ c, b.fn.blocks[n]? = some c ∧ blk.params = c.params ∧ blk.preds = c.preds ∧
      blk.sealed = true ∧ (n ≠ cur → blk.steps = c.steps) ∧ (n = cur → blk.isClosed = true) := by
  have h : ((b.append cur (.ret vs) []).fn.blocks.map fun b => { b with sealed := true })[n]? =
      some blk := h
  rw [Array.getElem?_map, append_blocks, Option.map_map] at h
  obtain ⟨c, hc, rfl⟩ := Option.map_eq_some_iff.mp h
  refine ⟨c, hc, rfl, rfl, rfl, fun hn => if_neg (Ne.symm hn), fun hn => ?_⟩
  subst hn
  simp only [Function.comp_apply, if_true]
  exact isClosed_push _ _

/-- **The function of a draft is handed out**, once the open block has returned, if the other blocks
have ended and none goes back to the entry, which has the parameters of the function. -/
theorem Draft.Open.finish {d : Draft} {cur : Nat} (h : d.Open cur) (hs : d.body.Sound)
    (hc : d.body.Counted) {results : List Int} (hr : d.Has results d.body.fn.sig.returns)
    {entry : Block} (he : d.body.fn.blocks[0]? = some entry)
    (ht : d.body.fn.HasTypes entry.params.toList d.body.fn.sig.params)
    (hl : ∀ (n : Nat) blk, d.body.fn.blocks[n]? = some blk → n ≠ cur → Leaves blk.steps.toList) :
    ∃ f, (d.ret results).1.sealAll.1.finish.2 = .ok f := by
  obtain ⟨vs, rfl, hvs⟩ := hr
  obtain ⟨old, hold, hopen⟩ := h.block
  have hgrows := Body.grows_append d.body cur (.ret vs) []
  have hready : Ready { d with body := d.body.append cur (.ret vs) [] } := ⟨h.fault, h.done⟩
  -- the entry is still there, and it was never counted
  obtain ⟨entry', he'⟩ :
      ∃ blk, (d.body.append cur (.ret vs) []).fn.allSealed.blocks[0]? = some blk := by
    rw [Func.allSealed, Array.getElem?_map, Body.append_blocks, he]
    exact ⟨_, rfl⟩
  have hverify : (d.body.append cur (.ret vs) []).fn.allSealed.verify = .ok () := by
    obtain ⟨c, hc0, hps, hpreds, -⟩ := Body.returned_block he'
    obtain rfl := Option.some.inj (he.symm.trans hc0)
    refine Func.verify_eq_ok he' ?_ ?_ fun n blk hb => ?_
    · have htypes := ht.mono hgrows
      rw [← hgrows.sig] at htypes
      rw [hps]
      exact htypes
    · rw [hpreds, hc 0 entry he, List.countP_eq_zero]
      intro t htm
      simpa using hs.entryFree hold hopen hl t htm
    · obtain ⟨c, hcn, -, -, hsealed, hother, hcur⟩ := Body.returned_block hb
      refine ⟨hsealed, ?_⟩
      by_cases hn : n = cur
      · exact hcur hn
      · refine Leaves.closed ?_
        rw [hother hn]
        exact hl n c hcn hn
  rw [h.ret hvs, hready.sealAll]
  exact ⟨_, Ready.finish ⟨h.fault, h.done⟩ hverify⟩

end TreeJit.SSA
