import TreeJit.Proofs.SSA.Straight

/-!
# Calls stay

A step that was written is never taken back, and an import keeps its number, its name and its
signature.  So a call that is in a body once is in every function the body becomes.

* `Func.Calls f s e`     the step `s` of `f` calls the import `e`;
* `Change.calls`         which every change keeps;
* `Writes.calls`         a call that is written is there.
-/

namespace TreeJit.SSA

structure Func.Calls (f : Func) (s : Step) (e : Import) : Prop where
  step : s ∈ f.steps
  target : ∃ ref args, s.inst = .call ref args ∧ f.imports[ref]? = some e

theorem Func.mem_steps {f : Func} {s : Step} :
    s ∈ f.steps ↔ ∃ (n : Nat) (blk : Block), f.blocks[n]? = some blk ∧ s ∈ blk.steps.toList := by
  rw [Func.steps, List.mem_flatMap]
  constructor
  · rintro ⟨blk, hb, hs⟩
    obtain ⟨n, hn⟩ := List.mem_iff_getElem?.mp hb
    exact ⟨n, blk, by rwa [Array.getElem?_toList] at hn, hs⟩
  · rintro ⟨n, blk, hb, hs⟩
    exact ⟨blk, Array.mem_toList_iff.mpr (Array.mem_of_getElem? hb), hs⟩

namespace Body
variable {b b' : Body} {s : Step} {e : Import}

theorem steps_mapBlock (n : Nat) (f : Block → Block) (hf : ∀ blk : Block, (f blk).steps = blk.steps) :
    (b.mapBlock n f).fn.steps = b.fn.steps := by
  have e : (b.fn.blocks.modify n f).toList = b.fn.blocks.toList.modify n f := Array.toList_modify ..
  show (b.fn.blocks.modify n f).toList.flatMap (fun blk => blk.steps.toList) = _
  rw [e]
  exact flatMap_modify_eq _ f (fun blk => congrArg Array.toList (hf blk)) _ n

/-- **A step that was written stays.** -/
theorem Change.mem_steps (h : b.Change b') (hs : s ∈ b.fn.steps) : s ∈ b'.fn.steps := by
  cases h with
  | block =>
    obtain ⟨n, blk, hb, hs⟩ := Func.mem_steps.mp hs
    exact Func.mem_steps.mpr ⟨n, blk, getElem?_push_of_some hb, hs⟩
  | param =>
    rw [addParam, steps_mapBlock _ _ (by exact fun _ => rfl)]
    exact hs
  | sealOne =>
    rw [steps_mapBlock _ _ (by exact fun _ => rfl)]
    exact hs
  | sealAll =>
    obtain ⟨n, blk, hb, hs⟩ := Func.mem_steps.mp hs
    refine Func.mem_steps.mpr ⟨n, { blk with sealed := true }, ?_, hs⟩
    show (b.fn.blocks.map _)[n]? = _
    rw [Array.getElem?_map, hb, Option.map_some]
  | step =>
    obtain ⟨n, blk, hb, hs⟩ := Func.mem_steps.mp hs
    refine Func.mem_steps.mpr ⟨n, _, (append_blocks b _ _ _ n).trans (by rw [hb, Option.map_some]), ?_⟩
    dsimp only
    split
    · rw [Array.toList_push]
      exact List.mem_append_left _ hs
    · exact hs
  | switch | slot | ext => exact hs

theorem Change.imports (h : b.Change b') {ref : Nat} (he : b.fn.imports[ref]? = some e) :
    b'.fn.imports[ref]? = some e := by
  cases h with
  | ext => exact getElem?_push_of_some he
  | step =>
    obtain ⟨bs, eq⟩ := append_eq b _ _ _
    rw [eq]
    exact he
  | _ => exact he

/-- **A call stays.** -/
theorem Change.calls (h : b.Change b') (hc : b.fn.Calls s e) : b'.fn.Calls s e := by
  obtain ⟨ref, args, hi, he⟩ := hc.target
  exact ⟨h.mem_steps hc.step, ref, args, hi, h.imports he⟩

theorem kept_calls (s : Step) (e : Import) : Draft.Kept fun b => b.Sound ∧ b.fn.Calls s e where
  current _ h := h.1.current
  params _ h := h.1.paramsKnown
  step _ _ h hc := ⟨h.1.change hc, hc.calls h.2⟩

theorem mem_steps_code {f : Func} : s ∈ f.steps ↔ ∃ p ∈ f.code, s ∈ p.2 := by
  rw [Func.steps, List.mem_flatMap, Func.code]
  constructor
  · rintro ⟨blk, hb, hs⟩
    exact ⟨_, List.mem_map_of_mem hb, hs⟩
  · rintro ⟨p, hp, hs⟩
    obtain ⟨blk, hb, rfl⟩ := List.mem_map.mp hp
    exact ⟨blk, hb, hs⟩

theorem Writes.mem_steps {ss : List Step} (h : b.Writes b' ss) (hk : b.CurrentKnown) (hs : s ∈ ss) :
    s ∈ b'.fn.steps := by
  obtain ⟨cur, hc, e⟩ := h.known
  have hlt : cur < b.fn.code.length := by
    rw [Func.code, List.length_map, Array.length_toList]
    exact hk cur hc
  have hget : b'.fn.code[cur]? = some (b.fn.code[cur].1, b.fn.code[cur].2 ++ ss) := by
    rw [e, writeAt, List.getElem?_modify_eq, List.getElem?_eq_getElem hlt]
    rfl
  exact mem_steps_code.mpr ⟨_, List.mem_of_getElem? hget, List.mem_append_right _ hs⟩

theorem Writes.calls {ref : Nat} {args results : List ValueNo}
    (h : b.Writes b' [⟨.call ref args, results⟩]) (hk : b.CurrentKnown)
    (he : b'.fn.imports[ref]? = some e) : b'.fn.Calls ⟨.call ref args, results⟩ e :=
  ⟨h.mem_steps hk List.mem_cons_self, ref, args, rfl, he⟩

end Body

end TreeJit.SSA
