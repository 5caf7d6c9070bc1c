import TreeJit.Proofs.SSA.Change

/-!
# Drafts are sound

`Body.Sound` is the invariant of construction: every value is defined once, every step fits the
function it stands in, every branch was counted where it goes, and only the last step of a block can
end it.  A parameter may still be added to a block with steps elsewhere, so a step stays typed only
because the blocks it goes to have been counted and take no parameters any more
(`Step.Fits.mono`).

* `Body.Sound.change`      every change keeps the invariant;
* `Func.WellFormed`        what the checks at the end make of it (`Draft.finish_wellFormed`).
-/

namespace TreeJit.SSA

/-! ## steps and blocks that fit -/

/-- a step is typed, and the blocks it goes to know of a branch -/
structure Step.Fits (f : Func) (s : Step) : Prop where
  typed : s.Typed f
  counted : ∀ t ∈ s.inst.targets, ∃ dest, f.blocks[t.block]? = some dest ∧ 0 < dest.preds

/-- `s` stands before `s'`: what `s` reads is older than what `s'` gives -/
def Step.Before (s s' : Step) : Prop := ∀ v ∈ s.inst.reads, ∀ r ∈ s'.results, v < r

/-- the steps of a block fit the function and each other -/
structure Block.Fits (f : Func) (blk : Block) : Prop where
  steps : ∀ s ∈ blk.steps.toList, s.Fits f
  /-- only the last step can end the block -/
  ended : ∀ s ∈ blk.steps.toList.dropLast, s.inst.isTerminator = false
  ordered : blk.steps.toList.Pairwise Step.Before
  apart : ∀ s ∈ blk.steps.toList, s.Before s

/-- what survives of the blocks when a function grows: a counted block keeps its parameters -/
structure Func.Carries (f g : Func) : Prop extends f.Grows g where
  blocks : ∀ (n : Nat) blk, f.blocks[n]? = some blk →
    ∃ blk', g.blocks[n]? = some blk' ∧ blk.preds ≤ blk'.preds ∧
      (0 < blk.preds → blk'.params = blk.params)

section
variable {f g : Func}

theorem Step.Fits.mono (h : f.Carries g) {s : Step} (hs : s.Fits f) : s.Fits g := by
  refine ⟨hs.typed.mono h.toGrows ?_, ?_⟩
  · intro t ht blk hb
    obtain ⟨dest, hd, h0⟩ := hs.counted t ht
    obtain rfl : blk = dest := Option.some.inj (hb.symm.trans hd)
    obtain ⟨blk', hb', -, hp⟩ := h.blocks _ _ hb
    exact ⟨blk', hb', hp h0⟩
  · intro t ht
    obtain ⟨dest, hd, h0⟩ := hs.counted t ht
    obtain ⟨dest', hd', hle, -⟩ := h.blocks _ _ hd
    exact ⟨dest', hd', Nat.lt_of_lt_of_le h0 hle⟩

theorem Block.Fits.mono (h : f.Carries g) {blk blk' : Block} (hb : blk.Fits f)
    (e : blk'.steps = blk.steps) : blk'.Fits g := by
  refine ⟨?_, ?_, ?_, ?_⟩
  · rw [e]
    exact fun s hs => (hb.steps s hs).mono h
  · rw [e]
    exact hb.ended
  · rw [e]
    exact hb.ordered
  · rw [e]
    exact hb.apart

theorem Block.Fits.empty {blk : Block} (e : blk.steps = #[]) : blk.Fits f := by
  constructor <;> simp [e]

theorem Block.Fits.open_steps {blk : Block} (hb : blk.Fits f) (ho : blk.isClosed = false) :
    ∀ s ∈ blk.steps.toList, s.inst.isTerminator = false := by
  intro s hs
  cases hl : blk.steps.back? with
  | none =>
    rw [Array.back?_eq_none_iff.mp hl] at hs
    cases hs
  | some l =>
    obtain ⟨ss, e⟩ := List.getLast?_eq_some_iff.mp ((Array.getLast?_toList _).trans hl)
    have hd := hb.ended
    rw [e, List.dropLast_concat] at hd
    rw [e, List.mem_append, List.mem_singleton] at hs
    rcases hs with hs | rfl
    · exact hd s hs
    · simpa [Block.isClosed, hl] using ho

theorem Block.Fits.push (h : f.Carries g) {blk blk' : Block} (hb : blk.Fits f)
    (ho : blk.isClosed = false) {s : Step} (e : blk'.steps = blk.steps.push s) (hs : s.Fits g)
    (hr : ∀ v ∈ s.inst.reads, v < f.values.size) (hn : ∀ r ∈ s.results, f.values.size ≤ r) :
    blk'.Fits g := by
  have el : blk'.steps.toList = blk.steps.toList ++ [s] := by rw [e, Array.toList_push]
  have hold : ∀ s' ∈ blk.steps.toList, s'.Before s := by
    intro s' hs' v hv r hr'
    obtain ⟨_, ht, -⟩ := (hb.steps s' hs').typed
    exact Nat.lt_of_lt_of_le (ht.reads_lt v hv) (hn r hr')
  have hself : s.Before s := fun v hv r hr' => Nat.lt_of_lt_of_le (hr v hv) (hn r hr')
  refine ⟨?_, ?_, ?_, ?_⟩
  · rw [el]
    intro s' hs'
    rcases List.mem_append.mp hs' with hs' | hs'
    · exact (hb.steps s' hs').mono h
    · rw [List.mem_singleton.mp hs']
      exact hs
  · rw [el, List.dropLast_concat]
    exact hb.open_steps ho
  · rw [el]
    refine List.pairwise_append.mpr ⟨hb.ordered, List.pairwise_singleton _ _, ?_⟩
    intro s' hs' s'' hs''
    rw [List.mem_singleton.mp hs'']
    exact hold s' hs'
  · rw [el]
    intro s' hs'
    rcases List.mem_append.mp hs' with hs' | hs'
    · exact hb.apart s' hs'
    · rw [List.mem_singleton.mp hs']
      exact hself

end

/-! ## the invariant -/

namespace Body

structure Sound (b : Body) : Prop where
  current : b.CurrentKnown
  sig : b.fn.sig.isValid = true
  defined : b.fn.definitions.Perm (List.range b.fn.values.size)
  valid : ∀ t ∈ b.fn.values.toList, t.isValid = true
  blocks : ∀ (n : Nat) blk, b.fn.blocks[n]? = some blk → blk.Fits b.fn
  slots : ∀ s ∈ b.fn.slots.toList, 0 < s.size ∧ s.align ∈ slotAligns
  imports : ∀ e ∈ b.fn.imports.toList, e.sig.isValid = true

end Body

theorem Func.mem_definitions {f : Func} {v : ValueNo} :
    v ∈ f.definitions ↔ ∃ (n : Nat) (blk : Block), f.blocks[n]? = some blk ∧ v ∈ blk.assigns := by
  unfold Func.definitions
  rw [List.mem_flatMap]
  constructor
  · rintro ⟨blk, hb, hv⟩
    obtain ⟨n, hn⟩ := List.mem_iff_getElem?.mp hb
    exact ⟨n, blk, by simpa using hn, hv⟩
  · rintro ⟨n, blk, hb, hv⟩
    exact ⟨blk, Array.mem_toList_iff.mpr (Array.mem_of_getElem? hb), hv⟩

namespace Body
variable {b b' : Body}

theorem Sound.paramsKnown (h : b.Sound) : b.ParamsKnown := by
  intro blk hb p hp
  obtain ⟨n, hn⟩ := Array.mem_iff_getElem?.mp hb
  have hd : p ∈ b.fn.definitions :=
    Func.mem_definitions.mpr ⟨n, blk, hn, List.mem_append_left _ (Array.mem_toList_iff.mpr hp)⟩
  exact List.mem_range.mp (h.defined.mem_iff.mp hd)

/-! ## lists of blocks -/

theorem flatMap_modify_perm {α β : Type} (g : α → List β) (f : α → α) (xs : List β) (l : List α)
    (n : Nat) (a : α) (h : l[n]? = some a) (hf : (g (f a)).Perm (g a ++ xs)) :
    ((l.modify n f).flatMap g).Perm (l.flatMap g ++ xs) := by
  induction l generalizing n with
  | nil => cases h
  | cons c l ih =>
    cases n with
    | zero =>
      cases h
      rw [List.modify_zero_cons, List.flatMap_cons, List.flatMap_cons, List.append_assoc]
      refine (hf.append_right _).trans ?_
      rw [List.append_assoc]
      exact List.perm_append_comm.append_left _
    | succ n =>
      rw [List.modify_succ_cons, List.flatMap_cons, List.flatMap_cons, List.append_assoc]
      exact (ih n h).append_left _

theorem flatMap_modify_eq {α β : Type} (g : α → List β) (f : α → α) (hf : ∀ a, g (f a) = g a)
    (l : List α) (n : Nat) : (l.modify n f).flatMap g = l.flatMap g := by
  induction l generalizing n with
  | nil => cases n <;> rfl
  | cons c l ih =>
    cases n with
    | zero => rw [List.modify_zero_cons, List.flatMap_cons, List.flatMap_cons, hf]
    | succ n => rw [List.modify_succ_cons, List.flatMap_cons, List.flatMap_cons, ih]

theorem definitions_mapBlock_perm {n : Nat} {blk : Block} (h : b.fn.blocks[n]? = some blk)
    (f : Block → Block) (xs : List ValueNo) (hf : (f blk).assigns.Perm (blk.assigns ++ xs)) :
    (b.mapBlock n f).fn.definitions.Perm (b.fn.definitions ++ xs) := by
  have hl : b.fn.blocks.toList[n]? = some blk := by simpa using h
  have e : (b.fn.blocks.modify n f).toList = b.fn.blocks.toList.modify n f := Array.toList_modify ..
  show ((b.fn.blocks.modify n f).toList.flatMap Block.assigns).Perm _
  rw [e]
  exact flatMap_modify_perm Block.assigns f xs _ n blk hl hf

theorem definitions_mapBlock_eq (n : Nat) (f : Block → Block)
    (hf : ∀ blk : Block, (f blk).assigns = blk.assigns) :
    (b.mapBlock n f).fn.definitions = b.fn.definitions := by
  have e : (b.fn.blocks.modify n f).toList = b.fn.blocks.toList.modify n f := Array.toList_modify ..
  show (b.fn.blocks.modify n f).toList.flatMap Block.assigns = _
  rw [e]
  exact flatMap_modify_eq Block.assigns f hf _ n

theorem definitions_foldl_countBranch (ts : List Target) (b : Body) :
    (ts.foldl countBranch b).fn.definitions = b.fn.definitions := by
  induction ts generalizing b with
  | nil => rfl
  | cons t ts ih =>
    rw [List.foldl_cons, ih, countBranch]
    exact definitions_mapBlock_eq _ _ fun _ => rfl

theorem foldl_countBranch (ts : List Target) (b : Body) :
    (∀ n : Nat, (ts.foldl countBranch b).fn.blocks[n]? = (b.fn.blocks[n]?).map fun blk =>
      { blk with preds := blk.preds + ts.countP fun t => t.block == n }) ∧
    ∃ bs, ts.foldl countBranch b = { b with fn := { b.fn with blocks := bs } } := by
  induction ts generalizing b with
  | nil => exact ⟨fun n => by simp, b.fn.blocks, rfl⟩
  | cons t ts ih =>
    obtain ⟨h1, bs, h2⟩ := ih (b.countBranch t)
    refine ⟨fun n => ?_, bs, ?_⟩
    · rw [List.foldl_cons, h1 n]
      show ((b.fn.blocks.modify t.block _)[n]?).map _ = _
      rw [Array.getElem?_modify]
      by_cases e : t.block = n
      · rw [if_pos e, Option.map_map]
        congr 1
        funext blk
        simp only [Function.comp_apply, List.countP_cons, e, beq_self_eq_true, if_true]
        rw [Nat.add_assoc, Nat.add_comm 1]
      · rw [if_neg e]
        congr 1
        funext blk
        simp [e]
    · rw [List.foldl_cons, h2]
      rfl

/-! ## an instruction -/

theorem append_eq (b : Body) (cur : Nat) (i : Inst) (ts : List Ty) :
    ∃ bs, b.append cur i ts =
      { b with fn := { b.fn with values := b.fn.values ++ ts, blocks := bs } } := by
  obtain ⟨-, bs, e⟩ := foldl_countBranch i.targets ((b.newValues ts).1.mapBlock cur fun blk =>
      { blk with steps := blk.steps.push ⟨i, (b.newValues ts).2⟩ })
  exact ⟨bs, e⟩

theorem append_blocks (b : Body) (cur : Nat) (i : Inst) (ts : List Ty) (n : Nat) :
    (b.append cur i ts).fn.blocks[n]? = (b.fn.blocks[n]?).map fun blk =>
      { blk with
        steps := if cur = n then blk.steps.push ⟨i, (b.newValues ts).2⟩ else blk.steps
        preds := blk.preds + i.targets.countP fun t => t.block == n } := by
  unfold append
  rw [(foldl_countBranch i.targets _).1 n]
  show ((b.fn.blocks.modify cur _)[n]?).map _ = _
  rw [Array.getElem?_modify]
  by_cases e : cur = n
  · rw [if_pos e, Option.map_map]
    simp only [if_pos e]
    rfl
  · rw [if_neg e]
    simp only [if_neg e]

theorem getElem?_appendList {α : Type} (xs : Array α) (l : List α) (k : Nat) :
    (xs ++ l)[k]? = (xs.toList ++ l)[k]? := by
  rw [← Array.getElem?_toList, Array.toList_appendList]

theorem definitions_append {cur : Nat} {blk : Block} {i : Inst} {ts : List Ty}
    (hb : b.fn.blocks[cur]? = some blk) :
    (b.append cur i ts).fn.definitions.Perm
      (b.fn.definitions ++ List.range' b.fn.values.size ts.length) := by
  unfold append
  rw [definitions_foldl_countBranch]
  refine definitions_mapBlock_perm (b := (b.newValues ts).1) hb _ _ (List.Perm.of_eq ?_)
  simp [Block.assigns, newValues]

theorem grows_append (b : Body) (cur : Nat) (i : Inst) (ts : List Ty) :
    b.fn.Grows (b.append cur i ts).fn := by
  obtain ⟨bs, e⟩ := append_eq b cur i ts
  rw [e]
  refine ⟨rfl, fun v t h => ?_, fun _ _ h => h, fun _ _ h => h⟩
  have hv := (Array.getElem?_eq_some_iff.mp h).1
  show (b.fn.values ++ ts)[v]? = some t
  rw [getElem?_appendList, List.getElem?_append_left hv, Array.getElem?_toList, h]

theorem carries_append (b : Body) (cur : Nat) (i : Inst) (ts : List Ty) :
    b.fn.Carries (b.append cur i ts).fn := by
  refine ⟨grows_append b cur i ts, fun n blk h => ?_⟩
  rw [append_blocks, h]
  exact ⟨_, rfl, Nat.le_add_right _ _, fun _ => rfl⟩

theorem hasTypes_results (b : Body) (cur : Nat) (i : Inst) (ts : List Ty) :
    (b.append cur i ts).fn.HasTypes (b.newValues ts).2 ts := by
  obtain ⟨bs, e⟩ := append_eq b cur i ts
  rw [e]
  refine List.ext_getElem? fun k => ?_
  simp only [newValues, List.getElem?_map]
  by_cases hk : k < ts.length
  · rw [List.getElem?_range' hk, Option.map_some, getElem?_appendList,
      List.getElem?_append_right (by simp), List.getElem?_eq_getElem hk]
    simp [hk]
  · rw [List.getElem?_eq_none (by simpa using hk), List.getElem?_eq_none (by simpa using hk)]
    rfl

theorem range_append (n k : Nat) : List.range n ++ List.range' n k = List.range (n + k) := by
  rw [List.range_eq_range', List.range_eq_range']
  have h := List.range'_append_1 (s := 0) (m := n) (n := k)
  rwa [Nat.zero_add] at h

theorem counted_append {cur : Nat} {i : Inst} {ts : List Ty} (ht : i.Typed b.fn ts) :
    ∀ t ∈ i.targets, ∃ dest, (b.append cur i ts).fn.blocks[t.block]? = some dest ∧
      0 < dest.preds := by
  intro t htm
  have hs : b.fn.Supplies t := by
    cases i with
    | jump u => rw [List.mem_singleton.mp htm]; exact ht.1
    | brif _ _ yes no =>
      obtain ⟨-, -, hy, hn, -⟩ := ht
      rcases List.mem_cons.mp htm with rfl | htm
      · exact hy
      · rw [List.mem_singleton.mp htm]
        exact hn
    | _ => cases htm
  obtain ⟨dest, _, hd, -, -⟩ := hs
  have hc : 0 < i.targets.countP fun u => u.block == t.block :=
    List.countP_pos_iff.mpr ⟨t, htm, by simp⟩
  refine ⟨_, by rw [append_blocks, hd]; rfl, Nat.lt_of_lt_of_le hc (Nat.le_add_left _ _)⟩

theorem Sound.valid_of_hasTypes (h : b.Sound) {vs : List ValueNo} {ts : List Ty}
    (ht : b.fn.HasTypes vs ts) : ∀ t ∈ ts, t.isValid = true := by
  intro t htm
  have hm : some t ∈ vs.map fun v => b.fn.values[v]? := by
    rw [show vs.map (fun v => b.fn.values[v]?) = ts.map some from ht]
    exact List.mem_map_of_mem htm
  obtain ⟨v, -, hv⟩ := List.mem_map.mp hm
  exact h.valid t (Array.mem_toList_iff.mpr (Array.mem_of_getElem? hv))

theorem Sound.results_valid (h : b.Sound) {i : Inst} {ts : List Ty} (ht : i.Typed b.fn ts) :
    ∀ t ∈ ts, t.isValid = true := by
  cases i with
  | iconst t _ | fconst t _ =>
    obtain ⟨h1, -, rfl⟩ := ht
    cases t <;> first | decide | cases h1
  | binary op t x y =>
    obtain ⟨-, h2, rfl⟩ := ht
    exact fun u hu => h.valid_of_hasTypes h2 u (List.mem_cons_of_mem _ hu)
  | icmp =>
    obtain ⟨-, -, rfl⟩ := ht
    decide
  | fcmp c t x y =>
    obtain ⟨-, -, rfl⟩ := ht
    unfold fcmpResult
    split <;> decide
  | splat t x =>
    obtain ⟨h1, -, rfl⟩ := ht
    cases t <;> first | decide | cases h1
  | extractLane t x l =>
    obtain ⟨h1, -, -, rfl⟩ := ht
    cases t <;> first | decide | cases h1
  | load t p off | stackLoad t s off =>
    obtain ⟨h1, -, rfl⟩ := ht
    simpa using h1
  | stackAddr s off =>
    obtain ⟨-, rfl⟩ := ht
    decide
  | call fn args =>
    obtain ⟨ext, he, -, rfl⟩ := ht
    have hs := h.imports ext (Array.mem_toList_iff.mpr (Array.mem_of_getElem? he))
    rw [Signature.isValid, Bool.and_eq_true] at hs
    exact fun t htm => List.all_eq_true.mp hs.2 t htm
  | store | jump | ret =>
    obtain ⟨-, rfl⟩ := ht
    exact nofun
  | stackStore =>
    obtain ⟨-, -, rfl⟩ := ht
    exact nofun
  | brif =>
    obtain ⟨-, -, -, -, rfl⟩ := ht
    exact nofun

/-- **An instruction keeps a body sound.** -/
theorem Sound.append (h : b.Sound) {cur : Nat} {blk : Block} {i : Inst} {ts : List Ty}
    (hc : b.current = some cur) (hb : b.fn.blocks[cur]? = some blk) (ho : blk.isClosed = false)
    (ht : i.Typed b.fn ts) : (b.append cur i ts).Sound := by
  obtain ⟨bs, e⟩ := append_eq b cur i ts
  have hcar := carries_append b cur i ts
  have hfit : (Step.mk i (b.newValues ts).2).Fits (b.append cur i ts).fn := by
    refine ⟨⟨ts, ht.mono hcar.toGrows ?_, hasTypes_results b cur i ts⟩, counted_append ht⟩
    intro t _ d hd
    rw [append_blocks, hd]
    exact ⟨_, rfl, rfl⟩
  refine ⟨?_, ?_, ?_, ?_, ?_, ?_, ?_⟩
  · intro c hcc
    rw [e] at hcc
    obtain rfl : c = cur := Option.some.inj (hcc.symm.trans hc)
    obtain ⟨_, hg, -⟩ := hcar.blocks _ _ hb
    exact (Array.getElem?_eq_some_iff.mp hg).1
  · rw [e]
    exact h.sig
  · refine (definitions_append hb).trans ?_
    have hs : (b.append cur i ts).fn.values.size = b.fn.values.size + ts.length := by
      rw [e, ← Array.length_toList, ← Array.length_toList, ← List.length_append]
      exact congrArg List.length (Array.toList_appendList ..)
    rw [hs, ← range_append]
    exact h.defined.append_right _
  · rw [e]
    intro t htm
    rw [show ({ b.fn with values := b.fn.values ++ ts, blocks := bs } : Func).values.toList =
      b.fn.values.toList ++ ts from Array.toList_appendList ..] at htm
    rcases List.mem_append.mp htm with htm | htm
    · exact h.valid t htm
    · exact h.results_valid ht t htm
  · intro n blk' hb'
    rw [append_blocks] at hb'
    obtain ⟨old, hold, rfl⟩ := Option.map_eq_some_iff.mp hb'
    by_cases en : cur = n
    · subst en
      obtain rfl : old = blk := Option.some.inj (hold.symm.trans hb)
      refine (h.blocks _ _ hold).push hcar ho (if_pos rfl) hfit ht.reads_lt ?_
      intro r hr
      exact (List.mem_range'_1.mp hr).1
    · exact (h.blocks _ _ hold).mono hcar (if_neg en)
  · rw [e]
    exact h.slots
  · rw [e]
    exact h.imports

/-! ## the other changes -/

theorem getElem?_push_of_some {α : Type} {xs : Array α} {n : Nat} {x y : α}
    (h : xs[n]? = some x) : (xs.push y)[n]? = some x := by
  rw [Array.getElem?_push, if_neg (Nat.ne_of_lt (Array.getElem?_eq_some_iff.mp h).1), h]

theorem Sound.blocks_of_carries (h : b.Sound) (hcar : b.fn.Carries b'.fn)
    (hs : ∀ (n : Nat) blk', b'.fn.blocks[n]? = some blk' →
      blk'.steps = #[] ∨ ∃ blk, b.fn.blocks[n]? = some blk ∧ blk'.steps = blk.steps) :
    ∀ (n : Nat) blk', b'.fn.blocks[n]? = some blk' → blk'.Fits b'.fn := by
  intro n blk' hb'
  rcases hs n blk' hb' with e | ⟨blk, hb, e⟩
  · exact .empty e
  · exact (h.blocks n blk hb).mono hcar e

theorem carries_of_blocks_eq {f g : Func} (h : f.Grows g) (e : g.blocks = f.blocks) :
    f.Carries g := by
  refine ⟨h, fun n blk hb => ⟨blk, ?_, Nat.le_refl _, fun _ => rfl⟩⟩
  rw [e]
  exact hb

theorem Sound.block (h : b.Sound) :
    Sound { b with fn := { b.fn with blocks := b.fn.blocks.push {} } } := by
  have hcar : b.fn.Carries { b.fn with blocks := b.fn.blocks.push {} } := by
    refine ⟨⟨rfl, fun _ _ hv => hv, fun _ _ hs => hs, fun _ _ hi => hi⟩, fun n blk hb => ?_⟩
    have hn := (Array.getElem?_eq_some_iff.mp hb).1
    refine ⟨blk, ?_, Nat.le_refl _, fun _ => rfl⟩
    show (b.fn.blocks.push {})[n]? = some blk
    rw [Array.getElem?_push, if_neg (Nat.ne_of_lt hn), hb]
  refine ⟨?_, h.sig, ?_, h.valid, h.blocks_of_carries hcar ?_, h.slots, h.imports⟩
  · intro c hc
    show c < (b.fn.blocks.push {}).size
    rw [Array.size_push]
    exact Nat.lt_succ_of_lt (h.current c hc)
  · refine List.Perm.trans (List.Perm.of_eq ?_) h.defined
    simp [Func.definitions, Block.assigns]
  · intro n blk' hb'
    change (b.fn.blocks.push {})[n]? = some blk' at hb'
    rw [Array.getElem?_push] at hb'
    split at hb'
    · cases hb'
      exact .inl rfl
    · exact .inr ⟨blk', hb', rfl⟩

theorem Sound.mapBlocks (h : b.Sound) {bs : Array Block} {g : Nat → Block → Block}
    (hbs : ∀ n : Nat, bs[n]? = (b.fn.blocks[n]?).map (g n))
    (hg : ∀ n blk, ∃ s, g n blk = { blk with sealed := s })
    (hd : bs.toList.flatMap Block.assigns = b.fn.definitions) :
    Sound { b with fn := { b.fn with blocks := bs } } := by
  have hcar : b.fn.Carries { b.fn with blocks := bs } := by
    refine ⟨⟨rfl, fun _ _ hv => hv, fun _ _ hs => hs, fun _ _ hi => hi⟩, fun n blk hb => ?_⟩
    obtain ⟨s, e⟩ := hg n blk
    refine ⟨{ blk with sealed := s }, ?_, Nat.le_refl _, fun _ => rfl⟩
    show bs[n]? = _
    rw [hbs n, hb, Option.map_some, e]
  refine ⟨?_, h.sig, ?_, h.valid, h.blocks_of_carries hcar ?_, h.slots, h.imports⟩
  · intro c hc
    obtain ⟨_, hg', -⟩ := hcar.blocks c _ (Array.getElem?_eq_getElem (h.current c hc))
    exact (Array.getElem?_eq_some_iff.mp hg').1
  · show (bs.toList.flatMap Block.assigns).Perm _
    rw [hd]
    exact h.defined
  · intro n blk' hb'
    change bs[n]? = some blk' at hb'
    rw [hbs n] at hb'
    obtain ⟨blk, hb, rfl⟩ := Option.map_eq_some_iff.mp hb'
    obtain ⟨s, e⟩ := hg n blk
    exact .inr ⟨blk, hb, by rw [e]⟩

theorem Sound.sealOne (h : b.Sound) (n : Nat) :
    (b.mapBlock n fun d => { d with sealed := true }).Sound := by
  refine h.mapBlocks (g := fun k blk => if n = k then { blk with sealed := true } else blk)
    (fun k => ?_) (fun k blk => ?_) ?_
  · rw [Array.getElem?_modify]
    by_cases e : n = k
    · simp only [if_pos e]
    · simp only [if_neg e, Option.map_id']
  · by_cases e : n = k
    · exact ⟨true, if_pos e⟩
    · exact ⟨blk.sealed, if_neg e⟩
  · exact definitions_mapBlock_eq n _ fun _ => rfl

theorem Sound.sealAll (h : b.Sound) :
    Sound { b with fn := { b.fn with blocks := b.fn.blocks.map fun d => { d with sealed := true } } } := by
  refine h.mapBlocks (g := fun _ blk => { blk with sealed := true })
    (fun k => Array.getElem?_map ..) (fun k blk => ⟨true, rfl⟩) ?_
  rw [Array.toList_map, List.flatMap_map]
  rfl

/-- a parameter is added to a block before it is counted, so no step notices -/
theorem Sound.addParam (h : b.Sound) {n : Nat} {t : Ty} {blk : Block}
    (hb : b.fn.blocks[n]? = some blk) (hp : blk.preds = 0) (ht : t.isValid = true) :
    (b.addParam n t).Sound := by
  have hblocks : ∀ k : Nat, (b.addParam n t).fn.blocks[k]? = if n = k then
      (b.fn.blocks[k]?).map fun d => { d with params := d.params.push b.fn.values.size }
      else b.fn.blocks[k]? := fun k => Array.getElem?_modify
  have hcar : b.fn.Carries (b.addParam n t).fn := by
    refine ⟨⟨rfl, fun v u hv => ?_, fun _ _ hs => hs, fun _ _ hi => hi⟩, fun k d hd => ?_⟩
    · have hlt := (Array.getElem?_eq_some_iff.mp hv).1
      show (b.fn.values ++ [t])[v]? = some u
      rw [getElem?_appendList, List.getElem?_append_left hlt, Array.getElem?_toList, hv]
    · rw [hblocks k, hd]
      by_cases e : n = k
      · rw [if_pos e]
        subst e
        obtain rfl : d = blk := Option.some.inj (hd.symm.trans hb)
        exact ⟨_, rfl, Nat.le_refl _, fun h0 => absurd h0 (by omega)⟩
      · rw [if_neg e]
        exact ⟨d, rfl, Nat.le_refl _, fun _ => rfl⟩
  refine ⟨?_, h.sig, ?_, ?_, h.blocks_of_carries hcar ?_, h.slots, h.imports⟩
  · intro c hc
    obtain ⟨_, hg, -⟩ := hcar.blocks c _ (Array.getElem?_eq_getElem (h.current c hc))
    exact (Array.getElem?_eq_some_iff.mp hg).1
  · refine (definitions_mapBlock_perm (b := (b.newValues [t]).1) hb _ [b.fn.values.size]
      ?_).trans ?_
    · simp only [Block.assigns, Array.toList_push, List.append_assoc]
      exact List.perm_append_comm.append_left _
    · have hs : (b.fn.values ++ [t]).size = b.fn.values.size + 1 := by
        rw [← Array.length_toList, Array.toList_appendList, List.length_append]
        rfl
      show (b.fn.definitions ++ [b.fn.values.size]).Perm (List.range (b.fn.values ++ [t]).size)
      rw [hs, List.range_succ]
      exact h.defined.append_right _
  · intro u hu
    change u ∈ (b.fn.values ++ [t]).toList at hu
    rw [Array.toList_appendList] at hu
    rcases List.mem_append.mp hu with hu | hu
    · exact h.valid u hu
    · rw [List.mem_singleton.mp hu]
      exact ht
  · intro k blk' hb'
    rw [hblocks k] at hb'
    split at hb'
    · obtain ⟨d, hd, rfl⟩ := Option.map_eq_some_iff.mp hb'
      exact .inr ⟨d, hd, rfl⟩
    · exact .inr ⟨blk', hb', rfl⟩

theorem Sound.slot (h : b.Sound) {d : Slot} (hs : 0 < d.size) (ha : d.align ∈ slotAligns) :
    Sound { b with fn := { b.fn with slots := b.fn.slots.push d } } := by
  have hcar : b.fn.Carries { b.fn with slots := b.fn.slots.push d } :=
    carries_of_blocks_eq ⟨rfl, fun _ _ hv => hv, fun _ _ => getElem?_push_of_some,
      fun _ _ hi => hi⟩ rfl
  refine ⟨h.current, h.sig, h.defined, h.valid,
    h.blocks_of_carries hcar fun n blk hb => .inr ⟨blk, hb, rfl⟩, ?_, h.imports⟩
  intro s hm
  rw [Array.toList_push] at hm
  rcases List.mem_append.mp hm with hm | hm
  · exact h.slots s hm
  · rw [List.mem_singleton.mp hm]
    exact ⟨hs, ha⟩

theorem Sound.ext (h : b.Sound) {d : Import} (hd : d.sig.isValid = true) :
    Sound { b with fn := { b.fn with imports := b.fn.imports.push d } } := by
  have hcar : b.fn.Carries { b.fn with imports := b.fn.imports.push d } :=
    carries_of_blocks_eq ⟨rfl, fun _ _ hv => hv, fun _ _ hs => hs,
      fun _ _ => getElem?_push_of_some⟩ rfl
  refine ⟨h.current, h.sig, h.defined, h.valid,
    h.blocks_of_carries hcar fun n blk hb => .inr ⟨blk, hb, rfl⟩, h.slots, ?_⟩
  intro e hm
  rw [Array.toList_push] at hm
  rcases List.mem_append.mp hm with hm | hm
  · exact h.imports e hm
  · rw [List.mem_singleton.mp hm]
    exact hd

/-- **Every change keeps a body sound.** -/
theorem Sound.change (h : b.Sound) (hc : b.Change b') : b'.Sound := by
  cases hc with
  | block => exact h.block
  | switch hn =>
    refine ⟨fun c hc => ?_, h.sig, h.defined, h.valid, h.blocks, h.slots, h.imports⟩
    rw [← Option.some.inj hc]
    exact hn
  | param hb hp ht => exact h.addParam hb hp ht
  | sealOne hn => exact h.sealOne _
  | sealAll => exact h.sealAll
  | slot hs ha => exact h.slot hs ha
  | ext he _ => exact h.ext he
  | step hcur hb ho ht => exact h.append hcur hb ho ht

end Body

end TreeJit.SSA
