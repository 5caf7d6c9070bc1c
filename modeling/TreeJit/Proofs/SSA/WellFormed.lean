import TreeJit.Proofs.SSA.Sound

/-!
# What is handed out is well formed

`Func.WellFormed` is what code generation relies on without looking: numbers of values, blocks,
slots and imports that exist, operands and results of the right types, branches that pass what the
parameters ask for, and blocks that end once, at their end.  `Draft.finish` hands out no other
functions, whatever the operations before it were (`Draft.finish_wellFormed`): the invariant of
construction (`Body.Sound`) and the checks at the end (`Func.verify`) give it together.
-/

namespace TreeJit.SSA

structure Func.WellFormed (f : Func) : Prop where
  /-- every value is one parameter of one block or one result of one step -/
  defined : f.definitions.Perm (List.range f.values.size)
  valid : ∀ t ∈ f.values.toList, t.isValid = true
  /-- operands, results, branches, calls, returns and slot accesses fit -/
  typed : ∀ (n : Nat) blk, f.blocks[n]? = some blk → ∀ s ∈ blk.steps.toList, s.Typed f
  /-- what a step reads is older than what it or a later step of its block gives -/
  ordered : ∀ (n : Nat) blk, f.blocks[n]? = some blk → blk.steps.toList.Pairwise Step.Before
  apart : ∀ (n : Nat) blk, f.blocks[n]? = some blk → ∀ s ∈ blk.steps.toList, s.Before s
  sealed : ∀ (n : Nat) blk, f.blocks[n]? = some blk → blk.sealed = true
  /-- a block has one terminator, its last step -/
  ended : ∀ (n : Nat) blk, f.blocks[n]? = some blk → ∃ ss s, blk.steps.toList = ss ++ [s] ∧
    s.inst.isTerminator = true ∧ ∀ s' ∈ ss, s'.inst.isTerminator = false
  /-- the entry block takes the parameters of the function -/
  entry : ∃ blk, f.blocks[0]? = some blk ∧ f.HasTypes blk.params.toList f.sig.params
  /-- no branch goes to the entry block -/
  entryFree : ∀ (n : Nat) blk, f.blocks[n]? = some blk → ∀ s ∈ blk.steps.toList,
    ∀ t ∈ s.inst.targets, t.block ≠ 0
  sig : f.sig.isValid = true
  slots : ∀ s ∈ f.slots.toList, 0 < s.size ∧ s.align ∈ Body.slotAligns
  imports : ∀ e ∈ f.imports.toList, e.sig.isValid = true

/-! ## the checks at the end -/

theorem checkBlocks_ok {fn : String} {i : Nat} {bs : List Block} {u : Unit}
    (h : checkBlocks fn i bs = .ok u) : ∀ b ∈ bs, b.sealed = true ∧ b.isClosed = true := by
  induction bs generalizing i with
  | nil => exact nofun
  | cons b bs ih =>
    obtain ⟨_, hs, h⟩ := bind_eq_ok.mp h
    obtain ⟨_, hc, h⟩ := bind_eq_ok.mp h
    intro b' hb'
    rcases List.mem_cons.mp hb' with rfl | hb'
    · exact ⟨require_eq_ok.mp hs, require_eq_ok.mp hc⟩
    · exact ih h b' hb'

theorem checkEntry_ok {f : Func} {i : Nat} {ps : List ValueNo} {ts : List Ty} {u : Unit}
    (hl : ps.length = ts.length) (hp : ∀ p ∈ ps, p < f.values.size)
    (h : checkEntry f i ps ts = .ok u) : f.HasTypes ps ts := by
  induction ps generalizing i ts with
  | nil =>
    cases ts with
    | nil => exact .nil
    | cons => cases hl
  | cons p ps ih =>
    cases ts with
    | nil => cases hl
    | cons t ts =>
      unfold checkEntry at h
      split at h
      · rename_i ht
        have hp0 := hp p List.mem_cons_self
        have hn : ¬ ((p : Int) < 0) := by omega
        refine Func.HasTypes.cons_iff.mpr ⟨?_, ?_⟩
        · rw [← ht]
          simp [Func.typeOf, hn, hp0]
        · exact ih (Nat.succ.inj hl) (fun q hq => hp q (List.mem_cons_of_mem _ hq)) h
      · cases h

theorem Func.verify_ok {f : Func} {u : Unit} (h : f.verify = .ok u)
    (hp : ∀ blk ∈ f.blocks, ∀ p ∈ blk.params, p < f.values.size) :
    (∃ blk, f.blocks[0]? = some blk ∧ f.HasTypes blk.params.toList f.sig.params ∧ blk.preds = 0) ∧
      ∀ (n : Nat) blk, f.blocks[n]? = some blk → blk.sealed = true ∧ blk.isClosed = true := by
  unfold Func.verify at h
  split at h
  · cases h
  · rename_i entry he
    obtain ⟨_, hn, h⟩ := bind_eq_ok.mp h
    obtain ⟨_, hc, h⟩ := bind_eq_ok.mp h
    obtain ⟨_, h0, h⟩ := bind_eq_ok.mp h
    have hlen : entry.params.toList.length = f.sig.params.length := by
      simpa using require_eq_ok.mp hn
    have hps : ∀ p ∈ entry.params.toList, p < f.values.size := fun p hpm =>
      hp entry (Array.mem_of_getElem? he) p (Array.mem_toList_iff.mp hpm)
    refine ⟨⟨entry, he, checkEntry_ok hlen hps hc, by simpa using require_eq_ok.mp h0⟩, ?_⟩
    intro n blk hb
    exact checkBlocks_ok h blk (Array.mem_toList_iff.mpr (Array.mem_of_getElem? hb))

/-! ## from the invariant to well-formedness -/

theorem Block.Fits.split_of_closed {f : Func} {blk : Block} (h : blk.Fits f)
    (hc : blk.isClosed = true) : ∃ ss s, blk.steps.toList = ss ++ [s] ∧
      s.inst.isTerminator = true ∧ ∀ s' ∈ ss, s'.inst.isTerminator = false := by
  unfold Block.isClosed at hc
  split at hc
  · rename_i s hs
    obtain ⟨ss, e⟩ := List.getLast?_eq_some_iff.mp ((Array.getLast?_toList _).trans hs)
    have hd := h.ended
    rw [e, List.dropLast_concat] at hd
    exact ⟨ss, s, e, hc, hd⟩
  · cases hc

theorem Body.Sound.wellFormed {b : Body} (h : b.Sound) {u : Unit} (hv : b.fn.verify = .ok u) :
    b.fn.WellFormed := by
  obtain ⟨⟨entry, he, ht, h0⟩, hb⟩ := Func.verify_ok hv h.paramsKnown
  refine ⟨h.defined, h.valid, ?_, ?_, ?_, ?_, ?_, ⟨entry, he, ht⟩, ?_, h.sig, h.slots, h.imports⟩
  · exact fun n blk hn s hs => ((h.blocks n blk hn).steps s hs).typed
  · exact fun n blk hn => (h.blocks n blk hn).ordered
  · exact fun n blk hn => (h.blocks n blk hn).apart
  · exact fun n blk hn => (hb n blk hn).1
  · exact fun n blk hn => (h.blocks n blk hn).split_of_closed (hb n blk hn).2
  · -- the entry block was never counted, and every target is
    intro n blk hn s hs t htm e
    obtain ⟨dest, hd, hpos⟩ := ((h.blocks n blk hn).steps s hs).counted t htm
    rw [e, he] at hd
    cases hd
    omega

theorem Body.Change.same {b b' : Body} (h : b.Change b') :
    b'.fn.name = b.fn.name ∧ b'.fn.sig = b.fn.sig := by
  cases h with
  | step =>
    obtain ⟨bs, e⟩ := Body.append_eq b _ _ _
    rw [e]
    exact ⟨rfl, rfl⟩
  | _ => exact ⟨rfl, rfl⟩

/-- a sound body of a function with this name and signature -/
def Body.SoundFor (name : String) (sig : Signature) (b : Body) : Prop :=
  b.Sound ∧ b.fn.name = name ∧ b.fn.sig = sig

theorem Body.kept_soundFor (name : String) (sig : Signature) :
    Draft.Kept (Body.SoundFor name sig) where
  current _ h := h.1.current
  params _ h := h.1.paramsKnown
  step b b' h hc := by
    obtain ⟨hn, hs⟩ := hc.same
    exact ⟨h.1.change hc, hn.trans h.2.1, hs.trans h.2.2⟩

theorem Draft.holds_new (name : String) (sig : Signature) :
    (Draft.new name sig).Holds (Body.SoundFor name sig) := by
  intro hf
  have hc : sig.check = .ok () := by
    unfold Draft.new at hf
    cases h : sig.check with
    | ok u => rfl
    | error e => simp [h] at hf
  refine ⟨⟨nofun, (Signature.check_eq_ok_iff sig).mp hc, .nil, ?_, ?_, ?_, ?_⟩, rfl, rfl⟩
  · simp [Draft.new]
  · intro n blk hb
    simp [Draft.new] at hb
  · simp [Draft.new]
  · simp [Draft.new]

theorem Draft.sound_of_finish {name : String} {sig : Signature} {as : List Action} {f : Func}
    (h : ((Draft.new name sig).perform as).finish.2 = .ok f) :
    f.name = name ∧ f.sig = sig ∧ f.WellFormed := by
  obtain ⟨hf, rfl, hv⟩ := Draft.finish_ok h
  obtain ⟨hs, hn, hg⟩ := Draft.holds_perform (Body.kept_soundFor name sig) as
    (Draft.holds_new name sig) hf
  exact ⟨hn, hg, hs.wellFormed hv⟩

def Func.ImportsNamed (f : Func) : Prop := ∀ e ∈ f.imports.toList, e.name ≠ ""

theorem Body.Change.importsNamed {b b' : Body} (h : b.Change b') (hn : b.fn.ImportsNamed) :
    b'.fn.ImportsNamed := by
  cases h with
  | ext _ he =>
    intro e hm
    rw [Array.toList_push] at hm
    rcases List.mem_append.mp hm with hm | hm
    · exact hn e hm
    · rw [List.mem_singleton.mp hm]
      exact he
  | step =>
    obtain ⟨bs, e⟩ := Body.append_eq b _ _ _
    rw [e]
    exact hn
  | _ => exact hn

theorem Draft.importsNamed_of_finish {name : String} {sig : Signature} {as : List Action} {f : Func}
    (h : ((Draft.new name sig).perform as).finish.2 = .ok f) : f.ImportsNamed := by
  have hkept : Draft.Kept fun b => b.Sound ∧ b.fn.ImportsNamed :=
    ⟨fun _ h => h.1.current, fun _ h => h.1.paramsKnown,
      fun _ _ h hc => ⟨h.1.change hc, hc.importsNamed h.2⟩⟩
  have hnew : (Draft.new name sig).Holds fun b => b.Sound ∧ b.fn.ImportsNamed :=
    fun hf => ⟨(Draft.holds_new name sig hf).1, nofun⟩
  obtain ⟨hf, rfl, -⟩ := Draft.finish_ok h
  exact (Draft.holds_perform hkept as hnew hf).2

/-- **Whatever the operations were, a function that is handed out is well formed** and has the name
and the signature it was begun with. -/
theorem Draft.finish_wellFormed (name : String) (sig : Signature) (as : List Action) (f : Func)
    (h : ((Draft.new name sig).perform as).finish.2 = .ok f) :
    f.name = name ∧ f.sig = sig ∧ f.WellFormed :=
  Draft.sound_of_finish h

/-- a loop that adds up its counter, with a stack slot for the sum -/
def countdown : List Action :=
  [.createBlock, .appendFunctionParams 0, .createBlock, .appendParam 1 .i64, .createBlock,
    .switchTo 0, .createSlot 8 0, .iconst .i64 0, .stackStore 2 0 0, .jump 1 [0],
    .switchTo 1, .stackLoad .i64 0 0, .binary .iadd 3 1, .stackStore 4 0 0, .iconst .i64 1,
    .binary .isub 1 5, .brif 6 1 [6] 2 [], .switchTo 2, .ret [4], .sealAll]

/-- the countdown is handed out -/
theorem Draft.finish_wellFormed_countdown :
    let d := (Draft.new "sum" ⟨[.i64], [.i64]⟩).perform countdown
    d.finish.2 = .ok d.body.fn ∧ d.body.fn.blocks.size = 3 ∧ d.body.fn.WellFormed := by
  intro d
  have h : d.finish.2 = .ok d.body.fn := Draft.finish_of_isOk (by decide +kernel)
  have hn : d.body.fn.blocks.size = 3 := by decide +kernel
  exact ⟨h, hn, (Draft.finish_wellFormed "sum" ⟨[.i64], [.i64]⟩ countdown _ h).2.2⟩

end TreeJit.SSA
