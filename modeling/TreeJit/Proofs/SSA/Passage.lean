import TreeJit.Proofs.SSA.Progress
import TreeJit.Proofs.SSA.Trace

/-!
# Passing through written code

* `Body.Within b f`        the function `f` is what became of the body `b`: blocks that were closed
                           have kept their steps, and blocks with branches their parameters;
* `Walks w a st ss es st'` performing `ss` leads from `st` to `st'`, and `es` is seen;
* `Advances.finish`        the interpreter goes on where a run gets to;
* `Inst.isPlain i`         `i` computes a value from values, and nothing is seen of it;
* `Open.perform_plain`     what operations write that append such instructions.
-/

namespace TreeJit.SSA

/-! ## what is written stays -/

/-- what becomes of a block while the function is written -/
structure Block.Turns (blk blk' : Block) : Prop where
  preds : blk.preds ≤ blk'.preds
  params : 0 < blk.preds → blk'.params = blk.params
  steps : blk.isClosed = true → blk'.steps = blk.steps

theorem Block.Turns.refl (blk : Block) : blk.Turns blk := ⟨Nat.le_refl _, fun _ => rfl, fun _ => rfl⟩

theorem Block.Turns.trans {blk blk' blk'' : Block} (h : blk.Turns blk') (h' : blk'.Turns blk'') :
    blk.Turns blk'' where
  preds := Nat.le_trans h.preds h'.preds
  params hp := (h'.params (Nat.lt_of_lt_of_le hp h.preds)).trans (h.params hp)
  steps hc := by
    have hs := h.steps hc
    refine (h'.steps ?_).trans hs
    rw [Block.isClosed, hs]
    exact hc

namespace Body
variable {b b' : Body}

/-- the function is what became of the body -/
structure Within (b : Body) (f : Func) : Prop where
  size : b.fn.values.size ≤ f.values.size
  blocks : ∀ (n : Nat) blk, b.fn.blocks[n]? = some blk → ∃ blk', f.blocks[n]? = some blk' ∧ blk.Turns blk'

theorem Within.refl (b : Body) : b.Within b.fn := ⟨Nat.le_refl _, fun _ blk hb => ⟨blk, hb, .refl blk⟩⟩

theorem Within.trans {f : Func} (h : b.Within b'.fn) (h' : b'.Within f) : b.Within f where
  size := Nat.le_trans h.size h'.size
  blocks n blk hb := by
    obtain ⟨blk', hb', ht⟩ := h.blocks n blk hb
    obtain ⟨blk'', hb'', ht'⟩ := h'.blocks n blk' hb'
    exact ⟨blk'', hb'', ht.trans ht'⟩

theorem within_of_blocks_eq {f : Func} (hs : b.fn.values.size ≤ f.values.size)
    (e : f.blocks = b.fn.blocks) : b.Within f := by
  refine ⟨hs, fun n blk hb => ⟨blk, ?_, .refl blk⟩⟩
  rw [e]
  exact hb

theorem within_mapBlock (b : Body) (n : Nat) {f : Block → Block}
    (h : ∀ blk, b.fn.blocks[n]? = some blk → blk.Turns (f blk)) : b.Within (b.mapBlock n f).fn := by
  refine ⟨Nat.le_refl _, fun k blk hb => ?_⟩
  show ∃ blk', (b.fn.blocks.modify n f)[k]? = some blk' ∧ _
  rw [Array.getElem?_modify]
  split
  · rename_i e
    subst e
    exact ⟨f blk, congrArg _ hb, h blk hb⟩
  · exact ⟨blk, hb, .refl blk⟩

theorem within_append {cur : Nat} {blk : Block} (hb : b.fn.blocks[cur]? = some blk)
    (ho : blk.isClosed = false) (i : Inst) (ts : List Ty) : b.Within (b.append cur i ts).fn := by
  refine ⟨?_, fun n c hc => ?_⟩
  · rw [← Array.length_toList, ← Array.length_toList, values_append, List.length_append]
    exact Nat.le_add_right _ _
  · refine ⟨_, (append_blocks b cur i ts n).trans (congrArg _ hc), Nat.le_add_right _ _,
      fun _ => rfl, ?_⟩
    intro hcl
    have hne : cur ≠ n := by
      rintro rfl
      rw [Option.some.inj (hc.symm.trans hb), ho] at hcl
      cases hcl
    exact if_neg hne

/-- **A change leaves what is written.** -/
theorem Change.within (h : b.Change b') : b.Within b'.fn := by
  cases h with
  | block =>
    refine ⟨Nat.le_refl _, fun n blk hb => ⟨blk, ?_, .refl blk⟩⟩
    exact getElem?_push_of_some hb
  | switch | slot | ext => exact within_of_blocks_eq (Nat.le_refl _) rfl
  | @param n t blk hb hp ht =>
    have hnew : b.Within (b.newValues [t]).1.fn := by
      refine within_of_blocks_eq ?_ rfl
      show b.fn.values.size ≤ (b.fn.values ++ [t]).size
      rw [← Array.length_toList, ← Array.length_toList, Array.toList_appendList, List.length_append]
      exact Nat.le_add_right _ _
    refine hnew.trans (within_mapBlock _ n fun c hc => ⟨Nat.le_refl _, fun h0 => ?_, fun _ => rfl⟩)
    obtain rfl : c = blk := Option.some.inj (hc.symm.trans hb)
    omega
  | sealOne => exact within_mapBlock b _ fun _ _ => ⟨Nat.le_refl _, fun _ => rfl, fun _ => rfl⟩
  | sealAll =>
    refine ⟨Nat.le_refl _, fun n blk hb => ⟨{ blk with sealed := true }, ?_, Nat.le_refl _,
      fun _ => rfl, fun _ => rfl⟩⟩
    show (b.fn.blocks.map fun d => { d with sealed := true })[n]? = _
    rw [Array.getElem?_map, hb]
    rfl
  | step hc hb ho ht => exact within_append hb ho _ _

theorem kept_within (b : Body) : Draft.Kept fun b' => b'.Sound ∧ b.Within b'.fn where
  current _ h := h.1.current
  params _ h := h.1.paramsKnown
  step _ _ h hc := ⟨h.1.change hc, h.2.trans hc.within⟩

end Body

/-! ## steps and what is seen of them -/

/-- performing the steps leads from one state to another, and `es` is seen -/
inductive Walks (w : World) (a : Activation) : State → List Step → List Event → State → Prop where
  | nil {st : State} : Walks w a st [] [] st
  | cons {st mid st' : State} {s : Step} {ss : List Step} {es : List Event}
      (h : execStep w a st s = .ok (.on mid)) (hs : Walks w a mid ss es st') :
      Walks w a st (s :: ss) (s.inst.events a.fn st ++ es) st'

section
variable {w : World} {a : Activation} {st st' st'' : State} {ss ss' : List Step}
  {es es' : List Event}

theorem Walks.append (h : Walks w a st ss es st') (h' : Walks w a st' ss' es' st'') :
    Walks w a st (ss ++ ss') (es ++ es') st'' := by
  induction h with
  | nil => exact h'
  | cons hs _ ih =>
    rw [List.append_assoc]
    exact .cons hs (ih h')

theorem Walks.evolves (h : Walks w a st ss es st') : Evolves w a st ss st' := by
  induction h with
  | nil => exact .nil
  | cons hs _ ih => exact .cons hs ih

theorem Evolves.walks (h : Evolves w a st ss st')
    (hq : ∀ s ∈ ss, ∀ st, s.inst.events a.fn st = []) : Walks w a st ss [] st' := by
  induction h with
  | nil => exact .nil
  | @cons st mid st' s ss hs _ ih =>
    have ht := Walks.cons hs (ih fun s hm => hq s (List.mem_cons_of_mem _ hm))
    rwa [hq s List.mem_cons_self, List.nil_append] at ht

/-- **A run that comes to the steps passes through them.** -/
theorem Walks.advances (h : Walks w a st ss es st') {b k : Nat} {blk : Block}
    (hb : a.fn.blocks[b]? = some blk) {rest : List Step} (hk : blk.steps.toList.drop k = ss ++ rest) :
    Advances w a (.inside b k st) es (.inside b (k + ss.length) st') := by
  induction h generalizing k with
  | nil => exact .refl _
  | @cons st mid st' s ss es hs _ ih =>
    have hget : blk.steps.toList[k]? = some s := by
      have e := congrArg (fun l => l[0]?) hk
      simpa using e
    have hdrop : blk.steps.toList.drop (k + 1) = ss ++ rest := by
      rw [← List.drop_drop, hk]
      rfl
    have hrest := ih hdrop
    rw [List.length_cons, Nat.add_comm ss.length, ← Nat.add_assoc]
    exact (Advances.single (.on hb hget hs)).trans hrest

end

/-! ## what the interpreter does from a point on -/

/-- what the interpreter makes of a run that has come this far -/
def Point.finish (w : World) (a : Activation) (fuel : Nat) : Point → RunResult
  | .inside b k st =>
    match a.fn.blocks[b]? with
    | none => .error .stuck
    | some blk =>
      match execSteps w a st (blk.steps.toList.drop k) with
      | .error f => .error f
      | .ok (.on _) => .error .stuck
      | .ok (.branch st' b' vals) => runFrom w a fuel st' b' vals
      | .ok (.leave st' vals) => .ok (vals, st'.mem)
  | .left vals mem => .ok (vals, mem)
  | .failed f => .error f

section
variable {w : World} {a : Activation}

theorem runFrom_eq_finish {fuel b : Nat} {st : State} {args : List Val} {blk : Block}
    (hb : a.fn.blocks[b]? = some blk) : runFrom w a (fuel + 1) st b args =
      (Point.inside b 0 (st.setAll blk.params.toList args)).finish w a fuel := by
  unfold runFrom Point.finish
  simp only [hb]
  rfl

theorem Advance.finish {p q : Point} {es : List Event} (h : Advance w a p es q) (fuel : Nat) :
    p.finish w a (fuel + (entered es).length) = q.finish w a fuel := by
  have hdrop : ∀ {k : Nat} {blk : Block} {s : Step}, blk.steps.toList[k]? = some s →
      blk.steps.toList.drop k = s :: blk.steps.toList.drop (k + 1) := by
    intro k blk s hk
    obtain ⟨hlt, rfl⟩ := List.getElem?_eq_some_iff.mp hk
    exact List.drop_eq_getElem_cons hlt
  cases h with
  | on hb hk hs =>
    unfold Point.finish
    simp only [hb, hdrop hk, execSteps, hs, entered_events, List.length_nil, Nat.add_zero]
  | branch hb hk hs hd =>
    show _ = Point.finish w a fuel (.inside _ 0 _)
    rw [← runFrom_eq_finish hd]
    unfold Point.finish
    simp only [hb, hdrop hk, execSteps, hs]
    rfl
  | leave hb hk hs =>
    unfold Point.finish
    simp only [hb, hdrop hk, execSteps, hs]
  | fail hb hk hs =>
    unfold Point.finish
    simp only [hb, hdrop hk, execSteps, hs]

/-- **The interpreter goes on where a run gets to**; it uses fuel for the blocks it enters. -/
theorem Advances.finish {p q : Point} {es : List Event} (h : Advances w a p es q) (fuel : Nat) :
    p.finish w a (fuel + (entered es).length) = q.finish w a fuel := by
  induction h generalizing fuel with
  | refl => rfl
  | tail _ hs ih =>
    rw [entered_append, List.length_append, Nat.add_comm (entered _).length, ← Nat.add_assoc, ih]
    exact hs.finish fuel

end

/-! ## instructions that only compute -/

/-- an instruction that computes a value from values -/
def Inst.isPlain : Inst → Bool
  | .iconst .. | .fconst .. | .binary .. | .icmp .. | .fcmp .. | .splat .. | .extractLane ..
  | .stackAddr .. => true
  | _ => false

theorem Inst.events_of_isPlain {i : Inst} (h : i.isPlain = true) (f : Func) (st : State) :
    i.events f st = [] := by
  cases i with
  | load | store | call | stackLoad | stackStore | jump | brif | ret => cases h
  | _ => rfl

theorem Inst.isTerminator_of_isPlain {i : Inst} (h : i.isPlain = true) : i.isTerminator = false := by
  cases i with
  | load | store | call | stackLoad | stackStore | jump | brif | ret => cases h
  | binary op => cases op <;> rfl
  | _ => rfl

theorem execStep_plain (w : World) (a : Activation) (st : State) {i : Inst} (h : i.isPlain = true)
    (r : ValueNo) : ∃ x, execStep w a st ⟨i, [r]⟩ = .ok (.on (st.set r x)) := by
  cases i with
  | load | store | call | stackLoad | stackStore | jump | brif | ret => cases h
  | _ => exact ⟨_, rfl⟩

/-- straight-line code whose results are numbered from `n` on -/
def Plain (n : Nat) (ss : List Step) : Prop :=
  ∀ s ∈ ss, s.inst.isPlain = true ∧ ∃ r, s.results = [r] ∧ n ≤ r

theorem Plain.walks {n : Nat} {ss : List Step} (h : Plain n ss) (w : World) (a : Activation)
    (st : State) : ∃ st', Walks w a st ss [] st' ∧ st.Keeps n st' := by
  induction ss generalizing st with
  | nil => exact ⟨st, .nil, .refl n st⟩
  | cons s ss ih =>
    obtain ⟨hp, r, hr, hn⟩ := h s List.mem_cons_self
    obtain ⟨inst, results⟩ := s
    simp only at hp hr
    subst hr
    obtain ⟨x, hx⟩ := execStep_plain w a st hp r
    obtain ⟨st', hw, hk⟩ := ih (fun s hs => h s (List.mem_cons_of_mem _ hs)) (st.set r x)
    have hall := Walks.cons hx hw
    rw [Inst.events_of_isPlain hp, List.nil_append] at hall
    exact ⟨st', hall, (State.keeps_set st x hn).trans hk⟩

/-- operations that append such an instruction -/
def Action.isPlain : Action → Bool
  | .iconst .. | .fconst .. | .binary .. | .icmp .. | .fcmp .. | .splat .. | .extractLane ..
  | .stackAddr .. => true
  | _ => false

namespace Draft
variable {d : Draft} {cur : Nat}

theorem Open.appended (h : d.Open cur) {α : Type} {nothing : α} {op : Body → Except Fault (Body × α)}
    (hf : (d.attempt nothing op).1.fault = none)
    (hop : ∀ b r, op d.body = .ok (b, r) → ∃ i t, i.isPlain = true ∧ d.body.Appends i [t] b) :
    d.Ahead cur (d.attempt nothing op).1 ∧
      ∃ i t, i.isPlain = true ∧ d.body.Appends i [t] (d.attempt nothing op).1.body := by
  obtain ⟨-, -, b, r, he, e⟩ := attempt_sound hf
  obtain ⟨i, t, hi, ha⟩ := hop b r he
  rw [e]
  refine ⟨?_, i, t, hi, ha⟩
  obtain ⟨c, -, hc, -, -, rfl⟩ := ha.result
  obtain rfl : c = cur := Option.some.inj (hc.symm.trans h.current)
  exact h.append [t] (Inst.isTerminator_of_isPlain hi) rfl

theorem Open.act_plain (h : d.Open cur) (hS : d.Holds Body.Sound) {a : Action}
    (ha : a.isPlain = true) (hf : (d.act a).1.fault = none) :
    d.Ahead cur (d.act a).1 ∧ ∃ i t, i.isPlain = true ∧ d.body.Appends i [t] (d.act a).1.body := by
  have hk := (hS h.fault).current
  cases a with
  | iconst t v => exact h.appended hf fun _ _ he => ⟨_, _, rfl, (Body.iconst_ok hk he).1⟩
  | fconst t v =>
    refine h.appended hf fun _ _ he => ?_
    obtain ⟨_, -, ha, -⟩ := Body.fconst_ok hk he
    exact ⟨_, _, rfl, ha⟩
  | binary op x y =>
    refine h.appended hf fun _ _ he => ?_
    obtain ⟨_, _, _, -, -, ha, -⟩ := Body.binary_ok hk he
    exact ⟨_, _, rfl, ha⟩
  | icmp c x y =>
    refine h.appended hf fun _ _ he => ?_
    obtain ⟨_, _, _, _, -, -, -, ha, -⟩ := Body.icmp_ok hk he
    exact ⟨_, _, rfl, ha⟩
  | fcmp c x y =>
    refine h.appended hf fun _ _ he => ?_
    obtain ⟨_, _, _, _, -, -, -, ha, -⟩ := Body.fcmp_ok hk he
    exact ⟨_, _, rfl, ha⟩
  | splat t x =>
    refine h.appended hf fun _ _ he => ?_
    obtain ⟨_, -, ha, -⟩ := Body.splat_ok hk he
    exact ⟨_, _, rfl, ha⟩
  | extractLane x n =>
    refine h.appended hf fun _ _ he => ?_
    obtain ⟨_, _, -, ha, -⟩ := Body.extractLane_ok hk he
    exact ⟨_, _, rfl, ha⟩
  | stackAddr s off =>
    refine h.appended hf fun _ _ he => ?_
    obtain ⟨_, -, ha, -⟩ := Body.stackAddr_ok hk he
    exact ⟨_, _, rfl, ha⟩
  | _ => cases ha

/-- **What operations write that append such instructions.** -/
theorem Open.perform_plain (h : d.Open cur) (hS : d.Holds Body.Sound) {as : List Action}
    (ha : ∀ a ∈ as, a.isPlain = true) (hf : (d.perform as).fault = none) :
    d.Ahead cur (d.perform as) ∧ ∃ ss, d.body.Writes (d.perform as).body ss ∧
      Plain d.body.fn.values.size ss := by
  induction as generalizing d with
  | nil => exact ⟨h.ahead, [], .refl h.current, fun s hs => by cases hs⟩
  | cons a as ih =>
    have hf1 : (d.act a).1.fault = none := by
      cases hfa : (d.act a).1.fault with
      | none => rfl
      | some f => exact absurd (hf.symm.trans (fault_perform hfa as)) nofun
    obtain ⟨h1, i, t, hi, ha1⟩ := h.act_plain hS (ha a List.mem_cons_self) hf1
    have hS1 := holds_act kept_sound hS a
    obtain ⟨h2, ss, hw, hp⟩ := ih h1.isOpen hS1 (fun a hm => ha a (List.mem_cons_of_mem _ hm)) hf
    refine ⟨h1.trans h2, _, ha1.writes.trans hw, ?_⟩
    intro s hs
    rcases List.mem_cons.mp hs with rfl | hs
    · exact ⟨hi, _, rfl, Nat.le_refl _⟩
    · obtain ⟨hsi, r, hr, hn⟩ := hp s hs
      exact ⟨hsi, r, hr, Nat.le_trans (Nat.le_of_lt ha1.lt_size) hn⟩

end Draft

end TreeJit.SSA
