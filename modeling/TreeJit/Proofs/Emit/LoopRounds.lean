import TreeJit.Proofs.Emit.LoopRun
import TreeJit.Proofs.SSA.Passage

/-!
# The rounds of a vector loop

`LoopLayout.CodeIn.run` tells where a loop leads whose body computes known values.  Here the body is
any straight-line code, and the run is followed step by step, so that every access to memory is
seen.

* `LoopRound`        the states around the body in one round;
* `roundEvents`      what is seen of a round: a read for each array and one write;
* `Passed`           what holds when some rounds have been passed;
* `Passed.next`, `Passed.all`   one more round, and all of them by induction;
* `CodeIn.enters`    the way into the first round.
-/

namespace TreeJit

open SSA

namespace SSA
variable {w : World} {a : Activation}

theorem inst_of_mem_eachStep {i : ValueNo → Inst} {k : Nat} {vs : List ValueNo} {s : Step}
    (h : s ∈ eachStep i k vs) : ∃ v ∈ vs, s.inst = i v := by
  induction vs generalizing k with
  | nil => cases h
  | cons v vs ih =>
    rcases List.mem_cons.mp h with rfl | h
    · exact ⟨v, List.mem_cons_self, rfl⟩
    · obtain ⟨u, hu, e⟩ := ih h
      exact ⟨u, List.mem_cons_of_mem _ hu, e⟩

theorem Evolves.walks_each {i : ValueNo → Inst} {E : ValueNo → List Event} {n : Nat}
    (hi : ∀ st v r, ∃ x, execStep w a st ⟨i v, [r]⟩ = .ok (.on (st.set r x))) {st st' : State}
    {vs : List ValueNo} {k : Nat} (hk : n ≤ k)
    (hE : ∀ s, st.Keeps n s → ∀ v ∈ vs, (i v).events a.fn s = E v)
    (h : Evolves w a st (eachStep i k vs) st') :
    Walks w a st (eachStep i k vs) (vs.flatMap E) st' := by
  induction vs generalizing k st with
  | nil =>
    cases h
    exact .nil
  | cons v vs ih =>
    cases h with
    | cons hs hrest =>
      obtain ⟨x, hx⟩ := hi st v k
      cases hs.symm.trans hx
      have hkeep := State.keeps_set st x hk
      have hwalk := Walks.cons hs (ih (Nat.le_succ_of_le hk)
        (fun s hs u hu => hE s (hkeep.trans hs) u (List.mem_cons_of_mem _ hu)) hrest)
      rw [List.flatMap_cons, ← hE st (.refl n st) v List.mem_cons_self]
      exact hwalk

end SSA

namespace Emit

/-- a round of a loop: the states before and after its body -/
structure LoopRound where
  before : State
  after : State

namespace LoopLayout
variable {L : LoopLayout} {w : World} {a : Activation} {o : Operands} {ps : List ValueNo}
  {pre bs : List Step} {t : Ty} {out k n : Nat}

/-! ## one round -/

def roundEvents (o : Operands) (t : Ty) (out j : Nat) (r : LoopRound) : List SSA.Event :=
  (o.arrays.map fun p => .load (p + UInt64.ofNat (16 * j)) 16) ++
    [.store (o.result + UInt64.ofNat (16 * j)) (storedBytes t (r.after.get out))]

/-- where a loop goes before round `i`: into its block while rows are left -/
def door (L : LoopLayout) (o : Operands) (i : Nat) : Nat × List Val :=
  if 2 * i < o.count then (L.head, o.round i) else (L.head + 1, [])

def arrival (f : Func) (st : State) (d : Nat × List Val) : Point :=
  .inside d.1 0 (st.setAll (f.blockParams d.1) d.2)

theorem advance_arrival {b i b' : Nat} {blk : Block} {s : Step} {st st' : State} {args : List Val}
    (hb : a.fn.blocks[b]? = some blk) (hi : blk.steps.toList[i]? = some s)
    (h : execStep w a st s = .ok (.branch st' b' args)) (hd : b' < a.fn.blocks.size) :
    Advances w a (.inside b i st) [.block b'] (arrival a.fn st' (b', args)) := by
  have hdest : a.fn.blocks[b']? = some a.fn.blocks[b'] := Array.getElem?_eq_getElem hd
  have e : a.fn.blockParams b' = a.fn.blocks[b'].params.toList := by
    rw [Func.blockParams, hdest]
  unfold arrival
  simp only [e]
  exact Advances.single (.branch hb hi h hdest)

theorem lt_of_code {f : Func} {b : Nat} {x : List ValueNo × List Step} (h : f.code[b]? = some x) :
    b < f.blocks.size := by
  obtain ⟨blk, hb, -⟩ := Func.block_of_code h
  exact (Array.getElem?_eq_some_iff.mp hb).1

theorem door_lt {i : Nat} (hc : CodeIn L a.fn ps pre bs t out k)
    (hx : L.head + 1 < a.fn.blocks.size) : (L.door o i).1 < a.fn.blocks.size := by
  unfold door
  split
  · exact lt_of_code hc.head
  · exact hx

theorem walks_close {s' st' : State} {r : UInt64} (hr : s'.get L.target = ⟨r, 0⟩)
    (h : Evolves w a s' (L.closeSteps t out k) st') :
    Walks w a s' (L.closeSteps t out k) [.store r (storedBytes t (s'.get out))] st' := by
  have hquiet : ∀ s ∈ (L.closeSteps t out k).tail, ∀ st, s.inst.events a.fn st = [] := by
    intro s hs st
    simp only [closeSteps, List.cons_append, List.nil_append, List.tail_cons, List.mem_cons,
      List.mem_append, List.not_mem_nil, or_false] at hs
    rcases hs with rfl | hs | rfl | rfl | rfl | rfl
    · rfl
    · obtain ⟨v, -, e⟩ := inst_of_mem_eachStep hs
      rw [e]
      rfl
    all_goals rfl
  cases h with
  | cons hstore hrest =>
    have hwalk := Walks.cons hstore (hrest.walks hquiet)
    rw [List.append_nil] at hwalk
    have e : (Step.inst ⟨.store t out L.target 0, []⟩).events a.fn s' =
        [.store r (storedBytes t (s'.get out))] := by
      show [SSA.Event.store (addressOf (s'.get L.target).lo 0) _] = _
      rw [hr, addressOf_zero]
    rw [← e]
    exact hwalk

/-- **A round step by step**: it reads a pair from each array and writes one to the result. -/
theorem RoundSteps.advances (hc : CodeIn L a.fn ps pre bs t out k)
    (hx : L.head + 1 < a.fn.blocks.size) (ha : o.arrays.length = L.arrays.length)
    (hs : o.spread.length = L.scalars.length) {m : Nat} (hp : Plain m bs) {j : Nat}
    {st s s' st' : State} (hz : L.zero ≤ st.regs.size)
    (h : RoundSteps L w a o bs t out k j st s s' st') :
    Advances w a (arrival a.fn st (L.head, o.round j))
      (roundEvents o t out j ⟨s, s'⟩ ++ [.block (L.door o (j + 1)).1])
      (arrival a.fn st' (L.door o (j + 1))) := by
  obtain ⟨hptr, -⟩ := getAll_params st j ha hs hz
  obtain ⟨blk, hb, hparams, hsteps⟩ := Func.block_of_code hc.head
  -- the loads
  have hloads := h.loads.walks_each (i := fun n => .load .f64x2 n 0) (n := L.next)
    (E := fun v => [.load ((st.setAll L.params (o.round j)).get v).lo 16]) (fun _ _ _ => ⟨_, rfl⟩)
    (Nat.le_refl _) (by
      intro s hkeep v hv
      show [SSA.Event.load (addressOf (s.get v).lo 0) 16] = _
      rw [addressOf_zero, hkeep.get v (pointers_lt v hv)])
  have hseen : L.pointers.flatMap (fun v =>
      [SSA.Event.load ((st.setAll L.params (o.round j)).get v).lo 16]) =
      o.arrays.map fun p => .load (p + UInt64.ofNat (16 * j)) 16 := by
    have e := congrArg (List.map fun x : Val => SSA.Event.load x.lo 16) hptr
    rw [State.getAll, List.map_map, List.map_map] at e
    rw [← List.map_eq_flatMap]
    exact e
  rw [hseen] at hloads
  -- the body and the end of the block
  have hbody : Walks w a s bs [] s' := h.body.walks fun c hcs st => by
    obtain ⟨hplain, -⟩ := hp c hcs
    exact Inst.events_of_isPlain hplain a.fn st
  have hall := (hloads.append hbody).append (walks_close h.target h.close)
  rw [List.append_nil] at hall
  have hcode : blk.steps.toList.drop 0 =
      L.loadSteps ++ bs ++ L.closeSteps t out k ++ [L.again k] := by
    rw [List.drop_zero, hsteps]
    simp only [List.append_assoc]
  have hin := hall.advances hb hcode
  have hlast : blk.steps.toList[0 + (L.loadSteps ++ bs ++ L.closeSteps t out k).length]? =
      some (L.again k) := by
    rw [List.drop_zero] at hcode
    rw [hcode, Nat.zero_add, List.getElem?_append_right (Nat.le_refl _), Nat.sub_self]
    rfl
  have hout := hin.trans (advance_arrival hb hlast h.again (door_lt (i := j + 1) hc hx))
  have hpoint : arrival a.fn st (L.head, o.round j) =
      .inside L.head 0 (st.setAll L.params (o.round j)) := by
    have e : a.fn.blockParams L.head = L.params := by
      rw [Func.blockParams, hb]
      exact hparams
    rw [arrival, e]
  rw [hpoint]
  exact hout

/-! ## all rounds -/

theorem mapped_congr {m : Memory} {r : UInt64} {G G' : Nat → Val} (h : ∀ i < n, G i = G' i) :
    mapped m t r G n = mapped m t r G' n := by
  induction n with
  | zero => rfl
  | succ n ih =>
    rw [mapped, mapped, ih fun i hi => h i (Nat.lt_succ_of_lt hi), h n (Nat.lt_succ_self n)]

theorem get_mapped_out {m : Memory} (ht : t.isVector = true) {r x : UInt64} {G : Nat → Val}
    (h : 16 * n ≤ Memory.dist r x) : (mapped m t r G n).get x = m.get x := by
  induction n with
  | zero => rfl
  | succ n ih =>
    rw [mapped, get_writeVal_out, ih (by omega)]
    have hx := r.toNat_lt
    have hd := Memory.dist_lt r x
    rw [bytes_of_isVector ht]
    unfold Memory.dist at h hd ⊢
    rw [UInt64.toNat_sub] at h hd ⊢
    rw [UInt64.toNat_add, UInt64.toNat_ofNat']
    omega

def outputs (out : Nat) (rounds : List LoopRound) : List Val := rounds.map fun r => r.after.get out

def seen (L : LoopLayout) (o : Operands) (t : Ty) (out : Nat) (rounds : List LoopRound) :
    List SSA.Event :=
  (rounds.mapIdx fun j r => .block L.head :: roundEvents o t out j r).flatten

theorem seen_concat (rounds : List LoopRound) (r : LoopRound) :
    L.seen o t out (rounds ++ [r]) =
      L.seen o t out rounds ++ .block L.head :: roundEvents o t out rounds.length r := by
  unfold seen
  rw [List.mapIdx_concat, List.flatten_append, List.flatten_singleton]

theorem entered_seen (rounds : List LoopRound) :
    entered (L.seen o t out rounds) = List.replicate rounds.length L.head := by
  have hround : ∀ j r, entered (.block L.head :: roundEvents o t out j r) = [L.head] := by
    intro j r
    simp [roundEvents, entered]
  have hall : ∀ F : Nat → LoopRound → List SSA.Event, (∀ j r, entered (F j r) = [L.head]) →
      entered (rounds.mapIdx F).flatten = List.replicate rounds.length L.head := by
    induction rounds with
    | nil => exact fun _ _ => rfl
    | cons r rounds ih =>
      intro F hF
      rw [List.mapIdx_cons, List.flatten_cons, entered_append, hF,
        ih (fun j r => F (j + 1) r) fun j r => hF (j + 1) r]
      rfl
  exact hall _ hround

structure Operands.Suit (o : Operands) (L : LoopLayout) (n : Nat) : Prop where
  arrays : o.arrays.length = L.arrays.length
  spread : o.spread.length = L.scalars.length
  count : o.count = 2 * n
  small : o.count < 2 ^ 63
  apart : ∀ p ∈ o.arrays, Memory.Apart o.result (16 * n) p (16 * n)

/-- the rounds have been passed on the way from a point, where the state was `st0`; `st` is the
state they left -/
structure Passed (L : LoopLayout) (w : World) (a : Activation) (o : Operands) (bs : List Step)
    (t : Ty) (out : Nat) (p : Point) (st0 : State) (rounds : List LoopRound) (st : State) :
    Prop where
  run : Advances w a p (L.seen o t out rounds ++ [.block (L.door o rounds.length).1])
    (arrival a.fn st (L.door o rounds.length))
  body : ∀ (j : Nat) r, rounds[j]? = some r → Evolves w a r.before bs r.after ∧
    r.before.getAll (List.range' L.next L.arrays.length) = o.pairs st0.mem j ∧
    r.before.getAll L.spread = o.spread
  mem : st.mem = mapped st0.mem t o.result (fun j => (outputs out rounds).getD j ⟨0, 0⟩) rounds.length
  size : st.regs.size = st0.regs.size
  old : ∀ v < L.base, st.get v = st0.get v

theorem Passed.next (hc : CodeIn L a.fn ps pre bs t out k) (hx : L.head + 1 < a.fn.blocks.size)
    (ho : o.Suit L n) (ht : t.isVector = true) (hp : Plain (L.next + L.arrays.length) bs) {p : Point}
    {st0 st : State} (hsize : st0.regs.size = a.fn.values.size) {rounds : List LoopRound}
    (h : Passed L w a o bs t out p st0 rounds st) (hj : rounds.length < n) :
    ∃ r st', Passed L w a o bs t out p st0 (rounds ++ [r]) st' := by
  have hcount := ho.count
  have hroom := hc.size
  have hk := hc.body
  have hzero : L.zero + 2 = L.next := rfl
  have hmoved : L.moved k = k + 1 + L.arrays.length := rfl
  have hst : st.regs.size = a.fn.values.size := h.size.trans hsize
  obtain ⟨s, s', st', hr, -⟩ := round_steps (t := t) (Q := fun _ => True) hc ho.arrays ho.spread
    ho.small hst (j := rounds.length) (by omega) fun s _ _ _ _ => by
      obtain ⟨s', hwalk, hkeep⟩ := hp.walks w a s
      exact ⟨s', hwalk.evolves, hkeep, trivial⟩
  have hdoor : L.door o rounds.length = (L.head, o.round rounds.length) := if_pos (by omega)
  have hrun := h.run
  have hround := hr.advances hc hx ho.arrays ho.spread hp (by omega)
  rw [hdoor] at hrun
  -- the new round has stored the next pair, and what was stored before is the same
  have hnew : (outputs out (rounds ++ [⟨s, s'⟩])).getD rounds.length ⟨0, 0⟩ = s'.get out := by
    simp [outputs]
  have hold : ∀ i < rounds.length, (outputs out rounds).getD i ⟨0, 0⟩ =
      (outputs out (rounds ++ [⟨s, s'⟩])).getD i ⟨0, 0⟩ := by
    intro i hi
    have hlen : i < (outputs out rounds).length := by
      rw [outputs, List.length_map]
      exact hi
    have happ : outputs out (rounds ++ [⟨s, s'⟩]) = outputs out rounds ++ [s'.get out] :=
      List.map_append
    rw [happ, List.getD_eq_getElem?_getD, List.getD_eq_getElem?_getD, List.getElem?_append_left hlen]
  refine ⟨⟨s, s'⟩, st', ?_, ?_, ?_, hr.size.trans h.size, fun v hv => (hr.old v hv).trans (h.old v hv)⟩
  · rw [seen_concat, List.length_append, List.length_singleton, List.append_assoc]
    have hall := hrun.trans hround
    rw [List.append_assoc] at hall
    exact hall
  · intro j r hjr
    by_cases hlt : j < rounds.length
    · rw [List.getElem?_append_left hlt] at hjr
      exact h.body j r hjr
    · rw [List.getElem?_append_right (Nat.le_of_not_lt hlt), List.getElem?_singleton] at hjr
      split at hjr
      · cases hjr
        obtain rfl : j = rounds.length := by omega
        refine ⟨hr.body, ?_, hr.spread⟩
        rw [hr.pairs, h.mem, pairs_mapped ht ho.apart (Nat.le_of_lt hj) hj]
      · cases hjr
  · rw [List.length_append, List.length_singleton, mapped, hnew, ← mapped_congr hold, ← h.mem]
    exact hr.stored

/-- **All rounds.** -/
theorem Passed.all (hc : CodeIn L a.fn ps pre bs t out k) (hx : L.head + 1 < a.fn.blocks.size)
    (ho : o.Suit L n) (ht : t.isVector = true) (hp : Plain (L.next + L.arrays.length) bs) {p : Point}
    {st0 st : State} (hsize : st0.regs.size = a.fn.values.size)
    (h : Passed L w a o bs t out p st0 [] st) :
    ∃ rounds st', rounds.length = n ∧ Passed L w a o bs t out p st0 rounds st' := by
  have hsome : ∀ i ≤ n, ∃ rounds st', rounds.length = i ∧
      Passed L w a o bs t out p st0 rounds st' := by
    intro i hi
    induction i with
    | zero => exact ⟨[], st, rfl, h⟩
    | succ i ih =>
      obtain ⟨rounds, st1, rfl, h1⟩ := ih (Nat.le_of_succ_le hi)
      obtain ⟨r, st2, h2⟩ := h1.next hc hx ho ht hp hsize hi
      refine ⟨rounds ++ [r], st2, ?_, h2⟩
      rw [List.length_append, List.length_singleton]
  exact hsome n (Nat.le_refl n)

/-! ## the way in -/

theorem quiet_openSteps : ∀ s ∈ L.openSteps, ∀ st, s.inst.events a.fn st = [] := by
  intro s hs st
  rcases List.mem_append.mp hs with hs | hs
  · obtain ⟨v, -, e⟩ := inst_of_mem_eachStep hs
    rw [e]
    rfl
  · rcases List.mem_pair.mp hs with rfl | rfl <;> rfl

/-- the steps before a loop lead into its first round, or behind it -/
theorem CodeIn.enters (hc : CodeIn L a.fn ps pre bs t out k) (hx : L.head + 1 < a.fn.blocks.size)
    {st : State} (hs : L.next ≤ st.regs.size)
    (hold : ∀ v ∈ L.arrays ++ L.scalars ++ [L.result, L.count], v < L.base)
    (hw : ∀ v ∈ L.arrays ++ [L.result, L.count], (st.get v).hi = 0) :
    ∃ st', Passed L w a (operands L st) bs t out (.inside L.entry pre.length st) st [] st' := by
  obtain ⟨st', hev, hkeep, hstep⟩ := enter_sound (w := w) (a := a) hs hold hw
  have hdoor : execStep w a st' L.enter = .ok (.branch st' (L.door (operands L st) 0).1
      (L.door (operands L st) 0).2) := by
    rw [hstep]
    unfold door
    by_cases h0 : (operands L st).count = 0
    · rw [if_pos h0, if_neg (by omega)]
    · rw [if_neg h0, if_pos (by omega)]
  obtain ⟨blk, hb, -, hsteps⟩ := Func.block_of_code hc.entry
  have hdrop : blk.steps.toList.drop pre.length = L.openSteps ++ [L.enter] := by
    rw [hsteps, List.drop_left]
  have hlast : blk.steps.toList[pre.length + L.openSteps.length]? = some L.enter := by
    rw [hsteps, List.getElem?_append_right (Nat.le_add_right _ _), Nat.add_sub_cancel_left,
      List.getElem?_append_right (Nat.le_refl _), Nat.sub_self]
    rfl
  have hin := (hev.walks quiet_openSteps).advances hb hdrop
  have hrun := hin.trans (advance_arrival hb hlast hdoor (door_lt hc hx))
  refine ⟨st', hrun, ?_, hkeep.mem, hkeep.size, hkeep.get⟩
  intro j r hj
  cases hj

end LoopLayout

end Emit

end TreeJit
