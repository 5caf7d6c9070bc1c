import TreeJit.Proofs.Emit.LoopCode
import TreeJit.Proofs.Tree.Emit
import TreeJit.Proofs.Word.Memory

/-!
# Running vector loops

The code of a loop (`LoopLayout`) applies its body to two rows after two rows.

* `LoopLayout.CodeIn`     a function contains the code of a loop;
* `mapped m t r G k`      the memory after `k` rounds, in which round `j` stored `G j`;
* `At L o t st0 m G j st`   what holds before round `j`;
* `At.round`, `At.rounds`   one round, and all that are left by induction;
* `CodeIn.run`            the loop from its first step to the block behind it.
-/

namespace TreeJit

open SSA

namespace SSA
variable {w : World} {a : Activation}

theorem evolves_eachStep {i : ValueNo → Inst} {F : State → ValueNo → Val} {n : Nat}
    (hi : ∀ st v r, execStep w a st ⟨i v, [r]⟩ = .ok (.on (st.set r (F st v))))
    (hF : ∀ (st st' : State) v, v < n → st.Keeps n st' → F st' v = F st v) {vs : List ValueNo}
    (hv : ∀ v ∈ vs, v < n) {k : Nat} (hk : n ≤ k) (st : State)
    (hs : k + vs.length ≤ st.regs.size) :
    ∃ st', Evolves w a st (eachStep i k vs) st' ∧ st.Keeps k st' ∧
      st'.getAll (List.range' k vs.length) = vs.map (F st) := by
  induction vs generalizing k st with
  | nil => exact ⟨st, .nil, .refl _ _, rfl⟩
  | cons v vs ih =>
    rw [List.length_cons] at hs
    have hlt : k < st.regs.size := by omega
    have hkeep : st.Keeps k (st.set k (F st v)) := State.keeps_set st _ (Nat.le_refl k)
    obtain ⟨st', hev, hkeep', hget⟩ := ih (fun u hu => hv u (List.mem_cons_of_mem _ hu))
      (Nat.le_succ_of_le hk) (st.set k (F st v)) (by rw [State.size_set]; omega)
    refine ⟨st', .cons (hi st v k) hev, hkeep.trans (hkeep'.mono (Nat.le_succ k)), ?_⟩
    rw [List.length_cons, List.range'_succ, State.getAll, List.map_cons, List.map_cons]
    refine congr (congrArg List.cons ?_) ?_
    · rw [hkeep'.get k (Nat.lt_succ_self k), State.get_set_self _ hlt]
    · refine hget.trans (List.map_congr_left fun u hu => ?_)
      exact hF _ _ u (hv u (List.mem_cons_of_mem _ hu)) (hkeep.mono hk)

theorem State.getAll_append (st : State) (us vs : List ValueNo) :
    st.getAll (us ++ vs) = st.getAll us ++ st.getAll vs := List.map_append ..

theorem State.Keeps.getAll {n : Nat} {st st' : State} (h : st.Keeps n st') {vs : List ValueNo}
    (hv : ∀ v ∈ vs, v < n) : st'.getAll vs = st.getAll vs :=
  List.map_congr_left fun v hm => h.get v (hv v hm)

theorem addressOf_zero (p : UInt64) : addressOf p 0 = p := UInt64.add_zero p

end SSA

namespace Emit

namespace LoopLayout
variable (L : LoopLayout)

theorem le_first : L.base ≤ L.first := Nat.le_add_right _ _

theorem next_eq : L.next = L.first + L.arrays.length + L.scalars.length + 5 := by
  unfold next zero bound index target
  omega

theorem mem_params {v : Nat} : v ∈ L.params ↔ L.first ≤ v ∧ v < L.zero := by
  rw [params_eq, List.mem_range'_1]
  unfold zero bound index target
  omega

/-! ## rounds -/

structure Operands where
  /-- where the rows of each array lie -/
  arrays : List UInt64
  result : UInt64
  /-- the broadcast scalars -/
  spread : List Val
  count : Nat

/-- what the loop block receives in round `j` -/
def Operands.round (o : Operands) (j : Nat) : List Val :=
  o.arrays.map (fun p => ⟨p + UInt64.ofNat (16 * j), 0⟩) ++ [⟨o.result + UInt64.ofNat (16 * j), 0⟩] ++
    o.spread ++ [⟨UInt64.ofNat (2 * j), 0⟩, ⟨UInt64.ofNat o.count, 0⟩]

/-- the pairs of rows of round `j` -/
def Operands.pairs (o : Operands) (m : Memory) (j : Nat) : List Val :=
  o.arrays.map fun p => readVal m .f64x2 (p + UInt64.ofNat (16 * j))

variable {L} {w : World} {a : Activation} {o : Operands}

theorem getAll_params (st : State) (j : Nat) (ha : o.arrays.length = L.arrays.length)
    (hs : o.spread.length = L.scalars.length) (hz : L.zero ≤ st.regs.size) :
    (st.setAll L.params (o.round j)).getAll L.pointers =
        o.arrays.map (fun p => ⟨p + UInt64.ofNat (16 * j), 0⟩) ∧
      (st.setAll L.params (o.round j)).get L.target = ⟨o.result + UInt64.ofNat (16 * j), 0⟩ ∧
      (st.setAll L.params (o.round j)).getAll L.spread = o.spread ∧
      (st.setAll L.params (o.round j)).get L.index = ⟨UInt64.ofNat (2 * j), 0⟩ ∧
      (st.setAll L.params (o.round j)).get L.bound = ⟨UInt64.ofNat o.count, 0⟩ := by
  have hlen : L.params.length = (o.round j).length := by
    rw [params_eq, List.length_range']
    simp only [Operands.round, List.length_append, List.length_map, List.length_cons,
      List.length_nil, ha, hs]
  have h := State.getAll_setAll st L.params (o.round j) (by rw [params_eq]; exact List.nodup_range')
    hlen fun v hv => Nat.lt_of_lt_of_le (L.mem_params.mp hv).2 hz
  unfold params Operands.round at h
  simp only [State.getAll_append] at h
  obtain ⟨h1, h2⟩ := List.append_inj h (by
    simp [State.getAll, pointers, spread, ha, hs])
  obtain ⟨h3, h4⟩ := List.append_inj h1 (by simp [State.getAll, pointers, ha])
  obtain ⟨h5, h6⟩ := List.append_inj h3 (by simp [State.getAll, pointers, ha])
  have hr : [L.index, L.bound].map (fun v => (st.setAll L.params (o.round j)).get v) = _ := h2
  simp only [List.map_cons, List.map_nil, List.cons.injEq, and_true] at hr
  exact ⟨h5, List.head_eq_of_cons_eq h6, h4, hr.1, hr.2⟩

theorem next_pair (p : UInt64) (j : Nat) :
    p + UInt64.ofNat (16 * j) + 16 = p + UInt64.ofNat (16 * (j + 1)) := by
  rw [UInt64.add_assoc, Nat.mul_succ, UInt64.ofNat_add]
  rfl

theorem next_index (j : Nat) : UInt64.ofNat (2 * j) + 2 = UInt64.ofNat (2 * (j + 1)) := by
  rw [Nat.mul_succ, UInt64.ofNat_add]
  rfl

theorem ofNat_lt_ofNat {i n : Nat} (hi : i < 2 ^ 64) (hn : n < 2 ^ 64) :
    UInt64.ofNat i < UInt64.ofNat n ↔ i < n := by
  rw [UInt64.lt_iff_toNat_lt, UInt64.toNat_ofNat', UInt64.toNat_ofNat', Nat.mod_eq_of_lt hi,
    Nat.mod_eq_of_lt hn]

theorem evalICmp_ult (x y : Val) : evalICmp .ult .i64 x y = .ofBool (decide (x.lo < y.lo)) := by
  unfold evalICmp
  rw [if_neg (by decide)]
  rfl

theorem pointers_lt : ∀ v ∈ L.pointers, v < L.next := by
  intro v hv
  have hlt : v < L.target := (List.mem_range'_1.mp hv).2
  have htn : L.target ≤ L.next := by
    rw [next_eq, target]
    omega
  exact Nat.lt_of_lt_of_le hlt htn

theorem evolves_loads {s : State} {l : List UInt64}
    (hp : s.getAll L.pointers = l.map fun p => ⟨p, 0⟩)
    (hs : L.next + L.arrays.length ≤ s.regs.size) :
    ∃ st', Evolves w a s L.loadSteps st' ∧ s.Keeps L.next st' ∧
      st'.getAll (List.range' L.next L.arrays.length) = l.map (readVal s.mem .f64x2) := by
  obtain ⟨st', hev, hkeep, hget⟩ := evolves_eachStep (w := w) (a := a)
    (i := fun n => .load .f64x2 n 0)
    (F := fun st v => readVal st.mem .f64x2 (addressOf (st.get v).lo 0)) (n := L.next)
    (fun _ _ _ => rfl) (fun st st' v hv hk => by rw [hk.get v hv, hk.mem]) L.pointers_lt
    (Nat.le_refl _) s (by rw [L.length_pointers]; exact hs)
  refine ⟨st', hev, hkeep, ?_⟩
  rw [L.length_pointers] at hget
  have hmap : L.pointers.map (fun v => readVal s.mem .f64x2 (addressOf (s.get v).lo 0)) =
      (s.getAll L.pointers).map fun p => readVal s.mem .f64x2 p.lo := by
    rw [State.getAll, List.map_map]
    refine List.map_congr_left fun v _ => ?_
    rw [addressOf_zero]
    rfl
  rw [hget, hmap, hp, List.map_map]
  rfl

/-- the steps after the body store its result and move the pointers on -/
theorem evolves_moves {st : State} (t : Ty) (out : Nat) {k : Nat} {r : UInt64} {ps : List UInt64}
    (hz : L.zero ≤ k) (hk : L.moved k ≤ st.regs.size) (hr : st.get L.target = ⟨r, 0⟩)
    (hp : st.getAll L.pointers = ps.map fun p => ⟨p, 0⟩) :
    ∃ st', Evolves w a st ([⟨.store t out L.target 0, []⟩, ⟨.iconst .i64 16, [k]⟩] ++
        eachStep (fun n => .binary .iadd .i64 n k) (k + 1) L.pointers) st' ∧
      { st with mem := writeVal st.mem t r (st.get out) }.Keeps k st' ∧ st'.get k = ⟨16, 0⟩ ∧
      st'.getAll (List.range' (k + 1) L.arrays.length) = ps.map fun p => ⟨p + 16, 0⟩ := by
  have hm : L.moved k = k + 1 + L.arrays.length := rfl
  have ht : L.target < k := by unfold zero bound index at hz; omega
  have hpt : ∀ v ∈ L.pointers, v < k := fun v hv =>
    Nat.lt_trans (List.mem_range'_1.mp hv).2 ht
  -- the store and the step
  let s1 : State := { st with mem := writeVal st.mem t r (st.get out) }
  have h1 : execStep w a st ⟨.store t out L.target 0, []⟩ = .ok (.on s1) := by
    show Except.ok (Next.on { st with mem := writeVal st.mem t (addressOf (st.get L.target).lo 0) _ }) = _
    rw [hr, addressOf_zero]
  let s2 : State := s1.set k ⟨16, 0⟩
  have h2 : execStep w a s1 ⟨.iconst .i64 16, [k]⟩ = .ok (.on s2) := rfl
  have hk2 : s2.get k = ⟨16, 0⟩ := State.get_set_self _ (by show k < st.regs.size; omega)
  have hkeep2 : s1.Keeps k s2 := State.keeps_set s1 _ (Nat.le_refl k)
  -- the pointers
  obtain ⟨s3, h3, hkeep3, hget3⟩ := evolves_eachStep (w := w) (a := a)
    (i := fun n => .binary .iadd .i64 n k)
    (F := fun st v => evalBinary w.float .iadd .i64 (st.get v) (st.get k)) (n := k + 1)
    (fun _ _ _ => rfl) (fun st st' v hv hkp => by rw [hkp.get v hv, hkp.get k (Nat.lt_succ_self k)])
    (fun v hv => Nat.lt_succ_of_lt (hpt v hv)) (Nat.le_refl _) s2 (by
      rw [hkeep2.size, L.length_pointers]
      exact hk)
  rw [L.length_pointers] at hget3
  refine ⟨s3, (Evolves.cons h1 (.one h2)).append h3, hkeep2.trans (hkeep3.mono (Nat.le_succ k)),
    (hkeep3.get k (Nat.lt_succ_self k)).trans hk2, ?_⟩
  have hmap : L.pointers.map (fun v => evalBinary w.float .iadd .i64 (s2.get v) (s2.get k)) =
      (st.getAll L.pointers).map fun p => ⟨p.lo + 16, 0⟩ := by
    rw [State.getAll, List.map_map]
    refine List.map_congr_left fun v hv => ?_
    rw [hk2, hkeep2.get v (hpt v hv)]
    rfl
  rw [hget3, hmap, hp, List.map_map]
  rfl

/-- the last steps move the result pointer and the index on and compare the index with its bound -/
theorem evolves_counts {st : State} {k m : Nat} {r x n : UInt64} (hz : L.zero ≤ k) (hkm : k < m)
    (hs : m + 4 ≤ st.regs.size) (hk : st.get k = ⟨16, 0⟩) (hr : st.get L.target = ⟨r, 0⟩)
    (hx : st.get L.index = ⟨x, 0⟩) (hn : st.get L.bound = ⟨n, 0⟩) :
    ∃ st', Evolves w a st [⟨.binary .iadd .i64 L.target k, [m]⟩, ⟨.iconst .i64 2, [m + 1]⟩,
        ⟨.binary .iadd .i64 L.index (m + 1), [m + 2]⟩,
        ⟨.icmp .ult .i64 (m + 2) L.bound, [m + 3]⟩] st' ∧
      st.Keeps m st' ∧ st'.get m = ⟨r + 16, 0⟩ ∧ st'.get (m + 2) = ⟨x + 2, 0⟩ ∧
      st'.get (m + 3) = .ofBool (decide (x + 2 < n)) := by
  have hi : L.index < m := by unfold zero bound at hz; omega
  have hb : L.bound < m := by unfold zero at hz; omega
  let s1 : State := st.set m ⟨r + 16, 0⟩
  have h1 : execStep w a st ⟨.binary .iadd .i64 L.target k, [m]⟩ = .ok (.on s1) := by
    show Except.ok (Next.on (st.set _ (evalBinary _ _ _ (st.get L.target) (st.get k)))) = _
    rw [hr, hk]
    rfl
  have hk1 : st.Keeps m s1 := State.keeps_set st _ (Nat.le_refl m)
  let s2 : State := s1.set (m + 1) ⟨2, 0⟩
  have h2 : execStep w a s1 ⟨.iconst .i64 2, [m + 1]⟩ = .ok (.on s2) := rfl
  have hk2 : s1.Keeps (m + 1) s2 := State.keeps_set s1 _ (Nat.le_refl _)
  have hk12 : st.Keeps m s2 := hk1.trans (hk2.mono (Nat.le_succ m))
  have hs1 : m + 1 < s1.regs.size := by rw [hk1.size]; omega
  have hm2 : s2.get (m + 1) = ⟨2, 0⟩ := State.get_set_self _ hs1
  let s3 : State := s2.set (m + 2) ⟨x + 2, 0⟩
  have h3 : execStep w a s2 ⟨.binary .iadd .i64 L.index (m + 1), [m + 2]⟩ = .ok (.on s3) := by
    show Except.ok (Next.on (s2.set _ (evalBinary _ _ _ (s2.get L.index) (s2.get _)))) = _
    rw [hk12.get _ hi, hx, hm2]
    rfl
  have hk3 : s2.Keeps (m + 2) s3 := State.keeps_set s2 _ (Nat.le_refl _)
  have hk13 : st.Keeps m s3 := hk12.trans (hk3.mono (Nat.le_add_right m 2))
  have hs2 : m + 2 < s2.regs.size := by rw [hk12.size]; omega
  have hm3 : s3.get (m + 2) = ⟨x + 2, 0⟩ := State.get_set_self _ hs2
  let s4 : State := s3.set (m + 3) (.ofBool (decide (x + 2 < n)))
  have h4 : execStep w a s3 ⟨.icmp .ult .i64 (m + 2) L.bound, [m + 3]⟩ = .ok (.on s4) := by
    show Except.ok (Next.on (s3.set _ (evalICmp _ _ (s3.get _) (s3.get L.bound)))) = _
    rw [hm3, hk13.get _ hb, hn, evalICmp_ult]
    rfl
  have hk4 : s3.Keeps (m + 3) s4 := State.keeps_set s3 _ (Nat.le_refl _)
  refine ⟨s4, .cons h1 (.cons h2 (.cons h3 (.one h4))), hk13.trans (hk4.mono (Nat.le_add_right m 3)),
    ?_, ?_, ?_⟩
  · have hs : m < st.regs.size := by omega
    rw [hk4.get m (by omega), hk3.get m (by omega), hk2.get m (by omega)]
    exact State.get_set_self _ hs
  · rw [hk4.get (m + 2) (by omega), hm3]
  · have hs3 : m + 3 < s3.regs.size := by rw [hk13.size]; omega
    exact State.get_set_self _ hs3

theorem evolves_close {st : State} (t : Ty) (out : Nat) {k : Nat} {r x n : UInt64} {ps : List UInt64}
    (hz : L.zero ≤ k) (hk : L.moved k + 4 ≤ st.regs.size) (hr : st.get L.target = ⟨r, 0⟩)
    (hx : st.get L.index = ⟨x, 0⟩) (hn : st.get L.bound = ⟨n, 0⟩)
    (hp : st.getAll L.pointers = ps.map fun p => ⟨p, 0⟩) :
    ∃ st', Evolves w a st (L.closeSteps t out k) st' ∧
      st'.mem = writeVal st.mem t r (st.get out) ∧ st'.regs.size = st.regs.size ∧
      (∀ v < k, st'.get v = st.get v) ∧
      st'.getAll (List.range' (k + 1) L.arrays.length) = ps.map (fun p => ⟨p + 16, 0⟩) ∧
      st'.get (L.moved k) = ⟨r + 16, 0⟩ ∧ st'.get (L.moved k + 2) = ⟨x + 2, 0⟩ ∧
      st'.get (L.moved k + 3) = .ofBool (decide (x + 2 < n)) := by
  obtain ⟨s1, hev1, hkeep1, hk1, hp1⟩ :=
    evolves_moves (w := w) (a := a) t out hz (by omega) hr hp
  -- the operands of the loop are older than the new values
  have hget : ∀ v < k, s1.get v = st.get v := fun v hv => hkeep1.get v hv
  have ht : L.target < k := by unfold zero bound index at hz; omega
  have hi : L.index < k := by unfold zero bound at hz; omega
  have hb : L.bound < k := by unfold zero at hz; omega
  have hkm : k < L.moved k := by
    unfold moved
    omega
  obtain ⟨s2, hev2, hkeep2, hr2, hi2, hmore⟩ := evolves_counts (w := w) (a := a) hz hkm
    (by rw [hkeep1.size]; exact hk) hk1 ((hget _ ht).trans hr) ((hget _ hi).trans hx)
    ((hget _ hb).trans hn)
  refine ⟨s2, hev1.append hev2, hkeep2.mem.trans hkeep1.mem, hkeep2.size.trans hkeep1.size, ?_, ?_,
    hr2, hi2, hmore⟩
  · intro v hv
    rw [hkeep2.get v (Nat.lt_trans hv hkm), hget v hv]
  · rw [hkeep2.getAll fun v hv => (List.mem_range'_1.mp hv).2, hp1]

/-- a function contains the code of a loop around the steps `bs`, whose result is `out` and after
which `k` is the next value -/
structure CodeIn (L : LoopLayout) (f : Func) (ps : List ValueNo) (pre bs : List Step) (t : Ty)
    (out k : Nat) : Prop where
  entry : f.code[L.entry]? = some (ps, pre ++ (L.openSteps ++ [L.enter]))
  head : f.code[L.head]? =
    some (L.params, L.loadSteps ++ bs ++ (L.closeSteps t out k ++ [L.again k]))
  body : L.next + L.arrays.length ≤ k
  size : L.moved k + 4 ≤ f.values.size

/-- the body computes `y` from pairs of rows, whatever else is in the state -/
def BodyGives (L : LoopLayout) (w : World) (a : Activation) (bs : List Step) (out : Nat)
    (st0 : State) (pairs spread : List Val) (y : Val) : Prop :=
  ∀ st : State, st.regs.size = st0.regs.size → (∀ v < L.base, st.get v = st0.get v) →
    st.getAll (List.range' L.next L.arrays.length) = pairs → st.getAll L.spread = spread →
    Computes w a st bs (L.next + L.arrays.length) out y

def nextBlock (L : LoopLayout) (o : Operands) (j : Nat) : Nat × List Val :=
  if 2 * (j + 1) < o.count then (L.head, o.round (j + 1)) else (L.head + 1, [])

/-- **The branch at the end of a round** leads into the next one, or behind the loop. -/
theorem again_branches {s : State} {j k : Nat} (hn : o.count < 2 ^ 63) (hj : 2 * j < o.count)
    (hp : s.getAll (List.range' (k + 1) L.arrays.length) =
      o.arrays.map fun p => ⟨p + UInt64.ofNat (16 * (j + 1)), 0⟩)
    (hr : s.get (L.moved k) = ⟨o.result + UInt64.ofNat (16 * (j + 1)), 0⟩)
    (hs : s.getAll L.spread = o.spread)
    (hi : s.get (L.moved k + 2) = ⟨UInt64.ofNat (2 * (j + 1)), 0⟩)
    (hb : s.get L.bound = ⟨UInt64.ofNat o.count, 0⟩)
    (hmore : s.get (L.moved k + 3) =
      .ofBool (decide (UInt64.ofNat (2 * (j + 1)) < UInt64.ofNat o.count))) :
    execStep w a s (L.again k) = .ok (.branch s (nextBlock L o j).1 (nextBlock L o j).2) := by
  have hargs : s.getAll (List.range' (k + 1) L.arrays.length ++ [L.moved k] ++ L.spread ++
      [L.moved k + 2, L.bound]) = o.round (j + 1) := by
    simp only [State.getAll_append, hp, hs]
    simp only [State.getAll, List.map_cons, List.map_nil, hr, hi, hb, Operands.round]
  have hlt := ofNat_lt_ofNat (i := 2 * (j + 1)) (n := o.count) (by omega) (by omega)
  unfold again execStep nextBlock
  simp only [hmore]
  by_cases hmo : 2 * (j + 1) < o.count
  · rw [decide_eq_true (hlt.mpr hmo), if_pos hmo, if_neg (by decide), hargs]
  · rw [decide_eq_false fun h => hmo (hlt.mp h), if_neg hmo, if_pos (by decide)]
    rfl

/-- the states of round `j`: `s` and `s'` are those around the body, `st'` is the one that branches -/
structure RoundSteps (L : LoopLayout) (w : World) (a : Activation) (o : Operands) (bs : List Step)
    (t : Ty) (out k j : Nat) (st s s' st' : State) : Prop where
  loads : Evolves w a (st.setAll L.params (o.round j)) L.loadSteps s
  body : Evolves w a s bs s'
  close : Evolves w a s' (L.closeSteps t out k) st'
  again : execStep w a st' (L.again k) = .ok (.branch st' (nextBlock L o j).1 (nextBlock L o j).2)
  pairs : s.getAll (List.range' L.next L.arrays.length) = o.pairs st.mem j
  spread : s.getAll L.spread = o.spread
  target : s'.get L.target = ⟨o.result + UInt64.ofNat (16 * j), 0⟩
  unwritten : s'.mem = st.mem
  stored : st'.mem = writeVal st.mem t (o.result + UInt64.ofNat (16 * j)) (s'.get out)
  size : st'.regs.size = st.regs.size
  old : ∀ v < L.base, st'.get v = st.get v

/-- **The steps of one round.**  What is known of the body is that it can be performed on the
pairs of the round, and what it leaves then. -/
theorem round_steps {ps : List ValueNo} {pre bs : List Step} {t : Ty} {out k : Nat}
    (hc : CodeIn L a.fn ps pre bs t out k) (ha : o.arrays.length = L.arrays.length)
    (hs : o.spread.length = L.scalars.length) (hn : o.count < 2 ^ 63) {st : State}
    (hsz : st.regs.size = a.fn.values.size) {j : Nat} (hj : 2 * j < o.count) {Q : State → Prop}
    (hb : ∀ s : State, s.regs.size = st.regs.size → (∀ v < L.base, s.get v = st.get v) →
      s.getAll (List.range' L.next L.arrays.length) = o.pairs st.mem j → s.getAll L.spread = o.spread →
      ∃ s', Evolves w a s bs s' ∧ s.Keeps (L.next + L.arrays.length) s' ∧ Q s') :
    ∃ s s' st', RoundSteps L w a o bs t out k j st s s' st' ∧ Q s' := by
  have hsize := hc.size
  have hbody := hc.body
  have hnext := L.next_eq
  have hfirst := L.le_first
  have hm : L.moved k = k + 1 + L.arrays.length := rfl
  have hzero : L.zero + 2 = L.next := rfl
  obtain ⟨h1, h2, h3, h4, h5⟩ := getAll_params st j ha hs (by omega)
  let s1 := st.setAll L.params (o.round j)
  have hs1 : s1.regs.size = st.regs.size := State.size_setAll ..
  have hold1 : ∀ v < L.base, s1.get v = st.get v := by
    intro v hv
    have hout : v ∉ L.params := fun hm => by
      have := (L.mem_params.mp hm).1
      omega
    exact State.get_setAll_out st _ _ hout
  obtain ⟨s2, hev2, hkeep2, hpairs⟩ := evolves_loads (w := w) (a := a) (s := s1)
    (l := o.arrays.map fun p => p + UInt64.ofNat (16 * j)) (by
      rw [h1, List.map_map]
      rfl) (by rw [hs1]; omega)
  rw [State.mem_setAll, List.map_map] at hpairs
  have hspread : s2.getAll L.spread = o.spread := by
    rw [hkeep2.getAll fun v hv => ?_]
    · exact h3
    · have hlt : v < L.index := (List.mem_range'_1.mp hv).2
      have hin : L.index ≤ L.next := by unfold index target; omega
      exact Nat.lt_of_lt_of_le hlt hin
  -- the body
  obtain ⟨s3, hev3, hkeep3, hout⟩ := hb s2 (hkeep2.size.trans hs1)
    (fun v hv => (hkeep2.get v (by omega)).trans (hold1 v hv)) hpairs hspread
  have hkeep13 : s1.Keeps L.next s3 := hkeep2.trans (hkeep3.mono (Nat.le_add_right _ _))
  have hs3 : s3.regs.size = st.regs.size := hkeep13.size.trans hs1
  have hmem3 : s3.mem = st.mem := hkeep13.mem.trans (State.mem_setAll ..)
  have htz : L.target < L.next := by unfold target; omega
  have hiz : L.index < L.next := by unfold index target; omega
  have hbz : L.bound < L.next := by unfold bound index target; omega
  have htarget := (hkeep13.get _ htz).trans h2
  have hp3 : s3.getAll L.pointers =
      (o.arrays.map fun p => p + UInt64.ofNat (16 * j)).map fun p => ⟨p, 0⟩ := by
    rw [hkeep13.getAll L.pointers_lt, h1, List.map_map]
    rfl
  have hz : L.zero ≤ k := by omega
  obtain ⟨s4, hev4, hmem4, hs4, hget4, hp4, hr4, hi4, hmore⟩ := evolves_close (w := w) (a := a) t out
    hz (by omega) htarget ((hkeep13.get _ hiz).trans h4) ((hkeep13.get _ hbz).trans h5) hp3
  -- the branch
  have hsp4 : s4.getAll L.spread = o.spread := by
    rw [← hspread]
    refine List.map_congr_left fun v hv => ?_
    have hlt : v < L.index := (List.mem_range'_1.mp hv).2
    have hvk : v < k := Nat.lt_trans hlt (by omega)
    have hvn : v < L.next + L.arrays.length := Nat.lt_trans hlt (by omega)
    rw [hget4 v hvk, hkeep3.get v hvn]
  have hbd4 : s4.get L.bound = ⟨UInt64.ofNat o.count, 0⟩ := by
    rw [hget4 _ (by omega), hkeep13.get _ hbz]
    exact h5
  simp only [List.map_map, Function.comp_def, next_pair] at hp4
  rw [next_pair] at hr4
  rw [next_index] at hi4 hmore
  have hstep := again_branches (w := w) (a := a) hn hj hp4 hr4 hsp4 hi4 hbd4 hmore
  have hold4 : ∀ v < L.base, s4.get v = st.get v := by
    intro v hv
    rw [hget4 v (by omega), hkeep13.get v (by omega), hold1 v hv]
  rw [hmem3] at hmem4
  exact ⟨s2, s3, s4, ⟨hev2, hev3, hev4, hstep, hpairs, hspread, htarget, hmem3, hmem4,
    hs4.trans hs3, hold4⟩, hout⟩

/-- **One round of a loop.** -/
theorem round_sound {ps : List ValueNo} {pre bs : List Step} {t : Ty} {out k : Nat}
    (hc : CodeIn L a.fn ps pre bs t out k) (ha : o.arrays.length = L.arrays.length)
    (hs : o.spread.length = L.scalars.length) (hn : o.count < 2 ^ 63) {st0 st : State}
    (hsz : st.regs.size = a.fn.values.size) (hst : st.regs.size = st0.regs.size)
    (hold : ∀ v < L.base, st.get v = st0.get v) {j : Nat} (hj : 2 * j < o.count) {y : Val}
    (hb : BodyGives L w a bs out st0 (o.pairs st.mem j) o.spread y) (fuel : Nat) :
    ∃ st', runFrom w a (fuel + 1) st L.head (o.round j) =
        runFrom w a fuel st' (nextBlock L o j).1 (nextBlock L o j).2 ∧
      st'.mem = writeVal st.mem t (o.result + UInt64.ofNat (16 * j)) y ∧
      st'.regs.size = st.regs.size ∧ ∀ v < L.base, st'.get v = st0.get v := by
  obtain ⟨s, s', st', h, rfl⟩ := round_steps (Q := fun s' => s'.get out = y) (t := t) hc ha hs hn hsz hj
    fun s hsize hget hpairs hspread =>
      hb s (hsize.trans hst) (fun v hv => (hget v hv).trans (hold v hv)) hpairs hspread
  have hcode : a.fn.code[L.head]? =
      some (L.params, L.loadSteps ++ bs ++ L.closeSteps t out k ++ [L.again k]) := by
    rw [hc.head]
    simp only [List.append_assoc]
  refine ⟨st', runFrom_branch hcode ((h.loads.append h.body).append h.close) h.again, h.stored,
    h.size, ?_⟩
  intro v hv
  rw [h.old v hv, hold v hv]

/-! ## all rounds -/

/-- the memory after `k` rounds, in which round `j` stored `G j` -/
def mapped (m : Memory) (t : Ty) (r : UInt64) (G : Nat → Val) : Nat → Memory
  | 0 => m
  | k + 1 => writeVal (mapped m t r G k) t (r + UInt64.ofNat (16 * k)) (G k)

theorem pairs_mapped {m : Memory} {t : Ty} (ht : t.isVector = true) {G : Nat → Val} {i j n : Nat}
    (hap : ∀ p ∈ o.arrays, Memory.Apart o.result (16 * n) p (16 * n)) (hi : i ≤ n) (hj : j < n) :
    o.pairs (mapped m t o.result G i) j = o.pairs m j := by
  induction i with
  | zero => rfl
  | succ i ih =>
    rw [← ih (by omega)]
    refine List.map_congr_left fun p hp => ?_
    have h1 : Memory.Apart (o.result + UInt64.ofNat (16 * i)) 16 p (16 * n) :=
      (hap p hp).part (by omega) (by omega)
    have h2 : Memory.Apart (p + UInt64.ofNat (16 * j)) 16 (o.result + UInt64.ofNat (16 * i)) 16 :=
      h1.symm.part (by omega) (by omega)
    refine readVal_apart _ _ (u := .f64x2) ?_
    rw [bytes_of_isVector ht]
    exact h2.symm

theorem bytes_mapped {m : Memory} {t : Ty} (ht : t.isVector = true) {r : UInt64}
    {G : Nat → Val} {n : Nat} (hn : 16 * n ≤ 2 ^ 64) :
    (mapped m t r G n).bytes (16 * n) r = (List.range n).flatMap fun j => valBytes (G j) := by
  induction n with
  | zero => rfl
  | succ n ih =>
    have hold : (mapped m t r G (n + 1)).bytes (16 * n) r = (mapped m t r G n).bytes (16 * n) r := by
      refine Memory.bytes_congr fun i hi => get_writeVal_out _ _ ?_
      rw [Memory.dist_add_add hi (by omega), bytes_of_isVector ht]
      omega
    rw [Nat.mul_succ, Memory.bytes_append, hold, ih (by omega), mapped,
      bytes_writeVal_vector _ _ _ ht, List.range_succ, List.flatMap_append]
    simp

section
variable {ps : List ValueNo} {pre bs : List Step} {t : Ty} {out k n : Nat} {st0 : State}
  {m : Memory} {G : Nat → Val}

/-- what holds while a loop of `n` rounds runs, in which round `j` computes `G j` -/
structure Runs (L : LoopLayout) (w : World) (a : Activation) (o : Operands) (bs : List Step) (t : Ty)
    (out n : Nat) (st0 : State) (m : Memory) (G : Nat → Val) : Prop where
  arrays : o.arrays.length = L.arrays.length
  spread : o.spread.length = L.scalars.length
  count : o.count = 2 * n
  small : o.count < 2 ^ 63
  vector : t.isVector = true
  apart : ∀ p ∈ o.arrays, Memory.Apart o.result (16 * n) p (16 * n)
  size : st0.regs.size = a.fn.values.size
  body : ∀ j < n, BodyGives L w a bs out st0 (o.pairs m j) o.spread (G j)

structure At (L : LoopLayout) (o : Operands) (t : Ty) (st0 : State) (m : Memory) (G : Nat → Val)
    (j : Nat) (st : State) : Prop where
  size : st.regs.size = st0.regs.size
  old : ∀ v < L.base, st.get v = st0.get v
  mem : st.mem = mapped m t o.result G j

theorem At.round (hc : CodeIn L a.fn ps pre bs t out k)
    (hr : Runs L w a o bs t out n st0 m G) {j : Nat} (hj : j < n) {st : State}
    (h : At L o t st0 m G j st) (fuel : Nat) :
    ∃ st', runFrom w a (fuel + 1) st L.head (o.round j) =
        runFrom w a fuel st' (nextBlock L o j).1 (nextBlock L o j).2 ∧ At L o t st0 m G (j + 1) st' := by
  have hcount := hr.count
  have hb : BodyGives L w a bs out st0 (o.pairs st.mem j) o.spread (G j) := by
    rw [h.mem, pairs_mapped hr.vector hr.apart (Nat.le_of_lt hj) hj]
    exact hr.body j hj
  obtain ⟨st', hrun, hmem, hsz, hold⟩ := round_sound hc hr.arrays hr.spread hr.small
    (h.size.trans hr.size) h.size h.old (by omega) hb fuel
  refine ⟨st', hrun, hsz.trans h.size, hold, ?_⟩
  rw [hmem, h.mem]
  rfl

/-- **A loop from any round on**: as many rounds as there are pairs of rows left. -/
theorem At.rounds (hc : CodeIn L a.fn ps pre bs t out k)
    (hr : Runs L w a o bs t out n st0 m G) (fuel i : Nat) {j : Nat} (hj : j + (i + 1) = n)
    {st : State} (h : At L o t st0 m G j st) :
    ∃ st', runFrom w a (fuel + (i + 1)) st L.head (o.round j) =
        runFrom w a fuel st' (L.head + 1) [] ∧ At L o t st0 m G n st' := by
  have hcount := hr.count
  induction i generalizing j st with
  | zero =>
    obtain ⟨st', hrun, h'⟩ := h.round hc hr (by omega) fuel
    rw [nextBlock, if_neg (by omega)] at hrun
    refine ⟨st', hrun, ?_⟩
    rw [← hj]
    exact h'
  | succ i ih =>
    obtain ⟨st1, hrun, h1⟩ := h.round hc hr (by omega) (fuel + (i + 1))
    rw [nextBlock, if_pos (by omega)] at hrun
    obtain ⟨st', hrun', h'⟩ := ih (by omega) h1
    exact ⟨st', hrun.trans hrun', h'⟩

end

/-! ## the way in -/

def operands (L : LoopLayout) (st : State) : Operands where
  arrays := L.arrays.map fun v => (st.get v).lo
  result := (st.get L.result).lo
  spread := L.scalars.map fun v => ⟨(st.get v).lo, (st.get v).lo⟩
  count := (st.get L.count).lo.toNat

theorem evalICmp_zero (x : Val) : evalICmp .eq .i64 x ⟨0, 0⟩ = .ofBool (decide (x.lo = 0)) := by
  unfold evalICmp
  rw [if_neg (by decide)]
  show Val.ofBool (x.lo.toNat == (0 : UInt64).toNat) = _
  congr 1
  rw [Bool.eq_iff_iff, beq_iff_eq, UInt64.toNat_inj, decide_eq_true_iff]

theorem enter_branches {st s : State} (ha : s.getAll L.arrays = L.arrays.map fun v => ⟨(st.get v).lo, 0⟩)
    (hr : s.get L.result = ⟨(st.get L.result).lo, 0⟩) (hl : s.getAll L.lanes = (operands L st).spread)
    (hz : s.get L.zero = ⟨0, 0⟩) (hc : s.get L.count = ⟨(st.get L.count).lo, 0⟩)
    (he : s.get (L.zero + 1) = .ofBool (decide ((st.get L.count).lo = 0))) :
    execStep w a s L.enter = .ok (if (operands L st).count = 0 then .branch s (L.head + 1) []
      else .branch s L.head ((operands L st).round 0)) := by
  have hargs : s.getAll (L.arrays ++ [L.result] ++ L.lanes ++ [L.zero, L.count]) =
      (operands L st).round 0 := by
    simp only [State.getAll_append, ha, hl]
    simp only [State.getAll, List.map_cons, List.map_nil, hr, hz, hc, Operands.round, operands,
      List.map_map, Nat.mul_zero, UInt64.ofNat_toNat, Function.comp_def,
      show ∀ p : UInt64, p + UInt64.ofNat 0 = p from fun p => UInt64.add_zero p]
    rfl
  unfold enter execStep
  simp only [he]
  by_cases h0 : (st.get L.count).lo = 0
  · rw [decide_eq_true h0, if_neg (by decide), if_pos (by rw [operands, h0]; rfl)]
    rfl
  · have hne : (operands L st).count ≠ 0 := fun h => h0 (UInt64.toNat_inj.mp h)
    rw [decide_eq_false h0, if_pos (by decide), if_neg hne, hargs]

/-- **The steps before a loop lead into its first round**, or behind it if there are no rows. -/
theorem enter_sound {st : State} (hs : L.next ≤ st.regs.size)
    (hold : ∀ v ∈ L.arrays ++ L.scalars ++ [L.result, L.count], v < L.base)
    (hw : ∀ v ∈ L.arrays ++ [L.result, L.count], (st.get v).hi = 0) :
    ∃ st', Evolves w a st L.openSteps st' ∧ st.Keeps L.base st' ∧
      execStep w a st' L.enter = .ok
        (if (operands L st).count = 0 then .branch st' (L.head + 1) []
          else .branch st' L.head ((operands L st).round 0)) := by
  have hnext := L.next_eq
  have hf : L.first = L.base + L.scalars.length := rfl
  have hzn : L.zero + 2 = L.next := rfl
  have hlt : ∀ {v : Nat}, v ∈ L.arrays ++ L.scalars ++ [L.result, L.count] → v < L.zero := fun hv =>
    Nat.lt_of_lt_of_le (hold _ hv) (by omega)
  have hc : L.count ∈ L.arrays ++ L.scalars ++ [L.result, L.count] := by simp
  have hr : L.result ∈ L.arrays ++ L.scalars ++ [L.result, L.count] := by simp
  -- the broadcasts
  obtain ⟨s1, hev1, hkeep1, hget1⟩ := evolves_eachStep (w := w) (a := a) (i := .splat .f64x2)
    (F := fun st v => ⟨(st.get v).lo, (st.get v).lo⟩) (n := L.base) (fun _ _ _ => rfl)
    (fun st st' v hv hk => by rw [hk.get v hv])
    (fun v hv => hold v (List.mem_append_left _ (List.mem_append_right _ hv))) (Nat.le_refl _) st
    (by omega)
  have hs1 : s1.regs.size = st.regs.size := hkeep1.size
  -- the comparison with zero
  let s2 : State := s1.set L.zero ⟨0, 0⟩
  have h2 : execStep w a s1 ⟨.iconst .i64 0, [L.zero]⟩ = .ok (.on s2) := rfl
  have hkeep2 : s1.Keeps L.zero s2 := State.keeps_set s1 _ (Nat.le_refl _)
  have hz2 : s2.get L.zero = ⟨0, 0⟩ := by
    have hl : L.zero < s1.regs.size := by omega
    exact State.get_set_self _ hl
  let s3 : State := s2.set (L.zero + 1) (.ofBool (decide ((st.get L.count).lo = 0)))
  have hold2 : ∀ v < L.base, s2.get v = st.get v := fun v hv =>
    (hkeep2.get v (by omega)).trans (hkeep1.get v hv)
  have h3 : execStep w a s2 ⟨.icmp .eq .i64 L.count L.zero, [L.zero + 1]⟩ = .ok (.on s3) := by
    show Except.ok (Next.on (s2.set _ (evalICmp _ _ (s2.get L.count) (s2.get L.zero)))) = _
    rw [hz2, evalICmp_zero, hold2 _ (hold _ hc)]
    rfl
  have hkeep3 : s2.Keeps (L.zero + 1) s3 := State.keeps_set s2 _ (Nat.le_refl _)
  have hc3 : s3.get (L.zero + 1) = .ofBool (decide ((st.get L.count).lo = 0)) := by
    have hl : L.zero + 1 < s2.regs.size := by
      rw [State.size_set]
      omega
    exact State.get_set_self _ hl
  have hold3 : ∀ v < L.base, s3.get v = st.get v := fun v hv =>
    (hkeep3.get v (by omega)).trans (hold2 v hv)
  have hkeep : st.Keeps L.base s3 :=
    ⟨hkeep3.mem.trans (hkeep2.mem.trans hkeep1.mem), hkeep3.size.trans (hkeep2.size.trans hkeep1.size),
      hold3⟩
  refine ⟨s3, hev1.append (.cons h2 (.one h3)), hkeep, ?_⟩
  -- the branch
  have hword : ∀ v ∈ L.arrays ++ [L.result, L.count], v < L.base →
      s3.get v = ⟨(st.get v).lo, 0⟩ := by
    intro v hv hb
    rw [hold3 v hb, ← hw v hv]
  refine enter_branches ?_ (hword L.result (by simp) (hold _ hr)) ?_
    ((hkeep3.get _ (Nat.lt_succ_self _)).trans hz2) (hword L.count (by simp) (hold _ hc)) hc3
  · exact List.map_congr_left fun v hv => hword v (List.mem_append_left _ hv)
      (hold v (List.mem_append_left _ (List.mem_append_left _ hv)))
  · have hin : ∀ v ∈ L.lanes, v < L.zero := fun v hv => by
      have hlt : v < L.first := (List.mem_range'_1.mp hv).2
      exact Nat.lt_of_lt_of_le hlt (by omega)
    rw [(hkeep3.mono (Nat.le_succ _)).getAll hin, hkeep2.getAll hin]
    exact hget1

/-- **A loop applies its body to two rows after two rows.**  From the block before the loop, `n`
rounds lead behind it. -/
theorem CodeIn.run {ps : List ValueNo} {pre bs : List Step} {t : Ty} {out k n : Nat}
    (hc : CodeIn L a.fn ps pre bs t out k) {st0 st : State} {args : List Val} {G : Nat → Val}
    (hpre : Evolves w a (st0.setAll ps args) pre st)
    (hold : ∀ v ∈ L.arrays ++ L.scalars ++ [L.result, L.count], v < L.base)
    (hw : ∀ v ∈ L.arrays ++ [L.result, L.count], (st.get v).hi = 0)
    (hr : Runs L w a (operands L st) bs t out n st st.mem G) (fuel : Nat) :
    ∃ st', runFrom w a (fuel + n + 1) st0 L.entry args = runFrom w a fuel st' (L.head + 1) [] ∧
      At L (operands L st) t st st.mem G n st' := by
  have hsize := hc.size
  have hbody := hc.body
  have hcount := hr.count
  have hm : L.moved k = k + 1 + L.arrays.length := rfl
  obtain ⟨st1, hev, hkeep, hstep⟩ := enter_sound (w := w) (a := a) (by rw [hr.size]; omega) hold hw
  have h1 : At L (operands L st) t st st.mem G 0 st1 := ⟨hkeep.size, hkeep.get, hkeep.mem⟩
  have hcode : a.fn.code[L.entry]? = some (ps, pre ++ L.openSteps ++ [L.enter]) := by
    rw [hc.entry, List.append_assoc]
  cases n with
  | zero =>
    rw [if_pos hcount] at hstep
    exact ⟨st1, runFrom_branch hcode (hpre.append hev) hstep, h1⟩
  | succ n =>
    rw [if_neg (by omega)] at hstep
    have hin : runFrom w a (fuel + (n + 1) + 1) st0 L.entry args = _ :=
      runFrom_branch hcode (hpre.append hev) hstep
    obtain ⟨st', hrun, h'⟩ := h1.rounds hc hr fuel n (Nat.zero_add _)
    exact ⟨st', hin.trans hrun, h'⟩

end LoopLayout

end Emit

end TreeJit
