import TreeJit.Proofs.Emit.LoopProgress
import TreeJit.Proofs.Emit.LoopRounds
import TreeJit.Proofs.Emit.Session

/-!
# Vector loops map rows to rows

A loop whose body only computes can always be written, and in every function that is made of what was
written it sends two rows after two rows of its arrays through the body.

* `BodyComputes`       a body that appends instructions that only compute, and gives a vector;
* `VectorLoop.Given`   the registers in front of a loop: words, and apart from the result;
* `LoopMaps`           what the loop does: every round, every access to memory, and the results;
* `LoopLayout.codeIn_around`      the code that is written of a loop;
* `LoopLayout.codeIn_of_within`   which stays in the finished function;
* `LoopLayout.Fits.maps`          where it does what `LoopMaps` says;
* `Builder.vectorLoop_maps`       a builder takes the loop, and it maps.
-/

namespace TreeJit

open SSA

namespace SSA

def State.value (st : State) (v : Int) : Val := st.get v.toNat

def element (m : Memory) (p : UInt64) (i : Nat) : UInt64 :=
  (readVal m .f64 (p + UInt64.ofNat (8 * i))).lo

theorem readVal_elements (m : Memory) (p : UInt64) (j : Nat) :
    readVal m .f64x2 (p + UInt64.ofNat (16 * j)) = ⟨element m p (2 * j), element m p (2 * j + 1)⟩ :=
  readVal_pair m p j

theorem State.setAll_nil (st : State) (vs : List ValueNo) : st.setAll vs [] = st := by
  cases vs <;> rfl

theorem Block.isClosed_of_concat {blk : Block} {ss : List Step} {s : Step}
    (h : blk.steps.toList = ss ++ [s]) (hs : s.inst.isTerminator = true) : blk.isClosed = true := by
  have e : blk.steps.back? = some s := by
    rw [← Array.getLast?_toList, h, List.getLast?_concat]
  rw [Block.isClosed, e]
  exact hs

end SSA

namespace Emit

/-! ## the code in the finished function -/

section
variable {L : LoopLayout} {l : VectorLoop} {b : Body} {cur : Nat}

theorem LoopLayout.head_eq (hfits : L.Fits l b cur) (ss : List Step) :
    L.head = (writeAt cur ss b.shape.code).length := by
  rw [length_writeAt, Body.shape_code_length, hfits.head]

theorem LoopLayout.code_head (hfits : L.Fits l b cur) {d : Body}
    (h : d.shape.code = writeAt cur (L.openSteps ++ [L.enter]) b.shape.code ++
      [(L.params, L.loadSteps), ([], [])]) : d.fn.code[L.head]? = some (L.params, L.loadSteps) := by
  show d.shape.code[L.head]? = _
  rw [h, L.head_eq hfits, List.getElem?_append_right (Nat.le_refl _), Nat.sub_self]
  rfl

/-- the code of a loop around steps: `d1` is what the start of the loop leaves, `d2` has the steps and
`d3` has the whole loop -/
theorem LoopLayout.codeIn_around (hfits : L.Fits l b cur) {before : Block}
    (hcur : b.fn.blocks[cur]? = some before) {d1 d2 d3 : Body} {ss : List Step} {t : Ty}
    {out : ValueNo} (h1 : d1.shape = { b.shape with
      code := writeAt cur (L.openSteps ++ [L.enter]) b.shape.code ++
        [(L.params, L.loadSteps), ([], [])]
      values := b.shape.values ++ List.replicate L.scalars.length .f64x2 ++
        L.paramTypes ++ [.i64, .i8] ++ List.replicate L.arrays.length .f64x2
      current := some L.head })
    (hw : d1.Writes d2 ss) (h3 : d3.shape = { d2.shape with
      code := writeAt L.head (L.closeSteps t out d2.fn.values.size ++
        [L.again d2.fn.values.size]) d2.shape.code
      values := d2.shape.values ++ (.i64 :: List.replicate L.arrays.length .i64 ++
        [.i64, .i64, .i64, .i8])
      current := some (L.head + 1) }) :
    d1.fn.values.size = L.next + L.arrays.length ∧
      CodeIn L d3.fn before.params.toList before.steps.toList ss t out d2.fn.values.size := by
  have hblk : b.shape.code[cur]? = some (before.params.toList, before.steps.toList) :=
    Func.code_of_block hcur
  have hlt : cur < b.shape.code.length := (List.getElem?_eq_some_iff.mp hblk).1
  obtain ⟨hstart, hcode, hsize⟩ := shape_around hfits h1 hw h3
  refine ⟨hstart, ?_, ?_, hstart ▸ hw.size_le, Nat.le_of_eq hsize.symm⟩
  · show d3.shape.code[L.entry]? = _
    rw [hcode, hfits.entry, List.getElem?_append_left (by rw [length_writeAt]; exact hlt), writeAt,
      List.getElem?_modify, hblk]
    exact congrArg some (if_pos rfl)
  · show d3.shape.code[L.head]? = _
    rw [hcode, L.head_eq hfits, List.getElem?_append_right (Nat.le_refl _), Nat.sub_self]
    rfl

end

/-- **What was written of a loop stays in the function that comes of it.** -/
theorem LoopLayout.codeIn_of_within {L : LoopLayout} {d : Body} (hS : d.Sound) {f : Func}
    (h : d.Within f) {ps : List ValueNo} {pre bs : List Step} {t : Ty} {out k : Nat}
    (hc : CodeIn L d.fn ps pre bs t out k) :
    (∃ ps', CodeIn L f ps' pre bs t out k) ∧ L.head + 1 < f.blocks.size := by
  obtain ⟨e, he, -, hesteps⟩ := Func.block_of_code hc.entry
  obtain ⟨b, hb, hbparams, hbsteps⟩ := Func.block_of_code hc.head
  obtain ⟨e', he', hte⟩ := h.blocks _ _ he
  obtain ⟨b', hb', htb⟩ := h.blocks _ _ hb
  have heclosed : e.isClosed = true := by
    rw [← List.append_assoc] at hesteps
    exact Block.isClosed_of_concat hesteps rfl
  have hbclosed : b.isClosed = true := by
    rw [← List.append_assoc] at hbsteps
    exact Block.isClosed_of_concat hbsteps rfl
  -- the branch into the loop counts both of its blocks
  have hcounted : ∀ t' ∈ L.enter.inst.targets,
      ∃ dest, d.fn.blocks[t'.block]? = some dest ∧ 0 < dest.preds := by
    have hmem : L.enter ∈ e.steps.toList := by
      rw [hesteps]
      simp
    exact ((hS.blocks _ _ he).steps _ hmem).counted
  obtain ⟨x, hx, -⟩ := hcounted ⟨L.head + 1, []⟩ List.mem_cons_self
  obtain ⟨b0, hb0, hpreds⟩ :=
    hcounted ⟨L.head, L.arrays ++ [L.result] ++ L.lanes ++ [L.zero, L.count]⟩
      (List.mem_cons_of_mem _ List.mem_cons_self)
  obtain rfl : b0 = b := Option.some.inj (hb0.symm.trans hb)
  obtain ⟨x', hx', -⟩ := h.blocks _ _ hx
  refine ⟨⟨e'.params.toList, ?_, ?_, hc.body, Nat.le_trans hc.size h.size⟩,
    (Array.getElem?_eq_some_iff.mp hx').1⟩
  · rw [Func.code_of_block he', hte.steps heclosed, hesteps]
  · rw [Func.code_of_block hb', htb.steps hbclosed, htb.params hpreds, hbsteps, hbparams]

/-! ## what a loop does -/

/-- a body that appends instructions that only compute, and gives a vector -/
structure BodyComputes (body : Builder → Builder × Option Int) (b : Builder) (as : List Action)
    (out : Int) : Prop where
  result : body b = ({ b with draft := b.draft.perform as }, some out)
  plain : ∀ a ∈ as, a.isPlain = true
  healthy : (b.draft.perform as).fault = none
  vector : ((b.draft.perform as).typeOf out).isVector = true

/-- the registers in front of a loop over `2 * n` rows -/
structure VectorLoop.Given (l : VectorLoop) (n : Nat) (st : State) : Prop where
  arrays : ∀ c ∈ l.arrays, (st.value c.value).hi = 0
  result : (st.value l.result).hi = 0
  count : st.value l.count = ⟨UInt64.ofNat (2 * n), 0⟩
  small : 2 * n < 2 ^ 63
  apart : ∀ c ∈ l.arrays,
    Memory.Apart (st.value l.result).lo (16 * n) (st.value c.value).lo (16 * n)

/-- what is seen of round `j`: the loop block, a read from each array and one write -/
def VectorLoop.accesses (l : VectorLoop) (st : State) (head : Nat) (out : Int) (j : Nat)
    (r : LoopRound) : List SSA.Event :=
  .block head ::
    ((l.arrays.map fun c => .load ((st.value c.value).lo + UInt64.ofNat (16 * j)) 16) ++
      [.store ((st.value l.result).lo + UInt64.ofNat (16 * j)) (valBytes (r.after.value out))])

/-- a run of the loop `l` over `2 * n` rows, from the point `p` and the state `st` to the state `st'`
behind it.  The body is the code `bs` with the result `out`, and it sees the columns of `inner`. -/
structure LoopMaps (w : World) (a : Activation) (l : VectorLoop) (inner : Builder) (bs : List Step)
    (out : Int) (head n : Nat) (p : Point) (st : State) (rounds : List LoopRound) (st' : State) :
    Prop where
  count : rounds.length = n
  run : Advances w a p
    ((rounds.mapIdx fun j r => l.accesses st head out j r).flatten ++ [.block (head + 1)])
    (.inside (head + 1) 0 st')
  interpreted : ∀ fuel,
    p.finish w a (fuel + (n + 1)) = (Point.inside (head + 1) 0 st').finish w a fuel
  body : ∀ r ∈ rounds, Evolves w a r.before bs r.after
  arrays : ∀ (j : Nat) r, rounds[j]? = some r → ∀ c ∈ l.arrays, ∃ v,
    inner.column c.column = (inner, v) ∧ r.before.value v =
      ⟨element st.mem (st.value c.value).lo (2 * j), element st.mem (st.value c.value).lo (2 * j + 1)⟩
  scalars : ∀ r ∈ rounds, ∀ c ∈ l.scalars, ∃ v, inner.column c.column = (inner, v) ∧
    r.before.value v = ⟨(st.value c.value).lo, (st.value c.value).lo⟩
  results : 16 * n ≤ 2 ^ 64 → st'.mem.bytes (16 * n) (st.value l.result).lo =
    rounds.flatMap fun r => valBytes (r.after.value out)
  others : ∀ x, 16 * n ≤ Memory.dist (st.value l.result).lo x → st'.mem.get x = st.mem.get x

namespace LoopLayout
variable {L : LoopLayout} {l : VectorLoop} {b : Body} {cur : Nat}

/-! ## columns -/

theorem lookup_of_mem {xs : List (Int × Int)} (hn : (xs.map Prod.fst).Nodup) {c v : Int}
    (h : (c, v) ∈ xs) : xs.lookup c = some v := by
  induction xs with
  | nil => cases h
  | cons x xs ih =>
    obtain ⟨k, u⟩ := x
    obtain ⟨hk, hn⟩ := List.nodup_cons.mp hn
    rcases List.mem_cons.mp h with e | hm
    · cases e
      exact List.lookup_cons_self
    · have hne : c ≠ k := by
        rintro rfl
        exact hk (List.mem_map.mpr ⟨_, hm, rfl⟩)
      rw [List.lookup_cons, beq_false_of_ne hne]
      exact ih hn hm

/-- distinct columns are found: the arrays by their pairs, the scalars by their broadcasts -/
theorem lookup_eq (hf : L.Fits l b cur) (hn : ((l.arrays ++ l.scalars).map (·.column)).Nodup) :
    (∀ (i : Nat) c, l.arrays[i]? = some c →
      (L.columns l).lookup c.column = some ((L.next + i : Nat) : Int)) ∧
    ∀ (i : Nat) c, l.scalars[i]? = some c →
      (L.columns l).lookup c.column = some ((L.target + 1 + i : Nat) : Int) := by
  have hA : l.arrays.length = L.arrays.length := by simpa using congrArg List.length hf.arrays
  have hN : l.scalars.length = L.scalars.length := by simpa using congrArg List.length hf.scalars
  have hfst : ((L.columns l).map Prod.fst).Nodup := by
    unfold columns
    rw [List.map_reverse, List.nodup_reverse, List.map_append, List.map_fst_zip, List.map_fst_zip,
      ← List.map_append]
    · exact hn
    · simp [spread, hN]
    · simp [hA]
  have hzip : ∀ (cs : List ColumnInput) (n k i : Nat) c, cs[i]? = some c → cs.length = k →
      (c.column, ((n + i : Nat) : Int)) ∈
        (cs.map (·.column)).zip ((List.range' n k).map Int.ofNat) := by
    intro cs n k i c hi hk
    have hlt := (List.getElem?_eq_some_iff.mp hi).1
    refine List.mem_iff_getElem?.mpr ⟨i, List.getElem?_zip_eq_some.mpr ⟨?_, ?_⟩⟩
    · rw [List.getElem?_map, hi]
      rfl
    · rw [List.getElem?_map, List.getElem?_range' (by omega), Nat.one_mul]
      rfl
  refine ⟨fun i c hi => lookup_of_mem hfst ?_, fun i c hi => lookup_of_mem hfst ?_⟩
  · exact List.mem_reverse.mpr (List.mem_append_left _ (hzip l.arrays L.next _ i c hi hA))
  · exact List.mem_reverse.mpr (List.mem_append_right _ (hzip l.scalars (L.target + 1) _ i c hi hN))

/-! ## operands -/

theorem values_eq {xs : List ColumnInput} {ns : List ValueNo} (st : State)
    (h : xs.map (·.value) = ns.map Int.ofNat) {α : Type} (f : Val → α) :
    (ns.map fun v => f (st.get v)) = xs.map fun c => f (st.value c.value) := by
  have e := congrArg (List.map fun v => f (st.value v)) h
  rw [List.map_map, List.map_map] at e
  exact e.symm

theorem Fits.operands_eq (hf : L.Fits l b cur) (st : State) : operands L st =
    ⟨l.arrays.map fun c => (st.value c.value).lo, (st.value l.result).lo,
      l.scalars.map fun c => ⟨(st.value c.value).lo, (st.value c.value).lo⟩,
      (st.value l.count).lo.toNat⟩ := by
  have ha := values_eq st hf.arrays Val.lo
  have hs := values_eq st hf.scalars fun x => (⟨x.lo, x.lo⟩ : Val)
  rw [operands, ha, hs, hf.result, hf.count]
  rfl

theorem Fits.old (hf : L.Fits l b cur) :
    ∀ v ∈ L.arrays ++ L.scalars ++ [L.result, L.count], v < L.base := by
  have hlt : ∀ {v : ValueNo} {t : Ty}, b.fn.values[v]? = some t → v < L.base := by
    intro v t h
    rw [hf.base]
    exact (Array.getElem?_eq_some_iff.mp h).1
  intro v hv
  rcases List.mem_append.mp hv with hv | hv
  · rcases List.mem_append.mp hv with hv | hv
    · exact hlt (hf.arraysTyped v hv)
    · exact hlt (hf.scalarsTyped v hv)
  · rcases List.mem_pair.mp hv with rfl | rfl
    · exact hlt hf.resultTyped
    · exact hlt hf.countTyped

theorem Fits.words (hf : L.Fits l b cur) {n : Nat} {st : State} (hg : l.Given n st) :
    ∀ v ∈ L.arrays ++ [L.result, L.count], (st.get v).hi = 0 := by
  intro v hv
  rcases List.mem_append.mp hv with hv | hv
  · have hm : Int.ofNat v ∈ l.arrays.map (·.value) := by
      rw [hf.arrays]
      exact List.mem_map_of_mem hv
    obtain ⟨c, hc, e⟩ := List.mem_map.mp hm
    have h := hg.arrays c hc
    rw [e] at h
    exact h
  · rcases List.mem_pair.mp hv with rfl | rfl
    · have h := hg.result
      rw [hf.result] at h
      exact h
    · have h := congrArg Val.hi hg.count
      rw [hf.count] at h
      exact h

theorem Fits.suit (hf : L.Fits l b cur) {n : Nat} {st : State} (hg : l.Given n st) :
    (operands L st).Suit L n := by
  have hsmall := hg.small
  have hcount : (st.value l.count).lo.toNat = 2 * n := by
    rw [hg.count]
    show (UInt64.ofNat (2 * n)).toNat = 2 * n
    rw [UInt64.toNat_ofNat', Nat.mod_eq_of_lt (by omega)]
  have e := hf.operands_eq st
  refine ⟨?_, ?_, ?_, ?_, ?_⟩
  · rw [operands, List.length_map]
  · rw [operands, List.length_map]
  · rw [e]
    exact hcount
  · rw [e]
    show (st.value l.count).lo.toNat < 2 ^ 63
    rw [hcount]
    exact hsmall
  · rw [e]
    intro p hp
    obtain ⟨c, hc, rfl⟩ := List.mem_map.mp hp
    exact hg.apart c hc

/-! ## the rounds -/

theorem storedBytes_vector {t : Ty} (ht : t.isVector = true) (v : Val) : storedBytes t v = valBytes v :=
  if_pos ht

theorem get_of_getAll {st : State} {s k i : Nat} {xs : List Val}
    (h : st.getAll (List.range' s k) = xs) (hi : i < k) : xs[i]? = some (st.get (s + i)) := by
  rw [← h, State.getAll, List.getElem?_map, List.getElem?_range' hi, Nat.one_mul]
  rfl

theorem getD_range {α : Type} (xs : List α) (x : α) :
    ((List.range xs.length).map fun i => xs.getD i x) = xs := by
  refine List.ext_getElem? fun i => ?_
  rw [List.getElem?_map]
  by_cases hi : i < xs.length
  · rw [List.getElem?_range hi, List.getElem?_eq_getElem hi]
    simp [hi]
  · rw [List.getElem?_eq_none (by simpa using hi), List.getElem?_eq_none (by simpa using hi)]
    rfl

/-- **The rounds that were passed are the rows, two after two.** -/
theorem Passed.maps (hf : L.Fits l b cur) (hn : ((l.arrays ++ l.scalars).map (·.column)).Nodup)
    {inner : Builder} (hst : inner.state = .building) (hi : inner.Healthy)
    (hcols : inner.columns = L.columns l) {w : World} {a : Activation} {bs : List Step} {t : Ty}
    (ht : t.isVector = true) {out n : Nat} {p : Point} {st st' : State} {rounds : List LoopRound}
    (hg : l.Given n st) (hlen : rounds.length = n)
    (h : Passed L w a (operands L st) bs t out p st rounds st') :
    LoopMaps w a l inner bs out L.head n p st rounds st' := by
  have hops := hf.operands_eq st
  have hsuit := hf.suit hg
  have hA : l.arrays.length = L.arrays.length := by simpa using congrArg List.length hf.arrays
  have hN : l.scalars.length = L.scalars.length := by simpa using congrArg List.length hf.scalars
  obtain ⟨hla, hls⟩ := lookup_eq hf hn
  have hcolumn : ∀ {c v : Int}, (L.columns l).lookup c = some v → inner.column c = (inner, v) := by
    intro c v hv
    refine Builder.attempt_eq hst hi ?_ hi
    rw [hcols, hv]
  have hdoor : L.door (operands L st) rounds.length = (L.head + 1, []) := by
    have hc := hsuit.count
    exact if_neg (by omega)
  have hrun := h.run
  rw [hdoor] at hrun
  unfold arrival at hrun
  rw [State.setAll_nil] at hrun
  refine ⟨hlen, ?_, ?_, ?_, ?_, ?_, ?_, ?_⟩
  · have e : (rounds.mapIdx fun j r => l.accesses st L.head out j r).flatten =
        L.seen (operands L st) t out rounds := by
      unfold seen
      congr 2
      funext j r
      rw [hops, VectorLoop.accesses, roundEvents, storedBytes_vector ht, List.map_map]
      rfl
    rw [e]
    exact hrun
  · intro fuel
    have hfin := hrun.finish fuel
    rw [entered_append, entered_seen, List.length_append, List.length_replicate, hlen] at hfin
    exact hfin
  · intro r hr
    obtain ⟨j, hj⟩ := List.mem_iff_getElem?.mp hr
    exact (h.body j r hj).1
  · intro j r hj c hc
    obtain ⟨i, hci⟩ := List.mem_iff_getElem?.mp hc
    have hlt : i < L.arrays.length := hA ▸ (List.getElem?_eq_some_iff.mp hci).1
    refine ⟨_, hcolumn (hla i c hci), ?_⟩
    have hx := get_of_getAll (h.body j r hj).2.1 hlt
    rw [hops, Operands.pairs, List.map_map, List.getElem?_map, hci] at hx
    rw [← readVal_elements]
    exact (Option.some.inj hx).symm
  · intro r hr c hc
    obtain ⟨j, hj⟩ := List.mem_iff_getElem?.mp hr
    obtain ⟨i, hci⟩ := List.mem_iff_getElem?.mp hc
    have hlt : i < L.scalars.length := hN ▸ (List.getElem?_eq_some_iff.mp hci).1
    refine ⟨_, hcolumn (hls i c hci), ?_⟩
    have hx := get_of_getAll (h.body j r hj).2.2 hlt
    rw [hops, List.getElem?_map, hci] at hx
    exact (Option.some.inj hx).symm
  · intro hroom
    have hr : (operands L st).result = (st.value l.result).lo := by rw [hops]
    have hout : (outputs out rounds).length = rounds.length := List.length_map ..
    have hbytes := bytes_mapped (m := st.mem) (r := (operands L st).result)
      (G := fun j => (outputs out rounds).getD j ⟨0, 0⟩) ht hroom
    rw [h.mem, hlen, ← hr, hbytes, ← hlen, ← hout]
    have e := congrArg (List.flatMap valBytes) (getD_range (outputs out rounds) ⟨0, 0⟩)
    rw [List.flatMap_map] at e
    rw [e, outputs, List.flatMap_map]
    rfl
  · intro x hx
    have hr : (operands L st).result = (st.value l.result).lo := by rw [hops]
    rw [h.mem, hlen, hr]
    exact get_mapped_out ht hx

/-- **A loop that was written maps its rows** in every function that comes of it. -/
theorem Fits.maps (hf : L.Fits l b cur) (hn : ((l.arrays ++ l.scalars).map (·.column)).Nodup)
    {inner : Builder} (hst : inner.state = .building) (hi : inner.Healthy)
    (hcols : inner.columns = L.columns l) {d : Body} (hS : d.Sound) {ps : List ValueNo}
    {pre bs : List Step} {t : Ty} (ht : t.isVector = true) {out k : Nat}
    (hc : CodeIn L d.fn ps pre bs t out k) (hplain : Plain (L.next + L.arrays.length) bs) {w : World}
    {a : Activation} (hin : d.Within a.fn) {n : Nat} {st : State}
    (hregs : st.regs.size = a.fn.values.size) (hg : l.Given n st) : ∃ rounds st',
      LoopMaps w a l inner bs out L.head n (.inside cur pre.length st) st rounds st' ∧
        ∀ v < b.fn.values.size, st'.get v = st.get v := by
  obtain ⟨⟨ps', hcin⟩, hexit⟩ := codeIn_of_within hS hin hc
  have hroom : L.next ≤ st.regs.size := by
    have h1 := hcin.size
    have h2 := hcin.body
    have h3 : L.moved k = k + 1 + L.arrays.length := rfl
    omega
  obtain ⟨st0, hpass0⟩ := hcin.enters (w := w) (a := a) hexit hroom hf.old (hf.words hg)
  obtain ⟨rounds, st', hlen, hpass⟩ := hpass0.all hcin hexit (hf.suit hg) ht hplain hregs
  rw [hf.entry] at hpass
  refine ⟨rounds, st', hpass.maps hf hn hst hi hcols ht hg hlen, ?_⟩
  intro v hv
  exact hpass.old v (by rw [hf.base]; exact hv)

end LoopLayout

/-! ## the loop -/

theorem LoopLayout.hasTypes_params {L : LoopLayout} {b : Body}
    (h : b.Takes L.head (loopTypes L.arrays.length L.scalars.length)) {ss : List Step}
    (hc : b.fn.code[L.head]? = some (L.params, ss)) : b.fn.HasTypes L.params L.paramTypes := by
  obtain ⟨blk, hb⟩ := h
  obtain ⟨blk', hb', hp, -⟩ := Func.block_of_code hc
  obtain rfl : blk = blk' := Option.some.inj (hb.block.symm.trans hb')
  rw [← hp]
  exact hb.params

/-- **A vector loop maps its body over the rows.**  A builder with an open block takes the whole
loop and goes on in the block behind it.  In every function made of what is written then, from every
state in front of the loop, the loop is passed in as many rounds as there are pairs of rows. -/
theorem Builder.vectorLoop_maps {b : Builder} (hm : b.Made) (hst : b.state = .building)
    (hb : b.Healthy) {cur : Nat} (ho : b.draft.Open cur) {before : Block}
    (hcur : b.draft.body.fn.blocks[cur]? = some before) (hl : b.lanes = 1) {l : VectorLoop}
    (hc : l.check b.draft = .ok ()) (hn : ((l.arrays ++ l.scalars).map (·.column)).Nodup)
    {body : Builder → Builder × Option Int} {as : List Action} {out : Int}
    (hbody : BodyComputes body (b.enterLoop l).1 as out) :
    ∃ (d : Draft) (head : Nat) (bs : List Step),
      b.vectorLoop l body = ({ b with draft := d }, some ()) ∧ d.Open (head + 1) ∧
      Made { b with draft := d } ∧
      (b.enterLoop l).1.draft.body.Writes ((b.enterLoop l).1.draft.perform as).body bs ∧
      ∀ (w : World) (a : Activation) (n : Nat) (st : State), d.body.Within a.fn →
        st.regs.size = a.fn.values.size → l.Given n st → ∃ rounds st',
          LoopMaps w a l (b.enterLoop l).1 bs out head n (.inside cur before.steps.size st) st
            rounds st' ∧
          ∀ v < b.draft.body.fn.values.size, st'.get v = st.get v := by
  obtain ⟨h1, f, head, hf, hfb, ho1, ht1, hx1⟩ := enterLoop_ready hst hb ho hl hc
  obtain ⟨-, -, L, d1, hfits, e1, hS1, hs1⟩ := enterLoop_sound hm.sound ho.current h1
  rw [e1] at h1 hf ho1 ht1 hx1 hbody ⊢
  simp only at hf ho1 ht1 hx1 ⊢
  obtain rfl : L.frame b.columns = f := Option.some.inj hf
  obtain rfl : L.head = head := Int.ofNat.inj hfb
  have hA : l.arrays.length = L.arrays.length := by simpa using congrArg List.length hfits.arrays
  have hN : l.scalars.length = L.scalars.length := by simpa using congrArg List.length hfits.scalars
  rw [hA, hN] at ht1
  -- the body
  let b1 : Builder := { b with draft := d1, columns := L.columns l, lanes := 2 }
  let d2 := d1.perform as
  have hd2 : d2.fault = none := hbody.healthy
  obtain ⟨h12, bs, hw, hplain⟩ := ho1.perform_plain hS1 hbody.plain hd2
  have hS2 : d2.Holds Body.Sound := Draft.holds_perform Draft.kept_sound as hS1
  have hcode1 := LoopLayout.code_head hfits (congrArg Shape.code hs1)
  have hp2 := (L.hasTypes_params ht1 hcode1).mono h12.grows
  have hv := hbody.vector
  have hout : d2.Has [out] [d2.typeOf out] := by
    refine Draft.has_of_typeOf rfl ?_
    revert hv
    show (d2.typeOf out).isVector = true → _
    cases d2.typeOf out with
    | invalid => exact nofun
    | _ => exact fun _ => rfl
  let b2 : Builder := { b1 with draft := d2 }
  -- the end of the loop
  obtain ⟨hb3, ho3⟩ := leaveLoop_ready (b := b2) ⟨hb.fault, hd2⟩ L b.columns h12.isOpen hp2
    (h12.takes _ _ ht1) (h12.takes _ _ hx1) hout hv
  obtain ⟨-, t, o, d3, rfl, -, hvec, e3, hS3, hs3⟩ :=
    leaveLoop_sound (b := b2) hS2 L h12.isOpen.current hb3
  have e : b.vectorLoop l body = ({ b with draft := d3 }, some ()) := by
    have hres : body b1 = (b2, some (o : Int)) := hbody.result
    have hleave : b2.leaveLoop (L.frame b.columns) o = { b with draft := d3 } := by
      rw [e3, ← hl]
    rw [vectorLoop, e1]
    simp only
    rw [hres]
    simp only [hleave]
  have hmade : Made { b with draft := d3 } := by
    have hm1 := hm.ages (grows_enterLoop b l).1.ages
    rw [e1] at hm1
    obtain ⟨name, sig, hx⟩ := hm1
    have hm2 : b2.Made := ⟨name, sig, hx.trans ⟨as, rfl⟩⟩
    have hm3 := hm2.ages (grows_leaveLoop b2 (L.frame b.columns) o).1.ages
    rw [e3] at hm3
    exact hm3
  rw [e3] at hb3 ho3
  obtain ⟨hstart, hcin⟩ := LoopLayout.codeIn_around hfits hcur hs1 hw hs3
  rw [hstart] at hplain
  refine ⟨d3, L.head, bs, e, ho3, hmade, hw, ?_⟩
  intro w a n st hin hregs hg
  have hst1 : b1.state = .building := hst
  exact hfits.maps hn hst1 h1 rfl (hS3 hb3.draft) hvec hcin hplain hin hregs hg

/-- **A function is what became of every body on the way to it.** -/
theorem Builder.within_of_finalize {b b1 b2 : Builder} (hm : b.Made) (hb : b.Ages b1)
    {results : List Int} {f : Func} (h : b1.finalize results = (b2, .ok f)) :
    b.draft.body.Within f := by
  have hstart : b.draft.Holds fun b' => b'.Sound ∧ b.draft.body.Within b'.fn := fun hf =>
    ⟨hm.sound hf, .refl _⟩
  obtain ⟨_, ⟨-, hin⟩, rfl⟩ := holds_of_finalize (Body.kept_within _)
    (hb.draft.holds (Body.kept_within _) hstart) h
  exact hin

/-! ## a loop -/

/-- a function of an array, a result, a number of rows and a scalar -/
def shifting : Builder := .new 0 "shift" ⟨[.pointer, .pointer, .i64, .f64], []⟩

def shiftLoop : VectorLoop := ⟨[⟨0, 0⟩], [⟨1, 3⟩], 1, 2⟩

def shiftBody (b : Builder) : Builder × Option Int :=
  let (d, x) := b.draft.binary .fadd (b.column 0).2 (b.column 1).2
  ({ b with draft := d }, some x)

def shiftFunc : Func :=
  match ((shifting.vectorLoop shiftLoop shiftBody).1.finalize []).2 with
  | .ok f => f
  | .error _ => shifting.draft.body.fn

/-- four rows at 4096, their results at 8192, and the scalar 1 -/
def shiftState : State := shiftFunc.entryState
  [⟨4096, 0⟩, ⟨8192, 0⟩, ⟨4, 0⟩, ⟨0x3FF0000000000000, 0⟩] {}

theorem shiftBody_computes :
    BodyComputes shiftBody (shifting.enterLoop shiftLoop).1 [.binary .fadd 12 7] 13 := by
  have h0 : ((shifting.enterLoop shiftLoop).1.column 0).2 = 12 := by decide +kernel
  have h1 : ((shifting.enterLoop shiftLoop).1.column 1).2 = 7 := by decide +kernel
  have h2 : ((shifting.enterLoop shiftLoop).1.draft.binary .fadd 12 7).2 = 13 := by decide +kernel
  refine ⟨?_, ?_, ?_, ?_⟩
  · rw [shiftBody, h0, h1]
    simp only [h2]
    rfl
  · intro a ha
    rw [List.mem_singleton.mp ha]
    rfl
  · exact Option.isNone_iff_eq_none.mp (by decide +kernel)
  · decide +kernel

theorem shiftLoop_given : shiftLoop.Given 2 shiftState := by
  refine ⟨?_, by decide +kernel, by decide +kernel, by decide, ?_⟩
  · intro c hc
    rw [List.mem_singleton.mp hc]
    decide +kernel
  · intro c hc
    rw [List.mem_singleton.mp hc]
    unfold Memory.Apart
    decide +kernel

theorem Builder.vectorLoop_maps_shift :
    (∃ b, (shifting.vectorLoop shiftLoop shiftBody).1.finalize [] = (b, .ok shiftFunc)) ∧
    shiftLoop.Given 2 shiftState ∧ ∃ head bs rounds st',
      LoopMaps ⟨.host, fun _ _ _ _ => .error .stuck⟩ (shiftFunc.activation 0) shiftLoop
        (shifting.enterLoop shiftLoop).1 bs 13 head 2 (.inside 0 0 shiftState) shiftState rounds st' := by
  have hmade : shifting.Made := made_new 0 _ _
  have hopen : shifting.draft.Open 0 := ⟨⟨rfl, rfl⟩, rfl, _, rfl, rfl⟩
  have hcheck : shiftLoop.check shifting.draft = .ok () := rfl
  obtain ⟨d, head, bs, e, -, hdone, -, hrun⟩ := vectorLoop_maps hmade rfl ⟨rfl, rfl⟩ hopen rfl rfl
    hcheck (by decide) shiftBody_computes
  have hfin : ∃ b, (shifting.vectorLoop shiftLoop shiftBody).1.finalize [] = (b, .ok shiftFunc) := by
    have hok : ((shifting.vectorLoop shiftLoop shiftBody).1.finalize []).2.isOk = true := by
      decide +kernel
    obtain ⟨f, hf⟩ := exists_of_isOk hok
    have e : shiftFunc = f := by
      rw [shiftFunc, hf]
    rw [e, ← hf]
    exact ⟨_, rfl⟩
  obtain ⟨b, hb⟩ := hfin
  have hin : d.body.Within shiftFunc := by
    have hb' := hb
    rw [e] at hb'
    exact within_of_finalize hdone (.refl _) hb'
  have hsize : shiftState.regs.size = shiftFunc.values.size := by
    rw [shiftState, Func.entryState, State.size_setAll, Func.size_startState]
  obtain ⟨rounds, st', hmaps, -⟩ := hrun ⟨.host, fun _ _ _ _ => .error .stuck⟩
    (shiftFunc.activation 0) 2 shiftState hin hsize shiftLoop_given
  exact ⟨⟨b, hb⟩, shiftLoop_given, head, bs, rounds, st', hmaps⟩

end Emit

end TreeJit
