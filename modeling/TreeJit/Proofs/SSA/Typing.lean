import TreeJit.SSA.Draft

/-!
# Functions that fit together

What it means that the parts of a function belong to each other, said once for every instruction:

* `Func.HasTypes f vs ts`   the numbers `vs` name values of the types `ts`, in order;
* `Func.Supplies f t`       a branch goes to a block and passes what its parameters ask for;
* `Inst.Typed f i ts`       an instruction finds its operands and gives results of the types `ts`;
* `Func.definitions f`      the values that parameters and results define, block after block.

All of it survives growth: `Inst.Typed.mono` says so for a function that keeps its values, slots
and imports (`Func.Grows`) and the parameters of the blocks that are branched to.
-/

namespace TreeJit.SSA

def Inst.reads : Inst → List ValueNo
  | .iconst .. | .fconst .. | .stackLoad .. | .stackAddr .. => []
  | .binary _ _ x y | .icmp _ _ x y | .fcmp _ _ x y => [x, y]
  | .splat _ x | .extractLane _ x _ | .stackStore _ x _ _ => [x]
  | .load _ p _ => [p]
  | .store _ x p _ => [x, p]
  | .call _ args => args
  | .jump t => t.args
  | .brif _ c yes no => c :: (yes.args ++ no.args)
  | .ret args => args

/-- the values a block assigns when control passes through it -/
def Block.assigns (b : Block) : List ValueNo :=
  b.params.toList ++ b.steps.toList.flatMap Step.results

def Func.definitions (f : Func) : List ValueNo := f.blocks.toList.flatMap Block.assigns

/-- the numbers name values of these types, in order -/
def Func.HasTypes (f : Func) (vs : List ValueNo) (ts : List Ty) : Prop :=
  vs.map (fun v => f.values[v]?) = ts.map some

/-- an access of `width` bytes lies inside a slot -/
def Func.SlotHolds (f : Func) (slot : Nat) (offset : Int32) (width : Nat) : Prop :=
  ∃ s, f.slots[slot]? = some s ∧ 0 ≤ offset.toInt ∧ offset.toInt + width ≤ s.size

/-- a branch goes to a block and passes values of the types of its parameters -/
def Func.Supplies (f : Func) (t : Target) : Prop :=
  ∃ blk ts, f.blocks[t.block]? = some blk ∧ f.HasTypes blk.params.toList ts ∧ f.HasTypes t.args ts

/-- an instruction finds its operands in the function and gives results of the types `rs` -/
def Inst.Typed (f : Func) (i : Inst) (rs : List Ty) : Prop :=
  match i with
  | .iconst t bits => t.isInt = true ∧ Body.truncateTo t bits = bits ∧ rs = [t]
  | .fconst t bits => t.isFloat = true ∧ (t = .f32 → bits.toNat < 2 ^ 32) ∧ rs = [t]
  | .binary op t x y => op.allows t = true ∧ f.HasTypes [x, y] [t, t] ∧ rs = [t]
  | .icmp _ t x y => t.isWideInt = true ∧ f.HasTypes [x, y] [t, t] ∧ rs = [.i8]
  | .fcmp _ t x y =>
    (t.isFloat = true ∨ t = .f64x2) ∧ f.HasTypes [x, y] [t, t] ∧ rs = [Body.fcmpResult t]
  | .splat t x => t.isVector = true ∧ f.HasTypes [x] [t.lane] ∧ rs = [t]
  | .extractLane t x lane =>
    t.isVector = true ∧ f.HasTypes [x] [t] ∧ lane < t.lanes ∧ rs = [t.lane]
  | .load t p _ => t.isValid = true ∧ f.HasTypes [p] [.pointer] ∧ rs = [t]
  | .store t x p _ => f.HasTypes [x, p] [t, .pointer] ∧ rs = []
  | .stackLoad t s off => t.isValid = true ∧ f.SlotHolds s off t.bytes ∧ rs = [t]
  | .stackStore t x s off => f.HasTypes [x] [t] ∧ f.SlotHolds s off t.bytes ∧ rs = []
  | .stackAddr s off => f.SlotHolds s off 0 ∧ rs = [.pointer]
  | .call fn args =>
    ∃ ext, f.imports[fn]? = some ext ∧ f.HasTypes args ext.sig.params ∧ rs = ext.sig.returns
  | .jump t => f.Supplies t ∧ rs = []
  | .brif t c yes no =>
    t.isInt = true ∧ f.HasTypes [c] [t] ∧ f.Supplies yes ∧ f.Supplies no ∧ rs = []
  | .ret args => f.HasTypes args f.sig.returns ∧ rs = []

def Step.Typed (f : Func) (s : Step) : Prop :=
  ∃ rs, s.inst.Typed f rs ∧ f.HasTypes s.results rs

theorem Func.typeOf_eq {f : Func} {v : ValueNo} {t : Ty} (h : f.values[v]? = some t) :
    f.typeOf v = t := by
  rw [Func.typeOf, if_neg (by omega), Int.toNat_natCast, Array.getD_eq_getD_getElem?, h]
  rfl

/-! ## lists of typed values -/

namespace Func.HasTypes
variable {f : Func} {v : ValueNo} {t : Ty} {vs ws : List ValueNo} {ts us : List Ty}

theorem nil : f.HasTypes [] [] := rfl

theorem cons_iff : f.HasTypes (v :: vs) (t :: ts) ↔ f.values[v]? = some t ∧ f.HasTypes vs ts := by
  simp [HasTypes]

theorem singleton_iff : f.HasTypes [v] [t] ↔ f.values[v]? = some t := by
  simp [HasTypes]

theorem pair_iff {w : ValueNo} {u : Ty} :
    f.HasTypes [v, w] [t, u] ↔ f.values[v]? = some t ∧ f.values[w]? = some u := by
  simp [HasTypes]

theorem length_eq (h : f.HasTypes vs ts) : vs.length = ts.length := by
  have := congrArg List.length h
  simpa using this

theorem single (h : f.HasTypes vs [t]) : vs = [vs.headD 0] ∧ f.values[vs.headD 0]? = some t := by
  obtain ⟨v, rfl⟩ := List.length_eq_one_iff.mp h.length_eq
  exact ⟨rfl, singleton_iff.mp h⟩

theorem lt_size (h : f.HasTypes vs ts) : ∀ v ∈ vs, v < f.values.size := by
  intro v hv
  have hm : f.values[v]? ∈ vs.map (fun v => f.values[v]?) := List.mem_map_of_mem hv
  rw [show vs.map (fun v => f.values[v]?) = ts.map some from h] at hm
  obtain ⟨t, -, ht⟩ := List.mem_map.mp hm
  exact (Array.getElem?_eq_some_iff.mp ht.symm).1

theorem get (h : f.HasTypes vs ts) {i : Nat} (hv : vs[i]? = some v) :
    ∃ t, ts[i]? = some t ∧ f.values[v]? = some t := by
  have e := congrArg (fun l => l[i]?) h
  simp only [List.getElem?_map, hv, Option.map_some] at e
  cases ht : ts[i]? with
  | none => rw [ht] at e; cases e
  | some t =>
    rw [ht] at e
    exact ⟨t, rfl, Option.some.inj e⟩

end Func.HasTypes

/-! ## growth -/

/-- what a function keeps while it is written -/
structure Func.Grows (f g : Func) : Prop where
  sig : g.sig = f.sig
  values : ∀ (v : Nat) t, f.values[v]? = some t → g.values[v]? = some t
  slots : ∀ (s : Nat) d, f.slots[s]? = some d → g.slots[s]? = some d
  imports : ∀ (r : Nat) e, f.imports[r]? = some e → g.imports[r]? = some e

def Func.KeepsParams (f g : Func) (b : Nat) : Prop :=
  ∀ blk, f.blocks[b]? = some blk → ∃ blk', g.blocks[b]? = some blk' ∧ blk'.params = blk.params

section
variable {f g : Func}

theorem Func.HasTypes.mono (h : f.Grows g) {vs : List ValueNo} {ts : List Ty}
    (ht : f.HasTypes vs ts) : g.HasTypes vs ts := by
  induction vs generalizing ts with
  | nil => exact ht
  | cons v vs ih =>
    cases ts with
    | nil => cases ht
    | cons t ts =>
      obtain ⟨h1, h2⟩ := Func.HasTypes.cons_iff.mp ht
      exact Func.HasTypes.cons_iff.mpr ⟨h.values v t h1, ih h2⟩

theorem Func.SlotHolds.mono (h : f.Grows g) {s : Nat} {off : Int32} {w : Nat}
    (hs : f.SlotHolds s off w) : g.SlotHolds s off w := by
  obtain ⟨d, hd, hr⟩ := hs
  exact ⟨d, h.slots s d hd, hr⟩

theorem Func.Supplies.mono (h : f.Grows g) {t : Target} (hp : f.KeepsParams g t.block)
    (ht : f.Supplies t) : g.Supplies t := by
  obtain ⟨blk, ts, hb, h1, h2⟩ := ht
  obtain ⟨blk', hb', e⟩ := hp blk hb
  exact ⟨blk', ts, hb', by rw [e]; exact h1.mono h, h2.mono h⟩

/-- **What is typed stays typed** while the function grows and the blocks it branches to keep
their parameters. -/
theorem Inst.Typed.mono (h : f.Grows g) {i : Inst} {rs : List Ty}
    (hp : ∀ t ∈ i.targets, f.KeepsParams g t.block) (hi : i.Typed f rs) : i.Typed g rs := by
  cases i with
  | iconst t bits => exact hi
  | fconst t bits => exact hi
  | binary op t x y => exact ⟨hi.1, hi.2.1.mono h, hi.2.2⟩
  | icmp c t x y => exact ⟨hi.1, hi.2.1.mono h, hi.2.2⟩
  | fcmp c t x y => exact ⟨hi.1, hi.2.1.mono h, hi.2.2⟩
  | splat t x => exact ⟨hi.1, hi.2.1.mono h, hi.2.2⟩
  | extractLane t x lane => exact ⟨hi.1, hi.2.1.mono h, hi.2.2⟩
  | load t p off => exact ⟨hi.1, hi.2.1.mono h, hi.2.2⟩
  | store t x p off => exact ⟨hi.1.mono h, hi.2⟩
  | stackLoad t s off => exact ⟨hi.1, hi.2.1.mono h, hi.2.2⟩
  | stackStore t x s off => exact ⟨hi.1.mono h, hi.2.1.mono h, hi.2.2⟩
  | stackAddr s off => exact ⟨hi.1.mono h, hi.2⟩
  | call fn args =>
    obtain ⟨ext, he, ha, hr⟩ := hi
    exact ⟨ext, h.imports fn ext he, ha.mono h, hr⟩
  | jump t => exact ⟨hi.1.mono h (hp t (by simp [Inst.targets])), hi.2⟩
  | brif t c yes no =>
    obtain ⟨h1, h2, h3, h4, h5⟩ := hi
    exact ⟨h1, h2.mono h, h3.mono h (hp yes (by simp [Inst.targets])),
      h4.mono h (hp no (by simp [Inst.targets])), h5⟩
  | ret args =>
    refine ⟨?_, hi.2⟩
    rw [h.sig]
    exact hi.1.mono h

theorem Step.Typed.mono (h : f.Grows g) {s : Step}
    (hp : ∀ t ∈ s.inst.targets, f.KeepsParams g t.block) (hs : s.Typed f) : s.Typed g := by
  obtain ⟨rs, h1, h2⟩ := hs
  exact ⟨rs, h1.mono h hp, h2.mono h⟩

theorem Func.Supplies.args_lt {t : Target} (h : f.Supplies t) : ∀ v ∈ t.args, v < f.values.size := by
  obtain ⟨_, _, _, _, ha⟩ := h
  exact ha.lt_size

theorem Inst.Typed.reads_lt {i : Inst} {rs : List Ty} (hi : i.Typed f rs) :
    ∀ v ∈ i.reads, v < f.values.size := by
  cases i with
  | iconst t bits => simp [Inst.reads]
  | fconst t bits => simp [Inst.reads]
  | binary op t x y => exact hi.2.1.lt_size
  | icmp c t x y => exact hi.2.1.lt_size
  | fcmp c t x y => exact hi.2.1.lt_size
  | splat t x => exact hi.2.1.lt_size
  | extractLane t x lane => exact hi.2.1.lt_size
  | load t p off => exact hi.2.1.lt_size
  | store t x p off => exact hi.1.lt_size
  | stackLoad t s off => simp [Inst.reads]
  | stackStore t x s off => exact hi.1.lt_size
  | stackAddr s off => simp [Inst.reads]
  | call fn args =>
    obtain ⟨_, _, ha, _⟩ := hi
    exact ha.lt_size
  | jump t => exact hi.1.args_lt
  | brif t c yes no =>
    obtain ⟨_, hc, hy, hn, _⟩ := hi
    intro v hv
    rcases List.mem_cons.mp hv with rfl | hv
    · exact hc.lt_size v (List.mem_singleton.mpr rfl)
    · rcases List.mem_append.mp hv with hv | hv
      · exact hy.args_lt v hv
      · exact hn.args_lt v hv
  | ret args => exact hi.1.lt_size

end

end TreeJit.SSA
