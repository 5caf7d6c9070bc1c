import TreeJit.Proofs.Compile.Steps
import TreeJit.Proofs.SSA.BranchArgs

/-!
# Passing branch arguments

The code for the arguments of a branch is one copy inside the frame after the other
(`transfer_eq_copies`) and leaves in memory what the moves of these copies leave (`copies_lead`).
The moves make one simultaneous assignment (`Func.Passed`), as the interpreter does with its
registers: in the end the parameters have what the arguments had before the branch
(`Sim.transfer`).
-/

namespace TreeJit.Compile

open SSA

theorem flatten_mapIdx_copies {ι : Type} (g : Copy → List ι) (copy : Nat → ValueNo → Copy)
    (vs : List ValueNo) :
    (vs.mapIdx fun i v => g (copy i v)).flatten = (vs.mapIdx copy).flatMap g := by
  rw [List.flatMap_def]
  exact congrArg List.flatten (List.ext_getElem (by simp) (by simp))

namespace X64

open TreeJit.X64

/-! ## the code as moves -/

def copyCode (k : Copy) : List Instr := copy k.ty (onStack k.dst) (onStack k.src)

theorem copies_lead (E : Env) (c : Cpu) (ks : List Copy) :
    Leads E c (ks.flatMap copyCode) [] fun c' => (∀ r ∈ pinned, c'.gpr r = c.gpr r) ∧
      c'.mem = c.mem.moveAll (ks.map (Copy.move (c.gpr rsp))) := by
  induction ks generalizing c with
  | nil => exact .nil ⟨fun _ _ => rfl, rfl⟩
  | cons k ks ih =>
    rw [List.flatMap_cons]
    refine (copy_moves E c k.ty k.dst k.src).append ?_
    rintro c1 ⟨hr, hmem⟩
    refine (ih c1).mono ?_
    rintro c2 ⟨hr2, hmem2⟩
    rw [hr rsp (by decide), hmem] at hmem2
    exact ⟨fun r h => (hr2 r h).trans (hr r h), hmem2⟩

theorem transfer_eq_copies (f : Func) (L : List RegLoc) (t : Target) :
    Ctx.transfer ⟨f, f.frame 0, L⟩ t = (f.copies t).flatMap copyCode := by
  rw [Func.copies, List.flatMap_append, ← flatten_mapIdx_copies, ← flatten_mapIdx_copies]
  rfl

/-! ## homes after a branch -/

section
variable {K : Call} {A : ValueNo → Prop} {st : State} {c : Cpu} {L : List RegLoc}
variable {t : Target} {m : Memory}

/-- passing arguments changes homes and the transfer area only -/
theorem Call.Ok.get_passed (hK : K.Ok) (ht : K.fn.Supplies t) (hp : K.fn.Passed K.base t c.mem m)
    {x : UInt64} (hmid : K.fn.layout.mid ≤ Memory.dist K.base x)
    (htr : Memory.dist K.base x < K.fn.layout.transfer ∨
      K.fn.layout.size ≤ Memory.dist K.base x) : m.get x = c.mem.get x := by
  have hm := hK.mid_le
  refine hp.rest x (fun p hmem => ?_) ?_
  · have hlt := ht.param_lt hmem
    have hle : K.fn.layout.start (.home p) + K.fn.partSize (.home p) ≤ K.fn.layout.mid :=
      Func.home_le (Func.typeOf_values hlt)
    rw [hK.wellFormed.partAt_eq hK.fits (p := .home p) hlt]
    exact dist_place K.base x (by omega) (by omega)
  · have hle : K.fn.layout.transfer + K.fn.partSize .transfer ≤ K.fn.layout.size :=
      K.fn.layout_transfer
    rw [hK.wellFormed.partAt_eq hK.fits (p := .transfer) trivial,
      show K.fn.layout.start .transfer = K.fn.layout.transfer from rfl]
    exact dist_place K.base x (by omega) (by omega)

/-- **Arguments that were passed in memory are passed in the interpreter.** -/
theorem Sim.passed (hK : K.Ok) (h : Sim K A st c) (ht : K.fn.Supplies t) (hA : ∀ v ∈ t.args, A v)
    (hp : K.fn.Passed K.base t c.mem m) :
    Sim K (fun v => v ∈ K.fn.blockParams t.block ∨ A v)
      (st.setAll (K.fn.blockParams t.block) (st.getAll t.args)) (c.setMem m) := by
  have hw := hK.wellFormed
  have hhome : ∀ {v}, v < K.fn.values.size → K.fn.partAt K.base (.home v) = K.home v :=
    fun {v} hv => hw.partAt_eq hK.fits (p := .home v) hv
  refine ⟨h.stack, h.frame, h.saved, ?_, ?_, ?_, ?_⟩
  · rw [State.size_setAll]
    exact h.size
  · intro v u hv hu
    have hlt := Func.lt_of_values hu
    by_cases hvp : v ∈ K.fn.blockParams t.block
    · -- a parameter has the bytes of its argument
      obtain ⟨i, hi⟩ := List.mem_iff_getElem?.mp hvp
      obtain ⟨w, hwi, hty, hb⟩ := hp.params i v hi
      have hwmem := List.mem_of_getElem? hwi
      have hwlt := ht.arg_lt hwmem
      have hwu : K.fn.values[w]? = some u := by
        rw [Func.typeOf_values hwlt, hty, Func.typeOf_eq hu]
      have hval : (st.setAll (K.fn.blockParams t.block) (st.getAll t.args)).get v = st.get w := by
        refine State.get_setAll st (hw.blockParams_nodup t.block) ?_ (fun p hpm => ?_) hi ?_
        · rw [State.getAll, List.length_map, ht.nth.1]
        · rw [h.size]
          exact ht.param_lt hpm
        · rw [State.getAll, List.getElem?_map, hwi]
          rfl
      rw [hval]
      refine (h.homes w u (hA w hwmem) hwu).of_bytes ?_
      rwa [hhome hlt, hhome hwlt, Func.partSize, Func.typeOf_eq hu] at hb
    · -- other homes stay as they are
      rw [State.get_setAll_out _ _ _ hvp]
      refine (h.homes v u (hv.resolve_left hvp) hu).of_bytes ?_
      have hne : Part.home v ≠ .transfer := by
        intro e
        cases e
      have hb := hp.kept (.home v) hlt hne fun p hpm e => hvp (Part.home.inj e ▸ hpm)
      rwa [hhome hlt, Func.partSize, Func.typeOf_eq hu] at hb
  · intro x hx
    rw [State.mem_setAll]
    refine (hK.get_passed ht hp ?_ ?_).trans (h.mem x hx)
    · by_contra hlt
      exact hx (.inl (by omega))
    · by_contra hin
      exact hx (.inr (.inl (by omega)))
  · rw [← h.top]
    have hm := hK.mid_le
    refine Memory.bytes_congr fun i hi => ?_
    have hd : Memory.dist K.base (K.place K.fn.layout.size + UInt64.ofNat i) =
        K.fn.layout.size + i := by
      rw [place_add, Call.place, Memory.dist_add _ _ (by omega)]
    exact hK.get_passed ht hp (by omega) (.inr (by omega))

/-- **A branch passes its arguments.** -/
theorem Sim.transfer (hK : K.Ok) (h : Sim K A st c) (ht : K.fn.Supplies t)
    (hA : ∀ v ∈ t.args, A v) (hk : t.args.length ≤ K.fn.maxBranchArgs) :
    Leads K.env c ((K.ctx L).transfer t) [] (Sim K (fun v => v ∈ K.fn.blockParams t.block ∨ A v)
      (st.setAll (K.fn.blockParams t.block) (st.getAll t.args))) := by
  rw [show (K.ctx L).transfer t = (K.fn.copies t).flatMap copyCode from transfer_eq_copies K.fn L t]
  refine (copies_lead K.env c (K.fn.copies t)).mono ?_
  rintro c' ⟨hr, hmem⟩
  rw [h.stack] at hmem
  have hp : K.fn.Passed K.base t c.mem c'.mem := by
    rw [hmem]
    exact hK.wellFormed.passed hK.fits ht hk c.mem
  exact (h.passed hK ht hA hp).congr hr rfl

end

end X64

end TreeJit.Compile
