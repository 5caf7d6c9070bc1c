import TreeJit.Proofs.Emit.Work
import TreeJit.Proofs.SSA.Calls

/-!
# Stores into frame slots

Only one operation on a draft writes a store into a frame slot.  All others leave the stores that are
there (`Draft.ExtendsBy.spares`), and nothing is ever taken back, so the stores of a function are the
ones that were asked for.

* `Body.Spares b b'`   `b'` stores into frame slots as `b` does.
-/

namespace TreeJit.SSA

def Inst.storesSlot : Inst → Bool
  | .stackStore .. => true
  | _ => false

namespace Body
variable {b b' b'' : Body} {α β : Type}

/-- every store into a frame slot in `b'` is one of `b` -/
def Spares (b b' : Body) : Prop :=
  ∀ s ∈ b'.fn.steps, s.inst.storesSlot = true → s ∈ b.fn.steps

theorem Spares.refl (b : Body) : b.Spares b := fun _ hs _ => hs

theorem Spares.trans (h : b.Spares b') (h' : b'.Spares b'') : b.Spares b'' :=
  fun s hs hst => h s (h' s hs hst) hst

theorem spares_of_steps_eq (h : b'.fn.steps = b.fn.steps) : b.Spares b' := by
  intro s hs _
  rwa [h] at hs

/-- a block that is changed keeps its steps or gets one that stores into no slot -/
theorem spares_mapBlock (n : Nat) {f : Block → Block}
    (h : ∀ blk : Block, ∀ s ∈ (f blk).steps.toList, s.inst.storesSlot = true → s ∈ blk.steps.toList) :
    b.Spares (b.mapBlock n f) := by
  intro s hs hst
  obtain ⟨k, blk, hb, hs⟩ := Func.mem_steps.mp hs
  have hget : (b.fn.blocks.modify n f)[k]? = some blk := hb
  rw [Array.getElem?_modify] at hget
  split at hget
  · obtain ⟨old, ho, rfl⟩ := Option.map_eq_some_iff.mp hget
    exact Func.mem_steps.mpr ⟨k, old, ho, h old s hs hst⟩
  · exact Func.mem_steps.mpr ⟨k, blk, hget, hs⟩

theorem spares_countBranch (b : Body) (t : Target) : b.Spares (b.countBranch t) :=
  spares_mapBlock _ fun _ _ hs _ => hs

/-- whatever comes of it stores into frame slots as the body does -/
def SparesIn (b : Body) (r : Except Fault (Body × α)) : Prop :=
  ∀ b' a, r = .ok (b', a) → b.Spares b'

theorem sparesIn_ok {a : α} (h : b.Spares b') : b.SparesIn (.ok (b', a)) := by
  intro _ _ e
  cases e
  exact h

theorem sparesIn_error (f : Fault) : b.SparesIn (.error f : Except Fault (Body × α)) := nofun

theorem sparesIn_bind {x : Except Fault β} {f : β → Except Fault (Body × α)}
    (h : ∀ y, b.SparesIn (f y)) : b.SparesIn (x >>= f) := by
  intro b' a hr
  obtain ⟨y, -, hy⟩ := bind_eq_ok.mp hr
  exact h y b' a hy

theorem sparesIn_emit {i : Inst} (hi : i.storesSlot = false) {ts : List Ty}
    {f : Body × List ValueNo → Except Fault (Body × α)}
    (h : ∀ b1 vs, b.Spares b1 → b.SparesIn (f (b1, vs))) : b.SparesIn (b.emit i ts >>= f) := by
  intro b' a hr
  obtain ⟨⟨b1, vs⟩, he, hf⟩ := bind_eq_ok.mp hr
  refine h b1 vs ?_ b' a hf
  obtain ⟨cur, -, -, rfl, -⟩ := emit_ok he
  have hnew : b.Spares (b.newValues ts).1 := .refl b
  refine hnew.trans (spares_mapBlock cur ?_)
  intro blk s hs hst
  rw [Array.toList_push, List.mem_append, List.mem_singleton] at hs
  refine hs.resolve_right ?_
  rintro rfl
  rw [hi] at hst
  cases hst

theorem sparesIn_emitOne {i : Inst} (hi : i.storesSlot = false) (t : Ty) :
    b.SparesIn (b.emitOne i t) :=
  sparesIn_emit hi fun _ _ h => sparesIn_ok h

theorem sparesIn_emitNone {i : Inst} (hi : i.storesSlot = false) : b.SparesIn (b.emitNone i) :=
  sparesIn_emit hi fun _ _ h => sparesIn_ok h

end Body

namespace Draft
variable {d d' : Draft}

theorem spares_attempt {α : Type} {nothing : α} {op : Body → Except Fault (Body × α)}
    (h : d.body.SparesIn (op d.body)) : d.body.Spares (d.attempt nothing op).1.body := by
  unfold attempt
  split
  · exact .refl _
  · split
    · rename_i b a he
      exact h b a he
    · exact .refl _

open Body in
theorem spares_appendParam (n : Int) (t : Ty) : d.body.Spares (d.appendParam n t).1.body := by
  refine spares_attempt (sparesIn_bind fun _ => sparesIn_bind fun _ => sparesIn_bind fun _ => ?_)
  have hnew : d.body.Spares (d.body.newValues [t]).1 := .refl _
  refine sparesIn_ok (hnew.trans (spares_mapBlock _ ?_))
  exact fun _ _ hs _ => hs

theorem spares_appendParams (n : Int) (ts : List Ty) :
    d.body.Spares (d.appendParams n ts).1.body := by
  induction ts generalizing d with
  | nil => exact .refl _
  | cons t ts ih => exact (spares_appendParam n t).trans ih

/-- **Only a store into a frame slot writes one.** -/
theorem spares_act (d : Draft) {a : Action} (h : a.SparesSlots) : d.body.Spares (d.act a).1.body := by
  open Body in
  cases a with
  | stackStore => exact h.elim
  | finish =>
    show d.body.Spares d.finish.1.body
    unfold finish
    repeat' split
    all_goals exact .refl _
  | appendParam n t => exact spares_appendParam n t
  | appendFunctionParams n => exact spares_appendParams n _
  | createBlock =>
    refine spares_attempt (sparesIn_ok (spares_of_steps_eq ?_))
    simp [Func.steps]
  | sealAll =>
    refine spares_attempt (sparesIn_ok (spares_of_steps_eq ?_))
    simp [Func.steps, List.flatMap_map]
  | sealBlock =>
    refine spares_attempt (sparesIn_bind fun _ => sparesIn_ok (spares_mapBlock _ ?_))
    exact fun _ _ hs _ => hs
  | switchTo => exact spares_attempt (sparesIn_bind fun _ => sparesIn_ok (.refl _))
  | createSlot => exact spares_attempt (sparesIn_bind fun _ => sparesIn_ok (.refl _))
  | importFn name sig =>
    refine spares_attempt (sparesIn_bind fun _ => ?_)
    split
    · exact sparesIn_error _
    · exact sparesIn_ok (.refl _)
  | iconst | stackAddr => exact spares_attempt (sparesIn_bind fun _ => sparesIn_emitOne rfl _)
  | splat | extractLane | load | stackLoad =>
    exact spares_attempt (sparesIn_bind fun _ => sparesIn_bind fun _ => sparesIn_emitOne rfl _)
  | store =>
    exact spares_attempt (sparesIn_bind fun _ => sparesIn_bind fun _ => sparesIn_emitNone rfl)
  | ret => exact spares_attempt (sparesIn_bind fun _ => sparesIn_emitNone rfl)
  | binary =>
    exact spares_attempt (sparesIn_bind fun _ => sparesIn_bind fun _ => sparesIn_bind fun _ =>
      sparesIn_bind fun _ => sparesIn_emitOne rfl _)
  | fconst t bits =>
    refine spares_attempt ?_
    unfold Body.fconst
    split
    · exact sparesIn_emitOne rfl _
    · exact sparesIn_emitOne rfl _
    · exact sparesIn_error _
  | icmp | fcmp =>
    refine spares_attempt (sparesIn_bind fun _ => sparesIn_bind fun _ => sparesIn_bind fun _ => ?_)
    split
    · exact sparesIn_error _
    · exact sparesIn_emitOne rfl _
  | call ref args =>
    refine spares_attempt ?_
    unfold Body.call
    split
    · exact sparesIn_error _
    · split
      · exact sparesIn_error _
      · exact sparesIn_bind fun _ => sparesIn_emit rfl fun _ _ h => sparesIn_ok h
  | jump =>
    exact spares_attempt (sparesIn_bind fun _ => sparesIn_emit rfl fun b1 _ h =>
      sparesIn_ok (h.trans (spares_countBranch b1 _)))
  | brif =>
    exact spares_attempt (sparesIn_bind fun _ => sparesIn_bind fun _ => sparesIn_bind fun _ =>
      sparesIn_bind fun _ => sparesIn_emit rfl fun b1 _ h => sparesIn_ok
        ((h.trans (spares_countBranch b1 _)).trans (spares_countBranch _ _)))

theorem ExtendsBy.spares (h : d.ExtendsBy Action.SparesSlots d') : d.body.Spares d'.body := by
  obtain ⟨as, rfl, ha⟩ := h
  induction as generalizing d with
  | nil => exact .refl _
  | cons a as ih =>
    obtain ⟨ha, has⟩ := List.forall_mem_cons.mp ha
    exact (spares_act d ha).trans (ih has)

end Draft

end TreeJit.SSA
