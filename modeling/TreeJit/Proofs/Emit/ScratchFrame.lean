import TreeJit.Proofs.Emit.NamedSlots
import TreeJit.Proofs.Emit.Reference
import TreeJit.Proofs.Emit.Session
import TreeJit.Proofs.Emit.SlotStores

/-!
# Work with a scratch frame

What holds of a builder whose frame slots are stored to by names only: the slots of the names lie in
one frame slot without meeting, and every store into a frame slot goes to a name with the type that
the name keeps.

* `Builder.Tidy b used`      the invariant;
* `Builder.Tidy.work`        one piece of work keeps it, and keeps every name in its place;
* `Builder.Tidy.workAll`     so does all work;
* `Builder.work_accesses`    work on a name begins with an access to the slot of that name.

Most work does nothing to the scratch frame (`Builder.Aside`); the rest makes the frame or hands out a
part of it.
-/

namespace TreeJit

open SSA

def SSA.Inst.usesSlot : Inst → Bool
  | .stackLoad .. | .stackStore .. | .stackAddr .. => true
  | _ => false

namespace SSA.Body

theorem Change.slots {b b' : Body} (h : b.Change b') {k : Nat} {r : Slot}
    (hk : b.fn.slots[k]? = some r) : b'.fn.slots[k]? = some r := by
  cases h with
  | slot => exact getElem?_push_of_some hk
  | step =>
    obtain ⟨bs, eq⟩ := append_eq b _ _ _
    rw [eq]
    exact hk
  | _ => exact hk

theorem kept_slot (k : Nat) (r : Slot) :
    Draft.Kept fun b => b.Sound ∧ b.fn.slots[k]? = some r where
  current _ h := h.1.current
  params _ h := h.1.paramsKnown
  step _ _ h hc := ⟨h.1.change hc, hc.slots h.2⟩

theorem Writes.of_mem_steps {b b' : Body} {ss : List Step} (h : b.Writes b' ss) {s : Step}
    (hs : s ∈ b'.fn.steps) : s ∈ b.fn.steps ∨ s ∈ ss := by
  obtain ⟨cur, -, e⟩ := h.known
  obtain ⟨p, hp, hs⟩ := mem_steps_code.mp hs
  obtain ⟨n, hn⟩ := List.mem_iff_getElem?.mp hp
  rw [e, writeAt, List.getElem?_modify, Option.map_eq_map, Option.map_eq_some_iff] at hn
  obtain ⟨q, hq, rfl⟩ := hn
  have hmem := List.mem_of_getElem? hq
  split at hs
  · rcases List.mem_append.mp hs with hs | hs
    · exact .inl (mem_steps_code.mpr ⟨q, hmem, hs⟩)
    · exact .inr hs
  · exact .inl (mem_steps_code.mpr ⟨q, hmem, hs⟩)

end SSA.Body

namespace Emit
open SSA.Draft (ExtendsBy extendsBy_act)

/-! ## kinds of work -/

def Work.Named : Work → Prop
  | .direct a => a.SparesSlots
  | _ => True

def Work.IsAside : Work → Prop
  | .direct a => a.SparesSlots
  | .makeScratch _ | .storeValue .. | .storeRef .. => False
  | _ => True

/-- the name that is worked on, and how -/
def Work.key? : Work → Option (String × SlotCategory)
  | .storeValue key _ | .loadValue key => some (key, .value)
  | .storeRef key _ _ | .loadElement key _ | .storeElement key _ _ => some (key, .ref)
  | _ => none

def Work.access? (k : Nat) (n : NamedSlot) : Work → Option Inst
  | .storeValue _ v | .storeRef _ v _ => some (.stackStore n.held v.toNat k n.offset)
  | .loadValue _ | .loadElement .. | .storeElement .. => some (.stackLoad n.held k n.offset)
  | _ => none

def Work.wants? (b : Builder) : Work → Option Ty
  | .storeValue _ v => some (b.draft.typeOf v)
  | .storeRef _ _ t => some t
  | _ => none

namespace Builder
variable {b b' b'' : Builder}

/-! ## work that leaves the scratch frame alone -/

/-- `b'` is `b` after work that has nothing to do with the scratch frame -/
structure Aside (b b' : Builder) : Prop where
  scratch : b'.scratch = b.scratch
  draft : b.draft.ExtendsBy Action.SparesSlots b'.draft

theorem Aside.refl (b : Builder) : b.Aside b := ⟨rfl, .refl _⟩

theorem Aside.trans (h : b.Aside b') (h' : b'.Aside b'') : b.Aside b'' :=
  ⟨h'.scratch.trans h.scratch, h.draft.trans h'.draft⟩

theorem aside_fail (b : Builder) (f : Fault) : b.Aside (b.fail f) := by
  refine ⟨?_, ?_⟩
  · unfold fail
    split <;> rfl
  · rw [draft_fail]
    exact .refl _

theorem aside_sync (b : Builder) : b.Aside b.sync := by
  unfold sync
  split
  · exact aside_fail b _
  · exact .refl b

theorem aside_attempt {α : Type} {nothing : α} {step : Builder → Builder × Except Fault α}
    (h : ∀ b : Builder, b.Aside (step b).1) (b : Builder) : b.Aside (b.attempt nothing step).1 := by
  have hall := ((aside_sync b).trans (h b.sync)).trans (aside_sync _)
  unfold attempt
  split
  · simp only
    split
    · exact aside_sync b
    · split
      · exact hall
      · exact hall.trans (aside_fail _ _)
      · exact hall
  · exact aside_fail b _

theorem aside_loadRef (b : Builder) (key : String) : b.Aside (b.loadRef key).1 := by
  unfold loadRef
  split
  · exact .refl b
  · exact ⟨rfl, extendsBy_act b.draft (a := .stackLoad _ _ _) trivial⟩

theorem aside_leaveLoop (b : Builder) (f : LoopFrame) (out : Int) : b.Aside (b.leaveLoop f out) := by
  have h0 : b.Aside { b with lanes := 1, columns := f.saved } := ⟨rfl, .refl _⟩
  have h1 := h0.trans (aside_sync _)
  unfold leaveLoop
  simp only
  split
  · exact h1
  · split
    · exact h1.trans (aside_fail _ _)
    · refine (h1.trans ?_).trans (aside_sync _)
      exact ⟨rfl, spares_closeLoop ..⟩

theorem aside_enterLoop (b : Builder) (l : VectorLoop) : b.Aside (b.enterLoop l).1 := by
  refine aside_attempt (fun b => ?_) b
  split
  · exact .refl b
  · split
    · exact .refl b
    · have hd := spares_openLoop b.draft l b.columns
      simp only
      split
      · exact ⟨rfl, hd⟩
      · exact ⟨rfl, (hd.trans (extendsBy_act _ (a := .switchTo _) trivial)).trans (spares_loadPairs _ _)⟩

/-- **Most work leaves the scratch frame alone.** -/
theorem aside_work (b : Builder) (scope : Scope) {w : Work} (h : w.IsAside) :
    b.Aside (b.work scope w) := by
  cases w with
  | makeScratch | storeValue | storeRef => exact h.elim
  | check => exact aside_sync b
  | direct a => exact ⟨rfl, extendsBy_act b.draft h⟩
  | bindColumn => exact ⟨rfl, .refl _⟩
  | param =>
    refine aside_attempt (fun b => ?_) b
    split <;> exact .refl b
  | column =>
    refine aside_attempt (fun b => ?_) b
    split <;> exact .refl b
  | call name args =>
    refine aside_attempt (fun b => ?_) b
    split
    · exact .refl b
    · split
      · exact .refl b
      · split
        · exact .refl b
        · exact ⟨rfl, (extendsBy_act b.draft (a := .importFn _ _) trivial).trans
            (extendsBy_act _ (a := .call _ _) trivial)⟩
  | loadValue =>
    refine aside_attempt (fun b => ?_) b
    split
    · exact .refl b
    · exact ⟨rfl, extendsBy_act b.draft (a := .stackLoad _ _ _) trivial⟩
  | loadElement key i =>
    refine aside_attempt (fun b => ?_) b
    have hr := aside_loadRef b key
    split
    · rename_i hl
      rwa [hl] at hr
    · rename_i hl
      rw [hl] at hr
      exact hr.trans ⟨rfl, extendsBy_act _ (a := .load _ _ _) trivial⟩
  | storeElement key i v =>
    refine aside_attempt (fun b => ?_) b
    have hr := aside_loadRef b key
    split
    · rename_i hl
      rwa [hl] at hr
    · rename_i hl
      rw [hl] at hr
      simp only
      split
      · exact hr
      · exact hr.trans ⟨rfl, extendsBy_act _ (a := .store _ _ _) trivial⟩
  | enterLoop l => exact aside_enterLoop b l
  | leaveLoop f out => exact aside_leaveLoop b f out

/-! ## the invariant -/

/-- a scratch frame that is stored to by names only, with `used` bytes handed out -/
structure Tidy (b : Builder) (used : Nat) : Prop where
  sound : b.draft.Holds Body.Sound
  unused : b.scratch = none → used = 0
  frame : ∀ s, b.scratch = some s → ∃ (k : Nat) (r : Slot),
    s.slot = k ∧ b.draft.body.fn.slots[k]? = some r ∧ s.Laid r.size used
  stores : ∀ st ∈ b.draft.body.fn.steps, st.inst.storesSlot = true →
    ∃ (s : Scratch) (n : NamedSlot) (k x : Nat), b.scratch = some s ∧ n ∈ s.slots ∧ s.slot = k ∧
      st.inst = .stackStore n.held x k n.offset

structure Remembers (b b' : Builder) : Prop where
  names : ∀ key n, b.namedSlot? key = some n → b'.namedSlot? key = some n
  slot : ∀ s, b.scratch = some s → ∃ s', b'.scratch = some s' ∧ s'.slot = s.slot

theorem Remembers.trans (h : b.Remembers b') (h' : b'.Remembers b'') : b.Remembers b'' where
  names key n hn := h'.names key n (h.names key n hn)
  slot s hs := by
    obtain ⟨s', hs', e⟩ := h.slot s hs
    obtain ⟨s'', hs'', e'⟩ := h'.slot s' hs'
    exact ⟨s'', hs'', e'.trans e⟩

theorem remembers_of_scratch (h : b'.scratch = b.scratch) : b.Remembers b' where
  names key n hn := by
    rw [namedSlot?, h]
    exact hn
  slot s hs := ⟨s, h.trans hs, rfl⟩

theorem tidy_new (id : Nat) (name : String) (sig : Signature) : (new id name sig).Tidy 0 where
  sound := (made_new id name sig).sound
  unused _ := rfl
  frame := nofun
  stores := by
    have hd : (Draft.new name sig).ExtendsBy Action.SparesSlots (new id name sig).draft := by
      refine .trans ?_ (extendsBy_act _ (a := .sealBlock _) trivial)
      refine .trans ?_ (extendsBy_act _ (a := .switchTo _) trivial)
      refine .trans ?_ (spares_appendParams _ _ _)
      exact extendsBy_act _ (a := .createBlock) trivial
    intro st hst hs
    cases hd.spares st hst hs

section
variable {used : Nat}

theorem Tidy.aside (h : b.Tidy used) (hb : b.Healthy) (ha : b.Aside b') (hb' : b'.Healthy) :
    b'.Tidy used where
  sound := ha.draft.extends.holds Draft.kept_sound h.sound
  unused hs := h.unused (ha.scratch.symm.trans hs)
  frame s hs := by
    obtain ⟨k, r, hk, hr, hl⟩ := h.frame s (ha.scratch.symm.trans hs)
    have hkeep := ha.draft.extends.holds (Body.kept_slot k r) (fun _ => ⟨h.sound hb.draft, hr⟩)
    exact ⟨k, r, hk, (hkeep hb'.draft).2, hl⟩
  stores st hst hs := by
    rw [ha.scratch]
    exact h.stores st (ha.draft.spares st hst hs) hs

theorem Tidy.makeScratch (h : b.Tidy used) {size : Int} (hh : (b.makeScratch size).Healthy) :
    (b.makeScratch size).Tidy used ∧ b.Remembers (b.makeScratch size) := by
  obtain ⟨hnone, hpos⟩ := makeScratch_new hh
  obtain ⟨-, d, hS, e, hshape⟩ := makeScratch_sound h.sound hh
  rw [e]
  refine ⟨⟨hS, nofun, ?_, ?_⟩, ?_, ?_⟩
  · rintro _ ⟨⟩
    have hslots : d.body.fn.slots.toList = b.draft.body.fn.slots.toList ++ [⟨size, 16⟩] :=
      congrArg Shape.slots hshape
    refine ⟨b.draft.body.fn.slots.size, ⟨size, 16⟩, rfl, ?_, ?_⟩
    · rw [← Array.getElem?_toList, hslots, ← Array.length_toList, List.getElem?_concat_length]
    · rw [h.unused hnone]
      exact Scratch.laid_empty (Int.le_of_lt hpos)
  · intro st hst hs
    have hcode : d.body.fn.code = b.draft.body.fn.code := congrArg Shape.code hshape
    rw [Body.mem_steps_code, hcode, ← Body.mem_steps_code] at hst
    obtain ⟨s, _, _, _, hs, -⟩ := h.stores st hst hs
    rw [hnone] at hs
    cases hs
  · intro key n hn
    rw [namedSlot?, hnone] at hn
    cases hn
  · intro s hs
    rw [hnone] at hs
    cases hs

theorem Tidy.stored (h : b.Tidy used) {s s' : Scratch} {n : NamedSlot} {key : String} {t : Ty}
    {c : SlotCategory} {x k : Nat} {d : Draft} (hs : b.scratch = some s)
    (ha : s.allocate key t c = .ok (s', n)) (hk : s'.slot = k) (ht : t.isValid = true)
    (hS : d.Holds Body.Sound)
    (happ : b.draft.body.Appends (.stackStore n.held x k n.offset) [] d.body) :
    ∃ used', used ≤ used' ∧ ({ b with scratch := some s', draft := d } : Builder).Tidy used' ∧
      b.Remembers { b with scratch := some s', draft := d } := by
  obtain ⟨-, hcat, hty, hslot, -⟩ := Scratch.allocate_ok ha
  obtain ⟨k0, r, hk0, hr, hl⟩ := h.frame s hs
  obtain rfl : k = k0 := Int.ofNat.inj (hk.symm.trans (hslot.trans hk0))
  -- the store was checked against the size of the frame slot
  obtain ⟨-, ⟨r', hr', h0, hin⟩, -⟩ := happ.typed
  obtain rfl : r = r' := Option.some.inj (hr.symm.trans hr')
  obtain ⟨used', hle, hl'⟩ := hl.allocate ha ht h0 hin
  refine ⟨used', hle, ⟨hS, nofun, ?_, ?_⟩, ?_, ?_⟩
  · rintro _ ⟨⟩
    exact ⟨k, r, hk, by rw [happ.writes.slots]; exact hr, hl'⟩
  · intro st hst hstore
    rcases happ.writes.of_mem_steps hst with hst | hst
    · obtain ⟨s0, m, k', x', hs0, hm, hk', e⟩ := h.stores st hst hstore
      obtain rfl := Option.some.inj (hs.symm.trans hs0)
      exact ⟨s', m, k', x', rfl, Scratch.mem_allocate ha hm, hslot.trans hk', e⟩
    · rw [List.mem_singleton.mp hst]
      exact ⟨s', n, k, x, rfl, Scratch.mem_of_find? (Scratch.allocate_ok ha).1, hk, rfl⟩
  · intro other m hm
    rw [namedSlot?, hs] at hm
    exact Scratch.find?_of_allocate ha hm
  · intro s0 hs0
    obtain rfl := Option.some.inj (hs.symm.trans hs0)
    exact ⟨s', rfl, hslot⟩

theorem healthy_of_grows (h : b.Grows b') (hb' : b'.Healthy) : b.Healthy := by
  constructor
  · cases hf : b.fault with
    | none => rfl
    | some f => exact absurd (hb'.fault.symm.trans (h.fault f hf)) nofun
  · cases hf : b.draft.fault with
    | none => rfl
    | some f => exact absurd (hb'.draft.symm.trans (h.draft.fault hf)) nofun

/-- **One piece of work keeps the invariant**, and every name in its place. -/
theorem Tidy.work (h : b.Tidy used) (scope : Scope) {w : Work} (hw : w.Named)
    (hh : (b.work scope w).Healthy) : ∃ used', used ≤ used' ∧ (b.work scope w).Tidy used' ∧
      b.Remembers (b.work scope w) := by
  have haside : w.IsAside → ∃ used', used ≤ used' ∧ (b.work scope w).Tidy used' ∧
      b.Remembers (b.work scope w) := fun ha =>
    have ha := aside_work b scope ha
    ⟨used, Nat.le_refl _, h.aside (healthy_of_grows (work_grows b scope w) hh) ha hh,
      remembers_of_scratch ha.scratch⟩
  cases w with
  | makeScratch size => exact ⟨used, Nat.le_refl _, h.makeScratch hh⟩
  | storeValue key v =>
    obtain ⟨-, ht, s, s', n, x, k, d, hs, ha, -, hk, e, hS, happ⟩ := storeValue_sound h.sound hh
    obtain ⟨-, hcat, hty, -⟩ := Scratch.allocate_ok ha
    have hheld : n.held = b.draft.typeOf v := by rw [NamedSlot.held, hcat, hty]
    rw [← hheld] at happ
    rw [show b.work scope (.storeValue key v) = _ from e]
    exact h.stored hs ha hk ht hS happ
  | storeRef key p t =>
    obtain ⟨-, ht, s, s', n, x, k, d, hs, ha, -, hk, e, hS, happ⟩ := storeRef_sound h.sound hh
    obtain ⟨-, hcat, -⟩ := Scratch.allocate_ok ha
    have hheld : n.held = .pointer := by rw [NamedSlot.held, hcat]
    rw [← hheld] at happ
    rw [show b.work scope (.storeRef key p t) = _ from e]
    exact h.stored hs ha hk ht hS happ
  | direct a => exact haside hw
  | _ => exact haside trivial

theorem Tidy.workAll (h : b.Tidy used) {ws : List (Scope × Work)} (hw : ∀ w ∈ ws, w.2.Named)
    (hh : (b.workAll ws).Healthy) : ∃ used', used ≤ used' ∧ (b.workAll ws).Tidy used' ∧
      b.Remembers (b.workAll ws) := by
  induction ws generalizing b used with
  | nil => exact ⟨used, Nat.le_refl _, h, remembers_of_scratch rfl⟩
  | cons w ws ih =>
    obtain ⟨hw1, hws⟩ := List.forall_mem_cons.mp hw
    obtain ⟨used1, hle1, h1, hr1⟩ :=
      h.work w.1 hw1 (healthy_of_grows (workAll_grows _ ws) hh)
    obtain ⟨used2, hle2, h2, hr2⟩ := ih h1 hws hh
    exact ⟨used2, Nat.le_trans hle1 hle2, h2, hr1.trans hr2⟩

/-- what is counted, as long as the frame slot is not larger than words can count -/
theorem Tidy.scratchUsed (h : b.Tidy used)
    (hsize : ∀ (s : Scratch) (k : Nat) (r : Slot), b.scratch = some s → s.slot = k →
      b.draft.body.fn.slots[k]? = some r → r.size < 2 ^ 31) : b.scratchUsed = used := by
  unfold Builder.scratchUsed
  cases hs : b.scratch with
  | none =>
    rw [h.unused hs]
    rfl
  | some s =>
    obtain ⟨k, r, hk, hr, hl⟩ := h.frame s hs
    exact hl.toInt_next (hsize s k r hs hk hr)

end

/-! ## accesses -/

/-- **Work on a name begins with an access to its slot**, as the type that is kept there; what else it
writes has nothing to do with frame slots. -/
theorem work_accesses (hS : b.draft.Holds Body.Sound) (scope : Scope) {w : Work} {key : String}
    {c : SlotCategory} (hw : w.key? = some (key, c)) (hh : (b.work scope w).Healthy) :
    ∃ (s : Scratch) (n : NamedSlot) (k : Nat) (i : Inst) (rs : List ValueNo) (rest : List Step),
      (b.work scope w).scratch = some s ∧ s.find? key = some n ∧ s.slot = k ∧ n.category = c ∧
      (∀ t, w.wants? b = some t → n.ty = t) ∧ w.access? k n = some i ∧
      b.draft.body.Writes (b.work scope w).draft.body (⟨i, rs⟩ :: rest) ∧
      ∀ st ∈ rest, st.inst.usesSlot = false := by
  cases w with
  | storeValue key' v =>
    obtain ⟨rfl, rfl⟩ := Prod.mk.inj (Option.some.inj hw)
    obtain ⟨-, -, s, s', n, x, k, d, hs, ha, rfl, hk, e, -, happ⟩ := storeValue_sound hS hh
    obtain ⟨hf, hcat, hty, -⟩ := Scratch.allocate_ok ha
    have hheld : n.held = b.draft.typeOf x := by rw [NamedSlot.held, hcat, hty]
    rw [← hheld] at happ
    rw [show b.work scope (.storeValue key' x) = _ from e]
    exact ⟨s', n, k, _, [], [], rfl, hf, hk, hcat, fun _ ht => hty.trans (Option.some.inj ht), rfl,
      happ.writes, List.forall_mem_nil _⟩
  | storeRef key' p t =>
    obtain ⟨rfl, rfl⟩ := Prod.mk.inj (Option.some.inj hw)
    obtain ⟨-, -, s, s', n, x, k, d, hs, ha, rfl, hk, e, -, happ⟩ := storeRef_sound hS hh
    obtain ⟨hf, hcat, hty, -⟩ := Scratch.allocate_ok ha
    have hheld : n.held = .pointer := by rw [NamedSlot.held, hcat]
    rw [← hheld] at happ
    rw [show b.work scope (.storeRef key' x t) = _ from e]
    exact ⟨s', n, k, _, [], [], rfl, hf, hk, hcat, fun _ ht => hty.trans (Option.some.inj ht), rfl,
      happ.writes, List.forall_mem_nil _⟩
  | loadValue key' =>
    obtain ⟨rfl, rfl⟩ := Prod.mk.inj (Option.some.inj hw)
    obtain ⟨-, s, n, k, d, hs, hl, hk, -, e, happ⟩ := loadValue_sound hS hh
    obtain ⟨hf, hcat⟩ := Scratch.lookup_ok hl
    have hheld : n.held = n.ty := by rw [NamedSlot.held, hcat]
    rw [← hheld] at happ
    rw [show b.work scope (.loadValue key') = _ from congrArg Prod.fst e]
    exact ⟨s, n, k, _, _, [], hs, hf, hk, hcat, nofun, rfl, happ.writes, List.forall_mem_nil _⟩
  | loadElement key' i =>
    obtain ⟨rfl, rfl⟩ := Prod.mk.inj (Option.some.inj hw)
    obtain ⟨-, s, n, k, d, hs, hl, hk, -, e, hwr, -⟩ := loadElement_sound hS hh
    obtain ⟨hf, hcat⟩ := Scratch.lookup_ok hl
    have hheld : n.held = .pointer := by rw [NamedSlot.held, hcat]
    rw [← hheld] at hwr
    rw [show b.work scope (.loadElement key' i) = _ from congrArg Prod.fst e]
    exact ⟨s, n, k, _, _, _, hs, hf, hk, hcat, nofun, rfl, hwr,
      List.forall_mem_singleton.mpr rfl⟩
  | storeElement key' i v =>
    obtain ⟨rfl, rfl⟩ := Prod.mk.inj (Option.some.inj hw)
    obtain ⟨-, s, n, k, x, d, hs, hl, hk, -, -, e, hwr⟩ := storeElement_sound hS hh
    obtain ⟨hf, hcat⟩ := Scratch.lookup_ok hl
    have hheld : n.held = .pointer := by rw [NamedSlot.held, hcat]
    rw [← hheld] at hwr
    rw [show b.work scope (.storeElement key' i v) = _ from e]
    exact ⟨s, n, k, _, _, _, hs, hf, hk, hcat, nofun, rfl, hwr,
      List.forall_mem_singleton.mpr rfl⟩
  | _ => cases hw

end Builder
end Emit
end TreeJit
