import TreeJit.Proofs.Emit.Shape

/-!
# Work on a builder

`Work` is the list of what can be done with a builder before its end, as data; questions that change
nothing are left out.  A vector loop is two pieces of work, its start and its end, so that anything
may happen between them.  Direct work on the draft is among them: it goes past the builder, which
does not see a fault there before its next own operation.

* `Extends d d'`      the draft `d'` is `d` after some operations;
* `ExtendsBy q d d'`  and all of them are operations `q`;
* `Grows b b'`        the builder `b'` is `b` with more in its draft, and the first fault stayed;
* `Noticed b`         the builder has seen the fault of its draft;
* `work_grows`        all work adds to the builder;
* `work_noticed`      work that looks at the draft misses no fault there;
* `finalize_cases`    what the end of the work does.

Operations that go through `Builder.attempt` differ in their step only, so one law of the step
(`Proper`) gives these facts for all of them.
-/

namespace TreeJit

open SSA

/-! ## drafts that grow -/

namespace SSA.Draft
variable {d d' d'' : Draft}

theorem perform_append (d : Draft) (as bs : List Action) :
    d.perform (as ++ bs) = (d.perform as).perform bs := by
  induction as generalizing d with
  | nil => rfl
  | cons a as ih => exact ih _

/-- `d'` is `d` after some operations -/
def Extends (d d' : Draft) : Prop := ∃ as, d' = d.perform as

theorem Extends.refl (d : Draft) : d.Extends d := ⟨[], rfl⟩

theorem Extends.trans (h : d.Extends d') (h' : d'.Extends d'') : d.Extends d'' := by
  obtain ⟨as, rfl⟩ := h
  obtain ⟨bs, rfl⟩ := h'
  exact ⟨as ++ bs, (perform_append d as bs).symm⟩

theorem extends_act (d : Draft) (a : Action) : d.Extends (d.act a).1 := ⟨[a], rfl⟩

/-- `d'` is `d` after some of the operations `q` -/
def ExtendsBy (q : Action → Prop) (d d' : Draft) : Prop :=
  ∃ as, d' = d.perform as ∧ ∀ a ∈ as, q a

section
variable {q : Action → Prop}

theorem ExtendsBy.refl (d : Draft) : d.ExtendsBy q d := ⟨[], rfl, nofun⟩

theorem ExtendsBy.trans (h : d.ExtendsBy q d') (h' : d'.ExtendsBy q d'') : d.ExtendsBy q d'' := by
  obtain ⟨as, rfl, ha⟩ := h
  obtain ⟨bs, rfl, hb⟩ := h'
  exact ⟨as ++ bs, (perform_append d as bs).symm, List.forall_mem_append.mpr ⟨ha, hb⟩⟩

theorem extendsBy_act (d : Draft) {a : Action} (h : q a) : d.ExtendsBy q (d.act a).1 :=
  ⟨[a], rfl, List.forall_mem_singleton.mpr h⟩

theorem ExtendsBy.extends (h : d.ExtendsBy q d') : d.Extends d' := by
  obtain ⟨as, e, -⟩ := h
  exact ⟨as, e⟩

end

theorem Extends.fault (h : d.Extends d') {f : Fault} (hf : d.fault = some f) :
    d'.fault = some f := by
  obtain ⟨as, rfl⟩ := h
  exact fault_perform hf as

theorem Extends.holds (h : d.Extends d') {P : Body → Prop} (hP : Kept P) (hd : d.Holds P) :
    d'.Holds P := by
  obtain ⟨as, rfl⟩ := h
  exact holds_perform hP as hd

end SSA.Draft

def SSA.Action.SparesSlots : Action → Prop
  | .stackStore .. => False
  | _ => True

namespace Emit
open SSA.Draft (Extends extends_act ExtendsBy extendsBy_act)

/-! ### loops -/

theorem spares_splats (d : Draft) (vs : List Int) :
    d.ExtendsBy Action.SparesSlots (splats d vs).1 := by
  induction vs generalizing d with
  | nil => exact .refl d
  | cons v vs ih => exact (extendsBy_act d (a := .splat .f64x2 v) trivial).trans (ih _)

theorem spares_loadPairs (d : Draft) (ps : List Int) :
    d.ExtendsBy Action.SparesSlots (loadPairs d ps).1 := by
  induction ps generalizing d with
  | nil => exact .refl d
  | cons p ps ih => exact (extendsBy_act d (a := .load .f64x2 p 0) trivial).trans (ih _)

theorem spares_advance (d : Draft) (k : Int) (ps : List Int) :
    d.ExtendsBy Action.SparesSlots (advance d k ps).1 := by
  induction ps generalizing d with
  | nil => exact .refl d
  | cons p ps ih => exact (extendsBy_act d (a := .binary .iadd p k) trivial).trans (ih _)

theorem spares_appendParams (d : Draft) (n : Int) (ts : List Ty) :
    d.ExtendsBy Action.SparesSlots (d.appendParams n ts).1 := by
  induction ts generalizing d with
  | nil => exact .refl d
  | cons t ts ih => exact (extendsBy_act d (a := .appendParam n t) trivial).trans (ih _)

-- the operations of a loop, from the last to the first

theorem spares_openLoop (d : Draft) (l : VectorLoop) (saved : List (Int × Int)) :
    d.ExtendsBy Action.SparesSlots (openLoop d l saved).1 := by
  refine .trans ?_ (extendsBy_act _ (a := .brif _ _ _ _ _) trivial)
  refine .trans ?_ (extendsBy_act _ (a := .icmp _ _ _) trivial)
  refine .trans ?_ (extendsBy_act _ (a := .iconst _ _) trivial)
  refine .trans ?_ (extendsBy_act _ (a := .appendParam _ _) trivial)
  refine .trans ?_ (extendsBy_act _ (a := .appendParam _ _) trivial)
  refine .trans ?_ (spares_appendParams _ _ _)
  refine .trans ?_ (extendsBy_act _ (a := .appendParam _ _) trivial)
  refine .trans ?_ (spares_appendParams _ _ _)
  refine .trans ?_ (extendsBy_act _ (a := .createBlock) trivial)
  refine .trans ?_ (extendsBy_act _ (a := .createBlock) trivial)
  exact spares_splats _ _

theorem spares_closeLoop (d : Draft) (f : LoopFrame) (out : Int) :
    d.ExtendsBy Action.SparesSlots (closeLoop d f out) := by
  refine .trans ?_ (extendsBy_act _ (a := .sealBlock _) trivial)
  refine .trans ?_ (extendsBy_act _ (a := .switchTo _) trivial)
  refine .trans ?_ (extendsBy_act _ (a := .sealBlock _) trivial)
  refine .trans ?_ (extendsBy_act _ (a := .brif _ _ _ _ _) trivial)
  refine .trans ?_ (extendsBy_act _ (a := .icmp _ _ _) trivial)
  refine .trans ?_ (extendsBy_act _ (a := .binary _ _ _) trivial)
  refine .trans ?_ (extendsBy_act _ (a := .iconst _ _) trivial)
  refine .trans ?_ (extendsBy_act _ (a := .binary _ _ _) trivial)
  refine .trans ?_ (spares_advance _ _ _)
  refine .trans ?_ (extendsBy_act _ (a := .iconst _ _) trivial)
  exact extendsBy_act _ (a := .store _ _ _) trivial

/-! ## work -/

/-- what can be done with a builder before its end -/
inductive Work where
  /-- asks for the fault -/
  | check
  /-- direct work on the draft -/
  | direct (a : Action)
  | param (i : Int)
  | bindColumn (i v : Int)
  | column (i : Int)
  | call (name : String) (args : List Int)
  | makeScratch (size : Int)
  | storeValue (name : String) (v : Int)
  | loadValue (name : String)
  | storeRef (name : String) (ptr : Int) (t : Ty)
  | loadElement (name : String) (index : Int64)
  | storeElement (name : String) (index : Int64) (v : Int)
  | enterLoop (l : VectorLoop)
  | leaveLoop (f : LoopFrame) (out : Int)

def Work.looks : Work → Bool
  | .direct _ | .bindColumn .. => false
  | _ => true

/-- a fault that stops the unit; asking too much of a finished function is none -/
def Fault.Stops (f : Fault) : Prop := ∀ name, f ≠ .finalized name

/-- what a builder sees of a unit that knows no operations -/
def Scope.bare : Scope := ⟨{}, { settings := {}, imports := [] }, false⟩

namespace Builder

def work (b : Builder) (scope : Scope) : Work → Builder
  | .check => b.sync
  | .direct a => { b with draft := (b.draft.act a).1 }
  | .param i => (b.param i).1
  | .bindColumn i v => b.bindColumn i v
  | .column i => (b.column i).1
  | .call name args => (b.call scope name args).1
  | .makeScratch size => b.makeScratch size
  | .storeValue name v => b.storeValue name v
  | .loadValue name => (b.loadValue name).1
  | .storeRef name ptr t => b.storeRef name ptr t
  | .loadElement name i => (b.loadElement name i).1
  | .storeElement name i v => b.storeElement name i v
  | .enterLoop l => (b.enterLoop l).1
  | .leaveLoop f out => b.leaveLoop f out

/-- one piece of work after the other, each with what the builder sees of its unit then -/
def workAll (b : Builder) (ws : List (Scope × Work)) : Builder :=
  ws.foldl (fun b w => b.work w.1 w.2) b

theorem workAll_append (b : Builder) (ws ws' : List (Scope × Work)) :
    b.workAll (ws ++ ws') = (b.workAll ws).workAll ws' := List.foldl_append

theorem workAll_concat (b : Builder) (ws : List (Scope × Work)) (w : Scope × Work) :
    b.workAll (ws ++ [w]) = (b.workAll ws).work w.1 w.2 := workAll_append b ws [w]

variable {b b' b'' : Builder}

/-- the fault of the builder is one that stops the unit -/
def Lasting (b : Builder) : Prop := ∀ f, b.fault = some f → f.Stops

/-- the builder has seen the fault of its draft -/
def Noticed (b : Builder) : Prop := b.draft.fault ≠ none → b.fault ≠ none

/-- `b'` is `b` with more in its draft; what was wrong is still wrong -/
structure Grows (b b' : Builder) : Prop where
  id : b'.id = b.id
  name : b'.name = b.name
  state : b'.state = b.state
  draft : b.draft.Extends b'.draft
  fault : ∀ f, b.fault = some f → b'.fault = some f
  lasting : b.state = .building → b.Lasting → b'.Lasting

theorem Grows.refl (b : Builder) : b.Grows b := ⟨rfl, rfl, rfl, .refl _, fun _ h => h, fun _ h => h⟩

theorem Grows.trans (h : b.Grows b') (h' : b'.Grows b'') : b.Grows b'' where
  id := h'.id.trans h.id
  name := h'.name.trans h.name
  state := h'.state.trans h.state
  draft := h.draft.trans h'.draft
  fault f hf := h'.fault f (h.fault f hf)
  lasting hst hb := h'.lasting (h.state.trans hst) (h.lasting hst hb)

theorem grows_of_draft (h : b.draft.Extends b'.draft) (hi : b'.id = b.id) (hn : b'.name = b.name)
    (hs : b'.state = b.state) (hf : b'.fault = b.fault) : b.Grows b' where
  id := hi
  name := hn
  state := hs
  draft := h
  fault _ h := hf.trans h
  lasting _ hb g h := hb g (hf.symm.trans h)

theorem Lasting.poison (h : b.Lasting) : b.poison? = b.fault := by
  unfold poison?
  split
  · rename_i name hf
    exact absurd rfl (h _ hf name)
  · rfl

theorem Noticed.healthy (h : b.Noticed) (hf : b.fault = none) : b.Healthy :=
  ⟨hf, Classical.byContradiction fun hd => h hd hf⟩

/-! ### faults -/

theorem grows_fail {f : Fault} (hf : b.state = .building → f.Stops) : b.Grows (b.fail f) := by
  unfold fail
  split
  · exact .refl b
  · rename_i hb
    refine ⟨rfl, rfl, rfl, .refl _, fun g hg => absurd (hb.symm.trans hg) nofun, fun hst _ g hg => ?_⟩
    cases hg
    exact hf hst

theorem grows_sync (b : Builder) : b.Grows b.sync := by
  unfold sync
  split
  · exact grows_fail fun _ => nofun
  · exact .refl b

theorem lasting_fail (h : b.Lasting) {f : Fault} (hf : f.Stops) : (b.fail f).Lasting := by
  unfold fail
  split
  · exact h
  · intro g hg
    cases hg
    exact hf

theorem lasting_sync (h : b.Lasting) : b.sync.Lasting := by
  unfold sync
  split
  · exact lasting_fail h nofun
  · exact h

theorem noticed_fail (b : Builder) (f : Fault) : (b.fail f).Noticed := fun _ => fail_fault_ne b f

theorem noticed_sync (b : Builder) : b.sync.Noticed := by
  unfold sync
  split
  · exact noticed_fail b _
  · rename_i hd
    exact fun h => absurd hd h

/-! ### what becomes of the draft -/

section
variable {q : Action → Prop}

theorem draft_fail (f : Fault) : (b.fail f).draft = b.draft := by
  unfold fail
  split <;> rfl

theorem draft_sync : b.sync.draft = b.draft := by
  unfold sync
  split
  · exact draft_fail _
  · rfl

theorem extendsBy_attempt {α : Type} {nothing : α} {step : Builder → Builder × Except Fault α}
    (h : ∀ b : Builder, b.draft.ExtendsBy q (step b).1.draft) :
    b.draft.ExtendsBy q (b.attempt nothing step).1.draft := by
  have h1 := h b.sync
  rw [draft_sync] at h1
  unfold attempt
  split
  · simp only
    split
    · rw [draft_sync]
      exact .refl _
    · split
      · rwa [draft_sync]
      · rwa [draft_fail, draft_sync]
      · rwa [draft_sync]
  · rw [draft_fail]
    exact .refl _

theorem extendsBy_param (i : Int) : b.draft.ExtendsBy q (b.param i).1.draft := by
  refine extendsBy_attempt fun b => ?_
  split <;> exact .refl _

theorem extendsBy_column (i : Int) : b.draft.ExtendsBy q (b.column i).1.draft := by
  refine extendsBy_attempt fun b => ?_
  split <;> exact .refl _

end

/-! ### operations of a sound builder -/

/-- the step of an operation: it adds to the builder, leaves its fault to `attempt`, and what it
refuses stops the unit -/
structure Proper {α : Type} (step : Builder → Builder × Except Fault α) : Prop where
  grows : ∀ b : Builder, b.Grows (step b).1
  stops : ∀ (b : Builder) f, (step b).2 = .error f → f.Stops

section
variable {α : Type} {nothing : α} {step : Builder → Builder × Except Fault α}

/-- **An operation adds to the builder** and leaves one that has seen the fault of its draft. -/
theorem Proper.attempt (h : Proper step) (b : Builder) :
    b.Grows (b.attempt nothing step).1 ∧ (b.attempt nothing step).1.Noticed := by
  unfold Builder.attempt
  by_cases hst : b.state = .building
  · rw [if_pos hst]
    simp only
    split
    · exact ⟨grows_sync b, noticed_sync b⟩
    · have hg := ((grows_sync b).trans (h.grows b.sync)).trans (grows_sync _)
      split
      · exact ⟨hg, noticed_sync _⟩
      · rename_i f _ hr
        exact ⟨hg.trans (grows_fail fun _ => h.stops b.sync f hr), noticed_fail _ f⟩
      · exact ⟨hg, noticed_sync _⟩
  · rw [if_neg hst]
    exact ⟨grows_fail fun hb => absurd hb hst, noticed_fail b _⟩

end

-- the operations one by one: what their steps add, and that their own faults stop the unit

theorem grows_param (b : Builder) (i : Int) :
    b.Grows (b.param i).1 ∧ (b.param i).1.Noticed := by
  refine Proper.attempt ⟨fun b => ?_, fun b f h => ?_⟩ b
  · split <;> exact .refl b
  · split at h <;> cases h
    exact nofun

theorem grows_column (b : Builder) (i : Int) :
    b.Grows (b.column i).1 ∧ (b.column i).1.Noticed := by
  refine Proper.attempt ⟨fun b => ?_, fun b f h => ?_⟩ b
  · split <;> exact .refl b
  · split at h <;> cases h
    exact nofun

theorem grows_call (b : Builder) (scope : Scope) (name : String) (args : List Int) :
    b.Grows (b.call scope name args).1 ∧ (b.call scope name args).1.Noticed := by
  refine Proper.attempt ⟨fun b => ?_, fun b f h => ?_⟩ b
  · split
    · exact .refl b
    · split
      · exact .refl b
      · split
        · exact .refl b
        · refine grows_of_draft ?_ rfl rfl rfl rfl
          exact (extends_act _ (.importFn _ _)).trans (extends_act _ (.call _ _))
  · repeat' split at h
    all_goals cases h
    all_goals exact nofun

theorem grows_makeScratch (b : Builder) (size : Int) :
    b.Grows (b.makeScratch size) ∧ (b.makeScratch size).Noticed := by
  refine Proper.attempt ⟨fun b => ?_, fun b f h => ?_⟩ b
  · have hd : b.draft.Extends (b.draft.createSlot size 16).1 := extends_act _ (.createSlot _ _)
    split
    · exact .refl b
    · split
      · exact .refl b
      · simp only
        split
        · exact grows_of_draft hd rfl rfl rfl rfl
        · exact grows_of_draft hd rfl rfl rfl rfl
  · split at h
    · cases h
      exact nofun
    · split at h
      · cases h
        exact nofun
      · simp only at h
        split at h <;> cases h

theorem stops_allocate {b : Builder} {name : String} {t : Ty} {c : SlotCategory} {f : Fault}
    (h : b.allocate name t c = .error f) : f.Stops := by
  unfold allocate at h
  split at h
  · cases h
    exact nofun
  · rename_i s _
    cases ha : s.allocate name t c with
    | ok r =>
      rw [ha] at h
      cases h
    | error g =>
      rw [ha] at h
      cases h
      unfold Scratch.allocate at ha
      split at ha
      · split at ha <;> cases ha
        exact nofun
      · simp only at ha
        split at ha <;> cases ha
        exact nofun

theorem grows_allocate {b b' : Builder} {name : String} {t : Ty} {c : SlotCategory} {slot : Int}
    {n : NamedSlot} (h : b.allocate name t c = .ok (b', slot, n)) : b.Grows b' := by
  unfold allocate at h
  split at h
  · cases h
  · obtain ⟨_, -, h⟩ := bind_eq_ok.mp h
    cases h
    exact grows_of_draft (.refl _) rfl rfl rfl rfl

theorem stops_lookupSlot {b : Builder} {name : String} {c : SlotCategory} {f : Fault}
    (h : b.lookupSlot name c = .error f) : f.Stops := by
  unfold lookupSlot at h
  split at h
  · cases h
    exact nofun
  · rename_i s _
    cases hl : s.lookup name c with
    | ok r =>
      rw [hl] at h
      cases h
    | error g =>
      rw [hl] at h
      cases h
      unfold Scratch.lookup at hl
      split at hl
      · cases hl
        exact nofun
      · split at hl <;> cases hl
        exact nofun

theorem proper_storeSlot (name : String) (t : Ty) (c : SlotCategory) (v : Int) :
    Proper fun b => b.storeSlot name t c v := by
  refine ⟨fun b => ?_, fun b f h => ?_⟩
  · unfold storeSlot
    split
    · exact .refl b
    · rename_i b1 slot n ha
      refine (grows_allocate ha).trans ?_
      exact grows_of_draft (extends_act _ (.stackStore _ _ _)) rfl rfl rfl rfl
  · simp only [storeSlot] at h
    split at h <;> cases h
    rename_i ha
    exact stops_allocate ha

theorem grows_storeValue (b : Builder) (name : String) (v : Int) :
    b.Grows (b.storeValue name v) ∧ (b.storeValue name v).Noticed := by
  refine Proper.attempt ⟨fun b => ?_, fun b f h => ?_⟩ b
  · simp only
    split
    · exact .refl b
    · exact (proper_storeSlot ..).grows b
  · simp only at h
    split at h
    · cases h
      exact nofun
    · exact (proper_storeSlot ..).stops b f h

theorem grows_loadValue (b : Builder) (name : String) :
    b.Grows (b.loadValue name).1 ∧ (b.loadValue name).1.Noticed := by
  refine Proper.attempt ⟨fun b => ?_, fun b f h => ?_⟩ b
  · split
    · exact .refl b
    · exact grows_of_draft (extends_act _ (.stackLoad _ _ _)) rfl rfl rfl rfl
  · split at h <;> cases h
    rename_i hl
    exact stops_lookupSlot hl

theorem grows_storeRef (b : Builder) (name : String) (ptr : Int) (t : Ty) :
    b.Grows (b.storeRef name ptr t) ∧ (b.storeRef name ptr t).Noticed := by
  refine Proper.attempt ⟨fun b => ?_, fun b f h => ?_⟩ b
  · simp only
    split
    · exact .refl b
    · split
      · exact .refl b
      · exact (proper_storeSlot ..).grows b
  · simp only at h
    split at h
    · cases h
      exact nofun
    · split at h
      · cases h
        exact nofun
      · exact (proper_storeSlot ..).stops b f h

theorem proper_loadRef (name : String) : Proper fun b => b.loadRef name := by
  refine ⟨fun b => ?_, fun b f h => ?_⟩
  · unfold loadRef
    split
    · exact .refl b
    · exact grows_of_draft (extends_act _ (.stackLoad _ _ _)) rfl rfl rfl rfl
  · simp only [loadRef] at h
    split at h <;> cases h
    rename_i hl
    exact stops_lookupSlot hl

theorem grows_loadElement (b : Builder) (name : String) (index : Int64) :
    b.Grows (b.loadElement name index).1 ∧ (b.loadElement name index).1.Noticed := by
  refine Proper.attempt ⟨fun b => ?_, fun b f h => ?_⟩ b
  · have hr := (proper_loadRef name).grows b
    split
    · rename_i b1 f hl
      rw [hl] at hr
      exact hr
    · rename_i b1 n p hl
      rw [hl] at hr
      refine hr.trans ?_
      exact grows_of_draft (extends_act _ (.load _ _ _)) rfl rfl rfl rfl
  · split at h <;> cases h
    rename_i b1 hl
    exact (proper_loadRef name).stops b f (congrArg Prod.snd hl)

theorem grows_storeElement (b : Builder) (name : String) (index : Int64) (v : Int) :
    b.Grows (b.storeElement name index v) ∧ (b.storeElement name index v).Noticed := by
  refine Proper.attempt ⟨fun b => ?_, fun b f h => ?_⟩ b
  · have hr := (proper_loadRef name).grows b
    split
    · rename_i b1 f hl
      rw [hl] at hr
      exact hr
    · rename_i b1 n p hl
      rw [hl] at hr
      refine hr.trans ?_
      simp only
      split
      · exact .refl b1
      · exact grows_of_draft (extends_act _ (.store _ _ _)) rfl rfl rfl rfl
  · split at h
    · cases h
      rename_i b1 hl
      exact (proper_loadRef name).stops b f (congrArg Prod.snd hl)
    · simp only at h
      split at h <;> cases h
      exact nofun

theorem grows_enterLoop (b : Builder) (l : VectorLoop) :
    b.Grows (b.enterLoop l).1 ∧ (b.enterLoop l).1.Noticed := by
  refine Proper.attempt ⟨fun b => ?_, fun b f h => ?_⟩ b
  · split
    · exact .refl b
    · split
      · exact .refl b
      · have hd := (spares_openLoop b.draft l b.columns).extends
        simp only
        split
        · exact grows_of_draft hd rfl rfl rfl rfl
        · refine grows_of_draft ?_ rfl rfl rfl rfl
          exact (hd.trans (extends_act _ (.switchTo _))).trans (spares_loadPairs _ _).extends
  · split at h
    · cases h
      exact nofun
    · split at h
      · cases h
        exact nofun
      · simp only at h
        split at h <;> cases h

theorem grows_leaveLoop (b : Builder) (f : LoopFrame) (out : Int) :
    b.Grows (b.leaveLoop f out) ∧ (b.leaveLoop f out).Noticed := by
  have h0 : b.Grows { b with lanes := 1, columns := f.saved } :=
    grows_of_draft (.refl _) rfl rfl rfl rfl
  have h1 := h0.trans (grows_sync _)
  unfold leaveLoop
  simp only
  split
  · exact ⟨h1, noticed_sync _⟩
  · split
    · exact ⟨h1.trans (grows_fail fun _ => nofun), noticed_fail _ _⟩
    · refine ⟨(h1.trans ?_).trans (grows_sync _), noticed_sync _⟩
      exact grows_of_draft (spares_closeLoop ..).extends rfl rfl rfl rfl

/-- **All work adds to the builder.** -/
theorem work_grows (b : Builder) (scope : Scope) (w : Work) : b.Grows (b.work scope w) := by
  cases w with
  | check => exact grows_sync b
  | direct a => exact grows_of_draft (extends_act _ a) rfl rfl rfl rfl
  | param i => exact (grows_param b i).1
  | bindColumn i v => exact grows_of_draft (.refl _) rfl rfl rfl rfl
  | column i => exact (grows_column b i).1
  | call name args => exact (grows_call b scope name args).1
  | makeScratch size => exact (grows_makeScratch b size).1
  | storeValue name v => exact (grows_storeValue b name v).1
  | loadValue name => exact (grows_loadValue b name).1
  | storeRef name ptr t => exact (grows_storeRef b name ptr t).1
  | loadElement name i => exact (grows_loadElement b name i).1
  | storeElement name i v => exact (grows_storeElement b name i v).1
  | enterLoop l => exact (grows_enterLoop b l).1
  | leaveLoop f out => exact (grows_leaveLoop b f out).1

theorem workAll_grows (b : Builder) (ws : List (Scope × Work)) : b.Grows (b.workAll ws) := by
  induction ws generalizing b with
  | nil => exact .refl b
  | cons w ws ih => exact (work_grows b w.1 w.2).trans (ih _)

/-- **Work that looks at the draft** does not miss a fault there. -/
theorem work_noticed (b : Builder) (scope : Scope) {w : Work} (h : w.looks = true) :
    (b.work scope w).Noticed := by
  cases w with
  | check => exact noticed_sync b
  | direct | bindColumn => cases h
  | param i => exact (grows_param b i).2
  | column i => exact (grows_column b i).2
  | call name args => exact (grows_call b scope name args).2
  | makeScratch size => exact (grows_makeScratch b size).2
  | storeValue name v => exact (grows_storeValue b name v).2
  | loadValue name => exact (grows_loadValue b name).2
  | storeRef name ptr t => exact (grows_storeRef b name ptr t).2
  | loadElement name i => exact (grows_loadElement b name i).2
  | storeElement name i v => exact (grows_storeElement b name i v).2
  | enterLoop l => exact (grows_enterLoop b l).2
  | leaveLoop f out => exact (grows_leaveLoop b f out).2

/-! ## the end of the work -/

/-- the draft behind a complete function -/
def ended (b : Builder) (results : List Int) : Draft := (b.draft.ret results).1.sealAll.1

theorem extends_ended (b : Builder) (results : List Int) : b.draft.Extends (b.ended results) :=
  (extends_act _ (.ret results)).trans (extends_act _ .sealAll)

/-- **What the end of the work does**: a builder that has ended refuses, one with a fault tells it,
and a healthy one hands out the function or meets the fault in it. -/
theorem finalize_cases (b : Builder) (results : List Int) :
    (b.state ≠ .building ∧ b.finalize results = (b, .error (.finalized b.name))) ∨
    (b.state = .building ∧ ∃ b', ({ b with state := .finalized } : Builder).Grows b' ∧
      (b.Lasting → b'.Lasting) ∧ ((∃ f, b'.fault = some f ∧ b.finalize results = (b', .error f)) ∨
        ∃ fn, b.Healthy ∧ b'.fault = none ∧ (b.ended results).finish.2 = .ok fn ∧
          b.finalize results = (b', .ok fn))) := by
  unfold finalize
  by_cases hst : b.state = .building
  · rw [if_pos hst]
    refine .inr ⟨hst, ?_⟩
    have hsync := grows_sync { b with state := .finalized }
    simp only
    split
    · rename_i f hf
      exact ⟨_, hsync, fun hl => lasting_sync hl, .inl ⟨f, hf, rfl⟩⟩
    · rename_i hf
      have hb := healthy_of_sync hf
      rw [hb.sync] at hsync ⊢
      have hd : b.draft.Extends (b.ended results).finish.1 :=
        (b.extends_ended results).trans (extends_act _ .finish)
      have hg : ({ b with state := .finalized } : Builder).Grows
          { b with state := .finalized, draft := (b.ended results).finish.1 } :=
        grows_of_draft hd rfl rfl rfl rfl
      have hl : b.Lasting → ({ b with
          state := .finalized, draft := (b.ended results).finish.1 } : Builder).Lasting := fun h => h
      split
      · rename_i d fn he
        refine ⟨_, hg, hl, .inr ⟨fn, ⟨hb.fault, hb.draft⟩, hb.fault, congrArg Prod.snd he, ?_⟩⟩
        rw [show (b.ended results).finish = (d, .ok fn) from he]
      · rename_i d f he
        refine ⟨_, hg.trans (grows_fail (f := .ssa f) fun _ => nofun),
          fun h => lasting_fail (hl h) (f := .ssa f) nofun, .inl ⟨.ssa f, ?_, ?_⟩⟩
        · show (fail _ (.ssa f)).fault = some (.ssa f)
          unfold fail
          have : b.fault = none := hb.fault
          simp only [this]
        · rw [show (b.ended results).finish = (d, .error f) from he]
  · rw [if_neg hst]
    exact .inl ⟨hst, rfl⟩

theorem finalize_of_isOk {b : Builder} {results : List Int}
    (h : (b.finalize results).2.isOk = true) :
    (b.finalize results).2 = .ok (b.ended results).body.fn := by
  rcases b.finalize_cases results with ⟨-, e⟩ | ⟨-, b', -, -, ⟨f, -, e⟩ | ⟨fn, -, -, hf, e⟩⟩
  · rw [e] at h
    cases h
  · rw [e] at h
    cases h
  · rw [e, (Draft.finish_ok hf).2.1]

end Builder
end Emit
end TreeJit
