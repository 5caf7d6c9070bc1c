import TreeJit.Proofs.Emit.CodeUnit
import TreeJit.Proofs.Emit.Work

/-!
# Sessions

A session is a list of operations on one unit (`Op`), performed in order (`CodeUnit.perform`): new
builders, work on any builder there ever was, the end of that work, compiling, closing, and additions
to the catalog from outside.  `Effect u o u'` lists what a single operation can do to a unit, with
the conditions under which it does it; what a session keeps is proved about these effects.

* `act_effect`          every operation has one of the effects;
* `Settled`             the bookkeeping of every unit: numbers are distinct and declared, bodies wait
                        and code lies only under the numbers of builders that have ended;
* `Barren u n`          no body waits under the number `n`, and none will:
* `Barren.next`         which lasts;
* `Effect.fault`        a fault of the unit lasts, and the module stays as it is.
-/

namespace TreeJit.Emit

open SSA

inductive Op where
  | create (name : String) (sig : Signature)
  /-- work on the `i`-th builder -/
  | work (i : Nat) (w : Work)
  /-- the end of the work on the `i`-th builder -/
  | finish (i : Nat) (results : List Int)
  | finalize (id : Int)
  | close
  /-- an addition to the catalog by the caller -/
  | register (op : Host.Operation)

namespace CodeUnit
variable {u u' : CodeUnit}

def waiting (u : CodeUnit) : List (Nat × Func) := u.pending.getD []

/-! ## putting a builder back -/

theorem or_ne_none {α : Type} {x y : Option α} : x.or y ≠ none ↔ x ≠ none ∨ y ≠ none := by
  cases x <;> simp

theorem absorb_eq (u : CodeUnit) (i : Nat) (b : Builder) : ∃ journal, u.absorb i b = { u with
    builders := u.builders.setIfInBounds i b, fault := u.fault.or b.poison?, journal } := by
  unfold absorb
  simp only
  cases hp : b.poison? with
  | none => exact ⟨u.journal, by rw [Option.or_none]⟩
  | some f =>
    unfold poison
    cases hf : u.fault with
    | none => exact ⟨_, rfl⟩
    | some g => exact ⟨_, rfl⟩

/-! ## the end of a builder's work -/

/-- the builder at work once the work on the `i`-th one, `b`, has ended -/
def released (u : CodeUnit) (i : Nat) (b : Builder) : Option Nat :=
  if b.state = .building ∧ u.active = some i then none else u.active

/-- the unit with the ended builder `b'` in the place of `b` -/
def retire (u : CodeUnit) (i : Nat) (b b' : Builder) (journal : List Event) : CodeUnit :=
  { u with
    builders := u.builders.setIfInBounds i b', active := u.released i b
    fault := u.fault.or b'.poison?, journal }

def queue (u : CodeUnit) (n : Nat) (fn : Func) : CodeUnit :=
  { u with pending := some ((n, fn) :: u.waiting) }

/-- **What the end of the work does to the unit**: a fault is told, a body is left to wait; in a
closed unit there is no place for it and the operation breaks down. -/
theorem finish_cases {i : Nat} {b : Builder} (hb : u.builders[i]? = some b) (results : List Int) :
    (∃ b' f j, b.finalize results = (b', .error f) ∧
      u.finish i results = (u.retire i b b' j, .failed f)) ∨
    ∃ b' fn j, b.finalize results = (b', .ok fn) ∧
      ((u.pending = none ∧ u.finish i results = (u.retire i b b' j, .crashed)) ∨
        (u.pending ≠ none ∧ u.finish i results = ((u.retire i b b' j).queue b.id fn, .done ()))) := by
  have hid := b.id_finalize results
  unfold finish
  rw [hb]
  simp only
  cases hfin : b.finalize results with
  | mk b' r =>
    rw [hfin] at hid
    have hn : b'.id = b.id := hid
    obtain ⟨j, e⟩ := absorb_eq { u with active := u.released i b } i b'
    have e' : ({ u with
        active := if b.state = .building ∧ u.active = some i then none else u.active } :
          CodeUnit).absorb i b' = u.retire i b b' j := e
    simp only [e']
    cases r with
    | error f => exact .inl ⟨b', f, j, rfl, rfl⟩
    | ok fn =>
      refine .inr ⟨b', fn, j, rfl, ?_⟩
      have hp : (u.retire i b b' j).pending = u.pending := rfl
      rw [hp]
      cases hps : u.pending with
      | none => exact .inl ⟨rfl, rfl⟩
      | some ps =>
        refine .inr ⟨nofun, ?_⟩
        simp only [queue, waiting, hp, hps, hn, Option.getD_some]

/-! ## compiling -/

def rest (u : CodeUnit) (n : Nat) : List (Nat × Func) := u.waiting.filter fun p => (p.1 : Int) ≠ n

theorem mem_rest {n k : Nat} {fn : Func} : (k, fn) ∈ u.rest n ↔ (k, fn) ∈ u.waiting ∧ k ≠ n := by
  unfold rest
  rw [List.mem_filter, decide_eq_true_eq]
  refine and_congr_right fun _ => not_congr ?_
  exact Int.ofNat_inj

theorem pending_of_waiting {p : Nat × Func} (h : p ∈ u.waiting) : u.pending = some u.waiting := by
  unfold waiting at h ⊢
  cases hp : u.pending with
  | none =>
    rw [hp] at h
    cases h
  | some ps => rfl

variable [Host.Platform]

/-- **What compiling does to the unit**: it is refused, or it takes the body that waits, which is
placed or stops the unit. -/
theorem finalize_cases (u : CodeUnit) (id : Int) :
    (∃ f, u.fault = some f ∧ u.finalize id = (u, .error (.unitFailed f))) ∨
    (u.fault = none ∧ (∀ p ∈ u.waiting, (p.1 : Int) ≠ id) ∧
      u.finalize id = (u, .error (.noBody id))) ∨
    ∃ (n : Nat) (fn : Func) (journal : List Event), u.fault = none ∧ id = n ∧ (n, fn) ∈ u.waiting ∧
      ((∃ f, u.finalize id = ({ u with
          pending := some (u.rest n), fault := some (.host f), journal }, .error (.host f))) ∨
        ∃ d p, p.fn = fn ∧ u.module.Accepts n d p ∧ u.finalize id = ({ u with
          module := u.module.place n d p, pending := some (u.rest n), journal },
          .ok { id := n, name := fn.name, sig := d.sig, entry := p.address })) := by
  unfold finalize
  cases hf : u.fault with
  | some f => exact .inl ⟨f, rfl, rfl⟩
  | none =>
    refine .inr ?_
    dsimp only
    cases hw : (u.pending.getD []).find? fun p => ((p.1 : Nat) : Int) = id with
    | none =>
      refine .inl ⟨rfl, fun p hp => ?_, rfl⟩
      simpa using List.find?_eq_none.mp hw p hp
    | some p =>
      obtain ⟨n, fn⟩ := p
      obtain rfl : (n : Int) = id := by simpa using List.find?_some hw
      have hm : (n, fn) ∈ u.waiting := List.mem_of_find?_eq_some hw
      have hp := pending_of_waiting hm
      refine .inr ⟨n, fn, ?_⟩
      have hrest : u.pending.map (fun _ =>
          (u.pending.getD []).filter fun p => ((p.1 : Nat) : Int) ≠ n) = some (u.rest n) := by
        rw [hp]
        rfl
      dsimp only
      rw [hrest]
      rcases hd : u.module.define n fn with ⟨m, es, r⟩
      rcases u.module.define_cases n fn with ⟨em, f, er⟩ | ⟨k, d, p, hk, hfn, ha, em, er⟩
      · rw [hd] at em er
        simp only at em er
        subst em er
        refine ⟨u.journal ++ es ++ [.unitFailed (Fault.host f).message], rfl, rfl, hm, .inl ⟨f, ?_⟩⟩
        simp only [poison, note]
      · rw [hd] at em er
        simp only at em er
        obtain rfl : n = k := by omega
        subst em er
        refine ⟨u.journal ++ es, rfl, rfl, hm, .inr ⟨d, p, hfn, ha, ?_⟩⟩
        simp only [ha.address, ha.signature, note]
        rfl

/-! ## operations -/

def act (u : CodeUnit) : Op → CodeUnit
  | .create name sig => (u.create name sig).1
  | .work i w => (u.update i fun scope b => (b.work scope w, ())).1
  | .finish i results => (u.finish i results).1
  | .finalize id => (u.finalize id).1
  | .close => u.close
  | .register op =>
    match u.shared, u.catalog.add op with
    | true, .ok c => { u with catalog := c }
    | _, _ => u

def perform (u : CodeUnit) (ops : List Op) : CodeUnit := ops.foldl act u

@[simp] theorem perform_nil (u : CodeUnit) : u.perform [] = u := rfl

@[simp] theorem perform_cons (u : CodeUnit) (o : Op) (ops : List Op) :
    u.perform (o :: ops) = (u.act o).perform ops := rfl

@[simp] theorem perform_append (u : CodeUnit) (ops ops' : List Op) :
    u.perform (ops ++ ops') = (u.perform ops).perform ops' := List.foldl_append

/-! ## effects -/

/-- what a single operation can do -/
inductive Effect (u : CodeUnit) : Op → CodeUnit → Prop where
  /-- the operation is refused or does nothing -/
  | idle (o : Op) : Effect u o u
  | created {name : String} {sig : Signature} {m : Host.Module} {id : Nat} (hf : u.fault = none)
      (ha : (u.active.bind fun i => u.builders[i]?) = none)
      (hd : u.module.declare name sig = .ok (m, id)) :
      Effect u (.create name sig) { u with
        module := m, builders := u.builders.push (.new id name sig), active := some u.builders.size }
  | worked {i : Nat} {w : Work} {b : Builder} {journal : List Event} (hb : u.builders[i]? = some b) :
      Effect u (.work i w) { u with
        builders := u.builders.setIfInBounds i (b.work u.scope w)
        fault := u.fault.or (b.work u.scope w).poison?, journal }
  | failed {i : Nat} {results : List Int} {b b' : Builder} {f : Fault} {journal : List Event}
      (hb : u.builders[i]? = some b) (hfin : b.finalize results = (b', .error f)) :
      Effect u (.finish i results) (u.retire i b b' journal)
  /-- the operation breaks down: a closed unit takes no bodies -/
  | lost {i : Nat} {results : List Int} {b b' : Builder} {fn : Func} {journal : List Event}
      (hb : u.builders[i]? = some b) (hfin : b.finalize results = (b', .ok fn))
      (hp : u.pending = none) : Effect u (.finish i results) (u.retire i b b' journal)
  | delivered {i : Nat} {results : List Int} {b b' : Builder} {fn : Func} {journal : List Event}
      (hb : u.builders[i]? = some b) (hfin : b.finalize results = (b', .ok fn))
      (hp : u.pending ≠ none) :
      Effect u (.finish i results) ((u.retire i b b' journal).queue b.id fn)
  | refused {n : Nat} {fn : Func} {f : Host.Fault} {journal : List Event} (hf : u.fault = none)
      (hw : (n, fn) ∈ u.waiting) : Effect u (.finalize n)
        { u with pending := some (u.rest n), fault := some (.host f), journal }
  | placed {n : Nat} {d : Host.Declared} {p : Host.Placed} {journal : List Event}
      (hf : u.fault = none) (hw : (n, p.fn) ∈ u.waiting) (ha : u.module.Accepts n d p) :
      Effect u (.finalize n)
        { u with module := u.module.place n d p, pending := some (u.rest n), journal }
  | closed {journal : List Event} : Effect u .close
      { u with module := u.module.close.1, active := none, pending := none, journal }
  | registered {op : Host.Operation} {c : Host.Catalog} (hs : u.shared = true)
      (hc : u.catalog.add op = .ok c) : Effect u (.register op) { u with catalog := c }

/-- **Every operation has one of the effects.** -/
theorem act_effect (u : CodeUnit) (o : Op) : Effect u o (u.act o) := by
  cases o with
  | create name sig =>
    simp only [act, create]
    split
    · exact .idle _
    · exact .idle _
    · rename_i hf ha
      split
      · exact .idle _
      · split
        · exact .idle _
        · rename_i hd
          exact .created hf ha hd
  | work i w =>
    simp only [act, update]
    split
    · exact .idle _
    · rename_i b hb
      obtain ⟨j, e⟩ := absorb_eq u i (b.work u.scope w)
      simp only [e]
      exact .worked hb
  | finish i results =>
    cases hb : u.builders[i]? with
    | none =>
      have e : u.act (.finish i results) = u := by
        simp only [act, finish, hb]
      rw [e]
      exact .idle _
    | some b =>
      rcases finish_cases hb results with ⟨b', f, j, hfin, e⟩ | ⟨b', fn, j, hfin, ⟨hp, e⟩ | ⟨hp, e⟩⟩
      · rw [act, e]
        exact .failed hb hfin
      · rw [act, e]
        exact .lost hb hfin hp
      · rw [act, e]
        exact .delivered hb hfin hp
  | finalize id =>
    rcases u.finalize_cases id with
      ⟨f, -, e⟩ | ⟨-, -, e⟩ | ⟨n, fn, j, hf, rfl, hw, ⟨f, e⟩ | ⟨d, p, rfl, ha, e⟩⟩
    · rw [act, e]
      exact .idle _
    · rw [act, e]
      exact .idle _
    · rw [act, e]
      exact .refused hf hw
    · rw [act, e]
      exact .placed hf hw ha
  | close => exact .closed
  | register op =>
    simp only [act]
    split
    · rename_i hs hc
      exact .registered hs hc
    · exact .idle _

theorem step_act (u : CodeUnit) (o : Op) : u.act o = u ∨ Step u (u.act o) := by
  cases o with
  | create name sig => exact .inr (.create u name sig)
  | work i w => exact .inr (.update u i _)
  | finish i results => exact .inr (.finish u i results)
  | finalize id => exact .inr (.finalize u id)
  | close => exact .inr (.close u)
  | register op =>
    simp only [act]
    split
    · rename_i hs hc
      exact .inr (.register hs hc)
    · exact .inl rfl

theorem steps_perform (u : CodeUnit) (ops : List Op) : Steps u (u.perform ops) := by
  induction ops generalizing u with
  | nil => exact .refl
  | cons o ops ih =>
    rcases u.step_act o with e | h
    · rw [perform_cons, e]
      exact ih u
    · exact .head h (ih _)

/-! ## builders along a session -/

theorem act_work {i : Nat} {b : Builder} (hb : u.builders[i]? = some b) (w : Work) :
    (u.act (.work i w)).builders[i]? = some (b.work u.scope w) ∧
      (u.act (.work i w)).fault = u.fault.or (b.work u.scope w).poison? := by
  obtain ⟨j, e⟩ := absorb_eq u i (b.work u.scope w)
  simp only [act, update, hb, e]
  refine ⟨?_, trivial⟩
  rw [Array.getElem?_setIfInBounds_self, if_pos (Array.getElem?_eq_some_iff.mp hb).1]

theorem act_finish {i : Nat} {b : Builder} (hb : u.builders[i]? = some b) (results : List Int) :
    (u.act (.finish i results)).builders[i]? = some (b.finalize results).1 ∧
      (u.act (.finish i results)).fault = u.fault.or (b.finalize results).1.poison? := by
  have hset : ∀ b', (u.builders.setIfInBounds i b')[i]? = some b' := fun b' => by
    rw [Array.getElem?_setIfInBounds_self, if_pos (Array.getElem?_eq_some_iff.mp hb).1]
  rcases finish_cases hb results with ⟨b', f, j, hfin, e⟩ | ⟨b', fn, j, hfin, ⟨-, e⟩ | ⟨-, e⟩⟩
  all_goals
    rw [act, e, hfin]
    exact ⟨hset b', rfl⟩

end CodeUnit

namespace BuildState

/-- one phase follows the other -/
inductive Next : BuildState → BuildState → Prop where
  | ending : Next .building .finalizing
  | ended : Next .finalizing .finalized

abbrev Leads : BuildState → BuildState → Prop := Relation.ReflTransGen Next

theorem leads_finalized : Leads .building .finalized := .tail (.single .ending) .ended

/-- there is no way back to the first phase -/
theorem Leads.started {s t : BuildState} (h : s.Leads t) (ht : t = .building) : s = .building := by
  rcases h.cases_tail with rfl | ⟨r, -, hr⟩
  · exact ht
  · subst ht
    cases hr

end BuildState

namespace Builder
variable {b b' b'' : Builder}

/-- `b'` is what became of `b` -/
structure Ages (b b' : Builder) : Prop where
  id : b'.id = b.id
  state : b.state.Leads b'.state
  draft : b.draft.Extends b'.draft
  fault : ∀ f, b.fault = some f → b'.fault = some f

theorem Ages.refl (b : Builder) : b.Ages b := ⟨rfl, .refl, .refl _, fun _ h => h⟩

theorem Ages.trans (h : b.Ages b') (h' : b'.Ages b'') : b.Ages b'' :=
  ⟨h'.id.trans h.id, h.state.trans h'.state, h.draft.trans h'.draft,
    fun f hf => h'.fault f (h.fault f hf)⟩

theorem Grows.ages (h : b.Grows b') : b.Ages b' :=
  ⟨h.id, by rw [h.state], h.draft, h.fault⟩

theorem ages_of_finalize {results : List Int} {r : Except Fault Func}
    (h : b.finalize results = (b', r)) : b.Ages b' := by
  rcases b.finalize_cases results with ⟨-, e⟩ | ⟨hst, c, hg, -, ⟨f, -, e⟩ | ⟨fn, -, -, -, e⟩⟩
  · rw [h] at e
    cases e
    exact .refl b
  all_goals
    rw [h] at e
    cases e
    refine ⟨hg.id, ?_, hg.draft, hg.fault⟩
    rw [hst, hg.state]
    exact BuildState.leads_finalized

/-- the draft was made by operations alone -/
def Made (b : Builder) : Prop := ∃ name sig, (Draft.new name sig).Extends b.draft

theorem made_new (id : Nat) (name : String) (sig : Signature) : (new id name sig).Made := by
  refine ⟨name, sig, ?_⟩
  refine .trans ?_ (Draft.extends_act _ (.sealBlock _))
  refine .trans ?_ (Draft.extends_act _ (.switchTo _))
  refine .trans ?_ (spares_appendParams _ _ _).extends
  exact Draft.extends_act _ .createBlock

theorem Made.ages (h : b.Made) (ha : b.Ages b') : b'.Made := by
  obtain ⟨name, sig, h⟩ := h
  exact ⟨name, sig, h.trans ha.draft⟩

theorem made_workAll (id : Nat) (name : String) (sig : Signature) (ws : List (Scope × Work)) :
    ((new id name sig).workAll ws).Made := by
  obtain ⟨name', sig', h⟩ := made_new id name sig
  exact ⟨name', sig', h.trans (workAll_grows _ ws).draft⟩

/-- **Every body under construction is sound.** -/
theorem Made.sound (h : b.Made) : b.draft.Holds Body.Sound := by
  obtain ⟨name, sig, h⟩ := h
  exact fun hf => (h.holds (Body.kept_soundFor name sig) (Draft.holds_new name sig) hf).1

theorem ended_of_finalize {results : List Int} {r : Except Fault Func}
    (h : b.finalize results = (b', r)) : b'.state ≠ .building := by
  rcases b.finalize_cases results with ⟨hst, e⟩ | ⟨-, c, hg, -, ⟨f, -, e⟩ | ⟨fn, -, -, -, e⟩⟩
  · rw [h] at e
    cases e
    exact hst
  all_goals
    rw [h] at e
    cases e
    rw [hg.state]
    exact nofun

theorem ready_of_finalize {results : List Int} {fn : Func} (h : b.finalize results = (b', .ok fn)) :
    b.state = .building ∧ b.Healthy ∧ (b.ended results).finish.2 = .ok fn := by
  rcases b.finalize_cases results with ⟨-, e⟩ | ⟨hst, c, -, -, ⟨f, -, e⟩ | ⟨fn, hb, -, hfn, e⟩⟩
  · rw [h] at e
    cases e
  · rw [h] at e
    cases e
  · rw [h] at e
    cases e
    exact ⟨hst, hb, hfn⟩

theorem holds_of_finalize {P : Body → Prop} (hP : Draft.Kept P) (hd : b.draft.Holds P)
    {results : List Int} {fn : Func} (h : b.finalize results = (b', .ok fn)) :
    ∃ body, P body ∧ body.fn = fn := by
  obtain ⟨-, -, hfin⟩ := ready_of_finalize h
  obtain ⟨hf, rfl, -⟩ := Draft.finish_ok hfin
  exact ⟨_, (b.extends_ended results).holds hP hd hf, rfl⟩

/-- **Every function that is handed out is well formed** and imports by name. -/
theorem Made.wellFormed (hm : b.Made) {results : List Int} {fn : Func}
    (h : b.finalize results = (b', .ok fn)) : fn.WellFormed ∧ fn.ImportsNamed := by
  obtain ⟨name, sig, hm⟩ := hm
  obtain ⟨as, e⟩ := hm.trans (b.extends_ended results)
  have hfin := (ready_of_finalize h).2.2
  rw [e] at hfin
  exact ⟨(Draft.sound_of_finish hfin).2.2, Draft.importsNamed_of_finish hfin⟩

theorem Ages.healthy (h : b.Ages b') (hb : b'.Healthy) : b.Healthy := by
  refine ⟨?_, ?_⟩
  · cases hf : b.fault with
    | none => rfl
    | some f => exact absurd (hb.fault.symm.trans (h.fault f hf)) nofun
  · cases hf : b.draft.fault with
    | none => rfl
    | some f => exact absurd (hb.draft.symm.trans (h.draft.fault hf)) nofun

end Builder

namespace CodeUnit
variable {u u' : CodeUnit} {o : Op}

theorem getElem?_set {bs : Array Builder} {i : Nat} {b : Builder} (h : bs[i]? = some b) (b' : Builder)
    (k : Nat) : (bs.setIfInBounds i b')[k]? = if i = k then some b' else bs[k]? := by
  rw [Array.getElem?_setIfInBounds, if_pos (Array.getElem?_eq_some_iff.mp h).1]

theorem ages_set {bs : Array Builder} {i : Nat} {b b' : Builder} (h : bs[i]? = some b)
    (hb : b.Ages b') {k : Nat} {c : Builder} (hc : bs[k]? = some c) :
    ∃ c', (bs.setIfInBounds i b')[k]? = some c' ∧ c.Ages c' := by
  rw [getElem?_set h]
  split
  · rename_i e
    subst e
    obtain rfl := Option.some.inj (h.symm.trans hc)
    exact ⟨b', rfl, hb⟩
  · exact ⟨c, hc, .refl c⟩

theorem ages_of_set {bs : Array Builder} {i : Nat} {b b' : Builder} (h : bs[i]? = some b)
    (hb : b.Ages b') {k : Nat} {c' : Builder} (hc : (bs.setIfInBounds i b')[k]? = some c') :
    ∃ c, bs[k]? = some c ∧ c.Ages c' := by
  rw [getElem?_set h] at hc
  split at hc
  · rename_i e
    subst e
    cases hc
    exact ⟨b, h, hb⟩
  · exact ⟨c', hc, .refl c'⟩

/-! ## bookkeeping -/

/-- the work on the builder of the function `n` has ended -/
def Over (u : CodeUnit) (n : Nat) : Prop :=
  ∃ (i : Nat) (b : Builder), u.builders[i]? = some b ∧ b.id = n ∧ b.state ≠ .building

/-- no body waits under the number `n`, and its builder will hand in none: the work has ended, or
something is wrong with it -/
structure Barren (u : CodeUnit) (n : Nat) : Prop where
  empty : ∀ fn, (n, fn) ∉ u.waiting
  builder : ∃ (i : Nat) (b : Builder), u.builders[i]? = some b ∧ b.id = n ∧
    (b.state ≠ .building ∨ ¬ b.Healthy)

/-- **The bookkeeping of a unit**: every builder has a declared number of its own, bodies wait only
under the numbers of builders that have ended, and no body waits where code lies. -/
structure Settled (u : CodeUnit) : Prop where
  declared : ∀ (i : Nat) (b : Builder), u.builders[i]? = some b → b.id < u.module.funcs.size
  distinct : ∀ (i j : Nat) (b c : Builder), u.builders[i]? = some b → u.builders[j]? = some c →
    b.id = c.id → i = j
  waits : ∀ (n : Nat) (fn : Func), (n, fn) ∈ u.waiting → u.Over n
  code : ∀ (n : Nat) (d : Host.Declared) (p : Host.Placed), u.module.funcs[n]? = some d →
    d.placed = some p → u.Over n ∧ ∀ fn, (n, fn) ∉ u.waiting

theorem Over.barren {n : Nat} (h : u.Over n) (hw : ∀ fn, (n, fn) ∉ u.waiting) : u.Barren n := by
  obtain ⟨i, b, hb, hid, hst⟩ := h
  exact ⟨hw, i, b, hb, hid, .inl hst⟩

theorem Settled.lt_of_barren (hs : u.Settled) {n : Nat} (h : u.Barren n) :
    n < u.module.funcs.size := by
  obtain ⟨i, b, hb, rfl, -⟩ := h.builder
  exact hs.declared i b hb

theorem funcs_close (m : Host.Module) : m.close.1.funcs = m.funcs := by
  unfold Host.Module.close
  split <;> rfl

variable [Host.Platform]

/-! ## builders in a unit -/

/-- **A builder stays in its place and only ages.** -/
theorem Effect.builder (h : Effect u o u') {i : Nat} {b : Builder} (hb : u.builders[i]? = some b) :
    ∃ b', u'.builders[i]? = some b' ∧ b.Ages b' := by
  cases h with
  | idle => exact ⟨b, hb, .refl b⟩
  | created =>
    refine ⟨b, ?_, .refl b⟩
    have hlt := (Array.getElem?_eq_some_iff.mp hb).1
    show (u.builders.push _)[i]? = some b
    rw [Array.getElem?_push, if_neg (Nat.ne_of_lt hlt), hb]
  | worked h => exact ages_set h (Builder.work_grows _ _ _).ages hb
  | failed h hfin | lost h hfin | delivered h hfin =>
    exact ages_set h (Builder.ages_of_finalize hfin) hb
  | refused | placed | closed | registered => exact ⟨b, hb, .refl b⟩

theorem Effect.builder_before (h : Effect u o u') {i : Nat} {b' : Builder}
    (hb : u'.builders[i]? = some b') : (∃ b, u.builders[i]? = some b ∧ b.Ages b') ∨
      ∃ name sig, o = .create name sig ∧ i = u.builders.size ∧
        b' = .new u.module.funcs.size name sig ∧
        u'.module = { u.module with funcs := u.module.funcs.push { name, sig } } := by
  cases h with
  | idle => exact .inl ⟨b', hb, .refl b'⟩
  | created _ _ hd =>
    obtain ⟨-, -, -, rfl, rfl⟩ := Host.Module.declare_ok hd
    have hb : (u.builders.push _)[i]? = some b' := hb
    rw [Array.getElem?_push] at hb
    split at hb
    · rename_i e
      cases hb
      exact .inr ⟨_, _, rfl, e, rfl, rfl⟩
    · exact .inl ⟨b', hb, .refl b'⟩
  | worked h => exact .inl (ages_of_set h (Builder.work_grows _ _ _).ages hb)
  | failed h hfin | lost h hfin | delivered h hfin =>
    exact .inl (ages_of_set h (Builder.ages_of_finalize hfin) hb)
  | refused | placed | closed | registered => exact .inl ⟨b', hb, .refl b'⟩

/-- only the end of its own work ends the work on a builder -/
theorem Effect.ended (h : Effect u o u') {i : Nat} {b b' : Builder} (hb : u.builders[i]? = some b)
    (hst : b.state = .building) (hb' : u'.builders[i]? = some b') (hst' : b'.state ≠ .building) :
    ∃ results r, b.finalize results = (b', r) ∧ u'.fault = u.fault.or b'.poison? := by
  have hsame : u.builders[i]? ≠ some b' := fun e => by
    rw [hb] at e
    cases e
    exact hst' hst
  have hset : ∀ {k : Nat} {c c' : Builder}, u.builders[k]? = some c →
      (u.builders.setIfInBounds k c')[i]? = some b' → b = c ∧ b' = c' := fun hc e => by
    rw [getElem?_set hc] at e
    split at e
    · rename_i hk
      subst hk
      exact ⟨Option.some.inj (hb.symm.trans hc), (Option.some.inj e).symm⟩
    · exact absurd e hsame
  cases h with
  | created =>
    have hs : (u.builders.push _)[i]? = some b' := hb'
    rw [Array.getElem?_push, if_neg (Nat.ne_of_lt (Array.getElem?_eq_some_iff.mp hb).1)] at hs
    exact absurd hs hsame
  | worked hc =>
    obtain ⟨rfl, rfl⟩ := hset hc hb'
    exact absurd ((Builder.work_grows _ _ _).state.trans hst) hst'
  | failed hc hfin | lost hc hfin | delivered hc hfin =>
    obtain ⟨rfl, rfl⟩ := hset hc hb'
    exact ⟨_, _, hfin, rfl⟩
  | idle | refused | placed | closed | registered => exact absurd hb' hsame

/-- **All drafts are made by operations alone.** -/
theorem Effect.made (h : Effect u o u')
    (hm : ∀ (i : Nat) (b : Builder), u.builders[i]? = some b → b.Made) {i : Nat} {b : Builder}
    (hb : u'.builders[i]? = some b) : b.Made := by
  rcases h.builder_before hb with ⟨c, hc, ha⟩ | ⟨name, sig, -, -, rfl, -⟩
  · exact (hm i c hc).ages ha
  · exact Builder.made_new _ name sig

/-! ## bodies and code along a session -/

theorem Effect.waiting_before (h : Effect u o u') {n : Nat} {fn : Func} (hw : (n, fn) ∈ u'.waiting) :
    (n, fn) ∈ u.waiting ∨ ∃ i results b b', o = .finish i results ∧ u.builders[i]? = some b ∧
      b.id = n ∧ b.finalize results = (b', .ok fn) ∧ u'.builders[i]? = some b' := by
  cases h with
  | delivered hb hfin =>
    rcases List.mem_cons.mp hw with e | hw
    · cases e
      refine .inr ⟨_, _, _, _, rfl, hb, rfl, hfin, ?_⟩
      exact (getElem?_set hb _ _).trans (if_pos rfl)
    · exact .inl hw
  | refused | placed => exact .inl (mem_rest.mp hw).1
  | closed => cases hw
  | _ => exact .inl hw

theorem Effect.module_cases (h : Effect u o u') :
    u'.module = u.module ∨
    (∃ name sig, o = .create name sig ∧ u.fault = none ∧
      u'.module = { u.module with funcs := u.module.funcs.push { name, sig } }) ∨
    (∃ (n : Nat) (d : Host.Declared) (p : Host.Placed), o = .finalize n ∧ u.fault = none ∧
      (n, p.fn) ∈ u.waiting ∧ u.module.Accepts n d p ∧ u'.module = u.module.place n d p ∧
      u'.waiting = u.rest n) ∨
    (o = .close ∧ u'.module = u.module.close.1) := by
  cases h with
  | created hf _ hd =>
    obtain ⟨-, -, -, rfl, rfl⟩ := Host.Module.declare_ok hd
    exact .inr (.inl ⟨_, _, rfl, hf, rfl⟩)
  | placed hf hw ha => exact .inr (.inr (.inl ⟨_, _, _, rfl, hf, hw, ha, rfl, rfl⟩))
  | closed => exact .inr (.inr (.inr ⟨rfl, rfl⟩))
  | _ => exact .inl rfl

theorem Effect.funcs_size (h : Effect u o u') : u.module.funcs.size ≤ u'.module.funcs.size := by
  rcases h.module_cases with e | ⟨name, sig, -, -, e⟩ | ⟨n, d, p, -, -, -, -, e, -⟩ | ⟨-, e⟩
  · exact Nat.le_of_eq (by rw [e])
  · rw [e]
    show _ ≤ (u.module.funcs.push _).size
    rw [Array.size_push]
    exact Nat.le_succ _
  · rw [e]
    exact Nat.le_of_eq (Array.size_modify ..).symm
  · exact Nat.le_of_eq (by rw [e, funcs_close])

theorem Effect.funcs (h : Effect u o u') {n : Nat} (hn : n < u.module.funcs.size)
    (hw : ∀ fn, (n, fn) ∉ u.waiting) : u'.module.funcs[n]? = u.module.funcs[n]? := by
  rcases h.module_cases with e | ⟨_, _, -, -, e⟩ | ⟨k, d, p, -, -, hk, -, e, -⟩ | ⟨-, e⟩
  · rw [e]
  · rw [e]
    show (u.module.funcs.push _)[n]? = _
    rw [Array.getElem?_push, if_neg (Nat.ne_of_lt hn)]
  · have hne : k ≠ n := by
      rintro rfl
      exact hw p.fn hk
    rw [e, Host.Module.getElem?_place, if_neg hne]
  · rw [e, funcs_close]

/-- code that lies in the module lay there before, or the body that waited for it was just placed -/
theorem Effect.code_before (h : Effect u o u') {n : Nat} {d : Host.Declared} {p : Host.Placed}
    (hd : u'.module.funcs[n]? = some d) (hp : d.placed = some p) :
    u.module.funcs[n]? = some d ∨ ∃ e, o = .finalize n ∧ u.fault = none ∧
      (n, p.fn) ∈ u.waiting ∧ u.module.Accepts n e p ∧ u'.module = u.module.place n e p ∧
      u'.waiting = u.rest n := by
  rcases h.module_cases with e | ⟨_, _, -, -, e⟩ | ⟨k, c, q, ho, hf, hk, ha, e, hr⟩ | ⟨-, e⟩
  · rw [e] at hd
    exact .inl hd
  · rw [e] at hd
    rcases Host.Module.declared_before hd with hd | ⟨-, rfl⟩
    · exact .inl hd
    · cases hp
  · rw [e, Host.Module.getElem?_place] at hd
    split at hd
    · rename_i hkn
      subst hkn
      rw [ha.declared] at hd
      cases hd
      cases hp
      exact .inr ⟨c, ho, hf, hk, ha, e, hr⟩
    · exact .inl hd
  · rw [e, funcs_close] at hd
    exact .inl hd

/-- **A fault of the unit lasts**, and the open unit's module stays as it is. -/
theorem Effect.fault (h : Effect u o u') {f : Fault} (hf : u.fault = some f) :
    u'.fault = some f ∧ (o ≠ .close → u'.module = u.module) := by
  refine ⟨?_, fun hc => ?_⟩
  · have hor : ∀ g, u.fault.or g = some f := fun g => by rw [hf]; rfl
    cases h with
    | created hno | refused hno | placed hno => exact absurd (hf.symm.trans hno) nofun
    | worked | failed | lost | delivered => exact hor _
    | idle | closed | registered => exact hf
  · rcases h.module_cases with e | ⟨_, _, -, hno, -⟩ | ⟨_, _, _, -, hno, -⟩ | ⟨ho, -⟩
    · exact e
    · exact absurd (hf.symm.trans hno) nofun
    · exact absurd (hf.symm.trans hno) nofun
    · exact absurd ho hc

/-! ## what the books keep -/

theorem Over.next {n : Nat} (h : u.Over n) (he : Effect u o u') : u'.Over n := by
  obtain ⟨i, b, hb, hid, hst⟩ := h
  obtain ⟨b', hb', ha⟩ := he.builder hb
  exact ⟨i, b', hb', ha.id.trans hid, fun e => hst (ha.state.started e)⟩

/-- **No operation ends this.** -/
theorem Barren.next (hs : u.Settled) {n : Nat} (h : u.Barren n) (he : Effect u o u') :
    u'.Barren n := by
  obtain ⟨i, b, hb, rfl, hbad⟩ := h.builder
  refine ⟨fun fn hw => ?_, ?_⟩
  · rcases he.waiting_before hw with hw | ⟨j, results, c, c', -, hc, hid, hfin, -⟩
    · exact h.empty fn hw
    · -- the builder that handed the body in was at work and healthy
      obtain rfl := hs.distinct j i c b hc hb hid
      obtain rfl := Option.some.inj (hb.symm.trans hc)
      obtain ⟨hst, hh, -⟩ := Builder.ready_of_finalize hfin
      exact hbad.elim (fun h => h hst) (fun h => h hh)
  · obtain ⟨b', hb', ha⟩ := he.builder hb
    refine ⟨i, b', hb', ha.id, hbad.imp ?_ ?_⟩
    · exact fun hst e => hst (ha.state.started e)
    · exact fun hh e => hh (ha.healthy e)

/-- **Every operation keeps the books.** -/
theorem Settled.next (hs : u.Settled) (he : Effect u o u') : u'.Settled where
  declared i b' hb' := by
    rcases he.builder_before hb' with ⟨b, hb, ha⟩ | ⟨name, sig, -, -, rfl, e⟩
    · rw [ha.id]
      exact Nat.lt_of_lt_of_le (hs.declared i b hb) he.funcs_size
    · rw [e]
      show _ < (u.module.funcs.push _).size
      rw [Array.size_push]
      exact Nat.lt_succ_self _
  distinct i j b' c' hb' hc' hid := by
    rcases he.builder_before hb' with ⟨b, hb, ha⟩ | ⟨_, _, -, rfl, rfl, -⟩
    · rcases he.builder_before hc' with ⟨c, hc, hac⟩ | ⟨_, _, -, rfl, rfl, -⟩
      · exact hs.distinct i j b c hb hc (ha.id.symm.trans (hid.trans hac.id))
      · have hlt := hs.declared i b hb
        rw [← ha.id, hid] at hlt
        exact absurd hlt (Nat.lt_irrefl _)
    · rcases he.builder_before hc' with ⟨c, hc, hac⟩ | ⟨_, _, -, rfl, -, -⟩
      · have hlt := hs.declared j c hc
        rw [← hac.id, ← hid] at hlt
        exact absurd hlt (Nat.lt_irrefl _)
      · rfl
  waits n fn hw := by
    rcases he.waiting_before hw with hw | ⟨i, results, b, b', -, -, hid, hfin, hb'⟩
    · exact (hs.waits n fn hw).next he
    · exact ⟨i, b', hb', (Builder.ages_of_finalize hfin).id.trans hid, Builder.ended_of_finalize hfin⟩
  code n d p hd hp := by
    rcases he.code_before hd hp with hd | ⟨e, -, -, hw, -, -, hr⟩
    · obtain ⟨ho, hw⟩ := hs.code n d p hd hp
      exact ⟨ho.next he, ((ho.barren hw).next hs he).empty⟩
    · refine ⟨(hs.waits n _ hw).next he, fun fn h => ?_⟩
      rw [hr] at h
      exact (mem_rest.mp h).2 rfl

end CodeUnit
end TreeJit.Emit
