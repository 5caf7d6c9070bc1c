import TreeJit.Proofs.Emit.Lifecycle

/-!
# Closing a unit

A unit may be closed at any moment, and more than once, while a builder is at work or a body waits.
Afterwards nothing is created, compiled or handed out.  One operation breaks down: a sound builder
that ends its work in a closed unit has no place to leave the complete body, and no fault to tell.

* `Shut u`         the unit was closed;
* `closing`        the operations of a session in which the unit may be closed at any moment.
-/

namespace TreeJit.Emit

open SSA

namespace CodeUnit
variable {u u' : CodeUnit} {o : Op}

/-- the unit was closed: nothing waits and nobody is at work -/
structure Shut (u : CodeUnit) : Prop where
  module : u.module.closed = true
  pending : u.pending = none
  active : u.active = none

theorem Shut.create (h : u.Shut) (name : String) (sig : Signature) :
    ∃ f, u.create name sig = (u, .error f) := by
  unfold CodeUnit.create
  rw [h.active, Option.bind_none]
  split
  · exact ⟨_, rfl⟩
  · exact ⟨_, rfl⟩
  · split
    · exact ⟨_, rfl⟩
    · have hd : u.module.declare name sig = .error .closed := by
        rw [Host.Module.declare, if_pos h.module]
      rw [hd]
      exact ⟨_, rfl⟩

/-- the end of a builder's work breaks down if and only if it gives a function and the unit takes
none any more -/
theorem isCrash_finish_iff {i : Nat} {results : List Int} : (u.finish i results).2.isCrash = true ↔
    u.pending = none ∧
      ∃ b fn, u.builders[i]? = some b ∧ (b.finalize results).2 = .ok fn := by
  cases hb : u.builders[i]? with
  | none =>
    have e : (u.finish i results).2 = .done () := by
      unfold CodeUnit.finish
      rw [hb]
    rw [e]
    exact ⟨nofun, fun ⟨_, b, _, h, _⟩ => nomatch h⟩
  | some b =>
    rcases finish_cases hb results with ⟨b', f, j, hfin, e⟩ | ⟨b', fn, j, hfin, ⟨hp, e⟩ | ⟨hp, e⟩⟩
    · rw [show (u.finish i results).2 = .failed f from congrArg Prod.snd e]
      refine ⟨nofun, ?_⟩
      rintro ⟨-, c, fn, hc, hok⟩
      cases hc
      rw [hfin] at hok
      cases hok
    · rw [show (u.finish i results).2 = .crashed from congrArg Prod.snd e]
      exact ⟨fun _ => ⟨hp, b, fn, rfl, by rw [hfin]⟩, fun _ => rfl⟩
    · rw [show (u.finish i results).2 = .done () from congrArg Prod.snd e]
      exact ⟨nofun, fun h => absurd h.1 hp⟩

section
variable [Host.Platform]

theorem shut_close (u : CodeUnit) : (u.act .close).Shut :=
  ⟨u.module.closed_close, rfl, rfl⟩

/-- **A closed unit stays closed**, and its module stays as it is. -/
theorem Shut.next (h : u.Shut) (he : Effect u o u') : u'.Shut ∧ u'.module = u.module := by
  have hempty : ∀ p, p ∉ u.waiting := fun p hp => by
    have := pending_of_waiting hp
    rw [h.pending] at this
    cases this
  have hrel : ∀ (i : Nat) (b : Builder), u.released i b = none := fun i b => by
    unfold released
    rw [h.active]
    exact ite_self _
  cases he with
  | idle | registered => exact ⟨⟨h.module, h.pending, h.active⟩, rfl⟩
  | created _ _ hd =>
    have ho := (Host.Module.declare_ok hd).1
    rw [h.module] at ho
    cases ho
  | worked => exact ⟨⟨h.module, h.pending, h.active⟩, rfl⟩
  | failed | lost => exact ⟨⟨h.module, h.pending, hrel _ _⟩, rfl⟩
  | delivered _ _ hp => exact absurd h.pending hp
  | refused _ hw | placed _ hw => exact absurd hw (hempty _)
  | closed =>
    have e : u.module.close.1 = u.module := by
      unfold Host.Module.close
      rw [if_pos h.module]
    exact ⟨⟨u.module.closed_close, rfl, rfl⟩, e⟩

theorem Shut.perform (h : u.Shut) (ops : List Op) :
    (u.perform ops).Shut ∧ (u.perform ops).module = u.module := by
  induction ops generalizing u with
  | nil => exact ⟨h, rfl⟩
  | cons o ops ih =>
    obtain ⟨h1, e1⟩ := h.next (u.act_effect o)
    obtain ⟨h2, e2⟩ := ih h1
    exact ⟨h2, e2.trans e1⟩

theorem shut_perform {ops : List Op} (hc : Op.close ∈ ops) : (u.perform ops).Shut := by
  obtain ⟨before, after, rfl⟩ := List.append_of_mem hc
  rw [perform_append, perform_cons]
  exact ((shut_close _).perform after).1

theorem Shut.finalize (h : u.Shut) (id : Int) : ∃ f, u.finalize id = (u, .error f) := by
  rcases u.finalize_cases id with ⟨f, -, e⟩ | ⟨-, -, e⟩ | ⟨n, fn, j, -, -, hw, -⟩
  · exact ⟨_, e⟩
  · exact ⟨_, e⟩
  · have := pending_of_waiting hw
    rw [h.pending] at this
    cases this

/-- **A unit may be closed at any moment.**  In every session only the end of the work on a builder
breaks down, and only where a sound builder hands a complete function to a closed unit; a call that is
made has an answer.  Once the unit was closed it creates and compiles nothing, no builder ends its
work with success, the module tells no address, and it stays as it is, whatever follows. -/
theorem closing (catalog : Option Host.Catalog) (settings : Host.Settings) (native : Bool)
    (start : CodeUnit) (hb : build catalog settings native = .ok start) (ops : List Op) :
    (∀ i results, ((start.perform ops).finish i results).2.isCrash = true ↔
      Op.close ∈ ops ∧ ∃ b fn, (start.perform ops).builders[i]? = some b ∧
        (b.finalize results).2 = .ok fn) ∧
    (∀ (i : Nat) (b : Builder) name args, (start.perform ops).builders[i]? = some b →
      (b.call (start.perform ops).scope name args).1.fault = none →
      0 ≤ (b.call (start.perform ops).scope name args).2) ∧
    (Op.close ∈ ops →
      (∀ name sig, ∃ f, (start.perform ops).create name sig = (start.perform ops, .error f)) ∧
      (∀ id, ∃ f, (start.perform ops).finalize id = (start.perform ops, .error f)) ∧
      (∀ i results, i < (start.perform ops).builders.size →
        ∃ u', (start.perform ops).finish i results = (u', .crashed) ∨
          ∃ f, (start.perform ops).finish i results = (u', .failed f)) ∧
      (∀ id, (start.perform ops).module.address id = .error .closed) ∧
      ∀ more, ((start.perform ops).perform more).module = (start.perform ops).module) := by
  refine ⟨fun i results => ?_, fun i b name args hi hf => ?_, fun hc => ?_⟩
  · rw [isCrash_finish_iff]
    refine and_congr_left fun _ => ⟨fun hp => ?_, fun hc => (shut_perform hc).pending⟩
    exact Classical.byContradiction fun hc =>
      (attended_perform (attended_build hb) hc).opened hp
  · have hh := (Builder.grows_call b (start.perform ops).scope name args).2.healthy hf
    obtain ⟨-, op, vs, t, d, -, -, -, -, e, -⟩ :=
      Builder.call_emits (made_perform (made_build hb) hi).sound hh
    rw [e]
    exact Int.natCast_nonneg _
  · have hs : (start.perform ops).Shut := shut_perform hc
    refine ⟨hs.create, hs.finalize, fun i results hi => ?_, fun id => ?_, fun more => (hs.perform more).2⟩
    · rcases finish_cases (Array.getElem?_eq_getElem hi) results with
        ⟨b', f, j, -, e⟩ | ⟨b', fn, j, -, ⟨-, e⟩ | ⟨hp, -⟩⟩
      · exact ⟨_, .inr ⟨f, e⟩⟩
      · exact ⟨_, .inl e⟩
      · exact absurd hs.pending hp
    · rw [Host.Module.address, if_pos hs.module]

end

attribute [local instance] Host.Platform.linuxX64

def closedEarly : List Op := [.create "f" ⟨[], []⟩, .close, .close]

/-- the builder ends its work and breaks down -/
theorem closing_closedEarly : build none {} true = .ok fresh ∧
    ((fresh.perform closedEarly).finish 0 []).2.isCrash = true ∧
    ∀ name sig, ∃ f, (fresh.perform closedEarly).create name sig =
      (fresh.perform closedEarly, .error f) := by
  obtain ⟨hcrash, -, hclosed⟩ := closing none {} true fresh build_fresh closedEarly
  have hc : Op.close ∈ closedEarly := by simp [closedEarly]
  obtain ⟨b, hb⟩ : ∃ b, (fresh.perform closedEarly).builders[0]? = some b :=
    Option.isSome_iff_exists.mp (by decide +kernel)
  have hok : ((fresh.perform closedEarly).builders[0]?.map fun b => (b.finalize []).2.isOk) =
      some true := by decide +kernel
  rw [hb, Option.map_some] at hok
  obtain ⟨fn, hfn⟩ := exists_of_isOk (Option.some.inj hok)
  exact ⟨build_fresh, (hcrash 0 []).mpr ⟨hc, b, fn, hb, hfn⟩, (hclosed hc).1⟩

end CodeUnit
end TreeJit.Emit
