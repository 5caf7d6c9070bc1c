import TreeJit.Host.Linux
import TreeJit.Proofs.Emit.Session

/-!
# The life cycle of a unit

What holds of every session on an open unit (`Orderly`).  Each statement compares the unit at the end
of a session with the unit somewhere before: one builder is at work, states only move on, a body
waits after its builder has ended without a fault and is taken once, and after a fault of the unit
nothing is made any more.

* `Attended`     the invariant that says which builder is at work;
* `orderly`      every session on an open unit is orderly.
-/

namespace TreeJit.Emit

open SSA

namespace CodeUnit
variable {u u' : CodeUnit} {o : Op}

/-! ## the builder at work -/

/-- the unit is open, and the builder at work is the one that builds -/
structure Attended (u : CodeUnit) : Prop where
  opened : u.pending ≠ none
  alone : ∀ (i : Nat) (b : Builder), u.builders[i]? = some b →
    (b.state = .building ↔ u.active = some i)
  known : ∀ i : Nat, u.active = some i → ∃ b, u.builders[i]? = some b

theorem released_eq_some_iff {i k : Nat} {b : Builder} (h : b.state = .building ↔ u.active = some i) :
    u.released i b = some k ↔ u.active = some k ∧ k ≠ i := by
  unfold released
  by_cases ha : u.active = some i
  · rw [if_pos ⟨h.mpr ha, ha⟩, ha]
    refine ⟨nofun, fun ⟨e, hne⟩ => ?_⟩
    cases e
    exact absurd rfl hne
  · rw [if_neg fun hc => ha hc.2]
    refine ⟨fun e => ⟨e, ?_⟩, And.left⟩
    rintro rfl
    exact ha e

theorem Attended.retire (ha : u.Attended) {i : Nat} {b b' : Builder} (hb : u.builders[i]? = some b)
    (hst : b'.state ≠ .building) :
    (∀ (k : Nat) (c : Builder), (u.builders.setIfInBounds i b')[k]? = some c →
      (c.state = .building ↔ u.released i b = some k)) ∧
    ∀ k : Nat, u.released i b = some k → ∃ c, (u.builders.setIfInBounds i b')[k]? = some c := by
  have hrel : ∀ k, u.released i b = some k ↔ u.active = some k ∧ k ≠ i := fun k =>
    released_eq_some_iff (ha.alone i b hb)
  simp only [getElem?_set hb, hrel]
  refine ⟨fun k c hc => ?_, fun k ⟨hk, hne⟩ => ?_⟩
  · split at hc
    · rename_i e
      cases hc
      exact ⟨fun h => absurd h hst, fun h => absurd e.symm h.2⟩
    · rename_i e
      exact (ha.alone k c hc).trans ⟨fun h => ⟨h, fun e' => e e'.symm⟩, And.left⟩
  · rw [if_neg fun e => hne e.symm]
    exact ha.known k hk

/-! ## what is missing -/

/-- nothing is compiled under the number `n`: no body waits there and none lies in the module -/
def Missing (u : CodeUnit) (n : Nat) : Prop :=
  (∀ fn, (n, fn) ∉ u.waiting) ∧
    ∀ d : Host.Declared, u.module.funcs[n]? = some d → d.placed = none

theorem missing_of_building (hs : u.Settled) {i : Nat} {b : Builder} (hb : u.builders[i]? = some b)
    (hst : b.state = .building) : u.Missing b.id := by
  have hno : ¬ u.Over b.id := by
    rintro ⟨k, c, hc, hid, hce⟩
    obtain rfl := hs.distinct k i c b hc hb hid
    obtain rfl := Option.some.inj (hb.symm.trans hc)
    exact hce hst
  refine ⟨fun fn hw => hno (hs.waits _ fn hw), fun d hd => ?_⟩
  cases hp : d.placed with
  | none => rfl
  | some p => exact absurd (hs.code _ d p hd hp).1 hno

section
variable [Host.Platform]

/-! ## one operation -/

/-- **Every operation but closing keeps one builder at work.** -/
theorem Attended.next (ha : u.Attended) (he : Effect u o u') (hc : o ≠ .close) : u'.Attended := by
  cases he with
  | idle | registered => exact ⟨ha.opened, ha.alone, ha.known⟩
  | created _ hnone _ =>
    have hfree : ∀ i, u.active ≠ some i := by
      intro i hi
      obtain ⟨b, hb⟩ := ha.known i hi
      rw [hi] at hnone
      exact absurd (hb.symm.trans hnone) nofun
    refine ⟨ha.opened, fun i b hb => ?_, fun i hi => ?_⟩
    · have hb : (u.builders.push _)[i]? = some b := hb
      rw [Array.getElem?_push] at hb
      split at hb
      · rename_i e
        cases hb
        exact ⟨fun _ => congrArg some e.symm, fun _ => rfl⟩
      · rename_i e
        refine ⟨fun h => absurd ((ha.alone i b hb).mp h) (hfree i), fun h => ?_⟩
        exact absurd (Option.some.inj h).symm e
    · obtain rfl : u.builders.size = i := Option.some.inj hi
      exact ⟨_, Array.getElem?_push_size⟩
  | worked hb =>
    have hset := getElem?_set hb
    refine ⟨ha.opened, fun k c hk => ?_, fun k hk => ?_⟩
    · have hs : (u.builders.setIfInBounds _ _)[k]? = some c := hk
      rw [hset] at hs
      split at hs
      · rename_i e
        cases hs
        rw [(Builder.work_grows _ _ _).state, ← e]
        exact ha.alone _ _ hb
      · exact ha.alone k c hs
    · obtain ⟨c, hc⟩ := ha.known k hk
      obtain ⟨c', hc', -⟩ := ages_set hb (Builder.work_grows _ _ _).ages hc
      exact ⟨c', hc'⟩
  | failed hb hfin | lost hb hfin =>
    obtain ⟨h1, h2⟩ := ha.retire hb (Builder.ended_of_finalize hfin)
    exact ⟨ha.opened, h1, h2⟩
  | delivered hb hfin =>
    obtain ⟨h1, h2⟩ := ha.retire hb (Builder.ended_of_finalize hfin)
    exact ⟨nofun, h1, h2⟩
  | refused | placed => exact ⟨nofun, ha.alone, ha.known⟩
  | closed => exact absurd rfl hc

/-! ## sessions -/

theorem settled_perform (hs : u.Settled) (ops : List Op) : (u.perform ops).Settled := by
  induction ops generalizing u with
  | nil => exact hs
  | cons o ops ih => exact ih (hs.next (u.act_effect o))

theorem attended_perform (ha : u.Attended) {ops : List Op} (hc : .close ∉ ops) :
    (u.perform ops).Attended := by
  induction ops generalizing u with
  | nil => exact ha
  | cons o ops ih =>
    obtain ⟨ho, hc⟩ := not_or.mp (mt List.mem_cons.mpr hc)
    exact ih (ha.next (u.act_effect o) fun e => ho e.symm) hc

theorem builder_perform {i : Nat} {b : Builder} (hb : u.builders[i]? = some b) (ops : List Op) :
    ∃ b', (u.perform ops).builders[i]? = some b' ∧ b.Ages b' := by
  induction ops generalizing u b with
  | nil => exact ⟨b, hb, .refl b⟩
  | cons o ops ih =>
    obtain ⟨b1, hb1, h1⟩ := (u.act_effect o).builder hb
    obtain ⟨b', hb', h'⟩ := ih hb1
    exact ⟨b', hb', h1.trans h'⟩

theorem made_perform (hm : ∀ (i : Nat) (b : Builder), u.builders[i]? = some b → b.Made)
    {ops : List Op} {i : Nat} {b : Builder} (hb : (u.perform ops).builders[i]? = some b) : b.Made := by
  induction ops generalizing u with
  | nil => exact hm i b hb
  | cons o ops ih => exact ih (fun _ _ h => (u.act_effect o).made hm h) hb

/-- the function `n` stays as it is once no body will wait for it -/
theorem barren_perform (hs : u.Settled) {n : Nat} (h : u.Barren n) (ops : List Op) :
    (u.perform ops).Barren n ∧ (u.perform ops).module.funcs[n]? = u.module.funcs[n]? := by
  induction ops generalizing u with
  | nil => exact ⟨h, rfl⟩
  | cons o ops ih =>
    have he := u.act_effect o
    obtain ⟨h1, h2⟩ := ih (hs.next he) (h.next hs he)
    exact ⟨h1, h2.trans (he.funcs (hs.lt_of_barren h) h.empty)⟩

theorem placed_perform (hs : u.Settled) {n : Nat} {d : Host.Declared} {p : Host.Placed}
    (hd : u.module.funcs[n]? = some d) (hp : d.placed = some p) (ops : List Op) :
    (u.perform ops).module.funcs[n]? = some d := by
  obtain ⟨ho, hw⟩ := hs.code n d p hd hp
  exact (barren_perform hs (ho.barren hw) ops).2.trans hd

theorem fault_perform {f : Fault} (hf : u.fault = some f) {ops : List Op} (hc : .close ∉ ops) :
    (u.perform ops).fault = some f ∧ (u.perform ops).module = u.module := by
  induction ops generalizing u with
  | nil => exact ⟨hf, rfl⟩
  | cons o ops ih =>
    obtain ⟨ho, hc⟩ := not_or.mp (mt List.mem_cons.mpr hc)
    obtain ⟨h1, h2⟩ := (u.act_effect o).fault hf
    obtain ⟨h3, h4⟩ := ih h1 hc
    exact ⟨h3, h4.trans (h2 fun e => ho e.symm)⟩

theorem waiting_perform {n : Nat} {fn : Func} {ops : List Op}
    (hw : (n, fn) ∈ (u.perform ops).waiting) : (n, fn) ∈ u.waiting ∨
    ∃ before after i results b b', ops = before ++ .finish i results :: after ∧
      (u.perform before).builders[i]? = some b ∧ b.id = n ∧ b.finalize results = (b', .ok fn) := by
  induction ops generalizing u with
  | nil => exact .inl hw
  | cons o ops ih =>
    rcases ih hw with hw | ⟨before, after, i, results, b, b', rfl, hb, hid, hfin⟩
    · rcases (u.act_effect o).waiting_before hw with hw | ⟨i, results, b, b', rfl, hb, hid, hfin, -⟩
      · exact .inl hw
      · exact .inr ⟨[], ops, i, results, b, b', rfl, hb, hid, hfin⟩
    · exact .inr ⟨o :: before, after, i, results, b, b', rfl, hb, hid, hfin⟩

theorem code_perform {n : Nat} {d : Host.Declared} {p : Host.Placed} {ops : List Op}
    (hd : (u.perform ops).module.funcs[n]? = some d) (hp : d.placed = some p) :
    u.module.funcs[n]? = some d ∨
    ∃ (before after : List Op) (e : Host.Declared),
      ops = before ++ .finalize n :: after ∧ (u.perform before).fault = none ∧
      (n, p.fn) ∈ (u.perform before).waiting ∧ (u.perform before).module.Accepts n e p := by
  induction ops generalizing u with
  | nil => exact .inl hd
  | cons o ops ih =>
    rcases ih hd with hd | ⟨before, after, e, rfl, hf, hw, ha⟩
    · rcases (u.act_effect o).code_before hd hp with hd | ⟨e, rfl, hf, hw, ha, -, -⟩
      · exact .inl hd
      · exact .inr ⟨[], ops, e, rfl, hf, hw, ha⟩
    · exact .inr ⟨o :: before, after, e, rfl, hf, hw, ha⟩

/-! ## units at their start -/

theorem settled_build {catalog : Option Host.Catalog} {settings : Host.Settings} {native : Bool}
    (h : build catalog settings native = .ok u) : u.Settled := by
  obtain ⟨j, rfl⟩ := build_ok h
  refine ⟨fun i b hb => ?_, fun i k b c hb => ?_, fun n fn hw => ?_, fun n d p hd => ?_⟩
  · simp at hb
  · simp at hb
  · exact absurd hw List.not_mem_nil
  · simp at hd

theorem attended_build {catalog : Option Host.Catalog} {settings : Host.Settings} {native : Bool}
    (h : build catalog settings native = .ok u) : u.Attended := by
  obtain ⟨j, rfl⟩ := build_ok h
  refine ⟨nofun, fun i b hb => ?_, nofun⟩
  simp at hb

theorem made_build {catalog : Option Host.Catalog} {settings : Host.Settings} {native : Bool}
    (h : build catalog settings native = .ok u) :
    ∀ (i : Nat) (b : Builder), u.builders[i]? = some b → b.Made := by
  obtain ⟨j, rfl⟩ := build_ok h
  intro i b hb
  simp at hb

def fresh : CodeUnit where
  module := { settings := {}, imports := [] }
  catalog := {}
  journal := [.moduleBuilt 0 "speed"]

theorem build_fresh : build none {} true = .ok fresh := rfl

/-! ## the life cycle -/

/-- the unit has stopped with the fault `f`: it refuses to create and to compile -/
structure Halted (u : CodeUnit) (f : Fault) : Prop where
  fault : u.fault = some f
  create : ∀ name sig, u.create name sig = (u, .error (.unitFailed f))
  finalize : ∀ id, u.finalize id = (u, .error (.unitFailed f))

/-- **An orderly session**: `start` is the unit at its start and `ops` what was done with it.  A
session splits as `before ++ after`, so that the end can be compared with any moment before. -/
structure Orderly (start : CodeUnit) (ops : List Op) : Prop where
  /-- the builder at work, and no other, is building -/
  alone : ∀ (i : Nat) (b : Builder), (start.perform ops).builders[i]? = some b →
    (b.state = .building ↔ (start.perform ops).active = some i)
  /-- states only move on, phase by phase -/
  onward : ∀ before after, ops = before ++ after → ∀ (i : Nat) (b : Builder),
    (start.perform before).builders[i]? = some b → ∃ b', (start.perform ops).builders[i]? = some b' ∧
      b'.id = b.id ∧ b.state.Leads b'.state
  /-- a body that waits was handed in by the builder of its number, which had no fault -/
  delivered : ∀ n fn, (n, fn) ∈ (start.perform ops).waiting → ∃ before after i results b,
    ops = before ++ .finish i results :: after ∧ (start.perform before).builders[i]? = some b ∧
      b.id = n ∧ b.state = .building ∧ b.Healthy ∧ (b.finalize results).2 = .ok fn
  /-- compiling takes the body: later there is none to compile -/
  consumed : ∀ before after (n : Nat), ops = before ++ .finalize n :: after →
    (start.perform before).fault = none → (∃ fn, (n, fn) ∈ (start.perform before).waiting) →
    (∀ fn, (n, fn) ∉ (start.perform ops).waiting) ∧
      (start.perform ops).act (.finalize n) = start.perform ops
  /-- code in the module is a body that waited and was taken when there was no code yet -/
  placed : ∀ (n : Nat) d p, (start.perform ops).module.funcs[n]? = some d → d.placed = some p →
    ∃ before after, ops = before ++ .finalize n :: after ∧
      (start.perform before).fault = none ∧ (n, p.fn) ∈ (start.perform before).waiting ∧
      ∀ e, (start.perform before).module.funcs[n]? = some e → e.placed = none
  /-- code is never replaced -/
  kept : ∀ before after, ops = before ++ after → ∀ (n : Nat) d p,
    (start.perform before).module.funcs[n]? = some d → d.placed = some p →
    (start.perform ops).module.funcs[n]? = some d
  /-- a build that has a fault, or whose end meets one, never gives code -/
  faulty : ∀ before after, ops = before ++ after → ∀ (i : Nat) b,
    (start.perform before).builders[i]? = some b → b.state = .building →
    (¬ b.Healthy ∨ ∃ results f rest, after = .finish i results :: rest ∧
      ((start.perform before).finish i results).2 = .failed f) → (start.perform ops).Missing b.id
  /-- the first fault of the unit stops it for good, and the module stays as it is -/
  stopped : ∀ before after, ops = before ++ after → ∀ f, (start.perform before).fault = some f →
    (start.perform ops).Halted f ∧ (start.perform ops).module = (start.perform before).module

theorem halted_of_fault {f : Fault} (hf : u.fault = some f) : u.Halted f where
  fault := hf
  create name sig := by
    unfold CodeUnit.create
    rw [hf]
  finalize id := by
    unfold CodeUnit.finalize
    rw [hf]

theorem finalize_of_empty {n : Nat} (hw : ∀ fn, (n, fn) ∉ u.waiting) :
    (u.finalize n).1 = u ∧ ∃ f, (u.finalize n).2 = .error f := by
  rcases u.finalize_cases n with ⟨f, -, e⟩ | ⟨-, -, e⟩ | ⟨k, fn, j, -, hk, hm, -⟩
  · rw [e]
    exact ⟨rfl, _, rfl⟩
  · rw [e]
    exact ⟨rfl, _, rfl⟩
  · obtain rfl : n = k := by omega
    exact absurd hm (hw fn)

theorem taken_of_waiting (hs : u.Settled) {n : Nat} (hf : u.fault = none)
    (hw : ∃ fn, (n, fn) ∈ u.waiting) : (u.act (.finalize n)).Barren n := by
  obtain ⟨fn, hw⟩ := hw
  have hover := (hs.waits n fn hw).next (u.act_effect (.finalize n))
  refine hover.barren fun g => ?_
  rcases u.finalize_cases n with ⟨f, hf', -⟩ | ⟨-, hno, -⟩ | ⟨k, _, j, -, hk, -, ⟨f, e⟩ | ⟨d, p, -, -, e⟩⟩
  · exact absurd (hf.symm.trans hf') nofun
  · exact absurd rfl (hno _ hw)
  all_goals
    obtain rfl : n = k := by omega
    rw [act, e]
    exact fun h => (mem_rest.mp h).2 rfl

/-- a build whose end meets a fault leaves its number without a body for good -/
theorem barren_of_failed (hs : u.Settled) {i : Nat} {b : Builder} (hb : u.builders[i]? = some b)
    (hst : b.state = .building) {results : List Int} {f : Fault}
    (hfail : (u.finish i results).2 = .failed f) : (u.act (.finish i results)).Barren b.id := by
  have hempty := (missing_of_building hs hb hst).1
  rcases finish_cases hb results with ⟨b', g, j, hfin, e⟩ | ⟨b', fn, j, hfin, ⟨-, e⟩ | ⟨-, e⟩⟩
  · rw [act, e]
    refine ⟨hempty, i, b', ?_, (Builder.ages_of_finalize hfin).id,
      .inl (Builder.ended_of_finalize hfin)⟩
    exact (getElem?_set hb b' i).trans (if_pos rfl)
  · rw [e] at hfail
    cases hfail
  · rw [e] at hfail
    cases hfail

theorem Missing.perform (hs : u.Settled) {n : Nat} (h : u.Missing n) (hb : u.Barren n)
    (ops : List Op) : (u.perform ops).Missing n := by
  obtain ⟨h1, h2⟩ := barren_perform hs hb ops
  refine ⟨h1.empty, fun d hd => h.2 d ?_⟩
  rw [← h2]
  exact hd

/-- **Every session on an open unit is orderly.** -/
theorem orderly (catalog : Option Host.Catalog) (settings : Host.Settings) (native : Bool)
    (start : CodeUnit) (hb : build catalog settings native = .ok start) (ops : List Op)
    (hc : Op.close ∉ ops) : Orderly start ops := by
  have hset : ∀ before, (start.perform before).Settled := settled_perform (settled_build hb)
  refine
    { alone := (attended_perform (attended_build hb) hc).alone
      onward := ?onward, delivered := ?delivered, consumed := ?consumed, placed := ?placed
      kept := ?kept, faulty := ?faulty, stopped := ?stopped }
  case onward =>
    rintro before after rfl i b hbi
    rw [perform_append]
    obtain ⟨b', hb', ha⟩ := builder_perform hbi after
    exact ⟨b', hb', ha.id, ha.state⟩
  case delivered =>
    intro n fn hw
    rcases waiting_perform hw with hw | ⟨before, after, i, results, b, b', e, hbi, hid, hfin⟩
    · obtain ⟨j, rfl⟩ := build_ok hb
      exact absurd hw List.not_mem_nil
    · obtain ⟨hst, hh, -⟩ := Builder.ready_of_finalize hfin
      exact ⟨before, after, i, results, b, e, hbi, hid, hst, hh, congrArg Prod.snd hfin⟩
  case consumed =>
    rintro before after n rfl hf hw
    rw [perform_append, perform_cons]
    have hbar := taken_of_waiting (hset before) hf hw
    have hs1 := (hset before).next ((start.perform before).act_effect (.finalize n))
    have hempty := (barren_perform hs1 hbar after).1.empty
    exact ⟨hempty, (finalize_of_empty hempty).1⟩
  case placed =>
    intro n d p hd hp
    rcases code_perform hd hp with hd | ⟨before, after, e, eo, hf, hw, ha⟩
    · obtain ⟨j, rfl⟩ := build_ok hb
      simp at hd
    · refine ⟨before, after, eo, hf, hw, fun c hc => ?_⟩
      rw [ha.declared] at hc
      cases hc
      exact ha.empty
  case kept =>
    rintro before after rfl n d p hd hp
    rw [perform_append]
    exact placed_perform (hset before) hd hp after
  case faulty =>
    rintro before after rfl i b hbi hst hbad
    have hmiss := missing_of_building (hset before) hbi hst
    rw [perform_append]
    rcases hbad with hbad | ⟨results, f, rest, rfl, hfail⟩
    · exact hmiss.perform (hset before) ⟨hmiss.1, i, b, hbi, rfl, .inr hbad⟩ after
    · have hbar := barren_of_failed (hset before) hbi hst hfail
      have hs1 := (hset before).next ((start.perform before).act_effect (.finish i results))
      refine Missing.perform hs1 ⟨hbar.empty, fun d hd => hmiss.2 d ?_⟩ hbar rest
      rw [← ((start.perform before).act_effect (.finish i results)).funcs
        ((hset before).declared i b hbi) hmiss.1]
      exact hd
  case stopped =>
    rintro before after rfl f hf
    rw [perform_append]
    obtain ⟨h1, h2⟩ := fault_perform hf (mt (List.mem_append_right _) hc)
    exact ⟨halted_of_fault h1, h2⟩

end

attribute [local instance] Host.Platform.linuxX64

/-- one function is compiled, the next is asked for a parameter it does not have -/
def faultySession : List Op :=
  [.create "one" ⟨[], [.i64]⟩, .work 0 (.direct (.iconst .i64 1)), .finish 0 [0], .finalize 0,
    .create "two" ⟨[], [.i64]⟩, .work 1 (.param 3), .work 0 .check, .finish 1 [0], .finalize 1,
    .create "three" ⟨[], []⟩]

/-- the first function has code, the second never gets any -/
theorem orderly_faultySession : build none {} true = .ok fresh ∧ Op.close ∉ faultySession ∧
    Orderly fresh faultySession ∧ (fresh.perform faultySession).fault.isSome = true ∧
    ((fresh.perform faultySession).module.funcs.map fun d => d.placed.isSome) = #[true, false] := by
  have hc : Op.close ∉ faultySession := by simp [faultySession]
  exact ⟨build_fresh, hc, orderly none {} true fresh build_fresh faultySession hc, by decide +kernel,
    by decide +kernel⟩

end CodeUnit
end TreeJit.Emit
