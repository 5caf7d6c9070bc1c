import TreeJit.Proofs.Emit.Lifecycle

/-!
# How a fault stops the unit

A fault can arise in a builder or in the draft below it.  One in the builder stops the unit at once.
One in the draft is seen when the builder is used the next time: until then the unit goes on, and
bodies of other functions that wait are still compiled.  Nothing is created meanwhile, since the
builder is at work, and its own function is never compiled.

* `Watched u`        a fault of a builder at work has stopped the unit;
* `Troubled u i`     the `i`-th builder has a fault, which it or the unit has still to notice;
* `fault_stops`      what a fault of a builder at work leads to.
-/

namespace TreeJit.Emit

open SSA

def Op.Uses (o : Op) (i : Nat) : Prop :=
  (∃ w : Work, w.looks = true ∧ o = .work i w) ∨ ∃ results, o = .finish i results

namespace Builder
variable {b b' : Builder}

theorem fault_of_finalize {results : List Int} {r : Except Fault Func}
    (h : b.finalize results = (b', r)) (hst : b.state = .building) (hb : ¬ b.Healthy)
    (hl : b.Lasting) : b'.poison? ≠ none := by
  rcases b.finalize_cases results with ⟨hno, -⟩ | ⟨-, c, -, hlc, ⟨f, hf, e⟩ | ⟨fn, hh, -⟩⟩
  · exact absurd hst hno
  · rw [h] at e
    cases e
    rw [(hlc hl).poison, hf]
    exact nofun
  · exact absurd hh hb

end Builder

namespace CodeUnit
variable {u u' : CodeUnit} {o : Op}

/-- a builder at work has lasting faults only, and the first of them has stopped the unit -/
def Watched (u : CodeUnit) : Prop :=
  ∀ (i : Nat) (b : Builder), u.builders[i]? = some b → b.state = .building →
    b.Lasting ∧ (b.fault ≠ none → u.fault ≠ none)

theorem Watched.set (hw : u.Watched) {i : Nat} {b b' : Builder} (hb : u.builders[i]? = some b)
    (hb' : b'.state = .building → b'.Lasting ∧ (b'.fault ≠ none → b'.poison? ≠ none)) {k : Nat}
    {c : Builder} (hc : (u.builders.setIfInBounds i b')[k]? = some c) (hst : c.state = .building) :
    c.Lasting ∧ (c.fault ≠ none → u.fault.or b'.poison? ≠ none) := by
  rw [getElem?_set hb] at hc
  split at hc
  · cases hc
    obtain ⟨h1, h2⟩ := hb' hst
    exact ⟨h1, fun hf => or_ne_none.mpr (.inr (h2 hf))⟩
  · obtain ⟨h1, h2⟩ := hw k c hc hst
    exact ⟨h1, fun hf => or_ne_none.mpr (.inl (h2 hf))⟩

/-- the `i`-th builder has a fault and is at work, unless the unit has stopped -/
def Troubled (u : CodeUnit) (i : Nat) : Prop :=
  ∃ b : Builder, u.builders[i]? = some b ∧ ¬ b.Healthy ∧ (b.state = .building ∨ u.fault ≠ none)

section
variable [Host.Platform]

/-- **No fault of a builder at work goes past the unit.** -/
theorem Watched.next (hw : u.Watched) (he : Effect u o u') : u'.Watched := by
  cases he with
  | idle | closed | registered | placed => exact hw
  | refused => exact fun i b hb hst => ⟨(hw i b hb hst).1, fun _ => nofun⟩
  | created =>
    intro i b hb hst
    have hs : (u.builders.push _)[i]? = some b := hb
    rw [Array.getElem?_push] at hs
    split at hs
    · cases hs
      exact ⟨nofun, fun hf => absurd rfl hf⟩
    · exact hw i b hs hst
  | @worked i w b _ hb =>
    refine fun k c hc hst => hw.set hb (fun hst' => ?_) hc hst
    have hg := b.work_grows u.scope w
    rw [hg.state] at hst'
    have hl := hg.lasting hst' (hw i b hb hst').1
    rw [hl.poison]
    exact ⟨hl, id⟩
  | failed hb hfin | lost hb hfin | delivered hb hfin =>
    exact fun k c hc hst =>
      hw.set hb (fun h => absurd h (Builder.ended_of_finalize hfin)) hc hst

theorem watched_perform (hw : u.Watched) (ops : List Op) : (u.perform ops).Watched := by
  induction ops generalizing u with
  | nil => exact hw
  | cons o ops ih => exact ih (hw.next (u.act_effect o))

theorem watched_build {catalog : Option Host.Catalog} {settings : Host.Settings} {native : Bool}
    (h : build catalog settings native = .ok u) : u.Watched := by
  obtain ⟨j, rfl⟩ := build_ok h
  intro i b hb
  simp at hb

/-- **The trouble does not go away.** -/
theorem Troubled.next {i : Nat} (ht : u.Troubled i) (hw : u.Watched) (he : Effect u o u') :
    u'.Troubled i := by
  obtain ⟨b, hb, hbad, hst⟩ := ht
  obtain ⟨b', hb', ha⟩ := he.builder hb
  refine ⟨b', hb', fun hh => hbad (ha.healthy hh), ?_⟩
  rcases hst with hst | hf
  · by_cases hst' : b'.state = .building
    · exact .inl hst'
    · obtain ⟨results, r, hfin, e⟩ := he.ended hb hst hb' hst'
      rw [e, or_ne_none]
      exact .inr (.inr (Builder.fault_of_finalize hfin hst hbad (hw i b hb hst).1))
  · obtain ⟨f, hf⟩ := Option.ne_none_iff_exists'.mp hf
    rw [(he.fault hf).1]
    exact .inr nofun

theorem troubled_perform {i : Nat} (ht : u.Troubled i) (hw : u.Watched) (ops : List Op) :
    (u.perform ops).Troubled i := by
  induction ops generalizing u with
  | nil => exact ht
  | cons o ops ih => exact ih (ht.next hw (u.act_effect o)) (hw.next (u.act_effect o))

/-- **Using the builder makes the unit notice.** -/
theorem Troubled.used {i : Nat} (ht : u.Troubled i) (hw : u.Watched) (ho : o.Uses i) :
    (u.act o).fault ≠ none := by
  obtain ⟨b, hb, hbad, hst⟩ := ht
  rcases hst with hst | hf
  · have hl := (hw i b hb hst).1
    rcases ho with ⟨w, hlook, rfl⟩ | ⟨results, rfl⟩
    · rw [(act_work hb w).2, or_ne_none]
      have hg := b.work_grows u.scope w
      rw [(hg.lasting hst hl).poison]
      refine .inr fun hf => hbad (hg.ages.healthy ?_)
      exact (Builder.work_noticed b u.scope hlook).healthy hf
    · rw [(act_finish hb results).2, or_ne_none]
      exact .inr (Builder.fault_of_finalize rfl hst hbad hl)
  · obtain ⟨f, hf⟩ := Option.ne_none_iff_exists'.mp hf
    rw [((u.act_effect o).fault hf).1]
    exact nofun

theorem module_of_uses {i : Nat} (ho : o.Uses i) : (u.act o).module = u.module := by
  rcases ho with ⟨w, -, rfl⟩ | ⟨results, rfl⟩
  · exact (u.module_update i _).1
  · exact (u.module_finish i results).1

theorem Troubled.create {i : Nat} (ht : u.Troubled i) (ha : u.Attended) (name : String)
    (sig : Signature) : ∃ f, u.create name sig = (u, .error f) := by
  obtain ⟨b, hb, -, hst⟩ := ht
  cases hf : u.fault with
  | some f => exact ⟨_, (halted_of_fault hf).create name sig⟩
  | none =>
    have hi := (ha.alone i b hb).mp (hst.resolve_right fun h => h hf)
    refine ⟨.busy b.name, ?_⟩
    unfold CodeUnit.create
    rw [hf, hi]
    simp only [Option.bind_some, hb]

/-- **What a fault of a builder at work leads to.**  One that the builder has noticed has stopped the
unit: whatever follows, the unit refuses to create and to compile, and the module stays as it is.  One
in its draft stops the unit when the builder is used again; until then nothing is created, and its own
function is never compiled. -/
theorem fault_stops (catalog : Option Host.Catalog) (settings : Host.Settings) (native : Bool)
    (start : CodeUnit) (hb : build catalog settings native = .ok start) (before after : List Op)
    (hc : Op.close ∉ before ++ after) (i : Nat) (b : Builder)
    (hi : (start.perform before).builders[i]? = some b) (hst : b.state = .building)
    (hbad : ¬ b.Healthy) :
    (b.fault ≠ none → ∃ f, (start.perform (before ++ after)).Halted f ∧
      (start.perform (before ++ after)).module = (start.perform before).module) ∧
    (∀ between o rest, after = between ++ o :: rest → o.Uses i →
      ∃ f, (start.perform (before ++ after)).Halted f ∧
        (start.perform (before ++ after)).module = (start.perform (before ++ between)).module) ∧
    (∀ name sig, ∃ f, (start.perform (before ++ after)).create name sig =
      (start.perform (before ++ after), .error f)) ∧
    (start.perform (before ++ after)).Missing b.id := by
  have hw : ∀ ops, (start.perform ops).Watched := watched_perform (watched_build hb)
  have hs := settled_perform (settled_build hb) before
  have ht : (start.perform before).Troubled i := ⟨b, hi, hbad, .inl hst⟩
  have hca : Op.close ∉ after := mt (List.mem_append_right _) hc
  refine ⟨fun hf => ?_, ?_, fun name sig => ?_, ?_⟩
  · obtain ⟨f, hf⟩ := Option.ne_none_iff_exists'.mp ((hw before i b hi hst).2 hf)
    obtain ⟨h1, h2⟩ := fault_perform hf hca
    rw [perform_append]
    exact ⟨f, halted_of_fault h1, h2⟩
  · rintro between o rest rfl huse
    have htb := troubled_perform ht (hw before) between
    rw [← perform_append] at htb
    obtain ⟨f, hf⟩ := Option.ne_none_iff_exists'.mp (htb.used (hw _) huse)
    have hcr : Op.close ∉ rest := fun h =>
      hca (List.mem_append_right _ (List.mem_cons_of_mem _ h))
    obtain ⟨h1, h2⟩ := fault_perform hf hcr
    rw [← List.append_assoc, perform_append, perform_cons]
    exact ⟨f, halted_of_fault h1, h2.trans (module_of_uses huse)⟩
  · rw [perform_append]
    refine (troubled_perform ht (hw before) after).create ?_ name sig
    rw [← perform_append]
    exact attended_perform (attended_build hb) hc
  · have hm := missing_of_building hs hi hst
    rw [perform_append]
    exact hm.perform hs ⟨hm.1, i, b, hi, rfl, .inr hbad⟩ after

end

attribute [local instance] Host.Platform.linuxX64

/-- a body waits, and the draft of the next builder is given a value it does not have -/
def brokenDraft : List Op :=
  [.create "good" ⟨[.i64], [.i64]⟩, .finish 0 [0], .create "bad" ⟨[.i64], [.i64]⟩,
    .work 1 (.direct (.binary .iadd 0 99))]

/-- the body that waits is compiled all the same; the unit stops when the builder is used -/
theorem fault_stops_brokenDraft : ∃ b, (fresh.perform brokenDraft).builders[1]? = some b ∧
    b.state = .building ∧ ¬ b.Healthy ∧
    (fresh.perform brokenDraft).module.codeSize = 0 ∧
    (fresh.perform (brokenDraft ++ [.finalize 0])).module.codeSize = 4096 ∧
    ∃ f, (fresh.perform (brokenDraft ++ [.finalize 0, .work 1 .check])).Halted f := by
  obtain ⟨b, hb⟩ : ∃ b, (fresh.perform brokenDraft).builders[1]? = some b :=
    Option.isSome_iff_exists.mp (by decide +kernel)
  have hst : (fresh.perform brokenDraft).builders[1]?.map Builder.state = some .building := by
    decide +kernel
  have hdf : ((fresh.perform brokenDraft).builders[1]?.bind fun b => b.draft.fault).isSome = true := by
    decide +kernel
  rw [hb] at hst hdf
  have hst : b.state = .building := Option.some.inj hst
  have hbad : ¬ b.Healthy := fun h => by
    rw [show (some b).bind (fun b => b.draft.fault) = none from h.draft] at hdf
    cases hdf
  obtain ⟨-, hused, -⟩ := fault_stops none {} true fresh build_fresh brokenDraft
    [.finalize 0, .work 1 .check] (by simp [brokenDraft]) 1 b hb hst hbad
  obtain ⟨f, hf, -⟩ := hused [.finalize 0] (.work 1 .check) [] rfl (.inl ⟨.check, rfl, rfl⟩)
  exact ⟨b, hb, hst, hbad, by decide +kernel, by decide +kernel, f, hf⟩

end CodeUnit
end TreeJit.Emit
