import TreeJit.Proofs.Emit.Session
import TreeJit.Proofs.Host.Placing

/-!
# Idle units

An open unit takes bodies (`Reachable.pending`).  If it has no fault and no builder is at work in it,
the body that came last is what its module prepares next, and the module decides what becomes of the
unit (`finalize_front`).  The built-in operations have addresses and registers.
-/

namespace TreeJit.Emit

open SSA

/-! ## built-in operations -/

theorem passable_builtin (g : Host.Builtin) :
    g.sig.Passable Compile.X64.paramLimits Compile.X64.resultLimits := by
  cases g with
  | float =>
    exact ⟨(by decide : RegLimits.Admits _ [.f64, .f64]), (by decide : RegLimits.Admits _ [.f64])⟩
  | compare =>
    exact ⟨(by decide : RegLimits.Admits _ [.f64, .f64]), (by decide : RegLimits.Admits _ [.i8])⟩
  | intAdd | intSub | intMul =>
    exact ⟨(by decide : RegLimits.Admits _ [.i64, .i64]), (by decide : RegLimits.Admits _ [.i64])⟩

theorem resolve_builtin [Host.Platform] {m : Host.Module} (h : Host.HoldBuiltins m.imports) (g : Host.Builtin) :
    m.resolve g.name ≠ none := by
  have hi : m.import? g.name = some ⟨g.name, g.sig, Host.hostConv, .native (.builtin g)⟩ := h g
  rw [Host.Module.resolve, hi]
  exact Option.some_ne_none _

namespace CodeUnit
variable {u : CodeUnit}

/-- an open unit without a fault in which no builder is at work -/
structure Idle (u : CodeUnit) : Prop where
  opened : u.module.closed = false
  pending : u.pending ≠ none
  fault : u.fault = none
  active : u.active = none

variable [Host.Platform]

theorem closed_step {m m' : Host.Module} (h : Host.Module.Step m m') (hc : m.closed = true) :
    m'.closed = true := by
  rcases h.cases with rfl | ⟨_, _, -, -, -, rfl⟩ | ⟨_, _, _, -, rfl⟩ | rfl
  · exact hc
  · exact hc
  · exact hc
  · rfl

theorem pending_step {u' : CodeUnit} (h : Step u u') (hp : u'.pending = none) :
    u.pending = none ∨ u'.module.closed = true := by
  cases h with
  | create _ name sig =>
    refine .inl ?_
    rcases u.create_cases name sig with ⟨e, -⟩ | ⟨m, id, -, -, e⟩ <;> rwa [e] at hp
  | update _ i op =>
    refine .inl ?_
    unfold update at hp
    split at hp
    · exact hp
    · simp only at hp
      obtain ⟨j, e⟩ := absorb_eq u i (op u.scope ‹_›).1
      rwa [e] at hp
  | finish _ i results =>
    refine .inl ?_
    cases hb : u.builders[i]? with
    | none => simpa only [finish, hb] using hp
    | some b =>
      rcases finish_cases hb results with ⟨_, _, _, -, e⟩ | ⟨_, _, _, -, ⟨hno, -⟩ | ⟨-, e⟩⟩
      · rwa [e] at hp
      · exact hno
      · rw [e] at hp
        cases hp
  | finalize _ id =>
    rcases u.finalize_cases id with ⟨_, -, e⟩ | ⟨-, -, e⟩ | ⟨_, _, _, -, -, -, ⟨_, e⟩ | ⟨_, _, -, -, e⟩⟩
    · exact .inl (by rwa [e] at hp)
    · exact .inl (by rwa [e] at hp)
    · rw [e] at hp
      cases hp
    · rw [e] at hp
      cases hp
  | close => exact .inr u.module.closed_close
  | note | register | direct => exact .inl hp

/-- **An open unit takes bodies.** -/
theorem Reachable.pending (h : u.Reachable) (ho : u.module.closed = false) : u.pending ≠ none := by
  obtain ⟨c, settings, native, start, -, hb, hs⟩ := h
  have hkept : u.pending = none → u.module.closed = true := by
    clear ho
    induction hs with
    | refl =>
      obtain ⟨j, rfl⟩ := build_ok hb
      exact nofun
    | tail _ hstep ih =>
      intro hp
      rcases pending_step hstep hp with hp | hc
      · rcases hstep.module with e | hm
        · rw [e]
          exact ih hp
        · exact closed_step hm (ih hp)
      · exact hc
  intro hp
  rw [hkept hp] at ho
  cases ho

/-! ## compiling the last body -/

/-- **The body that came last is prepared by the module**, and placed or refused. -/
theorem finalize_front (hf : u.fault = none) {n : Nat} {fn : Func} {rest : List (Nat × Func)}
    (hp : u.pending = some ((n, fn) :: rest)) {d : Host.Declared} (ha : u.module.Awaits n d fn) :
    (∀ f, u.module.prepare d fn = .error f →
      ∃ u', u.finalize n = (u', .error (.host f)) ∧ u'.fault = some (.host f)) ∧
    ∀ p refs, u.module.prepare d fn = .ok (p, refs) → ∃ rest' journal,
      u.finalize n = ({ u with module := u.module.place n d p, pending := some rest', journal },
        .ok { id := n, name := fn.name, sig := d.sig, entry := p.address }) := by
  have hfind : (u.pending.getD []).find? (fun p => ((p.1 : Nat) : Int) = n) = some (n, fn) := by
    rw [hp]
    exact List.find?_cons_of_pos (by simp)
  obtain ⟨es, hdef⟩ := Host.Module.define_of_prepare ha
  refine ⟨fun f hprep => ?_, fun p refs hprep => ?_⟩
  · rw [hprep] at hdef
    unfold finalize
    simp only [hf, hfind, hdef]
    refine ⟨_, rfl, ?_⟩
    simp [poison, note]
  · rw [hprep] at hdef
    obtain ⟨rfl, hlinks, hmap⟩ := Host.Module.prepare_ok hprep
    have hacc : u.module.Accepts n d p := ⟨ha.opened, ha.declared, ha.empty, ha.sig, hlinks, hmap⟩
    unfold finalize
    simp only [hf, hfind, hdef, hacc.address, hacc.signature, note]
    rw [hp]
    exact ⟨_, _, rfl⟩

end CodeUnit

end TreeJit.Emit
