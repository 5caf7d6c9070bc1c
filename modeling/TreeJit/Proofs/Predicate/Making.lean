import TreeJit.Proofs.Emit.Idle
import TreeJit.Proofs.Predicate.Compile
import TreeJit.Proofs.Predicate.Ready

/-!
# Making a function in a unit

An idle unit declares a free name, takes the code of a body that can be completed, and compiles it
(`makeFunction_eq`).  What then becomes of the unit is decided by its module: the function is placed
and the unit is idle again (`makeFunction_placed`), or there are no registers for its parameters and
the fault stops the unit (`makeFunction_refused`).

* `drawn`      the function that is compiled for a body;
* `MadeIn`     the unit after a function was made in it.
-/

namespace TreeJit

open SSA Emit

namespace Predicate
variable {u : CodeUnit} {name : String} {sig : Signature}
  {body : Scope → Builder → Builder × Option (List Int)}

/-! ## writing a function -/

def scopeOf (u : CodeUnit) (name : String) (sig : Signature) : Scope :=
  ⟨u.catalog, { u.module with funcs := u.module.funcs.push { name, sig } }, u.native⟩

/-- the unit with a declared function whose body waits in front -/
def waitingFor (u : CodeUnit) (name : String) (sig : Signature) (fn : Func) (builders : Array Builder)
    (journal : List Event) : CodeUnit :=
  { u with
    module := { u.module with funcs := u.module.funcs.push { name, sig } }
    builders, pending := some ((u.module.funcs.size, fn) :: u.waiting), journal }

theorem written_eq (hu : u.Idle) (hn : u.module.Free name) (hs : sig.isValid = true) {f : Func}
    (hb : Completes (scopeOf u name sig) u.module.funcs.size name sig body f) :
    ∃ (u1 u2 : CodeUnit) (b b' : Builder) (results : List Int) (builders : Array Builder)
      (journal : List Event), u.create name sig = (u1, .ok u.builders.size) ∧
      u1.update u.builders.size body = (u2, some (some results)) ∧
      u2.builders[u.builders.size]? = some b ∧ b.id = u.module.funcs.size ∧
      b.finalize results = (b', .ok f) ∧
      u2.finish u.builders.size results = (waitingFor u name sig f builders journal, .done ()) := by
  obtain ⟨b, results, b', hbody, hid, hbf, hfin, hbf'⟩ := hb.written
  have hfault := hu.fault
  have hactive := hu.active
  have hcreate : u.create name sig = ({ u with
      module := (scopeOf u name sig).module
      builders := u.builders.push (.new u.module.funcs.size name sig)
      active := some u.builders.size }, .ok u.builders.size) := by
    simp only [CodeUnit.create, hfault, hactive, Option.bind_none,
      (Signature.check_eq_ok_iff sig).mpr hs, hn.declare hu.opened hs]
    rfl
  let u1 : CodeUnit := { u with
    module := (scopeOf u name sig).module
    builders := u.builders.push (.new u.module.funcs.size name sig)
    active := some u.builders.size }
  have hnew : u1.builders[u.builders.size]? = some (.new u.module.funcs.size name sig) :=
    Array.getElem?_push_size
  have hpoison : ∀ c : Builder, c.fault = none → c.poison? = none := by
    intro c hc
    simp only [Builder.poison?, hc]
  -- the builder goes back into the unit without a fault
  obtain ⟨j, habsorb⟩ := CodeUnit.absorb_eq u1 u.builders.size b
  let u2 : CodeUnit := { u1 with builders := u1.builders.setIfInBounds u.builders.size b, journal := j }
  have habsorb : u1.absorb u.builders.size b = u2 := by
    rw [habsorb, hpoison b hbf, Option.or_none]
  have hupdate : u1.update u.builders.size body = (u2, some (some results)) := by
    have hbody' : body u1.scope (.new u.module.funcs.size name sig) = (b, some results) := hbody
    simp only [CodeUnit.update, hnew, hbody', habsorb]
  have hb2 : u2.builders[u.builders.size]? = some b := by
    rw [← habsorb]
    exact builders_absorb u1 b (Array.getElem?_eq_some_iff.mp hnew).1
  rcases CodeUnit.finish_cases hb2 results with
    ⟨_, f', _, e, -⟩ | ⟨b1, f1, j1, e, ⟨hp, -⟩ | ⟨-, hfinish⟩⟩
  · rw [hfin] at e
    cases e
  · exact absurd hp hu.pending
  rw [hfin] at e
  cases e
  have hrel : u2.released u.builders.size b = u.active := by
    rw [hactive]
    exact if_pos ⟨(Builder.ready_of_finalize hfin).1, rfl⟩
  refine ⟨u1, u2, b, b', results, u2.builders.setIfInBounds u.builders.size b', j1, hcreate, hupdate,
    hb2, hid, hfin, hfinish.trans ?_⟩
  simp only [CodeUnit.queue, CodeUnit.retire, hrel, hid, hpoison b' hbf', Option.or_none]
  rfl

/-- the function that is compiled for a body, if the body gives one -/
def drawn (u : CodeUnit) (name : String) (sig : Signature)
    (body : Scope → Builder → Builder × Option (List Int)) : Option Func :=
  match u.create name sig with
  | (_, .error _) => none
  | (u, .ok i) =>
    match u.update i body with
    | (u, some (some results)) => (u.builders[i]?).bind fun b => (b.finalize results).2.toOption
    | _ => none

theorem drawn_eq (hu : u.Idle) (hn : u.module.Free name) (hs : sig.isValid = true) {f : Func}
    (hb : Completes (scopeOf u name sig) u.module.funcs.size name sig body f) :
    drawn u name sig body = some f := by
  obtain ⟨u1, u2, b, b', results, -, -, hcreate, hupdate, hb2, -, hfin, -⟩ := written_eq hu hn hs hb
  simp only [drawn, hcreate, hupdate, hb2, Option.bind_some, hfin]
  rfl

theorem awaits_of_completes (hu : u.Idle) {f : Func} {scope : Scope} {id : Nat}
    (hb : Completes scope id name sig body f) :
    (scopeOf u name sig).module.Awaits u.module.funcs.size { name, sig } f where
  opened := hu.opened
  declared := Array.getElem?_push_size
  empty := rfl
  sig := hb.sig

/-- the unit after a function was made in it and has its code in the place `p` -/
structure MadeIn (u u' : CodeUnit) (name : String) (sig : Signature) (p : Host.Placed) : Prop where
  idle : u'.Idle
  module : u'.module = (scopeOf u name sig).module.place u.module.funcs.size { name, sig } p

theorem passable_of_native {f : Func}
    (hn : ∀ e ∈ f.imports.toList, ∃ g : Host.Builtin, e = ⟨g.name, g.sig⟩)
    (hs : f.sig.Passable Compile.X64.paramLimits Compile.X64.resultLimits) :
    f.Passable Compile.X64.paramLimits Compile.X64.resultLimits := by
  refine ⟨hs, fun s _ n args ext _ he => ?_⟩
  obtain ⟨g, rfl⟩ := hn ext (Array.mem_toList_iff.mpr (Array.mem_of_getElem? he))
  exact passable_builtin g

variable [Host.Platform]

/-! ## compiling it -/

/-- **Making a function is writing its body and compiling it.** -/
theorem makeFunction_eq (hu : u.Idle) (hn : u.module.Free name) (hs : sig.isValid = true) {f : Func}
    (hb : Completes (scopeOf u name sig) u.module.funcs.size name sig body f) :
    ∃ builders journal, makeFunction u name sig body =
      (((waitingFor u name sig f builders journal).finalize u.module.funcs.size).1,
        .ofExcept ((waitingFor u name sig f builders journal).finalize u.module.funcs.size).2) := by
  obtain ⟨u1, u2, b, b', results, builders, journal, hcreate, hupdate, hb2, hid, hfin, hfinish⟩ :=
    written_eq hu hn hs hb
  refine ⟨builders, journal, ?_⟩
  simp only [makeFunction, hcreate, hupdate, define, hb2, hfinish, hid]

/-- **A function with registers for all it passes is made.** -/
theorem makeFunction_placed (hu : u.Idle) (hn : u.module.Free name) (hs : sig.isValid = true) {f : Func}
    (hb : Completes (scopeOf u name sig) u.module.funcs.size name sig body f)
    (hp : (scopeOf u name sig).module.Placeable f)
    (hfit : f.Passable Compile.X64.paramLimits Compile.X64.resultLimits) : ∃ u' p,
      makeFunction u name sig body = (u', .done ⟨u.module.funcs.size, f.name, sig, p.address⟩) ∧
        Host.Platform.map u.module.regions (Host.pageBytes p.size) = some p.address ∧
        p.size < 2 ^ 31 ∧ MadeIn u u' name sig p := by
  obtain ⟨builders, journal, e⟩ := makeFunction_eq hu hn hs hb
  rcases hp.prepare_cases { name, sig } with ⟨-, p, refs, hprep, hsize⟩ | hno
  swap
  · exact absurd hfit hno
  have hfront := CodeUnit.finalize_front (u := waitingFor u name sig f builders journal) hu.fault rfl
    (awaits_of_completes hu hb)
  obtain ⟨rest, journal', efin⟩ := hfront.2 p refs hprep
  rw [e, efin]
  exact ⟨_, p, rfl, (Host.Module.prepare_ok hprep).2.2, hsize,
    ⟨hu.opened, nofun, hu.fault, hu.active⟩, rfl⟩

/-- **A function without registers for its parameters stops the unit.** -/
theorem makeFunction_refused (hu : u.Idle) (hn : u.module.Free name) (hs : sig.isValid = true)
    (hm : Host.Platform.machine = .x64) {f : Func}
    (hb : Completes (scopeOf u name sig) u.module.funcs.size name sig body f) {g : SSA.Fault}
    (hg : passing Compile.X64.paramLimits sig.params = .error g) : ∃ u' h,
      makeFunction u name sig body = (u', .failed (.host h)) ∧ u'.fault = some (.host h) ∧
        h.ssa? = some g := by
  obtain ⟨builders, journal, e⟩ := makeFunction_eq hu hn hs hb
  have hprep : (scopeOf u name sig).module.prepare { name, sig } f = _ :=
    Host.Module.prepare_of_params hm (by rw [hb.sig]; exact hg)
  have hfront := CodeUnit.finalize_front (u := waitingFor u name sig f builders journal) hu.fault rfl
    (awaits_of_completes hu hb)
  obtain ⟨u', efin, hf'⟩ := hfront.1 _ hprep
  rw [e, efin]
  exact ⟨u', _, rfl, hf', rfl⟩

/-! ## built-in operations -/

theorem offers_scopeOf (hu : u.Sound) (ho : u.module.closed = false) (name : String) (sig : Signature) :
    (scopeOf u name sig).Offers := by
  refine fun _ => ⟨hu.catalog, fun g => ?_⟩
  have hc : ¬ ((scopeOf u name sig).module.closed = true) := by
    rw [show (scopeOf u name sig).module.closed = u.module.closed from rfl, ho]
    exact nofun
  rw [Host.Module.symbol?, if_neg hc]
  exact resolve_builtin (m := (scopeOf u name sig).module) hu.imports g

theorem placeable_of_completes (hu : u.Sound) {f : Func} {scope : Scope} {id : Nat}
    (hb : Completes scope id name sig body f) (hshort : u.module.Short f)
    (hm : Host.Platform.machine = .x64) (hroom : Host.HasRoom 1 u.module.regions) :
    (scopeOf u name sig).module.Placeable f where
  wellFormed := hb.wellFormed
  named := hb.named
  served e he := by
    obtain ⟨g, rfl⟩ := hb.native e he
    exact resolve_builtin (m := (scopeOf u name sig).module) hu.imports g
  short := hshort
  machine := hm
  room := hroom

end Predicate
end TreeJit
