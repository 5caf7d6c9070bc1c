import TreeJit.Proofs.Compile.Linked
import TreeJit.Proofs.Emit.Lifecycle

/-!
# What a call is linked to

A call of a native operation takes the signature from the catalog, which grows, and its address when
the function is compiled, from the snapshot in the module or from a function that was defined under
the name.  The snapshot is the beginning of the catalog, so an operation in it means the same to
both.  For an operation that came later the module must not know the name; it does if a function was
defined under it, and then the call is let through and leads to that function.

* `Module.resolve_eq_some_iff`   the two things a name can mean to a module;
* `resolve_perform`              which stay in every session;
* `Tracks.resolve`               the snapshot and the catalog agree;
* `call_linked`                  what becomes of a call.
-/

namespace TreeJit

open SSA

/-! ## names of a module -/

namespace Host

namespace Module
variable {m : Module}

/-- a function with this name has its code at the address -/
def Defines (m : Module) (name : String) (addr : UInt64) : Prop :=
  ∃ (n : Nat) (d : Declared) (p : Placed), m.funcs[n]? = some d ∧ d.name = name ∧
    d.placed = some p ∧ p.address = addr

theorem byName_eq_some (hs : m.Sound) {n : Nat} {d : Declared} (hd : m.funcs[n]? = some d) :
    m.byName? d.name = some d := by
  cases hb : m.byName? d.name with
  | none => exact absurd rfl (byName_eq_none hb hd)
  | some e =>
    have hname : e.name = d.name := by simpa using Array.find?_some hb
    obtain ⟨k, hk⟩ := Array.mem_iff_getElem?.mp (Array.mem_of_find?_eq_some hb)
    obtain rfl := hs.names k n e d hk hd hname
    exact hk.symm.trans hd

/-- **A name means an operation of the snapshot or, without one, a function with code.** -/
theorem resolve_eq_some_iff (hs : m.Sound) {name : String} {addr : UInt64} :
    m.resolve name = some addr ↔ (∃ op, m.import? name = some op ∧ op.entry.address = addr) ∨
      (m.import? name = none ∧ m.Defines name addr) := by
  unfold resolve
  cases hi : m.import? name with
  | some op => simp
  | none =>
    simp only [reduceCtorEq, false_and, exists_false, false_or, true_and]
    constructor
    · intro h
      obtain ⟨d, hd, h⟩ := Option.bind_eq_some_iff.mp h
      obtain ⟨p, hp, rfl⟩ := Option.map_eq_some_iff.mp h
      obtain ⟨n, hn⟩ := Array.mem_iff_getElem?.mp (Array.mem_of_find?_eq_some hd)
      exact ⟨n, d, p, hn, by simpa using Array.find?_some hd, hp, rfl⟩
    · rintro ⟨n, d, p, hn, rfl, hp, rfl⟩
      rw [byName_eq_some hs hn, Option.bind_some, hp, Option.map_some]

theorem symbol_eq_none (hs : m.Sound) {name : String} (hi : m.import? name = none)
    (hd : ∀ addr, ¬ m.Defines name addr) : m.symbol? name = none := by
  unfold symbol?
  split
  · rfl
  · refine Option.eq_none_iff_forall_ne_some.mpr fun addr ha => ?_
    rcases (resolve_eq_some_iff hs).mp ha with ⟨op, ho, -⟩ | ⟨-, h⟩
    · rw [hi] at ho
      cases ho
    · exact hd addr h

theorem resolve_of_symbol {name : String} (h : m.symbol? name ≠ none) :
    ∃ addr, m.resolve name = some addr := by
  refine Option.ne_none_iff_exists'.mp fun hno => h ?_
  rw [symbol?, hno, ite_self]

end Module

theorem Catalog.name_of_resolve {c : Catalog} {name : String} {op : Operation}
    (h : c.resolve name = .ok op) : op.name = name := by
  unfold Catalog.resolve at h
  split at h
  · rename_i o ho
    cases h
    simpa using List.find?_some ho
  · cases h

end Host

/-! ## what a session keeps -/

namespace Emit.CodeUnit
variable {u u' : CodeUnit}

/-- the module took its snapshot of a catalog that has only grown -/
def Tracks (u : CodeUnit) : Prop := u.module.imports <+: u.catalog.ops

/-- **An operation in the snapshot is the one in the catalog.** -/
theorem Tracks.resolve (h : u.Tracks) {name : String} {op : Host.Operation}
    (hi : u.module.import? name = some op) : u.catalog.resolve name = .ok op := by
  obtain ⟨late, e⟩ := h
  unfold Host.Module.import? at hi
  rw [Host.Catalog.resolve, Host.Catalog.find?, ← e, List.find?_append, hi]
  rfl

variable [Host.Platform]

theorem Tracks.step (h : u.Tracks) (hs : Step u u') : u'.Tracks := by
  have hi : u'.module.imports = u.module.imports := by
    rcases hs.module with e | hm
    · rw [e]
    · exact Host.Module.imports_step hm
  unfold Tracks at h ⊢
  rw [hi]
  rcases hs.catalog with e | ⟨op, hadd⟩
  · rwa [e]
  · rw [ops_of_add hadd]
    exact h.trans (List.prefix_append _ _)

theorem tracks_perform (h : u.Tracks) (ops : List Op) : (u.perform ops).Tracks := by
  have hs := steps_perform u ops
  generalize u.perform ops = w at hs
  induction hs with
  | refl => exact h
  | tail _ hs ih => exact ih.step hs

theorem sound_perform (hm : u.module.Sound) (ops : List Op) : (u.perform ops).module.Sound :=
  hm.steps (steps_perform u ops).module

/-- **A name with an address keeps it.** -/
theorem resolve_perform (hs : u.Settled) (hm : u.module.Sound) {name : String} {addr : UInt64}
    (h : u.module.resolve name = some addr) (ops : List Op) :
    (u.perform ops).module.resolve name = some addr := by
  have hi : ∀ name, (u.perform ops).module.import? name = u.module.import? name := fun name => by
    unfold Host.Module.import?
    rw [Host.Module.imports_steps (steps_perform u ops).module]
  rw [Host.Module.resolve_eq_some_iff (sound_perform hm ops), hi]
  refine ((Host.Module.resolve_eq_some_iff hm).mp h).imp_right ?_
  rintro ⟨hno, n, d, p, hd, hname, hp, haddr⟩
  exact ⟨hno, n, d, p, placed_perform hs hd hp ops, hname, hp, haddr⟩

/-- a body that waits under the number of a builder that was at work was handed in by this builder -/
theorem handed_perform (hs : u.Settled) {i : Nat} {b : Builder} (hb : u.builders[i]? = some b)
    (hst : b.state = .building) {ops : List Op} {fn : Func}
    (hw : (b.id, fn) ∈ (u.perform ops).waiting) :
    ∃ c c' results, b.Ages c ∧ c.finalize results = (c', .ok fn) := by
  rcases waiting_perform hw with hw | ⟨before, after, k, results, c, c', -, hc, hid, hfin⟩
  · exact absurd hw ((missing_of_building hs hb hst).1 fn)
  · obtain ⟨b1, hb1, ha⟩ := builder_perform hb before
    obtain rfl := (settled_perform hs before).distinct i k b1 c hb1 hc (ha.id.trans hid.symm)
    obtain rfl := Option.some.inj (hb1.symm.trans hc)
    exact ⟨b1, c', results, ha, hfin⟩

end Emit.CodeUnit

/-! ## calls -/

namespace Emit.Builder
variable {b : Builder} {scope : Scope} {name : String} {args : List Int}

theorem call_holds (hm : b.Made) (hf : (b.call scope name args).1.fault = none) :
    ∃ (op : Host.Operation) (ref : Nat) (vs : List ValueNo) (v : ValueNo),
      scope.catalog.resolve name = .ok op ∧ args = vs.map Int.ofNat ∧
      (b.call scope name args).2 = v ∧ scope.module.symbol? name ≠ none ∧
      (b.call scope name args).1.draft.Holds fun body =>
        body.Sound ∧ body.fn.Calls ⟨.call ref vs, [v]⟩ ⟨op.name, op.sig⟩ := by
  have hh := (grows_call b scope name args).2.healthy hf
  obtain ⟨hb, op, vs, t, d, hop, hsym, -, ha, e, hw, hS, hi, -, -⟩ := call_emits hm.sound hh
  refine ⟨op, b.draft.body.fn.imports.size, vs, b.draft.body.fn.values.size, hop, ha, by rw [e],
    hsym, ?_⟩
  rw [e]
  refine fun hd => ⟨hS hd, hw.calls (hm.sound hb.draft).current ?_⟩
  rw [hi]
  exact Array.getElem?_push_size

theorem call_late (hst : b.state = .building) (hb : b.Healthy) {op : Host.Operation}
    (hop : scope.catalog.resolve name = .ok op) (hsym : scope.module.symbol? name = none) :
    b.call scope name args = ({ b with fault := some (.lateOperation name) }, -1) := by
  have hf := hb.fault
  unfold call attempt
  rw [if_pos hst, hb.sync]
  simp only [hf, hop, hsym, Option.isNone_none, if_true, hb.sync]
  rw [fail, hf]

end Emit.Builder

namespace Emit.CodeUnit

section
variable [Host.Platform] {u : CodeUnit}

/-- compiling the function `n` gives the code `code`, in which the call `s` of `e` leads to `addr` -/
structure Linked (u : CodeUnit) (n : Nat) (s : SSA.Step) (e : Import) (addr : UInt64)
    (fn : Func) (prog : Program) (code : List UInt8) : Prop where
  waits : (n, fn) ∈ u.waiting
  links : u.module.Links fn prog code
  placed : ∃ d address, (u.finalize n).1.module = u.module.place n d ⟨address, code.length, fn⟩
  calls : fn.Calls s e
  /-- the reference that belongs to the call is found by counting the calls in front of it -/
  address : ∀ before after, fn.steps = before ++ s :: after →
    ∃ r, prog.refs[(before.filterMap fn.calledName?).length]? = some r ∧ r.name = e.name ∧
      r.Loads prog.code code addr

/-- a call in the draft of a builder at work is linked to the address of its name, whenever the
function is compiled -/
theorem linked_perform (hs : u.Settled) (hmod : u.module.Sound) {i : Nat} {b : Builder}
    (hb : u.builders[i]? = some b) (hst : b.state = .building) (hm : b.Made) {s : SSA.Step}
    {e : Import}
    (hcall : b.draft.Holds fun body => body.Sound ∧ body.fn.Calls s e) {addr : UInt64}
    (haddr : u.module.resolve e.name = some addr) (ops : List Op) {c : Compiled}
    (hfin : ((u.perform ops).finalize b.id).2 = .ok c) :
    ∃ fn prog code, (u.perform ops).Linked b.id s e addr fn prog code := by
  have hres := resolve_perform hs hmod haddr ops
  rcases (u.perform ops).finalize_cases b.id with
    ⟨f, -, eq⟩ | ⟨-, -, eq⟩ | ⟨n, _, j, -, hn, hw, ⟨f, eq⟩ | ⟨d, ⟨address, size, fn⟩, rfl, ha, eq⟩⟩
  · rw [eq] at hfin
    cases hfin
  · rw [eq] at hfin
    cases hfin
  · rw [eq] at hfin
    cases hfin
  · obtain rfl : b.id = n := by omega
    obtain ⟨prog, code, hl, rfl : code.length = size⟩ := ha.links
    obtain ⟨b1, c', results, hage, hok⟩ := handed_perform hs hb hst hw
    obtain ⟨hwf, hnamed⟩ := (hm.ages hage).wellFormed hok
    have hkept := Body.kept_calls s e
    obtain ⟨body, ⟨-, hcalls⟩, rfl⟩ :=
      Builder.holds_of_finalize hkept (hage.draft.holds hkept hcall) hok
    refine ⟨_, prog, code, hw, hl, ⟨d, address, by rw [eq]⟩, hcalls, fun before after hsteps => ?_⟩
    obtain ⟨r, hr, hname, addr', haddr', hcode⟩ :=
      Compile.linked_call hwf hnamed hl.compiled hl.linked ha.short hsteps hcalls
    rw [hname, hres] at haddr'
    cases haddr'
    exact ⟨r, hr, hname, hcode⟩

theorem tracks_build {catalog : Option Host.Catalog} {settings : Host.Settings} {native : Bool}
    (h : build catalog settings native = .ok u) : u.Tracks := by
  obtain ⟨j, rfl⟩ := build_ok h
  exact List.prefix_rfl

theorem moduleSound_build {catalog : Option Host.Catalog} {settings : Host.Settings} {native : Bool}
    (h : build catalog settings native = .ok u) : u.module.Sound := by
  obtain ⟨j, rfl⟩ := build_ok h
  exact Host.Module.sound_empty ..

/-- **What becomes of a call of a native operation.**  An operation that is in the catalog but came
after the module was built is refused, which stops the unit, unless a function has its code under the
name.  A call that goes through has the signature of the operation that the catalog names, and
whenever the function is compiled it leads to the address of this operation, if the snapshot has the
name; otherwise it leads to the function that had its code under the name. -/
theorem call_linked (catalog : Option Host.Catalog) (settings : Host.Settings) (native : Bool)
    (start : CodeUnit) (hb : build catalog settings native = .ok start) (before : List Op) (i : Nat)
    (b : Builder) (hi : (start.perform before).builders[i]? = some b) (name : String)
    (args : List Int) :
    (∀ op, b.state = .building → b.Healthy →
      (start.perform before).catalog.resolve name = .ok op →
      (start.perform before).module.import? name = none →
      (∀ addr, ¬ (start.perform before).module.Defines name addr) →
      ∃ f, f.hostKind? = some .unknownOperation ∧
        b.call (start.perform before).scope name args = ({ b with fault := some f }, -1) ∧
        (start.perform (before ++ [.work i (.call name args)])).fault ≠ none) ∧
    ((b.call (start.perform before).scope name args).1.fault = none →
      ∃ (op : Host.Operation) (ref : Nat) (vs : List ValueNo) (v : ValueNo) (addr : UInt64),
        (start.perform before).catalog.resolve name = .ok op ∧ args = vs.map Int.ofNat ∧
        (b.call (start.perform before).scope name args).2 = v ∧
        (((start.perform before).module.import? name = some op ∧ op.entry.address = addr) ∨
          ((start.perform before).module.import? name = none ∧
            (start.perform before).module.Defines name addr)) ∧
        ∀ after c, ((start.perform (before ++ .work i (.call name args) :: after)).finalize b.id).2 =
          .ok c → ∃ fn prog code,
            (start.perform (before ++ .work i (.call name args) :: after)).Linked b.id
              ⟨.call ref vs, [v]⟩ ⟨name, op.sig⟩ addr fn prog code) := by
  have hs := settled_perform (settled_build hb) before
  have hmod := sound_perform (moduleSound_build hb) before
  have hmade := made_perform (made_build hb) hi
  obtain ⟨hwork, hfault⟩ := act_work hi (.call name args)
  refine ⟨fun op hst hh hop himp hno => ?_, fun hf => ?_⟩
  · have hcall : b.call (start.perform before).scope name args =
        ({ b with fault := some (.lateOperation name) }, -1) :=
      Builder.call_late hst hh hop (Host.Module.symbol_eq_none hmod himp hno)
    have hpoison : (b.work (start.perform before).scope (.call name args)).poison? =
        some (.lateOperation name) := by
      show (b.call (start.perform before).scope name args).1.poison? = _
      rw [hcall]
      rfl
    refine ⟨_, rfl, hcall, ?_⟩
    rw [perform_append, perform_cons, perform_nil, hfault, or_ne_none, hpoison]
    exact .inr nofun
  · obtain ⟨op, ref, vs, v, hop, ha, hv, hsym, hcall⟩ := Builder.call_holds hmade hf
    obtain ⟨addr, hres⟩ := Host.Module.resolve_of_symbol hsym
    refine ⟨op, ref, vs, v, addr, hop, ha, hv, ?_, fun after c hc => ?_⟩
    · refine ((Host.Module.resolve_eq_some_iff hmod).mp hres).imp_left ?_
      rintro ⟨o, ho, rfl⟩
      have htracks := tracks_perform (tracks_build hb) before
      obtain rfl := Except.ok.inj (hop.symm.trans (htracks.resolve ho))
      exact ⟨ho, rfl⟩
    · -- the session goes on with the unit behind the call
      have he := (start.perform before).act_effect (.work i (.call name args))
      have hg := b.work_grows (start.perform before).scope (.call name args)
      have hst := hg.state.trans (Builder.building_of_attempt hf)
      have hmod' := sound_perform hmod [.work i (.call name args)]
      have hres' := resolve_perform hs hmod hres [.work i (.call name args)]
      rw [perform_append, perform_cons, ← hg.id] at hc ⊢
      obtain rfl := Host.Catalog.name_of_resolve hop
      exact linked_perform (hs.next he) hmod' hwork hst (hmade.ages hg.ages) hcall hres' after hc

end

attribute [local instance] Host.Platform.linuxX64

/-- a new unit over an empty catalog of the caller -/
def sharing : CodeUnit := { fresh with shared := true }

theorem build_sharing : build (some {}) {} true = .ok sharing := rfl

/-- a function takes the name under which an operation is offered later -/
def shadowed : List Op :=
  [.create "g" ⟨[], [.f64]⟩, .work 0 (.direct (.fconst .f64 0x3FF0000000000000)), .finish 0 [0],
    .finalize 0, .register ⟨"g", ⟨[.i64], [.i64]⟩, Host.hostConv, .given 4096⟩,
    .create "h" ⟨[.i64], [.i64]⟩]

/-- the call has the signature of the operation and leads to the function -/
theorem call_linked_shadowed : ∃ b, (sharing.perform shadowed).builders[1]? = some b ∧
    (b.call (sharing.perform shadowed).scope "g" [0]).1.fault = none ∧
    ∃ ref vs v addr fn prog code, addr ≠ 4096 ∧
      (sharing.perform (shadowed ++ .work 1 (.call "g" [0]) :: [.finish 1 [1]])).Linked b.id
        ⟨.call ref vs, [v]⟩ ⟨"g", ⟨[.i64], [.i64]⟩⟩ addr fn prog code := by
  obtain ⟨b, hb⟩ : ∃ b, (sharing.perform shadowed).builders[1]? = some b :=
    Option.isSome_iff_exists.mp (by decide +kernel)
  have hid : (sharing.perform shadowed).builders[1]?.map Builder.id = some 1 := by decide +kernel
  have hcall : ((sharing.perform shadowed).builders[1]?.map fun b =>
      (b.call (sharing.perform shadowed).scope "g" [0]).1.fault.isNone) = some true := by
    decide +kernel
  rw [hb, Option.map_some] at hid hcall
  have hf := Option.isNone_iff_eq_none.mp (Option.some.inj hcall)
  obtain ⟨op, ref, vs, v, addr, hop, -, -, hto, hlinked⟩ :=
    (call_linked (some {}) {} true sharing build_sharing shadowed 1 b hb "g" [0]).2 hf
  -- the operation is the one that was added, and it is not in the snapshot
  have hsig : ((sharing.perform shadowed).catalog.resolve "g").toOption.map Host.Operation.sig =
      some ⟨[.i64], [.i64]⟩ := by decide +kernel
  rw [hop] at hsig
  have hsig : op.sig = ⟨[.i64], [.i64]⟩ := Option.some.inj hsig
  have himp : (sharing.perform shadowed).module.import? "g" = none := by decide +kernel
  have hplaced : ∀ d ∈ (sharing.perform shadowed).module.funcs.toList, ∀ p ∈ d.placed,
      p.address ≠ 4096 := by decide +kernel
  have haddr : addr ≠ 4096 := by
    rcases hto with ⟨h, -⟩ | ⟨-, n, d, p, hd, -, hp, rfl⟩
    · rw [himp] at h
      cases h
    · exact hplaced d (Array.mem_toList_iff.mpr (Array.mem_of_getElem? hd)) p hp
  have hok : ((sharing.perform (shadowed ++ .work 1 (.call "g" [0]) :: [.finish 1 [1]])).finalize
      1).2.isOk = true := by decide +kernel
  obtain ⟨c, hc⟩ : ∃ c, ((sharing.perform (shadowed ++ .work 1 (.call "g" [0]) ::
      [.finish 1 [1]])).finalize b.id).2 = .ok c := by
    rw [Option.some.inj hid]
    exact exists_of_isOk hok
  obtain ⟨fn, prog, code, h⟩ := hlinked [.finish 1 [1]] c hc
  rw [hsig] at h
  exact ⟨b, hb, hf, ref, vs, v, addr, fn, prog, code, haddr, h⟩

end Emit.CodeUnit
end TreeJit
