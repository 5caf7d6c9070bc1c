import Mathlib.Logic.Relation
import TreeJit.Proofs.Compile.Blocks
import TreeJit.Proofs.Tree.Emit

/-!
# The life of a module

A module only grows: functions are declared, each of them is given code once, and the end is
closing (`Module.Step`).  What that keeps is `Module.Sound`: names are distinct and none is that of
an import, and the functions with code are those that were declared and placed.

* `Step.cases`           what a step can do;
* `Sound.steps`          every module is sound;
* `Holds.steps`          code stays where it was placed;
* `world_call`           a function runs in a world in which the built-in names mean their
                         operations.
-/

namespace TreeJit.Host

open SSA

namespace Module

/-! ## declarations -/

theorem lookup_ok {m : Module} {id : Int} {d : Declared} (h : m.lookup id = .ok d) :
    ∃ n : Nat, id = n ∧ m.funcs[n]? = some d := by
  unfold lookup at h
  split at h
  · cases h
  · rename_i hi
    split at h
    · rename_i d' hd
      cases h
      exact ⟨id.toNat, (Int.toNat_of_nonneg (by omega)).symm, hd⟩
    · cases h

theorem lookup_of_get {m : Module} {n : Nat} {d : Declared} (h : m.funcs[n]? = some d) :
    m.lookup n = .ok d := by
  have hn : ¬ ((n : Int) < 0) := by omega
  rw [lookup, if_neg hn, Int.toNat_natCast, h]

theorem declare_ok {m m' : Module} {name : String} {sig : Signature} {id : Nat}
    (h : m.declare name sig = .ok (m', id)) :
    m.closed = false ∧ m.byName? name = none ∧ m.import? name = none ∧
      m' = { m with funcs := m.funcs.push { name, sig } } ∧ id = m.funcs.size := by
  unfold declare at h
  split at h
  · cases h
  · rename_i hc
    split at h
    · cases h
    · split at h
      · cases h
      · split at h
        · cases h
        · rename_i hn
          split at h
          · cases h
          · rename_i hi
            cases h
            exact ⟨by simpa using hc, by simpa using hn, by simpa using hi, rfl, rfl⟩

theorem byName_eq_none {m : Module} {name : String} (h : m.byName? name = none) {i : Nat}
    {d : Declared} (hd : m.funcs[i]? = some d) : d.name ≠ name := by
  intro e
  have hn := Array.find?_eq_none.mp h d (Array.mem_of_getElem? hd)
  simp [e] at hn

theorem declared_before {m : Module} {name : String} {sig : Signature} {i : Nat} {d : Declared}
    (h : (m.funcs.push { name, sig })[i]? = some d) :
    m.funcs[i]? = some d ∨ (i = m.funcs.size ∧ d = { name, sig }) := by
  rw [Array.getElem?_push] at h
  split at h
  · rename_i e
    cases h
    exact .inr ⟨e, rfl⟩
  · exact .inl h

theorem getElem?_place {m : Module} {n : Nat} {d : Declared} {p : Placed} {i : Nat} :
    (m.place n d p).funcs[i]? = if n = i then
      (m.funcs[i]?).map fun d => { d with placed := some p } else m.funcs[i]? := by
  unfold place
  rw [Array.getElem?_modify]

theorem placed_before {m : Module} {n : Nat} {d e : Declared} {p : Placed} {i : Nat}
    (h : (m.place n d p).funcs[i]? = some e) :
    ∃ e', m.funcs[i]? = some e' ∧ e'.name = e.name ∧ (n ≠ i → e' = e) := by
  rw [getElem?_place] at h
  split at h
  · rename_i hn
    obtain ⟨e', he', rfl⟩ := Option.map_eq_some_iff.mp h
    exact ⟨e', he', rfl, fun hne => absurd hn hne⟩
  · exact ⟨e, h, rfl, fun _ => rfl⟩

theorem closed_close (m : Module) : m.close.1.closed = true := by
  unfold Module.close
  split
  · assumption
  · rfl

/-! ## soundness -/

/-- names are distinct and new; the functions with code are declared functions that were placed -/
structure Sound (m : Module) : Prop where
  names : ∀ (i j : Nat) (d e : Declared), m.funcs[i]? = some d → m.funcs[j]? = some e →
    d.name = e.name → i = j
  fresh : ∀ (i : Nat) (d : Declared), m.funcs[i]? = some d → m.import? d.name = none
  defined : ∀ p ∈ m.defined, ∃ (i : Nat) (d : Declared), m.funcs[i]? = some d ∧ d.name = p.1 ∧
    d.placed.isSome = true
  distinct : (m.defined.map Prod.fst).Nodup

theorem sound_empty (s : Settings) (ops : List Operation) :
    Sound { settings := s, imports := ops } where
  names _ _ _ _ h := by simp at h
  fresh _ _ h := by simp at h
  defined := nofun
  distinct := List.nodup_nil

/-! ## worlds -/

theorem float_worldAfter (h : Machinery) (ops : List Operation) (defs : List (String × Func)) :
    (worldAfter h ops defs).float = h.float := by
  cases defs <;> rfl

/-- a name means the function that was defined under it -/
theorem call_worldAfter (h : Machinery) (ops : List Operation) {defs : List (String × Func)}
    (hn : (defs.map Prod.fst).Nodup) {name : String} {f : Func} (hm : (name, f) ∈ defs) :
    ∃ rest, rest ⊆ defs ∧ ∀ sp args m, (worldAfter h ops defs).call name sp args m =
      f.run (worldAfter h ops rest) h.fuel sp args m := by
  induction defs with
  | nil => cases hm
  | cons p defs ih =>
    obtain ⟨hnew, hn⟩ := List.nodup_cons.mp hn
    rcases List.mem_cons.mp hm with rfl | hm
    · refine ⟨defs, List.subset_cons_self _ _, fun sp args m => ?_⟩
      show (if name = name then f.run (worldAfter h ops defs) h.fuel sp args m else _) = _
      rw [if_pos rfl]
    · obtain ⟨rest, hsub, hcall⟩ := ih hn hm
      refine ⟨rest, fun x hx => List.mem_cons_of_mem _ (hsub hx), fun sp args m => ?_⟩
      have hne : name ≠ p.1 := by
        rintro rfl
        exact hnew (List.mem_map.mpr ⟨(p.1, f), hm, rfl⟩)
      show (if name = p.1 then _ else (worldAfter h ops defs).call name sp args m) = _
      rw [if_neg hne, hcall]

end Module

variable [Platform]

def HoldBuiltins (ops : List Operation) : Prop :=
  ∀ b : Builtin, (ops.find? fun o => o.name == b.name) =
    some ⟨b.name, b.sig, hostConv, .native (.builtin b)⟩

namespace Module

/-- built-in names mean their operations unless a function has taken the name -/
theorem natives_worldAfter (h : Machinery) {ops : List Operation} (hb : HoldBuiltins ops)
    {defs : List (String × Func)} (hd : ∀ b : Builtin, b.name ∉ defs.map Prod.fst) :
    Natives (worldAfter h ops defs) := by
  induction defs with
  | nil =>
    intro b sp x y m
    unfold worldAfter nativeWorld
    simp only [hb b]
    rfl
  | cons p defs ih =>
    intro b sp x y m
    have hne : b.name ≠ p.1 := fun e => hd b (by rw [e]; exact List.mem_cons_self)
    have hrest := ih (fun b hm => hd b (List.mem_cons_of_mem _ hm)) b sp x y m
    rw [float_worldAfter] at hrest
    show (if b.name = p.1 then _ else (worldAfter h ops defs).call b.name sp [x, y] m) = _
    rw [if_neg hne, hrest, float_worldAfter]

/-- **A function of a module runs in a world in which the built-in names mean their operations.** -/
theorem world_call (h : Machinery) {m : Module} (hs : m.Sound) (hb : HoldBuiltins m.imports)
    {name : String} {f : Func} (hm : (name, f) ∈ m.defined) :
    ∃ w, Natives w ∧ w.float = h.float ∧ ∀ sp args mem, (m.world h).call name sp args mem =
      f.run w h.fuel sp args mem := by
  obtain ⟨rest, hsub, hcall⟩ := call_worldAfter h m.imports hs.distinct hm
  refine ⟨worldAfter h m.imports rest, natives_worldAfter h hb ?_, float_worldAfter .., hcall⟩
  intro b hmem
  obtain ⟨p, hp, hname⟩ := List.mem_map.mp hmem
  obtain ⟨i, d, hd, hdn, -⟩ := hs.defined p (hsub hp)
  have hfresh := hs.fresh i d hd
  rw [hdn, hname, import?, hb b] at hfresh
  cases hfresh

/-! ## steps -/

inductive Step : Module → Module → Prop where
  | declare {m m' : Module} {name : String} {sig : Signature} {id : Nat}
      (h : m.declare name sig = .ok (m', id)) : Step m m'
  | define (m : Module) (id : Int) (fn : Func) : Step m (m.define id fn).1
  | close (m : Module) : Step m m.close.1

/-- a body that compiles and links, with the code -/
structure Links (m : Module) (fn : Func) (prog : Program) (code : List UInt8) : Prop where
  compiled : Compile.compile Platform.machine fn m.settings.options = .ok prog
  linked : prog.link m.resolve = .ok code

/-- a body that was compiled for a declaration, and the place that its code was given -/
structure Accepts (m : Module) (id : Nat) (d : Declared) (p : Placed) : Prop where
  opened : m.closed = false
  declared : m.funcs[id]? = some d
  empty : d.placed = none
  sig : p.fn.sig = d.sig
  links : ∃ prog code, m.Links p.fn prog code ∧ code.length = p.size
  mapped : Platform.map m.regions (pageBytes p.size) = some p.address

section
variable {m : Module} {n : Nat} {d : Declared} {p : Placed}

theorem Accepts.passing (h : m.Accepts n d p) :
    ∃ locs, SSA.passing (Compile.paramLimits Platform.machine) p.fn.sig.params = .ok locs := by
  obtain ⟨prog, code, hl, -⟩ := h.links
  exact Compile.passing_of_compile hl.compiled

theorem Accepts.short (h : m.Accepts n d p) : p.size < 2 ^ 63 := by
  have hlow := Platform.map_lower h.mapped
  have hle := le_pageBytes p.size
  omega

theorem Accepts.getElem (h : m.Accepts n d p) :
    (m.place n d p).funcs[n]? = some { d with placed := some p } := by
  rw [getElem?_place, if_pos rfl, h.declared]
  rfl

theorem Accepts.lookup (h : m.Accepts n d p) :
    (m.place n d p).lookup n = .ok { d with placed := some p } := lookup_of_get h.getElem

theorem Accepts.address (h : m.Accepts n d p) : (m.place n d p).address n = .ok p.address := by
  have ho : ¬ (m.place n d p).closed = true := by
    rw [show (m.place n d p).closed = m.closed from rfl, h.opened]
    exact nofun
  rw [Module.address, if_neg ho, h.lookup]

theorem Accepts.signature (h : m.Accepts n d p) : (m.place n d p).signature n = .ok d.sig := by
  rw [Module.signature, h.lookup]
  rfl

end

theorem prepare_ok {m : Module} {d : Declared} {fn : Func} {p : Placed} {refs : Nat}
    (h : m.prepare d fn = .ok (p, refs)) : p.fn = fn ∧
      (∃ prog code, m.Links fn prog code ∧ code.length = p.size) ∧
      Platform.map m.regions (pageBytes p.size) = some p.address := by
  unfold prepare at h
  split at h
  · cases h
  · rename_i prog hc
    split at h
    · cases h
    · rename_i hl
      split at h
      · cases h
      · split at h
        · cases h
        · rename_i hmap
          cases h
          exact ⟨rfl, ⟨prog, _, ⟨hc, hl⟩, rfl⟩, hmap⟩

/-- defining changes nothing or places a body -/
theorem define_cases (m : Module) (id : Int) (fn : Func) :
    ((m.define id fn).1 = m ∧ ∃ f, (m.define id fn).2.2 = .error f) ∨
      ∃ (n : Nat) (d : Declared) (p : Placed), id = n ∧ p.fn = fn ∧ m.Accepts n d p ∧
        (m.define id fn).1 = m.place n d p ∧ (m.define id fn).2.2 = .ok () := by
  unfold define
  split
  · exact .inl ⟨rfl, _, rfl⟩
  · rename_i hc
    split
    · exact .inl ⟨rfl, _, rfl⟩
    · rename_i d hl
      split
      · exact .inl ⟨rfl, _, rfl⟩
      · rename_i hp
        split
        · exact .inl ⟨rfl, _, rfl⟩
        · rename_i hs
          simp only
          split
          · exact .inl ⟨rfl, _, rfl⟩
          · rename_i p refs hprep
            obtain ⟨rfl, hlinks, hmap⟩ := prepare_ok hprep
            obtain ⟨n, rfl, hn⟩ := lookup_ok hl
            exact .inr ⟨n, d, p, rfl, rfl, ⟨by simpa using hc, hn, by simpa using hp,
              Classical.not_not.mp hs, hlinks, hmap⟩, rfl, rfl⟩

/-- **What a step can do.** -/
theorem Step.cases {m m' : Module} (h : Step m m') :
    m' = m ∨
      (∃ name sig, m.closed = false ∧ m.byName? name = none ∧ m.import? name = none ∧
        m' = { m with funcs := m.funcs.push { name, sig } }) ∨
      (∃ n d p, m.Accepts n d p ∧ m' = m.place n d p) ∨
      m' = { m with closed := true, regions := [] } := by
  cases h with
  | declare h =>
    obtain ⟨ho, hn, hi, rfl, -⟩ := declare_ok h
    exact .inr (.inl ⟨_, _, ho, hn, hi, rfl⟩)
  | define id fn =>
    rcases m.define_cases id fn with ⟨e, -⟩ | ⟨n, d, p, -, -, ha, e, -⟩
    · exact .inl e
    · exact .inr (.inr (.inl ⟨n, d, p, ha, e⟩))
  | close =>
    unfold Module.close
    split
    · exact .inl rfl
    · exact .inr (.inr (.inr rfl))

abbrev Steps : Module → Module → Prop := Relation.ReflTransGen Step

theorem imports_step {m m' : Module} (h : Step m m') : m'.imports = m.imports := by
  rcases h.cases with rfl | ⟨_, _, -, -, -, rfl⟩ | ⟨_, _, _, -, rfl⟩ | rfl <;> rfl

theorem imports_steps {m m' : Module} (h : Steps m m') : m'.imports = m.imports := by
  induction h with
  | refl => rfl
  | tail _ h ih => exact (imports_step h).trans ih

/-! ## what every module satisfies -/

/-- **Every step keeps a module sound.** -/
theorem Sound.step {m m' : Module} (hs : m.Sound) (h : Step m m') : m'.Sound := by
  rcases h.cases with rfl | ⟨name, sig, -, hn, hi, rfl⟩ | ⟨n, d, p, ha, rfl⟩ | rfl
  · exact hs
  · refine ⟨?_, ?_, ?_, hs.distinct⟩
    · intro i j d e hd he hname
      rcases declared_before hd with hd | ⟨rfl, rfl⟩
      · rcases declared_before he with he | ⟨rfl, rfl⟩
        · exact hs.names i j d e hd he hname
        · exact absurd hname (byName_eq_none hn hd)
      · rcases declared_before he with he | ⟨rfl, rfl⟩
        · exact absurd hname.symm (byName_eq_none hn he)
        · rfl
    · intro i d hd
      rcases declared_before hd with hd | ⟨rfl, rfl⟩
      · exact hs.fresh i d hd
      · exact hi
    · intro p hp
      obtain ⟨i, d, hd, hrest⟩ := hs.defined p hp
      refine ⟨i, d, ?_, hrest⟩
      show (m.funcs.push _)[i]? = some d
      have hlt := (Array.getElem?_eq_some_iff.mp hd).1
      rw [Array.getElem?_push, if_neg (Nat.ne_of_lt hlt), hd]
  · refine ⟨?_, ?_, ?_, ?_⟩
    · intro i j e e' he he' hname
      obtain ⟨f, hf, hfn, -⟩ := placed_before he
      obtain ⟨f', hf', hfn', -⟩ := placed_before he'
      exact hs.names i j f f' hf hf' (hfn.trans (hname.trans hfn'.symm))
    · intro i e he
      obtain ⟨f, hf, hfn, -⟩ := placed_before he
      rw [← hfn]
      exact hs.fresh i f hf
    · intro q hq
      have hq' : q ∈ (d.name, p.fn) :: m.defined := hq
      rcases List.mem_cons.mp hq' with rfl | hq'
      · refine ⟨n, { d with placed := some p }, ?_, rfl, rfl⟩
        rw [getElem?_place, if_pos rfl, ha.declared]
        rfl
      · obtain ⟨i, e, he, hname, hplaced⟩ := hs.defined q hq'
        by_cases hi : n = i
        · subst hi
          obtain rfl := Option.some.inj (ha.declared.symm.trans he)
          rw [ha.empty] at hplaced
          cases hplaced
        · refine ⟨i, e, ?_, hname, hplaced⟩
          rw [getElem?_place, if_neg hi, he]
    · show (d.name :: m.defined.map Prod.fst).Nodup
      refine List.nodup_cons.mpr ⟨?_, hs.distinct⟩
      intro hm
      obtain ⟨q, hq, hqn⟩ := List.mem_map.mp hm
      obtain ⟨i, e, he, hname, hplaced⟩ := hs.defined q hq
      obtain rfl := hs.names i n e d he ha.declared (hname.trans hqn)
      obtain rfl := Option.some.inj (ha.declared.symm.trans he)
      rw [ha.empty] at hplaced
      cases hplaced
  · exact ⟨hs.names, hs.fresh, hs.defined, hs.distinct⟩

theorem Sound.steps {m m' : Module} (hs : m.Sound) (h : Steps m m') : m'.Sound := by
  induction h with
  | refl => exact hs
  | tail _ h ih => exact ih.step h

/-! ## code in its place -/

structure Holds (m : Module) (id : Nat) (name : String) (f : Func) : Prop where
  placed : ∃ (d : Declared) (p : Placed), m.funcs[id]? = some d ∧ d.placed = some p ∧
    d.name = name ∧ d.sig = f.sig ∧ p.address ≠ 0
  defined : (name, f) ∈ m.defined
  passing : ∃ locs,
    SSA.passing (Compile.paramLimits Platform.machine) f.sig.params = .ok locs

theorem Accepts.holds {m : Module} {n : Nat} {d : Declared} {p : Placed}
    (h : m.Accepts n d p) : (m.place n d p).Holds n d.name p.fn where
  placed := ⟨_, _, h.getElem, rfl, rfl, h.sig.symm, Platform.map_ne_zero h.mapped⟩
  defined := List.mem_cons_self
  passing := h.passing

/-- **Code stays where it was placed.** -/
theorem Holds.step {m m' : Module} {id : Nat} {name : String} {f : Func} (hh : m.Holds id name f)
    (h : Step m m') : m'.Holds id name f := by
  obtain ⟨⟨e, p, he, hp, hname, hsig, ha⟩, hd, hpass⟩ := hh
  rcases h.cases with rfl | ⟨name', sig, -, hn, hi, rfl⟩ | ⟨n, d, q, hacc, rfl⟩ | rfl
  · exact ⟨⟨e, p, he, hp, hname, hsig, ha⟩, hd, hpass⟩
  · refine ⟨⟨e, p, ?_, hp, hname, hsig, ha⟩, hd, hpass⟩
    have hlt := (Array.getElem?_eq_some_iff.mp he).1
    show (m.funcs.push _)[id]? = some e
    rw [Array.getElem?_push, if_neg (Nat.ne_of_lt hlt), he]
  · refine ⟨⟨e, p, ?_, hp, hname, hsig, ha⟩, List.mem_cons_of_mem _ hd, hpass⟩
    have hne : n ≠ id := by
      rintro rfl
      obtain rfl := Option.some.inj (hacc.declared.symm.trans he)
      rw [hacc.empty] at hp
      cases hp
    rw [getElem?_place, if_neg hne, he]
  · exact ⟨⟨e, p, he, hp, hname, hsig, ha⟩, hd, hpass⟩

theorem Holds.steps {m m' : Module} {id : Nat} {name : String} {f : Func} (hh : m.Holds id name f)
    (h : Steps m m') : m'.Holds id name f := by
  induction h with
  | refl => exact hh
  | tail _ h ih => exact ih.step h

end Module

end TreeJit.Host
