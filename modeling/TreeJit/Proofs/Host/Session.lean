import TreeJit.Host.Linux
import TreeJit.Proofs.Emit.Linking

/-!
# Sessions on a module

A session is any sequence of operations on a module that was built, refused ones included
(`Module.Op`, `Module.perform`).  A function gets its code in one operation, on pages that the system
maps beside those that are there, and its calls are linked to what had an address by then.  So the
calls among the functions of a module never form a circle.

* `Module.Effect`      what one operation can do;
* `Module.Ordered`     what every module keeps about the order and the places of its code;
* `Module.Leads`       the calls among the functions of a module;
* `Module.consistent`  what holds in every session.
-/

namespace TreeJit.Host

open SSA

-- the zero of the sum in `codeSize`
attribute [local instance (2000)] Zero.ofOfNat0

def Declared.pages (d : Declared) : Nat := (d.placed.map fun p => p.region.size).getD 0

namespace Module
variable {m m' : Module}

/-! ## addresses -/

theorem address_of_placed {i : Nat} {d : Declared} {p : Placed} (hd : m.funcs[i]? = some d)
    (hp : d.placed = some p) (hc : m.closed = false) : m.address i = .ok p.address := by
  rw [Module.address, hc, if_neg Bool.false_ne_true, lookup_of_get hd]
  simp only [hp]

theorem address_ok {id : Int} {addr : UInt64} (h : m.address id = .ok addr) :
    ∃ (i : Nat) (d : Declared) (p : Placed), id = i ∧ m.funcs[i]? = some d ∧ d.placed = some p ∧
      p.address = addr := by
  unfold Module.address at h
  split at h
  · cases h
  · split at h
    · cases h
    · rename_i d hl
      obtain ⟨i, rfl, hd⟩ := lookup_ok hl
      split at h
      · rename_i p hp
        cases h
        exact ⟨i, d, p, rfl, hd, hp, rfl⟩
      · cases h

theorem lookup_declare {name : String} {sig : Signature} {n : Nat}
    (h : m.declare name sig = .ok (m', n)) : m'.lookup n = .ok { name, sig } := by
  obtain ⟨-, -, -, rfl, rfl⟩ := declare_ok h
  exact lookup_of_get Array.getElem?_push_size

/-! ## operations -/

inductive Op where
  | declare (name : String) (sig : Signature)
  | define (id : Int) (fn : Func)
  | symbol (name : String)
  | address (id : Int)
  | close

section
variable [Platform] {o : Op}

def act (m : Module) : Op → Module
  | .declare name sig =>
    match m.declare name sig with
    | .ok (m', _) => m'
    | .error _ => m
  | .define id fn => (m.define id fn).1
  | .symbol _ => m
  | .address _ => m
  | .close => m.close.1

def perform (m : Module) (ops : List Op) : Module := ops.foldl act m

@[simp] theorem perform_nil (m : Module) : m.perform [] = m := rfl

@[simp] theorem perform_cons (m : Module) (o : Op) (ops : List Op) :
    m.perform (o :: ops) = (m.act o).perform ops := rfl

@[simp] theorem perform_append (m : Module) (ops ops' : List Op) :
    m.perform (ops ++ ops') = (m.perform ops).perform ops' := List.foldl_append

/-- what an operation makes of a module -/
inductive Effect (m : Module) : Op → Module → Prop where
  | same (o : Op) : Effect m o m
  | declared (name : String) (sig : Signature) (hn : m.byName? name = none)
      (hi : m.import? name = none) :
      Effect m (.declare name sig) { m with funcs := m.funcs.push { name, sig } }
  | placed (n : Nat) (d : Declared) (p : Placed) (ha : m.Accepts n d p)
      (hok : (m.define n p.fn).2.2 = .ok ()) : Effect m (.define n p.fn) (m.place n d p)
  | closed : Effect m .close { m with closed := true, regions := [] }

theorem act_declare {name : String} {sig : Signature} {id : Nat}
    (h : m.declare name sig = .ok (m', id)) : m.act (.declare name sig) = m' := by
  simp only [act, h]

theorem act_declare_error {name : String} {sig : Signature} {f : Fault}
    (h : m.declare name sig = .error f) : m.act (.declare name sig) = m := by
  simp only [act, h]

theorem act_define_error {id : Int} {fn : Func} {f : Fault}
    (h : (m.define id fn).2.2 = .error f) : m.act (.define id fn) = m := by
  rcases m.define_cases id fn with ⟨e, -⟩ | ⟨n, d, p, -, -, -, -, hok⟩
  · exact e
  · rw [hok] at h
    cases h

theorem act_effect (m : Module) (o : Op) : Effect m o (m.act o) := by
  cases o with
  | declare name sig =>
    cases h : m.declare name sig with
    | error f =>
      rw [act_declare_error h]
      exact .same _
    | ok r =>
      obtain ⟨m', id⟩ := r
      obtain ⟨-, hn, hi, e, -⟩ := declare_ok h
      rw [act_declare h, e]
      exact .declared name sig hn hi
  | define id fn =>
    show Effect m _ (m.define id fn).1
    rcases m.define_cases id fn with ⟨e, -⟩ | ⟨n, d, p, rfl, rfl, ha, e, hok⟩
    · rw [e]
      exact .same _
    · rw [e]
      exact .placed n d p ha hok
  | symbol name => exact .same _
  | address id => exact .same _
  | close =>
    show Effect m _ m.close.1
    unfold Module.close
    split
    · exact .same _
    · exact .closed

theorem imports_effect (h : Effect m o m') : m'.imports = m.imports := by
  cases h <;> rfl

theorem imports_perform (m : Module) (ops : List Op) : (m.perform ops).imports = m.imports := by
  induction ops generalizing m with
  | nil => rfl
  | cons o ops ih => exact (ih _).trans (imports_effect (m.act_effect o))

/-! ## declarations stay -/

theorem declared_effect (h : Effect m o m') {i : Nat} {d : Declared} (hd : m.funcs[i]? = some d) :
    ∃ d', m'.funcs[i]? = some d' ∧ d'.name = d.name ∧ d'.sig = d.sig ∧
      ∀ p, d.placed = some p → d'.placed = some p := by
  cases h with
  | same => exact ⟨d, hd, rfl, rfl, fun _ h => h⟩
  | declared name sig hn hi =>
    refine ⟨d, ?_, rfl, rfl, fun _ h => h⟩
    show (m.funcs.push _)[i]? = some d
    have hlt := (Array.getElem?_eq_some_iff.mp hd).1
    rw [Array.getElem?_push, if_neg (Nat.ne_of_lt hlt), hd]
  | placed n e q ha hok =>
    by_cases hi : n = i
    · subst hi
      obtain rfl := Option.some.inj (ha.declared.symm.trans hd)
      refine ⟨_, ha.getElem, rfl, rfl, fun p hp => ?_⟩
      rw [ha.empty] at hp
      cases hp
    · refine ⟨d, ?_, rfl, rfl, fun _ h => h⟩
      rw [getElem?_place, if_neg hi, hd]
  | closed => exact ⟨d, hd, rfl, rfl, fun _ h => h⟩

theorem declared_perform {i : Nat} {d : Declared} (hd : m.funcs[i]? = some d) (ops : List Op) :
    ∃ d', (m.perform ops).funcs[i]? = some d' ∧ d'.name = d.name ∧ d'.sig = d.sig ∧
      ∀ p, d.placed = some p → d'.placed = some p := by
  induction ops generalizing m d with
  | nil => exact ⟨d, hd, rfl, rfl, fun _ h => h⟩
  | cons o ops ih =>
    obtain ⟨d1, hd1, hn1, hs1, hp1⟩ := declared_effect (m.act_effect o) hd
    obtain ⟨d2, hd2, hn2, hs2, hp2⟩ := ih hd1
    exact ⟨d2, hd2, hn2.trans hn1, hs2.trans hs1, fun p hp => hp2 p (hp1 p hp)⟩

theorem code_before (h : Effect m o m') {i : Nat} {d : Declared} {p : Placed}
    (hd : m'.funcs[i]? = some d) (hp : d.placed = some p) :
    m.funcs[i]? = some d ∨ ∃ e, o = .define i p.fn ∧ m.Accepts i e p ∧
      (m.define i p.fn).2.2 = .ok () ∧ e.sig = d.sig := by
  cases h with
  | same => exact .inl hd
  | declared name sig hn hi =>
    rcases declared_before hd with hd | ⟨rfl, rfl⟩
    · exact .inl hd
    · cases hp
  | placed n e q ha hok =>
    rw [getElem?_place] at hd
    split at hd
    · rename_i hi
      subst hi
      rw [ha.declared] at hd
      cases hd
      cases hp
      exact .inr ⟨e, rfl, ha, hok, rfl⟩
    · exact .inl hd
  | closed => exact .inl hd

/-- **Code comes from one operation**, which accepted the body. -/
theorem code_perform {ops : List Op} {i : Nat} {d : Declared} {p : Placed}
    (hd : (m.perform ops).funcs[i]? = some d) (hp : d.placed = some p) :
    m.funcs[i]? = some d ∨ ∃ (before after : List Op) (e : Declared),
      ops = before ++ .define i p.fn :: after ∧ (m.perform before).Accepts i e p ∧
      ((m.perform before).define i p.fn).2.2 = .ok () ∧ e.sig = d.sig := by
  induction ops using List.reverseRecOn with
  | nil => exact .inl hd
  | append_singleton ops o ih =>
    rw [perform_append, perform_cons, perform_nil] at hd
    rcases code_before ((m.perform ops).act_effect o) hd hp with hd | ⟨e, rfl, ha, hok, hsig⟩
    · refine (ih hd).imp_right ?_
      rintro ⟨before, after, e, rfl, hrest⟩
      exact ⟨before, after ++ [o], e, by rw [List.append_assoc, List.cons_append], hrest⟩
    · exact .inr ⟨ops, [], e, rfl, ha, hok, hsig⟩

theorem accepts_of_define {id : Int} {fn : Func} (h : (m.define id fn).2.2 = .ok ()) :
    ∃ (n : Nat) (d : Declared) (p : Placed), id = n ∧ p.fn = fn ∧ m.Accepts n d p ∧
      m.act (.define id fn) = m.place n d p := by
  rcases m.define_cases id fn with ⟨-, f, e⟩ | ⟨n, d, p, hid, hfn, ha, e, -⟩
  · rw [e] at h
    cases h
  · exact ⟨n, d, p, hid, hfn, ha, e⟩

/-- a number with code is never accepted again -/
theorem Accepts.number_ne {n : Nat} {d : Declared} {p : Placed} (h : m.Accepts n d p) {i : Nat}
    {e : Declared} {q : Placed} (he : m.funcs[i]? = some e) (hq : e.placed = some q) : n ≠ i := by
  rintro rfl
  obtain rfl := Option.some.inj (h.declared.symm.trans he)
  rw [h.empty] at hq
  cases hq

/-- every reference of linked code loads the address that its name had -/
theorem Links.serves {fn : Func} {prog : Program} {code : List UInt8} (h : m.Links fn prog code)
    (hsize : code.length < 2 ^ 63) : ∀ r ∈ prog.refs, r.Serves m.resolve prog.code code :=
  Compile.serves_of_compile h.compiled h.linked hsize

/-! ## order and places -/

/-- functions with code in the order of their definitions, and where the code is -/
structure Ordered (m : Module) : Prop where
  sound : m.Sound
  /-- code belongs to a definition -/
  coded : ∀ (i : Nat) d p, m.funcs[i]? = some d → d.placed = some p → (d.name, p.fn) ∈ m.defined
  /-- a body refers to imports and to what was defined before it -/
  linked : ∀ later name fn earlier prog, m.defined = later ++ (name, fn) :: earlier →
    Compile.compile Platform.machine fn m.settings.options = .ok prog → ∀ r ∈ prog.refs,
      m.import? r.name = none → r.name ∈ earlier.map Prod.fst
  mapped : m.closed = false → m.codeSize = (m.funcs.toList.map Declared.pages).sum
  unmapped : m.closed = true → m.codeSize = 0
  held : m.closed = false → ∀ (i : Nat) d p, m.funcs[i]? = some d → d.placed = some p →
    p.region ∈ m.regions
  aligned : ∀ (i : Nat) d p, m.funcs[i]? = some d → d.placed = some p →
    pageSize ∣ p.address.toNat
  apart : ∀ (i j : Nat) d e p q, m.funcs[i]? = some d → m.funcs[j]? = some e → i ≠ j →
    d.placed = some p → e.placed = some q → p.region.Apart q.region

theorem ordered_empty (s : Settings) (ops : List Operation) :
    Ordered { settings := s, imports := ops } where
  sound := sound_empty s ops
  coded _ _ _ h := by simp at h
  linked later _ _ _ _ h := by simp at h
  mapped _ := rfl
  unmapped _ := rfl
  held _ _ _ _ h := by simp at h
  aligned _ _ _ h := by simp at h
  apart _ _ _ _ _ _ h := by simp at h

theorem sound_act (hm : m.Sound) (o : Op) : (m.act o).Sound := by
  cases o with
  | declare name sig =>
    cases h : m.declare name sig with
    | error f => rwa [act_declare_error h]
    | ok r =>
      obtain ⟨m', id⟩ := r
      rw [act_declare h]
      exact hm.step (.declare h)
  | define id fn => exact hm.step (.define m id fn)
  | symbol name => exact hm
  | address id => exact hm
  | close => exact hm.step (.close m)

theorem pages_place {n : Nat} {d : Declared} {p : Placed} (h : m.Accepts n d p) :
    ((m.place n d p).funcs.toList.map Declared.pages).sum =
      (m.funcs.toList.map Declared.pages).sum + p.region.size := by
  have hget : m.funcs.toList[n]? = some d := by
    rw [Array.getElem?_toList, h.declared]
  obtain ⟨hlt, hd⟩ := List.getElem?_eq_some_iff.mp hget
  have hnone : d.pages = 0 := by
    rw [Declared.pages, h.empty]
    rfl
  show ((m.funcs.modify n _).toList.map Declared.pages).sum = _
  rw [Array.toList_modify, List.modify_eq_take_cons_drop hlt, hd]
  conv_rhs => rw [← List.take_append_drop n m.funcs.toList, ← List.getElem_cons_drop hlt, hd]
  simp only [List.map_append, List.map_cons, List.sum_append_nat, List.sum_cons, hnone]
  show _ + (p.region.size + _) = _
  omega

theorem Ordered.declared (hm : m.Ordered) {name : String} {sig : Signature}
    (hs : Sound { m with funcs := m.funcs.push { name, sig } }) :
    Ordered { m with funcs := m.funcs.push { name, sig } } := by
  -- a declaration with code is an old one
  have hold : ∀ (i : Nat) (d : Declared) p, (m.funcs.push { name, sig })[i]? = some d →
      d.placed = some p → m.funcs[i]? = some d := by
    intro i d p hd hp
    rcases declared_before hd with hd | ⟨rfl, rfl⟩
    · exact hd
    · cases hp
  refine
    { sound := hs, linked := hm.linked, unmapped := hm.unmapped, coded := ?_, mapped := ?_
      held := ?_, aligned := ?_, apart := ?_ }
  · exact fun i d p hd hp => hm.coded i d p (hold i d p hd hp) hp
  · intro hc
    show m.codeSize = ((m.funcs.push _).toList.map Declared.pages).sum
    rw [Array.toList_push, List.map_append, List.sum_append_nat]
    exact hm.mapped hc
  · exact fun hc i d p hd hp => hm.held hc i d p (hold i d p hd hp) hp
  · exact fun i d p hd hp => hm.aligned i d p (hold i d p hd hp) hp
  · exact fun i j d e p q hd he hij hp hq =>
      hm.apart i j d e p q (hold i d p hd hp) (hold j e q he hq) hij hp hq

theorem placed_cases {n : Nat} {d : Declared} {p : Placed} (h : m.Accepts n d p) {i : Nat}
    {e : Declared} {q : Placed} (he : (m.place n d p).funcs[i]? = some e) (hq : e.placed = some q) :
    m.funcs[i]? = some e ∨ (i = n ∧ e.name = d.name ∧ q = p) := by
  rw [getElem?_place] at he
  split at he
  · rename_i hi
    subst hi
    rw [h.declared] at he
    cases he
    cases hq
    exact .inr ⟨rfl, rfl, rfl⟩
  · exact .inl he

theorem Ordered.place (hm : m.Ordered) {n : Nat} {d : Declared} {p : Placed} (ha : m.Accepts n d p)
    (hs : (m.place n d p).Sound) : (m.place n d p).Ordered := by
  have hheld := hm.held ha.opened
  refine
    { sound := hs, coded := ?coded, linked := ?linked, mapped := ?mapped
      unmapped := fun hc => absurd (ha.opened.symm.trans hc) nofun, held := ?held
      aligned := ?aligned, apart := ?apart }
  case coded =>
    intro i e q he hq
    rcases placed_cases ha he hq with he | ⟨-, hname, rfl⟩
    · exact List.mem_cons_of_mem _ (hm.coded i e q he hq)
    · rw [hname]
      exact List.mem_cons_self
  case linked =>
    intro later name g earlier prog hdef hc r hr hi
    cases later with
    | nil =>
      -- the new body: its names had addresses when it was linked
      obtain ⟨hhead, rfl⟩ := List.cons.inj hdef
      obtain ⟨rfl, rfl⟩ := Prod.mk.inj hhead
      obtain ⟨prog', code, hl, hlen⟩ := ha.links
      obtain rfl := Except.ok.inj (hl.compiled.symm.trans hc)
      obtain ⟨addr, haddr, -⟩ := hl.serves (hlen ▸ ha.short) r hr
      rcases (resolve_eq_some_iff hm.sound).mp haddr with ⟨op, hop, -⟩ | ⟨-, k, e, q, he, hname, hq, -⟩
      · exact absurd (hi.symm.trans hop) nofun
      · exact List.mem_map.mpr ⟨_, hm.coded k e q he hq, hname⟩
    | cons x later => exact hm.linked later name g earlier prog (List.cons.inj hdef).2 hc r hr hi
  case mapped =>
    intro hc
    rw [pages_place ha, ← hm.mapped hc]
    show ((m.regions ++ [p.region]).map Region.size).sum = (m.regions.map Region.size).sum + _
    rw [List.map_append, List.sum_append_nat, List.map_singleton, List.sum_cons, List.sum_nil,
      Nat.add_zero]
  case held =>
    intro _ i e q he hq
    show q.region ∈ m.regions ++ [p.region]
    rcases placed_cases ha he hq with he | ⟨-, -, rfl⟩
    · exact List.mem_append_left _ (hheld i e q he hq)
    · exact List.mem_append_right _ List.mem_cons_self
  case aligned =>
    intro i e q he hq
    rcases placed_cases ha he hq with he | ⟨-, -, rfl⟩
    · exact hm.aligned i e q he hq
    · exact Platform.map_aligned ha.mapped
  case apart =>
    -- the system maps beside what is mapped, and old code is there
    have hnew : ∀ (i : Nat) e q, m.funcs[i]? = some e → e.placed = some q →
        p.region.Apart q.region :=
      fun i e q he hq => Platform.map_apart ha.mapped q.region (hheld i e q he hq)
    intro i j e e' q q' he he' hij hq hq'
    rcases placed_cases ha he hq with h1 | ⟨h1, -, rfl⟩ <;>
      rcases placed_cases ha he' hq' with h2 | ⟨h2, -, rfl⟩
    · exact hm.apart i j e e' q q' h1 h2 hij hq hq'
    · exact (hnew i e q h1 hq).symm
    · exact hnew j e' q' h2 hq'
    · exact absurd (h1.trans h2.symm) hij

/-- **Every operation keeps the order and the places.** -/
theorem Ordered.act (hm : m.Ordered) (o : Op) : (m.act o).Ordered := by
  have hs := sound_act hm.sound o
  have he := m.act_effect o
  generalize m.act o = m' at hs he
  cases he with
  | same => exact hm
  | declared name sig => exact hm.declared hs
  | placed n d p ha hok => exact hm.place ha hs
  | closed => exact ⟨hs, hm.coded, hm.linked, nofun, fun _ => rfl, nofun, hm.aligned, hm.apart⟩

theorem Ordered.perform (hm : m.Ordered) (ops : List Op) : (m.perform ops).Ordered := by
  induction ops generalizing m with
  | nil => exact hm
  | cons o ops ih => exact ih (hm.act o)

/-! ## calls among functions -/

/-- the code of the function `i` refers to the function `j` -/
def Leads (m : Module) (i j : Nat) : Prop :=
  ∃ d p prog r e, m.funcs[i]? = some d ∧ d.placed = some p ∧
    Compile.compile Platform.machine p.fn m.settings.options = .ok prog ∧ r ∈ prog.refs ∧
    m.funcs[j]? = some e ∧ e.name = r.name

theorem Leads.later (hm : m.Ordered) {i j : Nat} (h : m.Leads i j) :
    ∃ d e, m.funcs[i]? = some d ∧ m.funcs[j]? = some e ∧
      (m.defined.map Prod.fst).idxOf d.name < (m.defined.map Prod.fst).idxOf e.name := by
  obtain ⟨d, p, prog, r, e, hd, hp, hc, hr, he, hname⟩ := h
  refine ⟨d, e, hd, he, ?_⟩
  obtain ⟨later, earlier, hdef⟩ := List.append_of_mem (hm.coded i d p hd hp)
  have hi : m.import? r.name = none := by
    rw [← hname]
    exact hm.sound.fresh j e he
  have hmem := hm.linked later d.name p.fn earlier prog hdef hc r hr hi
  have hnd := hm.sound.distinct
  rw [hdef, List.map_append, List.map_cons] at hnd ⊢
  rw [← hname] at hmem
  obtain ⟨-, hnd', hdis⟩ := List.nodup_append.mp hnd
  have hd' : d.name ∉ later.map Prod.fst := fun hx => hdis _ hx _ List.mem_cons_self rfl
  have he' : e.name ∉ later.map Prod.fst := fun hx =>
    hdis _ hx _ (List.mem_cons_of_mem _ hmem) rfl
  have hne : d.name ≠ e.name := by
    intro heq
    rw [← heq] at hmem
    exact (List.nodup_cons.mp hnd').1 hmem
  rw [List.idxOf_append_of_notMem hd', List.idxOf_append_of_notMem he', List.idxOf_cons_self,
    List.idxOf_cons_ne _ hne]
  omega

theorem later_of_chain (hm : m.Ordered) {i j : Nat} (h : Relation.TransGen m.Leads i j) :
    ∃ d e, m.funcs[i]? = some d ∧ m.funcs[j]? = some e ∧
      (m.defined.map Prod.fst).idxOf d.name < (m.defined.map Prod.fst).idxOf e.name := by
  induction h with
  | single h => exact h.later hm
  | tail _ h ih =>
    obtain ⟨d, e, hd, he, hlt⟩ := ih
    obtain ⟨e', f, he', hf, hlt'⟩ := h.later hm
    obtain rfl := Option.some.inj (he.symm.trans he')
    exact ⟨d, f, hd, hf, hlt.trans hlt'⟩

/-- **Calls among functions never come back.** -/
theorem Ordered.acyclic (hm : m.Ordered) (i : Nat) : ¬ Relation.TransGen m.Leads i i := by
  intro h
  obtain ⟨d, e, hd, he, hlt⟩ := later_of_chain hm h
  obtain rfl := Option.some.inj (hd.symm.trans he)
  exact absurd hlt (Nat.lt_irrefl _)

/-! ## after closing -/

/-- a closed module takes nothing and gives no addresses -/
structure Shut (m : Module) : Prop where
  declare : ∀ name sig, m.declare name sig = .error .closed
  define : ∀ id fn, (m.define id fn).2.2 = .error .closed
  address : ∀ id, m.address id = .error .closed
  symbol : ∀ name, m.symbol? name = none
  act : ∀ o, m.act o = m

theorem shut_of_closed (hc : m.closed = true) : m.Shut := by
  have hd : ∀ name sig, m.declare name sig = .error .closed := fun name sig => by
    rw [Module.declare, if_pos hc]
  have hf : ∀ id fn, m.define id fn = (m, [], .error .closed) := fun id fn => by
    rw [Module.define, if_pos hc]
  refine ⟨hd, fun id fn => by rw [hf], fun id => ?_, fun name => ?_, fun o => ?_⟩
  · rw [Module.address, if_pos hc]
  · rw [symbol?, if_pos hc]
  · cases o with
    | declare name sig => exact act_declare_error (hd name sig)
    | define id fn => exact act_define_error (f := .closed) (by rw [hf])
    | symbol name => rfl
    | address id => rfl
    | close =>
      show m.close.1 = m
      rw [Module.close, if_pos hc]

theorem perform_closed (hc : m.closed = true) (ops : List Op) : m.perform ops = m := by
  induction ops with
  | nil => rfl
  | cons o ops ih => rw [perform_cons, (shut_of_closed hc).act, ih]

/-! ## one definition for one function -/

/-- a number that has its code is never defined again -/
theorem define_once {i : Nat} {fn fn' : Func} {mid : List Op}
    (h : (m.define i fn).2.2 = .ok ()) :
    ((m.perform (.define i fn :: mid)).define i fn').2.2 ≠ .ok () := by
  intro h'
  obtain ⟨n, d, p, hid, -, ha, e⟩ := accepts_of_define h
  obtain rfl : i = n := by omega
  obtain ⟨n', d', p', hid', -, ha', -⟩ := accepts_of_define h'
  obtain rfl : i = n' := by omega
  obtain ⟨f, hf, -, -, hp⟩ := declared_perform ha.getElem mid
  rw [perform_cons, e] at ha'
  exact ha'.number_ne hf (hp _ rfl) rfl

theorem define_unique {before before' after after' : List Op} {i : Nat} {fn fn' : Func}
    (e : before ++ .define i fn :: after = before' ++ .define i fn' :: after')
    (h : ((m.perform before).define i fn).2.2 = .ok ())
    (h' : ((m.perform before').define i fn').2.2 = .ok ()) : before' = before := by
  rcases List.append_eq_append_iff.mp e with ⟨mid, rfl, hs⟩ | ⟨mid, rfl, hs⟩
  · cases mid with
    | nil => rw [List.append_nil]
    | cons x mid =>
      obtain ⟨rfl, -⟩ := List.cons.inj hs
      rw [perform_append] at h'
      exact absurd h' (define_once h)
  · cases mid with
    | nil => rw [List.append_nil]
    | cons x mid =>
      obtain ⟨rfl, -⟩ := List.cons.inj hs
      rw [perform_append] at h
      exact absurd h (define_once h')

/-! ## sessions -/

theorem build_ok {catalog : Option Catalog} {settings : Settings} {j : List Event}
    (h : build catalog settings = .ok (m, j)) :
    ∃ ops, m = { settings, imports := ops } := by
  unfold build at h
  obtain ⟨-, -, h⟩ := bind_eq_ok.mp h
  obtain ⟨-, -, h⟩ := bind_eq_ok.mp h
  cases h
  exact ⟨_, rfl⟩

/-- **What holds in a session** on the module `start`. -/
structure Consistent (start : Module) (ops : List Op) : Prop where
  imports : (start.perform ops).imports = start.imports
  /-- names are distinct, and none is that of an import -/
  names : ∀ (i j : Nat) d e, (start.perform ops).funcs[i]? = some d →
    (start.perform ops).funcs[j]? = some e → d.name = e.name → i = j
  fresh : ∀ (i : Nat) d, (start.perform ops).funcs[i]? = some d → ∀ op ∈ start.imports,
    op.name ≠ d.name
  /-- a number keeps the name and the signature it was given -/
  numbered : ∀ before after name sig m' n, ops = before ++ .declare name sig :: after →
    (start.perform before).declare name sig = .ok (m', n) →
    (start.perform ops).name n = .ok name ∧ (start.perform ops).signature n = .ok sig
  kept : ∀ before after, ops = before ++ after → ∀ id,
    (∀ name, (start.perform before).name id = .ok name → (start.perform ops).name id = .ok name) ∧
    (∀ sig, (start.perform before).signature id = .ok sig →
      (start.perform ops).signature id = .ok sig)
  /-- code comes from one successful definition, of a body with the declared signature -/
  placed : ∀ (i : Nat) d p, (start.perform ops).funcs[i]? = some d → d.placed = some p →
    ∃ before after, ops = before ++ .define i p.fn :: after ∧ p.fn.sig = d.sig ∧
      ((start.perform before).define i p.fn).2.2 = .ok () ∧
      ((start.perform ops).closed = false → (start.perform ops).address i = .ok p.address) ∧
      (∀ before' after' fn, ops = before' ++ .define i fn :: after' →
        ((start.perform before').define i fn).2.2 = .ok () → before' = before) ∧
      -- the system gave it its place
      Platform.map (start.perform before).regions (pageBytes p.size) = some p.address ∧
      -- every symbol in it had its address by then: an import, or a function with code
      ∃ prog code, (start.perform before).Links p.fn prog code ∧ code.length = p.size ∧
        ∀ r ∈ prog.refs, ∃ addr, r.Loads prog.code code addr ∧
          ((∃ op, (start.perform before).import? r.name = some op ∧ op.entry.address = addr) ∨
            ((start.perform before).import? r.name = none ∧
              (start.perform before).Defines r.name addr))
  /-- a definition that succeeds gives a function without code its body, for good -/
  defined : ∀ before after id fn, ops = before ++ .define id fn :: after →
    ((start.perform before).define id fn).2.2 = .ok () →
    ∃ (i : Nat) (c d : Declared) (p : Placed), id = i ∧
      (start.perform before).funcs[i]? = some c ∧ c.placed = none ∧
      (start.perform ops).funcs[i]? = some d ∧ d.placed = some p ∧ p.fn = fn ∧ fn.sig = d.sig
  address : ∀ before after, ops = before ++ after → ∀ id addr,
    (start.perform before).address id = .ok addr → (start.perform ops).closed = false →
    (start.perform ops).address id = .ok addr
  /-- what is refused changes nothing -/
  refused : ∀ before after, ops = before ++ after →
    (∀ name sig f, (start.perform before).declare name sig = .error f →
      start.perform (before ++ [.declare name sig]) = start.perform before) ∧
    (∀ id fn f, ((start.perform before).define id fn).2.2 = .error f →
      start.perform (before ++ [.define id fn]) = start.perform before)
  acyclic : ∀ i, ¬ Relation.TransGen (start.perform ops).Leads i i
  /-- the size is that of the pages with code, until they are given back -/
  size : (start.perform ops).codeSize = if (start.perform ops).closed then 0
    else ((start.perform ops).funcs.toList.map Declared.pages).sum
  /-- pages are whole and apart -/
  aligned : ∀ (i : Nat) d p, (start.perform ops).funcs[i]? = some d → d.placed = some p →
    pageSize ∣ p.address.toNat
  apart : ∀ (i j : Nat) d e p q, (start.perform ops).funcs[i]? = some d →
    (start.perform ops).funcs[j]? = some e → i ≠ j → d.placed = some p → e.placed = some q →
    p.region.Apart q.region
  /-- closing is the end -/
  closed : ∀ before after, ops = before ++ .close :: after → (start.perform ops).Shut ∧
    start.perform ops = start.perform (before ++ [.close])

theorem lookup_perform {id : Int} {d : Declared} (h : m.lookup id = .ok d) (ops : List Op) :
    ∃ d', (m.perform ops).lookup id = .ok d' ∧ d'.name = d.name ∧ d'.sig = d.sig ∧
      ∀ p, d.placed = some p → d'.placed = some p := by
  obtain ⟨n, rfl, hn⟩ := lookup_ok h
  obtain ⟨d', hd', hrest⟩ := declared_perform hn ops
  exact ⟨d', lookup_of_get hd', hrest⟩

theorem name_perform {id : Int} {name : String} (h : m.name id = .ok name) (ops : List Op) :
    (m.perform ops).name id = .ok name := by
  unfold Module.name at h ⊢
  cases hd : m.lookup id with
  | error f =>
    rw [hd] at h
    cases h
  | ok d =>
    rw [hd] at h
    obtain ⟨d', hd', hn, -⟩ := lookup_perform hd ops
    rw [hd']
    exact (congrArg Except.ok hn).trans h

theorem signature_perform {id : Int} {sig : Signature} (h : m.signature id = .ok sig)
    (ops : List Op) : (m.perform ops).signature id = .ok sig := by
  unfold Module.signature at h ⊢
  cases hd : m.lookup id with
  | error f =>
    rw [hd] at h
    cases h
  | ok d =>
    rw [hd] at h
    obtain ⟨d', hd', -, hs, -⟩ := lookup_perform hd ops
    rw [hd']
    exact (congrArg Except.ok hs).trans h

/-- **Every session is consistent.** -/
theorem consistent (catalog : Option Catalog) (settings : Settings) (start : Module)
    (j : List Event) (hb : build catalog settings = .ok (start, j)) (ops : List Op) :
    Consistent start ops := by
  obtain ⟨imports, rfl⟩ := build_ok hb
  have hord : ∀ ops, Ordered (perform { settings, imports } ops) :=
    (ordered_empty settings imports).perform
  have himp : ∀ ops, (perform { settings, imports } ops).imports = imports := fun ops => imports_perform _ ops
  refine
    { imports := himp ops, names := (hord ops).sound.names, fresh := ?fresh, numbered := ?numbered
      kept := ?kept, placed := ?placed, defined := ?defined, address := ?address
      refused := ?refused, acyclic := (hord ops).acyclic, size := ?size
      aligned := (hord ops).aligned, apart := (hord ops).apart, closed := ?closed }
  case fresh =>
    intro i d hd op hop hname
    have hno := (hord ops).sound.fresh i d hd
    rw [import?, himp ops] at hno
    simpa [hname] using List.find?_eq_none.mp hno op hop
  case numbered =>
    rintro before after name sig m' n rfl h
    have hl := lookup_declare h
    rw [perform_append, perform_cons, act_declare h]
    refine ⟨name_perform ?_ after, signature_perform ?_ after⟩
    · rw [Module.name, hl]
      rfl
    · rw [Module.signature, hl]
      rfl
  case kept =>
    rintro before after rfl id
    rw [perform_append]
    exact ⟨fun _ h => name_perform h after, fun _ h => signature_perform h after⟩
  case placed =>
    intro i d p hd hp
    rcases code_perform hd hp with hd' | ⟨before, after, e, rfl, ha, hok, hsig⟩
    · simp at hd'
    · obtain ⟨prog, code, hl, hsize⟩ := ha.links
      refine ⟨before, after, rfl, ha.sig.trans hsig, hok, address_of_placed hd hp,
        fun before' after' fn he h' => define_unique he hok h', ha.mapped, prog, code, hl, hsize, ?_⟩
      intro r hr
      obtain ⟨addr, haddr, hcode⟩ := hl.serves (hsize ▸ ha.short) r hr
      exact ⟨addr, hcode, (resolve_eq_some_iff (hord before).sound).mp haddr⟩
  case defined =>
    rintro before after id fn rfl h
    obtain ⟨n, d, p, rfl, rfl, ha, e⟩ := accepts_of_define h
    obtain ⟨d', hd', -, hs', hp'⟩ := declared_perform ha.getElem after
    rw [perform_append, perform_cons, e]
    exact ⟨n, d, d', _, rfl, ha.declared, ha.empty, hd', hp' _ rfl, rfl, ha.sig.trans hs'.symm⟩
  case address =>
    rintro before after rfl id addr h hc
    rw [perform_append] at hc ⊢
    obtain ⟨i, d, p, rfl, hd, hp, rfl⟩ := address_ok h
    obtain ⟨d', hd', -, -, hp'⟩ := declared_perform hd after
    exact address_of_placed hd' (hp' p hp) hc
  case refused =>
    rintro before after rfl
    simp only [perform_append, perform_cons, perform_nil]
    exact ⟨fun _ _ _ h => act_declare_error h, fun _ _ _ h => act_define_error h⟩
  case size =>
    split
    · rename_i hc
      exact (hord ops).unmapped hc
    · rename_i hc
      exact (hord ops).mapped (Bool.eq_false_iff.mpr hc)
  case closed =>
    rintro before after rfl
    have hc := closed_close (perform { settings, imports } before)
    simp only [perform_append, perform_cons, perform_nil]
    rw [perform_closed (m := act _ .close) hc]
    exact ⟨shut_of_closed hc, rfl⟩

end

/-! ## a session -/

attribute [local instance] Platform.linuxX64

def bare : Module := { settings := {}, imports := [] }

theorem build_bare : build none {} = .ok (bare, [.moduleBuilt 0 "speed"]) := rfl

def one : Func := ((Draft.new "one" ⟨[], [.i64]⟩).perform
  [.createBlock, .switchTo 0, .iconst .i64 1, .ret [0], .sealAll]).body.fn

def viaOne : Func := ((Draft.new "two" ⟨[], [.i64]⟩).perform
  [.importFn "one" ⟨[], [.i64]⟩, .createBlock, .switchTo 0, .call 0 [], .ret [0], .sealAll]).body.fn

/-- the caller is defined too early, then in time, and then once more -/
def callerFirst : List Op :=
  [.declare "one" ⟨[], [.i64]⟩, .declare "two" ⟨[], [.i64]⟩, .define 1 viaOne, .define 0 one,
    .define 1 viaOne, .define 1 one]

theorem consistent_callerFirst : build none {} = .ok (bare, [.moduleBuilt 0 "speed"]) ∧
    Consistent bare callerFirst ∧ (bare.perform callerFirst).codeSize = 2 * pageSize ∧
    ((bare.perform callerFirst).defined.map Prod.fst) = ["two", "one"] :=
  ⟨build_bare, consistent none {} bare _ build_bare callerFirst, by decide +kernel,
    by decide +kernel⟩

/-- closing gives the pages back and leaves the declarations -/
theorem codeSize_closed :
    let m := bare.perform [.declare "one" ⟨[], [.i64]⟩, .define 0 one, .close]
    (m.funcs.toList.map Declared.pages).sum = pageSize ∧ m.codeSize ≠ pageSize := by
  decide +kernel

end Module
end TreeJit.Host
