import TreeJit.Host.Linux
import TreeJit.Proofs.Host.Catalog

/-!
# Groups of operations

A group is added one operation after the other, and stops at the first that is not to be had or is
refused.  Nothing is ever taken back, so a group that stopped has left what stood in front of that
operation (`Outcome`).  Added again, it stops at its first operation, whose name is taken now.

Both kinds of groups, the built-in operations and the symbols of a library, are lists of offers: an
operation, or the reason why there is none (`addOffers`).
-/

namespace TreeJit.Host.Catalog

open SSA

variable {c : Catalog} {f : Fault} {ops : List Operation} {os : List (Except Fault Operation)}

/-! ## offers -/

/-- adds what is offered, as far as it is to be had and taken -/
def addOffers (c : Catalog) : List (Except Fault Operation) → Catalog × Except Fault Unit
  | [] => (c, .ok ())
  | o :: os =>
    match o.bind c.add with
    | .error f => (c, .error f)
    | .ok c' => c'.addOffers os

theorem addOffers_taken {c' : Catalog} {op : Operation} (h : c.add op = .ok c') :
    c.addOffers (.ok op :: os) = c'.addOffers os := by
  simp only [addOffers, Except.bind, h]

theorem addOffers_refused {o : Except Fault Operation} (h : o.bind c.add = .error f) :
    c.addOffers (o :: os) = (c, .error f) := by
  rw [addOffers, h]

theorem addAll_eq (c : Catalog) (ops : List Operation) : c.addAll ops = c.addOffers (ops.map .ok) := by
  induction ops generalizing c with
  | nil => rfl
  | cons op ops ih =>
    rw [addAll, List.map_cons]
    cases h : c.add op with
    | error f => exact (addOffers_refused (o := .ok op) h).symm
    | ok c' => exact (ih c').trans (addOffers_taken h).symm

def LibrarySymbol.offer [Platform] (path : String) (lookup : String → Option Entry)
    (s : LibrarySymbol) : Except Fault Operation :=
  match lookup s.symbol with
  | none => .error (.symbol path s.symbol)
  | some e => .ok ⟨s.name, s.sig, hostConv, e⟩

theorem addSymbols_eq [Platform] (c : Catalog) (path : String) (lookup : String → Option Entry)
    (ss : List LibrarySymbol) :
    c.addSymbols path lookup ss = c.addOffers (ss.map (LibrarySymbol.offer path lookup)) := by
  induction ss generalizing c with
  | nil => rfl
  | cons s ss ih =>
    rw [addSymbols, List.map_cons, LibrarySymbol.offer]
    cases lookup s.symbol with
    | none => exact (addOffers_refused rfl).symm
    | some e =>
      dsimp only
      cases h : c.register s.name s.sig e with
      | error f => exact (addOffers_refused (o := .ok _) h).symm
      | ok c' => exact (ih c').trans (addOffers_taken h).symm

/-! ## where a group stops -/

/-- operations that a catalog takes, one after the other -/
structure Fits (c : Catalog) (ops : List Operation) : Prop where
  proper : ∀ op ∈ ops, op.Proper
  new : ∀ op ∈ ops, op.name ∉ c.names
  distinct : (ops.map Operation.name).Nodup

def extend (c : Catalog) (ops : List Operation) : Catalog := ⟨c.ops ++ ops⟩

theorem names_extend (c : Catalog) (ops : List Operation) :
    (c.extend ops).names = c.names ++ ops.map Operation.name := List.map_append

@[simp] theorem extend_nil (c : Catalog) : c.extend [] = c := by
  rw [extend, List.append_nil]

theorem extend_cons (c : Catalog) (op : Operation) (ops : List Operation) :
    c.extend (op :: ops) = (c.extend [op]).extend ops := by
  rw [extend, extend, extend, List.append_assoc, List.singleton_append]

theorem extend_eq_self : c.extend ops = c ↔ ops = [] := by
  constructor
  · intro h
    exact List.append_right_eq_self.mp (congrArg Catalog.ops h)
  · rintro rfl
    exact c.extend_nil

theorem fits_nil (c : Catalog) : c.Fits [] := ⟨nofun, nofun, List.nodup_nil⟩

theorem fits_cons {op : Operation} :
    c.Fits (op :: ops) ↔ c.add op = .ok (c.extend [op]) ∧ (c.extend [op]).Fits ops := by
  have hmem : ∀ name, name ∈ (c.extend [op]).names ↔ name ∈ c.names ∨ name = op.name := by
    intro name
    rw [names_extend, List.mem_append, List.map_singleton, List.mem_singleton]
  rw [add_eq_ok_iff]
  constructor
  · intro h
    obtain ⟨hp, hps⟩ := List.forall_mem_cons.mp h.proper
    obtain ⟨hn, hns⟩ := List.forall_mem_cons.mp h.new
    obtain ⟨hd, hds⟩ := List.nodup_cons.mp h.distinct
    refine ⟨⟨hp, hn, rfl⟩, hps, fun o ho hin => ?_, hds⟩
    rcases (hmem _).mp hin with hin | e
    · exact hns o ho hin
    · exact hd (e ▸ List.mem_map_of_mem ho)
  · rintro ⟨⟨hp, hn, -⟩, h⟩
    refine ⟨List.forall_mem_cons.mpr ⟨hp, h.proper⟩, List.forall_mem_cons.mpr ⟨hn, fun o ho hin => ?_⟩,
      List.nodup_cons.mpr ⟨fun hin => ?_, h.distinct⟩⟩
    · exact h.new o ho ((hmem _).mpr (.inl hin))
    · obtain ⟨o, ho, e⟩ := List.mem_map.mp hin
      exact h.new o ho ((hmem _).mpr (.inr e))

theorem Fits.addOffers (h : c.Fits ops) : c.addOffers (ops.map .ok) = (c.extend ops, .ok ()) := by
  induction ops generalizing c with
  | nil => rw [extend_nil]; rfl
  | cons op ops ih =>
    obtain ⟨hadd, hfit⟩ := fits_cons.mp h
    rw [List.map_cons, addOffers_taken hadd, ih hfit, ← extend_cons]

/-- what a group leaves: all of its operations, or those in front of the one where it stopped -/
inductive Outcome (c : Catalog) :
    List (Except Fault Operation) → Catalog × Except Fault Unit → Prop where
  | done {ops : List Operation} (h : c.Fits ops) : Outcome c (ops.map .ok) (c.extend ops, .ok ())
  | stopped {ops : List Operation} {o : Except Fault Operation} {rest : List (Except Fault Operation)}
      {f : Fault} (h : c.Fits ops) (hf : o.bind (c.extend ops).add = .error f) :
      Outcome c (ops.map .ok ++ o :: rest) (c.extend ops, .error f)

/-- **Every group has an outcome**, by induction on the offers. -/
theorem outcome_addOffers (c : Catalog) (os : List (Except Fault Operation)) :
    Outcome c os (c.addOffers os) := by
  induction os generalizing c with
  | nil =>
    have h := Outcome.done (fits_nil c)
    rwa [extend_nil] at h
  | cons o os ih =>
    have hstop : ∀ f, o.bind c.add = .error f → Outcome c (o :: os) (c.addOffers (o :: os)) := by
      intro f hf
      rw [addOffers_refused hf]
      have h : Outcome c ([].map .ok ++ o :: os) (c.extend [], .error f) :=
        .stopped (fits_nil c) (by rwa [extend_nil])
      rwa [extend_nil] at h
    cases o with
    | error f => exact hstop f rfl
    | ok op =>
      cases hadd : c.add op with
      | error f => exact hstop f hadd
      | ok c' =>
        obtain rfl : c' = c.extend [op] := (add_eq_ok_iff.mp hadd).2.2
        rw [addOffers_taken hadd]
        have hout := ih (c.extend [op])
        generalize (c.extend [op]).addOffers os = r at hout ⊢
        cases hout with
        | done h =>
          rw [← extend_cons]
          exact .done (fits_cons.mpr ⟨hadd, h⟩)
        | stopped h hf =>
          rw [← extend_cons] at hf ⊢
          exact .stopped (fits_cons.mpr ⟨hadd, h⟩) hf

section
variable {r : Catalog × Except Fault Unit}

theorem Outcome.of_ok (h : Outcome c os r) (hr : r.2 = .ok ()) :
    ∃ ops, os = ops.map .ok ∧ c.Fits ops := by
  cases h with
  | done h => exact ⟨_, rfl, h⟩
  | stopped => cases hr

theorem Outcome.of_error (h : Outcome c os r) (hr : r.2 = .error f) :
    ∃ (ops : List Operation) (o : Except Fault Operation) (rest : List (Except Fault Operation)),
      os = ops.map .ok ++ o :: rest ∧ r.1 = c.extend ops ∧ c.Fits ops ∧
      o.bind (c.extend ops).add = .error f := by
  cases h with
  | done => cases hr
  | stopped h hf =>
    cases hr
    exact ⟨_, _, _, rfl, rfl, h, hf⟩

end

/-- a group that has left its first operation is refused for that one's name -/
theorem addOffers_again {op : Operation} (h : c.Fits (op :: ops)) :
    (c.extend (op :: ops)).addOffers (.ok op :: os) =
      (c.extend (op :: ops), .error (.duplicateOperation op.name)) := by
  refine addOffers_refused (o := .ok op) (add_taken (h.proper op List.mem_cons_self) ?_)
  rw [names_extend, List.map_cons]
  exact List.mem_append_right _ List.mem_cons_self

/-! ## groups -/

/-- **How a group is added**, whatever the catalog holds -/
structure AddsInOrder (add : Catalog → Catalog × Except Fault Unit)
    (os : List (Except Fault Operation)) : Prop where
  /-- what is added stands behind what was there -/
  outcome : ∀ c, Outcome c os (add c)
  done : ∀ c, (add c).2 = .ok () ↔ ∃ ops, os = ops.map .ok ∧ c.Fits ops
  /-- a failure leaves the catalog as it was if it comes from the first offer -/
  unchanged : ∀ c f, (add c).2 = .error f →
    ((add c).1 = c ↔ ∃ o rest, os = o :: rest ∧ o.bind c.add = .error f)
  /-- after any other failure the group is refused for its first name -/
  again : ∀ c f, (add c).2 = .error f → (add c).1 ≠ c → ∃ op rest, os = .ok op :: rest ∧
    add (add c).1 = ((add c).1, .error (.duplicateOperation op.name))

theorem addsInOrder_addOffers (os : List (Except Fault Operation)) :
    AddsInOrder (fun c => c.addOffers os) os where
  outcome c := outcome_addOffers c os
  done c := by
    refine ⟨(outcome_addOffers c os).of_ok, ?_⟩
    rintro ⟨ops, rfl, h⟩
    rw [h.addOffers]
  unchanged c f hf := by
    constructor
    · intro hc
      obtain ⟨ops, o, rest, rfl, hr, -, hstop⟩ := (outcome_addOffers c os).of_error hf
      obtain rfl := extend_eq_self.mp (hr.symm.trans hc)
      rw [extend_nil] at hstop
      exact ⟨o, rest, rfl, hstop⟩
    · rintro ⟨o, rest, rfl, hstop⟩
      rw [addOffers_refused hstop]
  again c f hf hc := by
    obtain ⟨ops, o, rest, rfl, hr, hfit, -⟩ := (outcome_addOffers c os).of_error hf
    cases ops with
    | nil => exact absurd (hr.trans c.extend_nil) hc
    | cons op ops =>
      refine ⟨op, _, rfl, ?_⟩
      rw [hr]
      exact addOffers_again hfit

/-- **Groups are added in order**, and stop where an operation is missing or refused: the built-in
operations, and the symbols of any library that can be opened.  If it cannot, nothing happens. -/
theorem groups_add_in_order [Platform] :
    AddsInOrder addBuiltins (builtinOps.map .ok) ∧
    ∀ (load : Loader) (path : String) (symbols : List LibrarySymbol),
      match load path with
      | none => ∀ c, addLibrary c load path symbols = (c, .error (.library path))
      | some lookup => AddsInOrder (fun c => c.addLibrary load path symbols)
          (symbols.map (LibrarySymbol.offer path lookup)) := by
  constructor
  · have e : addBuiltins = fun c => c.addOffers (builtinOps.map .ok) := by
      funext c
      exact c.addAll_eq builtinOps
    rw [e]
    exact addsInOrder_addOffers _
  · intro load path symbols
    cases hl : load path with
    | none =>
      intro c
      rw [addLibrary, hl]
    | some lookup =>
      have e : (fun c => addLibrary c load path symbols) =
          fun c => c.addOffers (symbols.map (LibrarySymbol.offer path lookup)) := by
        funext c
        rw [addLibrary, hl]
        exact c.addSymbols_eq path lookup symbols
      rw [e]
      exact addsInOrder_addOffers _

/-! ## a group that stops halfway -/

attribute [local instance] Platform.linuxX64

def nameTaken : Catalog := ⟨[⟨"Float64Lt", ⟨[], []⟩, hostConv, .given 4096⟩]⟩

/-- the operations in front of it stay, and stand in the way of another try -/
theorem addBuiltins_nameTaken :
    nameTaken.addBuiltins.2 = .error (.duplicateOperation "Float64Lt") ∧
      nameTaken.addBuiltins.1 ≠ nameTaken ∧ nameTaken.addBuiltins.1.ops.length = 5 ∧
      nameTaken.addBuiltins.1.addBuiltins.2 = .error (.duplicateOperation "Float64AddWrapping") := by
  have hlen : nameTaken.addBuiltins.1.ops.length = 5 := by decide +kernel
  refine ⟨by rfl, fun e => ?_, hlen, by rfl⟩
  rw [e] at hlen
  cases hlen

end TreeJit.Host.Catalog
