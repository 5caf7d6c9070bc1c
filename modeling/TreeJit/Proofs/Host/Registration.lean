import TreeJit.Host.Linux
import TreeJit.Proofs.Host.Catalog
import TreeJit.Proofs.Host.Session

/-!
# Sessions on a catalog

A catalog is asked to add, to look up and to list operations, any number of times and in any order.
What it answers is told by the operations whose addition succeeded so far (`Dictionary.InsertOnly`):
it lists them in their order, a name stands for the one of them that has it, and what was refused
might as well not have been asked.

Two kinds of store serve such sessions: `Catalog`, a list that is searched, and `Indexed`, a list
with a map from names to numbers beside it.  The map never loses sight of the list
(`Indexed.coherent`), so both answer alike (`indexed_simulates`).

A module takes a snapshot when it is built, which later requests do not change
(`Module.Snapshot`).
-/

namespace TreeJit.Host

open SSA

/-! ## requests -/

inductive Request where
  | register (name : String) (sig : Signature) (entry : Entry)
  | add (op : Operation)
  | resolve (name : String)
  | enumerate
  | count

def Request.offer? [Platform] : Request → Option Operation
  | .register name sig entry => some ⟨name, sig, hostConv, entry⟩
  | .add op => some op
  | _ => none

inductive Answer where
  | added (r : Except Fault Unit)
  | found (r : Except Fault Operation)
  | listed (ops : List Operation)
  | counted (n : Nat)

def Answer.isDone : Answer → Bool
  | .added (.ok ()) => true
  | _ => false

/-- the operations whose addition succeeded, in order -/
def taken [Platform] (rs : List Request) (as : List Answer) : List Operation :=
  (rs.zip as).filterMap fun (r, a) => if a.isDone then r.offer? else none

/-- the answer to an addition, after `ops` were added -/
def Judged (ops : List Operation) (op : Operation) (r : Except Fault Unit) : Prop :=
  (r = .ok () ↔ op.Proper ∧ op.name ∉ ops.map Operation.name) ∧
    (op.Proper → op.name ∈ ops.map Operation.name → r = .error (.duplicateOperation op.name))

/-- the answer to a request, after `ops` were added -/
def Right [Platform] (ops : List Operation) : Request → Answer → Prop
  | .register name sig entry, .added r => Judged ops ⟨name, sig, hostConv, entry⟩ r
  | .add op, .added r => Judged ops op r
  | .resolve name, .found r =>
    (∀ op, r = .ok op ↔ op ∈ ops ∧ op.name = name) ∧
      (name ∉ ops.map Operation.name → r = .error (.unknownOperation name))
  | .enumerate, .listed l => l = ops
  | .count, .counted n => n = ops.length
  | _, _ => False

/-! ## stores -/

structure Dictionary (σ : Type) where
  start : σ
  register : σ → String → Signature → Entry → Except Fault σ
  add : σ → Operation → Except Fault σ
  resolve : σ → String → Except Fault Operation
  ops : σ → List Operation

namespace Dictionary
variable {σ τ : Type}

def settle (s : σ) : Except Fault σ → σ × Answer
  | .ok s' => (s', .added (.ok ()))
  | .error f => (s, .added (.error f))

def serve (D : Dictionary σ) (s : σ) : Request → σ × Answer
  | .register name sig entry => settle s (D.register s name sig entry)
  | .add op => settle s (D.add s op)
  | .resolve name => (s, .found (D.resolve s name))
  | .enumerate => (s, .listed (D.ops s))
  | .count => (s, .counted (D.ops s).length)

/-- a session: the state behind it, and the answers -/
def run (D : Dictionary σ) (s : σ) : List Request → σ × List Answer
  | [] => (s, [])
  | r :: rs =>
    let (s', a) := D.serve s r
    let (s'', as) := D.run s' rs
    (s'', a :: as)

def after (D : Dictionary σ) (rs : List Request) : σ := (D.run D.start rs).1

def answers (D : Dictionary σ) (rs : List Request) : List Answer := (D.run D.start rs).2

def added [Platform] (D : Dictionary σ) (rs : List Request) : List Operation :=
  taken rs (D.answers rs)

/-- **An ordered dictionary that only grows** -/
structure InsertOnly [Platform] (D : Dictionary σ) : Prop where
  distinct : ∀ rs, ((D.added rs).map Operation.name).Nodup
  /-- every answer is right after what was added before -/
  right : ∀ before r after, ∃ a, (D.answers (before ++ r :: after))[before.length]? = some a ∧
    Right (D.added before) r a
  /-- a request that was refused can be left out -/
  refused : ∀ before r after f,
    (D.answers (before ++ r :: after))[before.length]? = some (.added (.error f)) →
      ∃ later, D.answers (before ++ r :: after) = D.answers before ++ .added (.error f) :: later ∧
        D.answers (before ++ after) = D.answers before ++ later

variable (D : Dictionary σ)

theorem run_append (s : σ) (rs rs' : List Request) :
    D.run s (rs ++ rs') =
      ((D.run (D.run s rs).1 rs').1, (D.run s rs).2 ++ (D.run (D.run s rs).1 rs').2) := by
  induction rs generalizing s with
  | nil => rfl
  | cons r rs ih => simp only [List.cons_append, run, ih]

theorem length_run (s : σ) (rs : List Request) : (D.run s rs).2.length = rs.length := by
  induction rs generalizing s with
  | nil => rfl
  | cons r rs ih => exact congrArg Nat.succ (ih _)

theorem answers_append (rs rs' : List Request) :
    D.answers (rs ++ rs') = D.answers rs ++ (D.run (D.after rs) rs').2 :=
  congrArg Prod.snd (D.run_append D.start rs rs')

theorem answers_middle (before after : List Request) (r : Request) :
    D.answers (before ++ r :: after) = D.answers before ++
      (D.serve (D.after before) r).2 :: (D.run (D.serve (D.after before) r).1 after).2 :=
  D.answers_append before (r :: after)

theorem length_answers (rs : List Request) : (D.answers rs).length = rs.length :=
  D.length_run D.start rs

theorem answer_middle (before after : List Request) (r : Request) :
    (D.answers (before ++ r :: after))[before.length]? = some (D.serve (D.after before) r).2 := by
  rw [answers_middle, List.getElem?_append_right (by rw [length_answers]), length_answers,
    Nat.sub_self, List.getElem?_cons_zero]

theorem serve_refused {D : Dictionary σ} {s : σ} {r : Request} {f : Fault}
    (h : (D.serve s r).2 = .added (.error f)) : (D.serve s r).1 = s := by
  have hset : ∀ x, (settle s x).2 = .added (.error f) → (settle s x).1 = s := by
    rintro (f | s') h
    · rfl
    · cases h
  cases r with
  | register => exact hset _ h
  | add => exact hset _ h
  | resolve => rfl
  | enumerate => rfl
  | count => rfl

theorem answers_refused {before after : List Request} {r : Request} {f : Fault}
    (h : (D.answers (before ++ r :: after))[before.length]? = some (.added (.error f))) :
    ∃ later, D.answers (before ++ r :: after) = D.answers before ++ .added (.error f) :: later ∧
      D.answers (before ++ after) = D.answers before ++ later := by
  rw [answer_middle] at h
  have hr := Option.some.inj h
  refine ⟨(D.run (D.after before) after).2, ?_, D.answers_append before after⟩
  rw [answers_middle, hr, serve_refused hr]

theorem after_concat (rs : List Request) (r : Request) :
    D.after (rs ++ [r]) = (D.serve (D.after rs) r).1 :=
  congrArg Prod.fst (D.run_append D.start rs [r])

theorem added_concat [Platform] (rs : List Request) (r : Request) :
    D.added (rs ++ [r]) = D.added rs ++ taken [r] [(D.serve (D.after rs) r).2] := by
  rw [added, D.answers_middle rs [] r, taken, List.zip_append (D.length_answers rs).symm,
    List.filterMap_append]
  rfl

/-! ## stores that answer alike -/

/-- every state of one store stands for a state of the other -/
structure Simulates (D : Dictionary σ) (D' : Dictionary τ) (view : σ → τ) : Prop where
  start : view D.start = D'.start
  register : ∀ s name sig entry,
    (D.register s name sig entry).map view = D'.register (view s) name sig entry
  add : ∀ s op, (D.add s op).map view = D'.add (view s) op
  resolve : ∀ s name, D.resolve s name = D'.resolve (view s) name
  ops : ∀ s, D.ops s = D'.ops (view s)

namespace Simulates
variable {D : Dictionary σ} {D' : Dictionary τ} {view : σ → τ}

theorem serve (h : Simulates D D' view) (s : σ) (r : Request) :
    D'.serve (view s) r = (view (D.serve s r).1, (D.serve s r).2) := by
  have hset : ∀ x, settle (view s) (x.map view) = (view (settle s x).1, (settle s x).2) := by
    rintro (f | s') <;> rfl
  cases r with
  | register name sig entry =>
    exact (congrArg (settle (view s)) (h.register s name sig entry).symm).trans (hset _)
  | add op => exact (congrArg (settle (view s)) (h.add s op).symm).trans (hset _)
  | resolve name => simp only [Dictionary.serve, h.resolve]
  | enumerate => simp only [Dictionary.serve, h.ops]
  | count => simp only [Dictionary.serve, h.ops]

theorem run (h : Simulates D D' view) (s : σ) (rs : List Request) :
    (D'.run (view s) rs).2 = (D.run s rs).2 := by
  induction rs generalizing s with
  | nil => rfl
  | cons r rs ih =>
    simp only [Dictionary.run, h.serve]
    rw [ih]

/-- **Stores that stand for one another answer alike.** -/
theorem answers (h : Simulates D D' view) : D.answers = D'.answers := by
  funext rs
  rw [Dictionary.answers, Dictionary.answers, ← h.start, h.run]

theorem insertOnly [Platform] (h : Simulates D D' view) (hi : D'.InsertOnly) : D.InsertOnly := by
  have hadded : D.added = D'.added := by
    funext rs
    rw [added, added, h.answers]
  constructor
  · rw [hadded]
    exact hi.distinct
  · rw [hadded, h.answers]
    exact hi.right
  · rw [h.answers]
    exact hi.refused

end Simulates
end Dictionary

/-! ## the catalog -/

theorem judged_settle (c : Catalog) (op : Operation) :
    ∃ x, (Dictionary.settle c (c.add op)).2 = .added x ∧ Judged c.ops op x := by
  cases h : c.add op with
  | ok c' =>
    obtain ⟨hp, hnew, -⟩ := Catalog.add_eq_ok_iff.mp h
    exact ⟨_, rfl, ⟨fun _ => ⟨hp, hnew⟩, fun _ => rfl⟩, fun _ hin => absurd hin hnew⟩
  | error f =>
    refine ⟨_, rfl, ⟨nofun, fun ⟨hp, hnew⟩ => ?_⟩, fun hp hin => ?_⟩
    · rw [Catalog.add_eq_ok_iff.mpr ⟨hp, hnew, rfl⟩] at h
      cases h
    · rw [Catalog.add_taken hp hin] at h
      cases h
      rfl

section
variable [Platform]

/-- a list that is searched -/
def catalogs : Dictionary Catalog where
  start := {}
  register := Catalog.register
  add := Catalog.add
  resolve := Catalog.resolve
  ops := Catalog.ops

variable {c : Catalog} {r : Request} {op : Operation}

theorem serve_offer (h : r.offer? = some op) :
    catalogs.serve c r = Dictionary.settle c (c.add op) := by
  cases r <;> cases h <;> rfl

theorem serve_other (h : r.offer? = none) :
    (catalogs.serve c r).1 = c ∧ (catalogs.serve c r).2.isDone = false := by
  cases r <;> cases h <;> exact ⟨rfl, rfl⟩

theorem ops_serve (c : Catalog) (r : Request) :
    (catalogs.serve c r).1.ops = c.ops ++ taken [r] [(catalogs.serve c r).2] := by
  have hone : ∀ a : Answer, taken [r] [a] = (if a.isDone then r.offer? else none).toList := by
    intro a
    rw [taken, List.zip_cons_cons, List.zip_nil_left]
    cases h : (if a.isDone then r.offer? else none) <;> simp [h]
  rw [hone]
  cases ho : r.offer? with
  | none =>
    rw [(serve_other ho).1, (serve_other ho).2]
    exact (List.append_nil _).symm
  | some op =>
    rw [serve_offer ho]
    cases h : c.add op with
    | error f => exact (List.append_nil _).symm
    | ok c' =>
      obtain ⟨-, -, rfl⟩ := Catalog.add_eq_ok_iff.mp h
      rfl

theorem nodup_serve (hd : c.names.Nodup) (r : Request) : (catalogs.serve c r).1.names.Nodup := by
  cases ho : r.offer? with
  | none => rwa [(serve_other ho).1]
  | some op =>
    rw [serve_offer ho]
    cases h : c.add op with
    | error f => exact hd
    | ok c' => exact Catalog.nodup_add hd h

/-- **Every answer of a catalog is right** for the operations that it has. -/
theorem right_serve (hd : c.names.Nodup) (r : Request) : Right c.ops r (catalogs.serve c r).2 := by
  cases r with
  | register name sig entry =>
    obtain ⟨x, hx, hj⟩ := judged_settle c ⟨name, sig, hostConv, entry⟩
    rw [serve_offer rfl, hx]
    exact hj
  | add op =>
    obtain ⟨x, hx, hj⟩ := judged_settle c op
    rw [serve_offer rfl, hx]
    exact hj
  | resolve name => exact ⟨fun op => Catalog.resolve_eq_ok_iff hd, Catalog.resolve_unknown⟩
  | enumerate => exact rfl
  | count => exact rfl

/-- **What a session leaves in a catalog** is what it has added, under distinct names. -/
theorem ops_after (rs : List Request) :
    (catalogs.after rs).ops = catalogs.added rs ∧ (catalogs.after rs).names.Nodup := by
  induction rs using List.reverseRecOn with
  | nil => exact ⟨rfl, List.nodup_nil⟩
  | append_singleton rs r ih =>
    rw [Dictionary.after_concat, Dictionary.added_concat, ops_serve, ih.1]
    exact ⟨rfl, nodup_serve ih.2 r⟩

theorem catalogs_insertOnly : catalogs.InsertOnly where
  distinct rs := by
    have h := (ops_after rs).2
    rwa [Catalog.names, (ops_after rs).1] at h
  right before r after := by
    refine ⟨_, catalogs.answer_middle before after r, ?_⟩
    rw [← (ops_after before).1]
    exact right_serve (ops_after before).2 r
  refused _ _ _ _ h := catalogs.answers_refused h

end

/-! ## a list with an index -/

/-- a list of operations, and the number of each name in it -/
structure Indexed where
  ops : Array Operation := #[]
  index : Std.HashMap String Nat := {}
  coherent : ∀ name i, index[name]? = some i ↔ ops[i]?.map Operation.name = some name := by simp

namespace Indexed
variable {c : Indexed} {name : String} {op : Operation}

theorem coherent_push (h : op.name ∉ c.index) (name : String) (i : Nat) :
    (c.index.insert op.name c.ops.size)[name]? = some i ↔
      (c.ops.push op)[i]?.map Operation.name = some name := by
  rw [Std.HashMap.getElem?_insert, Array.getElem?_push]
  by_cases hi : i = c.ops.size
  · -- the number of the new operation belongs to its name only
    have hend : c.ops[i]? = none := Array.getElem?_eq_none (Nat.le_of_eq hi.symm)
    have hold : c.index[name]? ≠ some i := by
      rw [ne_eq, c.coherent, hend]
      nofun
    rw [if_pos hi, Option.map_some, Option.some_inj]
    by_cases he : op.name = name
    · rw [if_pos (beq_iff_eq.mpr he), hi]
      exact iff_of_true rfl he
    · rw [if_neg (mt beq_iff_eq.mp he)]
      exact iff_of_false hold he
  · rw [if_neg hi, ← c.coherent]
    by_cases he : op.name = name
    · have hnone : c.index[name]? = none := by
        rw [← he]
        exact Std.HashMap.getElem?_eq_none h
      rw [if_pos (beq_iff_eq.mpr he), hnone, Option.some_inj]
      exact iff_of_false (Ne.symm hi) nofun
    · rw [if_neg (mt beq_iff_eq.mp he)]

/-- adds an operation to the list and its name to the index -/
def add (c : Indexed) (op : Operation) : Except Fault Indexed :=
  if op.name = "" then .error .emptyOperation
  else if op.entry.address = 0 then .error (.nilAddress op.name)
  else
    match op.sig.check with
    | .error f => .error (.operation op.name f)
    | .ok () =>
      if h : op.name ∈ c.index then .error (.duplicateOperation op.name)
      else .ok ⟨c.ops.push op, c.index.insert op.name c.ops.size, coherent_push h⟩

def resolve (c : Indexed) (name : String) : Except Fault Operation :=
  match c.index[name]?.bind fun i => c.ops[i]? with
  | some op => .ok op
  | none => .error (.unknownOperation name)

def catalog (c : Indexed) : Catalog := ⟨c.ops.toList⟩

/-- **The index finds what a search finds.** -/
theorem find?_catalog (c : Indexed) (name : String) :
    c.catalog.find? name = c.index[name]?.bind fun i => c.ops[i]? := by
  cases hn : c.index[name]? with
  | none =>
    refine List.find?_eq_none.mpr fun o ho he => ?_
    obtain ⟨i, hi⟩ := List.mem_iff_getElem?.mp ho
    have hat : c.ops[i]?.map Operation.name = some name := by
      rw [← Array.getElem?_toList]
      show Option.map Operation.name c.catalog.ops[i]? = _
      rw [hi, Option.map_some, beq_iff_eq.mp he]
    rw [← c.coherent, hn] at hat
    cases hat
  | some i =>
    obtain ⟨o, ho, he⟩ := Option.map_eq_some_iff.mp ((c.coherent name i).mp hn)
    rw [Option.bind_some, ho]
    obtain ⟨hlt, hget⟩ := Array.getElem?_eq_some_iff.mp ho
    refine List.find?_eq_some_iff_getElem.mpr ⟨beq_iff_eq.mpr he, i, hlt, hget, fun j hj => ?_⟩
    -- a name in front of it would have a number of its own
    refine bne_iff_ne.mpr fun hname => ?_
    have hat : c.ops[j]?.map Operation.name = some name := by
      rw [Array.getElem?_eq_getElem (Nat.lt_trans hj hlt), Option.map_some]
      exact congrArg some hname
    rw [← c.coherent, hn] at hat
    exact Nat.ne_of_gt hj (Option.some.inj hat)

end Indexed

def indexed [Platform] : Dictionary Indexed where
  start := {}
  register c name sig entry := c.add ⟨name, sig, hostConv, entry⟩
  add := Indexed.add
  resolve := Indexed.resolve
  ops c := c.ops.toList

/-- an addition is taken with an index when it is taken without, and refused for the same reason -/
theorem Indexed.add_catalog (c : Indexed) (op : Operation) :
    (c.add op).map catalog = c.catalog.add op := by
  have hin : (c.catalog.find? op.name).isSome = true ↔ op.name ∈ c.index := by
    rw [find?_catalog, Std.HashMap.mem_iff_isSome_getElem?]
    cases hn : c.index[op.name]? with
    | none => exact Iff.rfl
    | some i =>
      obtain ⟨o, ho, -⟩ := Option.map_eq_some_iff.mp ((c.coherent op.name i).mp hn)
      rw [Option.bind_some, ho]
      exact Iff.rfl
  rw [Indexed.add, Catalog.add]
  by_cases h0 : op.name = ""
  · rw [if_pos h0, if_pos h0]
    rfl
  rw [if_neg h0, if_neg h0]
  by_cases h1 : op.entry.address = 0
  · rw [if_pos h1, if_pos h1]
    rfl
  rw [if_neg h1, if_neg h1]
  cases op.sig.check with
  | error f => rfl
  | ok u =>
    by_cases h : op.name ∈ c.index
    · simp only [dif_pos h, if_pos (hin.mpr h)]
      rfl
    · simp only [dif_neg h, if_neg (mt hin.mp h)]
      exact congrArg (fun ops => Except.ok (Catalog.mk ops)) Array.toList_push

theorem indexed_simulates [Platform] : indexed.Simulates catalogs Indexed.catalog where
  start := rfl
  register c name sig entry := c.add_catalog ⟨name, sig, hostConv, entry⟩
  add := Indexed.add_catalog
  resolve c name :=
    congrArg (fun found => match found with
      | some op => Except.ok op
      | none => Except.error (Fault.unknownOperation name)) (c.find?_catalog name).symm
  ops _ := rfl

/-! ## snapshots -/

namespace Module

/-- what a module that imports some operations finds under their names, and under all others -/
structure Snapshot (m : Module) (ops : List Operation) : Prop where
  imports : m.imports = ops
  found : ∀ name op, m.import? name = some op ↔ op ∈ ops ∧ op.name = name
  address : m.closed = false → ∀ op ∈ ops, m.symbol? op.name = some op.entry.address

/-- a request to a catalog, or an operation on a module that was built -/
def alongside [Platform] : Catalog × Module → Request ⊕ Op → Catalog × Module
  | (c, m), .inl r => ((catalogs.serve c r).1, m)
  | (c, m), .inr o => (c, m.act o)

theorem imports_build [Platform] {c : Catalog} {settings : Settings} {m : Module} {log : List Event}
    (h : build (some c) settings = .ok (m, log)) : m.imports = c.ops := by
  obtain ⟨-, -, h⟩ := SSA.bind_eq_ok.mp h
  obtain ⟨-, -, h⟩ := SSA.bind_eq_ok.mp h
  cases h
  rfl

theorem imports_alongside [Platform] (c : Catalog) (m : Module) (steps : List (Request ⊕ Op)) :
    (steps.foldl alongside (c, m)).2.imports = m.imports := by
  induction steps generalizing c m with
  | nil => rfl
  | cons s steps ih =>
    rw [List.foldl_cons]
    cases s with
    | inl r => exact ih _ m
    | inr o => exact (ih c _).trans (imports_effect (m.act_effect o))

theorem snapshot_of_imports {m : Module} {ops : List Operation} (h : m.imports = ops)
    (hd : (ops.map Operation.name).Nodup) : m.Snapshot ops := by
  have hfound : ∀ name op, m.import? name = some op ↔ op ∈ ops ∧ op.name = name := by
    intro name op
    rw [import?, h]
    exact Catalog.find?_eq_some_iff (c := ⟨ops⟩) hd
  refine ⟨h, hfound, fun hc op hop => ?_⟩
  rw [symbol?, hc, if_neg Bool.false_ne_true, resolve, (hfound op.name op).mpr ⟨hop, rfl⟩]

end Module

/-- **The catalog is an ordered dictionary that only grows**, with an index beside it or without.  A
module built from it imports what was added by then, whatever is asked of the catalog and done with
the module later. -/
theorem sessions_insertOnly [Platform] :
    catalogs.InsertOnly ∧ indexed.InsertOnly ∧ indexed.answers = catalogs.answers ∧
    ∀ (rs : List Request) (settings : Settings) (m : Module) (log : List Event),
      Module.build (some (catalogs.after rs)) settings = .ok (m, log) →
        ∀ later : List (Request ⊕ Module.Op),
          (later.foldl Module.alongside (catalogs.after rs, m)).2.Snapshot (catalogs.added rs) := by
  refine ⟨catalogs_insertOnly, indexed_simulates.insertOnly catalogs_insertOnly,
    indexed_simulates.answers, fun rs settings m log hb later => ?_⟩
  refine Module.snapshot_of_imports ?_ (catalogs_insertOnly.distinct rs)
  rw [Module.imports_alongside, Module.imports_build hb, (ops_after rs).1]

/-! ## a session -/

attribute [local instance] Platform.linuxX64

/-- an addition, two that are refused, and a look-up -/
def oneTaken : List Request :=
  [.register "f" ⟨[.f64], [.f64]⟩ (.given 4096), .register "f" ⟨[], []⟩ (.given 8192),
    .register "" ⟨[], []⟩ (.given 4096), .resolve "f"]

/-- a module built then imports one operation, also after another one was added and the module has a
function of the same name -/
theorem sessions_insertOnly_oneTaken :
    ∃ m log, Module.build (some (catalogs.after oneTaken)) {} = .ok (m, log) ∧
      ([.inl (.register "g" ⟨[], []⟩ (.given 8192)), .inr (.declare "g" ⟨[], []⟩)].foldl
        Module.alongside (catalogs.after oneTaken, m)).2.Snapshot
          [⟨"f", ⟨[.f64], [.f64]⟩, hostConv, .given 4096⟩] :=
  ⟨_, _, rfl, sessions_insertOnly.2.2.2 oneTaken {} _ _ rfl _⟩

end TreeJit.Host
