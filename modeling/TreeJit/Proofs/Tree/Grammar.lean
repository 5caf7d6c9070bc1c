import TreeJit.Proofs.Code.Labels
import TreeJit.Proofs.Tree.Emit
import TreeJit.Proofs.Word.Nearest
import TreeJit.Tree.Decode

/-!
# The grammar of written trees

A record becomes a tree in two passes: `RawTree.build` looks at single records, an operator before
its operands and the left operand before the right, and `Tree.check` at the kinds of operands and at
the numbers of columns.  Together they accept one grammar, and what a leaf holds beside its value
has no part in it.

* `RawTree.nodes`         the records that are reached through operators, with their places;
* `RawTree.Fits`          what the grammar asks of one record and its operands;
* `RawTree.Denotes`       the tree that a record stands for, by the shape of the record;
* `RawTree.build_eq_error_iff`   building fails with the fault of the first record that is wrong;
* `RawTree.read_eq_ok_iff`       reading gives the tree that a record stands for;
* `RawTree.read_grammar`         what is accepted, what it becomes, and the fault of what is refused.
-/

namespace TreeJit

inductive Side where
  | left
  | right
  deriving DecidableEq

def Side.name : Side → String
  | .left => ".left"
  | .right => ".right"

def pathFrom (root : String) : List Side → String
  | [] => root
  | s :: place => pathFrom (root ++ s.name) place

namespace Operator

theorem name_ne_empty {o : Operator} (h : o ∈ all) : o.name ≠ "" := by
  revert o
  decide

theorem isValid_of_mem {o : Operator} (h : o ∈ all) : o.isValid = true := by
  revert o
  decide

theorem ofName_of_mem {o : Operator} (h : o ∈ all) : ofName o.name = o :=
  ofName_name o (isValid_of_mem h)

theorem isValid_ofName (s : String) : (ofName s).isValid = true ↔ ∃ o ∈ all, o.name = s := by
  constructor
  · intro h
    unfold ofName at h
    cases hf : all.find? fun o => o.name == s with
    | none =>
      rw [hf] at h
      cases h
    | some o => exact ⟨o, List.mem_of_find?_eq_some hf, by simpa using List.find?_some hf⟩
  · rintro ⟨o, ho, rfl⟩
    rw [ofName_of_mem ho, isValid_of_mem ho]

theorem isCompare_iff {o : Operator} (h : o ∈ all) :
    o.isCompare = true ↔ ∃ c ∈ SSA.FloatCond.all, c.name = o.name := by
  revert o
  decide

end Operator

theorem Tree.check_binary_iff {o : Operator} {l r : Tree} :
    (Tree.binary o l r).check = .ok () ↔
      o.isValid = true ∧ l.check = .ok () ∧ l.kind = .float ∧ r.check = .ok () ∧ r.kind = .float := by
  refine ⟨Tree.check_binary, ?_⟩
  rintro ⟨ho, hl, hlk, hr, hrk⟩
  have hm : ∀ t : Tree, t.check = .ok () → t ≠ .missing := by
    rintro t ht rfl
    cases ht
  rw [Tree.check, ho, if_neg (not_or.mpr ⟨hm l hl, hm r hr⟩), hl, hr, Tree.checkOperand,
    Tree.checkOperand, hlk, hrk]
  rfl

namespace RawTree

/-! ## records and their places -/

def op : RawTree → String
  | .absent => ""
  | .node op .. => op

def column? : RawTree → Option Int64
  | .absent => none
  | .node _ _ _ column .. => column

def operand : RawTree → Side → RawTree
  | .absent, _ => .absent
  | .node _ left .., .left => left
  | .node _ _ right .., .right => right

/-- how many of the fields are set of which a record has one -/
def marks : RawTree → Nat
  | .absent => 0
  | .node op _ _ column _ float int =>
    (decide (op ≠ "")).toNat + column.isSome.toNat + float.isSome.toNat + int.isSome.toNat

/-- the place of a record, seen from the operator above -/
def under (s : Side) (p : List Side × RawTree) : List Side × RawTree := (s :: p.1, p.2)

/-- the records that are reached through operators: each before its operands, the left operand and
what is below it before the right one -/
def nodes : RawTree → List (List Side × RawTree)
  | .absent => [([], .absent)]
  | .node op left right column name float int =>
    ([], .node op left right column name float int) ::
      if op = "" then [] else left.nodes.map (under .left) ++ right.nodes.map (under .right)

/-! ## the grammar -/

def Compares (t : RawTree) : Prop := ∃ c ∈ SSA.FloatCond.all, c.name = t.op

/-- what the grammar asks of a record and its operands -/
structure Fits (t : RawTree) : Prop where
  /-- exactly one of operator, column, float and integer -/
  single : t.marks = 1
  known : t.op ≠ "" → ∃ o ∈ Operator.all, o.name = t.op
  complete : t.op ≠ "" → ∀ s, t.operand s ≠ .absent
  numbers : t.op ≠ "" → ∀ s, ¬ (t.operand s).Compares
  column : ∀ i, t.column? = some i → 0 ≤ i

def Misshapen (t : RawTree) : Prop :=
  t.marks ≠ 1 ∨ (t.op ≠ "" ∧ ∀ o ∈ Operator.all, o.name ≠ t.op)

/-- the tree that a record stands for; an integer stands for the double nearest to it -/
inductive Denotes : RawTree → Tree → Prop where
  | column {i : Int64} (h : 0 ≤ i) (left right : RawTree) (name : String) :
      Denotes (.node "" left right (some i) name none none) (.column i name)
  | float (bits : UInt64) (left right : RawTree) (name : String) :
      Denotes (.node "" left right none name (some bits) none) (.literal bits)
  | int {i : Int64} {bits : UInt64} (h : IsNearestDouble i.toInt bits) (left right : RawTree)
      (name : String) : Denotes (.node "" left right none name none (some i)) (.literal bits)
  | binary {o : Operator} {left right : RawTree} {l r : Tree} (ho : o ∈ Operator.all)
      (hl : Denotes left l) (hr : Denotes right r) (hlk : l.kind = .float) (hrk : r.kind = .float)
      (name : String) :
      Denotes (.node o.name left right none name none none) (.binary o l r)

/-! ## building -/

def fault? (path : String) : RawTree → Option DecodeFault
  | .absent => some (.missingNode path)
  | t@(.node op ..) =>
    if t.marks ≠ 1 then some (.ambiguous path)
    else if op ≠ "" ∧ (Operator.ofName op).isValid = false then some (.unknownOperator path op)
    else none

theorem fault?_node (path op name : String) (left right : RawTree) (column int : Option Int64)
    (float : Option UInt64) : (node op left right column name float int).fault? path =
      if (node op left right column name float int).marks ≠ 1 then some (.ambiguous path)
      else if op ≠ "" ∧ (Operator.ofName op).isValid = false then some (.unknownOperator path op)
      else none := rfl

/-- the fault of the first record that is wrong in itself -/
def firstFault (path : String) (t : RawTree) : Option DecodeFault :=
  t.nodes.findSome? fun p => p.2.fault? (pathFrom path p.1)

section
variable {path : String} {f : DecodeFault} {op name : String} {left right : RawTree}
  {column int : Option Int64} {float : Option UInt64}

theorem firstFault_under (s : Side) (t : RawTree) :
    ((t.nodes.map (under s)).findSome? fun p => p.2.fault? (pathFrom path p.1)) =
      t.firstFault (path ++ s.name) := by
  rw [List.findSome?_map]
  rfl

/-- the first fault is that of the record itself, then comes the left operand -/
theorem firstFault_node : (node op left right column name float int).firstFault path =
    ((node op left right column name float int).fault? path).or (if op = "" then none
      else (left.firstFault (path ++ ".left")).or (right.firstFault (path ++ ".right"))) := by
  have hrest : ((if op = "" then [] else left.nodes.map (under .left) ++
      right.nodes.map (under .right)).findSome? fun p => p.2.fault? (pathFrom path p.1)) =
        if op = "" then none
        else (left.firstFault (path ++ ".left")).or (right.firstFault (path ++ ".right")) := by
    split
    · rfl
    · rw [List.findSome?_append, firstFault_under, firstFault_under]
      rfl
  rw [firstFault, nodes, List.findSome?_cons, hrest]
  simp only [pathFrom]
  cases (node op left right column name float int).fault? path <;> rfl

end

theorem build_binary {o : Operator} (ho : o ∈ Operator.all) (path : String) (left right : RawTree)
    (name : String) :
    (node o.name left right none name none none).build path = do
      let l ← left.build (path ++ ".left")
      let r ← right.build (path ++ ".right")
      return .binary o l r := by
  have hne := Operator.name_ne_empty ho
  have hof := Operator.ofName_of_mem ho
  have hv := Operator.isValid_of_mem ho
  rw [build, if_neg hne, hof, hv]
  rfl

theorem fault?_binary {o : Operator} (ho : o ∈ Operator.all) (path : String) (left right : RawTree)
    (name : String) :
    (node o.name left right none name none none).fault? path = none := by
  have hne := Operator.name_ne_empty ho
  simp [fault?, marks, hne, Operator.ofName_of_mem ho, Operator.isValid_of_mem ho]

/-- a record is wrong in itself, a leaf or an operator -/
inductive Shape (path : String) : RawTree → Prop where
  | wrong {t : RawTree} {f : DecodeFault} (hf : t.fault? path = some f)
      (hb : t.build path = .error f) : Shape path t
  | column (i : Int64) (left right : RawTree) (name : String) :
      Shape path (.node "" left right (some i) name none none)
  | float (bits : UInt64) (left right : RawTree) (name : String) :
      Shape path (.node "" left right none name (some bits) none)
  | int (i : Int64) (left right : RawTree) (name : String) :
      Shape path (.node "" left right none name none (some i))
  | binary {o : Operator} (ho : o ∈ Operator.all) (left right : RawTree) (name : String) :
      Shape path (.node o.name left right none name none none)

theorem shape (path : String) (t : RawTree) : Shape path t := by
  cases t with
  | absent => exact .wrong rfl rfl
  | node op left right column name float int =>
    by_cases hop : op = ""
    · subst hop
      cases column <;> cases float <;> cases int <;>
        first
          | exact .column ..
          | exact .float ..
          | exact .int ..
          | exact .wrong rfl rfl
    · by_cases hbare : column = none ∧ float = none ∧ int = none
      · obtain ⟨rfl, rfl, rfl⟩ := hbare
        by_cases hv : (Operator.ofName op).isValid = true
        · obtain ⟨o, ho, rfl⟩ := (Operator.isValid_ofName op).mp hv
          exact .binary ho left right name
        · refine .wrong (f := .unknownOperator path op) ?_ ?_
          · simp [fault?, marks, hop, hv]
          · simp [build, hop, hv]
      · refine .wrong (f := .ambiguous path) ?_ ?_
        · have hm : (node op left right column name float int).marks ≠ 1 := by
            cases column <;> cases float <;> cases int <;> simp_all [marks]
          rw [fault?, if_pos hm]
        · cases column <;> cases float <;> cases int <;> simp_all [build]

/-- **Building fails with the fault of the first record that is wrong.** -/
theorem build_eq_error_iff {t : RawTree} {path : String} {f : DecodeFault} :
    t.build path = .error f ↔ t.firstFault path = some f := by
  induction t generalizing path f with
  | absent =>
    show Except.error (DecodeFault.missingNode path) = .error f ↔
      some (DecodeFault.missingNode path) = some f
    rw [Except.error.injEq, Option.some.injEq]
  | node op left right column name float int ihl ihr =>
    rw [firstFault_node]
    cases shape path (.node op left right column name float int) with
    | wrong hf hb => rw [hf, hb, Option.some_or, Except.error.injEq, Option.some.injEq]
    | column | float | int => exact iff_of_false nofun nofun
    | binary ho =>
      rw [fault?_binary ho, Option.none_or, if_neg (Operator.name_ne_empty ho), build_binary ho]
      cases hl : left.build (path ++ ".left") with
      | error e =>
        rw [ihl.mp hl, Option.some_or, Option.some.injEq]
        show Except.error e = .error f ↔ _
        rw [Except.error.injEq]
      | ok l =>
        have hnone : left.firstFault (path ++ ".left") = none := by
          refine Option.eq_none_iff_forall_ne_some.mpr fun e he => ?_
          rw [ihl.mpr he] at hl
          cases hl
        rw [hnone, Option.none_or, ← ihr]
        cases right.build (path ++ ".right") with
        | error e => rfl
        | ok r => exact iff_of_false nofun nofun

/-! ## reading -/

/-- an integer is read as the nearest double -/
theorem isNearest_int (i : Int64) : IsNearestDouble i.toInt (doubleOfInt i.toInt) := by
  have hlo := i.le_toInt
  have hhi := i.toInt_lt
  exact isNearest_doubleOfInt (by omega)

theorem Denotes.check {t : RawTree} {tree : Tree} (h : t.Denotes tree) : tree.check = .ok () := by
  induction h with
  | column h => exact if_neg (Int64.not_lt.mpr h)
  | float | int => rfl
  | binary ho _ _ hlk hrk _ ihl ihr =>
    exact Tree.check_binary_iff.mpr ⟨Operator.isValid_of_mem ho, ihl, hlk, ihr, hrk⟩

theorem Denotes.build {t : RawTree} {tree : Tree} (h : t.Denotes tree) (path : String) :
    t.build path = .ok tree := by
  induction h generalizing path with
  | column | float => rfl
  | int h =>
    rw [← (isNearest_int _).unique h]
    rfl
  | binary ho _ _ _ _ _ ihl ihr =>
    rw [build_binary ho, ihl, ihr]
    rfl

theorem denotes_of_build {t : RawTree} {path : String} {tree : Tree} (hb : t.build path = .ok tree)
    (hc : tree.check = .ok ()) : t.Denotes tree := by
  induction t generalizing path tree with
  | absent => cases hb
  | node op left right column name float int ihl ihr =>
    cases shape path (.node op left right column name float int) with
    | wrong hf he =>
      rw [he] at hb
      cases hb
    | column i =>
      cases hb
      have h0 : 0 ≤ i := by
        refine Int64.not_lt.mp fun hi => ?_
        rw [Tree.check, if_pos hi] at hc
        cases hc
      exact .column h0 left right name
    | float bits =>
      cases hb
      exact .float bits left right name
    | int i =>
      cases hb
      exact .int (isNearest_int i) left right name
    | binary ho =>
      rw [build_binary ho] at hb
      obtain ⟨l, hl, hb⟩ := SSA.bind_eq_ok.mp hb
      obtain ⟨r, hr, hb⟩ := SSA.bind_eq_ok.mp hb
      cases hb
      obtain ⟨-, hlc, hlk, hrc, hrk⟩ := Tree.check_binary hc
      exact .binary ho (ihl hl hlc) (ihr hr hrc) hlk hrk name

theorem read_of_check {t : RawTree} {tree : Tree} (hb : t.build "$" = .ok tree)
    (hc : tree.check = .ok ()) : t.read = .ok tree := by
  simp only [read, hb, hc, bind, Except.bind]
  rfl

theorem read_of_check_error {t : RawTree} {tree : Tree} {e : TreeFault}
    (hb : t.build "$" = .ok tree) (hc : tree.check = .error e) : t.read = .error (.tree e) := by
  simp only [read, hb, hc, bind, Except.bind]
  rfl

/-- **Reading gives the tree that a record stands for**, and nothing if it stands for none. -/
theorem read_eq_ok_iff {t : RawTree} {tree : Tree} : t.read = .ok tree ↔ t.Denotes tree := by
  constructor
  · intro h
    obtain ⟨tree', hb, -⟩ := SSA.bind_eq_ok.mp h
    cases hc : tree'.check with
    | error e =>
      rw [read_of_check_error hb hc] at h
      cases h
    | ok u =>
      rw [read_of_check hb hc] at h
      cases h
      exact denotes_of_build hb hc
  · intro h
    exact read_of_check (h.build "$") h.check

/-! ## what is accepted -/

theorem Denotes.kind_eq_float_iff {t : RawTree} {tree : Tree} (h : t.Denotes tree) :
    tree.kind = .float ↔ ¬ t.Compares := by
  cases h with
  | column | float | int =>
    exact iff_of_true rfl (show ¬ ∃ c ∈ SSA.FloatCond.all, c.name = "" by decide)
  | @binary o _ _ _ _ ho =>
    show (if o.isCompare then Kind.bool else .float) = .float ↔
      ¬ ∃ c ∈ SSA.FloatCond.all, c.name = o.name
    rw [← Operator.isCompare_iff ho]
    cases o.isCompare <;> decide

theorem misshapen_iff {t : RawTree} (path : String) : t.Misshapen ↔ (t.fault? path).isSome = true := by
  cases t with
  | absent => exact iff_of_true (.inl Nat.zero_ne_one) rfl
  | node op left right column name float int =>
    have hv : (Operator.ofName op).isValid = false ↔ ∀ o ∈ Operator.all, o.name ≠ op := by
      rw [← Bool.not_eq_true, Operator.isValid_ofName]
      simp only [not_exists, not_and]
    rw [fault?_node]
    split
    · rename_i hm
      exact iff_of_true (.inl hm) rfl
    · rename_i hm
      split
      · rename_i hu
        exact iff_of_true (.inr ⟨hu.1, hv.mp hu.2⟩) rfl
      · rename_i hu
        exact iff_of_false (not_or.mpr ⟨hm, fun h => hu ⟨h.1, hv.mpr h.2⟩⟩) nofun

theorem Fits.not_misshapen {t : RawTree} (h : t.Fits) : ¬ t.Misshapen := by
  rintro (hm | ⟨hop, hu⟩)
  · exact hm h.single
  · obtain ⟨o, ho, e⟩ := h.known hop
    exact hu o ho e

theorem Denotes.fits {t : RawTree} {tree : Tree} (h : t.Denotes tree) : t.Fits := by
  cases h with
  | column h0 =>
    refine ⟨rfl, absurd rfl, absurd rfl, absurd rfl, fun i hi => ?_⟩
    cases hi
    exact h0
  | float | int => exact ⟨rfl, absurd rfl, absurd rfl, absurd rfl, nofun⟩
  | @binary o left right l r ho hl hr hlk hrk name =>
    refine ⟨?_, fun _ => ⟨o, ho, rfl⟩, fun _ s => ?_, fun _ s => ?_, nofun⟩
    · simp [marks, Operator.name_ne_empty ho]
    · cases s with
      | left =>
        rintro rfl
        cases hl
      | right =>
        rintro rfl
        cases hr
    · cases s with
      | left => exact hl.kind_eq_float_iff.mp hlk
      | right => exact hr.kind_eq_float_iff.mp hrk

theorem forall_mem_nodes {op name : String} (h : op ≠ "") {left right : RawTree}
    {column int : Option Int64} {float : Option UInt64} {P : RawTree → Prop} :
    (∀ p ∈ (node op left right column name float int).nodes, P p.2) ↔
      P (.node op left right column name float int) ∧ (∀ p ∈ left.nodes, P p.2) ∧
        ∀ p ∈ right.nodes, P p.2 := by
  rw [nodes, if_neg h, List.forall_mem_cons, List.forall_mem_append, List.forall_mem_map,
    List.forall_mem_map]
  rfl

theorem Denotes.fits_nodes {t : RawTree} {tree : Tree} (h : t.Denotes tree) :
    ∀ p ∈ t.nodes, p.2.Fits := by
  induction h with
  | column h0 left right name =>
    exact List.forall_mem_singleton.mpr (Denotes.column h0 left right name).fits
  | float bits left right name =>
    exact List.forall_mem_singleton.mpr (Denotes.float bits left right name).fits
  | int h left right name => exact List.forall_mem_singleton.mpr (Denotes.int h left right name).fits
  | binary ho hl hr hlk hrk name ihl ihr =>
    exact (forall_mem_nodes (Operator.name_ne_empty ho)).mpr
      ⟨(Denotes.binary ho hl hr hlk hrk name).fits, ihl, ihr⟩

/-- **The grammar**: a record stands for a tree if every record that is reached fits. -/
theorem exists_denotes_iff {t : RawTree} : (∃ tree, t.Denotes tree) ↔ ∀ p ∈ t.nodes, p.2.Fits := by
  constructor
  · rintro ⟨tree, h⟩
    exact h.fits_nodes
  · intro h
    induction t with
    | absent => exact absurd (h _ List.mem_cons_self).single Nat.zero_ne_one
    | node op left right column name float int ihl ihr =>
      have hfits : (node op left right column name float int).Fits := h _ List.mem_cons_self
      cases shape "" (.node op left right column name float int) with
      | wrong hf =>
        refine absurd ((misshapen_iff "").mpr ?_) hfits.not_misshapen
        rw [hf]
        rfl
      | column i => exact ⟨_, .column (hfits.column i rfl) left right name⟩
      | float bits => exact ⟨_, .float bits left right name⟩
      | int i => exact ⟨_, .int (isNearest_int i) left right name⟩
      | binary ho =>
        have hne := Operator.name_ne_empty ho
        obtain ⟨-, hl, hr⟩ := (forall_mem_nodes hne).mp h
        obtain ⟨l, hl⟩ := ihl hl
        obtain ⟨r, hr⟩ := ihr hr
        have hlk := hl.kind_eq_float_iff.mpr (hfits.numbers hne .left)
        have hrk := hr.kind_eq_float_iff.mpr (hfits.numbers hne .right)
        exact ⟨_, .binary ho hl hr hlk hrk name⟩

/-! ## what is refused -/

theorem message_of_fault {t : RawTree} {path : String} {f : DecodeFault} (h : t.fault? path = some f) :
    ∃ kind detail, f.kind? = some kind ∧ f.message = kind.text ++ ": " ++ path ++ ": " ++ detail := by
  cases t with
  | absent =>
    cases h
    refine ⟨.invalid, "missing node", rfl, ?_⟩
    show _ ++ (": " ++ "missing node") = _
    rw [← String.append_assoc]
  | node op left right column name float int =>
    rw [fault?_node] at h
    split at h
    · cases h
      refine ⟨.invalid, "node needs exactly one of op, column, float, int", rfl, ?_⟩
      show _ ++ (": " ++ "node needs exactly one of op, column, float, int") = _
      rw [← String.append_assoc]
    · split at h
      · cases h
        exact ⟨.unknownOperator, quoted op, rfl, rfl⟩
      · cases h

theorem build_error {t : RawTree} {path : String} {f : DecodeFault} (h : t.build path = .error f) :
    ∃ (before : List (List Side × RawTree)) (place : List Side) (node : RawTree)
      (after : List (List Side × RawTree)) (kind : TreeFaultKind) (detail : String),
      t.nodes = before ++ (place, node) :: after ∧ (∀ p ∈ before, ¬ p.2.Misshapen) ∧
      node.Misshapen ∧ f.kind? = some kind ∧
      f.message = kind.text ++ ": " ++ pathFrom path place ++ ": " ++ detail := by
  obtain ⟨before, ⟨place, node⟩, after, hnodes, hf, hbefore⟩ :=
    List.findSome?_eq_some_iff.mp (build_eq_error_iff.mp h)
  obtain ⟨kind, detail, hk, hm⟩ := message_of_fault hf
  refine ⟨before, place, node, after, kind, detail, hnodes, fun p hp => ?_, ?_, hk, hm⟩
  · rw [misshapen_iff (pathFrom path p.1), hbefore p hp]
    exact nofun
  · rw [misshapen_iff (pathFrom path place), hf]
    rfl

theorem read_error {t : RawTree} {f : DecodeFault} (h : t.read = .error f) :
    t.build "$" = .error f ∨ ∃ tree e, t.build "$" = .ok tree ∧ tree.check = .error e ∧ f = .tree e := by
  cases hb : t.build "$" with
  | error e =>
    rw [read, hb] at h
    exact .inl h
  | ok tree =>
    cases hc : tree.check with
    | ok u =>
      rw [read_of_check hb hc] at h
      cases h
    | error e =>
      rw [read_of_check_error hb hc] at h
      exact .inr ⟨tree, e, rfl, hc, (Except.error.inj h).symm⟩

/-- **Reading accepts exactly the grammar.**  A record is read if every record that is reached
through operators has exactly one of operator, column, float and integer, every operator exists and
has both operands, no operand compares, and no column is negative.  The tree is the one that the
record stands for, so that other fields of leaves have no part in it.  What is refused is an unknown
operator or an invalid tree, and a fault of building names the first record that is wrong in itself. -/
theorem read_grammar (t : RawTree) :
    ((∃ tree, t.read = .ok tree) ↔ ∀ p ∈ t.nodes, p.2.Fits) ∧
    (∀ tree, t.read = .ok tree ↔ t.Denotes tree) ∧
    (∀ f, t.read = .error f → f.kind? = some .unknownOperator ∨ f.kind? = some .invalid) ∧
    ∀ f, t.build "$" = .error f → t.read = .error f ∧
      ∃ before place node after kind detail, t.nodes = before ++ (place, node) :: after ∧
        (∀ p ∈ before, ¬ p.2.Misshapen) ∧ node.Misshapen ∧ f.kind? = some kind ∧
        f.message = kind.text ++ ": " ++ pathFrom "$" place ++ ": " ++ detail := by
  refine ⟨?accepted, fun tree => read_eq_ok_iff, ?kinds, fun f hb => ⟨?_, build_error hb⟩⟩
  case accepted =>
    simp only [read_eq_ok_iff]
    exact exists_denotes_iff
  case kinds =>
    intro f h
    rcases read_error h with hb | ⟨tree, e, -, -, rfl⟩
    · obtain ⟨-, -, -, -, kind, -, -, -, -, hk, -⟩ := build_error hb
      rw [hk]
      cases kind <;> simp
    · show some e.kind = _ ∨ some e.kind = _
      cases e.kind <;> simp
  · rw [read, hb]
    rfl

end RawTree

/-- **A YAML text is read if it holds a record of the grammar.** -/
theorem Tree.decode_eq_ok_iff {text : List UInt8} {tree : Tree} : Tree.decode text = .ok tree ↔
    ∃ doc fields, Yaml.parse text = .ok (some doc) ∧ doc.record RawTree.schema = .ok fields ∧
      (RawTree.ofFields .blank fields).Denotes tree := by
  unfold decode
  rw [SSA.bind_eq_ok]
  constructor
  · rintro ⟨doc?, hp, h⟩
    cases doc? with
    | none => cases h
    | some doc =>
      obtain ⟨fields, hr, h⟩ := SSA.bind_eq_ok.mp h
      exact ⟨doc, fields, mapError_eq_ok.mp hp, mapError_eq_ok.mp hr, RawTree.read_eq_ok_iff.mp h⟩
  · rintro ⟨doc, fields, hp, hr, h⟩
    refine ⟨some doc, ?_, ?_⟩
    · rw [hp]
      rfl
    · show (do let fields ← (doc.record RawTree.schema).mapError DecodeFault.yaml; _) = _
      rw [hr]
      exact RawTree.read_eq_ok_iff.mpr h

end TreeJit
