import TreeJit.Compile.Backend
import TreeJit.Proofs.Compile.Blocks

/-!
# Compiled instructions are encoded alike wherever they stand

Only padding looks at its offset (`Instr.isFixed`).  Neither machine makes padding of a step: whatever
a step is lowered to, its lines hold fixed instructions, and the one label they may mark is that inside
a conditional branch (`X64.lowerStep_holds`, `A64.lowerStep_holds`).  This asks for no well-formed
function, and says nothing about instructions that are refused.
-/

namespace TreeJit

def X64.Instr.isFixed : X64.Instr → Bool
  | .align _ => false
  | _ => true

def A64.Instr.isFixed : A64.Instr → Bool
  | .align _ => false
  | _ => true

theorem X64.Instr.encode_fixed {i : X64.Instr} (h : i.isFixed = true) (pos pos' : Nat) :
    i.encode pos = i.encode pos' := by
  cases i with
  | align n => cases h
  | _ => rfl

theorem A64.Instr.encode_fixed {i : A64.Instr} (h : i.isFixed = true) (pos pos' : Nat) :
    i.encode pos = i.encode pos' := by
  cases i with
  | align n => cases h
  | _ => rfl

end TreeJit

namespace TreeJit.Compile

open SSA

section
variable {ι : Type} {P : ι → Prop}

/-- lines that mark some labels and hold instructions of a kind -/
abbrev Holds (P : ι → Prop) (lines : List (Line ι)) (marks : List String) : Prop :=
  Describes (fun _ => none) (fun _ => none) P (fun _ => True) lines marks []

theorem holds_code {p : ι → Bool} {is : List ι} (h : is.all p = true) :
    Holds (fun i => p i = true) (is.map Line.instr) [] :=
  .code (List.all_eq_true.mp h) (fun _ _ => rfl) fun _ _ => rfl

end

/-! ## x86-64 -/

namespace X64

open TreeJit.X64

section
variable (c : Ctx)

@[simp] theorem fixed_normalize (r : RegId) (t : Ty) : (normalize r t).all Instr.isFixed = true := by
  cases t <;> rfl

@[simp] theorem fixed_copy (t : Ty) (dst src : Mem) : (copy t dst src).all Instr.isFixed = true := by
  unfold copy
  split <;> rfl

@[simp] theorem fixed_spill (ints : List RegId) (v : ValueNo) (loc : RegLoc) :
    (c.spill ints v loc).all Instr.isFixed = true := by
  unfold Ctx.spill
  cases loc.file with
  | int =>
    show (normalize _ _ ++ [_]).all Instr.isFixed = true
    rw [List.all_append, fixed_normalize]
    rfl
  | float => rfl

@[simp] theorem fixed_unspill (ints : List RegId) (t : Ty) (v : ValueNo) (loc : RegLoc) :
    (c.unspill ints t v loc).isFixed = true := by
  unfold Ctx.unspill
  cases loc.file <;> rfl

@[simp] theorem fixed_loadFrom (t : Ty) (mem : Mem) (dst : ValueNo) :
    (c.loadFrom t mem dst).all Instr.isFixed = true := by
  unfold Ctx.loadFrom
  split <;> rfl

@[simp] theorem fixed_storeTo (t : Ty) (mem : Mem) (src : ValueNo) :
    (c.storeTo t mem src).all Instr.isFixed = true := by
  unfold Ctx.storeTo
  split <;> rfl

theorem fixed_scalarIntOp {op : BinOp} {i : Instr} (h : scalarIntOp? op = some i) :
    i.isFixed = true := by
  cases op <;> cases h <;> rfl

theorem fixed_binary {op : BinOp} {t : Ty} {x y dst : ValueNo} {is : List Instr}
    (h : c.binary op t x y dst = .ok is) : is.all Instr.isFixed = true := by
  unfold Ctx.binary at h
  split at h
  · split at h
    · rename_i i hi
      cases h
      rw [List.all_append, List.all_append, fixed_normalize]
      show ((i.isFixed && true) && true && true) = true
      rw [fixed_scalarIntOp hi]
      rfl
    · cases h
  · split at h
    · cases h
      rfl
    · cases h

@[simp] theorem fixed_icmp (cc : IntCond) (t : Ty) (x y dst : ValueNo) :
    (c.icmp cc t x y dst).all Instr.isFixed = true := by
  unfold Ctx.icmp
  by_cases h : t = .i32
  · rw [if_pos h]
    rfl
  · rw [if_neg h]
    rfl

@[simp] theorem fixed_scalarCompare (op : SseOp) (cc : FloatCond) :
    (scalarCompare op cc).all Instr.isFixed = true := by
  cases cc <;> rfl

@[simp] theorem fixed_fcmp (cc : FloatCond) (t : Ty) (x y dst : ValueNo) :
    (c.fcmp cc t x y dst).all Instr.isFixed = true := by
  unfold Ctx.fcmp
  split
  · cases cc <;> rfl
  · rw [List.all_append, List.all_append, fixed_scalarCompare]
    rfl

theorem fixed_splat {t : Ty} {x dst : ValueNo} {is : List Instr} (h : c.splat t x dst = .ok is) :
    is.all Instr.isFixed = true := by
  unfold Ctx.splat at h
  split at h <;> cases h <;> rfl

theorem fixed_call {fn : Nat} {args results : List ValueNo} {is : List Instr}
    (h : c.call fn args results = .ok is) : is.all Instr.isFixed = true := by
  obtain ⟨ins, -, h⟩ := bind_eq_ok.mp h
  obtain ⟨outs, -, h⟩ := bind_eq_ok.mp h
  cases h
  rw [List.all_append, List.all_append, List.all_map, List.all_flatMap, Bool.and_eq_true,
    Bool.and_eq_true]
  refine ⟨⟨?_, rfl⟩, ?_⟩
  · exact List.all_eq_true.mpr fun _ _ => fixed_unspill c _ _ _ _
  · exact List.all_eq_true.mpr fun _ _ => fixed_spill c _ _ _

@[simp] theorem fixed_transfer (t : Target) : (c.transfer t).all Instr.isFixed = true := by
  unfold Ctx.transfer
  rw [List.all_append, List.all_flatten, List.all_flatten, Bool.and_eq_true, List.all_eq_true,
    List.all_eq_true]
  refine ⟨fun is his => ?_, fun is his => ?_⟩
  · obtain ⟨k, hk, rfl⟩ := List.mem_mapIdx.mp his
    exact fixed_copy _ _ _
  · obtain ⟨k, hk, rfl⟩ := List.mem_mapIdx.mp his
    exact fixed_copy _ _ _

@[simp] theorem fixed_ret (args : List ValueNo) : (c.ret args).all Instr.isFixed = true := by
  unfold Ctx.ret
  rw [List.all_append, List.all_map, Bool.and_eq_true, List.all_eq_true]
  exact ⟨fun _ _ => fixed_unspill c _ _ _ _, rfl⟩

@[simp] theorem fixed_prologue (fr : Frame) : (prologue fr).all Instr.isFixed = true := by
  unfold prologue
  split <;> rfl

theorem holds_goto (t : Target) : Holds (fun i => Instr.isFixed i = true) (c.goto t) [] := by
  refine holds_code ?_
  rw [List.all_append, fixed_transfer]
  rfl

theorem holds_brif (b : Nat) (cond : ValueNo) (yes no : Target) :
    Holds (fun i => Instr.isFixed i = true) (c.brif b cond yes no) [elseLabel b] :=
  (((holds_code rfl).append (holds_goto c yes)).append (.mark (elseLabel b))).append (holds_goto c no)

/-- **The lines of a step**: fixed instructions, and the label inside a conditional branch -/
theorem lowerStep_holds {b : Nat} {s : Step} {ls : List (Line Instr)} (h : c.lowerStep b s = .ok ls) :
    Holds (fun i => i.isFixed = true) ls (elsesOf b s) := by
  obtain ⟨inst, results⟩ := s
  cases inst with
  | iconst | fconst | stackAddr =>
    cases h
    exact holds_code rfl
  | binary =>
    obtain ⟨is, his, rfl⟩ := map_eq_ok.mp h
    exact holds_code (fixed_binary c his)
  | splat =>
    obtain ⟨is, his, rfl⟩ := map_eq_ok.mp h
    exact holds_code (fixed_splat c his)
  | call =>
    obtain ⟨is, his, rfl⟩ := map_eq_ok.mp h
    exact holds_code (fixed_call c his)
  | icmp =>
    cases h
    exact holds_code (fixed_icmp c _ _ _ _ _)
  | fcmp =>
    cases h
    exact holds_code (fixed_fcmp c _ _ _ _ _)
  | extractLane =>
    cases h
    exact holds_code (fixed_copy _ _ _)
  | load =>
    cases h
    exact holds_code (fixed_loadFrom c _ _ _)
  | store =>
    cases h
    exact holds_code (fixed_storeTo c _ _ _)
  | stackLoad =>
    cases h
    exact holds_code (fixed_loadFrom c _ _ _)
  | stackStore =>
    cases h
    exact holds_code (fixed_storeTo c _ _ _)
  | jump t =>
    cases h
    exact holds_goto c t
  | brif t cond yes no =>
    cases h
    exact holds_brif c b cond yes no
  | ret =>
    cases h
    exact holds_code (fixed_ret c _)

end

end X64

/-! ## AArch64 -/

namespace A64

open TreeJit.A64

section
variable (c : Ctx) {g : Mem → Instr}

theorem fixed_spAccess (h : ∀ m, (g m).isFixed = true) (disp : Int32) (n : Nat) :
    (spAccess disp n g).all Instr.isFixed = true := by
  have hone : ∀ m, [g m].all Instr.isFixed = true := fun m => by
    rw [List.all_cons, h]
    rfl
  unfold spAccess
  split
  · exact hone _
  · exact hone _

theorem fixed_ptrAccess (h : ∀ m, (g m).isFixed = true) (base : RegId) (disp : Int32) (n : Nat) :
    (ptrAccess base disp n g).all Instr.isFixed = true := by
  have hone : ∀ m, [g m].all Instr.isFixed = true := fun m => by
    rw [List.all_cons, h]
    rfl
  unfold ptrAccess
  split
  · exact hone _
  · exact hone _

@[simp] theorem fixed_normalize (r : RegId) (t : Ty) : (normalize r t).all Instr.isFixed = true := by
  cases t <;> rfl

@[simp] theorem fixed_loadInt (r : RegId) (v : ValueNo) :
    (c.loadInt r v).all Instr.isFixed = true := by
  unfold Ctx.loadInt Ctx.atHome
  exact fixed_spAccess (fun _ => rfl) _ _

@[simp] theorem fixed_storeInt (v : ValueNo) (r : RegId) :
    (c.storeInt v r).all Instr.isFixed = true := by
  unfold Ctx.storeInt Ctx.atHome
  exact fixed_spAccess (fun _ => rfl) _ _

@[simp] theorem fixed_loadFloat (x : VReg) (v : ValueNo) :
    (c.loadFloat x v).all Instr.isFixed = true := by
  unfold Ctx.loadFloat Ctx.atHome
  exact fixed_spAccess (fun _ => rfl) _ _

@[simp] theorem fixed_storeFloat (v : ValueNo) (x : VReg) :
    (c.storeFloat v x).all Instr.isFixed = true := by
  unfold Ctx.storeFloat Ctx.atHome
  exact fixed_spAccess (fun _ => rfl) _ _

@[simp] theorem fixed_copy (t : Ty) (dst src : Int32) : (copy t dst src).all Instr.isFixed = true := by
  unfold copy
  split
  · rw [List.all_append, fixed_spAccess (fun _ => rfl), fixed_spAccess fun _ => rfl]
    rfl
  · rw [List.all_append, fixed_spAccess (fun _ => rfl), fixed_spAccess fun _ => rfl]
    rfl

@[simp] theorem fixed_spill (v : ValueNo) (loc : RegLoc) : (c.spill v loc).all Instr.isFixed = true := by
  unfold Ctx.spill
  cases loc.file <;> simp

@[simp] theorem fixed_unspill (v : ValueNo) (loc : RegLoc) :
    (c.unspill v loc).all Instr.isFixed = true := by
  unfold Ctx.unspill
  cases loc.file <;> simp

/-- a way to make an access that adds fixed instructions only -/
def Fixes (place : Nat → (Mem → Instr) → List Instr) : Prop :=
  ∀ n access, (∀ m, (access m).isFixed = true) → (place n access).all Instr.isFixed = true

theorem fixed_loadFrom (t : Ty) {place : Nat → (Mem → Instr) → List Instr} (hp : Fixes place)
    (dst : ValueNo) : (c.loadFrom t place dst).all Instr.isFixed = true := by
  unfold Ctx.loadFrom
  by_cases h : t.bytes = 16
  · rw [if_pos h, List.all_append, hp _ _ fun _ => rfl, fixed_storeFloat]
    rfl
  · rw [if_neg h, List.all_append, hp _ _ fun _ => rfl, fixed_storeInt]
    rfl

theorem fixed_storeTo (t : Ty) {place : Nat → (Mem → Instr) → List Instr} (hp : Fixes place)
    (src : ValueNo) : (c.storeTo t place src).all Instr.isFixed = true := by
  unfold Ctx.storeTo
  by_cases h : t.bytes = 16
  · rw [if_pos h, List.all_append, hp _ _ fun _ => rfl, fixed_loadFloat]
    rfl
  · rw [if_neg h, List.all_append, hp _ _ fun _ => rfl, fixed_loadInt]
    rfl

theorem fixed_floatOrVector {op : BinOp} {t : Ty} {i : Instr} (h : floatOrVector? op t = some i) :
    i.isFixed = true := by
  unfold floatOrVector? at h
  split at h <;> obtain ⟨o, -, rfl⟩ := Option.map_eq_some_iff.mp h <;> rfl

theorem fixed_binary {op : BinOp} {t : Ty} {x y dst : ValueNo} {is : List Instr}
    (h : c.binary op t x y dst = .ok is) : is.all Instr.isFixed = true := by
  unfold Ctx.binary at h
  split at h
  · split at h
    · cases h
      simp [Instr.isFixed]
    · cases h
  · split at h
    · rename_i i hi
      cases h
      simp [fixed_floatOrVector hi]
    · cases h

@[simp] theorem fixed_icmp (cc : IntCond) (t : Ty) (x y dst : ValueNo) :
    (c.icmp cc t x y dst).all Instr.isFixed = true := by
  unfold Ctx.icmp
  by_cases h : t = .i32
  · simp [h, Instr.isFixed]
  · simp [h, Instr.isFixed]

@[simp] theorem fixed_laneCompare (cc : FloatCond) : (laneCompare cc).all Instr.isFixed = true := by
  cases cc <;> rfl

@[simp] theorem fixed_fcmp (cc : FloatCond) (t : Ty) (x y dst : ValueNo) :
    (c.fcmp cc t x y dst).all Instr.isFixed = true := by
  unfold Ctx.fcmp
  split <;> simp [Instr.isFixed]

theorem fixed_splat {t : Ty} {x dst : ValueNo} {is : List Instr} (h : c.splat t x dst = .ok is) :
    is.all Instr.isFixed = true := by
  unfold Ctx.splat at h
  split at h <;> cases h <;> simp [Instr.isFixed]

theorem fixed_call {fn : Nat} {args results : List ValueNo} {is : List Instr}
    (h : c.call fn args results = .ok is) : is.all Instr.isFixed = true := by
  obtain ⟨ins, -, h⟩ := bind_eq_ok.mp h
  obtain ⟨outs, -, h⟩ := bind_eq_ok.mp h
  cases h
  simp [Instr.isFixed]

@[simp] theorem fixed_transfer (t : Target) : (c.transfer t).all Instr.isFixed = true := by
  unfold Ctx.transfer
  rw [List.all_append, List.all_flatten, List.all_flatten, Bool.and_eq_true, List.all_eq_true,
    List.all_eq_true]
  refine ⟨fun is his => ?_, fun is his => ?_⟩
  · obtain ⟨k, hk, rfl⟩ := List.mem_mapIdx.mp his
    exact fixed_copy _ _ _
  · obtain ⟨k, hk, rfl⟩ := List.mem_mapIdx.mp his
    exact fixed_copy _ _ _

@[simp] theorem fixed_ret (args : List ValueNo) : (c.ret args).all Instr.isFixed = true := by
  simp [Ctx.ret, Instr.isFixed]

@[simp] theorem fixed_stackAddr (off : Int32) (dst : ValueNo) :
    (c.stackAddr off dst).all Instr.isFixed = true := by
  unfold Ctx.stackAddr
  split <;> simp [Instr.isFixed]

@[simp] theorem fixed_prologue (fr : Frame) : (prologue fr).all Instr.isFixed = true := by
  unfold prologue
  simp only
  split <;> split <;> rfl

theorem holds_goto (t : Target) : Holds (fun i => Instr.isFixed i = true) (c.goto t) [] := by
  refine holds_code ?_
  rw [List.all_append, fixed_transfer]
  rfl

theorem holds_brif (b : Nat) (cond : ValueNo) (yes no : Target) :
    Holds (fun i => Instr.isFixed i = true) (c.brif b cond yes no) [elseLabel b] := by
  have htest : (c.loadInt scratch0 cond ++ [Instr.jumpIfZero (.x scratch0) (elseLabel b)]).all
      Instr.isFixed = true := by
    rw [List.all_append, fixed_loadInt]
    rfl
  exact (((holds_code htest).append (holds_goto c yes)).append (.mark (elseLabel b))).append
    (holds_goto c no)

/-- **The lines of a step**: fixed instructions, and the label inside a conditional branch -/
theorem lowerStep_holds {b : Nat} {s : Step} {ls : List (Line Instr)} (h : c.lowerStep b s = .ok ls) :
    Holds (fun i => i.isFixed = true) ls (elsesOf b s) := by
  obtain ⟨inst, results⟩ := s
  have hsp : ∀ disp, Fixes (spAccess disp) := fun disp n _ h => fixed_spAccess h disp n
  have hptr : ∀ base disp, Fixes (ptrAccess base disp) := fun base disp n _ h =>
    fixed_ptrAccess h base disp n
  cases inst with
  | iconst | fconst =>
    cases h
    refine holds_code ?_
    rw [List.all_cons, fixed_storeInt]
    rfl
  | binary =>
    obtain ⟨is, his, rfl⟩ := map_eq_ok.mp h
    exact holds_code (fixed_binary c his)
  | splat =>
    obtain ⟨is, his, rfl⟩ := map_eq_ok.mp h
    exact holds_code (fixed_splat c his)
  | call =>
    obtain ⟨is, his, rfl⟩ := map_eq_ok.mp h
    exact holds_code (fixed_call c his)
  | icmp =>
    cases h
    exact holds_code (fixed_icmp c _ _ _ _ _)
  | fcmp =>
    cases h
    exact holds_code (fixed_fcmp c _ _ _ _ _)
  | extractLane =>
    cases h
    exact holds_code (fixed_copy _ _ _)
  | load =>
    cases h
    refine holds_code ?_
    rw [List.all_append, fixed_loadInt, fixed_loadFrom c _ (hptr _ _)]
    rfl
  | store =>
    cases h
    refine holds_code ?_
    rw [List.all_append, fixed_loadInt, fixed_storeTo c _ (hptr _ _)]
    rfl
  | stackLoad =>
    cases h
    exact holds_code (fixed_loadFrom c _ (hsp _) _)
  | stackStore =>
    cases h
    exact holds_code (fixed_storeTo c _ (hsp _) _)
  | stackAddr =>
    cases h
    exact holds_code (fixed_stackAddr c _ _)
  | jump t =>
    cases h
    exact holds_goto c t
  | brif t cond yes no =>
    cases h
    exact holds_brif c b cond yes no
  | ret =>
    cases h
    exact holds_code (fixed_ret c _)

end

end A64

end TreeJit.Compile
