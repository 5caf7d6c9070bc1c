import Mathlib.Data.Finset.Card
import TreeJit.Proofs.Predicate.Agreement
import TreeJit.Proofs.Predicate.Making

/-!
# When a predicate is compiled

In an idle unit that offers the built-in operations nothing stands between a truth-valued tree that
passes its check and its two functions but the registers of the vector function: four for array
columns and eight for scalar columns (`compile_done_iff`).

* `arrayColumns`, `scalarColumns`   the columns of a tree, split by the given scalars;
* `admits_vectorSig`                the registers of the vector function;
* `Prepared`                        units in which both functions can be declared and placed.
-/

namespace TreeJit.Predicate

open SSA Emit Host

/-! ## columns -/

theorem nodup_eraseDups (xs : List Int) : xs.eraseDups.Nodup := by
  cases xs with
  | nil => exact List.nodup_nil
  | cons x xs =>
    rw [List.eraseDups_cons]
    refine List.nodup_cons.mpr ⟨fun hx => ?_, nodup_eraseDups _⟩
    rw [List.mem_eraseDups, List.mem_filter] at hx
    simp at hx
termination_by xs.length
decreasing_by exact Nat.lt_succ_of_le (List.length_filter_le _ _)

theorem nodup_sortedDistinct (xs : List Int) : (sortedDistinct xs).Nodup :=
  (List.mergeSort_perm _ _).nodup_iff.mpr (nodup_eraseDups xs)

def arrayColumns (t : Tree) (scalars : List Int) : List Int :=
  (sortedDistinct (t.columns.map Int64.toInt)).filter (not ∘ fun c => scalars.contains c)

def scalarColumns (t : Tree) (scalars : List Int) : List Int :=
  (sortedDistinct (t.columns.map Int64.toInt)).filter fun c => scalars.contains c

def columnSet (t : Tree) : Finset Int := (t.columns.map Int64.toInt).toFinset

theorem length_filter_sortedDistinct (xs : List Int) (p : Int → Bool) :
    ((sortedDistinct xs).filter p).length = (xs.toFinset.filter fun c => p c = true).card := by
  rw [← List.toFinset_card_of_nodup ((nodup_sortedDistinct xs).filter p)]
  congr 1
  ext c
  simp [mem_sortedDistinct]

theorem length_arrayColumns (t : Tree) (scalars : List Int) :
    (arrayColumns t scalars).length = ((columnSet t).filter (· ∉ scalars)).card := by
  rw [arrayColumns, length_filter_sortedDistinct]
  congr 1
  ext c
  simp [columnSet]

theorem length_scalarColumns (t : Tree) (scalars : List Int) :
    (scalarColumns t scalars).length = ((columnSet t).filter (· ∈ scalars)).card := by
  rw [scalarColumns, length_filter_sortedDistinct]
  congr 1
  ext c
  simp [columnSet]

theorem arrayColumns_eq_nil {t : Tree} {scalars : List Int} :
    arrayColumns t scalars = [] ↔ ∀ c ∈ columnSet t, c ∈ scalars := by
  rw [← List.length_eq_zero_iff, length_arrayColumns, Finset.card_eq_zero, Finset.filter_eq_empty_iff]
  exact forall₂_congr fun c _ => Classical.not_not

theorem mem_columns (t : Tree) (scalars : List Int) :
    ∀ c ∈ t.columns, c.toInt ∈ arrayColumns t scalars ++ scalarColumns t scalars := by
  intro c hc
  have hm : c.toInt ∈ sortedDistinct (t.columns.map Int64.toInt) :=
    mem_sortedDistinct.mpr (List.mem_map_of_mem hc)
  rw [List.mem_append, arrayColumns, scalarColumns, List.mem_filter, List.mem_filter]
  by_cases hs : scalars.contains c.toInt = true
  · exact .inr ⟨hm, hs⟩
  · exact .inl ⟨hm, by simpa using hs⟩

/-! ## what is checked first -/

/-- a truth-valued tree in which every given scalar column occurs -/
structure Suits (t : Tree) (scalars : List Int) : Prop where
  check : t.check = .ok ()
  kind : t.kind = .bool
  used : ∀ c ∈ scalars, c ∈ columnSet t

theorem check_ok_iff {t : Tree} {scalars : List Int} :
    Predicate.check t scalars = .ok () ↔ Suits t scalars := by
  unfold Predicate.check
  cases ht : t.check with
  | error f => exact ⟨nofun, fun h => nomatch ht.symm.trans h.check⟩
  | ok =>
    by_cases hk : t.kind = .bool
    · rw [if_neg (Classical.not_not.mpr hk)]
      simp only
      cases hf : scalars.find? fun c => !(t.columns.map Int64.toInt).contains c with
      | some c =>
        refine ⟨nofun, fun h => ?_⟩
        have hno := List.find?_some hf
        have hc := h.used c (List.mem_of_find?_eq_some hf)
        simp [columnSet] at hno hc
        obtain ⟨x, hx, rfl⟩ := hc
        exact absurd rfl (hno x hx)
      | none =>
        refine ⟨fun _ => ⟨ht, hk, fun c hc => ?_⟩, fun _ => rfl⟩
        have := List.find?_eq_none.mp hf c hc
        simpa [columnSet] using this
    · rw [if_pos hk]
      exact ⟨nofun, fun h => absurd h.kind hk⟩

/-! ## registers -/

/-- **The vector function has registers for four arrays and eight scalars.** -/
theorem admits_vectorSig (arrays scalars : List Int) :
    Compile.X64.paramLimits.Admits (vectorSig arrays scalars).params ↔
      arrays.length ≤ 4 ∧ scalars.length ≤ 8 := by
  have hint : regCount .int (vectorSig arrays scalars).params = arrays.length + 2 := by
    unfold regCount vectorSig
    rw [List.countP_append, List.countP_append, List.countP_replicate, List.countP_map]
    have hz : scalars.countP ((fun t : Ty => decide (t.regClass = .int)) ∘ fun _ => Ty.f64) = 0 :=
      List.countP_eq_zero.mpr fun _ _ => Bool.false_ne_true
    rw [hz]
    rfl
  have hfloat : regCount .float (vectorSig arrays scalars).params = scalars.length := by
    unfold regCount vectorSig
    rw [List.countP_append, List.countP_append, List.countP_replicate, List.countP_map]
    have hz : scalars.countP ((fun t : Ty => decide (t.regClass = .float)) ∘ fun _ => Ty.f64) =
        scalars.length := List.countP_eq_length.mpr fun _ _ => rfl
    rw [hz]
    exact Nat.zero_add _
  have hi : Compile.X64.paramLimits.limit .int = 6 := rfl
  have hf : Compile.X64.paramLimits.limit .float = 8 := rfl
  constructor
  · intro h
    have h1 := h .int
    have h2 := h .float
    rw [hint, hi] at h1
    rw [hfloat, hf] at h2
    omega
  · rintro ⟨h1, h2⟩ c
    cases c with
    | int =>
      rw [hint, hi]
      omega
    | float =>
      rw [hfloat, hf]
      omega

/-- the vector function is not needed, or it has registers for its parameters -/
def Fits (t : Tree) (scalars : List Int) : Prop :=
  (∀ c ∈ columnSet t, c ∈ scalars) ∨
    ((columnSet t).filter (· ∉ scalars)).card ≤ 4 ∧ ((columnSet t).filter (· ∈ scalars)).card ≤ 8

theorem fits_iff {t : Tree} {scalars : List Int} : Fits t scalars ↔
    arrayColumns t scalars = [] ∨
      (arrayColumns t scalars).length ≤ 4 ∧ (scalarColumns t scalars).length ≤ 8 := by
  rw [arrayColumns_eq_nil, length_arrayColumns, length_scalarColumns]
  rfl

/-! ## what goes into the two functions -/

abbrev rowCodeOf (t : Tree) : Scope → Builder → Builder × Option (List Int) :=
  rowCode t t.numColumns.toInt.toNat

theorem width_bounds {t : Tree} (ht : t.check = .ok ()) (hcol : ∀ c ∈ t.columns, c.toInt < 2 ^ 28) :
    0 ≤ t.numColumns.toInt ∧ t.numColumns.toInt ≤ 2 ^ 28 ∧ ∀ c ∈ t.columns,
      c.toInt < t.numColumns.toInt :=
  Tree.numColumns_bounds (by omega)
    (fun c hc => ⟨Int64.le_iff_toInt_le.mp (columns_nonneg ht c hc), hcol c hc⟩) (by omega)

def isShort (m : Host.Module) (f : Option Func) : Bool :=
  f.all fun f => Compile.X64.isShort f m.settings.options

theorem short_of_isShort {m : Host.Module} {o : Option Func} (h : isShort m o = true) :
    ∀ f, o = some f → m.Short f := by
  rintro f rfl
  exact Compile.X64.size_of_isShort h

theorem checkCarried_ok {fault : Nat → Ty → HostType → Host.Fault} {ts : List Ty} {hs : List HostType}
    (h : List.Forall₂ (fun t h => HostType.carries h t = true) ts hs) (i : Nat) :
    checkCarried fault i ts hs = .ok () := by
  induction h generalizing i with
  | nil => rfl
  | cons hc _ ih =>
    rw [checkCarried, if_pos hc]
    exact ih (i + 1)

def vectorIns (arrays scalars : List Int) : List HostType :=
  List.replicate (arrays.length + 1) HostType.pointer ++ [HostType.int64] ++
    scalars.map fun _ => HostType.float64

theorem carried_vectorIns (arrays scalars : List Int) :
    List.Forall₂ (fun t h => HostType.carries h t = true) (vectorSig arrays scalars).params
      (vectorIns arrays scalars) := by
  have hrep : ∀ n, List.Forall₂ (fun t h => HostType.carries h t = true) (List.replicate n Ty.pointer)
      (List.replicate n HostType.pointer) := by
    intro n
    induction n with
    | zero => exact .nil
    | succ n ih => exact .cons rfl ih
  have hmap : ∀ cs : List Int, List.Forall₂ (fun t h => HostType.carries h t = true)
      (cs.map fun _ => Ty.f64) (cs.map fun _ => HostType.float64) := by
    intro cs
    induction cs with
    | nil => exact .nil
    | cons c cs ih => exact .cons rfl ih
  exact List.rel_append (List.rel_append (hrep _) (.cons rfl .nil)) (hmap scalars)

/-! ## names -/

theorem append_ne_empty {s : String} (hs : s ≠ "") (name : String) : name ++ s ≠ "" := by
  intro e
  rw [String.append_eq_empty_iff] at e
  exact hs e.2

theorem free_of_madeIn {u u' : CodeUnit} {name other : String} {sig : Signature} {p : Host.Placed}
    (h : u.module.Free other) (hm : MadeIn u u' name sig p) (hne : name ≠ other) :
    u'.module.Free other := by
  rw [hm.module]
  refine ⟨h.named, ?_, h.imported⟩
  rw [Host.Module.byName?, Array.find?_eq_none]
  intro e he
  obtain ⟨i, hi⟩ := Array.mem_iff_getElem?.mp he
  obtain ⟨d, hd, hname, -⟩ := Host.Module.placed_before hi
  rw [← hname]
  rcases Host.Module.declared_before hd with hd | ⟨-, rfl⟩
  · simpa using Host.Module.byName_eq_none h.byName hd
  · simpa using hne

section
variable [Platform] {u : CodeUnit} {name : String} {t : Tree} {scalars : List Int}

/-- **A tree that does not suit is refused before anything is done.** -/
theorem compile_unsuited (h : ¬ Suits t scalars) (u : CodeUnit)
    (name : String) : ∃ f, compile u name t scalars = (u, .failed f) := by
  unfold compile
  cases hc : Predicate.check t scalars with
  | ok => exact absurd (check_ok_iff.mp hc) h
  | error f => exact ⟨f, rfl⟩

/-! ## functions of the host -/

theorem bind_row (hm : Platform.machine = .x64) {entry : UInt64} (h : entry ≠ 0) :
    Host.bind entry rowSig (.variable rowType) = .ok () := by
  have hpass : Platform.passes [.pointer] = true :=
    Platform.passes_registers (by rw [hm]; decide) (by rw [hm]; decide)
  simp only [Host.bind, makeFunc, if_neg h, rowType, passable, hpass]
  rfl

theorem passes_vectorIns (hm : Platform.machine = .x64) {arrays scalars : List Int}
    (ha : arrays.length ≤ 4) (hs : scalars.length ≤ 8) :
    Platform.passes (vectorIns arrays scalars) = true := by
  have hints : (vectorIns arrays scalars).countP (fun t => !t.isFloat) = arrays.length + 2 := by
    unfold vectorIns
    rw [List.countP_append, List.countP_append, List.countP_replicate, List.countP_map,
      List.countP_eq_zero (p := (fun t : HostType => !t.isFloat) ∘ fun _ => HostType.float64).mpr
        fun _ _ => Bool.false_ne_true]
    rfl
  have hfloats : (vectorIns arrays scalars).countP HostType.isFloat = scalars.length := by
    unfold vectorIns
    rw [List.countP_append, List.countP_append, List.countP_replicate, List.countP_map,
      List.countP_eq_length (p := HostType.isFloat ∘ fun _ => HostType.float64).mpr fun _ _ => rfl]
    exact Nat.zero_add _
  have hi : (Compile.paramLimits Platform.machine).ints = 6 := by rw [hm]; rfl
  have hf : (Compile.paramLimits Platform.machine).floats = 8 := by rw [hm]; rfl
  refine Platform.passes_registers ?_ ?_
  · rw [hints, hi]
    omega
  · rw [hfloats, hf]
    omega

theorem makeFunc_vector (hm : Platform.machine = .x64) {entry : UInt64} (h : entry ≠ 0)
    {arrays scalars : List Int} (ha : arrays.length ≤ 4) (hs : scalars.length ≤ 8) :
    makeFunc entry (vectorSig arrays scalars) (vectorType arrays scalars) = .ok () := by
  have hcar := carried_vectorIns arrays scalars
  have hret : ¬ (1 < (vectorSig arrays scalars).returns.length) := Nat.not_lt.mpr (Nat.zero_le 1)
  have hlen : ¬ ((vectorIns arrays scalars).length ≠ (vectorSig arrays scalars).params.length ∨
      ([] : List HostType).length ≠ (vectorSig arrays scalars).returns.length) := by
    rintro (hne | hne)
    · exact hne hcar.length_eq.symm
    · exact hne rfl
  have hfits :
      fits (vectorSig arrays scalars) (.func (vectorIns arrays scalars) [] false) = .ok () := by
    simp only [fits, Bool.false_eq_true, if_false, if_neg hret, if_neg hlen, checkCarried_ok hcar]
    rfl
  have hpass : passable (.func (vectorIns arrays scalars) [] false) = .ok () := by
    rw [passable, if_pos (passes_vectorIns hm ha hs)]
  show makeFunc entry _ (.func (vectorIns arrays scalars) [] false) = _
  simp only [makeFunc, if_neg h, hfits]
  exact hpass

/-! ## the two functions -/

/-- **The row function is made.** -/
theorem makeRow_made (hs : u.Sound) (hu : u.Idle) (hn : u.module.Free (name ++ "_row"))
    (ht : t.check = .ok ()) (hk : t.kind = .bool) (hcol : ∀ c ∈ t.columns, c.toInt < 2 ^ 28)
    (hshort : ∀ f, drawn u (name ++ "_row") rowSig (rowCodeOf t) = some f → u.module.Short f)
    (hm : Platform.machine = .x64) (hroom : HasRoom 1 u.module.regions) : ∃ u' c p,
      makeRow u name t t.numColumns = (u', .done c) ∧
        Platform.map u.module.regions (pageBytes p.size) = some p.address ∧ p.size < 2 ^ 31 ∧
        MadeIn u u' (name ++ "_row") rowSig p := by
  obtain ⟨-, hw, hin⟩ := width_bounds ht hcol
  have hwidth : t.numColumns.toInt.toNat ≤ 2 ^ 28 := by omega
  have hoffers : (scopeOf u (name ++ "_row") rowSig).Offers := offers_scopeOf hs hu.opened _ _
  obtain ⟨f, hf⟩ := rowCode_completes hs.catalog hoffers ht hk hwidth
    (fun c hc => by have := hin c hc; omega) u.module.funcs.size (name ++ "_row")
  have hplace := placeable_of_completes hs hf (hshort f (drawn_eq hu hn rfl hf)) hm hroom
  have hfit : f.sig.Passable Compile.X64.paramLimits Compile.X64.resultLimits := by
    rw [hf.sig]
    exact ⟨(by decide), (by decide)⟩
  obtain ⟨u', p, e, hmap, hsize, hmade⟩ :=
    makeFunction_placed hu hn rfl hf hplace (passable_of_native hf.native hfit)
  refine ⟨u', ⟨u.module.funcs.size, f.name, rowSig, p.address⟩, p, ?_, hmap, hsize, hmade⟩
  simp only [makeRow, e, attach, bind_row hm (Platform.map_ne_zero hmap)]

/-- **The vector function is made if it has registers for its parameters**; if not, the unit stops. -/
theorem makeVector_cases (hs : u.Sound) (hu : u.Idle) (hn : u.module.Free (name ++ "_vector"))
    (ht : t.check = .ok ()) (hk : t.kind = .bool) {arrays scalars : List Int}
    (hcol : ∀ c ∈ t.columns, c.toInt ∈ arrays ++ scalars)
    (hshort : ∀ f, drawn u (name ++ "_vector") (vectorSig arrays scalars)
      (vectorCode t arrays scalars) = some f → u.module.Short f)
    (hm : Platform.machine = .x64) (hroom : HasRoom 1 u.module.regions) :
    ((arrays.length ≤ 4 ∧ scalars.length ≤ 8) ∧
      ∃ u' c, makeVector u name t arrays scalars = (u', .done c)) ∨
    (¬ (arrays.length ≤ 4 ∧ scalars.length ≤ 8) ∧
      ∃ u' h, makeVector u name t arrays scalars = (u', .failed (.host h)) ∧
        u'.fault = some (.host h) ∧ h.ssa?.map SSA.Fault.kind = some .tooManyParams) := by
  have hvalid := vectorSig_isValid arrays scalars
  let scope := scopeOf u (name ++ "_vector") (vectorSig arrays scalars)
  have hcat : scope.catalog.HoldsBuiltins := hs.catalog
  obtain ⟨f, hf⟩ := vectorCode_completes hcat ht hk hcol u.module.funcs.size (name ++ "_vector")
  rw [← admits_vectorSig]
  rcases passing_cases (vectorSig arrays scalars).params fun c => (Compile.X64.proper_params c).1 with
    ⟨-, -, hadm, -⟩ | ⟨c, hg, hno⟩
  · have hplace := placeable_of_completes hs hf (hshort f (drawn_eq hu hn hvalid hf)) hm hroom
    have hfit : f.sig.Passable Compile.X64.paramLimits Compile.X64.resultLimits := by
      rw [hf.sig]
      exact ⟨hadm, (by decide : RegLimits.Admits _ [])⟩
    obtain ⟨u', p, e, hmap, -, -⟩ :=
      makeFunction_placed hu hn hvalid hf hplace (passable_of_native hf.native hfit)
    obtain ⟨h4, h8⟩ := (admits_vectorSig arrays scalars).mp hadm
    refine .inl ⟨hadm, u', ⟨u.module.funcs.size, f.name, vectorSig arrays scalars, p.address⟩, ?_⟩
    simp only [makeVector, e, attach, makeFunc_vector hm (Platform.map_ne_zero hmap) h4 h8]
  · obtain ⟨u', h, e, hfault, hssa⟩ := makeFunction_refused hu hn hvalid hm hf hg
    refine .inr ⟨hno, u', h, ?_, hfault, ?_⟩
    · simp only [makeVector, e, attach]
    · rw [hssa]
      rfl

/-! ## compiling -/

/-- a unit in which the two functions of a predicate can be declared and placed: on an x86-64 host with
room for both, built over the built-in operations, open and idle, without the two names; and each
function is short enough for its branches -/
structure Prepared (u : CodeUnit) (name : String) (t : Tree) (scalars : List Int) : Prop where
  reachable : u.Reachable
  opened : u.module.closed = false
  fault : u.fault = none
  active : u.active = none
  columns : ∀ c ∈ t.columns, c.toInt < 2 ^ 28
  row : u.module.byName? (name ++ "_row") = none ∧ u.module.import? (name ++ "_row") = none
  vector : u.module.byName? (name ++ "_vector") = none ∧ u.module.import? (name ++ "_vector") = none
  machine : Platform.machine = .x64
  room : HasRoom 2 u.module.regions
  rowShort : ∀ f, drawn u (name ++ "_row") rowSig (rowCodeOf t) = some f → u.module.Short f
  vectorShort : ∀ f, drawn (makeRow u name t t.numColumns).1 (name ++ "_vector")
    (vectorSig (arrayColumns t scalars) (scalarColumns t scalars))
    (vectorCode t (arrayColumns t scalars) (scalarColumns t scalars)) = some f → u.module.Short f

theorem Prepared.idle (h : Prepared u name t scalars) : u.Idle :=
  ⟨h.opened, h.reachable.pending h.opened, h.fault, h.active⟩

theorem compile_eq (hs : Suits t scalars) {u' : CodeUnit} {row : Compiled}
    (hrow : makeRow u name t t.numColumns = (u', .done row)) :
    (arrayColumns t scalars = [] → ∃ u'' p, compile u name t scalars = (u'', .done p)) ∧
    (arrayColumns t scalars ≠ [] →
      (∀ u'' c, makeVector u' name t (arrayColumns t scalars) (scalarColumns t scalars) =
        (u'', .done c) → ∃ v p, compile u name t scalars = (v, .done p)) ∧
      ∀ u'' f, makeVector u' name t (arrayColumns t scalars) (scalarColumns t scalars) =
        (u'', .failed f) → compile u name t scalars = (u'', .failed (.emit f))) := by
  have hpart : (sortedDistinct (t.columns.map Int64.toInt)).partition (fun c => scalars.contains c) =
      (scalarColumns t scalars, arrayColumns t scalars) := List.partition_eq_filter_filter
  unfold compile
  simp only [check_ok_iff.mpr hs, hpart, hrow]
  refine ⟨fun he => ?_, fun hne => ⟨fun u'' c hc => ?_, fun u'' f hf => ?_⟩⟩
  · rw [he]
    exact ⟨_, _, rfl⟩
  · rw [if_neg (mt List.isEmpty_iff.mp hne), hc]
    exact ⟨_, _, rfl⟩
  · rw [if_neg (mt List.isEmpty_iff.mp hne), hf]

/-- **When a predicate is compiled.**  In a prepared unit it is compiled exactly if its tree passes the
check, is truth-valued and has all the given scalar columns, and if, unless it has no array columns,
it has at most four array columns and at most eight scalar ones.  If one of the checks fails, the unit
is as it was; if only the registers are missing, the fault says so and stops the unit. -/
theorem compile_done_iff (h : Prepared u name t scalars) :
    ((∃ u' p, compile u name t scalars = (u', .done p)) ↔ Suits t scalars ∧ Fits t scalars) ∧
    (¬ Suits t scalars → ∃ f, compile u name t scalars = (u, .failed f)) ∧
    (Suits t scalars → ¬ Fits t scalars → ∃ u' g,
      compile u name t scalars = (u', .failed (.emit (.host g))) ∧
      g.ssa?.map SSA.Fault.kind = some .tooManyParams ∧ u'.fault = some (.host g)) := by
  by_cases hsuit : Suits t scalars
  swap
  · obtain ⟨f, e⟩ := compile_unsuited hsuit u name
    refine ⟨⟨fun ⟨u', p, hp⟩ => ?_, fun hs => absurd hs.1 hsuit⟩, fun _ => ⟨f, e⟩,
      fun hs => absurd hs hsuit⟩
    rw [e] at hp
    cases (Prod.mk.inj hp).2
  have hsound := h.reachable.sound
  obtain ⟨u1, c, p, hrow, hmap, hsize, hmade⟩ := makeRow_made hsound h.idle
    ⟨append_ne_empty (by decide) name, h.row.1, h.row.2⟩ hsuit.check hsuit.kind h.columns h.rowShort
    h.machine h.room.first
  obtain ⟨hnone, hsome⟩ := compile_eq hsuit hrow
  by_cases hempty : arrayColumns t scalars = []
  · -- there is no vector function
    have hfits : Fits t scalars := fits_iff.mpr (.inl hempty)
    exact ⟨⟨fun _ => ⟨hsuit, hfits⟩, fun _ => hnone hempty⟩, fun hs => absurd hsuit hs,
      fun _ hf => absurd hfits hf⟩
  -- the unit goes on with the vector function
  have hwidth := (width_bounds hsuit.check h.columns).2.1
  have hsteps := (makeRow_done hsound hsuit.check (by omega) hrow).1
  have hne : name ++ "_row" ≠ name ++ "_vector" := by
    intro e
    exact absurd (String.append_right_inj name |>.mp e) (by decide)
  have hfree : u1.module.Free (name ++ "_vector") :=
    free_of_madeIn ⟨append_ne_empty (by decide) name, h.vector.1, h.vector.2⟩ hmade hne
  have hshort : ∀ f, drawn u1 (name ++ "_vector")
      (vectorSig (arrayColumns t scalars) (scalarColumns t scalars))
      (vectorCode t (arrayColumns t scalars) (scalarColumns t scalars)) = some f →
      u1.module.Short f := by
    intro f hf
    have hv := h.vectorShort f
    rw [hrow] at hv
    rw [hmade.module]
    exact hv hf
  have hroom : HasRoom 1 u1.module.regions := by
    obtain ⟨a, ha, hr⟩ := h.room p.size hsize
    obtain rfl := Option.some.inj (hmap.symm.trans ha)
    rw [hmade.module]
    exact hr
  obtain ⟨hdone, hfail⟩ := hsome hempty
  rcases makeVector_cases (hsound.steps hsteps) hmade.idle hfree hsuit.check hsuit.kind
      (mem_columns t scalars) hshort h.machine hroom with ⟨hregs, u2, v, hv⟩ | ⟨hregs, u2, g, hv, hfault, hkind⟩
  · have hfits : Fits t scalars := fits_iff.mpr (.inr hregs)
    exact ⟨⟨fun _ => ⟨hsuit, hfits⟩, fun _ => hdone u2 v hv⟩, fun hs => absurd hsuit hs,
      fun _ hf => absurd hfits hf⟩
  · have hno : ¬ Fits t scalars := fun hf => (fits_iff.mp hf).elim hempty hregs
    have e := hfail u2 _ hv
    refine ⟨⟨fun ⟨u', p, hp⟩ => ?_, fun hs => absurd hs.2 hno⟩, fun hs => absurd hsuit hs,
      fun _ _ => ⟨u2, g, e, hkind, hfault⟩⟩
    rw [e] at hp
    cases (Prod.mk.inj hp).2

end

/-! ## two trees -/

attribute [local instance] Platform.linuxX64

/-- a new unit is prepared for every small tree -/
theorem prepared_freshUnit {name : String} {t : Tree} {scalars arrays used : List Int}
    (ha : arrayColumns t scalars = arrays) (hs : scalarColumns t scalars = used)
    (hcol : ∀ c ∈ t.columns, c.toInt < 2 ^ 28)
    (hi : freshUnit.module.import? (name ++ "_row") = none ∧
      freshUnit.module.import? (name ++ "_vector") = none)
    (hrow : isShort freshUnit.module (drawn freshUnit (name ++ "_row") rowSig (rowCodeOf t)) = true)
    (hvector : isShort freshUnit.module (drawn (makeRow freshUnit name t t.numColumns).1
      (name ++ "_vector") (vectorSig arrays used) (vectorCode t arrays used)) = true) :
    Prepared freshUnit name t scalars where
  reachable := reachable_freshUnit
  opened := rfl
  fault := rfl
  active := rfl
  columns := hcol
  row := ⟨rfl, hi.1⟩
  vector := ⟨rfl, hi.2⟩
  machine := rfl
  room := hasRoom_linux (by decide)
  rowShort := short_of_isShort hrow
  vectorShort := by
    rw [ha, hs]
    exact short_of_isShort hvector

def fiveColumns : Tree :=
  .binary (.compare .lt) (.column 0 "a") (.binary (.arith .add) (.binary (.arith .add)
    (.binary (.arith .add) (.column 1 "b") (.column 2 "c")) (.column 3 "d")) (.column 4 "e"))

theorem sortedDistinct_fiveColumns :
    sortedDistinct (fiveColumns.columns.map Int64.toInt) = [0, 1, 2, 3, 4] := by
  have h : (fiveColumns.columns.map Int64.toInt).eraseDups = [0, 1, 2, 3, 4] := by decide
  rw [sortedDistinct, h]
  exact List.mergeSort_of_pairwise (by decide)

/-- one array and one scalar have registers, five arrays do not, and a scalar has to occur -/
theorem compile_done_iff_columns :
    (∃ u p, compile freshUnit "below" belowLimit [1] = (u, .done p)) ∧
      (∃ f, compile freshUnit "below" belowLimit [2] = (freshUnit, .failed f)) ∧
      ∃ u g, compile freshUnit "five" fiveColumns [] = (u, .failed (.emit (.host g))) ∧
        g.ssa?.map SSA.Fault.kind = some .tooManyParams ∧ u.fault = some (.host g) := by
  have h1 : Prepared freshUnit "below" belowLimit [1] := by
    have ha : arrayColumns belowLimit [1] = [0] := by
      rw [arrayColumns, sortedDistinct_belowLimit]
      rfl
    have hs : scalarColumns belowLimit [1] = [1] := by
      rw [scalarColumns, sortedDistinct_belowLimit]
      rfl
    exact prepared_freshUnit ha hs (by rw [columns_belowLimit]; simp)
      ⟨by decide +kernel, by decide +kernel⟩ (by decide +kernel) (by decide +kernel)
  have h2 : Prepared freshUnit "below" belowLimit [2] := by
    have ha : arrayColumns belowLimit [2] = [0, 1] := by
      rw [arrayColumns, sortedDistinct_belowLimit]
      rfl
    have hs : scalarColumns belowLimit [2] = [] := by
      rw [scalarColumns, sortedDistinct_belowLimit]
      rfl
    exact prepared_freshUnit ha hs (by rw [columns_belowLimit]; simp)
      ⟨by decide +kernel, by decide +kernel⟩ (by decide +kernel) (by decide +kernel)
  have h3 : Prepared freshUnit "five" fiveColumns [] := by
    have ha : arrayColumns fiveColumns [] = [0, 1, 2, 3, 4] := by
      rw [arrayColumns, sortedDistinct_fiveColumns]
      rfl
    have hs : scalarColumns fiveColumns [] = [] := by
      rw [scalarColumns, sortedDistinct_fiveColumns]
      rfl
    have hc : fiveColumns.columns = [0, 1, 2, 3, 4] := rfl
    exact prepared_freshUnit ha hs (by rw [hc]; simp) ⟨by decide +kernel, by decide +kernel⟩
      (by decide +kernel) (by decide +kernel)
  have hfits : ¬ Fits fiveColumns [] := by
    rintro (h | ⟨h, -⟩)
    · exact absurd (h 0 (by decide)) (by decide)
    · exact absurd h (by decide)
  exact ⟨(compile_done_iff h1).1.mpr ⟨⟨rfl, rfl, by decide⟩, .inr ⟨by decide, by decide⟩⟩,
    (compile_done_iff h2).2.1 fun hs => absurd (hs.used 2 (by decide)) (by decide),
    (compile_done_iff h3).2.2 ⟨rfl, rfl, nofun⟩ hfits⟩

end TreeJit.Predicate
