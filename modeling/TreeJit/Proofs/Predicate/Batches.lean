import Mathlib.Data.List.Find
import TreeJit.Proofs.Predicate.Agreement

/-!
# Batches that are refused, and batches that are evaluated

A batch is refused if the predicate has no array columns, if it does not supply a column, or if its
array columns differ in length; the fault says which.  Any other batch gives a truth value for each of
its rows.  What a batch has beyond the columns of the tree is not looked at, but for one thing: a
scalar with a negative number breaks the evaluation down.

* `NoArrays`, `Batch.Misses`, `Batch.Uneven`   the three things that can be wrong;
* `Batch.HasRows`                              batches with a common length;
* `Batch.Agrees`                               batches that supply the same columns;
* `rows_eq_ok_iff`, `rows_error`               what counting the rows finds;
* `evaluate_judges`                            what evaluating comes to, for every compiled predicate.
-/

namespace TreeJit.Predicate

open SSA Emit Host Host.Module

/-! ## what can be wrong -/

section
variable (t : Tree) (scalars : List Int)

/-- all columns of the tree are scalar -/
def NoArrays : Prop := ∀ c ∈ t.columns, c.toInt ∈ scalars

/-- a column of the tree is not in its table -/
def Batch.Misses (b : Batch) : Prop := ∃ c ∈ t.columns,
  c.toInt ∉ scalars ∧ b.arrays.lookup c.toInt = none ∨
    c.toInt ∈ scalars ∧ b.scalars.lookup c.toInt = none

/-- two array columns of the tree differ in length -/
def Batch.Uneven (b : Batch) : Prop := ∃ c ∈ t.columns, ∃ d ∈ t.columns,
  c.toInt ∉ scalars ∧ d.toInt ∉ scalars ∧ ∃ xs ys, b.arrays.lookup c.toInt = some xs ∧
    b.arrays.lookup d.toInt = some ys ∧ xs.length ≠ ys.length

/-- what a fault of this kind says of a batch -/
def Batch.Wrong (b : Batch) : FaultKind → Prop
  | .noArrays => NoArrays t scalars
  | .missingColumn => b.Misses t scalars
  | .lengthMismatch => b.Uneven t scalars
  | .notPredicate => False

/-- the tree has array columns, they all have `n` entries, and its scalar columns are supplied -/
structure Batch.HasRows (b : Batch) (n : Nat) : Prop where
  array : ∃ c ∈ t.columns, c.toInt ∉ scalars
  arrays : ∀ c ∈ t.columns, c.toInt ∉ scalars →
    ∃ xs, b.arrays.lookup c.toInt = some xs ∧ xs.length = n
  scalars : ∀ c ∈ t.columns, c.toInt ∈ scalars → ∃ x, b.scalars.lookup c.toInt = some x

/-- the batches supply the same for the columns of the tree -/
structure Batch.Agrees (b b' : Batch) : Prop where
  arrays : ∀ c ∈ t.columns, c.toInt ∉ scalars → b.arrays.lookup c.toInt = b'.arrays.lookup c.toInt
  scalars : ∀ c ∈ t.columns, c.toInt ∈ scalars → b.scalars.lookup c.toInt = b'.scalars.lookup c.toInt

/-- the columns that a predicate looks up are those of its tree -/
structure Reads (p : Predicate) : Prop where
  arrays : ∀ c, c ∈ p.arrays ↔ c ∈ t.columns.map Int64.toInt ∧ c ∉ scalars
  scalars : ∀ c, c ∈ p.scalars ↔ c ∈ t.columns.map Int64.toInt ∧ c ∈ scalars

end

variable {t : Tree} {scalars : List Int} {p : Predicate} {b b' : Batch} {n : Nat}

theorem reads_of_compile [Platform] {u u' : CodeUnit} {name : String}
    (h : compile u name t scalars = (u', .done p)) : Reads t scalars p := by
  unfold compile at h
  simp only [List.partition_eq_filter_filter] at h
  have hreads : ∀ width row vector, Reads t scalars ⟨t, width,
      (sortedDistinct (t.columns.map Int64.toInt)).filter (not ∘ fun c => scalars.contains c),
      (sortedDistinct (t.columns.map Int64.toInt)).filter (fun c => scalars.contains c), row,
      vector⟩ := by
    intro width row vector
    refine ⟨fun c => ?_, fun c => ?_⟩
    · rw [List.mem_filter, mem_sortedDistinct]
      simp
    · rw [List.mem_filter, mem_sortedDistinct]
      simp
  split at h
  · cases h
  · split at h
    · cases h
    · cases h
    · -- the row function is made, and the vector function if there are arrays
      split at h
      · cases h
        exact hreads _ _ _
      · split at h
        · cases h
        · cases h
        · cases h
          exact hreads _ _ _

theorem Reads.mem_arrays (hp : Reads t scalars p) {c : Int} :
    c ∈ p.arrays ↔ ∃ d ∈ t.columns, d.toInt = c ∧ d.toInt ∉ scalars := by
  rw [hp.arrays, List.mem_map]
  constructor
  · rintro ⟨⟨d, hd, rfl⟩, hs⟩
    exact ⟨d, hd, rfl, hs⟩
  · rintro ⟨d, hd, rfl, hs⟩
    exact ⟨⟨d, hd, rfl⟩, hs⟩

theorem Reads.mem_scalars (hp : Reads t scalars p) {c : Int} :
    c ∈ p.scalars ↔ ∃ d ∈ t.columns, d.toInt = c ∧ d.toInt ∈ scalars := by
  rw [hp.scalars, List.mem_map]
  constructor
  · rintro ⟨⟨d, hd, rfl⟩, hs⟩
    exact ⟨d, hd, rfl, hs⟩
  · rintro ⟨d, hd, rfl, hs⟩
    exact ⟨⟨d, hd, rfl⟩, hs⟩

/-! ## counting rows -/

theorem commonLength_eq {cs : List Int} {o : Option Nat} (ho : o = some n ∨ o = none ∧ cs ≠ [])
    (h : ∀ c ∈ cs, ∃ xs, b.arrays.lookup c = some xs ∧ xs.length = n) :
    commonLength b o cs = .ok n := by
  induction cs generalizing o with
  | nil =>
    obtain rfl | ⟨-, hne⟩ := ho
    · rfl
    · exact absurd rfl hne
  | cons c cs ih =>
    obtain ⟨xs, hxs, hlen⟩ := h c List.mem_cons_self
    have hrest : commonLength b (some n) cs = .ok n :=
      ih (.inl rfl) fun d hd => h d (List.mem_cons_of_mem c hd)
    unfold commonLength
    obtain rfl | ⟨rfl, -⟩ := ho
    · simp only [hxs, hlen, ne_eq, not_true_eq_false, if_false, hrest]
    · simp only [hxs, hlen, hrest]

/-- what stops the count: a column that is missing, or one that departs from the length of those in
front of it -/
theorem commonLength_error {cs : List Int} {o : Option Nat} {f : Fault}
    (h : commonLength b o cs = .error f) :
    (∃ c ∈ cs, b.arrays.lookup c = none ∧ f = .missingArray c) ∨
      ∃ c ∈ cs, ∃ xs n, b.arrays.lookup c = some xs ∧ xs.length ≠ n ∧
        f = .columnRows c xs.length n ∧
        (o = some n ∨ ∃ d ∈ cs, ∃ ys, b.arrays.lookup d = some ys ∧ ys.length = n) := by
  induction cs generalizing o with
  | nil => cases h
  | cons c cs ih =>
    unfold commonLength at h
    -- what stops the count further on stops it here, whatever was in front of this column
    have hlater : ∀ o xs, b.arrays.lookup c = some xs →
        commonLength b (some xs.length) cs = .error f →
        (∃ d ∈ c :: cs, b.arrays.lookup d = none ∧ f = .missingArray d) ∨
          ∃ d ∈ c :: cs, ∃ ys n, b.arrays.lookup d = some ys ∧ ys.length ≠ n ∧
            f = .columnRows d ys.length n ∧
            (o = some n ∨ ∃ e ∈ c :: cs, ∃ zs, b.arrays.lookup e = some zs ∧ zs.length = n) := by
      intro o xs hxs he
      obtain ⟨d, hd, hr⟩ | ⟨d, hd, ys, n, hys, hne, hf, hn⟩ := ih he
      · exact .inl ⟨d, List.mem_cons_of_mem c hd, hr⟩
      · refine .inr ⟨d, List.mem_cons_of_mem c hd, ys, n, hys, hne, hf, .inr ?_⟩
        obtain e | ⟨e, he, hr⟩ := hn
        · exact ⟨c, List.mem_cons_self, xs, hxs, Option.some.inj e⟩
        · exact ⟨e, List.mem_cons_of_mem c he, hr⟩
    cases hxs : b.arrays.lookup c with
    | none =>
      simp only [hxs] at h
      cases h
      exact .inl ⟨c, List.mem_cons_self, hxs, rfl⟩
    | some xs =>
      cases o with
      | none =>
        simp only [hxs] at h
        exact hlater none xs hxs h
      | some k =>
        simp only [hxs] at h
        split at h
        · rename_i hne
          cases h
          exact .inr ⟨c, List.mem_cons_self, xs, k, hxs, hne, rfl, .inl rfl⟩
        · rename_i hk
          obtain rfl : xs.length = k := Classical.not_not.mp hk
          exact hlater _ xs hxs h

/-- the rows of a batch are the entries its array columns have in common -/
theorem rows_eq_ok_iff (hp : Reads t scalars p) : rows p b = .ok n ↔ b.HasRows t scalars n := by
  constructor
  · intro h
    obtain ⟨hne, harr, hsca⟩ := rows_ok h
    refine ⟨?_, fun c hc hs => harr _ (hp.mem_arrays.mpr ⟨c, hc, rfl, hs⟩),
      fun c hc hs => hsca _ (hp.mem_scalars.mpr ⟨c, hc, rfl, hs⟩)⟩
    obtain ⟨d, hd⟩ := List.exists_mem_of_ne_nil _ hne
    obtain ⟨c, hc, -, hs⟩ := hp.mem_arrays.mp hd
    exact ⟨c, hc, hs⟩
  · intro h
    obtain ⟨c, hc, hs⟩ := h.array
    have hmem : c.toInt ∈ p.arrays := hp.mem_arrays.mpr ⟨c, hc, rfl, hs⟩
    have hlen : commonLength b none p.arrays = .ok n := by
      refine commonLength_eq (.inr ⟨rfl, List.ne_nil_of_mem hmem⟩) fun d hd => ?_
      obtain ⟨c, hc, rfl, hs⟩ := hp.mem_arrays.mp hd
      exact h.arrays c hc hs
    have hfind : p.scalars.find? (fun c => (b.scalars.lookup c).isNone) = none := by
      refine List.find?_eq_none.mpr fun d hd => ?_
      obtain ⟨c, hc, rfl, hs⟩ := hp.mem_scalars.mp hd
      obtain ⟨x, hx⟩ := h.scalars c hc hs
      simp [hx]
    unfold rows
    rw [if_neg (mt List.isEmpty_iff.mp (List.ne_nil_of_mem hmem)), hlen]
    simp only [hfind]

/-- a batch without rows lacks something, and the fault says what -/
theorem rows_error (hp : Reads t scalars p) {f : Fault} (h : rows p b = .error f) :
    ∃ k, f.kind? = some k ∧ b.Wrong t scalars k := by
  unfold rows at h
  split at h
  · rename_i he
    cases h
    refine ⟨.noArrays, rfl, fun c hc => Classical.byContradiction fun hs => ?_⟩
    have hmem : c.toInt ∈ p.arrays := hp.mem_arrays.mpr ⟨c, hc, rfl, hs⟩
    rw [List.isEmpty_iff.mp he] at hmem
    cases hmem
  · split at h
    · rename_i g hg
      cases h
      obtain ⟨d, hd, hnone, rfl⟩ | ⟨d, hd, xs, n, hxs, hne, rfl, hn⟩ := commonLength_error hg
      · obtain ⟨c, hc, rfl, hs⟩ := hp.mem_arrays.mp hd
        exact ⟨.missingColumn, rfl, c, hc, .inl ⟨hs, hnone⟩⟩
      · obtain ⟨c, hc, rfl, hs⟩ := hp.mem_arrays.mp hd
        obtain hn | ⟨e, he, ys, hys, rfl⟩ := hn
        · cases hn
        · obtain ⟨c', hc', rfl, hs'⟩ := hp.mem_arrays.mp he
          exact ⟨.lengthMismatch, rfl, c, hc, c', hc', hs, hs', xs, ys, hxs, hys, hne⟩
    · split at h
      · rename_i d hd
        cases h
        obtain ⟨c, hc, rfl, hs⟩ := hp.mem_scalars.mp (List.mem_of_find?_eq_some hd)
        have hnone := List.find?_some hd
        exact ⟨.missingColumn, rfl, c, hc, .inr ⟨hs, Option.isNone_iff_eq_none.mp hnone⟩⟩
      · cases h

theorem Batch.HasRows.not_wrong (h : b.HasRows t scalars n) (k : FaultKind) :
    ¬ b.Wrong t scalars k := by
  intro hw
  cases k with
  | notPredicate => exact hw
  | noArrays =>
    obtain ⟨c, hc, hs⟩ := h.array
    exact hs (hw c hc)
  | missingColumn =>
    obtain ⟨c, hc, ⟨hs, hnone⟩ | ⟨hs, hnone⟩⟩ := hw
    · obtain ⟨xs, hxs, -⟩ := h.arrays c hc hs
      rw [hnone] at hxs
      cases hxs
    · obtain ⟨x, hx⟩ := h.scalars c hc hs
      rw [hnone] at hx
      cases hx
  | lengthMismatch =>
    obtain ⟨c, hc, d, hd, hs, hs', xs, ys, hxs, hys, hne⟩ := hw
    obtain ⟨xs', hxs', hn⟩ := h.arrays c hc hs
    obtain ⟨ys', hys', hn'⟩ := h.arrays d hd hs'
    rw [hxs] at hxs'
    rw [hys] at hys'
    cases hxs'
    cases hys'
    exact hne (hn.trans hn'.symm)

/-! ## what is not looked at -/

theorem commonLength_congr {cs : List Int} (h : ∀ c ∈ cs, b.arrays.lookup c = b'.arrays.lookup c)
    (o : Option Nat) : commonLength b o cs = commonLength b' o cs := by
  induction cs generalizing o with
  | nil => rfl
  | cons c cs ih =>
    have hc := h c List.mem_cons_self
    have hcs := ih fun d hd => h d (List.mem_cons_of_mem c hd)
    unfold commonLength
    simp only [hc, hcs]

theorem rows_congr (hp : Reads t scalars p) (h : b.Agrees t scalars b') :
    rows p b = rows p b' := by
  have harr : commonLength b none p.arrays = commonLength b' none p.arrays := by
    refine commonLength_congr (fun d hd => ?_) none
    obtain ⟨c, hc, rfl, hs⟩ := hp.mem_arrays.mp hd
    exact h.arrays c hc hs
  have hfind : p.scalars.find? (fun c => (b.scalars.lookup c).isNone) =
      p.scalars.find? fun c => (b'.scalars.lookup c).isNone := by
    refine List.find?_congr fun d hd => ?_
    obtain ⟨c, hc, rfl, hs⟩ := hp.mem_scalars.mp hd
    rw [h.scalars c hc hs]
  unfold rows
  rw [harr, hfind]

theorem IsRow.of_agrees {i : Nat} {row : List UInt64} (hr : IsRow t scalars b i row)
    (h : b.Agrees t scalars b') : IsRow t scalars b' i row := by
  refine ⟨fun c hc hs => ?_, fun c hc hs => ?_⟩
  · rw [← h.arrays c hc hs]
    exact hr.array c hc hs
  · rw [← h.scalars c hc hs]
    exact hr.scalar c hc hs

/-! ## evaluating -/

theorem evaluate_eq_failed_iff [Platform] {h : Machinery} {m : Host.Module} {f : Fault} :
    evaluate h m p b = .failed f ↔ rows p b = .error f := by
  unfold evaluate
  cases rows p b with
  | error g => simp
  | ok n =>
    simp only [reduceCtorEq, iff_false]
    split
    · exact nofun
    · exact nofun
    · split
      · exact nofun
      · exact nofun

/-- a scalar with a negative number breaks down what would have been evaluated -/
theorem evaluate_negative [Platform] {h : Machinery} {m : Host.Module} (hr : rows p b = .ok n)
    (hneg : ∃ s ∈ b.scalars, s.1 < 0) : evaluate h m p b = .crashed := by
  have hany : (b.scalars.any fun s => decide (s.1 < 0)) = true := by
    obtain ⟨s, hs, hlt⟩ := hneg
    exact List.any_eq_true.mpr ⟨s, hs, decide_eq_true hlt⟩
  unfold evaluate
  rw [hr]
  simp only [hany]
  cases runVector h m p b (n - n % 2) <;> rfl

/-- **Batches are judged by the columns of the tree.**  For every predicate that was compiled and every
batch: evaluating fails exactly if there are no array columns, a column is not supplied or two array
columns differ in length, with the fault of that kind; else the array columns have a common length.
If then nothing closed the module, and rows and columns fit the address space, there is a truth value
for each row and nothing but the columns of the tree has a say in it; only a scalar with a negative
number breaks the evaluation down. -/
theorem evaluate_judges [Platform] {u u' : CodeUnit} (hu : u.Reachable) {name : String} {t : Tree}
    {scalars : List Int} {p : Predicate} (hc : compile u name t scalars = (u', .done p))
    (h : Machinery) :
    (∀ m b, ((∃ f, evaluate h m p b = .failed f) ↔ ∃ k, b.Wrong t scalars k) ∧
      (∀ f, evaluate h m p b = .failed f → ∃ k, f.kind? = some k ∧ b.Wrong t scalars k) ∧
      (∀ b', b.Agrees t scalars b' → ∀ f, evaluate h m p b = .failed f ↔
        evaluate h m p b' = .failed f) ∧
      ((∀ f, evaluate h m p b ≠ .failed f) → ∃ n, b.HasRows t scalars n)) ∧
    ((∀ c ∈ t.columns, c.toInt < 2 ^ 28) → ∀ v, CodeUnit.Steps u' v →
      v.module.closed = u'.module.closed → ∀ b n, b.HasRows t scalars n → n < 2 ^ 45 →
      n / 2 + 2 ≤ h.fuel →
        ((∀ s ∈ b.scalars, 0 ≤ s.1) → ∃ mask, evaluate h v.module p b = .done mask ∧
          mask.length = n ∧ ∀ b', b.Agrees t scalars b' → (∀ s ∈ b'.scalars, 0 ≤ s.1) →
            evaluate h v.module p b' = .done mask) ∧
        ((∃ s ∈ b.scalars, s.1 < 0) → evaluate h v.module p b = .crashed)) := by
  have hp : Reads t scalars p := reads_of_compile hc
  refine ⟨fun m b => ?_, fun hcol v hv ho b n hrows hn hfuel => ?_⟩
  · -- the verdict on a batch is that of the count of its rows
    have hok : (∀ f, evaluate h m p b ≠ .failed f) → ∃ n, b.HasRows t scalars n := by
      intro hne
      cases hr : rows p b with
      | error f => exact absurd (evaluate_eq_failed_iff.mpr hr) (hne f)
      | ok n => exact ⟨n, (rows_eq_ok_iff hp).mp hr⟩
    have hkind : ∀ f, evaluate h m p b = .failed f → ∃ k, f.kind? = some k ∧ b.Wrong t scalars k :=
      fun f hf => rows_error hp (evaluate_eq_failed_iff.mp hf)
    refine ⟨⟨fun ⟨f, hf⟩ => ?_, fun ⟨k, hw⟩ => ?_⟩, hkind, fun b' ha f => ?_, hok⟩
    · obtain ⟨k, -, hw⟩ := hkind f hf
      exact ⟨k, hw⟩
    · refine Classical.byContradiction fun hne => ?_
      obtain ⟨n, hn⟩ := hok fun f hf => hne ⟨f, hf⟩
      exact hn.not_wrong k hw
    · rw [evaluate_eq_failed_iff, evaluate_eq_failed_iff, rows_congr hp ha]
  · have hr : rows p b = .ok n := (rows_eq_ok_iff hp).mpr hrows
    refine ⟨fun hpos => ?_, evaluate_negative hr⟩
    obtain ⟨ht, hk, hs, hopen, hplaced⟩ := compile_done hu.sound hcol hc
    have hsound : v.Sound := (hu.sound.steps hs).steps hv
    have hm : Ready v.module := ⟨ho.trans hopen, hsound.module, hsound.imports⟩
    have hpl : Placed v.module t scalars p := hplaced.steps hv.module
    obtain ⟨-, -, hbelow⟩ := Tree.numColumns_bounds (by omega)
      (fun c hc => ⟨Int64.le_iff_toInt_le.mp (columns_nonneg ht c hc), hcol c hc⟩) (by omega)
    have hrow : ∀ i < n, IsRow t scalars b i (batchRow p b i) := fun i hi =>
      isRow_batchRow ht hpl hbelow hr hi
    refine ⟨_, evaluate_eq h hm ht hk hcol hpl hpos hr hn hfuel hrow, ?_, fun b' ha hpos' => ?_⟩
    · rw [List.length_map, List.length_range]
    · exact evaluate_eq h hm ht hk hcol hpl hpos' ((rows_congr hp ha).symm.trans hr) hn hfuel
        fun i hi => (hrow i hi).of_agrees ha

theorem hasRows_threeRows (more : List (Int × UInt64)) (h : more.lookup 1 = none) :
    Batch.HasRows belowLimit [1] ⟨threeRows.arrays, more ++ threeRows.scalars⟩ 3 := by
  refine ⟨⟨0, List.mem_cons_self, by decide⟩, ?_, ?_⟩
  · rw [columns_belowLimit, List.forall_mem_cons, List.forall_mem_singleton]
    exact ⟨fun _ => ⟨_, rfl, rfl⟩, fun hs => absurd List.mem_cons_self hs⟩
  · rw [columns_belowLimit, List.forall_mem_cons, List.forall_mem_singleton]
    refine ⟨fun hs => absurd hs (by decide), fun _ => ⟨0x4004000000000000, ?_⟩⟩
    show (more ++ threeRows.scalars).lookup 1 = _
    rw [List.lookup_append, h]
    rfl

attribute [local instance] Platform.linuxX64

/-- a batch without columns, three rows without and with a scalar that the tree does not know, and the
same with a scalar number -1 -/
theorem evaluate_judges_belowLimit :
    ∃ u p, compile freshUnit "below" belowLimit [1] = (u, .done p) ∧
      (∃ f, evaluate .host u.module p ⟨[], []⟩ = .failed f) ∧
      (∃ mask, evaluate .host u.module p threeRows = .done mask ∧ mask.length = 3 ∧
        evaluate .host u.module p ⟨threeRows.arrays, (50, 0) :: threeRows.scalars⟩ = .done mask) ∧
      evaluate .host u.module p ⟨threeRows.arrays, (-1, 0) :: threeRows.scalars⟩ = .crashed := by
  obtain ⟨u, p, hc, -, -⟩ := compile_belowLimit
  have hcol : ∀ c ∈ belowLimit.columns, c.toInt < 2 ^ 28 := by
    rw [columns_belowLimit]
    simp
  obtain ⟨hfail, hdone⟩ := evaluate_judges reachable_freshUnit hc .host
  have hmiss : Batch.Wrong belowLimit [1] ⟨[], []⟩ .missingColumn :=
    ⟨0, List.mem_cons_self, .inl ⟨by decide, rfl⟩⟩
  have hagree : Batch.Agrees belowLimit [1] threeRows
      ⟨threeRows.arrays, (50, 0) :: threeRows.scalars⟩ := by
    refine ⟨fun c _ _ => rfl, fun c _ hs => ?_⟩
    rw [List.mem_singleton.mp hs]
    rfl
  obtain ⟨hmask, -⟩ := hdone hcol u .refl rfl threeRows 3 (hasRows_threeRows [] rfl) (by decide)
    (by decide)
  obtain ⟨mask, he, hlen, hmore⟩ := hmask (by decide)
  obtain ⟨-, hcrash⟩ := hdone hcol u .refl rfl _ 3 (hasRows_threeRows [(-1, 0)] rfl) (by decide)
    (by decide)
  exact ⟨u, p, hc, (hfail u.module ⟨[], []⟩).1.mpr ⟨_, hmiss⟩,
    ⟨mask, he, hlen, hmore _ hagree (by decide)⟩, hcrash ⟨_, List.mem_cons_self, by decide⟩⟩

end TreeJit.Predicate
