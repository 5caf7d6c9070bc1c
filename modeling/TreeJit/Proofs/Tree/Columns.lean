import TreeJit.Proofs.Predicate.Compile

/-!
# How many columns a tree needs

`Tree.numColumns` adds one to a column in 64 bits, so the last column of all, `Int64.maxValue`, counts as
a negative number, and a maximum drops it.  For a tree that passes its check, `numColumns` is one past the
highest of the other columns, or negative if there is no other node (`toInt_numColumns`).  So the number
is the least bound of all columns, and rows of this length have every cell, exactly if the last column does
not occur (`check_numColumns`).
-/

namespace TreeJit

open SSA

/-! ## the highest of some columns -/

def onePast (cs : List Int64) : Int := cs.foldr (fun c n => max (c.toInt + 1) n) 0

section
variable {c : Int64} {cs : List Int64}

theorem onePast_cons (c : Int64) (cs : List Int64) :
    onePast (c :: cs) = max (c.toInt + 1) (onePast cs) := rfl

theorem onePast_nonneg (cs : List Int64) : 0 ≤ onePast cs := by
  induction cs with
  | nil => exact Int.le_refl 0
  | cons c cs ih =>
    rw [onePast_cons]
    omega

theorem onePast_append (cs ds : List Int64) : onePast (cs ++ ds) = max (onePast cs) (onePast ds) := by
  induction cs with
  | nil => exact (Int.max_eq_right (onePast_nonneg ds)).symm
  | cons c cs ih => rw [List.cons_append, onePast_cons, onePast_cons, ih, Int.max_assoc]

theorem lt_onePast (h : c ∈ cs) : c.toInt < onePast cs := by
  induction cs with
  | nil => cases h
  | cons d cs ih =>
    rw [onePast_cons]
    rcases List.mem_cons.mp h with rfl | h
    · omega
    · have := ih h
      omega

theorem exists_onePast (h0 : ∀ c ∈ cs, 0 ≤ c.toInt) (hne : cs ≠ []) :
    ∃ c ∈ cs, onePast cs = c.toInt + 1 := by
  induction cs with
  | nil => exact absurd rfl hne
  | cons d cs ih =>
    obtain ⟨hd, hcs⟩ := List.forall_mem_cons.mp h0
    rw [onePast_cons]
    by_cases hle : onePast cs ≤ d.toInt + 1
    · exact ⟨d, List.mem_cons_self, Int.max_eq_left hle⟩
    · have hne' : cs ≠ [] := by
        rintro rfl
        exact hle (show (0 : Int) ≤ _ by omega)
      obtain ⟨c, hc, e⟩ := ih hcs hne'
      exact ⟨c, List.mem_cons_of_mem _ hc, by omega⟩

end

/-! ## columns of a tree -/

namespace Tree

theorem toInt_succ {i : Int64} (h : i ≠ Int64.maxValue) : (i + 1).toInt = i.toInt + 1 := by
  have hne : i.toInt ≠ 2 ^ 63 - 1 := fun e => h (Int64.toInt_inj.mp e)
  have hlt := i.toInt_lt
  have hle := i.le_toInt
  have e1 : (1 : Int64).toInt = 1 := rfl
  rw [Int64.toInt_add, e1]
  exact Int.bmod_eq_of_le (by omega) (by omega)

/-- the columns that have one behind them -/
def inner (t : Tree) : List Int64 := t.columns.filter (· ≠ Int64.maxValue)

theorem columns_nonneg {t : Tree} (h : t.check = .ok ()) : ∀ c ∈ t.columns, 0 ≤ c.toInt := by
  induction t with
  | missing => cases h
  | literal => exact List.forall_mem_nil _
  | column i name =>
    intro c hc
    obtain rfl := List.mem_singleton.mp hc
    unfold check at h
    split at h
    · cases h
    · rename_i hi
      exact Int64.le_iff_toInt_le.mp (Int64.not_lt.mp hi)
  | binary op l r ihl ihr =>
    obtain ⟨-, hl, -, hr, -⟩ := check_binary h
    exact fun c hc => (List.mem_append.mp hc).elim (ihl hl c) (ihr hr c)

theorem toInt_numColumns_binary (op : Operator) (l r : Tree) :
    (binary op l r).numColumns.toInt = max 0 (max l.numColumns.toInt r.numColumns.toInt) := by
  rw [numColumns, toInt_max, toInt_max]
  rfl

/-- **The number of columns**, where it is one, is one past the highest column that has one behind it. -/
theorem max_numColumns {t : Tree} (h : t.check = .ok ()) : max 0 t.numColumns.toInt = onePast t.inner := by
  induction t with
  | missing => cases h
  | literal => rfl
  | column i name =>
    by_cases hi : i = Int64.maxValue
    · rw [hi]
      rfl
    · have h0 := columns_nonneg h i List.mem_cons_self
      have e : inner (.column i name) = [i] := List.filter_cons_of_pos (decide_eq_true hi)
      rw [e, numColumns, toInt_succ hi, onePast_cons]
      exact Int.max_comm _ _
  | binary op l r ihl ihr =>
    obtain ⟨-, hl, -, hr, -⟩ := check_binary h
    have e : (binary op l r).inner = l.inner ++ r.inner := List.filter_append ..
    rw [e, onePast_append, ← ihl hl, ← ihr hr, toInt_numColumns_binary]
    omega

/-- only the last column alone makes a number of columns negative -/
theorem toInt_numColumns {t : Tree} (h : t.check = .ok ()) :
    (∃ name, t = .column Int64.maxValue name) ∨ t.numColumns.toInt = onePast t.inner := by
  have hmax := max_numColumns h
  cases t with
  | missing => cases h
  | literal => exact .inr rfl
  | column i name =>
    by_cases hi : i = Int64.maxValue
    · exact .inl ⟨name, by rw [hi]⟩
    · have h0 := columns_nonneg h i List.mem_cons_self
      right
      rw [← hmax, numColumns, toInt_succ hi]
      omega
  | binary op l r =>
    right
    rw [← hmax, toInt_numColumns_binary]
    omega

/-! ## rows -/

/-- the number of columns is the least bound of the columns, and rows of this length have their cells -/
structure ColumnsBounded (t : Tree) : Prop where
  below : ∀ c ∈ t.columns, c < t.numColumns
  none : t.numColumns = 0 ↔ t.columns = []
  least : t.columns ≠ [] → t.numColumns - 1 ∈ t.columns
  cells : ∀ row : List UInt64, t.numColumns.toInt ≤ row.length →
    ∀ c ∈ t.columns, ∃ v, row[c.toInt.toNat]? = some v ∧ cell row c = v
  eval : ∀ (F : FloatOps) (row row' : List UInt64), t.numColumns.toInt ≤ row.length →
    t.numColumns.toInt ≤ row'.length → (∀ c ∈ t.columns, row[c.toInt.toNat]? = row'[c.toInt.toNat]?) →
    t.eval F row = t.eval F row'

theorem cell_of_lt {row : List UInt64} {c : Int64} (h0 : 0 ≤ c.toInt) (h : c.toInt < row.length) :
    ∃ v, row[c.toInt.toNat]? = some v ∧ cell row c = v := by
  have hn : c.toInt.toNat < row.length := by omega
  have hneg : ¬ c < 0 := Int64.not_lt.mpr (Int64.le_iff_toInt_le.mpr h0)
  refine ⟨row[c.toInt.toNat], List.getElem?_eq_getElem hn, ?_⟩
  rw [cell, if_neg hneg, List.getElem?_eq_getElem hn, Option.getD_some]

theorem columnsBounded_of_toInt {t : Tree} (h : t.check = .ok ())
    (e : t.numColumns.toInt = onePast t.columns) : t.ColumnsBounded := by
  have h0 := columns_nonneg h
  have hcells : ∀ row : List UInt64, t.numColumns.toInt ≤ row.length →
      ∀ c ∈ t.columns, ∃ v, row[c.toInt.toNat]? = some v ∧ cell row c = v := fun row hrow c hc =>
    cell_of_lt (h0 c hc) (by have := lt_onePast hc; omega)
  refine ⟨fun c hc => ?_, ⟨fun hz => ?_, fun hnil => ?_⟩, fun hne => ?_, hcells,
    fun F row row' hr hr' hrows => ?_⟩
  · rw [Int64.lt_iff_toInt_lt, e]
    exact lt_onePast hc
  · rw [hz] at e
    refine List.eq_nil_iff_forall_not_mem.mpr fun c hc => ?_
    have := lt_onePast hc
    have := h0 c hc
    have hzero : (0 : Int64).toInt = 0 := rfl
    omega
  · rw [hnil] at e
    exact Int64.toInt_inj.mp e
  · obtain ⟨c, hc, ec⟩ := exists_onePast h0 hne
    have hsub : t.numColumns - 1 = c := by
      have hlt := c.toInt_lt
      have e1 : (1 : Int64).toInt = 1 := rfl
      apply Int64.toInt_inj.mp
      rw [Int64.toInt_sub, e, ec, e1, Int.add_sub_cancel]
      have := h0 c hc
      exact Int.bmod_eq_of_le (by omega) (by omega)
    exact hsub ▸ hc
  · refine eval_congr fun c hc => ?_
    obtain ⟨v, hv, hcell⟩ := hcells row hr c hc
    obtain ⟨v', hv', hcell'⟩ := hcells row' hr' c hc
    rw [hcell, hcell', ← Option.some.injEq, ← hv, ← hv', hrows c hc]

/-- **How many columns a tree needs.**  In a tree that passes its check, the number of columns is the least
bound of the columns, and all cells are found in rows of this length, exactly if the last column of all
does not occur.  If it does, the number is one past the highest of the others, or negative if it stands
alone. -/
theorem check_numColumns {t : Tree} (h : t.check = .ok ()) :
    (t.ColumnsBounded ↔ Int64.maxValue ∉ t.columns) ∧
      (Int64.maxValue ∈ t.columns →
        (∃ name, t = .column Int64.maxValue name ∧ t.numColumns = Int64.minValue) ∨
          t.numColumns.toInt = onePast (t.columns.filter (· ≠ Int64.maxValue))) := by
  have hnum := toInt_numColumns h
  refine ⟨⟨fun hb hlast => ?_, fun hlast => ?_⟩, fun _ => hnum.imp_left ?_⟩
  · have := Int64.lt_iff_toInt_lt.mp (hb.below _ hlast)
    have hmax : Int64.maxValue.toInt = 2 ^ 63 - 1 := rfl
    have hlt := t.numColumns.toInt_lt
    omega
  · have hinner : t.inner = t.columns :=
      List.filter_eq_self.mpr fun c hc => decide_eq_true fun e => hlast (e ▸ hc)
    rw [hinner] at hnum
    refine columnsBounded_of_toInt h (hnum.resolve_left ?_)
    rintro ⟨name, rfl⟩
    exact hlast List.mem_cons_self
  · rintro ⟨name, rfl⟩
    exact ⟨name, rfl, rfl⟩

/-- a comparison of two columns, and one with the last column -/
theorem check_numColumns_compare :
    (binary (.compare .lt) (.column 2 "") (.column 0 "")).check = .ok () ∧
      (binary (.compare .lt) (.column 2 "") (.column 0 "")).ColumnsBounded ∧
      ¬ (binary (.compare .lt) (.column Int64.maxValue "") (.column 0 "")).ColumnsBounded :=
  ⟨rfl, (check_numColumns rfl).1.mpr (by decide), fun h => (check_numColumns rfl).1.mp h (by decide)⟩

/-- the last column is not counted -/
example : (binary (.compare .lt) (.column Int64.maxValue "") (.column 0 "")).check = .ok () ∧
    (binary (.compare .lt) (.column Int64.maxValue "") (.column 0 "")).numColumns = 1 := by decide

end Tree

end TreeJit
