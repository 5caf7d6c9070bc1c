import TreeJit.SSA.Passing

/-!
# Which lists of types can be passed in registers

Types take the registers of their file in order, so a list can be passed exactly if it holds no more
types of a file than the file has registers (`passing_ok_iff`).  The fault of a longer list is that
of its file (`passing_cases`), and the register of a type is counted by the types of the same file in
front of it (`passing_get`).  A signature fits two such limits if its parameters and its results do
(`Signature.Passable`).
-/

namespace TreeJit.SSA

def regCount (c : RegClass) (ts : List Ty) : Nat := ts.countP fun t => t.regClass = c

def RegLimits.limit (lim : RegLimits) : RegClass → Int
  | .int => lim.ints
  | .float => lim.floats

/-- there are registers enough for a list -/
def RegLimits.Admits (lim : RegLimits) (ts : List Ty) : Prop :=
  ∀ c, (regCount c ts : Int) ≤ lim.limit c

instance (lim : RegLimits) (ts : List Ty) : Decidable (lim.Admits ts) :=
  decidable_of_iff ((regCount .int ts : Int) ≤ lim.ints ∧ (regCount .float ts : Int) ≤ lim.floats)
    ⟨fun h c => by cases c; exact h.1; exact h.2, fun h => ⟨h .int, h .float⟩⟩

theorem regCount_nil (c : RegClass) : regCount c [] = 0 := rfl

theorem regCount_cons (c : RegClass) (t : Ty) (ts : List Ty) :
    regCount c (t :: ts) = regCount c ts + if t.regClass = c then 1 else 0 := by
  unfold regCount
  rw [List.countP_cons]
  simp

/-- the registers taken before a list, by file -/
def taken (i f : Nat) : RegClass → Nat
  | .int => i
  | .float => f

section
variable (lim : RegLimits) (i f : Nat)

theorem passingFrom_cons (t : Ty) (ts : List Ty) : ∃ i' f',
    (∀ c, taken i' f' c = taken i f c + if t.regClass = c then 1 else 0) ∧
    passingFrom lim i f (t :: ts) =
      if (taken i f t.regClass : Int) < lim.limit t.regClass then do
        let rest ← passingFrom lim i' f' ts
        return ⟨t.regClass, taken i f t.regClass⟩ :: rest
      else .error (lim.overflow t.regClass (lim.limit t.regClass)) := by
  rw [passingFrom]
  cases t.regClass with
  | int => exact ⟨i + 1, f, fun c => by cases c <;> rfl, rfl⟩
  | float => exact ⟨i, f + 1, fun c => by cases c <;> rfl, rfl⟩

theorem passingFrom_cases (ts : List Ty) (h : ∀ c, (taken i f c : Int) ≤ lim.limit c) :
    (∃ ls, passingFrom lim i f ts = .ok ls ∧ ls.length = ts.length ∧
      (∀ c, (taken i f c + regCount c ts : Int) ≤ lim.limit c) ∧
      ∀ (k : Nat) t, ts[k]? = some t →
        ls[k]? = some ⟨t.regClass, taken i f t.regClass + regCount t.regClass (ts.take k)⟩) ∨
    ∃ c, passingFrom lim i f ts = .error (lim.overflow c (lim.limit c)) ∧
      lim.limit c < taken i f c + regCount c ts := by
  induction ts generalizing i f with
  | nil => exact .inl ⟨[], rfl, rfl, fun c => by simpa [regCount_nil] using h c, nofun⟩
  | cons t ts ih =>
    obtain ⟨i', f', ht, he⟩ := passingFrom_cons lim i f t ts
    rw [he]
    by_cases hlt : (taken i f t.regClass : Int) < lim.limit t.regClass
    · rw [if_pos hlt]
      have h' : ∀ c, (taken i' f' c : Int) ≤ lim.limit c := by
        intro c
        have hc := h c
        rw [ht]
        split
        · rename_i e
          subst e
          omega
        · omega
      rcases ih i' f' h' with ⟨ls, hls, hlen, hc, hget⟩ | ⟨c, hc, hover⟩
      · refine .inl ⟨⟨t.regClass, taken i f t.regClass⟩ :: ls, by rw [hls]; rfl,
          by simp [hlen], fun c => ?_, fun k u hu => ?_⟩
        · have := hc c
          rw [ht] at this
          rw [regCount_cons]
          push_cast at this ⊢
          omega
        · cases k with
          | zero =>
            cases hu
            rw [List.take_zero, regCount_nil]
            rfl
          | succ k =>
            rw [List.getElem?_cons_succ, hget k u hu, ht, List.take_succ_cons, regCount_cons]
            congr 2
            omega
      · refine .inr ⟨c, by rw [hc]; rfl, ?_⟩
        rw [ht] at hover
        rw [regCount_cons]
        push_cast at hover ⊢
        omega
    · rw [if_neg hlt]
      refine .inr ⟨t.regClass, rfl, ?_⟩
      rw [regCount_cons, if_pos rfl]
      push_cast
      omega

end

section
variable {lim : RegLimits} {ts : List Ty}

theorem passingFrom_nodup {i f : Nat} {ls : List RegLoc} (h : passingFrom lim i f ts = .ok ls) :
    ls.Nodup ∧ ls.map RegLoc.file = ts.map Ty.regClass ∧
      ∀ loc ∈ ls, taken i f loc.file ≤ loc.index := by
  induction ts generalizing i f ls with
  | nil =>
    cases h
    exact ⟨List.nodup_nil, rfl, nofun⟩
  | cons t ts ih =>
    obtain ⟨i', f', ht, he⟩ := passingFrom_cons lim i f t ts
    rw [he] at h
    split at h
    · cases hr : passingFrom lim i' f' ts with
      | error e =>
        rw [hr] at h
        cases h
      | ok rest =>
        rw [hr] at h
        cases h
        obtain ⟨hn, hfile, hle⟩ := ih hr
        refine ⟨List.nodup_cons.mpr ⟨fun hm => ?_, hn⟩, by rw [List.map_cons, hfile]; rfl, ?_⟩
        · have := hle _ hm
          rw [ht, if_pos rfl] at this
          exact absurd this (Nat.not_succ_le_self _)
        · intro loc hm
          rcases List.mem_cons.mp hm with rfl | hm
          · exact Nat.le_refl _
          · have := hle loc hm
            rw [ht] at this
            exact Nat.le_trans (Nat.le_add_right _ _) this
    · cases h

theorem passing_cases (ts : List Ty) (h : ∀ c, 0 ≤ lim.limit c) :
    (∃ ls, passing lim ts = .ok ls ∧ lim.Admits ts ∧ ls.length = ts.length ∧
      ∀ (k : Nat) t, ts[k]? = some t →
        ls[k]? = some ⟨t.regClass, regCount t.regClass (ts.take k)⟩) ∨
    ∃ c, passing lim ts = .error (lim.overflow c (lim.limit c)) ∧ ¬ lim.Admits ts := by
  have h0 : ∀ c, taken 0 0 c = 0 := fun c => by cases c <;> rfl
  rcases passingFrom_cases lim 0 0 ts (fun c => by rw [h0]; exact h c) with
    ⟨ls, hls, hlen, hc, hget⟩ | ⟨c, hc, hover⟩
  · refine .inl ⟨ls, hls, fun c => ?_, hlen, fun k t ht => ?_⟩
    · simpa [h0] using hc c
    · simpa [h0] using hget k t ht
  · refine .inr ⟨c, hc, fun ha => ?_⟩
    have := ha c
    simp only [h0] at hover
    push_cast at hover
    omega

/-- **A list can be passed exactly if it fits the registers.** -/
theorem passing_ok_iff (h : ∀ c, 0 ≤ lim.limit c) :
    (∃ ls, passing lim ts = .ok ls) ↔ lim.Admits ts := by
  rcases passing_cases ts h with ⟨ls, hls, ha, -⟩ | ⟨c, hc, ha⟩
  · exact ⟨fun _ => ha, fun _ => ⟨ls, hls⟩⟩
  · refine ⟨fun ⟨ls, hls⟩ => ?_, fun h => absurd h ha⟩
    rw [hc] at hls
    cases hls

/-- the register of a type is counted by the types of its file in front of it -/
theorem passing_get (h : ∀ c, 0 ≤ lim.limit c) {ls : List RegLoc} (hl : passing lim ts = .ok ls) :
    ls.length = ts.length ∧ ∀ (k : Nat) t, ts[k]? = some t →
      ls[k]? = some ⟨t.regClass, regCount t.regClass (ts.take k)⟩ := by
  rcases passing_cases ts h with ⟨ls', hls, -, hlen, hget⟩ | ⟨c, hc, -⟩
  · rw [hls] at hl
    cases hl
    exact ⟨hlen, hget⟩
  · rw [hc] at hl
    cases hl

theorem passing_lt (h : ∀ c, 0 ≤ lim.limit c) {ls : List RegLoc} (hl : passing lim ts = .ok ls) :
    ∀ loc ∈ ls, (loc.index : Int) < lim.limit loc.file := by
  have hadm := (passing_ok_iff h).mp ⟨ls, hl⟩
  obtain ⟨hlen, hget⟩ := passing_get h hl
  intro loc hloc
  obtain ⟨k, hk⟩ := List.mem_iff_getElem?.mp hloc
  have hkl : k < ts.length := by
    rw [← hlen]
    exact (List.getElem?_eq_some_iff.mp hk).1
  rw [hget k ts[k] (List.getElem?_eq_getElem hkl)] at hk
  cases hk
  -- the type itself is one more of its file
  have e : ts.take k ++ ts[k] :: ts.drop (k + 1) = ts := by
    rw [← List.drop_eq_getElem_cons hkl, List.take_append_drop]
  have hle : regCount ts[k].regClass (ts.take k ++ ts[k] :: ts.drop (k + 1)) =
      regCount ts[k].regClass (ts.take k) + (regCount ts[k].regClass (ts.drop (k + 1)) + 1) := by
    unfold regCount
    rw [List.countP_append, List.countP_cons_of_pos (by simp)]
  rw [e] at hle
  have := hadm ts[k].regClass
  simp only
  omega

end

/-! ## signatures -/

/-- a fault that says that there are not registers enough -/
def Fault.Overflow (e : Fault) : Prop := e.kind = .tooManyParams ∨ e.kind = .tooManyResults

/-- there are registers for the parameters and for the results -/
def Signature.Passable (ps rs : RegLimits) (sig : Signature) : Prop :=
  ps.Admits sig.params ∧ rs.Admits sig.returns

/-- there are no fewer than no registers, and what is said of a longer list is that it is longer -/
def RegLimits.Proper (lim : RegLimits) : Prop :=
  ∀ c, 0 ≤ lim.limit c ∧ (lim.overflow c (lim.limit c)).Overflow

theorem Signature.passing_cases {ps rs : RegLimits} (hps : ps.Proper) (hrs : rs.Proper)
    (sig : Signature) :
    (∃ ins outs, passing ps sig.params = .ok ins ∧ passing rs sig.returns = .ok outs ∧
      sig.Passable ps rs) ∨
    ∃ g : Fault, g.Overflow ∧ ¬ sig.Passable ps rs ∧ (passing ps sig.params = .error g ∨
      ∃ ins, passing ps sig.params = .ok ins ∧ passing rs sig.returns = .error g) := by
  rcases SSA.passing_cases sig.params fun c => (hps c).1 with
    ⟨ins, hin, ha, -⟩ | ⟨c, hin, ha⟩
  · rcases SSA.passing_cases sig.returns fun c => (hrs c).1 with
      ⟨outs, hout, ha', -⟩ | ⟨c, hout, ha'⟩
    · exact .inl ⟨ins, outs, hin, hout, ha, ha'⟩
    · exact .inr ⟨_, (hrs c).2, fun h => ha' h.2, .inr ⟨ins, hin, hout⟩⟩
  · exact .inr ⟨_, (hps c).2, fun h => ha h.1, .inl hin⟩

end TreeJit.SSA
