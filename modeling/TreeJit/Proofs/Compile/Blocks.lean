import TreeJit.Compile.Backend
import TreeJit.Proofs.Code.Labels
import TreeJit.Proofs.SSA.Passing
import TreeJit.Proofs.SSA.WellFormed

/-!
# The labels of compiled code

Both machines make a function into lines in the same way, and this is proved once, for instructions
of any kind `ι`.

* `Describes`               what is known of some lines: the labels they mark, the labels and the
                            symbols their instructions name, and a property of their instructions;
* `blocksLines`             the lines of blocks, given the lines of a step;
* `PlainCode`               instructions without labels and symbols; everything but branches and calls
                            is lowered to such;
* `Func.labels`             the labels of a function: its blocks, and the second half of every
                            conditional branch.  No label occurs twice (`Func.WellFormed.nodup_labels`);
* `blocksLines_cases`       the blocks of a function become lines exactly if there are registers for
                            every call;
* `Describes.assemble`      lines that name no labels but their own are assembled unless an
                            instruction is refused or a displacement does not fit.
-/

namespace TreeJit.Compile

open SSA

/-! ## lines -/

section
variable {ι : Type}

def instrsOf (lines : List (Line ι)) : List ι :=
  lines.filterMap fun
    | .mark _ => none
    | .instr i => some i

theorem mem_instrsOf {i : ι} {lines : List (Line ι)} : i ∈ instrsOf lines ↔ Line.instr i ∈ lines := by
  unfold instrsOf
  rw [List.mem_filterMap]
  constructor
  · rintro ⟨x, hx, e⟩
    cases x with
    | mark l => cases e
    | instr j =>
      cases e
      exact hx
  · exact fun h => ⟨_, h, rfl⟩

theorem instrsOf_append (xs ys : List (Line ι)) :
    instrsOf (xs ++ ys) = instrsOf xs ++ instrsOf ys := List.filterMap_append

theorem instrsOf_map (is : List ι) : instrsOf (is.map Line.instr) = is := by
  unfold instrsOf
  rw [List.filterMap_map]
  exact List.filterMap_some

theorem markedLabels_append (xs ys : List (Line ι)) :
    markedLabels (xs ++ ys) = markedLabels xs ++ markedLabels ys := List.filterMap_append

theorem markedLabels_map (is : List ι) : markedLabels (is.map Line.instr) = [] := by
  unfold markedLabels
  rw [List.filterMap_map]
  exact List.filterMap_eq_nil_iff.mpr fun _ _ => rfl

structure Describes (label? symbol? : ι → Option String) (P : ι → Prop) (Named : String → Prop)
    (lines : List (Line ι)) (marks symbols : List String) : Prop where
  marks : markedLabels lines = marks
  named : ∀ i ∈ instrsOf lines, ∀ l, label? i = some l → Named l
  symbols : (instrsOf lines).filterMap symbol? = symbols
  holds : ∀ i ∈ instrsOf lines, P i

variable {label? symbol? : ι → Option String} {P : ι → Prop} {Named : String → Prop}
  {lines lines' : List (Line ι)} {marks marks' symbols symbols' : List String}

theorem Describes.nil : Describes label? symbol? P Named [] [] [] :=
  ⟨rfl, nofun, rfl, nofun⟩

theorem Describes.append (h : Describes label? symbol? P Named lines marks symbols)
    (h' : Describes label? symbol? P Named lines' marks' symbols') :
    Describes label? symbol? P Named (lines ++ lines') (marks ++ marks') (symbols ++ symbols') := by
  refine ⟨?_, fun i hi => ?_, ?_, fun i hi => ?_⟩
  · rw [markedLabels_append, h.marks, h'.marks]
  · rw [instrsOf_append] at hi
    exact (List.mem_append.mp hi).elim (h.named i) (h'.named i)
  · rw [instrsOf_append, List.filterMap_append, h.symbols, h'.symbols]
  · rw [instrsOf_append] at hi
    exact (List.mem_append.mp hi).elim (h.holds i) (h'.holds i)

theorem Describes.mark (l : String) : Describes label? symbol? P Named [.mark l] [l] [] :=
  ⟨rfl, nofun, rfl, nofun⟩

theorem Describes.code {is : List ι} (hP : ∀ i ∈ is, P i) (hl : ∀ i ∈ is, label? i = none)
    (hs : ∀ i ∈ is, symbol? i = none) :
    Describes label? symbol? P Named (is.map Line.instr) [] [] := by
  refine ⟨markedLabels_map is, ?_, ?_, ?_⟩
  · rw [instrsOf_map]
    intro i hi l e
    rw [hl i hi] at e
    cases e
  · rw [instrsOf_map]
    exact List.filterMap_eq_nil_iff.mpr hs
  · rw [instrsOf_map]
    exact hP

def PlainCode (label? symbol? : ι → Option String) (P : ι → Prop) (is : List ι) : Prop :=
  ∀ i ∈ is, P i ∧ label? i = none ∧ symbol? i = none

namespace PlainCode
variable {is js : List ι} {i : ι}

theorem nil : PlainCode label? symbol? P [] := nofun

theorem cons (hi : P i ∧ label? i = none ∧ symbol? i = none) (h : PlainCode label? symbol? P is) :
    PlainCode label? symbol? P (i :: is) := List.forall_mem_cons.mpr ⟨hi, h⟩

theorem append (h : PlainCode label? symbol? P is) (h' : PlainCode label? symbol? P js) :
    PlainCode label? symbol? P (is ++ js) := List.forall_mem_append.mpr ⟨h, h'⟩

theorem flatten {iss : List (List ι)} (h : ∀ is ∈ iss, PlainCode label? symbol? P is) :
    PlainCode label? symbol? P iss.flatten := by
  intro i hi
  obtain ⟨is, his, hi⟩ := List.mem_flatten.mp hi
  exact h is his i hi

theorem flatMap {α : Type} {xs : List α} {f : α → List ι}
    (h : ∀ x ∈ xs, PlainCode label? symbol? P (f x)) : PlainCode label? symbol? P (xs.flatMap f) := by
  intro i hi
  obtain ⟨x, hx, hi⟩ := List.mem_flatMap.mp hi
  exact h x hx i hi

theorem lowered (h : PlainCode label? symbol? P is) :
    Describes label? symbol? P Named (is.map Line.instr) [] [] :=
  .code (fun i hi => (h i hi).1) (fun i hi => (h i hi).2.1) fun i hi => (h i hi).2.2

end PlainCode

theorem Describes.instr {i : ι} (hP : P i) (hl : ∀ l, label? i = some l → Named l) :
    Describes label? symbol? P Named [.instr i] [] (symbol? i).toList := by
  refine ⟨rfl, ?_, ?_, ?_⟩
  · rintro j (_ | ⟨_, ⟨⟩⟩)
    exact hl
  · show [i].filterMap symbol? = _
    cases e : symbol? i <;> simp [e]
  · rintro j (_ | ⟨_, ⟨⟩⟩)
    exact hP

end

/-! ## labels of a function -/

theorem toString_inj {n k : Nat} (h : toString n = toString k) : n = k := by
  have hd : Nat.toDigits 10 n = Nat.toDigits 10 k := by
    simpa [ToString.toString] using congrArg String.toList h
  have := congrArg (fun ds => Nat.ofDigitChars 10 ds 0) hd
  simpa [Nat.ofDigitChars_toDigits] using this

theorem blockLabel_inj {b b' : Nat} (h : blockLabel b = blockLabel b') : b = b' :=
  toString_inj ((String.append_right_inj _).mp h)

theorem elseLabel_inj {b b' : Nat} (h : elseLabel b = elseLabel b') : b = b' :=
  toString_inj ((String.append_right_inj _).mp h)

theorem blockLabel_ne_elseLabel (b b' : Nat) : blockLabel b ≠ elseLabel b' := by
  intro h
  have := congrArg (fun s : String => s.toList.head?) h
  simp [blockLabel, elseLabel, ToString.toString] at this

def elsesOf (b : Nat) (s : Step) : List String :=
  match s.inst with
  | .brif .. => [elseLabel b]
  | _ => []

def labelsFrom : Nat → List Block → List String
  | _, [] => []
  | b, blk :: blks => blockLabel b :: blk.steps.toList.flatMap (elsesOf b) ++ labelsFrom (b + 1) blks

theorem blockLabel_mem_labelsFrom {b k : Nat} {blks : List Block} (h : k < blks.length) :
    blockLabel (b + k) ∈ labelsFrom b blks := by
  induction blks generalizing b k with
  | nil => cases h
  | cons blk blks ih =>
    cases k with
    | zero => exact List.mem_append_left _ List.mem_cons_self
    | succ k =>
      have := ih (b := b + 1) (Nat.lt_of_succ_lt_succ h)
      rw [Nat.add_right_comm] at this
      exact List.mem_append_right _ this

theorem elseLabel_mem_labelsFrom {b k : Nat} {blks : List Block} {blk : Block}
    (h : blks[k]? = some blk) {s : Step} (hs : s ∈ blk.steps.toList) {l : String}
    (hl : l ∈ elsesOf (b + k) s) : l ∈ labelsFrom b blks := by
  induction blks generalizing b k with
  | nil => cases h
  | cons blk' blks ih =>
    cases k with
    | zero =>
      cases h
      exact List.mem_append_left _ (List.mem_cons_of_mem _ (List.mem_flatMap.mpr ⟨s, hs, hl⟩))
    | succ k =>
      refine List.mem_append_right _ (ih (b := b + 1) h ?_)
      rwa [Nat.add_right_comm]

theorem eq_of_mem_elsesOf {b : Nat} {s : Step} {l : String} (h : l ∈ elsesOf b s) :
    l = elseLabel b := by
  unfold elsesOf at h
  split at h
  · exact List.mem_singleton.mp h
  · cases h

theorem of_mem_labelsFrom {b : Nat} {blks : List Block} {l : String} (h : l ∈ labelsFrom b blks) :
    ∃ n, b ≤ n ∧ (l = blockLabel n ∨ l = elseLabel n) := by
  induction blks generalizing b with
  | nil => cases h
  | cons blk blks ih =>
    rcases List.mem_append.mp h with h | h
    · rcases List.mem_cons.mp h with rfl | h
      · exact ⟨b, le_rfl, .inl rfl⟩
      · obtain ⟨s, -, hs⟩ := List.mem_flatMap.mp h
        exact ⟨b, le_rfl, .inr (eq_of_mem_elsesOf hs)⟩
    · obtain ⟨n, hn, hl⟩ := ih h
      exact ⟨n, by omega, hl⟩

/-- a block that ends once has at most one label inside -/
theorem nodup_elses (b : Nat) {ss : List Step} {s : Step}
    (h : ∀ s' ∈ ss, s'.inst.isTerminator = false) : ((ss ++ [s]).flatMap (elsesOf b)).Nodup := by
  have hnil : ss.flatMap (elsesOf b) = [] := by
    refine List.flatMap_eq_nil_iff.mpr fun s' hs' => ?_
    have ht := h s' hs'
    unfold elsesOf
    split
    · rename_i e
      rw [e] at ht
      cases ht
    · rfl
  rw [List.flatMap_append, hnil, List.nil_append, List.flatMap_cons, List.flatMap_nil, List.append_nil]
  unfold elsesOf
  split
  · exact List.nodup_singleton _
  · exact List.nodup_nil

theorem nodup_labelsFrom (b : Nat) {blks : List Block} (h : ∀ blk ∈ blks, ∃ ss s,
    blk.steps.toList = ss ++ [s] ∧ ∀ s' ∈ ss, s'.inst.isTerminator = false) :
    (labelsFrom b blks).Nodup := by
  induction blks generalizing b with
  | nil => exact List.nodup_nil
  | cons blk blks ih =>
    obtain ⟨ss, s, e, ht⟩ := h blk List.mem_cons_self
    refine List.nodup_append.mpr ⟨?_, ih (b + 1) fun blk' hb => h blk' (List.mem_cons_of_mem _ hb), ?_⟩
    · rw [e]
      refine List.nodup_cons.mpr ⟨fun hm => ?_, nodup_elses b ht⟩
      obtain ⟨s', -, hs'⟩ := List.mem_flatMap.mp hm
      exact blockLabel_ne_elseLabel b b (eq_of_mem_elsesOf hs')
    · -- the labels of later blocks have greater numbers
      rintro l hl l' hl' rfl
      obtain ⟨n, hn, e'⟩ := of_mem_labelsFrom hl'
      have hb : l = blockLabel b ∨ l = elseLabel b := by
        rcases List.mem_cons.mp hl with rfl | hl
        · exact .inl rfl
        · obtain ⟨s', -, hs'⟩ := List.mem_flatMap.mp hl
          exact .inr (eq_of_mem_elsesOf hs')
      rcases hb with rfl | rfl
      · rcases e' with e' | e'
        · have := blockLabel_inj e'
          omega
        · exact blockLabel_ne_elseLabel _ _ e'
      · rcases e' with e' | e'
        · exact blockLabel_ne_elseLabel _ _ e'.symm
        · have := elseLabel_inj e'
          omega

end TreeJit.Compile

namespace TreeJit.SSA

open TreeJit.Compile

def Func.labels (f : Func) : List String := labelsFrom 0 f.blocks.toList

theorem Func.WellFormed.nodup_labels {f : Func} (h : f.WellFormed) : f.labels.Nodup := by
  refine nodup_labelsFrom 0 fun blk hb => ?_
  obtain ⟨n, hn⟩ := List.mem_iff_getElem?.mp hb
  obtain ⟨ss, s, e, -, ht⟩ := h.ended n blk (by rwa [Array.getElem?_toList] at hn)
  exact ⟨ss, s, e, ht⟩

/-- if a step is a call, there are registers for what it passes -/
def Func.CallPassable (f : Func) (ps rs : RegLimits) (s : Step) : Prop :=
  ∀ n args ext, s.inst = .call n args → f.imports[n]? = some ext → ext.sig.Passable ps rs

instance (f : Func) (ps rs : RegLimits) (s : Step) : Decidable (f.CallPassable ps rs s) :=
  decidable_of_iff (∀ ext ∈ (match s.inst with | .call n _ => f.imports[n]? | _ => none),
      ps.Admits ext.sig.params ∧ rs.Admits ext.sig.returns) <| by
    constructor
    · intro h n args ext hs he
      rw [hs] at h
      exact h ext he
    · intro h ext he
      split at he
      · exact h _ _ ext ‹_› he
      · cases he

/-- there are registers for the function itself and for everything it calls -/
def Func.Passable (f : Func) (ps rs : RegLimits) : Prop :=
  f.sig.Passable ps rs ∧ ∀ s ∈ f.steps, f.CallPassable ps rs s

instance (f : Func) (ps rs : RegLimits) : Decidable (f.Passable ps rs) :=
  inferInstanceAs (Decidable ((ps.Admits f.sig.params ∧ rs.Admits f.sig.returns) ∧ _))

theorem Func.Supplies.label_mem {f : Func} {t : Target} (h : f.Supplies t) :
    blockLabel t.block ∈ f.labels := by
  obtain ⟨dest, -, hd, -⟩ := h
  have hlt : t.block < f.blocks.toList.length := by
    rw [Array.length_toList]
    exact (Array.getElem?_eq_some_iff.mp hd).1
  have := blockLabel_mem_labelsFrom (b := 0) hlt
  rwa [Nat.zero_add] at this

theorem Func.elses_mem {f : Func} {b : Nat} {blk : Block} (hb : f.blocks[b]? = some blk) {s : Step}
    (hs : s ∈ blk.steps.toList) : ∀ l ∈ elsesOf b s, l ∈ f.labels := by
  intro l hl
  refine elseLabel_mem_labelsFrom (b := 0) (k := b) (by rwa [Array.getElem?_toList]) hs ?_
  rwa [Nat.zero_add]

theorem Func.callPassable_iff {f : Func} {ps rs : RegLimits} {n : Nat} {args results : List ValueNo}
    {ext : Import} (he : f.imports[n]? = some ext) :
    f.CallPassable ps rs ⟨.call n args, results⟩ ↔ ext.sig.Passable ps rs := by
  refine ⟨fun h => h n args ext rfl he, fun h n' args' ext' e he' => ?_⟩
  cases e
  rw [he] at he'
  cases he'
  exact h

def Func.calledName? (f : Func) (s : Step) : Option String :=
  match s.inst with
  | .call fn _ => (f.imports[fn]?).map Import.name
  | _ => none

end TreeJit.SSA

namespace TreeJit.Compile

open SSA

/-! ## blocks -/

section
variable {ι : Type}

def stepsLines (step : Step → Except StepFault (List (Line ι))) :
    List Step → Except StepFault (List (Line ι))
  | [] => .ok []
  | s :: ss => do
    let here ← step s
    let rest ← stepsLines step ss
    return here ++ rest

/-- the lines of blocks numbered from `b`, each behind its padding and its label -/
def blocksLines (step : Nat → Step → Except StepFault (List (Line ι))) (pad : Nat → List (Line ι)) :
    Nat → List Block → Except FuncFault (List (Line ι))
  | _, [] => .ok []
  | b, blk :: blks => do
    let body ← (stepsLines (step b) blk.steps.toList).mapError (.inBlock b)
    let rest ← blocksLines step pad (b + 1) blks
    return pad b ++ .mark (blockLabel b) :: body ++ rest

variable {label? symbol? : ι → Option String} {P : ι → Prop} {Named : String → Prop}

theorem stepsLines_ok {step : Step → Except StepFault (List (Line ι))} {b : Nat}
    {called : Step → Option String} {ss : List Step} (h : ∀ s ∈ ss, ∀ ls, step s = .ok ls →
      Describes label? symbol? P Named ls (elsesOf b s) (called s).toList)
    {lines : List (Line ι)} (he : stepsLines step ss = .ok lines) :
    Describes label? symbol? P Named lines (ss.flatMap (elsesOf b)) (ss.filterMap called) := by
  induction ss generalizing lines with
  | nil =>
    cases he
    exact .nil
  | cons s ss ih =>
    obtain ⟨here, hh, he⟩ := bind_eq_ok.mp he
    obtain ⟨rest, hr, he⟩ := bind_eq_ok.mp he
    cases he
    have := (h s List.mem_cons_self here hh).append (ih (fun s' hs' => h s' (List.mem_cons_of_mem _ hs')) hr)
    rw [List.flatMap_cons]
    cases e : called s <;> simpa [e] using this

theorem stepsLines_mem_ok {step : Step → Except StepFault (List (Line ι))} {ss : List Step}
    {lines : List (Line ι)} (he : stepsLines step ss = .ok lines) :
    ∀ s ∈ ss, ∃ ls, step s = .ok ls := by
  induction ss generalizing lines with
  | nil => exact List.forall_mem_nil _
  | cons s ss ih =>
    obtain ⟨here, hh, he⟩ := bind_eq_ok.mp he
    obtain ⟨rest, hr, -⟩ := bind_eq_ok.mp he
    exact List.forall_mem_cons.mpr ⟨⟨here, hh⟩, ih hr⟩

theorem stepsLines_split {step : Step → Except StepFault (List (Line ι))} {ss : List Step}
    {lines : List (Line ι)} (he : stepsLines step ss = .ok lines) {k : Nat} {s : Step}
    (hk : ss[k]? = some s) :
    ∃ earlier here rest, lines = earlier ++ (here ++ rest) ∧
      stepsLines step (ss.take k) = .ok earlier ∧ step s = .ok here := by
  induction ss generalizing k lines with
  | nil => cases hk
  | cons s' ss ih =>
    obtain ⟨first, hf, he⟩ := bind_eq_ok.mp he
    obtain ⟨more, hm, he⟩ := bind_eq_ok.mp he
    cases he
    cases k with
    | zero =>
      cases hk
      exact ⟨[], first, more, rfl, rfl, hf⟩
    | succ k =>
      obtain ⟨earlier, here, rest, rfl, hearlier, hhere⟩ := ih hm hk
      refine ⟨first ++ earlier, here, rest, (List.append_assoc _ _ _).symm, ?_, hhere⟩
      exact bind_eq_ok.mpr ⟨first, hf, bind_eq_ok.mpr ⟨earlier, hearlier, rfl⟩⟩

theorem stepsLines_error {step : Step → Except StepFault (List (Line ι))} {ss : List Step}
    {e : StepFault} (he : stepsLines step ss = .error e) : ∃ s ∈ ss, step s = .error e := by
  induction ss with
  | nil => cases he
  | cons s ss ih =>
    unfold stepsLines at he
    cases hs : step s with
    | error e' =>
      rw [hs] at he
      cases he
      exact ⟨s, List.mem_cons_self, hs⟩
    | ok here =>
      cases hr : stepsLines step ss with
      | error e' =>
        rw [hs, hr] at he
        cases he
        obtain ⟨s', hs', h'⟩ := ih hr
        exact ⟨s', List.mem_cons_of_mem _ hs', h'⟩
      | ok rest =>
        rw [hs, hr] at he
        cases he

variable {step : Nat → Step → Except StepFault (List (Line ι))} {pad : Nat → List (Line ι)}

theorem blocksLines_ok {called : Step → Option String}
    (hpad : ∀ b, Describes label? symbol? P Named (pad b) [] [])
    {b : Nat} {blks : List Block} (h : ∀ k blk, blks[k]? = some blk → ∀ s ∈ blk.steps.toList,
      ∀ ls, step (b + k) s = .ok ls →
        Describes label? symbol? P Named ls (elsesOf (b + k) s) (called s).toList)
    {lines : List (Line ι)} (he : blocksLines step pad b blks = .ok lines) :
    Describes label? symbol? P Named lines (labelsFrom b blks)
      (blks.flatMap fun blk => blk.steps.toList.filterMap called) := by
  induction blks generalizing b lines with
  | nil =>
    cases he
    exact .nil
  | cons blk blks ih =>
    obtain ⟨body, hb, he⟩ := bind_eq_ok.mp he
    obtain ⟨rest, hr, he⟩ := bind_eq_ok.mp he
    cases he
    have hbody : Describes label? symbol? P Named body (blk.steps.toList.flatMap (elsesOf b))
        (blk.steps.toList.filterMap called) := by
      exact stepsLines_ok (h 0 blk rfl) (mapError_eq_ok.mp hb)
    have hrest := ih (b := b + 1) (fun k blk' hk s hs ls hls => by
      have := h (k + 1) blk' hk s hs ls
      rw [← Nat.add_assoc, Nat.add_right_comm] at this
      exact this hls) hr
    exact ((hpad b).append ((Describes.mark (blockLabel b)).append hbody)).append hrest

theorem blocksLines_mem_ok {b : Nat} {blks : List Block} {lines : List (Line ι)}
    (he : blocksLines step pad b blks = .ok lines) : ∀ (k : Nat) blk, blks[k]? = some blk →
      ∀ s ∈ blk.steps.toList, ∃ ls, step (b + k) s = .ok ls := by
  induction blks generalizing b lines with
  | nil => nofun
  | cons blk blks ih =>
    obtain ⟨body, hb, he⟩ := bind_eq_ok.mp he
    obtain ⟨rest, hr, -⟩ := bind_eq_ok.mp he
    intro k blk' hk
    cases k with
    | zero =>
      cases hk
      exact stepsLines_mem_ok (mapError_eq_ok.mp hb)
    | succ k =>
      have := ih hr k blk' hk
      rwa [Nat.add_right_comm] at this

/-- the lines of blocks, taken apart at one of them; in front of the first one is its padding only -/
theorem blocksLines_split {b k : Nat} {blks : List Block} {lines : List (Line ι)}
    (he : blocksLines step pad b blks = .ok lines) {blk : Block} (hk : blks[k]? = some blk) :
    ∃ pre body post, lines = pre ++ .mark (blockLabel (b + k)) :: (body ++ post) ∧
      stepsLines (step (b + k)) blk.steps.toList = .ok body ∧ (k = 0 → pre = pad b) := by
  induction blks generalizing b k lines with
  | nil => cases hk
  | cons blk' blks ih =>
    obtain ⟨body, hb, he⟩ := bind_eq_ok.mp he
    obtain ⟨rest, hr, he⟩ := bind_eq_ok.mp he
    cases he
    cases k with
    | zero =>
      cases hk
      exact ⟨pad b, body, rest, List.append_assoc _ _ _, mapError_eq_ok.mp hb, fun _ => rfl⟩
    | succ k =>
      obtain ⟨pre, body', post, rfl, hbody', -⟩ := ih hr hk
      rw [Nat.add_right_comm, Nat.add_assoc] at hbody' ⊢
      exact ⟨_, body', post, (List.append_assoc _ _ _).symm, hbody', nofun⟩

theorem blocksLines_error {b : Nat} {blks : List Block} {e : FuncFault}
    (he : blocksLines step pad b blks = .error e) : ∃ k blk g, blks[k]? = some blk ∧
      e = .inBlock (b + k) g ∧ ∃ s ∈ blk.steps.toList, step (b + k) s = .error g := by
  induction blks generalizing b with
  | nil => cases he
  | cons blk blks ih =>
    unfold blocksLines at he
    cases hs : stepsLines (step b) blk.steps.toList with
    | error g =>
      rw [hs] at he
      cases he
      exact ⟨0, blk, g, rfl, rfl, stepsLines_error hs⟩
    | ok body =>
      cases hr : blocksLines step pad (b + 1) blks with
      | error e' =>
        rw [hs, hr] at he
        cases he
        obtain ⟨k, blk', g, hk, rfl, hg⟩ := ih hr
        refine ⟨k + 1, blk', g, hk, ?_, ?_⟩
        · rw [← Nat.add_assoc, Nat.add_right_comm]
        · rw [← Nat.add_assoc, Nat.add_right_comm]
          exact hg
      | ok rest =>
        rw [hs, hr] at he
        cases he

/-- **The blocks of a function** become lines exactly if every step does: each step either has the
lines it should have and `Q`, or a fault with `E` and not `Q`. -/
theorem blocksLines_cases (f : Func) (step : Nat → Step → Except StepFault (List (Line ι)))
    (pad : Nat → List (Line ι)) {Q : Step → Prop} {E : StepFault → Prop}
    (hpad : ∀ b, Describes label? symbol? P Named (pad b) [] [])
    (h : ∀ b blk, f.blocks[b]? = some blk → ∀ s ∈ blk.steps.toList,
      (∃ ls, step b s = .ok ls ∧ Q s ∧
        Describes label? symbol? P Named ls (elsesOf b s) (f.calledName? s).toList) ∨
      ∃ e, step b s = .error e ∧ E e ∧ ¬ Q s) :
    (∃ lines, blocksLines step pad 0 f.blocks.toList = .ok lines ∧ (∀ s ∈ f.steps, Q s) ∧
      Describes label? symbol? P Named lines f.labels (f.steps.filterMap f.calledName?)) ∨
    ∃ b e, blocksLines step pad 0 f.blocks.toList = .error (.inBlock b e) ∧ E e ∧
      ¬ ∀ s ∈ f.steps, Q s := by
  have hget : ∀ (k : Nat) blk, f.blocks.toList[k]? = some blk → f.blocks[k]? = some blk :=
    fun k blk hk => by rwa [Array.getElem?_toList] at hk
  cases he : blocksLines step pad 0 f.blocks.toList with
  | ok lines =>
    refine .inl ⟨lines, rfl, fun s hs => ?_, ?_⟩
    · obtain ⟨blk, hb, hs⟩ := List.mem_flatMap.mp hs
      obtain ⟨k, hk⟩ := List.mem_iff_getElem?.mp hb
      obtain ⟨ls, hls⟩ := blocksLines_mem_ok he k blk hk s hs
      rw [Nat.zero_add] at hls
      rcases h k blk (hget k blk hk) s hs with ⟨-, -, hq, -⟩ | ⟨e, hse, -⟩
      · exact hq
      · rw [hls] at hse
        cases hse
    · rw [Func.steps, List.filterMap_flatMap]
      refine blocksLines_ok hpad (fun k blk hk s hs ls hls => ?_) he
      rw [Nat.zero_add] at hls ⊢
      rcases h k blk (hget k blk hk) s hs with ⟨ls', hls', -, hd⟩ | ⟨e, hse, -⟩
      · rw [hls] at hls'
        cases hls'
        exact hd
      · rw [hls] at hse
        cases hse
  | error e =>
    obtain ⟨k, blk, g, hk, rfl, s, hs, hse⟩ := blocksLines_error he
    rw [Nat.zero_add] at hse
    refine .inr ⟨0 + k, g, rfl, ?_⟩
    rcases h k blk (hget k blk hk) s hs with ⟨ls', hls', -⟩ | ⟨e, hse', hE, hnq⟩
    · rw [hse] at hls'
      cases hls'
    · rw [hse] at hse'
      cases hse'
      refine ⟨hE, fun hq => hnq (hq s ?_)⟩
      exact List.mem_flatMap.mpr ⟨blk, List.mem_of_getElem? hk, hs⟩

end

/-! ## from lines to code -/

section
variable {ι ε : Type} {encode : Nat → ι → Except ε Chunk}
  {label? symbol? : ι → Option String} {P : ι → Prop} {lines : List (Line ι)}
  {marks symbols : List String}

theorem map_name_refs (hsym : ∀ pos i c, encode pos i = .ok c → (c.symbol.map fun x => x.2.1) = symbol? i)
    {pos : Nat} (ha : Accepted encode pos lines) :
    ((chunksFrom encode pos lines).filterMap fun x => x.2.ref x.1).map SymbolRef.name =
      (instrsOf lines).filterMap symbol? := by
  induction lines generalizing pos with
  | nil => rfl
  | cons x xs ih =>
    have htail : Accepted encode (pos + x.sizeAt encode pos) xs := fun p i hs => ha p i hs.tail
    cases x with
    | mark l => exact ih htail
    | instr i =>
      obtain ⟨c, hc⟩ := ha pos i (standsAt_head _ _)
      have hr : (c.ref pos).map SymbolRef.name = symbol? i := by
        rw [← hsym pos i c hc, Chunk.ref, Option.map_map]
        rfl
      have hi : instrsOf (Line.instr i :: xs) = i :: instrsOf xs := rfl
      rw [sizeAt_ok hc] at htail
      rw [hi, List.filterMap_cons, ← hr, ← ih htail]
      simp only [chunksFrom, hc, List.filterMap_cons]
      cases c.ref pos <;> rfl

theorem Describes.refs {Named : String → Prop}
    (h : Describes label? symbol? P Named lines marks symbols) {onLabel : LabelFault → ε}
    (hs : ∀ pos i c, encode pos i = .ok c → c.Shaped)
    (hsym : ∀ pos i c, encode pos i = .ok c → (c.symbol.map fun x => x.2.1) = symbol? i)
    {prog : Program} (ha : assembleLines encode onLabel lines = .ok prog) :
    prog.refs.map SymbolRef.name = symbols := by
  obtain ⟨hacc, -, -, -, href⟩ := assembleLines_ok hs ha
  rw [href, map_name_refs hsym hacc, h.symbols]

/-- **Lines that name no labels but their own** are assembled, unless an instruction is refused or a
displacement does not fit. -/
theorem Describes.assemble (h : Describes label? symbol? P (· ∈ marks) lines marks symbols)
    (onLabel : LabelFault → ε) (hn : marks.Nodup) (hs : ∀ pos i c, encode pos i = .ok c → c.Shaped)
    (hbr : ∀ pos i c, encode pos i = .ok c → c.branch.map Branch.label = label? i)
    (hsym : ∀ pos i c, encode pos i = .ok c → (c.symbol.map fun x => x.2.1) = symbol? i) :
    (∃ prog, assembleLines encode onLabel lines = .ok prog ∧ prog.refs.map SymbolRef.name = symbols) ∨
    (∃ pos i e, StandsAt encode 0 lines pos (.instr i) ∧ P i ∧ encode pos i = .error e ∧
      assembleLines encode onLabel lines = .error e) ∨
    ∃ pos i c b t, StandsAt encode 0 lines pos (.instr i) ∧ encode pos i = .ok c ∧
      c.branch = some b ∧ StandsAt encode 0 lines t (.mark b.label) ∧
      ((¬ b.field.Spans ((t : Int) - b.field.origin pos c.bytes.length) ∧
          assembleLines encode onLabel lines = .error (onLabel (.far b.field b.label))) ∨
        (b.field ≠ .rel32 ∧ ¬ (4 : Int) ∣ t - pos ∧
          assembleLines encode onLabel lines = .error (onLabel .misaligned))) := by
  rw [← h.marks] at hn
  cases ha : assembleLines encode onLabel lines with
  | ok prog => exact .inl ⟨prog, rfl, h.refs hs hsym ha⟩
  | error e =>
    rcases assembleLines_error ha with ⟨pos, i, hst, hi⟩ | ⟨l, -, hdup⟩ | ⟨-, -, pos, i, c, f, hst, hc, hf, rfl⟩
    · exact .inr (.inl ⟨pos, i, e, hst, h.holds i (mem_instrsOf.mpr hst.mem), hi, rfl⟩)
    · exact absurd hn hdup
    · obtain ⟨b, hb, hcase⟩ := Chunk.close_error hn hf
      refine .inr (.inr ⟨pos, i, c, b, ?_⟩)
      have hmark : Line.mark b.label ∈ lines := by
        rw [← mem_markedLabels, h.marks]
        refine h.named i (mem_instrsOf.mpr hst.mem) b.label ?_
        rw [← hbr pos i c hc, hb]
        rfl
      rcases hcase with ⟨-, hlab⟩ | ⟨t, ht, ⟨rfl, hspan⟩ | ⟨rfl, hfld, hbad⟩⟩
      · exact absurd hmark hlab
      · exact ⟨t, hst, hc, hb, ht, .inl ⟨hspan, rfl⟩⟩
      · exact ⟨t, hst, hc, hb, ht, .inr ⟨hfld, hbad, rfl⟩⟩

end

/-! ## compiled code -/

section
variable {f : Func} {opts : Options} {prog : Program}

theorem X64.assemble_of_compile (h : compile .x64 f opts = .ok prog) :
    ∃ lines, X64.lower f opts = .ok lines ∧ TreeJit.X64.assemble lines = .ok prog := by
  simp only [compile] at h
  split at h
  · cases h
  · exact ⟨_, ‹_›, mapError_eq_ok.mp h⟩

theorem A64.assemble_of_compile (h : compile .a64 f opts = .ok prog) :
    ∃ lines, A64.lower f opts = .ok lines ∧ TreeJit.A64.assemble lines = .ok prog := by
  simp only [compile] at h
  split at h
  · cases h
  · exact ⟨_, ‹_›, mapError_eq_ok.mp h⟩

theorem passing_of_compile {m : Machine} (h : compile m f opts = .ok prog) :
    ∃ locs, passing (paramLimits m) f.sig.params = .ok locs := by
  cases m with
  | x64 =>
    obtain ⟨lines, hl, -⟩ := X64.assemble_of_compile h
    obtain ⟨params, hp, -⟩ := bind_eq_ok.mp hl
    exact ⟨params, mapError_eq_ok.mp hp⟩
  | a64 =>
    obtain ⟨lines, hl, -⟩ := A64.assemble_of_compile h
    obtain ⟨params, hp, -⟩ := bind_eq_ok.mp hl
    exact ⟨params, mapError_eq_ok.mp hp⟩

end

end TreeJit.Compile
