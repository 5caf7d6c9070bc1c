import Mathlib.Data.List.Nodup
import TreeJit.Code.Chunk

/-!
# Where lines stand

The offset of a line is the number of bytes in front of it: `stopOf encode pos lines` is the offset
behind some lines, and `StandsAt encode pos lines p x` says that `x` is one of the lines and stands
at `p`.  What assembling a listing makes is read off these offsets.

* `chunksFrom`, `marksFrom`     the encoded instructions and the labels, with their offsets;
* `layout_cases`                the first pass gives exactly these, unless an instruction is refused
                                or a label is marked twice;
* `assembleLines_ok`            the code is the closed chunks one after the other;
* `assembleLines_error`         the reasons why there is none.
-/

namespace TreeJit

section
variable {ι ε : Type} (encode : Nat → ι → Except ε Chunk)

/-- the bytes of a line at an offset; an instruction that is refused has none -/
def Line.sizeAt (pos : Nat) : Line ι → Nat
  | .mark _ => 0
  | .instr i =>
    match encode pos i with
    | .ok c => c.bytes.length
    | .error _ => 0

/-- the offset behind lines that start at an offset -/
def stopOf (pos : Nat) (lines : List (Line ι)) : Nat :=
  lines.foldl (fun pos x => pos + x.sizeAt encode pos) pos

/-- a line of a listing that starts at `pos`, and the offset where it stands -/
def StandsAt (pos : Nat) (lines : List (Line ι)) (p : Nat) (x : Line ι) : Prop :=
  ∃ before after, lines = before ++ x :: after ∧ p = stopOf encode pos before

def marksFrom : Nat → List (Line ι) → List (String × Nat)
  | _, [] => []
  | pos, .mark l :: rest => (l, pos) :: marksFrom pos rest
  | pos, .instr i :: rest => marksFrom (pos + (Line.instr i).sizeAt encode pos) rest

def chunksFrom : Nat → List (Line ι) → List (Nat × Chunk)
  | _, [] => []
  | pos, .mark _ :: rest => chunksFrom pos rest
  | pos, .instr i :: rest =>
    match encode pos i with
    | .ok c => (pos, c) :: chunksFrom (pos + c.bytes.length) rest
    | .error _ => chunksFrom pos rest

def Accepted (pos : Nat) (lines : List (Line ι)) : Prop :=
  ∀ p i, StandsAt encode pos lines p (.instr i) → ∃ c, encode p i = .ok c

end

def markedLabels {ι : Type} (lines : List (Line ι)) : List String :=
  lines.filterMap fun
    | .mark l => some l
    | .instr _ => none

section
variable {ι ε : Type} {encode : Nat → ι → Except ε Chunk} {pos p : Nat} {lines : List (Line ι)}

/-! ## offsets -/

theorem stopOf_nil : stopOf encode pos [] = pos := rfl

theorem stopOf_cons (x : Line ι) (xs : List (Line ι)) :
    stopOf encode pos (x :: xs) = stopOf encode (pos + x.sizeAt encode pos) xs := rfl

theorem stopOf_append (xs ys : List (Line ι)) :
    stopOf encode pos (xs ++ ys) = stopOf encode (stopOf encode pos xs) ys :=
  List.foldl_append

theorem sizeAt_ok {i : ι} {c : Chunk} (h : encode pos i = .ok c) :
    (Line.instr i).sizeAt encode pos = c.bytes.length := by
  rw [Line.sizeAt, h]

theorem sizeAt_error {i : ι} {e : ε} (h : encode pos i = .error e) :
    (Line.instr i).sizeAt encode pos = 0 := by
  rw [Line.sizeAt, h]

theorem standsAt_head (x : Line ι) (xs : List (Line ι)) :
    StandsAt encode pos (x :: xs) pos x := ⟨[], xs, rfl, rfl⟩

theorem StandsAt.tail {x y : Line ι} {xs : List (Line ι)}
    (h : StandsAt encode (pos + x.sizeAt encode pos) xs p y) : StandsAt encode pos (x :: xs) p y := by
  obtain ⟨before, after, rfl, rfl⟩ := h
  exact ⟨x :: before, after, rfl, rfl⟩

theorem standsAt_cons {x y : Line ι} {xs : List (Line ι)} :
    StandsAt encode pos (x :: xs) p y ↔
      (p = pos ∧ y = x) ∨ StandsAt encode (pos + x.sizeAt encode pos) xs p y := by
  constructor
  · rintro ⟨before, after, h, rfl⟩
    cases before with
    | nil =>
      cases h
      exact .inl ⟨rfl, rfl⟩
    | cons z zs =>
      cases h
      exact .inr ⟨zs, after, rfl, rfl⟩
  · rintro (⟨rfl, rfl⟩ | h)
    · exact standsAt_head _ _
    · exact h.tail

theorem not_standsAt_nil {x : Line ι} : ¬ StandsAt encode pos [] p x := by
  rintro ⟨before, after, h, -⟩
  cases before <;> cases h

theorem StandsAt.mem {x : Line ι} (h : StandsAt encode pos lines p x) : x ∈ lines := by
  obtain ⟨before, after, rfl, -⟩ := h
  exact List.mem_append_right _ List.mem_cons_self

theorem standsAt_of_mem {x : Line ι} (h : x ∈ lines) (pos : Nat) :
    ∃ p, StandsAt encode pos lines p x := by
  obtain ⟨before, after, rfl⟩ := List.append_of_mem h
  exact ⟨_, before, after, rfl, rfl⟩

theorem le_stopOf (pos : Nat) (lines : List (Line ι)) : pos ≤ stopOf encode pos lines := by
  induction lines generalizing pos with
  | nil => exact Nat.le_refl pos
  | cons x xs ih => exact Nat.le_trans (Nat.le_add_right _ _) (ih _)

/-- other words for the faults change no offsets -/
theorem stopOf_mapError {δ : Type} (g : ε → δ) (pos : Nat) (lines : List (Line ι)) :
    stopOf (fun pos i => (encode pos i).mapError g) pos lines = stopOf encode pos lines := by
  induction lines generalizing pos with
  | nil => rfl
  | cons x xs ih =>
    have hx : x.sizeAt (fun pos i => (encode pos i).mapError g) pos = x.sizeAt encode pos := by
      cases x with
      | mark l => rfl
      | instr i =>
        cases e : encode pos i <;> simp [Line.sizeAt, e, Except.mapError]
    rw [stopOf_cons, stopOf_cons, hx, ih]

theorem stopOf_mod {n : Nat} (hpos : pos % n = 0) (hlen : ∀ p i c, Line.instr i ∈ lines →
    encode p i = .ok c → c.bytes.length % n = 0) : stopOf encode pos lines % n = 0 := by
  induction lines generalizing pos with
  | nil => exact hpos
  | cons x xs ih =>
    rw [stopOf_cons]
    refine ih ?_ fun p i c hi => hlen p i c (List.mem_cons_of_mem _ hi)
    cases x with
    | mark l => exact hpos
    | instr i =>
      cases hi : encode pos i with
      | error e =>
        rw [sizeAt_error hi]
        exact hpos
      | ok c =>
        rw [sizeAt_ok hi, Nat.add_mod, hpos, hlen pos i c List.mem_cons_self hi]
        exact Nat.zero_mod n

theorem standsAt_mapError {δ : Type} {g : ε → δ} {x : Line ι} :
    StandsAt (fun pos i => (encode pos i).mapError g) pos lines p x ↔ StandsAt encode pos lines p x := by
  unfold StandsAt
  simp only [stopOf_mapError]

theorem StandsAt.le {x : Line ι} (h : StandsAt encode pos lines p x) :
    pos ≤ p ∧ p + x.sizeAt encode p ≤ stopOf encode pos lines := by
  obtain ⟨before, after, rfl, rfl⟩ := h
  refine ⟨le_stopOf pos before, ?_⟩
  rw [stopOf_append, stopOf_cons]
  exact le_stopOf _ after

/-! ## labels and chunks -/

theorem mem_marksFrom {l : String} :
    (l, p) ∈ marksFrom encode pos lines ↔ StandsAt encode pos lines p (.mark l) := by
  induction lines generalizing pos with
  | nil => exact ⟨nofun, fun h => absurd h not_standsAt_nil⟩
  | cons x xs ih =>
    rw [standsAt_cons]
    cases x with
    | mark m =>
      rw [marksFrom, List.mem_cons, ih, Prod.mk.injEq, Line.mark.injEq]
      exact or_congr_left And.comm
    | instr i =>
      rw [marksFrom, ih]
      exact ⟨.inr, fun h => h.resolve_left (fun e => nomatch e.2)⟩

theorem mem_chunksFrom {c : Chunk} : (p, c) ∈ chunksFrom encode pos lines ↔
    ∃ i, StandsAt encode pos lines p (.instr i) ∧ encode p i = .ok c := by
  induction lines generalizing pos with
  | nil => exact ⟨nofun, fun ⟨_, h, _⟩ => absurd h not_standsAt_nil⟩
  | cons x xs ih =>
    cases x with
    | mark m =>
      rw [chunksFrom, ih]
      refine exists_congr fun i => and_congr_left fun _ => ?_
      rw [standsAt_cons]
      exact ⟨.inr, fun h => h.resolve_left (fun e => nomatch e.2)⟩
    | instr j =>
      unfold chunksFrom
      split
      · rename_i d hd
        rw [List.mem_cons, ih, ← sizeAt_ok hd]
        constructor
        · rintro (h | ⟨i, hs, hi⟩)
          · cases h
            exact ⟨j, standsAt_head _ _, hd⟩
          · exact ⟨i, hs.tail, hi⟩
        · rintro ⟨i, hs, hi⟩
          rcases standsAt_cons.mp hs with ⟨rfl, hx⟩ | hs
          · cases hx
            rw [hd] at hi
            cases hi
            exact .inl rfl
          · exact .inr ⟨i, hs, hi⟩
      · rename_i e he
        have hz : pos + (Line.instr j).sizeAt encode pos = pos := by rw [sizeAt_error he]; rfl
        rw [ih]
        refine exists_congr fun i => ?_
        rw [standsAt_cons, hz]
        constructor
        · exact fun h => ⟨.inr h.1, h.2⟩
        · rintro ⟨⟨rfl, hx⟩ | hs, hi⟩
          · cases hx
            rw [he] at hi
            cases hi
          · exact ⟨hs, hi⟩

theorem map_fst_marksFrom (encode : Nat → ι → Except ε Chunk) (pos : Nat)
    (lines : List (Line ι)) :
    (marksFrom encode pos lines).map Prod.fst = markedLabels lines := by
  induction lines generalizing pos with
  | nil => rfl
  | cons x xs ih =>
    cases x with
    | mark l => exact congrArg (l :: ·) (ih pos)
    | instr i => exact ih _

theorem mem_markedLabels {l : String} : l ∈ markedLabels lines ↔ Line.mark l ∈ lines := by
  unfold markedLabels
  rw [List.mem_filterMap]
  constructor
  · rintro ⟨x, hx, e⟩
    cases x with
    | mark m =>
      cases e
      exact hx
    | instr i => cases e
  · exact fun h => ⟨_, h, rfl⟩

theorem accepted_cons {x : Line ι} {xs : List (Line ι)}
    (hx : ∀ i, x = .instr i → ∃ c, encode pos i = .ok c)
    (h : Accepted encode (pos + x.sizeAt encode pos) xs) : Accepted encode pos (x :: xs) := by
  intro p i hs
  rcases standsAt_cons.mp hs with ⟨rfl, hi⟩ | hs
  · exact hx i hi.symm
  · exact h p i hs

/-! ## the first pass -/

variable {onLabel : LabelFault → ε}

/-- **The first pass** gives the chunks and the labels at their offsets, unless an instruction is
refused or a label is marked twice. -/
theorem layout_cases (encode : Nat → ι → Except ε Chunk) (onLabel : LabelFault → ε) (pos : Nat)
    {labels : Labels} (hl : (labels.map Prod.fst).Nodup) (lines : List (Line ι)) :
    (layout encode onLabel pos labels lines =
        .ok (chunksFrom encode pos lines, (marksFrom encode pos lines).reverse ++ labels) ∧
      Accepted encode pos lines ∧
      (markedLabels lines ++ labels.map Prod.fst).Nodup) ∨
    (∃ p i e, StandsAt encode pos lines p (.instr i) ∧ encode p i = .error e ∧
      layout encode onLabel pos labels lines = .error e) ∨
    (∃ l, ¬ (markedLabels lines ++ labels.map Prod.fst).Nodup ∧
      layout encode onLabel pos labels lines = .error (onLabel (.duplicate l))) := by
  induction lines generalizing pos labels with
  | nil => exact .inl ⟨rfl, fun _ _ h => absurd h not_standsAt_nil, hl⟩
  | cons x xs ih =>
    cases x with
    | mark l =>
      have em : markedLabels (.mark l :: xs) = l :: markedLabels xs := rfl
      have hperm : (markedLabels (Line.mark l :: xs) ++ labels.map Prod.fst).Perm
          (markedLabels xs ++ ((l, pos) :: labels).map Prod.fst) := by
        rw [em, List.cons_append, List.map_cons]
        exact List.perm_middle.symm
      unfold layout
      by_cases hm : (labels.lookup l).isSome = true
      · refine .inr (.inr ⟨l, fun hn => ?_, by rw [if_pos hm]⟩)
        obtain ⟨t, ht⟩ := Option.isSome_iff_exists.mp hm
        obtain ⟨l1, l2, e, -⟩ := List.lookup_eq_some_iff.mp ht
        have hmem : l ∈ labels.map Prod.fst :=
          List.mem_map.mpr ⟨(l, t), by rw [e]; simp, rfl⟩
        rw [em, List.cons_append, List.nodup_cons] at hn
        exact hn.1 (List.mem_append_right _ hmem)
      · rw [if_neg hm]
        have hnew : l ∉ labels.map Prod.fst := by
          intro hmem
          obtain ⟨q, hq, e⟩ := List.mem_map.mp hmem
          have hnone : labels.lookup l = none := Option.not_isSome_iff_eq_none.mp hm
          have := List.lookup_eq_none_iff.mp hnone q hq
          simp [e] at this
        have hl' : (((l, pos) :: labels).map Prod.fst).Nodup := List.nodup_cons.mpr ⟨hnew, hl⟩
        rcases ih pos hl' with ⟨he, ha, hn⟩ | ⟨p, i, e, hs, hi, he⟩ | ⟨m, hn, he⟩
        · refine .inl ⟨?_, ?_, hperm.nodup_iff.mpr hn⟩
          · rw [he, marksFrom, List.reverse_cons, List.append_assoc]
            rfl
          · exact accepted_cons nofun ha
        · exact .inr (.inl ⟨p, i, e, hs.tail, hi, he⟩)
        · exact .inr (.inr ⟨m, fun h => hn (hperm.nodup_iff.mp h), he⟩)
    | instr j =>
      unfold layout
      cases hj : encode pos j with
      | error e => exact .inr (.inl ⟨pos, j, e, standsAt_head _ _, hj, rfl⟩)
      | ok c =>
        have hz := sizeAt_ok hj
        rcases ih (pos + c.bytes.length) hl with ⟨he, ha, hn⟩ | ⟨p, i, e, hs, hi, he⟩ | ⟨m, hn, he⟩
        · refine .inl ⟨?_, ?_, hn⟩
          · simp only [he, chunksFrom, hj, marksFrom, hz]
          · rw [← hz] at ha
            refine accepted_cons ?_ ha
            rintro i hi
            cases hi
            exact ⟨c, hj⟩
        · rw [← hz] at hs
          exact .inr (.inl ⟨p, i, e, hs.tail, hi, by simp only [he]⟩)
        · exact .inr (.inr ⟨m, hn, by simp only [he]⟩)

/-- with every label marked once, looking one up finds where it stands -/
theorem lookup_marksFrom (hn : (markedLabels lines).Nodup) {l : String} {t : Nat} :
    ((marksFrom encode pos lines).reverse ++ []).lookup l = some t ↔
      StandsAt encode pos lines t (.mark l) := by
  rw [List.append_nil, ← mem_marksFrom, List.lookup_eq_some_iff]
  constructor
  · rintro ⟨l1, l2, e, -⟩
    rw [← List.mem_reverse, e]
    exact List.mem_append_right _ List.mem_cons_self
  · intro h
    obtain ⟨l1, l2, e⟩ := List.append_of_mem (List.mem_reverse.mpr h)
    refine ⟨l1, l2, e, fun q hq => ?_⟩
    rw [← map_fst_marksFrom encode pos, ← List.nodup_reverse, ← List.map_reverse, e,
      List.map_append, List.map_cons, List.nodup_append] at hn
    have := hn.2.2 q.1 (List.mem_map_of_mem hq) l List.mem_cons_self
    simpa using fun e => this e.symm

/-! ## the second pass -/

theorem closeAll_cases (labels : Labels) (cs : List (Nat × Chunk)) :
    (∃ code, closeAll labels cs = .ok code) ∨
      ∃ p c e, (p, c) ∈ cs ∧ c.close labels p = .error e ∧ closeAll labels cs = .error e := by
  induction cs with
  | nil => exact .inl ⟨[], rfl⟩
  | cons x cs ih =>
    obtain ⟨p, c⟩ := x
    unfold closeAll
    cases hc : c.close labels p with
    | error e => exact .inr ⟨p, c, e, List.mem_cons_self, hc, rfl⟩
    | ok bs =>
      rcases ih with ⟨code, h⟩ | ⟨q, d, e, hm, hd, h⟩
      · exact .inl ⟨bs ++ code, by simp only [h]⟩
      · exact .inr ⟨q, d, e, List.mem_cons_of_mem _ hm, hd, by simp only [h]⟩

/-- the bytes of a chunk do not change their number when it is closed: a trailing field has its four
bytes, and a field in a word has its word -/
def Chunk.Shaped (c : Chunk) : Prop :=
  ∀ b, c.branch = some b →
    match b.field with
    | .rel32 => 4 ≤ c.bytes.length
    | _ => c.bytes.length = 4

theorem Branch.length_fill {b : Branch} {p t : Nat} {bytes bs : List UInt8}
    (hs : match b.field with
      | .rel32 => 4 ≤ bytes.length
      | _ => bytes.length = 4)
    (h : b.fill p t bytes = .ok bs) : bs.length = bytes.length := by
  unfold Branch.fill at h
  cases hf : b.field with
  | rel32 =>
    rw [hf] at h hs
    simp only at h hs
    split at h
    · cases h
    · cases h
      rw [List.length_append, List.length_take, length_littleEndian]
      omega
  | imm26 | imm19 =>
    rw [hf] at h hs
    simp only at h hs
    split at h
    · cases h
    · split at h
      · cases h
      · cases h
        rw [hs]
        exact length_littleEndian _ _

theorem Chunk.Shaped.length_close {c : Chunk} (hs : c.Shaped) {labels : Labels} {bs : List UInt8}
    (h : c.close labels p = .ok bs) : bs.length = c.bytes.length := by
  unfold Chunk.close at h
  split at h
  · cases h
    rfl
  · rename_i b hb
    split at h
    · cases h
    · exact Branch.length_fill (hs b hb) h

/-- **The second pass** puts down the closed chunks one after the other. -/
theorem closeAll_ok (hs : ∀ pos i c, encode pos i = .ok c → c.Shaped) {labels : Labels}
    (ha : Accepted encode pos lines) {code : List UInt8}
    (h : closeAll labels (chunksFrom encode pos lines) = .ok code) :
    pos + code.length = stopOf encode pos lines ∧
      ∀ p i c, StandsAt encode pos lines p (.instr i) → encode p i = .ok c →
        c.close labels p = .ok ((code.drop (p - pos)).take c.bytes.length) := by
  induction lines generalizing pos code with
  | nil =>
    cases h
    exact ⟨rfl, fun _ _ _ h => absurd h not_standsAt_nil⟩
  | cons x xs ih =>
    cases x with
    | mark l =>
      obtain ⟨h1, h2⟩ := ih (fun p i hs => ha p i hs.tail) h
      refine ⟨h1, fun p i c hst => h2 p i c ?_⟩
      rcases standsAt_cons.mp hst with ⟨-, hx⟩ | hst
      · cases hx
      · exact hst
    | instr j =>
      obtain ⟨d, hd⟩ := ha pos j (standsAt_head _ _)
      have hz := sizeAt_ok hd
      have hrest : Accepted encode (pos + d.bytes.length) xs := by
        rw [← hz]
        exact fun p i hs => ha p i hs.tail
      unfold chunksFrom at h
      rw [hd] at h
      simp only at h
      unfold closeAll at h
      split at h
      · cases h
      · rename_i bs hbs
        split at h
        · cases h
        · rename_i tail htail
          cases h
          obtain ⟨h1, h2⟩ := ih hrest htail
          have hlen := (hs _ _ _ hd).length_close hbs
          refine ⟨?_, ?_⟩
          · rw [stopOf_cons, hz, ← h1, List.length_append, hlen]
            omega
          · intro p i c hst hc
            rcases standsAt_cons.mp hst with ⟨rfl, hx⟩ | hst
            · cases hx
              rw [hd] at hc
              cases hc
              rw [Nat.sub_self, List.drop_zero, ← hlen, List.take_left, hbs]
            · rw [hz] at hst
              have hle := hst.le.1
              have e : p - pos = bs.length + (p - (pos + d.bytes.length)) := by omega
              rw [e, List.drop_length_add_append]
              exact h2 p i c hst hc

/-! ## programs -/

/-- the labels of a listing with their offsets, as the second pass sees them -/
def labelsOf (encode : Nat → ι → Except ε Chunk) (lines : List (Line ι)) : Labels :=
  (marksFrom encode 0 lines).reverse ++ []

theorem assembleLines_passes {prog : Program} (h : assembleLines encode onLabel lines = .ok prog) :
    Accepted encode 0 lines ∧ (markedLabels lines).Nodup ∧
      closeAll (labelsOf encode lines) (chunksFrom encode 0 lines) = .ok prog.code ∧
      prog.refs = (chunksFrom encode 0 lines).filterMap fun x => x.2.ref x.1 := by
  unfold assembleLines at h
  have hnil : (([] : Labels).map Prod.fst).Nodup := List.nodup_nil
  rcases layout_cases encode onLabel 0 hnil lines with
    ⟨he, ha, hn⟩ | ⟨p, i, e, -, -, he⟩ | ⟨l, -, he⟩
  · rw [he] at h
    simp only at h
    split at h
    · cases h
    · rename_i code hcode
      cases h
      rw [List.map_nil, List.append_nil] at hn
      exact ⟨ha, hn, hcode, rfl⟩
  · rw [he] at h
    cases h
  · rw [he] at h
    cases h

/-- **A listing that is assembled.** -/
theorem assembleLines_ok (hs : ∀ pos i c, encode pos i = .ok c → c.Shaped) {prog : Program}
    (h : assembleLines encode onLabel lines = .ok prog) :
    Accepted encode 0 lines ∧ (markedLabels lines).Nodup ∧
      prog.code.length = stopOf encode 0 lines ∧
      (∀ p i c, StandsAt encode 0 lines p (.instr i) → encode p i = .ok c →
        c.close (labelsOf encode lines) p = .ok ((prog.code.drop p).take c.bytes.length)) ∧
      prog.refs = (chunksFrom encode 0 lines).filterMap fun x => x.2.ref x.1 := by
  obtain ⟨ha, hn, hcode, hrefs⟩ := assembleLines_passes h
  obtain ⟨hlen, hclose⟩ := closeAll_ok hs ha hcode
  rw [Nat.zero_add] at hlen
  exact ⟨ha, hn, hlen, hclose, hrefs⟩

/-- **Why a listing is not assembled**: an instruction is refused, a label is marked twice, or a
branch cannot be closed. -/
theorem assembleLines_error {e : ε} (h : assembleLines encode onLabel lines = .error e) :
    (∃ p i, StandsAt encode 0 lines p (.instr i) ∧ encode p i = .error e) ∨
    (∃ l, e = onLabel (.duplicate l) ∧ ¬ (markedLabels lines).Nodup) ∨
    (Accepted encode 0 lines ∧ (markedLabels lines).Nodup ∧
      ∃ p i c f, StandsAt encode 0 lines p (.instr i) ∧ encode p i = .ok c ∧
        c.close (labelsOf encode lines) p = .error f ∧ e = onLabel f) := by
  unfold assembleLines at h
  have hnil : (([] : Labels).map Prod.fst).Nodup := List.nodup_nil
  rcases layout_cases encode onLabel 0 hnil lines with
    ⟨he, ha, hn⟩ | ⟨p, i, g, hst, hi, he⟩ | ⟨l, hn, he⟩
  · rw [List.map_nil, List.append_nil] at hn
    rw [he] at h
    simp only at h
    rcases closeAll_cases (labelsOf encode lines) (chunksFrom encode 0 lines) with
      ⟨code, hc⟩ | ⟨p, c, f, hm, hf, hc⟩
    · unfold labelsOf at hc
      rw [hc] at h
      cases h
    · obtain ⟨i, hst, hi⟩ := mem_chunksFrom.mp hm
      refine .inr (.inr ⟨ha, hn, p, i, c, f, hst, hi, hf, ?_⟩)
      unfold labelsOf at hc
      rw [hc] at h
      cases h
      rfl
  · rw [he] at h
    cases h
    exact .inl ⟨p, i, hst, hi⟩
  · rw [List.map_nil, List.append_nil] at hn
    rw [he] at h
    cases h
    exact .inr (.inl ⟨l, rfl, hn⟩)

end

end TreeJit
