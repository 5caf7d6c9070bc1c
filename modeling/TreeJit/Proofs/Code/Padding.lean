import Mathlib.Data.List.Forall2
import TreeJit.Proofs.Code.Relocation

/-!
# Code with padding in it

Padding moves everything behind it, so that the code of a padded listing has other labels, other
displacements and other places of references than the code of the plain one.  It is told apart by
cutting both programs into the same parts.

* `Padded a Header xs ys`   the lines `ys` are the lines `xs` with the instruction `a` in front of
                            every mark of a header;
* `Part`, `PartAt`          an instruction with its bytes in both programs, or a label with the
                            padding in front of it, and the offsets where it starts in either;
* `Cut`                     the parts of two listings that are laid out side by side: an instruction is
                            encoded alike and closed where it stands (`Part.Fits`), and the labels and
                            the references of both programs belong to the same parts;
* `OnlyPads`                what this says of two programs for a machine.

`Padded.cut` lays out one line after the other, `Padded.onlyPads` reads the programs off it.
-/

namespace TreeJit

/-! ## padded lines -/

def Line.map {ι κ : Type} (g : ι → κ) : Line ι → Line κ
  | .mark l => .mark l
  | .instr i => .instr (g i)

section
variable {ι κ ε : Type} {encode : Nat → κ → Except ε Chunk} {onLabel : LabelFault → ε} {g : ι → κ}

theorem layout_map (pos : Nat) (labels : Labels) (lines : List (Line ι)) :
    layout encode onLabel pos labels (lines.map (Line.map g)) =
      layout (fun pos i => encode pos (g i)) onLabel pos labels lines := by
  induction lines generalizing pos labels with
  | nil => rfl
  | cons x xs ih =>
    cases x with
    | mark l => simp only [List.map_cons, Line.map, layout, ih]
    | instr i => simp only [List.map_cons, Line.map, layout, ih]

theorem assembleLines_map (lines : List (Line ι)) :
    assembleLines encode onLabel (lines.map (Line.map g)) =
      assembleLines (fun pos i => encode pos (g i)) onLabel lines := by
  unfold assembleLines
  rw [layout_map]

theorem mem_map_line {lines : List (Line ι)} {k : κ} :
    .instr k ∈ lines.map (Line.map g) ↔ ∃ i, .instr i ∈ lines ∧ k = g i := by
  rw [List.mem_map]
  constructor
  · rintro ⟨x, hx, e⟩
    cases x with
    | mark l => cases e
    | instr i =>
      cases e
      exact ⟨i, hx, rfl⟩
  · rintro ⟨i, hi, rfl⟩
    exact ⟨_, hi, rfl⟩

theorem markedLabels_map_line (lines : List (Line ι)) :
    markedLabels (lines.map (Line.map g)) = markedLabels lines := by
  induction lines with
  | nil => rfl
  | cons x xs ih =>
    cases x with
    | mark l => exact congrArg (l :: ·) ih
    | instr i => exact ih

end

/-- the second lines are the first ones, with an instruction in front of every mark of a header -/
inductive Padded {ι : Type} (a : ι) (Header : String → Prop) : List (Line ι) → List (Line ι) → Prop
  | nil : Padded a Header [] []
  | instr {xs ys : List (Line ι)} (i : ι) (h : Padded a Header xs ys) :
    Padded a Header (.instr i :: xs) (.instr i :: ys)
  | mark {xs ys : List (Line ι)} {l : String} (hl : ¬ Header l) (h : Padded a Header xs ys) :
    Padded a Header (.mark l :: xs) (.mark l :: ys)
  | header {xs ys : List (Line ι)} {l : String} (hl : Header l) (h : Padded a Header xs ys) :
    Padded a Header (.mark l :: xs) (.instr a :: .mark l :: ys)

namespace Padded
variable {ι κ : Type} {a : ι} {Header : String → Prop} {xs ys xs' ys' : List (Line ι)}

theorem append (h : Padded a Header xs ys) (h' : Padded a Header xs' ys') :
    Padded a Header (xs ++ xs') (ys ++ ys') := by
  induction h with
  | nil => exact h'
  | instr i _ ih => exact .instr i ih
  | mark hl _ ih => exact .mark hl ih
  | header hl _ ih => exact .header hl ih

theorem refl (hl : ∀ l ∈ markedLabels xs, ¬ Header l) : Padded a Header xs xs := by
  induction xs with
  | nil => exact .nil
  | cons x xs ih =>
    cases x with
    | mark l =>
      have h := List.forall_mem_cons.mp hl
      exact .mark h.1 (ih h.2)
    | instr i => exact .instr i (ih hl)

theorem map (g : ι → κ) (h : Padded a Header xs ys) :
    Padded (g a) Header (xs.map (Line.map g)) (ys.map (Line.map g)) := by
  induction h with
  | nil => exact .nil
  | instr i _ ih => exact .instr (g i) ih
  | mark hl _ ih => exact .mark hl ih
  | header hl _ ih => exact .header hl ih

end Padded

/-! ## parts -/

/-- a part of two programs: an instruction and its bytes in the plain and in the padded one, or a label
and the padding in front of it -/
inductive Part (ι : Type) where
  | mark (label : String) (padding : List UInt8)
  | instr (i : ι) (plain padded : List UInt8)

section
variable {ι : Type}

def Part.line : Part ι → Line ι
  | .mark l _ => .mark l
  | .instr i _ _ => .instr i

def Part.plain : Part ι → List UInt8
  | .mark _ _ => []
  | .instr _ bs _ => bs

def Part.padded : Part ι → List UInt8
  | .mark _ pad => pad
  | .instr _ _ bs => bs

def Part.label? : Part ι → Option String
  | .mark l _ => some l
  | .instr _ _ _ => none

def plainCode (ps : List (Part ι)) : List UInt8 := ps.flatMap Part.plain

def paddedCode (ps : List (Part ι)) : List UInt8 := ps.flatMap Part.padded

/-- a part of programs that start at `n` and `n'`, and the offsets where it starts itself -/
def PartAt (n n' : Nat) (ps : List (Part ι)) (t t' : Nat) (x : Part ι) : Prop :=
  ∃ before after, ps = before ++ x :: after ∧
    t = n + (plainCode before).length ∧ t' = n' + (paddedCode before).length

variable {n n' t t' : Nat} {x y : Part ι} {ps : List (Part ι)}

theorem plainCode_cons (x : Part ι) (ps : List (Part ι)) :
    plainCode (x :: ps) = x.plain ++ plainCode ps := List.flatMap_cons

theorem paddedCode_cons (x : Part ι) (ps : List (Part ι)) :
    paddedCode (x :: ps) = x.padded ++ paddedCode ps := List.flatMap_cons

theorem partAt_head (n n' : Nat) (x : Part ι) (ps : List (Part ι)) : PartAt n n' (x :: ps) n n' x :=
  ⟨[], ps, rfl, rfl, rfl⟩

theorem PartAt.tail (h : PartAt (n + x.plain.length) (n' + x.padded.length) ps t t' y) :
    PartAt n n' (x :: ps) t t' y := by
  obtain ⟨before, after, rfl, rfl, rfl⟩ := h
  refine ⟨x :: before, after, rfl, ?_, ?_⟩
  · rw [plainCode_cons, List.length_append, Nat.add_assoc]
  · rw [paddedCode_cons, List.length_append, Nat.add_assoc]

theorem partAt_cons : PartAt n n' (x :: ps) t t' y ↔ (t = n ∧ t' = n' ∧ y = x) ∨
    PartAt (n + x.plain.length) (n' + x.padded.length) ps t t' y := by
  constructor
  · rintro ⟨before, after, h, rfl, rfl⟩
    cases before with
    | nil =>
      cases h
      exact .inl ⟨rfl, rfl, rfl⟩
    | cons z zs =>
      cases h
      refine .inr ⟨zs, after, rfl, ?_, ?_⟩
      · rw [plainCode_cons, List.length_append, Nat.add_assoc]
      · rw [paddedCode_cons, List.length_append, Nat.add_assoc]
  · rintro (⟨rfl, rfl, rfl⟩ | h)
    · exact partAt_head _ _ _ _
    · exact h.tail

theorem not_partAt_nil : ¬ PartAt n n' [] t t' x := by
  rintro ⟨before, after, h, -⟩
  cases before <;> cases h

theorem partAt_of_mem (h : x ∈ ps) : ∃ t t', PartAt n n' ps t t' x := by
  obtain ⟨before, after, rfl⟩ := List.append_of_mem h
  exact ⟨_, _, before, after, rfl, rfl, rfl⟩

theorem partAt_of_label {l : String} (h : l ∈ ps.filterMap Part.label?) :
    ∃ t t' pad, PartAt n n' ps t t' (.mark l pad) := by
  obtain ⟨x, hx, e⟩ := List.mem_filterMap.mp h
  obtain ⟨t, t', hat⟩ := partAt_of_mem (n := n) hx
  cases x with
  | mark l' pad =>
    cases e
    exact ⟨t, t', pad, hat⟩
  | instr i bs bs' => cases e

theorem markedLabels_map_part (ps : List (Part ι)) :
    markedLabels (ps.map Part.line) = ps.filterMap Part.label? := by
  induction ps with
  | nil => rfl
  | cons x ps ih =>
    cases x with
    | mark l pad => exact congrArg (l :: ·) ih
    | instr i bs bs' => exact ih

end

/-! ## two listings side by side -/

section
variable {ι ε : Type} (encode : Nat → ι → Except ε Chunk)

/-- the references of lines, in order -/
def refsFrom (n : Nat) (lines : List (Line ι)) : List SymbolRef :=
  (chunksFrom encode n lines).filterMap fun x => x.2.ref x.1

/-- what a part holds where it stands: padding in front of a header and nowhere else, or the closed
encoding of an instruction -/
def Part.Fits (a : ι) (Header : String → Prop) (labels labels' : Labels) (t t' : Nat) : Part ι → Prop
  | .mark l pad => (Header l ∧ ∃ c, encode t' a = .ok c ∧ c.bytes = pad) ∨ (¬ Header l ∧ pad = [])
  | .instr i bs bs' =>
    ∃ c, (∀ pos, encode pos i = .ok c) ∧ c.close labels t = .ok bs ∧ c.close labels' t' = .ok bs'

/-- a label and its offsets in both programs; it stands behind its padding -/
def SameMark (n n' : Nat) (ps : List (Part ι)) (u u' : String × Nat) : Prop :=
  ∃ t t' pad, PartAt n n' ps t t' (.mark u.1 pad) ∧ u.2 = t ∧ u' = (u.1, t' + pad.length)

/-- a reference in both programs, made by the same instruction -/
def SameRef (n n' : Nat) (ps : List (Part ι)) (r r' : SymbolRef) : Prop :=
  ∃ t t' i bs bs' c off, PartAt n n' ps t t' (.instr i bs bs') ∧ encode t i = .ok c ∧
    c.symbol = some (off, r.name, r.kind) ∧ r.pos = Int64.ofNat (t + off) ∧
    r' = { r with pos := Int64.ofNat (t' + off) }

/-- the parts of two listings that are laid out from `n` and `n'` -/
structure Cut (a : ι) (Header : String → Prop) (labels labels' : Labels) (n n' : Nat)
    (xs ys : List (Line ι)) (code code' : List UInt8) (ps : List (Part ι)) : Prop where
  lines : ps.map Part.line = xs
  plain : plainCode ps = code
  padded : paddedCode ps = code'
  fits : ∀ t t' x, PartAt n n' ps t t' x → x.Fits encode a Header labels labels' t t'
  marks : List.Forall₂ (SameMark n n' ps) (marksFrom encode n xs) (marksFrom encode n' ys)
  refs : List.Forall₂ (SameRef encode n n' ps) (refsFrom encode n xs) (refsFrom encode n' ys)

end

section
variable {ι ε : Type} {encode : Nat → ι → Except ε Chunk} {a : ι} {Header : String → Prop}
  {labels labels' : Labels} {n n' : Nat} {xs ys : List (Line ι)} {code code' : List UInt8}
  {x : Part ι} {ps : List (Part ι)}

theorem SameMark.tail {u u' : String × Nat}
    (h : SameMark (n + x.plain.length) (n' + x.padded.length) ps u u') : SameMark n n' (x :: ps) u u' := by
  obtain ⟨t, t', pad, hp, hu⟩ := h
  exact ⟨t, t', pad, hp.tail, hu⟩

theorem SameRef.tail {r r' : SymbolRef}
    (h : SameRef encode (n + x.plain.length) (n' + x.padded.length) ps r r') :
    SameRef encode n n' (x :: ps) r r' := by
  obtain ⟨t, t', i, bs, bs', c, off, hp, hc⟩ := h
  exact ⟨t, t', i, bs, bs', c, off, hp.tail, hc⟩

theorem chunksFrom_instr {i : ι} {c : Chunk} (h : encode n i = .ok c) :
    chunksFrom encode n (.instr i :: xs) = (n, c) :: chunksFrom encode (n + c.bytes.length) xs := by
  rw [chunksFrom, h]

theorem marksFrom_instr {i : ι} {c : Chunk} (h : encode n i = .ok c) :
    marksFrom encode n (.instr i :: xs) = marksFrom encode (n + c.bytes.length) xs := by
  rw [marksFrom, sizeAt_ok h]

theorem refsFrom_instr {i : ι} {c : Chunk} (h : encode n i = .ok c) :
    refsFrom encode n (.instr i :: xs) =
      (c.ref n).toList ++ refsFrom encode (n + c.bytes.length) xs := by
  unfold refsFrom
  rw [chunksFrom_instr h, List.filterMap_cons]
  cases c.ref n <;> rfl

theorem closeAll_cons_ok {c : Chunk} {rest : List (Nat × Chunk)}
    (h : closeAll labels ((n, c) :: rest) = .ok code) :
    ∃ bs tail, c.close labels n = .ok bs ∧ closeAll labels rest = .ok tail ∧ code = bs ++ tail := by
  unfold closeAll at h
  split at h
  · cases h
  · rename_i bs hbs
    split at h
    · cases h
    · rename_i tail htail
      cases h
      exact ⟨bs, tail, hbs, htail, rfl⟩

theorem Accepted.head {i : ι} (h : Accepted encode n (.instr i :: xs)) :
    ∃ c, encode n i = .ok c ∧ Accepted encode (n + c.bytes.length) xs := by
  obtain ⟨c, hc⟩ := h n i (standsAt_head _ _)
  refine ⟨c, hc, fun p j hs => h p j ?_⟩
  rw [← sizeAt_ok hc] at hs
  exact hs.tail

theorem Accepted.behind_mark {l : String} (h : Accepted encode n (.mark l :: xs)) :
    Accepted encode n xs := fun p i hs => h p i hs.tail

theorem Cut.mark {l : String} {pad : List UInt8}
    (h : Cut encode a Header labels labels' n (n' + pad.length) xs ys code code' ps)
    (hf : (Part.mark l pad : Part ι).Fits encode a Header labels labels' n n')
    {zs : List (Line ι)}
    (hmarks : marksFrom encode n' zs = (l, n' + pad.length) :: marksFrom encode (n' + pad.length) ys)
    (hrefs : refsFrom encode n' zs = refsFrom encode (n' + pad.length) ys) :
    Cut encode a Header labels labels' n n' (.mark l :: xs) zs code (pad ++ code')
      (.mark l pad :: ps) where
  lines := congrArg (Line.mark l :: ·) h.lines
  plain := h.plain
  padded := by
    rw [paddedCode_cons, h.padded]
    rfl
  fits := by
    intro t t' y hy
    rcases partAt_cons.mp hy with ⟨rfl, rfl, rfl⟩ | hy
    · exact hf
    · exact h.fits t t' y hy
  marks := by
    rw [hmarks]
    refine .cons ⟨n, n', pad, partAt_head _ _ _ _, rfl, rfl⟩ ?_
    exact h.marks.imp fun _ _ hu => SameMark.tail (x := .mark l pad) hu
  refs := by
    rw [hrefs]
    exact h.refs.imp fun _ _ hr => SameRef.tail (x := .mark l pad) hr

theorem Cut.instr {i : ι} {c : Chunk} {bs bs' : List UInt8} (hc : ∀ pos, encode pos i = .ok c)
    (hb : c.close labels n = .ok bs) (hb' : c.close labels' n' = .ok bs')
    (hl : bs.length = c.bytes.length) (hl' : bs'.length = c.bytes.length)
    (h : Cut encode a Header labels labels' (n + c.bytes.length) (n' + c.bytes.length) xs ys code code'
      ps) :
    Cut encode a Header labels labels' n n' (.instr i :: xs) (.instr i :: ys) (bs ++ code)
      (bs' ++ code') (.instr i bs bs' :: ps) := by
  have hrest : Cut encode a Header labels labels' (n + bs.length) (n' + bs'.length) xs ys code code'
      ps := by
    rw [hl, hl']
    exact h
  have hmarks := hrest.marks.imp fun _ _ hu => SameMark.tail (x := .instr i bs bs') hu
  have hrefs := hrest.refs.imp fun _ _ hr => SameRef.tail (x := .instr i bs bs') hr
  refine ⟨congrArg (Line.instr i :: ·) h.lines, ?_, ?_, ?_, ?_, ?_⟩
  · rw [plainCode_cons, h.plain]
    rfl
  · rw [paddedCode_cons, h.padded]
    rfl
  · intro t t' y hy
    rcases partAt_cons.mp hy with ⟨rfl, rfl, rfl⟩ | hy
    · exact ⟨c, hc, hb, hb'⟩
    · exact hrest.fits t t' y hy
  · rw [marksFrom_instr (hc n), marksFrom_instr (hc n'), ← hl]
    rwa [hl', ← hl] at hmarks
  · rw [refsFrom_instr (hc n), refsFrom_instr (hc n'), ← hl]
    rw [hl', ← hl] at hrefs
    -- the instruction may add a reference of its own, the same one in both
    cases hsym : c.symbol with
    | none =>
      have href : ∀ pos, (c.ref pos).toList = [] := fun pos => by
        rw [Chunk.ref, hsym]
        rfl
      rw [href, href]
      exact hrefs
    | some ref =>
      obtain ⟨off, name, kind⟩ := ref
      have hhere : SameRef encode n n' (.instr i bs bs' :: ps) ⟨Int64.ofNat (n + off), name, kind⟩
          ⟨Int64.ofNat (n' + off), name, kind⟩ :=
        ⟨n, n', i, bs, bs', c, off, partAt_head _ _ _ _, hc n, hsym, rfl, rfl⟩
      have href : ∀ pos, (c.ref pos).toList = [⟨Int64.ofNat (pos + off), name, kind⟩] := fun pos => by
        rw [Chunk.ref, hsym]
        rfl
      rw [href, href]
      exact .cons hhere hrefs

/-- **Plain and padded lines are laid out side by side**, if every instruction of the plain ones is
encoded alike wherever it stands, and padding is neither a branch nor a reference. -/
theorem Padded.cut (h : Padded a Header xs ys)
    (hs : ∀ pos i c, encode pos i = .ok c → c.Shaped)
    (ha : ∀ pos c, encode pos a = .ok c → c.branch = none ∧ c.symbol = none)
    (hfix : ∀ i, .instr i ∈ xs → ∀ pos pos', encode pos i = encode pos' i)
    (hx : Accepted encode n xs) (hy : Accepted encode n' ys)
    (hc : closeAll labels (chunksFrom encode n xs) = .ok code)
    (hc' : closeAll labels' (chunksFrom encode n' ys) = .ok code') :
    ∃ ps, Cut encode a Header labels labels' n n' xs ys code code' ps := by
  -- line by line; `n` and `n'` are as far apart as the padding laid out so far
  induction h generalizing n n' code code' with
  | nil =>
    cases hc
    cases hc'
    exact ⟨[], rfl, rfl, rfl, fun _ _ _ h => absurd h not_partAt_nil, .nil, .nil⟩
  | instr i _ ih =>
    obtain ⟨c, hic, hx⟩ := hx.head
    obtain ⟨c', hic', hy⟩ := hy.head
    have hall : ∀ pos, encode pos i = .ok c := fun pos => (hfix i List.mem_cons_self pos n).trans hic
    obtain rfl : c' = c := Except.ok.inj (hic'.symm.trans (hall n'))
    rw [chunksFrom_instr hic] at hc
    rw [chunksFrom_instr hic'] at hc'
    obtain ⟨bs, more, hb, hmore, rfl⟩ := closeAll_cons_ok hc
    obtain ⟨bs', more', hb', hmore', rfl⟩ := closeAll_cons_ok hc'
    obtain ⟨ps, hps⟩ := ih (fun j hj => hfix j (List.mem_cons_of_mem _ hj)) hx hy hmore hmore'
    have hshape := hs n i c' hic
    exact ⟨_, .instr hall hb hb' (hshape.length_close hb) (hshape.length_close hb') hps⟩
  | @mark _ _ l hl _ ih =>
    obtain ⟨ps, hps⟩ := ih (fun j hj => hfix j (List.mem_cons_of_mem _ hj)) hx.behind_mark
      hy.behind_mark hc hc'
    have hfit : (Part.mark l [] : Part ι).Fits encode a Header labels labels' n n' := .inr ⟨hl, rfl⟩
    exact ⟨_, .mark hps hfit rfl rfl⟩
  | header hl _ ih =>
    obtain ⟨c, hac, hy⟩ := hy.head
    obtain ⟨hbranch, hsym⟩ := ha n' c hac
    rw [chunksFrom_instr hac] at hc'
    obtain ⟨pad, more, hb, hmore, rfl⟩ := closeAll_cons_ok hc'
    -- padding has nothing to close
    obtain rfl : c.bytes = pad := by
      rw [Chunk.close, hbranch] at hb
      exact Except.ok.inj hb
    obtain ⟨ps, hps⟩ := ih (fun j hj => hfix j (List.mem_cons_of_mem _ hj)) hx.behind_mark
      hy.behind_mark hc hmore
    refine ⟨_, .mark hps (.inl ⟨hl, c, hac, rfl⟩) (marksFrom_instr hac) ?_⟩
    rw [refsFrom_instr hac, Chunk.ref, hsym]
    rfl

theorem lookup_sameMark {us vs : Labels} (h : List.Forall₂ (SameMark n n' ps) us vs) {l : String}
    {t u : Nat} (ht : us.lookup l = some t) (hu : vs.lookup l = some u) :
    ∃ t' pad, PartAt n n' ps t t' (.mark l pad) ∧ u = t' + pad.length := by
  induction h with
  | nil => cases ht
  | cons hhere _ ih =>
    obtain ⟨s, s', pad, hp, hs, rfl⟩ := hhere
    rw [List.lookup_cons] at ht hu
    split at ht
    · rename_i hl
      rw [hl] at hu
      cases ht
      cases hu
      obtain rfl := eq_of_beq hl
      exact ⟨s', pad, hs ▸ hp, rfl⟩
    · rename_i hl
      rw [hl] at hu
      exact ih ht hu

theorem Cut.lookup (h : Cut encode a Header (labelsOf encode xs) (labelsOf encode ys) 0 0 xs ys code code'
    ps) {l : String} {t u : Nat} (ht : (labelsOf encode xs).lookup l = some t)
    (hu : (labelsOf encode ys).lookup l = some u) :
    ∃ t' pad, PartAt 0 0 ps t t' (.mark l pad) ∧ u = t' + pad.length := by
  have hboth : List.Forall₂ (SameMark 0 0 ps) (labelsOf encode xs) (labelsOf encode ys) := by
    unfold labelsOf
    rw [List.append_nil, List.append_nil]
    exact List.forall₂_reverse_iff.mpr h.marks
  exact lookup_sameMark hboth ht hu

theorem Cut.mem_lines (h : Cut encode a Header labels labels' n n' xs ys code code' ps)
    {i : ι} {bs bs' : List UInt8} (hi : .instr i bs bs' ∈ ps) : .instr i ∈ xs := by
  rw [← h.lines]
  exact List.mem_map_of_mem (f := Part.line) hi

end

/-! ## programs for a machine -/

def Machine.nop : Machine → List UInt8
  | .x64 => [0x90]
  | .a64 => wordBytes 0xD503201F

/-- padding up to a multiple of 16 -/
def Machine.pad : Machine → AnyInstr
  | .x64 => .x64 (.align 16)
  | .a64 => .a64 (.align 16)

/-- bytes are an instruction, but for the field of its branch -/
def AnyInstr.Spells (m : Machine) (i : AnyInstr) (bs : List UInt8) : Prop :=
  ∃ c, (∀ pos, i.encode m pos = .ok c) ∧ bs.length = c.bytes.length ∧
    ∀ k < 8 * c.bytes.length, (∀ b, i.branch? = some b → ¬ b.field.Covers c.bytes.length k) →
      (ofLittleEndian bs).testBit k = (ofLittleEndian c.bytes).testBit k

/-- a branch whose bytes stand at an offset goes to another one -/
def Branch.Leads (b : Branch) (pos : Nat) (bs : List UInt8) (target : Nat) : Prop :=
  (b.field.origin pos bs.length : Int) + b.field.displacement bs = target

/-- **Two programs that differ in padding only.**  They are made of the same instructions.  In front of a
header the second one has fewer than 16 bytes of instructions that do nothing, so that the header
stands at a multiple of 16, and there is no padding anywhere else.  Branches of both programs lead to
the same labels, and the references of both are made by the same instructions. -/
structure OnlyPads (m : Machine) (Header : String → Prop) (p q : Program) (ps : List (Part AnyInstr)) :
    Prop where
  plain : p.code = plainCode ps
  padded : q.code = paddedCode ps
  header : ∀ t t' l pad, PartAt 0 0 ps t t' (.mark l pad) → Header l →
    pad.length < 16 ∧ (∃ k, pad = (List.replicate k m.nop).flatten) ∧ 16 ∣ t' + pad.length
  other : ∀ t t' l pad, PartAt 0 0 ps t t' (.mark l pad) → ¬ Header l → pad = []
  spelt : ∀ t t' i bs bs', PartAt 0 0 ps t t' (.instr i bs bs') → i.Spells m bs ∧ i.Spells m bs'
  leads : ∀ t t' i bs bs' b, PartAt 0 0 ps t t' (.instr i bs bs') → i.branch? = some b →
    ∃ u u' pad, PartAt 0 0 ps u u' (.mark b.label pad) ∧
      b.Leads t bs u ∧ b.Leads t' bs' (u' + pad.length)
  refs : List.Forall₂ (fun r r' => ∃ t t' i bs bs' off, PartAt 0 0 ps t t' (.instr i bs bs') ∧
      off + r.kind.window ≤ bs.length ∧ r.pos = Int64.ofNat (t + off) ∧
      r' = { r with pos := Int64.ofNat (t' + off) }) p.refs q.refs

section
variable {m : Machine}

/-- what padding is made of; on AArch64 it starts with a word -/
theorem Machine.encode_pad {pos : Nat} {c : Chunk} (h : m.pad.encode m pos = .ok c)
    (hpos : m = .a64 → pos % 4 = 0) :
    c.bytes.length < 16 ∧ (∃ k, c.bytes = (List.replicate k m.nop).flatten) ∧
      16 ∣ pos + c.bytes.length := by
  cases m with
  | x64 =>
    obtain rfl : Chunk.mk (List.replicate (X64.padding pos 16) 0x90) none none = c := Except.ok.inj h
    refine ⟨?_, ⟨_, List.flatten_replicate_singleton.symm⟩, ?_⟩
    · rw [List.length_replicate, X64.padding]
      omega
    · rw [List.length_replicate, X64.padding]
      omega
  | a64 =>
    obtain rfl : Chunk.mk ((List.replicate ((16 - pos % 16) % 16 / 4) 0xD503201F).flatMap wordBytes) none
        none = c := Except.ok.inj h
    have hfour := hpos rfl
    refine ⟨?_, ⟨_, List.flatMap_replicate⟩, ?_⟩
    · rw [length_words, List.length_replicate]
      omega
    · rw [length_words, List.length_replicate]
      omega

theorem Machine.pad_mute {pos : Nat} {c : Chunk} (h : m.pad.encode m pos = .ok c) :
    c.branch = none ∧ c.symbol = none := by
  cases m with
  | x64 =>
    obtain rfl : Chunk.mk (List.replicate (X64.padding pos 16) 0x90) none none = c := Except.ok.inj h
    exact ⟨rfl, rfl⟩
  | a64 =>
    obtain rfl : Chunk.mk ((List.replicate ((16 - pos % 16) % 16 / 4) 0xD503201F).flatMap wordBytes) none
        none = c := Except.ok.inj h
    exact ⟨rfl, rfl⟩

theorem AnyInstr.spells_of_close {i : AnyInstr} {c : Chunk} (hc : ∀ pos, i.encode m pos = .ok c)
    {labels : Labels} {pos : Nat} {bs : List UInt8} (h : c.close labels pos = .ok bs) :
    i.Spells m bs ∧ ∀ b, i.branch? = some b → ∃ t, labels.lookup b.label = some t ∧ b.Leads pos bs t := by
  obtain ⟨hlen, hbits, hlead⟩ := (AnyInstr.encode_shaped (hc pos)).close_fills h
  rw [AnyInstr.encode_branch (hc pos)] at hbits hlead
  refine ⟨⟨c, hc, hlen, hbits⟩, fun b hb => ?_⟩
  obtain ⟨t, ht, hto, -⟩ := hlead b hb
  exact ⟨t, ht, by rw [Branch.Leads, hlen, hto]⟩

variable {Header : String → Prop} {labels labels' : Labels} {xs ys : List (Line AnyInstr)}
  {code code' : List UInt8} {ps : List (Part AnyInstr)}

theorem dvd_length_paddedCode {ι : Type} {k : Nat} {ps : List (Part ι)}
    (h : ∀ x ∈ ps, k ∣ x.padded.length) : k ∣ (paddedCode ps).length := by
  induction ps with
  | nil => exact Nat.dvd_zero k
  | cons x ps ih =>
    obtain ⟨hx, hps⟩ := List.forall_mem_cons.mp h
    rw [paddedCode_cons, List.length_append]
    exact Nat.dvd_add hx (ih hps)

theorem Cut.mod_four (h : Cut (AnyInstr.encode .a64) Machine.a64.pad Header labels labels' 0 0 xs ys code
    code' ps) (hm : ∀ i, Line.instr i ∈ xs → i.machine = .a64) {t t' : Nat} {x : Part AnyInstr}
    (hx : PartAt 0 0 ps t t' x) : t' % 4 = 0 := by
  obtain ⟨before, after, rfl, -, rfl⟩ := hx
  -- padding included, which is written in whole words only
  have hword : ∀ y ∈ before, 4 ∣ y.padded.length := by
    intro y hy
    have hmem : y ∈ before ++ x :: after := List.mem_append_left _ hy
    obtain ⟨u, u', hu⟩ : ∃ u u', PartAt 0 0 (before ++ x :: after) u u' y := partAt_of_mem hmem
    have hfit := h.fits u u' y hu
    cases y with
    | mark l pad =>
      rcases hfit with ⟨-, c, hc, rfl⟩ | ⟨-, rfl⟩
      · obtain ⟨j, hj, -⟩ | ⟨-, j, -, hc⟩ := AnyInstr.encode_ok hc
        · cases hj
        · exact Nat.dvd_of_mod_eq_zero (A64.Instr.encode_length hc)
      · exact Nat.dvd_zero 4
    | instr i bs bs' =>
      obtain ⟨c, hc, -, hb⟩ := hfit
      have hlen := (AnyInstr.encode_shaped (hc u')).length_close hb
      obtain ⟨j, rfl, -⟩ | ⟨-, j, -, hjc⟩ := AnyInstr.encode_ok (hc u')
      · cases hm _ (h.mem_lines hmem)
      · show 4 ∣ bs'.length
        rw [hlen]
        exact Nat.dvd_of_mod_eq_zero (A64.Instr.encode_length hjc)
  have hsum := dvd_length_paddedCode hword
  omega

/-- **The programs of plain and padded lines** differ in padding only. -/
theorem Padded.onlyPads (h : Padded m.pad Header xs ys)
    (hm : ∀ i, Line.instr i ∈ xs → i.machine = m)
    (hfix : ∀ i, .instr i ∈ xs → ∀ pos pos', i.encode m pos = i.encode m pos') {p q : Program}
    (hp : assemble m xs = .ok p) (hq : assemble m ys = .ok q) :
    ∃ ps, ps.map Part.line = xs ∧ OnlyPads m Header p q ps := by
  obtain ⟨hx, -, hc, hrefs⟩ := assembleLines_passes hp
  obtain ⟨hy, -, hc', hrefs'⟩ := assembleLines_passes hq
  have hshaped : ∀ pos i c, AnyInstr.encode m pos i = .ok c → c.Shaped :=
    fun _ _ _ hc => AnyInstr.encode_shaped hc
  obtain ⟨ps, hcut⟩ := h.cut hshaped (fun _ _ hc => Machine.pad_mute hc) hfix hx hy hc hc'
  refine ⟨ps, hcut.lines, hcut.plain.symm, hcut.padded.symm, ?_, ?_, ?_, ?_, ?_⟩
  · intro t t' l pad hat hl
    rcases hcut.fits t t' _ hat with ⟨-, c, hc, rfl⟩ | ⟨hno, -⟩
    · refine Machine.encode_pad hc ?_
      rintro rfl
      exact hcut.mod_four hm hat
    · exact absurd hl hno
  · intro t t' l pad hat hl
    rcases hcut.fits t t' _ hat with ⟨hyes, -⟩ | ⟨-, hpad⟩
    · exact absurd hyes hl
    · exact hpad
  · intro t t' i bs bs' hat
    obtain ⟨c, hic, hb, hb'⟩ := hcut.fits t t' _ hat
    exact ⟨(AnyInstr.spells_of_close hic hb).1, (AnyInstr.spells_of_close hic hb').1⟩
  · intro t t' i bs bs' b hat hbr
    obtain ⟨c, hic, hb, hb'⟩ := hcut.fits t t' _ hat
    obtain ⟨u, hu, hlead⟩ := (AnyInstr.spells_of_close hic hb).2 b hbr
    obtain ⟨v, hv, hlead'⟩ := (AnyInstr.spells_of_close hic hb').2 b hbr
    obtain ⟨u', pad, hmark, rfl⟩ := hcut.lookup hu hv
    exact ⟨u, u', pad, hmark, hlead, hlead'⟩
  · rw [hrefs, hrefs']
    refine hcut.refs.imp fun r r' hr => ?_
    obtain ⟨t, t', i, bs, bs', c, off, hat, hic, hsym, hpos, hr'⟩ := hr
    obtain ⟨d, hd, hb, -⟩ := hcut.fits t t' _ hat
    obtain rfl : c = d := Except.ok.inj (hic.symm.trans (hd t))
    refine ⟨t, t', i, bs, bs', off, hat, ?_, hpos, hr'⟩
    rw [(AnyInstr.encode_shaped hic).length_close hb]
    exact (AnyInstr.encode_refers hic hsym).inside

end

end TreeJit
