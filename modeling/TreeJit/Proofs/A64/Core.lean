import TreeJit.Proofs.A64.System

/-!
# A machine that fetches its words

A core fetches the word at its position in some code, decodes it and does what its form says: a form
that moves data is performed as on the straight line (`Form.exec`), the others go somewhere else or
ask the system for maintenance of its caches (`SysForm.exec`).  What is seen of a run are the accesses
to memory and this maintenance, in order (`Act`).  The value of the cache type register is a
parameter.

* `Runs`         a run, step by step;
* `CodeAt`       some words stand in the code;
* `Runs.words`   words on the straight line are run one after the other.
-/

namespace TreeJit.A64

inductive Act where
  | memory (e : Event)
  /-- the data line at an address is cleaned -/
  | clean (address : UInt64)
  /-- the instruction line at an address is dropped -/
  | drop (address : UInt64)
  /-- what came before is completed -/
  | barrier
  /-- what comes behind is fetched anew -/
  | refetch

inductive Core where
  /-- in front of a position of the code -/
  | at (pos : Nat) (c : Cpu)
  /-- back at the address the caller left -/
  | returned (c : Cpu) (address : UInt64)
  /-- at no word, or at one this machine does not know -/
  | stuck

def fetch (code : List UInt8) (pos : Nat) : Option UInt32 :=
  if pos + 4 ≤ code.length then some (wordAt code pos) else none

def branchBy (w : UInt32) (lo n pos : Nat) (c : Cpu) : Core :=
  let t : Int := pos + 4 * (BitVec.ofNat n (field w lo n)).toInt
  if t < 0 then .stuck else .at t.toNat c

/-- the effect of a word of a form at `pos`; calls and the frame are left out -/
def SysForm.exec (ctr : UInt64) (w : UInt32) (pos : Nat) (c : Cpu) (s : SysForm) : Core × List Act :=
  let r := field w 0 5
  match s with
  | jump => (branchBy w 0 26 pos c, [])
  | jumpIf =>
    (if c.flags.test (UInt8.ofNat (field w 0 4)) then branchBy w 5 19 pos c else .at (pos + 4) c, [])
  | compareZero negated wide =>
    (if (cut wide (c.reg r) == 0) != negated then branchBy w 5 19 pos c else .at (pos + 4) c, [])
  | ret => (.returned c (c.x 30), [])
  | nop => (.at (pos + 4) c, [])
  | mrsCTR => (.at (pos + 4) (c.setReg r ctr), [])
  | dcCVAU => (.at (pos + 4) c, [.clean (c.reg r)])
  | icIVAU => (.at (pos + 4) c, [.drop (c.reg r)])
  | dsbISH => (.at (pos + 4) c, [.barrier])
  | isb => (.at (pos + 4) c, [.refetch])
  | call | pushFrame | popFrame => (.stuck, [])

section
variable (E : Env) (ctr : UInt64) (code : List UInt8)

def next (pos : Nat) (c : Cpu) : Core × List Act :=
  match fetch code pos with
  | none => (.stuck, [])
  | some w =>
    match decodeAny w with
    | none => (.stuck, [])
    | some (.data f) => (.at (pos + 4) (f.exec E w c).1, (f.exec E w c).2.map .memory)
    | some (.sys s) => s.exec ctr w pos c

inductive Runs : Core → List Act → Core → Prop where
  | refl (k : Core) : Runs k [] k
  | step {pos : Nat} {c : Cpu} {k k' : Core} {es es' : List Act}
      (h : next E ctr code pos c = (k, es)) (hr : Runs k es' k') : Runs (.at pos c) (es ++ es') k'

end

def CodeAt (code : List UInt8) (pos : Nat) (ws : List UInt32) : Prop :=
  ∀ j w, ws[j]? = some w → fetch code (pos + 4 * j) = some w

section
variable {E : Env} {ctr : UInt64} {code : List UInt8} {pos : Nat} {ws us : List UInt32}

theorem codeAt_flatMap (ws : List UInt32) : CodeAt (ws.flatMap wordBytes) 0 ws := by
  intro j w h
  have hj := (List.getElem?_eq_some_iff.mp h).1
  rw [Nat.zero_add, fetch, wordAt_flatMap h, if_pos]
  rw [length_words]
  omega

theorem CodeAt.head {w : UInt32} (h : CodeAt code pos (w :: ws)) : fetch code pos = some w :=
  h 0 w rfl

theorem CodeAt.tail {w : UInt32} (h : CodeAt code pos (w :: ws)) : CodeAt code (pos + 4) ws := by
  intro j u hu
  have hj := h (j + 1) u hu
  rwa [Nat.mul_add, Nat.add_comm (4 * j), ← Nat.add_assoc] at hj

theorem CodeAt.left (us : List UInt32) (h : CodeAt code pos (ws ++ us)) : CodeAt code pos ws :=
  fun j w hw => h j w (by rw [List.getElem?_append_left (List.getElem?_eq_some_iff.mp hw).1]; exact hw)

theorem CodeAt.right (ws : List UInt32) (h : CodeAt code pos (ws ++ us)) :
    CodeAt code (pos + 4 * ws.length) us := by
  intro j u hu
  rw [Nat.add_assoc, ← Nat.mul_add]
  exact h _ u (by rw [List.getElem?_append_right (Nat.le_add_right _ _), Nat.add_sub_cancel_left]; exact hu)

/-! ## runs -/

theorem Runs.trans {k k' k'' : Core} {es es' : List Act} (h : Runs E ctr code k es k')
    (h' : Runs E ctr code k' es' k'') : Runs E ctr code k (es ++ es') k'' := by
  induction h with
  | refl => exact h'
  | step hn _ ih =>
    rw [List.append_assoc]
    exact .step hn (ih h')

theorem Runs.one {c : Cpu} {k : Core} {es : List Act} (h : next E ctr code pos c = (k, es)) :
    Runs E ctr code (.at pos c) es k := by
  have hr := Runs.step h (.refl k)
  rwa [List.append_nil] at hr

/-- a word of a form that moves no data -/
theorem Runs.sys {w : UInt32} {s : SysForm} {c : Cpu} (hw : fetch code pos = some w)
    (hs : decodeAny w = some (.sys s)) :
    Runs E ctr code (.at pos c) (s.exec ctr w pos c).2 (s.exec ctr w pos c).1 :=
  .one (by simp only [next, hw, hs])

/-- **Words on the straight line** do what they do there. -/
theorem Runs.words {c c' : Cpu} {es : List Event} (hws : CodeAt code pos ws)
    (h : run E ws c = some (c', es)) :
    Runs E ctr code (.at pos c) (es.map .memory) (.at (pos + 4 * ws.length) c') := by
  induction ws generalizing pos c es with
  | nil =>
    cases h
    exact .refl _
  | cons w ws ih =>
    rw [run] at h
    split at h
    · cases h
    · rename_i f hf
      obtain ⟨⟨c2, es2⟩, hr, e⟩ := Option.map_eq_some_iff.mp h
      cases e
      have hn : next E ctr code pos c =
          (.at (pos + 4) (f.exec E w c).1, (f.exec E w c).2.map .memory) := by
        simp only [next, hws.head, decodeAny_data hf]
      have hrest := Runs.step hn (ih hws.tail hr)
      rw [← List.map_append] at hrest
      rwa [List.length_cons, Nat.mul_add, Nat.mul_one, Nat.add_comm (4 * ws.length), ← Nat.add_assoc]

theorem Runs.instrs (is : List Instr) {c c' : Cpu} {es : List Event}
    (hws : CodeAt code pos (is.flatMap Instr.words)) (hi : ∀ i ∈ is, i.Encodes)
    (h : performAll E is c = some (c', es)) :
    Runs E ctr code (.at pos c) (es.map .memory) (.at (pos + 4 * (is.flatMap Instr.words).length) c') :=
  .words hws (run_of_performAll hi h)

end

end TreeJit.A64
