import TreeJit.Proofs.Emit.AtWork
import TreeJit.Proofs.Emit.ScratchFrame
import TreeJit.Proofs.SSA.Passage
import TreeJit.Proofs.Word.Memory

/-!
# Running code with a scratch frame

The bytes of a name change only where the code stores under the name, as long as nothing else reaches
them: an element that is stored through a reference, and what a call does, have to lie elsewhere.  So a
load under a name gives what was stored last, on every way that a run takes from the store to the load.

* `Passes w a P p q`      a run gets from `p` to `q`, and `P` holds at every step;
* `Step.Clear`            what is asked of the steps in between;
* `Func.Recalls`          a load gives what was stored last;
* `named_slots`           all that holds of the slots of a scratch frame.
-/

namespace TreeJit

open SSA

/-! ## runs with a condition -/

namespace SSA
variable {w : World} {a : Activation}

def Func.stepAt? (f : Func) (b k : Nat) : Option Step :=
  f.blocks[b]?.bind fun blk => blk.steps.toList[k]?

/-- a run gets from a point to another one, and every step on the way meets `P` -/
inductive Passes (w : World) (a : Activation) (P : Step → State → Prop) : Point → Point → Prop where
  | refl (p : Point) : Passes w a P p p
  | tail {p q : Point} {b k : Nat} {s : Step} {st : State} {es : List Event}
      (h : Passes w a P p (.inside b k st)) (hk : a.fn.stepAt? b k = some s) (hP : P s st)
      (hs : Advance w a (.inside b k st) es q) : Passes w a P p q

theorem Func.mem_of_stepAt? {f : Func} {b k : Nat} {s : Step} (h : f.stepAt? b k = some s) :
    s ∈ f.steps := by
  obtain ⟨blk, hb, hs⟩ := Option.bind_eq_some_iff.mp h
  exact Func.mem_steps.mpr ⟨b, blk, hb, List.mem_of_getElem? hs⟩

def Point.mem? : Point → Option Memory
  | .inside _ _ st => some st.mem
  | .left _ mem => some mem
  | .failed _ => none

theorem execStep_branch_mem {st st' : State} {s : Step} {b : Nat} {args : List Val}
    (h : execStep w a st s = .ok (.branch st' b args)) : st'.mem = st.mem := by
  obtain ⟨inst, results⟩ := s
  cases inst with
  | jump | brif =>
    cases h
    rfl
  | call fn args =>
    simp only [execStep] at h
    split at h <;> cases h
  | _ => cases h

theorem execStep_leave_mem {st st' : State} {s : Step} {vals : List Val}
    (h : execStep w a st s = .ok (.leave st' vals)) : st'.mem = st.mem := by
  obtain ⟨inst, results⟩ := s
  cases inst with
  | ret =>
    cases h
    rfl
  | call fn args =>
    simp only [execStep] at h
    split at h <;> cases h
  | _ => cases h

theorem Passes.keeps {P : Step → State → Prop} {n : Nat} {x : UInt64}
    (hP : ∀ s ∈ a.fn.steps, ∀ st, P s st → ∀ st', execStep w a st s = .ok (.on st') →
      st'.mem.bytes n x = st.mem.bytes n x) {p q : Point} (h : Passes w a P p q) {m m' : Memory}
    (hm : p.mem? = some m) (hm' : q.mem? = some m') : m'.bytes n x = m.bytes n x := by
  induction h generalizing m' with
  | refl =>
    obtain rfl := Option.some.inj (hm.symm.trans hm')
    rfl
  | @tail q b k s st es _ hk hs hadv ih =>
    have ih := ih rfl
    have hget : ∀ {blk : Block} {s' : Step}, a.fn.blocks[b]? = some blk →
        blk.steps.toList[k]? = some s' → s' = s := by
      intro blk s' hb hk'
      rw [Func.stepAt?, hb, Option.bind_some, hk'] at hk
      exact Option.some.inj hk
    cases hadv with
    | on hb hk' he =>
      obtain rfl := hget hb hk'
      cases hm'
      exact (hP _ (Func.mem_of_stepAt? hk) st hs _ he).trans ih
    | branch hb hk' he hd =>
      cases hm'
      rw [State.mem_setAll, execStep_branch_mem he]
      exact ih
    | leave hb hk' he =>
      cases hm'
      rw [execStep_leave_mem he]
      exact ih
    | fail => cases hm'

end SSA

/-! ## the addresses of slots -/

namespace SSA

theorem toNat_signExtend (x : Int32) : (x.toInt64.toUInt64.toNat : Int) = x.toInt % 2 ^ 64 := by
  have h1 := x.le_toInt
  have h2 := x.toInt_lt
  have h3 : x.toInt64.toInt = x.toInt := Int32.toInt_toInt64 x
  have h4 : x.toInt64.toInt = x.toInt64.toUInt64.toBitVec.toInt := rfl
  rw [BitVec.toInt_eq_toNat_cond] at h4
  have h5 : x.toInt64.toUInt64.toBitVec.toNat = x.toInt64.toUInt64.toNat := rfl
  have h6 := x.toInt64.toUInt64.toNat_lt
  rw [h5] at h4
  split at h4 <;> omega

theorem dist_addressOf (p : UInt64) (x y : Int32) :
    (Memory.dist (addressOf p x) (addressOf p y) : Int) = (y.toInt - x.toInt) % 2 ^ 64 := by
  have hx := toNat_signExtend x
  have hy := toNat_signExtend y
  have hxlt := x.toInt64.toUInt64.toNat_lt
  have hp := p.toNat_lt
  unfold Memory.dist addressOf
  rw [UInt64.toNat_sub, UInt64.toNat_add, UInt64.toNat_add]
  omega

/-- Parts of a frame slot that do not meet have addresses that do not meet, wherever the slot lies:
the offsets may wrap, but they wrap to the other end of the words. -/
theorem slotAddr_apart_of_le (a : Activation) (k : Nat) {off off' : Int32} {n n' : Nat}
    (h0 : 0 ≤ off.toInt) (h0' : 0 ≤ off'.toInt) (hn : 0 < n ∧ n ≤ 16) (hn' : 0 < n' ∧ n' ≤ 16)
    (h : off.toInt + n ≤ off'.toInt ∨ off'.toInt + n' ≤ off.toInt) :
    Memory.Apart (a.slotAddr k off) n (a.slotAddr k off') n' := by
  -- the place of an offset, which may be one turn of the words off
  have hplace : ∀ o : Int32, 0 ≤ o.toInt →
      (a.frame.slot k + o).toInt = (a.frame.slot k).toInt + o.toInt ∨
      (a.frame.slot k + o).toInt = (a.frame.slot k).toInt + o.toInt - 2 ^ 32 := by
    intro o ho
    have h1 := o.toInt_lt
    have h2 := (a.frame.slot k).le_toInt
    have h3 := (a.frame.slot k).toInt_lt
    rw [Int32.toInt_add, Int.bmod_def]
    split <;> omega
  have h1 := hplace off h0
  have h2 := hplace off' h0'
  have h3 := off.toInt_lt
  have h4 := off'.toInt_lt
  have h5 := dist_addressOf a.sp (a.frame.slot k + off) (a.frame.slot k + off')
  have h6 := dist_addressOf a.sp (a.frame.slot k + off') (a.frame.slot k + off)
  unfold Memory.Apart Activation.slotAddr
  omega

end SSA
/-! ## between a store and a load -/

namespace SSA
open Emit (NamedSlot)

/-- What is asked of a step between a store under a name and a load: it is no store under that name, and
an element that it stores or what it calls leaves the bytes of the name alone. -/
def Step.Clear (w : World) (a : Activation) (k : Nat) (n : NamedSlot) (s : Step) (st : State) : Prop :=
  match s.inst with
  | .stackStore _ _ slot off => ¬ (slot = k ∧ off = n.offset)
  | .store t _ p off =>
    Memory.Apart (addressOf (st.get p).lo off) t.bytes (a.slotAddr k n.offset) n.held.bytes
  | .call .. => ∀ st', execStep w a st s = .ok (.on st') →
    st'.mem.bytes n.held.bytes (a.slotAddr k n.offset) =
      st.mem.bytes n.held.bytes (a.slotAddr k n.offset)
  | _ => True

/-- A load under the name gives what was stored last, whatever a run does between the store and the
load: the store at `b`, `i` is the last one before the load at `b'`, `j`. -/
def Func.Recalls (f : Func) (k : Nat) (n : NamedSlot) : Prop :=
  ∀ (w : World) (sp : UInt64) (b i x : Nat) (st st1 : State) (b' j r : Nat) (st' : State),
    f.stepAt? b i = some ⟨.stackStore n.held x k n.offset, []⟩ →
    execStep w (f.activation sp) st ⟨.stackStore n.held x k n.offset, []⟩ = .ok (.on st1) →
    Passes w (f.activation sp) (Step.Clear w (f.activation sp) k n)
      (.inside b (i + 1) st1) (.inside b' j st') →
    f.stepAt? b' j = some ⟨.stackLoad n.held k n.offset, [r]⟩ →
    execStep w (f.activation sp) st' ⟨.stackLoad n.held k n.offset, [r]⟩ =
      .ok (.on (st'.set r ((st.get x).keep n.held)))

/-- **A clear step keeps the bytes of a name**, in a function that stores into frame slots by names. -/
theorem Step.Clear.keeps {w : World} {a : Activation} {k : Nat} {n : NamedSlot} {s : Step}
    {st st' : State} (h : s.Clear w a k n st) (he : execStep w a st s = .ok (.on st'))
    (hv : n.held.isValid = true) (h0 : 0 ≤ n.start)
    (hstore : s.inst.storesSlot = true → ∃ (m : NamedSlot) (x : Nat),
      s.inst = .stackStore m.held x k m.offset ∧ m.held.isValid = true ∧ 0 ≤ m.start ∧
      (m ≠ n → m.Apart n)) :
    st'.mem.bytes n.held.bytes (a.slotAddr k n.offset) =
      st.mem.bytes n.held.bytes (a.slotAddr k n.offset) := by
  have hwidth : ∀ {t : Ty}, t.isValid = true → 0 < t.bytes ∧ t.bytes ≤ 16 := by
    intro t ht
    obtain ⟨j, hj, e⟩ := Emit.bytes_pow ht
    rw [e]
    exact ⟨Nat.two_pow_pos j, Nat.pow_le_pow_right (show 2 > 0 by omega) hj⟩
  obtain ⟨inst, results⟩ := s
  cases inst with
  | call fn args => exact h st' he
  | store t x p off =>
    cases he
    exact bytes_writeVal_apart st.mem _ h
  | stackStore t x slot off =>
    obtain ⟨m, x', e, hm, hm0, hap⟩ := hstore rfl
    cases e
    cases he
    refine bytes_writeVal_apart st.mem _ (slotAddr_apart_of_le a k hm0 h0 (hwidth hm) (hwidth hv) ?_)
    exact hap fun e => h ⟨rfl, by rw [e]⟩
  | jump | brif | ret => cases he
  | _ =>
    cases he
    rfl

end SSA

/-! ## all of it -/

namespace Emit.Builder
open SSA.Draft (ExtendsBy extendsBy_act)

/-- the slots of the names lie in the frame slot, aligned to their width, and have no byte in common -/
structure SlotsApart (b : Builder) : Prop where
  within : ∀ key n, b.namedSlot? key = some n → ∃ (s : Scratch) (k : Nat) (r : Slot),
    b.scratch = some s ∧ s.slot = k ∧ b.draft.body.fn.slots[k]? = some r ∧
    0 ≤ n.start ∧ n.start % n.held.bytes = 0 ∧ n.stop ≤ r.size
  apart : ∀ key key' n n', key ≠ key' → b.namedSlot? key = some n → b.namedSlot? key' = some n' →
    n.Apart n'

/-- the frame slot of the scratch frame has fewer than `2 ^ 31` bytes -/
def FrameBelow (b : Builder) : Prop :=
  ∀ (s : Scratch) (k : Nat) (r : Slot), b.scratch = some s → s.slot = k →
    b.draft.body.fn.slots[k]? = some r → r.size < 2 ^ 31

section
variable {b : Builder} {used : Nat}

theorem namedSlot?_eq_some {key : String} {n : NamedSlot} :
    b.namedSlot? key = some n ↔ ∃ s, b.scratch = some s ∧ s.find? key = some n :=
  Option.bind_eq_some_iff

theorem Tidy.slotsApart (h : b.Tidy used) : b.SlotsApart where
  within key n hn := by
    obtain ⟨s, hs, hf⟩ := namedSlot?_eq_some.mp hn
    obtain ⟨k, r, hk, hr, hl⟩ := h.frame s hs
    have hm := Scratch.mem_of_find? hf
    exact ⟨s, k, r, hs, hk, hr, hl.start n hm, hl.aligned n hm, Int.le_trans (hl.stop n hm) hl.used_le⟩
  apart key key' n n' hne hn hn' := by
    obtain ⟨s, hs, hf⟩ := namedSlot?_eq_some.mp hn
    obtain ⟨s', hs', hf'⟩ := namedSlot?_eq_some.mp hn'
    obtain rfl := Option.some.inj (hs.symm.trans hs')
    obtain ⟨k, r, -, -, hl⟩ := h.frame s hs
    refine hl.apart_of_ne (Scratch.mem_of_find? hf) (Scratch.mem_of_find? hf') ?_
    rintro rfl
    exact hne ((Scratch.name_of_find? hf).symm.trans (Scratch.name_of_find? hf'))

/-- **What is stored under a name is what is loaded**, in the function that a builder hands out. -/
theorem Tidy.recalls (h : b.Tidy used) {results : List Int} {fn : Func}
    (hfn : (b.finalize results).2 = .ok fn) {s : Scratch} (hs : b.scratch = some s) {k : Nat}
    (hk : s.slot = k) {n : NamedSlot} (hn : n ∈ s.slots) : fn.Recalls k n := by
  obtain ⟨k0, r, hk0, -, hl⟩ := h.frame s hs
  obtain rfl : k = k0 := Int.ofNat.inj (hk.symm.trans hk0)
  obtain rfl := Except.ok.inj (hfn.symm.trans (finalize_of_isOk (by rw [hfn]; rfl)))
  have hspares : b.draft.ExtendsBy Action.SparesSlots (b.ended results) :=
    (extendsBy_act _ (a := .ret results) trivial).trans (extendsBy_act _ (a := .sealAll) trivial)
  have hv := hl.valid n hn
  intro w sp blk i x st st1 blk' j v st' hstore he hpass hload
  -- the store put the value there, and every step since then has left it
  have hbytes : st'.mem.bytes n.held.bytes _ = st1.mem.bytes n.held.bytes _ :=
    hpass.keeps (fun s' hs' st hc st' he' => by
      refine hc.keeps he' (n.held_isValid hv) (hl.start n hn) fun hst => ?_
      obtain ⟨s0, m, k0, x, hs0, hm, hk0, e⟩ := h.stores s' (hspares.spares s' hs' hst) hst
      obtain rfl := Option.some.inj (hs.symm.trans hs0)
      obtain rfl : k = k0 := Int.ofNat.inj (hk.symm.trans hk0)
      exact ⟨m, x, e, m.held_isValid (hl.valid m hm), hl.start m hm, hl.apart_of_ne hm hn⟩) rfl rfl
  cases he
  show Except.ok (Next.on (st'.set v (readVal st'.mem n.held _))) = _
  rw [readVal_of_bytes hbytes, readVal_writeVal _ _ _ _ (n.held_isValid hv)]

end

/-- **Named slots never alias.**  For all work that stores into frame slots by names only and leaves no
fault: a name keeps the slot of its first use; the slots are aligned, lie in the frame slot and have no
byte in common; the count of the bytes in use never falls, if the frame slot has fewer than `2 ^ 31`
bytes; work on a name accesses the slot of that name, with the type that is kept there; and in a run
of the function a load under a name gives what was stored last, if the elements that are stored and the
calls in between leave the bytes of the name alone. -/
theorem named_slots (id : Nat) (name : String) (sig : Signature) {ws : List (Scope × Work)}
    (hw : ∀ w ∈ ws, w.2.Named) (hh : ((new id name sig).workAll ws).Healthy) :
    let b := (new id name sig).workAll ws
    b.SlotsApart ∧
    (∀ before after, ws = before ++ after →
      ((new id name sig).workAll before).Remembers b ∧
      (b.FrameBelow → ((new id name sig).workAll before).scratchUsed ≤ b.scratchUsed)) ∧
    (∀ before scope w after, ws = before ++ (scope, w) :: after →
      let a := (new id name sig).workAll before
      ∀ key c, w.key? = some (key, c) →
        ∃ (s : Scratch) (n : NamedSlot) (k : Nat) (i : Inst) (rs : List ValueNo) (rest : List Step),
          b.scratch = some s ∧ b.namedSlot? key = some n ∧ s.slot = k ∧ n.category = c ∧
          (∀ t, w.wants? a = some t → n.ty = t) ∧ w.access? k n = some i ∧
          a.draft.body.Writes (a.work scope w).draft.body (⟨i, rs⟩ :: rest) ∧
          ∀ st ∈ rest, st.inst.usesSlot = false) ∧
    ∀ results fn, (b.finalize results).2 = .ok fn → ∀ (s : Scratch) (k : Nat), b.scratch = some s →
      s.slot = k → ∀ key n, b.namedSlot? key = some n → fn.Recalls k n := by
  intro b
  -- what holds before a part of the work, and what the part keeps
  have hsplit : ∀ before after, ws = before ++ after → ∃ used used', used ≤ used' ∧
      ((new id name sig).workAll before).Healthy ∧ ((new id name sig).workAll before).Tidy used ∧
      b.Tidy used' ∧ ((new id name sig).workAll before).Remembers b := by
    intro before after e
    have hb : b = ((new id name sig).workAll before).workAll after := by
      rw [← workAll_append, ← e]
    obtain ⟨hw1, hw2⟩ := List.forall_mem_append.mp (e ▸ hw)
    have hh2 : (((new id name sig).workAll before).workAll after).Healthy := hb ▸ hh
    have hh1 := healthy_of_grows (workAll_grows _ after) hh2
    obtain ⟨used, -, ht, -⟩ := (tidy_new id name sig).workAll hw1 hh1
    obtain ⟨used', hle, ht', hr⟩ := ht.workAll hw2 hh2
    exact ⟨used, used', hle, hh1, ht, hb ▸ ht', hb ▸ hr⟩
  obtain ⟨_, used, -, -, -, htidy, -⟩ := hsplit [] ws rfl
  refine ⟨htidy.slotsApart, ?_, ?_, ?_⟩
  · intro before after e
    obtain ⟨used, used', hle, hh1, ht, ht', hr⟩ := hsplit before after e
    refine ⟨hr, fun hbelow => ?_⟩
    rw [ht.scratchUsed ?_, ht'.scratchUsed hbelow]
    · exact Int.ofNat_le.mpr hle
    · -- the frame slot is the same one at the end
      intro s k r hs hk hslot
      obtain ⟨s', hs', e'⟩ := hr.slot s hs
      refine hbelow s' k r hs' (e'.trans hk) ?_
      have hext : ((new id name sig).workAll before).draft.Extends b.draft := by
        have hg := (workAll_grows ((new id name sig).workAll before) after).draft
        rwa [← workAll_append, ← e] at hg
      exact (hext.holds (Body.kept_slot k r) (fun _ => ⟨ht.sound hh1.draft, hslot⟩) hh.draft).2
  · intro before scope w after e a key c hkey
    obtain ⟨_, _, -, -, ht, -⟩ := hsplit before ((scope, w) :: after) e
    obtain ⟨_, _, -, hh2, -, -, hr⟩ := hsplit (before ++ [(scope, w)]) after (by rw [e]; simp)
    rw [workAll_concat] at hh2 hr
    obtain ⟨s, n, k, i, rs, rest, hs, hf, hk, hcat, hwants, hacc, hwr, hrest⟩ :=
      work_accesses ht.sound scope hkey hh2
    obtain ⟨s', hs', e'⟩ := hr.slot s hs
    exact ⟨s', n, k, i, rs, rest, hs', hr.names key n (namedSlot?_eq_some.mpr ⟨s, hs, hf⟩),
      e'.trans hk, hcat, hwants, hacc, hwr, hrest⟩
  · intro results fn hfn s k hs hk key n hn
    obtain ⟨s', hs', hf⟩ := namedSlot?_eq_some.mp hn
    obtain rfl := Option.some.inj (hs.symm.trans hs')
    exact htidy.recalls hfn hs hk (Scratch.mem_of_find? hf)

def twoNames : List (Scope × Work) :=
  [(.bare, .makeScratch 32), (.bare, .direct (.iconst .i64 7)), (.bare, .storeValue "a" 0),
    (.bare, .direct (.splat .i64x2 0)), (.bare, .storeValue "b" 1), (.bare, .loadValue "a")]

theorem named_slots_twoNames :
    let b := (new 0 "f" ⟨[], [.i64]⟩).workAll twoNames
    (∀ w ∈ twoNames, w.2.Named) ∧ b.Healthy ∧ b.SlotsApart ∧ b.scratchUsed = 32 ∧
      (b.finalize [2]).2 = .ok (b.ended [2]).body.fn ∧
      (b.ended [2]).body.fn.Recalls 0 ⟨"a", .i64, .value, 0⟩ ∧
      (b.ended [2]).body.fn.Recalls 0 ⟨"b", .i64x2, .value, 16⟩ := by
  intro b
  have hw : ∀ w ∈ twoNames, w.2.Named := by simp [twoNames, Work.Named, Action.SparesSlots]
  have hh : b.Healthy := ⟨rfl, rfl⟩
  have hfn : (b.finalize [2]).2 = .ok (b.ended [2]).body.fn := finalize_of_isOk (by decide +kernel)
  obtain ⟨hap, -, -, hrecalls⟩ := named_slots 0 "f" ⟨[], [.i64]⟩ hw hh
  exact ⟨hw, hh, hap, rfl, hfn, hrecalls _ _ hfn _ 0 rfl rfl "a" _ rfl,
    hrecalls _ _ hfn _ 0 rfl rfl "b" _ rfl⟩

/-! ### the two conditions are needed -/

/-- seven under the name "a", and nine in an element behind "r": the pointer lies behind the frame, and
the element far in front of the pointer -/
def strayWork : List (Scope × Work) :=
  [(.bare, .makeScratch 32), (.bare, .direct (.iconst .i64 7)), (.bare, .storeValue "a" 0),
    (.bare, .direct (.stackAddr 0 0)), (.bare, .direct (.iconst .i64 4096)),
    (.bare, .direct (.binary .iadd 1 2)), (.bare, .storeRef "r" 3 .i64),
    (.bare, .direct (.iconst .i64 9)), (.bare, .storeElement "r" (-512) 4), (.bare, .loadValue "a")]

def strayBuilder : Builder := (new 0 "f" ⟨[], [.i64]⟩).workAll strayWork

def strayCode : List Step :=
  [⟨.iconst .i64 7, [0]⟩, ⟨.stackStore .i64 0 0 0, []⟩, ⟨.stackAddr 0 0, [1]⟩,
    ⟨.iconst .i64 4096, [2]⟩, ⟨.binary .iadd .i64 1 2, [3]⟩, ⟨.stackStore .pointer 3 0 8, []⟩,
    ⟨.iconst .i64 9, [4]⟩, ⟨.stackLoad .pointer 0 8, [5]⟩, ⟨.store .i64 4 5 (-4096), []⟩,
    ⟨.stackLoad .i64 0 0, [6]⟩]

theorem stray_evolves (w : World) (a : Activation) (st : State) (hs : st.regs.size = 7) :
    ∃ st', Evolves w a st strayCode st' ∧ st'.get 0 = ⟨7, 0⟩ ∧
      (st'.get 3).lo = a.slotAddr 0 0 + 4096 ∧ st'.get 6 = ⟨9, 0⟩ := by
  -- the element lies where the name does
  have hmeet : addressOf (a.slotAddr 0 0 + 4096) (-4096) = a.slotAddr 0 0 := by
    show a.slotAddr 0 0 + 4096 + (-4096 : Int32).toInt64.toUInt64 = _
    rw [UInt64.add_assoc]
    exact UInt64.add_zero _
  have hsum : evalBinary w.float .iadd .i64 ⟨a.slotAddr 0 0, 0⟩ ⟨4096, 0⟩ =
      ⟨a.slotAddr 0 0 + 4096, 0⟩ := rfl
  refine ⟨_, .cons rfl (.cons rfl (.cons rfl (.cons rfl (.cons rfl (.cons rfl (.cons rfl
    (.cons rfl (.cons rfl (.cons rfl .nil))))))))), ?_⟩
  simp only [List.headD_cons, State.get, State.set, Array.getD_eq_getD_getElem?,
    Array.getElem?_setIfInBounds, hs, Array.size_setIfInBounds]
  simp [readVal_writeVal _ .pointer _ _ rfl, hsum, hmeet, Val.keep]

def markOf (i : Nat) : String := String.ofList (List.replicate i 'x')

/-- `k` vectors under different names, in a frame slot whose size is a word only after it is cut -/
def fillWork (k : Nat) : List (Scope × Work) :=
  (.bare, .makeScratch 0x17FFFFFFF) :: (List.range k).map fun i => (.bare, .storeValue (markOf i) 0)

def filled (k : Nat) : Builder := (new 0 "f" ⟨[.f64x2], []⟩).workAll (fillWork k)

theorem filled_succ (k : Nat) :
    filled (k + 1) = (filled k).work .bare (.storeValue (markOf k) 0) := by
  unfold filled fillWork
  rw [List.range_succ, List.map_append, ← List.cons_append]
  exact workAll_concat _ _ _

theorem filled_ready {k : Nat} (hk : k ≤ 2 ^ 27) :
    (filled k).AtWork 0 ∧ (filled k).draft.Has [0] [.f64x2] ∧
      (filled k).draft.body.fn.slots[0]? = some ⟨0x17FFFFFFF, 16⟩ ∧
      ∃ s, (filled k).scratch = some s ∧ s.slot = 0 ∧ s.capacity = 0x7FFFFFFF ∧
        s.next = Int32.ofNat (16 * k) ∧ ∀ i, k ≤ i → s.find? (markOf i) = none := by
  induction k with
  | zero =>
    have h0 : (new 0 "f" ⟨[.f64x2], []⟩).AtWork 0 := atWork_new rfl 0 "f"
    obtain ⟨d, e, ha, hslot⟩ := h0.makeScratch rfl (show (0 : Int) < 0x17FFFFFFF by decide)
    have e0 : filled 0 = _ := e
    rw [e0]
    have hv : (new 0 "f" ⟨[.f64x2], []⟩).draft.Has [0] [.f64x2] := Draft.Has.one_iff.mpr ⟨0, rfl, rfl⟩
    exact ⟨⟨h0.state, h0.fault, ha.isOpen⟩, hv.mono ha.grows, hslot, _, rfl, rfl, rfl, rfl,
      fun _ _ => rfl⟩
  | succ k ih =>
    obtain ⟨h, hv, hr, s, hs, hslot, hcap, hnext, hnone⟩ := ih (by omega)
    have hround : roundUp s.next (SlotCategory.width .value .f64x2) = Int32.ofNat (16 * k) := by
      rw [hnext]
      refine (SSA.alignUp_ofNat (16 * k) (k := 4) (by omega)).trans ?_
      congr 1
      unfold SSA.roundUp
      omega
    have hoff : (Int32.ofNat (16 * k)).toInt = (16 * k : Nat) := by
      rw [Int32.toInt_ofNat', show Int32.size = 2 ^ 32 from rfl]
      exact Int.bmod_eq_of_le (by omega) (by omega)
    have ha : s.allocate (markOf k) .f64x2 .value =
        .ok ({ s with
          next := Int32.ofNat (16 * k) + 16
          slots := ⟨markOf k, .f64x2, .value, Int32.ofNat (16 * k)⟩ :: s.slots },
          ⟨markOf k, .f64x2, .value, Int32.ofNat (16 * k)⟩) := by
      have hroom : ¬ s.capacity < Int32.ofNat (16 * k) + SlotCategory.width .value .f64x2 := by
        rw [hcap, Int32.lt_iff_toInt_lt]
        have := (Int32.ofNat (16 * k) + SlotCategory.width .value .f64x2).toInt_lt
        have e : (0x7FFFFFFF : Int32).toInt = 2 ^ 31 - 1 := rfl
        omega
      unfold Scratch.allocate
      simp only [hnone k (Nat.le_refl k), hround, if_neg hroom]
      rfl
    obtain ⟨d, e, hahead⟩ := h.storeValue (k := 0) rfl hv hs ha hslot hr
      (by show 0 ≤ (Int32.ofNat (16 * k)).toInt; omega)
      (by
        show (Int32.ofNat (16 * k)).toInt + 16 ≤ (0x17FFFFFFF : Int)
        omega)
    rw [filled_succ, show (filled k).work .bare (.storeValue (markOf k) 0) = _ from e]
    refine ⟨⟨h.state, h.fault, hahead.isOpen⟩, hv.mono hahead.grows, hahead.grows.slots 0 _ hr, _, rfl,
      hslot, hcap, ?_, fun i hi => ?_⟩
    · show Int32.ofNat (16 * k) + Int32.ofNat 16 = _
      rw [SSA.ofNat_add_ofNat]
      rfl
    · have hne : ¬ (markOf k == markOf i) = true := by
        intro he
        have hlen := congrArg String.length (eq_of_beq he)
        simp [markOf] at hlen
        omega
      show List.find? (fun n => n.name == markOf i)
        (⟨markOf k, .f64x2, .value, Int32.ofNat (16 * k)⟩ :: s.slots) = none
      rw [List.find?_cons, show (markOf k == markOf i) = false from Bool.eq_false_iff.mpr hne]
      exact hnone i (by omega)

/-- **Both conditions are needed.**  A pointer behind the frame reaches a name with a far element: what is
loaded then is not what was stored under the name.  In a frame slot of more than `2 ^ 31` bytes the
count of the bytes in use falls below nothing. -/
theorem named_slots_conditions :
    ((∀ w ∈ strayWork, w.2.Named) ∧ strayBuilder.Healthy ∧
      (strayBuilder.finalize [6]).2 = .ok (strayBuilder.ended [6]).body.fn ∧
      (strayBuilder.ended [6]).body.fn.blocks.toList.map (·.steps.toList) =
        [strayCode ++ [⟨.ret [6], []⟩]] ∧
      ((strayBuilder.ended [6]).body.fn.frame 0).size = 96 ∧
      ∀ (w : World) (sp : UInt64) (st : State), st.regs.size = 7 →
        let a := (strayBuilder.ended [6]).body.fn.activation sp
        ∃ st', Evolves w a st strayCode st' ∧ st'.get 0 = ⟨7, 0⟩ ∧
          (st'.get 3).lo = a.slotAddr 0 0 + 4096 ∧ st'.get 6 = ⟨9, 0⟩) ∧
    ((∀ w ∈ fillWork (2 ^ 27), w.2.Named) ∧ (filled (2 ^ 27)).Healthy ∧
      (filled (2 ^ 27 - 1)).scratchUsed = 2 ^ 31 - 16 ∧
      (filled (2 ^ 27)).scratchUsed = -2 ^ 31) := by
  have hused : ∀ k ≤ 2 ^ 27, (filled k).scratchUsed = (Int32.ofNat (16 * k)).toInt := by
    intro k hk
    obtain ⟨-, -, -, s, hs, -, -, hnext, -⟩ := filled_ready hk
    unfold scratchUsed
    rw [hs, Option.map_some, Option.getD_some, hnext]
  refine ⟨⟨?_, ⟨rfl, rfl⟩, ?_, by decide +kernel, by decide +kernel,
    fun w sp st hs => stray_evolves w _ st hs⟩, ?_, ?_, ?_, ?_⟩
  · simp [strayWork, Work.Named, Action.SparesSlots]
  · exact finalize_of_isOk (by decide +kernel)
  · intro w hw
    rcases List.mem_cons.mp hw with rfl | hw
    · trivial
    · obtain ⟨i, -, rfl⟩ := List.mem_map.mp hw
      trivial
  · exact (filled_ready (Nat.le_refl _)).1.healthy
  · rw [hused _ (by omega)]
    rfl
  · rw [hused _ (Nat.le_refl _)]
    rfl

end Emit.Builder
end TreeJit
