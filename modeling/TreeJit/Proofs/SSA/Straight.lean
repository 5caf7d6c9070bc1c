import TreeJit.Proofs.SSA.Sound
import TreeJit.SSA.Run

/-!
# Straight-line code

What a run of instructions without branches writes and what it does when it is performed.

* `Func.code f`            parameters and steps of every block, as lists;
* `Body.Writes b b' ss`    `b'` is `b` with the steps `ss` at the end of the current block;
* `Draft.Emits d d' i ts`  an operation on a draft that wrote the instruction `i`;
* `Evolves w a st ss st'`  performing `ss` leads from `st` to `st'`;
* `State.Keeps n st st'`   the values below `n` and the memory are the same.

A draft keeps its first fault, so a draft without one tells that every operation before succeeded:
the lemmas `Draft.iconst_emits` and so on lead from the end of a construction to its start.
-/

namespace TreeJit.SSA

/-! ## code as lists -/

def Func.code (f : Func) : List (List ValueNo × List Step) :=
  f.blocks.toList.map fun b => (b.params.toList, b.steps.toList)

theorem Func.block_of_code {f : Func} {n : Nat} {ps : List ValueNo} {ss : List Step}
    (h : f.code[n]? = some (ps, ss)) :
    ∃ blk, f.blocks[n]? = some blk ∧ blk.params.toList = ps ∧ blk.steps.toList = ss := by
  rw [Func.code, List.getElem?_map, Option.map_eq_some_iff] at h
  obtain ⟨blk, hb, e⟩ := h
  exact ⟨blk, by simpa using hb, (Prod.mk.inj e).1, (Prod.mk.inj e).2⟩

theorem Func.code_of_block {f : Func} {n : Nat} {blk : Block} (h : f.blocks[n]? = some blk) :
    f.code[n]? = some (blk.params.toList, blk.steps.toList) := by
  rw [Func.code, List.getElem?_map, Array.getElem?_toList, h]
  rfl

def writeAt (cur : Nat) (ss : List Step) (code : List (List ValueNo × List Step)) :
    List (List ValueNo × List Step) :=
  code.modify cur fun p => (p.1, p.2 ++ ss)

theorem writeAt_nil (cur : Nat) (code : List (List ValueNo × List Step)) :
    writeAt cur [] code = code := by
  unfold writeAt
  simp only [List.append_nil]
  exact List.modify_id _ _

theorem writeAt_writeAt (cur : Nat) (ss ss' : List Step) (code : List (List ValueNo × List Step)) :
    writeAt cur ss' (writeAt cur ss code) = writeAt cur (ss ++ ss') code := by
  unfold writeAt
  rw [List.modify_modify_eq]
  congr 1
  funext p
  simp

namespace Body
variable {b b' b'' : Body}

/-- `b'` is `b` with the steps `ss` at the end of the current block -/
structure Writes (b b' : Body) (ss : List Step) : Prop where
  current : b'.current = b.current
  known : ∃ cur, b.current = some cur ∧ b'.fn.code = writeAt cur ss b.fn.code
  sig : b'.fn.sig = b.fn.sig
  slots : b'.fn.slots = b.fn.slots
  values : b.fn.values.toList <+: b'.fn.values.toList
  imports : b.fn.imports.toList <+: b'.fn.imports.toList

theorem Writes.refl {cur : Nat} (h : b.current = some cur) : b.Writes b [] :=
  ⟨rfl, ⟨cur, h, (writeAt_nil _ _).symm⟩, rfl, rfl, List.prefix_rfl, List.prefix_rfl⟩

theorem Writes.trans {ss ss' : List Step} (h : b.Writes b' ss) (h' : b'.Writes b'' ss') :
    b.Writes b'' (ss ++ ss') := by
  obtain ⟨cur, hc, e⟩ := h.known
  obtain ⟨cur', hc', e'⟩ := h'.known
  have hcc : cur' = cur := by
    rw [h.current, hc] at hc'
    exact (Option.some.inj hc').symm
  refine ⟨h'.current.trans h.current, ⟨cur, hc, ?_⟩, h'.sig.trans h.sig, h'.slots.trans h.slots,
    h.values.trans h'.values, h.imports.trans h'.imports⟩
  rw [e', e, hcc, writeAt_writeAt]

theorem Writes.size_le {ss : List Step} (h : b.Writes b' ss) :
    b.fn.values.size ≤ b'.fn.values.size := by
  simpa using h.values.length_le

theorem Writes.blocks_size {ss : List Step} (h : b.Writes b' ss) :
    b'.fn.blocks.size = b.fn.blocks.size := by
  obtain ⟨cur, -, e⟩ := h.known
  have hlen := congrArg List.length e
  simpa [Func.code, writeAt] using hlen

theorem Writes.values_get {ss : List Step} (h : b.Writes b' ss) {v : ValueNo} {t : Ty}
    (hv : b.fn.values[v]? = some t) : b'.fn.values[v]? = some t := by
  obtain ⟨ts, e⟩ := h.values
  have hlt := (Array.getElem?_eq_some_iff.mp hv).1
  rw [← Array.getElem?_toList, ← e, List.getElem?_append_left (by simpa using hlt),
    Array.getElem?_toList, hv]

theorem code_append (b : Body) (cur : Nat) (i : Inst) (ts : List Ty) :
    (b.append cur i ts).fn.code =
      writeAt cur [⟨i, List.range' b.fn.values.size ts.length⟩] b.fn.code := by
  refine List.ext_getElem? fun n => ?_
  rw [Func.code, writeAt, List.getElem?_map, Array.getElem?_toList, append_blocks,
    List.getElem?_modify, Func.code, List.getElem?_map, Array.getElem?_toList]
  cases b.fn.blocks[n]? with
  | none => rfl
  | some blk =>
    by_cases e : cur = n
    · simp [e, newValues]
    · simp [e]

theorem values_append (b : Body) (cur : Nat) (i : Inst) (ts : List Ty) :
    (b.append cur i ts).fn.values.toList = b.fn.values.toList ++ ts := by
  obtain ⟨bs, e⟩ := append_eq b cur i ts
  rw [e]
  exact Array.toList_appendList ..

theorem Appends.writes {i : Inst} {ts : List Ty} (h : b.Appends i ts b') :
    b.Writes b' [⟨i, List.range' b.fn.values.size ts.length⟩] := by
  obtain ⟨cur, blk, hc, hb, ho, rfl⟩ := h.result
  obtain ⟨bs, e⟩ := append_eq b cur i ts
  have hv := values_append b cur i ts
  have hcode := code_append b cur i ts
  refine ⟨by rw [e], ⟨cur, hc, hcode⟩, by rw [e], by rw [e], ?_, ?_⟩
  · rw [hv]
    exact List.prefix_append _ _
  · exact ⟨[], by rw [e, List.append_nil]⟩

theorem Appends.size {i : Inst} {ts : List Ty} (h : b.Appends i ts b') :
    b'.fn.values.size = b.fn.values.size + ts.length := by
  obtain ⟨cur, blk, hc, hb, ho, rfl⟩ := h.result
  have hv := congrArg List.length (values_append b cur i ts)
  simpa using hv

theorem Appends.lt_size {i : Inst} {t : Ty} (h : b.Appends i [t] b') :
    b.fn.values.size < b'.fn.values.size := by
  rw [h.size]
  exact Nat.lt_succ_self _

theorem Appends.values {i : Inst} {ts : List Ty} (h : b.Appends i ts b') :
    b'.fn.values.toList = b.fn.values.toList ++ ts := by
  obtain ⟨cur, blk, hc, hb, ho, rfl⟩ := h.result
  exact values_append b cur i ts

theorem Appends.imports {i : Inst} {ts : List Ty} (h : b.Appends i ts b') :
    b'.fn.imports = b.fn.imports := by
  obtain ⟨cur, blk, hc, hb, ho, rfl⟩ := h.result
  obtain ⟨bs, e⟩ := append_eq b cur i ts
  rw [e]

theorem Appends.result_type {i : Inst} {t : Ty} (h : b.Appends i [t] b') :
    b'.fn.values[b.fn.values.size]? = some t := by
  obtain ⟨cur, blk, hc, hb, ho, rfl⟩ := h.result
  rw [← Array.getElem?_toList, values_append,
    List.getElem?_append_right (by simp), Array.length_toList, Nat.sub_self]
  rfl

end Body

/-! ## operations on drafts -/

namespace Draft
variable {d : Draft}

theorem kept_sound : Kept Body.Sound where
  current _ h := h.current
  params _ h := h.paramsKnown
  step _ _ h hc := h.change hc

section
variable (hS : d.Holds Body.Sound)
include hS

theorem sound_createBlock : d.createBlock.1.Holds Body.Sound := holds_act kept_sound hS .createBlock

theorem sound_switchTo (b : Int) : (d.switchTo b).1.Holds Body.Sound :=
  holds_act kept_sound hS (.switchTo b)

theorem sound_appendParams (b : Int) (ts : List Ty) : (d.appendParams b ts).1.Holds Body.Sound :=
  holds_appendParams kept_sound b ts hS

theorem sound_sealBlock (b : Int) : (d.sealBlock b).1.Holds Body.Sound :=
  holds_act kept_sound hS (.sealBlock b)

theorem sound_sealAll : d.sealAll.1.Holds Body.Sound := holds_act kept_sound hS .sealAll

theorem sound_iconst (t : Ty) (v : Int64) : (d.iconst t v).1.Holds Body.Sound :=
  holds_act kept_sound hS (.iconst t v)

theorem sound_fconst (t : Ty) (v : UInt64) : (d.fconst t v).1.Holds Body.Sound :=
  holds_act kept_sound hS (.fconst t v)

theorem sound_binary (op : BinOp) (x y : Int) : (d.binary op x y).1.Holds Body.Sound :=
  holds_act kept_sound hS (.binary op x y)

theorem sound_icmp (c : UInt8) (x y : Int) : (d.icmp c x y).1.Holds Body.Sound :=
  holds_act kept_sound hS (.icmp c x y)

theorem sound_fcmp (c : UInt8) (x y : Int) : (d.fcmp c x y).1.Holds Body.Sound :=
  holds_act kept_sound hS (.fcmp c x y)

theorem sound_splat (t : Ty) (x : Int) : (d.splat t x).1.Holds Body.Sound :=
  holds_act kept_sound hS (.splat t x)

theorem sound_load (t : Ty) (p : Int) (off : Int32) : (d.load t p off).1.Holds Body.Sound :=
  holds_act kept_sound hS (.load t p off)

theorem sound_store (x p : Int) (off : Int32) : (d.store x p off).1.Holds Body.Sound :=
  holds_act kept_sound hS (.store x p off)

theorem sound_createSlot (size align : Int) : (d.createSlot size align).1.Holds Body.Sound :=
  holds_act kept_sound hS (.createSlot size align)

theorem sound_stackLoad (t : Ty) (s : Int) (off : Int32) :
    (d.stackLoad t s off).1.Holds Body.Sound := holds_act kept_sound hS (.stackLoad t s off)

theorem sound_stackStore (x s : Int) (off : Int32) : (d.stackStore x s off).1.Holds Body.Sound :=
  holds_act kept_sound hS (.stackStore x s off)

theorem sound_importFn (name : String) (sig : Signature) :
    (d.importFn name sig).1.Holds Body.Sound := holds_act kept_sound hS (.importFn name sig)

theorem sound_call (ref : Int) (args : List Int) : (d.call ref args).1.Holds Body.Sound :=
  holds_act kept_sound hS (.call ref args)

theorem sound_ret (args : List Int) : (d.ret args).1.Holds Body.Sound :=
  holds_act kept_sound hS (.ret args)

end

structure Emits (d d' : Draft) (i : Inst) (ts : List Ty) : Prop where
  healthy : d.fault = none
  appends : d.body.Appends i ts d'.body

theorem emits_of_attempt (hS : d.Holds Body.Sound) {α : Type} {a : α}
    {op : Body → Except Fault (Body × α)} (h : (d.attempt a op).1.fault = none)
    {P : α → Body → Prop} (hop : ∀ b' r, d.body.Sound → op d.body = .ok (b', r) → P r b') :
    d.fault = none ∧ P (d.attempt a op).2 (d.attempt a op).1.body := by
  obtain ⟨hf, -, b, r, he, e⟩ := attempt_sound h
  rw [e]
  exact ⟨hf, hop b r (hS hf) he⟩

theorem iconst_emits (hS : d.Holds Body.Sound) {t : Ty} {v : Int64}
    (h : (d.iconst t v).1.fault = none) :
    d.Emits (d.iconst t v).1 (.iconst t (Body.truncateTo t v.toUInt64)) [t] ∧
      (d.iconst t v).2 = d.body.fn.values.size := by
  obtain ⟨hf, ha, hr⟩ := emits_of_attempt hS h
    (P := fun r b' => d.body.Appends (.iconst t (Body.truncateTo t v.toUInt64)) [t] b' ∧
      r = d.body.fn.values.size) fun b' r hs he => Body.iconst_ok hs.current he
  exact ⟨⟨hf, ha⟩, hr⟩

theorem fconst_emits (hS : d.Holds Body.Sound) {v : UInt64}
    (h : (d.fconst .f64 v).1.fault = none) :
    d.Emits (d.fconst .f64 v).1 (.fconst .f64 v) [.f64] ∧
      (d.fconst .f64 v).2 = d.body.fn.values.size := by
  obtain ⟨hf, ha, hr⟩ := emits_of_attempt hS h
    (P := fun r b' => d.body.Appends (.fconst .f64 v) [.f64] b' ∧ r = d.body.fn.values.size) (by
      intro b' r hs he
      obtain ⟨bits, e, ha, hr⟩ := Body.fconst_ok hs.current he
      rw [e rfl] at ha
      exact ⟨ha, hr⟩)
  exact ⟨⟨hf, ha⟩, hr⟩

theorem binary_emits (hS : d.Holds Body.Sound) {op : BinOp} {x y : Int}
    (h : (d.binary op x y).1.fault = none) :
    ∃ (t : Ty) (v w : ValueNo), x = v ∧ y = w ∧
      d.Emits (d.binary op x y).1 (.binary op t v w) [t] ∧
      (d.binary op x y).2 = d.body.fn.values.size := by
  obtain ⟨hf, t, v, w, hx, hy, ha, hr⟩ := emits_of_attempt hS h
    (P := fun r b' => ∃ (t : Ty) (v w : ValueNo), x = v ∧ y = w ∧
      d.body.Appends (.binary op t v w) [t] b' ∧ r = d.body.fn.values.size)
    fun b' r hs he => Body.binary_ok hs.current he
  exact ⟨t, v, w, hx, hy, ⟨hf, ha⟩, hr⟩

theorem icmp_emits (hS : d.Holds Body.Sound) {c : IntCond} {x y : Int}
    (h : (d.icmp c.code x y).1.fault = none) :
    ∃ (t : Ty) (v w : ValueNo), x = v ∧ y = w ∧
      d.Emits (d.icmp c.code x y).1 (.icmp c t v w) [.i8] ∧
      (d.icmp c.code x y).2 = d.body.fn.values.size := by
  obtain ⟨hf, c', t, v, w, hc, hx, hy, ha, hr⟩ := emits_of_attempt hS h
    (P := fun r b' => ∃ (c' : IntCond) (t : Ty) (v w : ValueNo), IntCond.ofCode? c.code = some c' ∧
      x = v ∧ y = w ∧ d.body.Appends (.icmp c' t v w) [.i8] b' ∧ r = d.body.fn.values.size)
    fun b' r hs he => Body.icmp_ok hs.current he
  rw [IntCond.ofCode?_code] at hc
  cases hc
  exact ⟨t, v, w, hx, hy, ⟨hf, ha⟩, hr⟩

theorem fcmp_emits (hS : d.Holds Body.Sound) {c : FloatCond} {x y : Int}
    (h : (d.fcmp c.code x y).1.fault = none) :
    ∃ (t : Ty) (v w : ValueNo), x = v ∧ y = w ∧
      d.Emits (d.fcmp c.code x y).1 (.fcmp c t v w) [Body.fcmpResult t] ∧
      (d.fcmp c.code x y).2 = d.body.fn.values.size := by
  obtain ⟨hf, c', t, v, w, hc, hx, hy, ha, hr⟩ := emits_of_attempt hS h
    (P := fun r b' => ∃ (c' : FloatCond) (t : Ty) (v w : ValueNo),
      FloatCond.ofCode? c.code = some c' ∧ x = v ∧ y = w ∧
      d.body.Appends (.fcmp c' t v w) [Body.fcmpResult t] b' ∧ r = d.body.fn.values.size)
    fun b' r hs he => Body.fcmp_ok hs.current he
  rw [FloatCond.ofCode?_code] at hc
  cases hc
  exact ⟨t, v, w, hx, hy, ⟨hf, ha⟩, hr⟩

theorem splat_emits (hS : d.Holds Body.Sound) {vt : Ty} {x : Int}
    (h : (d.splat vt x).1.fault = none) :
    ∃ v : ValueNo, x = v ∧ d.Emits (d.splat vt x).1 (.splat vt v) [vt] ∧
      (d.splat vt x).2 = d.body.fn.values.size := by
  obtain ⟨hf, v, hx, ha, hr⟩ := emits_of_attempt hS h
    (P := fun r b' => ∃ v : ValueNo, x = v ∧ d.body.Appends (.splat vt v) [vt] b' ∧
      r = d.body.fn.values.size) fun b' r hs he => Body.splat_ok hs.current he
  exact ⟨v, hx, ⟨hf, ha⟩, hr⟩

theorem load_emits (hS : d.Holds Body.Sound) {t : Ty} {p : Int} {off : Int32}
    (h : (d.load t p off).1.fault = none) :
    ∃ v : ValueNo, p = v ∧ d.Emits (d.load t p off).1 (.load t v off) [t] ∧
      (d.load t p off).2 = d.body.fn.values.size := by
  obtain ⟨hf, v, hx, ha, hr⟩ := emits_of_attempt hS h
    (P := fun r b' => ∃ v : ValueNo, p = v ∧ d.body.Appends (.load t v off) [t] b' ∧
      r = d.body.fn.values.size) fun b' r hs he => Body.load_ok hs.current he
  exact ⟨v, hx, ⟨hf, ha⟩, hr⟩

theorem store_emits (hS : d.Holds Body.Sound) {x p : Int} {off : Int32}
    (h : (d.store x p off).1.fault = none) :
    ∃ (t : Ty) (v w : ValueNo), x = v ∧ p = w ∧
      d.Emits (d.store x p off).1 (.store t v w off) [] := by
  obtain ⟨hf, t, v, w, hx, hp, ha⟩ := emits_of_attempt hS h
    (P := fun _ b' => ∃ (t : Ty) (v w : ValueNo), x = v ∧ p = w ∧
      d.body.Appends (.store t v w off) [] b') fun b' r hs he => Body.store_ok hs.current he
  exact ⟨t, v, w, hx, hp, ⟨hf, ha⟩⟩

theorem stackLoad_emits (hS : d.Holds Body.Sound) {t : Ty} {s : Int} {off : Int32}
    (h : (d.stackLoad t s off).1.fault = none) :
    ∃ n : Nat, s = n ∧ d.Emits (d.stackLoad t s off).1 (.stackLoad t n off) [t] ∧
      (d.stackLoad t s off).2 = d.body.fn.values.size := by
  obtain ⟨hf, n, hs, ha, hr⟩ := emits_of_attempt hS h
    (P := fun r b' => ∃ n : Nat, s = n ∧ d.body.Appends (.stackLoad t n off) [t] b' ∧
      r = d.body.fn.values.size) fun b' r hs he => Body.stackLoad_ok hs.current he
  exact ⟨n, hs, ⟨hf, ha⟩, hr⟩

theorem stackStore_emits (hS : d.Holds Body.Sound) {x s : Int} {off : Int32}
    (h : (d.stackStore x s off).1.fault = none) :
    ∃ (t : Ty) (v : ValueNo) (n : Nat), x = v ∧ s = n ∧
      d.Emits (d.stackStore x s off).1 (.stackStore t v n off) [] := by
  obtain ⟨hf, t, v, n, hx, hs, ha⟩ := emits_of_attempt hS h
    (P := fun _ b' => ∃ (t : Ty) (v : ValueNo) (n : Nat), x = v ∧ s = n ∧
      d.body.Appends (.stackStore t v n off) [] b')
    fun b' r hs he => Body.stackStore_ok hs.current he
  exact ⟨t, v, n, hx, hs, ⟨hf, ha⟩⟩

theorem call_emits (hS : d.Holds Body.Sound) {ref : Int} {args : List Int}
    (h : (d.call ref args).1.fault = none) :
    ∃ (n : Nat) (vs : List ValueNo) (ext : Import), ref = n ∧ args = vs.map Int.ofNat ∧
      d.body.fn.imports[n]? = some ext ∧
      d.Emits (d.call ref args).1 (.call n vs) ext.sig.returns ∧
      (d.call ref args).2 =
        (List.range' d.body.fn.values.size ext.sig.returns.length).map Int.ofNat := by
  obtain ⟨hf, n, vs, ext, hn, ea, he, ha, hr⟩ := emits_of_attempt hS h
    (P := fun r b' => ∃ (n : Nat) (vs : List ValueNo) (ext : Import), ref = n ∧
      args = vs.map Int.ofNat ∧ d.body.fn.imports[n]? = some ext ∧
      d.body.Appends (.call n vs) ext.sig.returns b' ∧
      r = (List.range' d.body.fn.values.size ext.sig.returns.length).map Int.ofNat)
    fun b' r hs he => Body.call_ok hs.current he
  exact ⟨n, vs, ext, hn, ea, he, ⟨hf, ha⟩, hr⟩

theorem brif_emits (hS : d.Holds Body.Sound) {c yes no : Int} {ys ns : List Int}
    (h : (d.brif c yes ys no ns).1.fault = none) :
    ∃ (ty : Ty) (v : ValueNo) (t e : Target), c = v ∧ yes = t.block ∧ ys = t.args.map Int.ofNat ∧
      no = e.block ∧ ns = e.args.map Int.ofNat ∧
      d.Emits (d.brif c yes ys no ns).1 (.brif ty v t e) [] := by
  obtain ⟨hf, ty, v, t, e, h1, h2, h3, h4, h5, ha⟩ := emits_of_attempt hS h
    (P := fun _ b' => ∃ (ty : Ty) (v : ValueNo) (t e : Target), c = v ∧ yes = t.block ∧
      ys = t.args.map Int.ofNat ∧ no = e.block ∧ ns = e.args.map Int.ofNat ∧
      d.body.Appends (.brif ty v t e) [] b')
    fun b' r hs he => Body.brif_ok hs.current hs.paramsKnown he
  exact ⟨ty, v, t, e, h1, h2, h3, h4, h5, ⟨hf, ha⟩⟩

theorem ret_emits (hS : d.Holds Body.Sound) {args : List Int}
    (h : (d.ret args).1.fault = none) :
    ∃ vs : List ValueNo, args = vs.map Int.ofNat ∧ d.Emits (d.ret args).1 (.ret vs) [] := by
  obtain ⟨hf, vs, ea, ha⟩ := emits_of_attempt hS h
    (P := fun _ b' => ∃ vs : List ValueNo, args = vs.map Int.ofNat ∧
      d.body.Appends (.ret vs) [] b') fun b' r hs he => Body.ret_ok hs.current he
  exact ⟨vs, ea, ⟨hf, ha⟩⟩

end Draft

/-! ## states -/

namespace State
variable {st st' st'' : State}

@[simp] theorem size_set (st : State) (v : ValueNo) (x : Val) :
    (st.set v x).regs.size = st.regs.size := by
  simp [set]

@[simp] theorem mem_set (st : State) (v : ValueNo) (x : Val) : (st.set v x).mem = st.mem := rfl

theorem get_set_self {v : ValueNo} (x : Val) (h : v < st.regs.size) : (st.set v x).get v = x := by
  simp [get, set, h]

theorem get_set_ne {u v : ValueNo} (x : Val) (h : v ≠ u) : (st.set v x).get u = st.get u := by
  simp [get, set, h]

@[simp] theorem size_setAll (st : State) (vs : List ValueNo) (xs : List Val) :
    (st.setAll vs xs).regs.size = st.regs.size := by
  induction vs generalizing st xs with
  | nil => rfl
  | cons v vs ih =>
    cases xs with
    | nil => rfl
    | cons x xs => rw [setAll, ih, size_set]

@[simp] theorem mem_setAll (st : State) (vs : List ValueNo) (xs : List Val) :
    (st.setAll vs xs).mem = st.mem := by
  induction vs generalizing st xs with
  | nil => rfl
  | cons v vs ih =>
    cases xs with
    | nil => rfl
    | cons x xs => rw [setAll, ih, mem_set]

theorem get_setAll_out (st : State) (vs : List ValueNo) (xs : List Val) {u : ValueNo}
    (h : u ∉ vs) : (st.setAll vs xs).get u = st.get u := by
  induction vs generalizing st xs with
  | nil => rfl
  | cons v vs ih =>
    cases xs with
    | nil => rfl
    | cons x xs =>
      rw [List.mem_cons, not_or] at h
      rw [setAll, ih _ _ h.2, get_set_ne _ (Ne.symm h.1)]

theorem getAll_setAll (st : State) (vs : List ValueNo) (xs : List Val) (hn : vs.Nodup)
    (hl : vs.length = xs.length) (hs : ∀ v ∈ vs, v < st.regs.size) :
    (st.setAll vs xs).getAll vs = xs := by
  induction vs generalizing st xs with
  | nil =>
    cases xs with
    | nil => rfl
    | cons => cases hl
  | cons v vs ih =>
    cases xs with
    | nil => cases hl
    | cons x xs =>
      obtain ⟨hv, hn⟩ := List.nodup_cons.mp hn
      have hrest := ih (st.set v x) xs hn (Nat.succ.inj hl) (fun u hu => by
        rw [size_set]
        exact hs u (List.mem_cons_of_mem _ hu))
      rw [setAll, getAll, List.map_cons, get_setAll_out _ _ _ hv,
        get_set_self _ (hs v List.mem_cons_self)]
      exact congrArg _ hrest

theorem get_setAll (st : State) {vs : List ValueNo} {xs : List Val} (hn : vs.Nodup)
    (hl : vs.length = xs.length) (hs : ∀ v ∈ vs, v < st.regs.size) {i : Nat} {v : ValueNo} {x : Val}
    (hv : vs[i]? = some v) (hx : xs[i]? = some x) : (st.setAll vs xs).get v = x := by
  have e := congrArg (·[i]?) (getAll_setAll st vs xs hn hl hs)
  simp only [getAll, List.getElem?_map, hv, hx, Option.map_some, Option.some.injEq] at e
  exact e

structure Keeps (n : Nat) (st st' : State) : Prop where
  mem : st'.mem = st.mem
  size : st'.regs.size = st.regs.size
  get : ∀ v < n, st'.get v = st.get v

theorem Keeps.refl (n : Nat) (st : State) : st.Keeps n st := ⟨rfl, rfl, fun _ _ => rfl⟩

theorem Keeps.trans {n : Nat} (h : st.Keeps n st') (h' : st'.Keeps n st'') : st.Keeps n st'' :=
  ⟨h'.mem.trans h.mem, h'.size.trans h.size, fun v hv => (h'.get v hv).trans (h.get v hv)⟩

theorem Keeps.mono {n k : Nat} (h : st.Keeps n st') (hk : k ≤ n) : st.Keeps k st' :=
  ⟨h.mem, h.size, fun v hv => h.get v (Nat.lt_of_lt_of_le hv hk)⟩

theorem keeps_set (st : State) {n v : Nat} (x : Val) (h : n ≤ v) : st.Keeps n (st.set v x) :=
  ⟨rfl, size_set st v x, fun _ hu => get_set_ne x (Nat.ne_of_gt (Nat.lt_of_lt_of_le hu h))⟩

end State

/-! ## performing -/

/-- performing the steps leads from one state to another, without leaving the block -/
inductive Evolves (w : World) (a : Activation) : State → List Step → State → Prop where
  | nil {st : State} : Evolves w a st [] st
  | cons {st mid st' : State} {s : Step} {ss : List Step} (h : execStep w a st s = .ok (.on mid))
      (hs : Evolves w a mid ss st') : Evolves w a st (s :: ss) st'

section
variable {w : World} {a : Activation} {st st' st'' : State}

theorem Evolves.one {s : Step} (h : execStep w a st s = .ok (.on st')) : Evolves w a st [s] st' :=
  .cons h .nil

theorem Evolves.append {ss ss' : List Step} (h : Evolves w a st ss st')
    (h' : Evolves w a st' ss' st'') : Evolves w a st (ss ++ ss') st'' := by
  induction h with
  | nil => exact h'
  | cons hs _ ih => exact .cons hs (ih h')

theorem execSteps_append {ss rest : List Step} (h : Evolves w a st ss st') :
    execSteps w a st (ss ++ rest) = execSteps w a st' rest := by
  induction h with
  | nil => rfl
  | cons hs _ ih =>
    rw [List.cons_append, execSteps, hs]
    exact ih

theorem runFrom_branch {fuel n b : Nat} {args vals : List Val} {ps : List ValueNo}
    {ss : List Step} {last : Step} (hc : a.fn.code[n]? = some (ps, ss ++ [last]))
    (he : Evolves w a (st.setAll ps args) ss st')
    (hl : execStep w a st' last = .ok (.branch st' b vals)) :
    runFrom w a (fuel + 1) st n args = runFrom w a fuel st' b vals := by
  obtain ⟨blk, hb, rfl, e⟩ := Func.block_of_code hc
  rw [runFrom, hb]
  simp only [e]
  rw [execSteps_append he, execSteps, hl]

theorem runFrom_leave {fuel n : Nat} {args vals : List Val} {ps : List ValueNo}
    {ss : List Step} {last : Step} (hc : a.fn.code[n]? = some (ps, ss ++ [last]))
    (he : Evolves w a (st.setAll ps args) ss st')
    (hl : execStep w a st' last = .ok (.leave st' vals)) :
    runFrom w a (fuel + 1) st n args = .ok (vals, st'.mem) := by
  obtain ⟨blk, hb, rfl, e⟩ := Func.block_of_code hc
  rw [runFrom, hb]
  simp only [e]
  rw [execSteps_append he, execSteps, hl]

end

def Func.activation (f : Func) (sp : UInt64) : Activation :=
  { fn := f, frame := f.frame 0, sp := sp - (f.frame 0).size.toInt64.toUInt64 }

def Func.startState (f : Func) (mem : Memory) : State :=
  { regs := Array.replicate f.values.size ⟨0, 0⟩, mem }

theorem Func.run_eq (f : Func) (w : World) (fuel : Nat) (sp : UInt64) (args : List Val)
    (mem : Memory) : f.run w fuel sp args mem =
      runFrom w (f.activation sp) fuel (f.startState mem) 0 (Val.keepAll f.sig.params args) := rfl

theorem Func.size_startState (f : Func) (mem : Memory) :
    (f.startState mem).regs.size = f.values.size := by
  simp [Func.startState]

end TreeJit.SSA
