import TreeJit.Proofs.SSA.Straight

/-!
# Operations that succeed

The lemmas about finished constructions lead from the end back to the start.  Here it is the other
direction: a draft whose current block is open takes every operation whose operands have the right
types.

* `Draft.Open d cur`      no fault, not handed out, and the block `cur` takes the next instruction;
* `Draft.Has d vs ts`     the numbers `vs` name values of the types `ts`;
* `Body.Takes b n ts`     branches may go to the block `n` and pass values of the types `ts`;
* `Draft.Ahead cur d d'`  `d'` is open as `d` was, and has and takes what `d` had and took;
* `Draft.Open.binary` and so on, one lemma for each operation.
-/

namespace TreeJit.SSA

theorem Func.Grows.refl (f : Func) : f.Grows f :=
  ⟨rfl, fun _ _ h => h, fun _ _ h => h, fun _ _ h => h⟩

theorem Func.Grows.trans {f g k : Func} (h : f.Grows g) (h' : g.Grows k) : f.Grows k where
  sig := h'.sig.trans h.sig
  values v t hv := h'.values v t (h.values v t hv)
  slots s d hs := h'.slots s d (h.slots s d hs)
  imports r e hr := h'.imports r e (h.imports r e hr)

/-! ## the checks of a body -/

namespace Body
variable {b : Body}

theorem operand_eq {v : ValueNo} {t : Ty} (h : b.fn.values[v]? = some t) :
    b.operand v = .ok ⟨v, t⟩ := by
  unfold operand
  rw [if_neg (by omega), Int.toNat_natCast, h]

theorem operands_eq {vs : List ValueNo} {ts : List Ty} (h : b.fn.HasTypes vs ts) :
    ∃ xs, b.operands (vs.map Int.ofNat) = .ok xs ∧ xs.map Operand.no = vs ∧
      xs.map Operand.ty = ts := by
  induction vs generalizing ts with
  | nil =>
    cases ts with
    | nil => exact ⟨[], rfl, rfl, rfl⟩
    | cons => cases h
  | cons v vs ih =>
    cases ts with
    | nil => cases h
    | cons t ts =>
      obtain ⟨hv, hvs⟩ := Func.HasTypes.cons_iff.mp h
      obtain ⟨xs, hxs, rfl, rfl⟩ := ih hvs
      refine ⟨⟨v, t⟩ :: xs, ?_, rfl, rfl⟩
      rw [List.map_cons, operands, hxs]
      show (b.operand (v : Nat) >>= _) = _
      rw [operand_eq hv]
      rfl

theorem firstMismatch_eq (site : ArgSite) (i : Nat) (xs : List Operand) :
    firstMismatch site i xs (xs.map Operand.ty) = .ok () := by
  induction xs generalizing i with
  | nil => rfl
  | cons x xs ih =>
    rw [List.map_cons, firstMismatch, if_pos rfl]
    exact ih (i + 1)

theorem arguments_eq (site : ArgSite) {vs : List ValueNo} {ts : List Ty} (h : b.fn.HasTypes vs ts) :
    b.arguments site ts (vs.map Int.ofNat) = .ok vs := by
  have hreq : require (ts.length == (vs.map Int.ofNat).length)
      (.argCount site ts.length (vs.map Int.ofNat).length) = .ok () := by
    rw [require, if_pos (by simp [h.length_eq])]
  obtain ⟨xs, hxs, rfl, rfl⟩ := operands_eq h
  unfold arguments
  rw [hreq, hxs]
  show (firstMismatch site 0 xs (xs.map Operand.ty) >>= _) = _
  rw [firstMismatch_eq]
  rfl

/-- the block `n` is open, takes branches, and its parameters have the types `ts` -/
structure Awaits (b : Body) (n : Nat) (ts : List Ty) (blk : Block) : Prop where
  block : b.fn.blocks[n]? = some blk
  unsealed : blk.sealed = false
  unclosed : blk.isClosed = false
  params : b.fn.HasTypes blk.params.toList ts

def Takes (b : Body) (n : Nat) (ts : List Ty) : Prop := ∃ blk, b.Awaits n ts blk

/-- a block that no branch goes to yet -/
def Fresh (b : Body) (n : Nat) (ts : List Ty) : Prop := ∃ blk, b.Awaits n ts blk ∧ blk.preds = 0

theorem Fresh.takes {n : Nat} {ts : List Ty} (h : b.Fresh n ts) : b.Takes n ts := by
  obtain ⟨blk, h, -⟩ := h
  exact ⟨blk, h⟩

theorem Takes.lt {n : Nat} {ts : List Ty} (h : b.Takes n ts) : n < b.fn.blocks.size := by
  obtain ⟨blk, h⟩ := h
  exact (Array.getElem?_eq_some_iff.mp h.block).1

theorem blockNo_eq {n : Nat} (h : n < b.fn.blocks.size) : b.blockNo n = .ok n := by
  unfold blockNo
  rw [if_pos ⟨by omega, h⟩]
  rfl

theorem appendParam_eq {n : Nat} {blk : Block} (hb : b.fn.blocks[n]? = some blk) (hp : blk.preds = 0)
    {t : Ty} (ht : t.isValid = true) :
    b.appendParam n t = .ok (b.addParam n t, (b.fn.values.size : Int)) := by
  have hpreds : require ((b.fn.blocks.getD n {}).preds == 0) (.paramAfterBranch n) = .ok () := by
    rw [Array.getD_eq_getD_getElem?, hb, Option.getD_some, hp]
    rfl
  rw [appendParam, blockNo_eq (Array.getElem?_eq_some_iff.mp hb).1]
  show (require t.isValid _ >>= fun _ =>
    require ((b.fn.blocks.getD n {}).preds == 0) (.paramAfterBranch n) >>= _) = _
  rw [ht, hpreds]
  rfl

theorem typeOf_params {vs : List ValueNo} {ts : List Ty} (h : b.fn.HasTypes vs ts) :
    (vs.map fun (v : ValueNo) => b.fn.typeOf v) = ts := by
  induction vs generalizing ts with
  | nil =>
    cases ts with
    | nil => rfl
    | cons => cases h
  | cons v vs ih =>
    cases ts with
    | nil => cases h
    | cons t ts =>
      obtain ⟨hv, hvs⟩ := Func.HasTypes.cons_iff.mp h
      rw [List.map_cons, ih hvs, Func.typeOf_eq hv]

theorem target_eq {n : Nat} {ts : List Ty} (h : b.Takes n ts) {vs : List ValueNo}
    (hv : b.fn.HasTypes vs ts) : b.target n (vs.map Int.ofNat) = .ok ⟨n, vs⟩ := by
  have hlt := h.lt
  obtain ⟨blk, h⟩ := h
  have hreq : require (!(b.fn.blocks.getD n {}).sealed) (.sealed n) = .ok () := by
    rw [Array.getD_eq_getD_getElem?, h.block, Option.getD_some, h.unsealed]
    rfl
  have hps : ((b.fn.blockParams n).map fun (p : ValueNo) => b.fn.typeOf p) = ts := by
    rw [Func.blockParams, h.block]
    exact typeOf_params h.params
  unfold target
  rw [blockNo_eq hlt]
  show (require (!(b.fn.blocks.getD n {}).sealed) (.sealed n) >>= _) = _
  rw [hreq]
  show (b.arguments (.branch n) _ (vs.map Int.ofNat) >>= _) = _
  rw [hps, arguments_eq _ hv]
  rfl

/-! ## after an instruction -/

theorem isClosed_push (blk : Block) (s : Step) :
    ({ blk with steps := blk.steps.push s } : Block).isClosed = s.inst.isTerminator := by
  simp [Block.isClosed]

theorem Awaits.append {n : Nat} {ts : List Ty} {blk : Block} (h : b.Awaits n ts blk) {cur : Nat}
    {i : Inst} (us : List Ty) (hi : cur = n → i.isTerminator = false) :
    ∃ blk', (b.append cur i us).Awaits n ts blk' ∧ (i.targets = [] → blk'.preds = blk.preds) := by
  have hb := (append_blocks b cur i us n).trans (congrArg _ h.block)
  refine ⟨_, ⟨hb, h.unsealed, ?_, h.params.mono (grows_append b cur i us)⟩, ?_⟩
  · by_cases e : cur = n
    · simp only [if_pos e]
      exact (isClosed_push _ _).trans (hi e)
    · simp only [if_neg e]
      exact h.unclosed
  · intro ht
    show blk.preds + i.targets.countP _ = blk.preds
    rw [ht, List.countP_nil, Nat.add_zero]

theorem Takes.append {n : Nat} {ts : List Ty} (h : b.Takes n ts) {cur : Nat} {i : Inst}
    (us : List Ty) (hi : cur = n → i.isTerminator = false) : (b.append cur i us).Takes n ts := by
  obtain ⟨blk, h⟩ := h
  obtain ⟨blk', h', -⟩ := h.append us hi
  exact ⟨blk', h'⟩

theorem targets_of_isTerminator {i : Inst} (h : i.isTerminator = false) : i.targets = [] := by
  cases i with
  | jump | brif => cases h
  | _ => rfl

theorem Fresh.append {n : Nat} {ts : List Ty} (h : b.Fresh n ts) {cur : Nat} {i : Inst}
    (us : List Ty) (hi : i.isTerminator = false) : (b.append cur i us).Fresh n ts := by
  obtain ⟨blk, h, hp⟩ := h
  obtain ⟨blk', h', hp'⟩ := h.append us fun _ => hi
  exact ⟨blk', h', (hp' (targets_of_isTerminator hi)).trans hp⟩

theorem emit_eq {cur : Nat} (hc : b.current = some cur) {blk : Block}
    (hb : b.fn.blocks[cur]? = some blk) (ho : blk.isClosed = false) (i : Inst) (ts : List Ty) :
    b.emit i ts = .ok ((b.newValues ts).1.mapBlock cur fun blk =>
      { blk with steps := blk.steps.push ⟨i, (b.newValues ts).2⟩ }, (b.newValues ts).2) := by
  unfold emit
  rw [hc]
  simp only
  rw [Array.getD_eq_getD_getElem?, hb, Option.getD_some, ho]
  rfl

end Body

/-! ## drafts that take instructions -/

namespace Draft

theorem attempt_of_ok {d : Draft} (hf : d.fault = none) (hd : d.done = false) {α : Type} {a : α}
    {op : Body → Except Fault (Body × α)} {b : Body} {r : α} (h : op d.body = .ok (b, r)) :
    d.attempt a op = ({ d with body := b }, r) := by
  have ho : d.obstacle = none := by
    rw [obstacle, hf, hd]
    rfl
  rw [attempt, ho]
  simp only [h]

structure Ready (d : Draft) : Prop where
  fault : d.fault = none
  done : d.done = false

/-- the block `cur` takes the next instruction -/
structure Open (d : Draft) (cur : Nat) : Prop extends Ready d where
  current : d.body.current = some cur
  block : ∃ blk, d.body.fn.blocks[cur]? = some blk ∧ blk.isClosed = false

/-- the numbers name values of these types -/
def Has (d : Draft) (vs : List Int) (ts : List Ty) : Prop :=
  ∃ ns : List ValueNo, vs = ns.map Int.ofNat ∧ d.body.fn.HasTypes ns ts

namespace Has
variable {d : Draft} {vs ws : List Int} {ts us : List Ty}

theorem nil : d.Has [] [] := ⟨[], rfl, rfl⟩

theorem append (h : d.Has vs ts) (h' : d.Has ws us) : d.Has (vs ++ ws) (ts ++ us) := by
  obtain ⟨ns, rfl, h⟩ := h
  obtain ⟨ms, rfl, h'⟩ := h'
  refine ⟨ns ++ ms, (List.map_append).symm, ?_⟩
  unfold Func.HasTypes at *
  rw [List.map_append, List.map_append, h, h']

theorem cons {v : Int} {t : Ty} (h : d.Has [v] [t]) (h' : d.Has vs ts) : d.Has (v :: vs) (t :: ts) :=
  h.append h'

theorem one {v : ValueNo} {t : Ty} (h : d.body.fn.values[v]? = some t) : d.Has [(v : Int)] [t] :=
  ⟨[v], rfl, Func.HasTypes.singleton_iff.mpr h⟩

theorem one_iff {v : Int} {t : Ty} :
    d.Has [v] [t] ↔ ∃ n : ValueNo, v = n ∧ d.body.fn.values[n]? = some t := by
  constructor
  · rintro ⟨ns, hv, h⟩
    match ns, hv with
    | [n], hv => exact ⟨n, List.head_eq_of_cons_eq hv, Func.HasTypes.singleton_iff.mp h⟩
  · rintro ⟨n, rfl, h⟩
    exact one h

theorem replicate {t : Ty} (h : ∀ v ∈ vs, d.Has [v] [t]) :
    d.Has vs (List.replicate vs.length t) := by
  induction vs with
  | nil => exact nil
  | cons v vs ih =>
    have hv := h v List.mem_cons_self
    exact hv.cons (ih fun u hu => h u (List.mem_cons_of_mem _ hu))

theorem of_replicate {t : Ty} {n : Nat} (h : d.Has vs (List.replicate n t)) :
    ∀ v ∈ vs, d.Has [v] [t] := by
  obtain ⟨ns, rfl, h⟩ := h
  intro v hv
  obtain ⟨k, hk, rfl⟩ := List.mem_map.mp hv
  obtain ⟨i, hi⟩ := List.mem_iff_getElem?.mp hk
  obtain ⟨u, hu, hty⟩ := h.get hi
  rw [List.eq_of_mem_replicate (List.mem_of_getElem? hu)] at hty
  exact one hty

theorem mono (h : d.Has vs ts) {d' : Draft} (hg : d.body.fn.Grows d'.body.fn) : d'.Has vs ts := by
  obtain ⟨ns, e, h⟩ := h
  exact ⟨ns, e, h.mono hg⟩

end Has

/-- `d'` is still open, and has and takes what `d` had and took -/
structure Ahead (cur : Nat) (d d' : Draft) : Prop where
  isOpen : d'.Open cur
  grows : d.body.fn.Grows d'.body.fn
  takes : ∀ n ts, d.body.Takes n ts → d'.body.Takes n ts
  fresh : ∀ n ts, d.body.Fresh n ts → d'.body.Fresh n ts

section
variable {d d' d'' : Draft} {cur : Nat}

theorem Open.ahead (h : d.Open cur) : d.Ahead cur d :=
  ⟨h, .refl _, fun _ _ h => h, fun _ _ h => h⟩

theorem Ahead.trans (h : d.Ahead cur d') (h' : d'.Ahead cur d'') : d.Ahead cur d'' where
  isOpen := h'.isOpen
  grows := h.grows.trans h'.grows
  takes n ts ht := h'.takes n ts (h.takes n ts ht)
  fresh n ts ht := h'.fresh n ts (h.fresh n ts ht)

theorem Ahead.has (h : d.Ahead cur d') {vs : List Int} {ts : List Ty} (hv : d.Has vs ts) :
    d'.Has vs ts := hv.mono h.grows

theorem Open.append (h : d.Open cur) {i : Inst} (ts : List Ty) (hi : i.isTerminator = false)
    (hd : d' = { d with body := d.body.append cur i ts }) : d.Ahead cur d' := by
  subst hd
  refine ⟨⟨⟨h.fault, h.done⟩, ?_, ?_⟩, Body.grows_append d.body cur i ts, ?_, ?_⟩
  · obtain ⟨bs, e⟩ := Body.append_eq d.body cur i ts
    show (d.body.append cur i ts).current = _
    rw [e]
    exact h.current
  · obtain ⟨blk, hb, -⟩ := h.block
    refine ⟨_, (Body.append_blocks d.body cur i ts cur).trans (congrArg _ hb), ?_⟩
    simp only [if_true]
    exact (Body.isClosed_push _ _).trans hi
  · exact fun n us ht => ht.append ts fun _ => hi
  · exact fun n us ht => ht.append ts hi

/-- what an operation with one result gives -/
def Yields (cur : Nat) (d : Draft) (r : Draft × Int) (t : Ty) : Prop :=
  d.Ahead cur r.1 ∧ r.1.Has [r.2] [t]

theorem Open.yields (h : d.Open cur) {i : Inst} {t : Ty} (hi : i.isTerminator = false)
    {op : Body → Except Fault (Body × Int)} (hop : op d.body = d.body.emitOne i t) :
    d.Yields cur (d.attempt (-1) op) t := by
  obtain ⟨blk, hb, ho⟩ := h.block
  have he : op d.body = .ok (d.body.append cur i [t], (d.body.fn.values.size : Int)) := by
    rw [hop, Body.emitOne, Body.emit_eq h.current hb ho, Body.append, Body.targets_of_isTerminator hi]
    rfl
  rw [attempt_of_ok h.fault h.done he]
  exact ⟨h.append [t] hi rfl, _, rfl, Body.hasTypes_results ..⟩

theorem Open.passes (h : d.Open cur) {i : Inst} (hi : i.isTerminator = false)
    {op : Body → Except Fault (Body × Unit)} (hop : op d.body = d.body.emitNone i) :
    d.Ahead cur (d.attempt () op).1 := by
  obtain ⟨blk, hb, ho⟩ := h.block
  have he : op d.body = .ok (d.body.append cur i [], ()) := by
    rw [hop, Body.emitNone, Body.emit_eq h.current hb ho, Body.append,
      Body.targets_of_isTerminator hi]
    rfl
  rw [attempt_of_ok h.fault h.done he]
  exact h.append [] hi rfl

/-! ## the operations one by one -/

theorem Open.iconst (h : d.Open cur) {t : Ty} (ht : t.isInt = true) (v : Int64) :
    d.Yields cur (d.iconst t v) t := by
  refine h.yields (i := .iconst t (Body.truncateTo t v.toUInt64)) rfl ?_
  rw [Body.iconst, require, if_pos ht]
  rfl

theorem Open.fconst (h : d.Open cur) (v : UInt64) : d.Yields cur (d.fconst .f64 v) .f64 :=
  h.yields (i := .fconst .f64 v) rfl rfl

theorem Open.binary (h : d.Open cur) {op : BinOp} {t : Ty} (ht : op.allows t = true) {x y : Int}
    (hx : d.Has [x] [t]) (hy : d.Has [y] [t]) : d.Yields cur (d.binary op x y) t := by
  obtain ⟨n, rfl, hn⟩ := Has.one_iff.mp hx
  obtain ⟨m, rfl, hm⟩ := Has.one_iff.mp hy
  refine h.yields (i := .binary op t n m) ?_ ?_
  · cases op <;> rfl
  · rw [Body.binary, Body.operand_eq hn, Body.operand_eq hm]
    show (require (t == t) _ >>= fun _ => require (op.allows t) _ >>= _) = _
    rw [beq_self_eq_true, ht]
    rfl

theorem Open.icmp (h : d.Open cur) (c : IntCond) {t : Ty} (ht : t.isWideInt = true) {x y : Int}
    (hx : d.Has [x] [t]) (hy : d.Has [y] [t]) : d.Yields cur (d.icmp c.code x y) .i8 := by
  obtain ⟨n, rfl, hn⟩ := Has.one_iff.mp hx
  obtain ⟨m, rfl, hm⟩ := Has.one_iff.mp hy
  refine h.yields (i := .icmp c t n m) rfl ?_
  rw [Body.icmp, Body.operand_eq hn, Body.operand_eq hm]
  show (require (t == t && t.isWideInt) _ >>= _) = _
  rw [beq_self_eq_true, ht, IntCond.ofCode?_code]
  rfl

theorem Open.fcmp (h : d.Open cur) (c : FloatCond) {t : Ty} (ht : t.isFloat = true ∨ t = .f64x2)
    {x y : Int} (hx : d.Has [x] [t]) (hy : d.Has [y] [t]) :
    d.Yields cur (d.fcmp c.code x y) (Body.fcmpResult t) := by
  obtain ⟨n, rfl, hn⟩ := Has.one_iff.mp hx
  obtain ⟨m, rfl, hm⟩ := Has.one_iff.mp hy
  refine h.yields (i := .fcmp c t n m) rfl ?_
  have hok : (t == t && (t.isFloat || t == .f64x2)) = true := by simpa using ht
  rw [Body.fcmp, Body.operand_eq hn, Body.operand_eq hm]
  show (require (t == t && (t.isFloat || t == .f64x2)) _ >>= _) = _
  rw [hok, FloatCond.ofCode?_code]
  rfl

theorem Open.splat (h : d.Open cur) {vt : Ty} (ht : vt.isVector = true) {x : Int}
    (hx : d.Has [x] [vt.lane]) : d.Yields cur (d.splat vt x) vt := by
  obtain ⟨n, rfl, hn⟩ := Has.one_iff.mp hx
  refine h.yields (i := .splat vt n) rfl ?_
  rw [Body.splat, Body.operand_eq hn]
  show (require (vt.isVector && vt.lane == vt.lane) _ >>= _) = _
  rw [beq_self_eq_true, ht]
  rfl

theorem pointer_eq {b : Body} (op : Opcode) {p : ValueNo} (h : b.fn.values[p]? = some .pointer) :
    b.pointer op p = .ok p := by
  rw [Body.pointer, Body.operand_eq h]
  rfl

theorem Open.load (h : d.Open cur) {t : Ty} (ht : t.isValid = true) {p : Int}
    (hp : d.Has [p] [.pointer]) (off : Int32) : d.Yields cur (d.load t p off) t := by
  obtain ⟨n, rfl, hn⟩ := Has.one_iff.mp hp
  refine h.yields (i := .load t n off) rfl ?_
  rw [Body.load, pointer_eq _ hn, ht]
  rfl

theorem Open.store (h : d.Open cur) {t : Ty} {x p : Int} (hx : d.Has [x] [t])
    (hp : d.Has [p] [.pointer]) (off : Int32) : d.Ahead cur (d.store x p off).1 := by
  obtain ⟨n, rfl, hn⟩ := Has.one_iff.mp hx
  obtain ⟨m, rfl, hm⟩ := Has.one_iff.mp hp
  refine h.passes (i := .store t n m off) rfl ?_
  rw [Body.store, Body.operand_eq hn, pointer_eq _ hm]
  rfl

/-! ## stack slots -/

theorem slotNo_eq {b : Body} (op : Opcode) {n : Nat} {s : Slot} (h : b.fn.slots[n]? = some s)
    {off : Int32} {width : Nat} (h0 : 0 ≤ off.toInt) (hin : off.toInt + width ≤ s.size) :
    b.slotNo op n off width = .ok n := by
  unfold Body.slotNo
  rw [if_neg (by omega), Int.toNat_natCast, h]
  simp only [if_pos (And.intro h0 hin)]

theorem Open.createSlot (h : d.Open cur) {size align : Int} (hs : 0 < size)
    (ha : Body.slotAligns.contains align = true) (h0 : align ≠ 0) :
    d.Ahead cur (d.createSlot size align).1 ∧
      (d.createSlot size align).2 = d.body.fn.slots.size ∧
      (d.createSlot size align).1.body.fn.slots[d.body.fn.slots.size]? = some ⟨size, align⟩ := by
  have he : d.body.createSlot size align = .ok ({ d.body with fn :=
      { d.body.fn with slots := d.body.fn.slots.push ⟨size, align⟩ } },
      (d.body.fn.slots.size : Int)) := by
    simp only [Body.createSlot, if_neg h0, decide_eq_true hs, ha]
    rfl
  rw [show d.createSlot size align = _ from attempt_of_ok h.fault h.done he]
  refine ⟨⟨⟨⟨h.fault, h.done⟩, h.current, h.block⟩, ?_, ?_, ?_⟩, rfl, Array.getElem?_push_size⟩
  · refine ⟨rfl, fun _ _ h => h, fun k e hk => ?_, fun _ _ h => h⟩
    have hlt := (Array.getElem?_eq_some_iff.mp hk).1
    show (d.body.fn.slots.push _)[k]? = _
    rw [Array.getElem?_push, if_neg (Nat.ne_of_lt hlt), hk]
  · rintro n ts ⟨blk, hb⟩
    exact ⟨blk, hb.block, hb.unsealed, hb.unclosed, hb.params⟩
  · rintro n ts ⟨blk, hb, hp⟩
    exact ⟨blk, ⟨hb.block, hb.unsealed, hb.unclosed, hb.params⟩, hp⟩

theorem Open.stackLoad (h : d.Open cur) {t : Ty} (ht : t.isValid = true) {n : Nat} {s : Slot}
    (hs : d.body.fn.slots[n]? = some s) {off : Int32} (h0 : 0 ≤ off.toInt)
    (hin : off.toInt + t.bytes ≤ s.size) : d.Yields cur (d.stackLoad t n off) t := by
  refine h.yields (i := .stackLoad t n off) rfl ?_
  rw [Body.stackLoad, slotNo_eq _ hs h0 hin, ht]
  rfl

theorem Open.stackStore (h : d.Open cur) {t : Ty} {x : Int} (hx : d.Has [x] [t]) {n : Nat} {s : Slot}
    (hs : d.body.fn.slots[n]? = some s) {off : Int32} (h0 : 0 ≤ off.toInt)
    (hin : off.toInt + t.bytes ≤ s.size) : d.Ahead cur (d.stackStore x n off).1 := by
  obtain ⟨k, rfl, hk⟩ := Has.one_iff.mp hx
  refine h.passes (i := .stackStore t k n off) rfl ?_
  rw [Body.stackStore, Body.operand_eq hk]
  show (d.body.slotNo .stackStore n off t.bytes >>= _) = _
  rw [slotNo_eq _ hs h0 hin]
  rfl

/-! ## calls -/

theorem Open.importFn (h : d.Open cur) {name : String} (hn : name ≠ "") {sig : Signature}
    (hs : sig.isValid = true) :
    d.Ahead cur (d.importFn name sig).1 ∧ (d.importFn name sig).2 = d.body.fn.imports.size ∧
      (d.importFn name sig).1.body.fn.imports[d.body.fn.imports.size]? = some ⟨name, sig⟩ := by
  have he : d.body.importFn name sig = .ok ({ d.body with fn :=
      { d.body.fn with imports := d.body.fn.imports.push ⟨name, sig⟩ } },
      (d.body.fn.imports.size : Int)) := by
    rw [Body.importFn, require, if_pos (by simpa using hn), (Signature.check_eq_ok_iff sig).mpr hs]
    rfl
  rw [show d.importFn name sig = _ from attempt_of_ok h.fault h.done he]
  refine ⟨⟨⟨⟨h.fault, h.done⟩, h.current, h.block⟩, ?_, ?_, ?_⟩, rfl, Array.getElem?_push_size⟩
  · refine ⟨rfl, fun _ _ h => h, fun _ _ h => h, fun r e hr => ?_⟩
    have hlt := (Array.getElem?_eq_some_iff.mp hr).1
    show (d.body.fn.imports.push _)[r]? = _
    rw [Array.getElem?_push, if_neg (Nat.ne_of_lt hlt), hr]
  · rintro n ts ⟨blk, hb⟩
    exact ⟨blk, hb.block, hb.unsealed, hb.unclosed, hb.params⟩
  · rintro n ts ⟨blk, hb, hp⟩
    exact ⟨blk, ⟨hb.block, hb.unsealed, hb.unclosed, hb.params⟩, hp⟩

theorem Open.call (h : d.Open cur) {n : Nat} {ext : Import}
    (hn : d.body.fn.imports[n]? = some ext) {args : List Int} (ha : d.Has args ext.sig.params) :
    d.Ahead cur (d.call n args).1 ∧ (d.call n args).1.Has (d.call n args).2 ext.sig.returns := by
  obtain ⟨vs, rfl, hv⟩ := ha
  obtain ⟨blk, hb, ho⟩ := h.block
  have he : d.body.call n (vs.map Int.ofNat) =
      .ok (d.body.append cur (.call n vs) ext.sig.returns,
        (List.range' d.body.fn.values.size ext.sig.returns.length).map Int.ofNat) := by
    unfold Body.call
    rw [if_neg (by omega), Int.toNat_natCast, hn]
    show (d.body.arguments _ ext.sig.params _ >>= fun xs => d.body.emit (.call n xs) _ >>= _) = _
    rw [Body.arguments_eq _ hv]
    show (d.body.emit (.call n vs) ext.sig.returns >>= _) = _
    rw [Body.emit_eq h.current hb ho]
    rfl
  rw [show d.call n (vs.map Int.ofNat) = _ from attempt_of_ok h.fault h.done he]
  exact ⟨h.append _ rfl rfl, _, rfl, Body.hasTypes_results ..⟩

/-! ## blocks -/

theorem Ready.createBlock (h : d.Ready) : d.createBlock.1.Ready ∧
    (∀ cur, d.Open cur → d.Ahead cur d.createBlock.1) ∧
    d.createBlock.2 = d.body.fn.blocks.size ∧
    d.createBlock.1.body.fn.blocks.size = d.body.fn.blocks.size + 1 ∧
    d.createBlock.1.body.Fresh d.body.fn.blocks.size [] := by
  have e : d.createBlock = ({ d with body :=
      { d.body with fn := { d.body.fn with blocks := d.body.fn.blocks.push {} } } },
      (d.body.fn.blocks.size : Int)) := attempt_of_ok h.fault h.done rfl
  have hold : ∀ {n : Nat} {blk : Block}, d.body.fn.blocks[n]? = some blk →
      (d.body.fn.blocks.push {})[n]? = some blk := by
    intro n blk hb
    rw [Array.getElem?_push, if_neg (Nat.ne_of_lt (Array.getElem?_eq_some_iff.mp hb).1), hb]
  rw [e]
  refine ⟨⟨h.fault, h.done⟩, fun cur ho => ⟨⟨⟨h.fault, h.done⟩, ho.current, ?_⟩, ?_, ?_, ?_⟩, rfl, ?_,
    ?_⟩
  · obtain ⟨blk, hb, ho⟩ := ho.block
    exact ⟨blk, hold hb, ho⟩
  · exact ⟨rfl, fun _ _ h => h, fun _ _ h => h, fun _ _ h => h⟩
  · rintro n ts ⟨blk, hb⟩
    exact ⟨blk, hold hb.block, hb.unsealed, hb.unclosed, hb.params⟩
  · rintro n ts ⟨blk, hb, hp⟩
    exact ⟨blk, ⟨hold hb.block, hb.unsealed, hb.unclosed, hb.params⟩, hp⟩
  · exact Array.size_push _
  · exact ⟨{}, ⟨Array.getElem?_push_size, rfl, rfl, rfl⟩, rfl⟩

theorem Open.createBlock (h : d.Open cur) : d.Ahead cur d.createBlock.1 ∧
    d.createBlock.2 = d.body.fn.blocks.size ∧
    d.createBlock.1.body.fn.blocks.size = d.body.fn.blocks.size + 1 ∧
    d.createBlock.1.body.Fresh d.body.fn.blocks.size [] := by
  obtain ⟨-, ho, hrest⟩ := h.toReady.createBlock
  exact ⟨ho cur h, hrest⟩

/-- a parameter of a block that no branch goes to; all other blocks stay as they are -/
theorem Ready.appendParam (h : d.Ready) {n : Nat} {ts : List Ty} (hn : d.body.Fresh n ts) {t : Ty}
    (ht : t.isValid = true) : (d.appendParam n t).1.Ready ∧
      (∀ cur, d.Open cur → (d.appendParam n t).1.Open cur) ∧
      d.body.fn.Grows (d.appendParam n t).1.body.fn ∧
      (d.appendParam n t).1.Has [(d.appendParam n t).2] [t] ∧
      (d.appendParam n t).1.body.Fresh n (ts ++ [t]) ∧
      ∀ m us, m ≠ n → d.body.Fresh m us → (d.appendParam n t).1.body.Fresh m us := by
  obtain ⟨blk, hb, hp⟩ := hn
  have hlt := (Array.getElem?_eq_some_iff.mp hb.block).1
  have he : d.body.appendParam n t =
      .ok (d.body.addParam n t, (d.body.fn.values.size : Int)) := Body.appendParam_eq hb.block hp ht
  have e : d.appendParam n t =
      ({ d with body := d.body.addParam n t }, (d.body.fn.values.size : Int)) :=
    attempt_of_ok h.fault h.done he
  have hblocks : ∀ m : Nat, (d.body.addParam n t).fn.blocks[m]? =
      if n = m then (d.body.fn.blocks[m]?).map fun blk =>
        { blk with params := blk.params.push d.body.fn.values.size } else d.body.fn.blocks[m]? :=
    fun m => Array.getElem?_modify ..
  have hvalues : (d.body.addParam n t).fn.values.toList = d.body.fn.values.toList ++ [t] :=
    Array.toList_appendList ..
  have hnew : (d.body.addParam n t).fn.values[d.body.fn.values.size]? = some t := by
    rw [← Array.getElem?_toList, hvalues, List.getElem?_append_right (by simp)]
    simp
  have hgrows : d.body.fn.Grows (d.body.addParam n t).fn := by
    refine ⟨rfl, fun v u hv => ?_, fun _ _ h => h, fun _ _ h => h⟩
    have hv' := (Array.getElem?_eq_some_iff.mp hv).1
    rw [← Array.getElem?_toList, hvalues, List.getElem?_append_left (by simpa using hv'),
      Array.getElem?_toList, hv]
  rw [e]
  refine ⟨⟨h.fault, h.done⟩, fun cur ho => ⟨⟨h.fault, h.done⟩, ho.current, ?_⟩, hgrows, Has.one hnew,
    ?_, ?_⟩
  · obtain ⟨c, hc, ho⟩ := ho.block
    show ∃ blk, (d.body.addParam n t).fn.blocks[cur]? = some blk ∧ _
    rw [hblocks]
    split
    · exact ⟨_, congrArg _ hc, ho⟩
    · exact ⟨c, hc, ho⟩
  · refine ⟨{ blk with params := blk.params.push d.body.fn.values.size }, ⟨?_, hb.unsealed,
      hb.unclosed, ?_⟩, hp⟩
    · show (d.body.addParam n t).fn.blocks[n]? = _
      rw [hblocks, if_pos rfl, hb.block]
      rfl
    · show (d.body.addParam n t).fn.HasTypes (blk.params.push _).toList _
      rw [Array.toList_push]
      have hps := hb.params.mono hgrows
      unfold Func.HasTypes at *
      rw [List.map_append, List.map_append, hps, List.map_cons, hnew]
      rfl
  · rintro m us hm ⟨c, hc, hcp⟩
    refine ⟨c, ⟨?_, hc.unsealed, hc.unclosed, hc.params.mono hgrows⟩, hcp⟩
    show (d.body.addParam n t).fn.blocks[m]? = _
    rw [hblocks, if_neg (Ne.symm hm), hc.block]

theorem Ready.appendParams (h : d.Ready) {n : Nat} {ts us : List Ty} (hn : d.body.Fresh n ts)
    (hu : ∀ u ∈ us, u.isValid = true) : (d.appendParams n us).1.Ready ∧
      (∀ cur, d.Open cur → (d.appendParams n us).1.Open cur) ∧
      d.body.fn.Grows (d.appendParams n us).1.body.fn ∧
      (d.appendParams n us).1.Has (d.appendParams n us).2 us ∧
      (d.appendParams n us).1.body.Fresh n (ts ++ us) ∧
      ∀ m ws, m ≠ n → d.body.Fresh m ws → (d.appendParams n us).1.body.Fresh m ws := by
  induction us generalizing d ts with
  | nil =>
    rw [List.append_nil]
    exact ⟨h, fun _ ho => ho, .refl _, Has.nil, hn, fun _ _ _ hm => hm⟩
  | cons u us ih =>
    obtain ⟨h1, ho1, hg1, hv1, hf1, hm1⟩ := h.appendParam hn (hu u List.mem_cons_self)
    obtain ⟨h2, ho2, hg2, hv2, hf2, hm2⟩ := ih h1 hf1 fun t ht => hu t (List.mem_cons_of_mem _ ht)
    rw [List.append_assoc] at hf2
    refine ⟨h2, fun cur ho => ho2 cur (ho1 cur ho), hg1.trans hg2, (hv1.mono hg2).cons hv2, hf2, ?_⟩
    intro m ws hm hfr
    exact hm2 m ws hm (hm1 m ws hm hfr)

theorem Open.appendParams (h : d.Open cur) {n : Nat} {ts us : List Ty} (hn : d.body.Fresh n ts)
    (hu : ∀ u ∈ us, u.isValid = true) : (d.appendParams n us).1.Open cur ∧
      d.body.fn.Grows (d.appendParams n us).1.body.fn ∧
      (d.appendParams n us).1.Has (d.appendParams n us).2 us ∧
      (d.appendParams n us).1.body.Fresh n (ts ++ us) ∧
      ∀ m ws, m ≠ n → d.body.Fresh m ws → (d.appendParams n us).1.body.Fresh m ws := by
  obtain ⟨-, ho, hrest⟩ := h.toReady.appendParams hn hu
  exact ⟨ho cur h, hrest⟩

/-- a branch ends the current block; the other blocks take what they took -/
theorem Open.brif (h : d.Open cur) {t : Ty} (ht : t.isInt = true) {c : Int} (hc : d.Has [c] [t])
    {yes no : Nat} {ys ns : List Int} {ts us : List Ty} (hyes : d.body.Takes yes ts)
    (hys : d.Has ys ts) (hno : d.body.Takes no us) (hns : d.Has ns us) :
    (d.brif c yes ys no ns).1.Ready ∧ d.body.fn.Grows (d.brif c yes ys no ns).1.body.fn ∧
      ∀ n ws, n ≠ cur → d.body.Takes n ws → (d.brif c yes ys no ns).1.body.Takes n ws := by
  obtain ⟨k, rfl, hk⟩ := Has.one_iff.mp hc
  obtain ⟨vs, rfl, hvs⟩ := hys
  obtain ⟨ws, rfl, hws⟩ := hns
  obtain ⟨blk, hb, ho⟩ := h.block
  have he : d.body.brif k yes (vs.map Int.ofNat) no (ws.map Int.ofNat) =
      .ok (d.body.append cur (.brif t k ⟨yes, vs⟩ ⟨no, ws⟩) [], ()) := by
    rw [Body.brif, Body.operand_eq hk]
    show (require t.isInt _ >>= fun _ => d.body.target yes _ >>= fun _ => d.body.target no _ >>= _) = _
    rw [ht, Body.target_eq hyes hvs, Body.target_eq hno hws]
    show (d.body.emit _ [] >>= _) = _
    rw [Body.emit_eq h.current hb ho]
    rfl
  have e : d.brif k yes (vs.map Int.ofNat) no (ws.map Int.ofNat) = _ :=
    attempt_of_ok h.fault h.done he
  rw [e]
  refine ⟨⟨h.fault, h.done⟩, Body.grows_append d.body cur _ [], ?_⟩
  intro n ts hn hts
  exact hts.append [] fun e => absurd e.symm hn

theorem Ready.switchTo (h : d.Ready) {n : Nat} {ts : List Ty} (hn : d.body.Takes n ts) :
    (d.switchTo n).1.Open n ∧ d.body.fn.Grows (d.switchTo n).1.body.fn ∧
      ∀ m us, d.body.Takes m us → (d.switchTo n).1.body.Takes m us := by
  have he : d.body.switchTo n = .ok ({ d.body with current := some n }, ()) := by
    rw [Body.switchTo, Body.blockNo_eq hn.lt]
    rfl
  rw [show d.switchTo n = _ from attempt_of_ok h.fault h.done he]
  obtain ⟨blk, hb⟩ := hn
  exact ⟨⟨⟨h.fault, h.done⟩, rfl, blk, hb.block, hb.unclosed⟩,
    ⟨rfl, fun _ _ h => h, fun _ _ h => h, fun _ _ h => h⟩, fun _ _ ⟨c, hc⟩ =>
      ⟨c, hc.block, hc.unsealed, hc.unclosed, hc.params⟩⟩

theorem sealBlock_eq (h : d.Ready) {n : Nat} (hn : n < d.body.fn.blocks.size) :
    d.sealBlock n =
      ({ d with body := d.body.mapBlock n fun blk => { blk with sealed := true } }, ()) := by
  have he : d.body.sealBlock n =
      .ok (d.body.mapBlock n fun blk => { blk with sealed := true }, ()) := by
    rw [Body.sealBlock, Body.blockNo_eq hn]
    rfl
  exact attempt_of_ok h.fault h.done he

theorem Ready.sealBlock (h : d.Ready) {n : Nat} (hn : n < d.body.fn.blocks.size) :
    (d.sealBlock n).1.Ready ∧
      ∀ m us, m ≠ n → d.body.Takes m us → (d.sealBlock n).1.body.Takes m us := by
  rw [sealBlock_eq h hn]
  refine ⟨⟨h.fault, h.done⟩, ?_⟩
  rintro m us hm ⟨blk, hb⟩
  refine ⟨blk, ?_, hb.unsealed, hb.unclosed, hb.params⟩
  show (d.body.fn.blocks.modify n _)[m]? = _
  rw [Array.getElem?_modify, if_neg (Ne.symm hm), hb.block]

theorem Open.sealBlock (h : d.Open cur) {n : Nat} (hn : n < d.body.fn.blocks.size) :
    (d.sealBlock n).1.Open cur := by
  rw [sealBlock_eq h.toReady hn]
  obtain ⟨blk, hb, ho⟩ := h.block
  refine ⟨⟨h.fault, h.done⟩, h.current, ?_⟩
  show ∃ blk, (d.body.fn.blocks.modify n _)[cur]? = some blk ∧ _
  rw [Array.getElem?_modify]
  split
  · exact ⟨_, congrArg _ hb, ho⟩
  · exact ⟨blk, hb, ho⟩

end

end Draft

end TreeJit.SSA
