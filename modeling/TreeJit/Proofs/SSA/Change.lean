import TreeJit.Proofs.SSA.Typing

/-!
# What an operation does to a body

Every operation on a body that succeeds makes one of eight changes, and `Body.Change` lists them with
the conditions that were checked.  An instruction is always the same change: its results become new
values, the step goes to the end of the current block and its branches are counted
(`Body.append`).  What holds of all drafts is proved about the eight changes and not about the
operations: `Draft.holds_perform` carries it over to any run of them.
-/

namespace TreeJit.SSA

/-! ## computations that succeed -/

theorem bind_eq_ok {ε α β : Type} {x : Except ε α} {f : α → Except ε β} {r : β} :
    (x >>= f) = .ok r ↔ ∃ a, x = .ok a ∧ f a = .ok r := by
  cases x <;> simp [bind, Except.bind]

theorem exists_of_isOk {ε α : Type} {x : Except ε α} (h : x.isOk = true) : ∃ a, x = .ok a := by
  cases x with
  | ok a => exact ⟨a, rfl⟩
  | error e => cases h

theorem require_eq_ok {c : Bool} {f : Fault} {u : Unit} : require c f = .ok u ↔ c = true := by
  cases c <;> simp [require]

/-! ## changes -/

namespace Body

def append (b : Body) (cur : Nat) (i : Inst) (ts : List Ty) : Body :=
  i.targets.foldl countBranch
    ((b.newValues ts).1.mapBlock cur fun blk =>
      { blk with steps := blk.steps.push ⟨i, (b.newValues ts).2⟩ })

def addParam (b : Body) (n : Nat) (t : Ty) : Body :=
  (b.newValues [t]).1.mapBlock n fun d => { d with params := d.params.push b.fn.values.size }

/-- the changes a body can undergo, with what was checked before -/
inductive Change (b : Body) : Body → Prop where
  | block : Change b { b with fn := { b.fn with blocks := b.fn.blocks.push {} } }
  | switch {n : Nat} (h : n < b.fn.blocks.size) : Change b { b with current := some n }
  | param {n : Nat} {t : Ty} {blk : Block} (h : b.fn.blocks[n]? = some blk) (hp : blk.preds = 0)
      (ht : t.isValid = true) : Change b (b.addParam n t)
  | sealOne {n : Nat} (h : n < b.fn.blocks.size) :
      Change b (b.mapBlock n fun d => { d with sealed := true })
  | sealAll : Change b
      { b with fn := { b.fn with blocks := b.fn.blocks.map fun d => { d with sealed := true } } }
  | slot {s : Slot} (h : 0 < s.size) (ha : s.align ∈ slotAligns) :
      Change b { b with fn := { b.fn with slots := b.fn.slots.push s } }
  | ext {e : Import} (h : e.sig.isValid = true) (hn : e.name ≠ "") :
      Change b { b with fn := { b.fn with imports := b.fn.imports.push e } }
  | step {cur : Nat} {blk : Block} {i : Inst} {ts : List Ty} (hc : b.current = some cur)
      (hb : b.fn.blocks[cur]? = some blk) (ho : blk.isClosed = false) (ht : i.Typed b.fn ts) :
      Change b (b.append cur i ts)

/-! ## arguments of operations -/

variable {b b' : Body}

theorem operand_ok {v : Int} {x : Operand} (h : b.operand v = .ok x) :
    b.fn.values[x.no]? = some x.ty ∧ v = x.no := by
  unfold operand at h
  split at h
  · cases h
  · split at h
    · rename_i hv _ t ht
      cases h
      exact ⟨ht, (Int.toNat_of_nonneg (Int.not_lt.mp hv)).symm⟩
    · cases h

theorem operands_ok {vs : List Int} {xs : List Operand} (h : b.operands vs = .ok xs) :
    b.fn.HasTypes (xs.map Operand.no) (xs.map Operand.ty) ∧
      vs = (xs.map Operand.no).map Int.ofNat := by
  induction vs generalizing xs with
  | nil => cases h; exact ⟨rfl, rfl⟩
  | cons v vs ih =>
    obtain ⟨x, hx, h⟩ := bind_eq_ok.mp h
    obtain ⟨ys, hy, h⟩ := bind_eq_ok.mp h
    cases h
    obtain ⟨h1, h2⟩ := operand_ok hx
    obtain ⟨h3, h4⟩ := ih hy
    exact ⟨Func.HasTypes.cons_iff.mpr ⟨h1, h3⟩, by rw [h2, h4]; rfl⟩

theorem firstMismatch_ok {site : ArgSite} {i : Nat} {xs : List Operand} {ts : List Ty} {u : Unit}
    (hl : xs.length = ts.length) (h : firstMismatch site i xs ts = .ok u) :
    xs.map Operand.ty = ts := by
  induction xs generalizing i ts with
  | nil =>
    cases ts with
    | nil => rfl
    | cons => cases hl
  | cons x xs ih =>
    cases ts with
    | nil => cases hl
    | cons t ts =>
      unfold firstMismatch at h
      split at h
      · rename_i hx
        rw [List.map_cons, hx, ih (Nat.succ.inj hl) h]
      · cases h

theorem arguments_ok {site : ArgSite} {want : List Ty} {args : List Int} {vs : List ValueNo}
    (h : b.arguments site want args = .ok vs) :
    b.fn.HasTypes vs want ∧ args = vs.map Int.ofNat := by
  obtain ⟨_, hl, h⟩ := bind_eq_ok.mp h
  obtain ⟨xs, hx, h⟩ := bind_eq_ok.mp h
  obtain ⟨_, hm, h⟩ := bind_eq_ok.mp h
  cases h
  obtain ⟨ht, hv⟩ := operands_ok hx
  have hlen : xs.length = want.length := by
    have e : want.length = args.length := by simpa using require_eq_ok.mp hl
    rw [e, hv]
    simp
  rw [firstMismatch_ok hlen hm] at ht
  exact ⟨ht, hv⟩

theorem blockNo_ok {blk : Int} {n : Nat} (h : b.blockNo blk = .ok n) :
    n < b.fn.blocks.size ∧ blk = n := by
  unfold blockNo at h
  split at h
  · rename_i hb
    cases h
    exact ⟨hb.2, (Int.toNat_of_nonneg hb.1).symm⟩
  · cases h

theorem slotNo_ok {op : Opcode} {slot : Int} {off : Int32} {w n : Nat}
    (h : b.slotNo op slot off w = .ok n) : b.fn.SlotHolds n off w ∧ slot = n := by
  unfold slotNo at h
  split at h
  · cases h
  · split at h
    · cases h
    · split at h
      · rename_i hs _ s hd hr
        cases h
        exact ⟨⟨s, hd, hr.1, hr.2⟩, (Int.toNat_of_nonneg (Int.not_lt.mp hs)).symm⟩
      · cases h

theorem pointer_ok {op : Opcode} {v : Int} {p : ValueNo} (h : b.pointer op v = .ok p) :
    b.fn.values[p]? = some .pointer ∧ v = p := by
  obtain ⟨x, hx, h⟩ := bind_eq_ok.mp h
  obtain ⟨_, hr, h⟩ := bind_eq_ok.mp h
  cases h
  obtain ⟨h1, h2⟩ := operand_ok hx
  have e : x.ty = .pointer := by simpa using require_eq_ok.mp hr
  rw [e] at h1
  exact ⟨h1, h2⟩

def ParamsKnown (b : Body) : Prop :=
  ∀ blk ∈ b.fn.blocks, ∀ p ∈ blk.params, p < b.fn.values.size

theorem hasTypes_typeOf {f : Func} {vs : List ValueNo} (h : ∀ v ∈ vs, v < f.values.size) :
    f.HasTypes vs (vs.map fun (v : ValueNo) => f.typeOf v) := by
  induction vs with
  | nil => rfl
  | cons v vs ih =>
    have hv := h v List.mem_cons_self
    refine Func.HasTypes.cons_iff.mpr ⟨?_, ih fun w hw => h w (List.mem_cons_of_mem _ hw)⟩
    have hn : ¬ ((v : Int) < 0) := by omega
    simp [Func.typeOf, hn, hv]

theorem target_ok (hp : b.ParamsKnown) {blk : Int} {args : List Int} {t : Target}
    (h : b.target blk args = .ok t) :
    b.fn.Supplies t ∧ blk = t.block ∧ args = t.args.map Int.ofNat := by
  obtain ⟨n, hn, h⟩ := bind_eq_ok.mp h
  obtain ⟨_, -, h⟩ := bind_eq_ok.mp h
  obtain ⟨vs, hv, h⟩ := bind_eq_ok.mp h
  cases h
  obtain ⟨hlt, hb⟩ := blockNo_ok hn
  obtain ⟨ht, ha⟩ := arguments_ok hv
  have hget : b.fn.blocks[n]? = some b.fn.blocks[n] := Array.getElem?_eq_getElem hlt
  have hps : b.fn.blockParams n = b.fn.blocks[n].params.toList := by
    simp [Func.blockParams, hlt]
  rw [hps] at ht
  refine ⟨⟨b.fn.blocks[n], _, hget, hasTypes_typeOf fun p hpm => ?_, ht⟩, hb, ha⟩
  exact hp _ (Array.getElem_mem hlt) p (by simpa using hpm)

/-! ## instructions -/

theorem emit_ok {i : Inst} {ts : List Ty} {vs : List ValueNo} (h : b.emit i ts = .ok (b', vs)) :
    ∃ cur, b.current = some cur ∧ (b.fn.blocks.getD cur {}).isClosed = false ∧
      b' = (b.newValues ts).1.mapBlock cur (fun blk =>
        { blk with steps := blk.steps.push ⟨i, (b.newValues ts).2⟩ }) ∧
      vs = (b.newValues ts).2 := by
  unfold emit at h
  split at h
  · cases h
  · rename_i cur hc
    split at h
    · cases h
    · rename_i ho
      cases h
      exact ⟨cur, hc, by simpa using ho, rfl, rfl⟩

def CurrentKnown (b : Body) : Prop := ∀ c, b.current = some c → c < b.fn.blocks.size

/-- `b'` is `b` with the instruction `i`, which gives results of the types `ts` -/
structure Appends (b : Body) (i : Inst) (ts : List Ty) (b' : Body) : Prop where
  typed : i.Typed b.fn ts
  result : ∃ cur blk, b.current = some cur ∧ b.fn.blocks[cur]? = some blk ∧
    blk.isClosed = false ∧ b' = b.append cur i ts

theorem Appends.change {i : Inst} {ts : List Ty} (h : b.Appends i ts b') : b.Change b' := by
  obtain ⟨cur, blk, hc, hb, ho, rfl⟩ := h.result
  exact .step hc hb ho h.typed

theorem appends_of_emit (hk : b.CurrentKnown) {i : Inst} {ts : List Ty} {vs : List ValueNo}
    {b'' : Body} (h : b.emit i ts = .ok (b', vs)) (ht : i.Typed b.fn ts)
    (e : b'' = i.targets.foldl countBranch b') :
    b.Appends i ts b'' ∧ vs = List.range' b.fn.values.size ts.length := by
  obtain ⟨cur, hc, ho, hb, hv⟩ := emit_ok h
  have hlt := hk cur hc
  rw [Array.getD_eq_getD_getElem?, Array.getElem?_eq_getElem hlt, Option.getD_some] at ho
  refine ⟨⟨ht, cur, b.fn.blocks[cur], hc, Array.getElem?_eq_getElem hlt, ho, ?_⟩, hv⟩
  rw [e, hb]
  rfl

theorem appends_of_emitOne (hk : b.CurrentKnown) {i : Inst} {t : Ty} {v : Int}
    (h : b.emitOne i t = .ok (b', v)) (ht : i.Typed b.fn [t]) (hi : i.targets = []) :
    b.Appends i [t] b' ∧ v = b.fn.values.size := by
  obtain ⟨⟨b1, vs⟩, he, h⟩ := bind_eq_ok.mp h
  cases h
  exact ⟨(appends_of_emit hk he ht (by rw [hi]; rfl)).1, rfl⟩

theorem appends_of_emitNone (hk : b.CurrentKnown) {i : Inst} {u : Unit}
    (h : b.emitNone i = .ok (b', u)) (ht : i.Typed b.fn []) (hi : i.targets = []) :
    b.Appends i [] b' := by
  obtain ⟨⟨b1, vs⟩, he, h⟩ := bind_eq_ok.mp h
  cases h
  exact (appends_of_emit hk he ht (by rw [hi]; rfl)).1

/-! ## the operations one by one -/

theorem truncateTo_truncateTo (t : Ty) (bits : UInt64) :
    truncateTo t (truncateTo t bits) = truncateTo t bits := by
  cases t <;> simp [truncateTo, UInt64.and_assoc]

theorem iconst_ok (hk : b.CurrentKnown) {t : Ty} {v : Int64} {r : Int}
    (h : b.iconst t v = .ok (b', r)) :
    b.Appends (.iconst t (truncateTo t v.toUInt64)) [t] b' ∧ r = b.fn.values.size := by
  obtain ⟨_, hr, h⟩ := bind_eq_ok.mp h
  exact appends_of_emitOne hk h ⟨require_eq_ok.mp hr, truncateTo_truncateTo t _, rfl⟩ rfl

theorem fconst_ok (hk : b.CurrentKnown) {t : Ty} {v : UInt64} {r : Int}
    (h : b.fconst t v = .ok (b', r)) :
    ∃ bits, (t = .f64 → bits = v) ∧ b.Appends (.fconst t bits) [t] b' ∧ r = b.fn.values.size := by
  cases t with
  | f64 => exact ⟨v, fun _ => rfl, appends_of_emitOne hk h ⟨rfl, nofun, rfl⟩ rfl⟩
  | f32 =>
    refine ⟨(narrow v).toUInt64, nofun, appends_of_emitOne hk h ⟨rfl, fun _ => ?_, rfl⟩ rfl⟩
    rw [UInt32.toNat_toUInt64]
    exact (narrow v).toNat_lt
  | i8 | i16 | i32 | i64 | f64x2 | i64x2 | invalid => cases h

theorem binary_ok (hk : b.CurrentKnown) {op : BinOp} {x y r : Int}
    (h : b.binary op x y = .ok (b', r)) :
    ∃ (t : Ty) (v w : ValueNo), x = v ∧ y = w ∧ b.Appends (.binary op t v w) [t] b' ∧
      r = b.fn.values.size := by
  obtain ⟨x, hx, h⟩ := bind_eq_ok.mp h
  obtain ⟨y, hy, h⟩ := bind_eq_ok.mp h
  obtain ⟨_, he, h⟩ := bind_eq_ok.mp h
  obtain ⟨_, ha, h⟩ := bind_eq_ok.mp h
  have e : x.ty = y.ty := by simpa using require_eq_ok.mp he
  obtain ⟨hx1, hx2⟩ := operand_ok hx
  obtain ⟨hy1, hy2⟩ := operand_ok hy
  rw [← e] at hy1
  exact ⟨x.ty, x.no, y.no, hx2, hy2, appends_of_emitOne hk h
    ⟨require_eq_ok.mp ha, Func.HasTypes.pair_iff.mpr ⟨hx1, hy1⟩, rfl⟩ rfl⟩

theorem icmp_ok (hk : b.CurrentKnown) {cc : UInt8} {x y r : Int}
    (h : b.icmp cc x y = .ok (b', r)) :
    ∃ (c : IntCond) (t : Ty) (v w : ValueNo), IntCond.ofCode? cc = some c ∧ x = v ∧ y = w ∧
      b.Appends (.icmp c t v w) [.i8] b' ∧ r = b.fn.values.size := by
  obtain ⟨x, hx, h⟩ := bind_eq_ok.mp h
  obtain ⟨y, hy, h⟩ := bind_eq_ok.mp h
  obtain ⟨_, he, h⟩ := bind_eq_ok.mp h
  obtain ⟨e, hw⟩ : x.ty = y.ty ∧ x.ty.isWideInt = true := by simpa using require_eq_ok.mp he
  obtain ⟨hx1, hx2⟩ := operand_ok hx
  obtain ⟨hy1, hy2⟩ := operand_ok hy
  rw [← e] at hy1
  split at h
  · cases h
  · rename_i c hc
    exact ⟨c, x.ty, x.no, y.no, hc, hx2, hy2, appends_of_emitOne hk h
      ⟨hw, Func.HasTypes.pair_iff.mpr ⟨hx1, hy1⟩, rfl⟩ rfl⟩

theorem fcmp_ok (hk : b.CurrentKnown) {cc : UInt8} {x y r : Int}
    (h : b.fcmp cc x y = .ok (b', r)) :
    ∃ (c : FloatCond) (t : Ty) (v w : ValueNo), FloatCond.ofCode? cc = some c ∧ x = v ∧ y = w ∧
      b.Appends (.fcmp c t v w) [fcmpResult t] b' ∧ r = b.fn.values.size := by
  obtain ⟨x, hx, h⟩ := bind_eq_ok.mp h
  obtain ⟨y, hy, h⟩ := bind_eq_ok.mp h
  obtain ⟨_, he, h⟩ := bind_eq_ok.mp h
  obtain ⟨e, hf⟩ : x.ty = y.ty ∧ (x.ty.isFloat = true ∨ x.ty = .f64x2) := by
    simpa using require_eq_ok.mp he
  obtain ⟨hx1, hx2⟩ := operand_ok hx
  obtain ⟨hy1, hy2⟩ := operand_ok hy
  rw [← e] at hy1
  split at h
  · cases h
  · rename_i c hc
    exact ⟨c, x.ty, x.no, y.no, hc, hx2, hy2, appends_of_emitOne hk h
      ⟨hf, Func.HasTypes.pair_iff.mpr ⟨hx1, hy1⟩, rfl⟩ rfl⟩

theorem splat_ok (hk : b.CurrentKnown) {vt : Ty} {x r : Int}
    (h : b.splat vt x = .ok (b', r)) :
    ∃ v : ValueNo, x = v ∧ b.Appends (.splat vt v) [vt] b' ∧ r = b.fn.values.size := by
  obtain ⟨x, hx, h⟩ := bind_eq_ok.mp h
  obtain ⟨_, he, h⟩ := bind_eq_ok.mp h
  obtain ⟨hv, e⟩ : vt.isVector = true ∧ vt.lane = x.ty := by simpa using require_eq_ok.mp he
  obtain ⟨hx1, hx2⟩ := operand_ok hx
  refine ⟨x.no, hx2, appends_of_emitOne hk h ⟨hv, Func.HasTypes.singleton_iff.mpr ?_, rfl⟩ rfl⟩
  rw [e]
  exact hx1

theorem extractLane_ok (hk : b.CurrentKnown) {x lane r : Int}
    (h : b.extractLane x lane = .ok (b', r)) :
    ∃ (t : Ty) (v : ValueNo), x = v ∧ b.Appends (.extractLane t v lane.toNat) [t.lane] b' ∧
      r = b.fn.values.size := by
  obtain ⟨x, hx, h⟩ := bind_eq_ok.mp h
  obtain ⟨_, he, h⟩ := bind_eq_ok.mp h
  obtain ⟨⟨hv, h0⟩, hl⟩ : (x.ty.isVector = true ∧ 0 ≤ lane) ∧ lane < x.ty.lanes := by
    simpa using require_eq_ok.mp he
  obtain ⟨hx1, hx2⟩ := operand_ok hx
  exact ⟨x.ty, x.no, hx2, appends_of_emitOne hk h
    ⟨hv, Func.HasTypes.singleton_iff.mpr hx1, by omega, rfl⟩ rfl⟩

theorem load_ok (hk : b.CurrentKnown) {t : Ty} {p r : Int} {off : Int32}
    (h : b.load t p off = .ok (b', r)) :
    ∃ v : ValueNo, p = v ∧ b.Appends (.load t v off) [t] b' ∧ r = b.fn.values.size := by
  obtain ⟨_, ht, h⟩ := bind_eq_ok.mp h
  obtain ⟨p, hp, h⟩ := bind_eq_ok.mp h
  obtain ⟨hp1, hp2⟩ := pointer_ok hp
  exact ⟨p, hp2, appends_of_emitOne hk h
    ⟨require_eq_ok.mp ht, Func.HasTypes.singleton_iff.mpr hp1, rfl⟩ rfl⟩

theorem store_ok (hk : b.CurrentKnown) {x p : Int} {off : Int32} {u : Unit}
    (h : b.store x p off = .ok (b', u)) :
    ∃ (t : Ty) (v w : ValueNo), x = v ∧ p = w ∧ b.Appends (.store t v w off) [] b' := by
  obtain ⟨x, hx, h⟩ := bind_eq_ok.mp h
  obtain ⟨p, hp, h⟩ := bind_eq_ok.mp h
  obtain ⟨hx1, hx2⟩ := operand_ok hx
  obtain ⟨hp1, hp2⟩ := pointer_ok hp
  exact ⟨x.ty, x.no, p, hx2, hp2, appends_of_emitNone hk h
    ⟨Func.HasTypes.pair_iff.mpr ⟨hx1, hp1⟩, rfl⟩ rfl⟩

theorem stackLoad_ok (hk : b.CurrentKnown) {t : Ty} {s r : Int} {off : Int32}
    (h : b.stackLoad t s off = .ok (b', r)) :
    ∃ n : Nat, s = n ∧ b.Appends (.stackLoad t n off) [t] b' ∧ r = b.fn.values.size := by
  obtain ⟨_, ht, h⟩ := bind_eq_ok.mp h
  obtain ⟨s, hs, h⟩ := bind_eq_ok.mp h
  obtain ⟨hs1, hs2⟩ := slotNo_ok hs
  exact ⟨s, hs2, appends_of_emitOne hk h ⟨require_eq_ok.mp ht, hs1, rfl⟩ rfl⟩

theorem stackStore_ok (hk : b.CurrentKnown) {x s : Int} {off : Int32} {u : Unit}
    (h : b.stackStore x s off = .ok (b', u)) :
    ∃ (t : Ty) (v : ValueNo) (n : Nat), x = v ∧ s = n ∧
      b.Appends (.stackStore t v n off) [] b' := by
  obtain ⟨x, hx, h⟩ := bind_eq_ok.mp h
  obtain ⟨s, hs, h⟩ := bind_eq_ok.mp h
  obtain ⟨hx1, hx2⟩ := operand_ok hx
  obtain ⟨hs1, hs2⟩ := slotNo_ok hs
  exact ⟨x.ty, x.no, s, hx2, hs2, appends_of_emitNone hk h
    ⟨Func.HasTypes.singleton_iff.mpr hx1, hs1, rfl⟩ rfl⟩

theorem stackAddr_ok (hk : b.CurrentKnown) {s r : Int} {off : Int32}
    (h : b.stackAddr s off = .ok (b', r)) :
    ∃ n : Nat, s = n ∧ b.Appends (.stackAddr n off) [.pointer] b' ∧ r = b.fn.values.size := by
  obtain ⟨s, hs, h⟩ := bind_eq_ok.mp h
  obtain ⟨hs1, hs2⟩ := slotNo_ok hs
  exact ⟨s, hs2, appends_of_emitOne hk h ⟨hs1, rfl⟩ rfl⟩

theorem call_ok (hk : b.CurrentKnown) {ref : Int} {args rs : List Int}
    (h : b.call ref args = .ok (b', rs)) :
    ∃ (n : Nat) (vs : List ValueNo) (ext : Import), ref = n ∧ args = vs.map Int.ofNat ∧
      b.fn.imports[n]? = some ext ∧ b.Appends (.call n vs) ext.sig.returns b' ∧
      rs = (List.range' b.fn.values.size ext.sig.returns.length).map Int.ofNat := by
  unfold call at h
  split at h
  · cases h
  · rename_i hr
    split at h
    · cases h
    · rename_i ext he
      obtain ⟨xs, hx, h⟩ := bind_eq_ok.mp h
      obtain ⟨⟨b1, vs⟩, hm, h⟩ := bind_eq_ok.mp h
      cases h
      obtain ⟨ha, ea⟩ := arguments_ok hx
      obtain ⟨h1, h2⟩ := appends_of_emit hk hm ⟨ext, he, ha, rfl⟩ rfl
      exact ⟨ref.toNat, xs, ext, (Int.toNat_of_nonneg (Int.not_lt.mp hr)).symm, ea, he, h1,
        by rw [h2]⟩

theorem jump_ok (hk : b.CurrentKnown) (hp : b.ParamsKnown) {blk : Int} {args : List Int}
    {u : Unit} (h : b.jump blk args = .ok (b', u)) :
    ∃ t : Target, blk = t.block ∧ args = t.args.map Int.ofNat ∧ b.Appends (.jump t) [] b' := by
  obtain ⟨t, ht, h⟩ := bind_eq_ok.mp h
  obtain ⟨⟨b1, vs⟩, hm, h⟩ := bind_eq_ok.mp h
  cases h
  obtain ⟨h1, h2, h3⟩ := target_ok hp ht
  exact ⟨t, h2, h3, (appends_of_emit hk hm ⟨h1, rfl⟩ rfl).1⟩

theorem brif_ok (hk : b.CurrentKnown) (hp : b.ParamsKnown) {c yes no : Int}
    {ys ns : List Int} {u : Unit} (h : b.brif c yes ys no ns = .ok (b', u)) :
    ∃ (ty : Ty) (v : ValueNo) (t e : Target), c = v ∧ yes = t.block ∧ ys = t.args.map Int.ofNat ∧
      no = e.block ∧ ns = e.args.map Int.ofNat ∧ b.Appends (.brif ty v t e) [] b' := by
  obtain ⟨c, hc, h⟩ := bind_eq_ok.mp h
  obtain ⟨_, hi, h⟩ := bind_eq_ok.mp h
  obtain ⟨t, ht, h⟩ := bind_eq_ok.mp h
  obtain ⟨e, he, h⟩ := bind_eq_ok.mp h
  obtain ⟨⟨b1, vs⟩, hm, h⟩ := bind_eq_ok.mp h
  cases h
  obtain ⟨hc1, hc2⟩ := operand_ok hc
  obtain ⟨ht1, ht2, ht3⟩ := target_ok hp ht
  obtain ⟨he1, he2, he3⟩ := target_ok hp he
  exact ⟨c.ty, c.no, t, e, hc2, ht2, ht3, he2, he3, (appends_of_emit hk hm
    ⟨require_eq_ok.mp hi, Func.HasTypes.singleton_iff.mpr hc1, ht1, he1, rfl⟩ rfl).1⟩

theorem ret_ok (hk : b.CurrentKnown) {args : List Int} {u : Unit}
    (h : b.ret args = .ok (b', u)) :
    ∃ vs : List ValueNo, args = vs.map Int.ofNat ∧ b.Appends (.ret vs) [] b' := by
  obtain ⟨xs, hx, h⟩ := bind_eq_ok.mp h
  obtain ⟨h1, h2⟩ := arguments_ok hx
  exact ⟨xs, h2, appends_of_emitNone hk h ⟨h1, rfl⟩ rfl⟩

theorem change_of_createBlock {r : Int} (h : b.createBlock = .ok (b', r)) : b.Change b' := by
  cases h
  exact .block

theorem change_of_switchTo {blk : Int} {u : Unit} (h : b.switchTo blk = .ok (b', u)) :
    b.Change b' := by
  obtain ⟨n, hn, h⟩ := bind_eq_ok.mp h
  cases h
  exact .switch (blockNo_ok hn).1

theorem change_of_appendParam {blk r : Int} {t : Ty} (h : b.appendParam blk t = .ok (b', r)) :
    b.Change b' := by
  obtain ⟨n, hn, h⟩ := bind_eq_ok.mp h
  obtain ⟨_, ht, h⟩ := bind_eq_ok.mp h
  obtain ⟨_, hp, h⟩ := bind_eq_ok.mp h
  cases h
  have hlt := (blockNo_ok hn).1
  have hp' := require_eq_ok.mp hp
  rw [Array.getD_eq_getD_getElem?, Array.getElem?_eq_getElem hlt, Option.getD_some] at hp'
  exact .param (Array.getElem?_eq_getElem hlt) (by simpa using hp') (require_eq_ok.mp ht)

theorem change_of_sealBlock {blk : Int} {u : Unit} (h : b.sealBlock blk = .ok (b', u)) :
    b.Change b' := by
  obtain ⟨n, hn, h⟩ := bind_eq_ok.mp h
  cases h
  exact .sealOne (blockNo_ok hn).1

theorem change_of_sealAll {u : Unit} (h : b.sealAll = .ok (b', u)) : b.Change b' := by
  cases h
  exact .sealAll

theorem change_of_createSlot {size align r : Int} (h : b.createSlot size align = .ok (b', r)) :
    b.Change b' := by
  obtain ⟨_, hr, h⟩ := bind_eq_ok.mp h
  cases h
  obtain ⟨h1, h2⟩ : 0 < size ∧ (if align = 0 then 8 else align) ∈ slotAligns := by
    simpa using require_eq_ok.mp hr
  exact .slot h1 h2

theorem change_of_importFn {name : String} {sig : Signature} {r : Int}
    (h : b.importFn name sig = .ok (b', r)) : b.Change b' := by
  obtain ⟨_, hr, h⟩ := bind_eq_ok.mp h
  split at h
  · cases h
  · rename_i hs
    cases h
    exact .ext ((Signature.check_eq_ok_iff sig).mp hs) (by simpa using require_eq_ok.mp hr)

end Body

/-! ## drafts -/

namespace Draft

theorem attempt_sound {α : Type} {d : Draft} {a : α} {op : Body → Except Fault (Body × α)}
    (h : (d.attempt a op).1.fault = none) :
    d.fault = none ∧ d.done = false ∧
      ∃ b r, op d.body = .ok (b, r) ∧ d.attempt a op = ({ d with body := b }, r) := by
  unfold attempt at h ⊢
  cases ho : d.obstacle with
  | some f => rw [ho] at h; cases h
  | none =>
    rw [ho] at h
    have hf : d.fault = none ∧ d.done = false := by
      unfold obstacle at ho
      split at ho
      · cases ho
      · rename_i hf
        split at ho
        · cases ho
        · rename_i hd
          exact ⟨hf, by simpa using hd⟩
    refine ⟨hf.1, hf.2, ?_⟩
    cases hs : op d.body with
    | error f => simp only [hs] at h; cases h
    | ok p => exact ⟨p.1, p.2, rfl, rfl⟩

/-- what is kept by every change of a body -/
structure Kept (P : Body → Prop) : Prop where
  current : ∀ b, P b → b.CurrentKnown
  params : ∀ b, P b → b.ParamsKnown
  step : ∀ b b', P b → b.Change b' → P b'

/-- while a draft has no fault, its body is as it should be -/
def Holds (P : Body → Prop) (d : Draft) : Prop := d.fault = none → P d.body

theorem holds_attempt {P : Body → Prop} (hP : Kept P) {d : Draft} (h : d.Holds P) {α : Type}
    {a : α} {op : Body → Except Fault (Body × α)}
    (hop : ∀ b' r, P d.body → op d.body = .ok (b', r) → d.body.Change b') :
    (d.attempt a op).1.Holds P := by
  intro hf
  obtain ⟨h1, -, b, r, he, e⟩ := attempt_sound hf
  rw [e]
  exact hP.step _ _ (h h1) (hop b r (h h1) he)

theorem holds_appendParams {P : Body → Prop} (hP : Kept P) (blk : Int) (ts : List Ty) {d : Draft}
    (h : d.Holds P) : (d.appendParams blk ts).1.Holds P := by
  induction ts generalizing d with
  | nil => exact h
  | cons t ts ih =>
    have h1 : (d.appendParam blk t).1.Holds P :=
      holds_attempt hP h fun _ _ _ => Body.change_of_appendParam
    exact ih h1

theorem holds_finish {P : Body → Prop} {d : Draft} (h : d.Holds P) : d.finish.1.Holds P := by
  unfold finish
  split
  · exact nofun
  · split
    · exact h
    · exact nofun

/-- **One operation keeps what every change keeps.** -/
theorem holds_act {P : Body → Prop} (hP : Kept P) {d : Draft} (h : d.Holds P) (a : Action) :
    (d.act a).1.Holds P := by
  cases a with
  | createBlock => exact holds_attempt hP h fun _ _ _ => Body.change_of_createBlock
  | switchTo blk => exact holds_attempt hP h fun _ _ _ => Body.change_of_switchTo
  | appendParam blk t => exact holds_attempt hP h fun _ _ _ => Body.change_of_appendParam
  | appendFunctionParams blk => exact holds_appendParams hP blk _ h
  | sealBlock blk => exact holds_attempt hP h fun _ _ _ => Body.change_of_sealBlock
  | sealAll => exact holds_attempt hP h fun _ _ _ => Body.change_of_sealAll
  | createSlot size align => exact holds_attempt hP h fun _ _ _ => Body.change_of_createSlot
  | importFn name sig => exact holds_attempt hP h fun _ _ _ => Body.change_of_importFn
  | finish => exact holds_finish h
  | iconst t v =>
    refine holds_attempt hP h fun _ _ p he => ?_
    exact (Body.iconst_ok (hP.current _ p) he).1.change
  | fconst t v =>
    refine holds_attempt hP h fun _ _ p he => ?_
    obtain ⟨_, -, ha, -⟩ := Body.fconst_ok (hP.current _ p) he
    exact ha.change
  | binary op x y =>
    refine holds_attempt hP h fun _ _ p he => ?_
    obtain ⟨_, _, _, -, -, ha, -⟩ := Body.binary_ok (hP.current _ p) he
    exact ha.change
  | icmp cc x y =>
    refine holds_attempt hP h fun _ _ p he => ?_
    obtain ⟨_, _, _, _, -, -, -, ha, -⟩ := Body.icmp_ok (hP.current _ p) he
    exact ha.change
  | fcmp cc x y =>
    refine holds_attempt hP h fun _ _ p he => ?_
    obtain ⟨_, _, _, _, -, -, -, ha, -⟩ := Body.fcmp_ok (hP.current _ p) he
    exact ha.change
  | splat vt x =>
    refine holds_attempt hP h fun _ _ p he => ?_
    obtain ⟨_, -, ha, -⟩ := Body.splat_ok (hP.current _ p) he
    exact ha.change
  | extractLane x lane =>
    refine holds_attempt hP h fun _ _ p he => ?_
    obtain ⟨_, _, -, ha, -⟩ := Body.extractLane_ok (hP.current _ p) he
    exact ha.change
  | load t q off =>
    refine holds_attempt hP h fun _ _ p he => ?_
    obtain ⟨_, -, ha, -⟩ := Body.load_ok (hP.current _ p) he
    exact ha.change
  | store x q off =>
    refine holds_attempt hP h fun _ _ p he => ?_
    obtain ⟨_, _, _, -, -, ha⟩ := Body.store_ok (hP.current _ p) he
    exact ha.change
  | stackLoad t s off =>
    refine holds_attempt hP h fun _ _ p he => ?_
    obtain ⟨_, -, ha, -⟩ := Body.stackLoad_ok (hP.current _ p) he
    exact ha.change
  | stackStore x s off =>
    refine holds_attempt hP h fun _ _ p he => ?_
    obtain ⟨_, _, _, -, -, ha⟩ := Body.stackStore_ok (hP.current _ p) he
    exact ha.change
  | stackAddr s off =>
    refine holds_attempt hP h fun _ _ p he => ?_
    obtain ⟨_, -, ha, -⟩ := Body.stackAddr_ok (hP.current _ p) he
    exact ha.change
  | call ref args =>
    refine holds_attempt hP h fun _ _ p he => ?_
    obtain ⟨_, _, _, -, -, -, ha, -⟩ := Body.call_ok (hP.current _ p) he
    exact ha.change
  | jump blk args =>
    refine holds_attempt hP h fun _ _ p he => ?_
    obtain ⟨_, -, -, ha⟩ := Body.jump_ok (hP.current _ p) (hP.params _ p) he
    exact ha.change
  | brif c yes ys no ns =>
    refine holds_attempt hP h fun _ _ p he => ?_
    obtain ⟨_, _, _, _, -, -, -, -, -, ha⟩ := Body.brif_ok (hP.current _ p) (hP.params _ p) he
    exact ha.change
  | ret args =>
    refine holds_attempt hP h fun _ _ p he => ?_
    obtain ⟨_, -, ha⟩ := Body.ret_ok (hP.current _ p) he
    exact ha.change

/-- **A run of operations keeps what every change keeps.** -/
theorem holds_perform {P : Body → Prop} (hP : Kept P) (as : List Action) {d : Draft}
    (h : d.Holds P) : (d.perform as).Holds P := by
  induction as generalizing d with
  | nil => exact h
  | cons a as ih => exact ih (holds_act hP h a)

section
variable {d : Draft}

theorem fault_attempt {α : Type} {a : α} {step : Body → Except Fault (Body × α)} {f : Fault}
    (h : d.fault = some f) : (d.attempt a step).1.fault = some f := by
  rw [attempt_of_fault d f a step h]
  exact h

theorem fault_appendParams {n : Int} {ts : List Ty} {f : Fault} (h : d.fault = some f) :
    (d.appendParams n ts).1.fault = some f := by
  induction ts generalizing d with
  | nil => exact h
  | cons t ts ih =>
    have h1 : (d.appendParam n t).1.fault = some f := fault_attempt h
    exact ih h1

theorem fault_act {f : Fault} (h : d.fault = some f) (a : Action) : (d.act a).1.fault = some f := by
  cases a with
  | appendFunctionParams n => exact fault_appendParams h
  | finish =>
    show d.finish.1.fault = some f
    have ho : d.obstacle = some f := by
      unfold obstacle
      rw [h]
    unfold finish
    rw [ho]
  | _ => exact fault_attempt h

theorem fault_perform {f : Fault} (h : d.fault = some f) (as : List Action) :
    (d.perform as).fault = some f := by
  induction as generalizing d with
  | nil => exact h
  | cons a as ih => exact ih (fault_act h a)

/-! A draft that was handed out stays so. -/

theorem done_attempt {α : Type} {a : α} {step : Body → Except Fault (Body × α)}
    (h : d.done = true) : (d.attempt a step).1.done = true := by
  unfold attempt
  repeat' split
  all_goals exact h

theorem done_appendParams {n : Int} {ts : List Ty} (h : d.done = true) :
    (d.appendParams n ts).1.done = true := by
  induction ts generalizing d with
  | nil => exact h
  | cons t ts ih =>
    have h1 : (d.appendParam n t).1.done = true := done_attempt h
    exact ih h1

theorem done_act (h : d.done = true) (a : Action) : (d.act a).1.done = true := by
  cases a with
  | appendFunctionParams n => exact done_appendParams h
  | finish =>
    show d.finish.1.done = true
    unfold finish
    repeat' split
    all_goals first | exact h | rfl
  | _ => exact done_attempt h

theorem done_perform (h : d.done = true) (as : List Action) : (d.perform as).done = true := by
  induction as generalizing d with
  | nil => exact h
  | cons a as ih => exact ih (done_act h a)

theorem done_of_finish {f : Func} {d' : Draft} (h : d.finish = (d', .ok f)) : d'.done = true := by
  unfold finish at h
  repeat' split at h
  all_goals cases h
  rfl

end

/-- a function that is handed out is the body of a sound draft and complete -/
theorem finish_ok {d : Draft} {f : Func} (h : d.finish.2 = .ok f) :
    d.fault = none ∧ f = d.body.fn ∧ f.verify = .ok () := by
  unfold finish at h
  cases ho : d.obstacle with
  | some g => rw [ho] at h; cases h
  | none =>
    rw [ho] at h
    have hf : d.fault = none := by
      unfold obstacle at ho
      split at ho
      · cases ho
      · assumption
    cases hv : d.body.fn.verify with
    | error g => simp only [hv] at h; cases h
    | ok u =>
      simp only [hv] at h
      cases h
      exact ⟨hf, rfl, hv⟩

theorem finish_of_isOk {d : Draft} (h : d.finish.2.isOk = true) : d.finish.2 = .ok d.body.fn := by
  cases hr : d.finish.2 with
  | error g => rw [hr] at h; cases h
  | ok f => rw [(finish_ok hr).2.1]

end Draft

end TreeJit.SSA
