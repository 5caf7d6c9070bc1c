import TreeJit.Proofs.SSA.Change

/-!
# Operations stroke by stroke

The operations on a body look everything up first and change the body in one go, so that a refused
operation cannot leave a trace.  Here the same operations are told as an `Edit`: every look-up, every
refusal and every change is a stroke of its own, and what was changed before a refusal stays changed.

* `Edit.look`, `Edit.change`    a stroke that reads and may refuse, a stroke that changes;
* `Edit.atOnce`                 refuses without a trace or changes the body in one go;
* `Edit.look_bind_atOnce`       a look-up in front of such an edit makes such an edit, so every operation
                                is one: no operation changes anything before its last refusal;
* `Draft.strokes`               performs an operation stroke by stroke;
* `Draft.strokes_eq_act`        which is what the operation does.
-/

namespace TreeJit.SSA

/-- a computation on a body that may be refused and then leaves the body as it is at that moment -/
abbrev Edit (α : Type) : Type := EStateM Fault Body α

namespace Edit

def look {α : Type} (f : Body → Except Fault α) : Edit α := fun b =>
  match f b with
  | .ok a => .ok a b
  | .error e => .error e b

def change (f : Body → Body) : Edit Unit := fun b => .ok () (f b)

/-- refuses without a trace or changes the body in one go -/
def atOnce {α : Type} (step : Body → Except Fault (Body × α)) : Edit α := fun b =>
  match step b with
  | .ok (b', a) => .ok a b'
  | .error e => .error e b

/-! ## the operations -/

def newValue (t : Ty) : Edit ValueNo := do
  let n ← look fun b => .ok b.fn.values.size
  change fun b => { b with fn := { b.fn with values := b.fn.values.push t } }
  return n

def newValues : List Ty → Edit (List ValueNo)
  | [] => return []
  | t :: ts => do
    let v ← newValue t
    let vs ← newValues ts
    return v :: vs

def emit (inst : Inst) (results : List Ty) : Edit (List ValueNo) := do
  let cur ← look fun b =>
    match b.current with
    | none => .error (.noActiveBlock inst.opcode)
    | some cur => .ok cur
  look fun b => require (!(b.fn.blocks.getD cur {}).isClosed) (.afterTerminator inst.opcode cur)
  let rs ← newValues results
  change fun b => b.mapBlock cur fun blk => { blk with steps := blk.steps.push ⟨inst, rs⟩ }
  return rs

def emitOne (inst : Inst) (t : Ty) : Edit Int := do
  let rs ← emit inst [t]
  return (rs.headD 0 : Nat)

def emitNone (inst : Inst) : Edit Unit := do
  let _ ← emit inst []

def createBlock : Edit Int := do
  let n ← look fun b => .ok b.fn.blocks.size
  change fun b => { b with fn := { b.fn with blocks := b.fn.blocks.push {} } }
  return (n : Int)

def switchTo (blk : Int) : Edit Unit := do
  let n ← look fun b => b.blockNo blk
  change fun b => { b with current := some n }

def appendParam (blk : Int) (t : Ty) : Edit Int := do
  let n ← look fun b => b.blockNo blk
  look fun _ => require t.isValid (.blockParamType blk)
  look fun b => require ((b.fn.blocks.getD n {}).preds == 0) (.paramAfterBranch blk)
  let v ← newValue t
  change fun b => b.mapBlock n fun d => { d with params := d.params.push v }
  return (v : Int)

def sealBlock (blk : Int) : Edit Unit := do
  let n ← look fun b => b.blockNo blk
  change fun b => b.mapBlock n fun d => { d with sealed := true }

def sealAll : Edit Unit :=
  change fun b =>
    { b with fn := { b.fn with blocks := b.fn.blocks.map fun d => { d with sealed := true } } }

def iconst (t : Ty) (v : Int64) : Edit Int := do
  look fun _ => require t.isInt (.mismatch .iconst (.notInteger t))
  emitOne (.iconst t (Body.truncateTo t v.toUInt64)) t

def fconst (t : Ty) (v : UInt64) : Edit Int :=
  match t with
  | .f64 => emitOne (.fconst t v) t
  | .f32 => emitOne (.fconst t (narrow v).toUInt64) t
  | t => look fun _ => .error (.mismatch .fconst (.notFloat t))

def binary (op : BinOp) (x y : Int) : Edit Int := do
  let x ← look fun b => b.operand x
  let y ← look fun b => b.operand y
  look fun _ => require (x.ty == y.ty) (.mismatch op.opcode (.differ x.ty y.ty))
  look fun _ => require (op.allows x.ty) (.mismatch op.opcode (.unsupported x.ty))
  emitOne (.binary op x.ty x.no y.no) x.ty

def icmp (cc : UInt8) (x y : Int) : Edit Int := do
  let x ← look fun b => b.operand x
  let y ← look fun b => b.operand y
  look fun _ => require (x.ty == y.ty && x.ty.isWideInt) (.mismatch .icmp (.differ x.ty y.ty))
  let c ← look fun _ =>
    match IntCond.ofCode? cc with
    | none => .error (.mismatch .icmp (.condition (IntCond.nameOfCode cc)))
    | some c => .ok c
  emitOne (.icmp c x.ty x.no y.no) .i8

def fcmp (cc : UInt8) (x y : Int) : Edit Int := do
  let x ← look fun b => b.operand x
  let y ← look fun b => b.operand y
  look fun _ => require (x.ty == y.ty && (x.ty.isFloat || x.ty == .f64x2))
    (.mismatch .fcmp (.differ x.ty y.ty))
  let c ← look fun _ =>
    match FloatCond.ofCode? cc with
    | none => .error (.mismatch .fcmp (.condition (FloatCond.nameOfCode cc)))
    | some c => .ok c
  emitOne (.fcmp c x.ty x.no y.no) (Body.fcmpResult x.ty)

def splat (vt : Ty) (x : Int) : Edit Int := do
  let x ← look fun b => b.operand x
  look fun _ => require (vt.isVector && vt.lane == x.ty) (.mismatch .splat (.splat x.ty vt))
  emitOne (.splat vt x.no) vt

def extractLane (x lane : Int) : Edit Int := do
  let x ← look fun b => b.operand x
  look fun _ => require (x.ty.isVector && decide (0 ≤ lane) && decide (lane < x.ty.lanes))
    (.mismatch .extractLane (.lane lane x.ty))
  emitOne (.extractLane x.ty x.no lane.toNat) x.ty.lane

def load (t : Ty) (ptr : Int) (offset : Int32) : Edit Int := do
  look fun _ => require t.isValid (.mismatch .load .invalid)
  let p ← look fun b => b.pointer .load ptr
  emitOne (.load t p offset) t

def store (x ptr : Int) (offset : Int32) : Edit Unit := do
  let x ← look fun b => b.operand x
  let p ← look fun b => b.pointer .store ptr
  emitNone (.store x.ty x.no p offset)

def createSlot (size align : Int) : Edit Int := do
  let align := if align = 0 then 8 else align
  look fun _ => require (decide (0 < size) && Body.slotAligns.contains align) (.slotShape size align)
  let n ← look fun b => .ok b.fn.slots.size
  change fun b => { b with fn := { b.fn with slots := b.fn.slots.push ⟨size, align⟩ } }
  return (n : Int)

def stackLoad (t : Ty) (slot : Int) (offset : Int32) : Edit Int := do
  look fun _ => require t.isValid (.mismatch .stackLoad .invalid)
  let s ← look fun b => b.slotNo .stackLoad slot offset t.bytes
  emitOne (.stackLoad t s offset) t

def stackStore (x slot : Int) (offset : Int32) : Edit Unit := do
  let x ← look fun b => b.operand x
  let s ← look fun b => b.slotNo .stackStore slot offset x.ty.bytes
  emitNone (.stackStore x.ty x.no s offset)

def stackAddr (slot : Int) (offset : Int32) : Edit Int := do
  let s ← look fun b => b.slotNo .stackAddr slot offset 0
  emitOne (.stackAddr s offset) .pointer

def importFn (name : String) (sig : Signature) : Edit Int := do
  look fun _ => require (name != "") .emptyImport
  look fun _ => sig.check.mapError (.inImport name)
  let n ← look fun b => .ok b.fn.imports.size
  change fun b => { b with fn := { b.fn with imports := b.fn.imports.push ⟨name, sig⟩ } }
  return (n : Int)

def importOf (ref : Int) : Edit Import :=
  look fun b =>
    if ref < 0 then .error (.unknownImport ref)
    else
      match b.fn.imports[ref.toNat]? with
      | none => .error (.unknownImport ref)
      | some ext => .ok ext

def call (ref : Int) (args : List Int) : Edit (List Int) := do
  let ext ← importOf ref
  let xs ← look fun b => b.arguments (.call ext.name) ext.sig.params args
  let rs ← emit (.call ref.toNat xs) ext.sig.returns
  return rs.map Int.ofNat

/-- an instruction that branches; the branches are counted when it is there -/
def emitBranch (inst : Inst) : Edit Unit := do
  let _ ← emit inst []
  inst.targets.forM fun t => change fun b => b.countBranch t

def jump (blk : Int) (args : List Int) : Edit Unit := do
  let t ← look fun b => b.target blk args
  emitBranch (.jump t)

def brif (cond yes : Int) (yesArgs : List Int) (no : Int) (noArgs : List Int) : Edit Unit := do
  let c ← look fun b => b.operand cond
  look fun _ => require c.ty.isInt (.mismatch .brif (.branchOn c.ty))
  let t ← look fun b => b.target yes yesArgs
  let e ← look fun b => b.target no noArgs
  emitBranch (.brif c.ty c.no t e)

def ret (args : List Int) : Edit Unit := do
  let xs ← look fun b => b.arguments .ret b.fn.sig.returns args
  emitNone (.ret xs)

/-! ## in one go -/

section
variable {α β : Type}

/-- **A look-up in front of a change in one go** makes one go with it: if it refuses, nothing was
changed yet. -/
theorem look_bind_atOnce (f : Body → Except Fault α) (step : α → Body → Except Fault (Body × β)) :
    (look f >>= fun a => atOnce (step a)) = atOnce fun b => f b >>= fun a => step a b := by
  funext b
  show EStateM.bind (look f) (fun a => atOnce (step a)) b = _
  unfold EStateM.bind look atOnce
  cases hf : f b with
  | error e => simp only [hf, bind, Except.bind]
  | ok a => simp only [hf, bind, Except.bind]

/-- what cannot be refused makes one go with what is in front of it -/
theorem atOnce_bind (step : Body → Except Fault (Body × α)) {k : α → Edit β} {r : α → Body → Body × β}
    (hk : ∀ a b, k a b = .ok (r a b).2 (r a b).1) :
    (atOnce step >>= k) = atOnce fun b => step b >>= fun x => .ok (r x.2 x.1) := by
  funext b
  show EStateM.bind (atOnce step) k b = _
  unfold EStateM.bind atOnce
  cases hs : step b with
  | error e => simp only [hs, bind, Except.bind]
  | ok x => simp only [hs, bind, Except.bind, hk]

end

theorem newValues_eq (ts : List Ty) (b : Body) :
    newValues ts b = .ok (b.newValues ts).2 (b.newValues ts).1 := by
  induction ts generalizing b with
  | nil => simp [newValues, Body.newValues, pure, EStateM.pure]
  | cons t ts ih =>
    let b1 : Body := { b with fn := { b.fn with values := b.fn.values.push t } }
    show EStateM.bind (newValues ts) (fun vs => pure (b.fn.values.size :: vs)) b1 = _
    unfold EStateM.bind
    rw [ih b1]
    simp [Body.newValues, b1, pure, EStateM.pure, List.range'_succ]

theorem emit_eq (i : Inst) (ts : List Ty) : emit i ts = atOnce fun b => b.emit i ts := by
  -- the values and the step cannot be refused any more
  have hlast : ∀ cur, (newValues ts >>= fun rs => change (fun b => b.mapBlock cur fun blk =>
      { blk with steps := blk.steps.push ⟨i, rs⟩ }) >>= fun _ => pure rs) = atOnce fun b =>
        .ok ((b.newValues ts).1.mapBlock cur (fun blk =>
          { blk with steps := blk.steps.push ⟨i, (b.newValues ts).2⟩ }), (b.newValues ts).2) := by
    intro cur
    funext b
    show EStateM.bind (newValues ts) _ b = _
    unfold EStateM.bind
    rw [newValues_eq]
    rfl
  unfold emit
  simp only [hlast, look_bind_atOnce]
  congr 1
  funext b
  unfold Body.emit
  cases b.current with
  | none => rfl
  | some cur =>
    simp only [require, bind, Except.bind]
    cases (b.fn.blocks.getD cur {}).isClosed <;> rfl

theorem emitOne_eq (i : Inst) (t : Ty) : emitOne i t = atOnce fun b => b.emitOne i t := by
  unfold emitOne
  rw [emit_eq]
  refine (atOnce_bind _ (r := fun (rs : List ValueNo) b => (b, (rs.headD 0 : Int))) fun _ _ => rfl).trans ?_
  congr 1
  funext b
  cases he : b.emit i [t] with
  | error e => simp only [Body.emitOne, he, bind, Except.bind]
  | ok x =>
    obtain ⟨_, _, _, _, hv⟩ := Body.emit_ok he
    simp only [Body.emitOne, he, bind, Except.bind, pure, Except.pure, hv]
    rfl

theorem emitNone_eq (i : Inst) : emitNone i = atOnce fun b => b.emitNone i := by
  unfold emitNone
  rw [emit_eq]
  exact atOnce_bind _ (r := fun _ b => (b, ())) fun _ _ => rfl

theorem emitBranch_eq (i : Inst) : emitBranch i = atOnce fun b => b.emit i [] >>= fun x =>
    .ok (i.targets.foldl Body.countBranch x.1, ()) := by
  have hcount : ∀ (ts : List Target) b, (ts.forM fun t => change fun b => b.countBranch t) b =
      .ok () (ts.foldl Body.countBranch b) := by
    intro ts
    induction ts with
    | nil => exact fun _ => rfl
    | cons t ts ih => exact fun b => ih (b.countBranch t)
  unfold emitBranch
  rw [emit_eq]
  exact atOnce_bind _ (r := fun _ b => (i.targets.foldl Body.countBranch b, ()))
    fun _ b => hcount i.targets b

/-! ## the operations one by one -/

theorem createBlock_eq : createBlock = atOnce Body.createBlock := rfl

theorem switchTo_eq (blk : Int) : switchTo blk = atOnce fun b => b.switchTo blk :=
  look_bind_atOnce _ fun n b => .ok ({ b with current := some n }, ())

theorem appendParam_eq (blk : Int) (t : Ty) : appendParam blk t = atOnce fun b => b.appendParam blk t := by
  have hlast : ∀ n, (newValue t >>= fun v => change (fun b => b.mapBlock n fun d =>
      { d with params := d.params.push v }) >>= fun _ => pure (v : Int)) = atOnce fun b =>
        .ok ((b.newValues [t]).1.mapBlock n (fun d => { d with params := d.params.push b.fn.values.size }),
          (b.fn.values.size : Int)) := by
    intro n
    funext b
    simp [newValue, Body.newValues, atOnce, change, look, bind, EStateM.bind, pure, EStateM.pure]
  unfold appendParam
  simp only [hlast, look_bind_atOnce]
  rfl

theorem sealBlock_eq (blk : Int) : sealBlock blk = atOnce fun b => b.sealBlock blk :=
  look_bind_atOnce _ fun n b => .ok (b.mapBlock n fun d => { d with sealed := true }, ())

theorem sealAll_eq : sealAll = atOnce Body.sealAll := rfl

theorem iconst_eq (t : Ty) (v : Int64) : iconst t v = atOnce fun b => b.iconst t v := by
  unfold iconst
  simp only [emitOne_eq, look_bind_atOnce]
  rfl

theorem fconst_eq (t : Ty) (v : UInt64) : fconst t v = atOnce fun b => b.fconst t v := by
  cases t with
  | f64 => exact emitOne_eq _ _
  | f32 => exact emitOne_eq _ _
  | _ => rfl

theorem binary_eq (op : BinOp) (x y : Int) : binary op x y = atOnce fun b => b.binary op x y := by
  unfold binary
  simp only [emitOne_eq, look_bind_atOnce]
  rfl

theorem icmp_eq (cc : UInt8) (x y : Int) : icmp cc x y = atOnce fun b => b.icmp cc x y := by
  unfold icmp Body.icmp
  simp only [emitOne_eq, look_bind_atOnce]
  cases IntCond.ofCode? cc <;> rfl

theorem fcmp_eq (cc : UInt8) (x y : Int) : fcmp cc x y = atOnce fun b => b.fcmp cc x y := by
  unfold fcmp Body.fcmp
  simp only [emitOne_eq, look_bind_atOnce]
  cases FloatCond.ofCode? cc <;> rfl

theorem splat_eq (vt : Ty) (x : Int) : splat vt x = atOnce fun b => b.splat vt x := by
  unfold splat
  simp only [emitOne_eq, look_bind_atOnce]
  rfl

theorem extractLane_eq (x lane : Int) : extractLane x lane = atOnce fun b => b.extractLane x lane := by
  unfold extractLane
  simp only [emitOne_eq, look_bind_atOnce]
  rfl

theorem load_eq (t : Ty) (ptr : Int) (off : Int32) : load t ptr off = atOnce fun b => b.load t ptr off := by
  unfold load
  simp only [emitOne_eq, look_bind_atOnce]
  rfl

theorem store_eq (x ptr : Int) (off : Int32) : store x ptr off = atOnce fun b => b.store x ptr off := by
  unfold store
  simp only [emitNone_eq, look_bind_atOnce]
  rfl

theorem createSlot_eq (size align : Int) :
    createSlot size align = atOnce fun b => b.createSlot size align :=
  look_bind_atOnce _ fun _ b => .ok ({ b with fn := { b.fn with
    slots := b.fn.slots.push ⟨size, if align = 0 then 8 else align⟩ } }, (b.fn.slots.size : Int))

theorem stackLoad_eq (t : Ty) (slot : Int) (off : Int32) :
    stackLoad t slot off = atOnce fun b => b.stackLoad t slot off := by
  unfold stackLoad
  simp only [emitOne_eq, look_bind_atOnce]
  rfl

theorem stackStore_eq (x slot : Int) (off : Int32) :
    stackStore x slot off = atOnce fun b => b.stackStore x slot off := by
  unfold stackStore
  simp only [emitNone_eq, look_bind_atOnce]
  rfl

theorem stackAddr_eq (slot : Int) (off : Int32) :
    stackAddr slot off = atOnce fun b => b.stackAddr slot off := by
  unfold stackAddr
  simp only [emitOne_eq, look_bind_atOnce]
  rfl

theorem importFn_eq (name : String) (sig : Signature) :
    importFn name sig = atOnce fun b => b.importFn name sig := by
  have hlast : importFn name sig = (look fun _ => require (name != "") .emptyImport) >>= fun _ =>
      (look fun _ => sig.check.mapError (.inImport name)) >>= fun _ => atOnce fun b =>
        .ok ({ b with fn := { b.fn with imports := b.fn.imports.push ⟨name, sig⟩ } },
          (b.fn.imports.size : Int)) := rfl
  rw [hlast]
  simp only [look_bind_atOnce]
  congr 1
  funext b
  unfold Body.importFn
  cases sig.check <;> rfl

theorem call_eq (ref : Int) (args : List Int) : call ref args = atOnce fun b => b.call ref args := by
  have hlast : ∀ i ts, (emit i ts >>= fun rs => pure (rs.map Int.ofNat)) = atOnce fun b =>
      b.emit i ts >>= fun x => .ok (x.1, x.2.map Int.ofNat) := by
    intro i ts
    rw [emit_eq]
    exact atOnce_bind _ (r := fun (rs : List ValueNo) b => (b, rs.map Int.ofNat)) fun _ _ => rfl
  unfold call importOf
  simp only [hlast, look_bind_atOnce]
  congr 1
  funext b
  unfold Body.call
  split
  · rfl
  · cases b.fn.imports[ref.toNat]? <;> rfl

theorem jump_eq (blk : Int) (args : List Int) : jump blk args = atOnce fun b => b.jump blk args := by
  unfold jump
  simp only [emitBranch_eq, look_bind_atOnce]
  rfl

theorem brif_eq (cond yes : Int) (ys : List Int) (no : Int) (ns : List Int) :
    brif cond yes ys no ns = atOnce fun b => b.brif cond yes ys no ns := by
  unfold brif
  simp only [emitBranch_eq, look_bind_atOnce]
  rfl

theorem ret_eq (args : List Int) : ret args = atOnce fun b => b.ret args := by
  unfold ret
  simp only [emitNone_eq, look_bind_atOnce]
  rfl

end Edit

/-! ## drafts -/

namespace Draft

/-- performs an edit on a sound draft and keeps the body as the edit left it, also one that was
refused -/
def carryOut {α : Type} (d : Draft) (nothing : α) (e : Edit α) : Draft × α :=
  match d.obstacle with
  | some f => ({ d with fault := some f }, nothing)
  | none =>
    match e d.body with
    | .ok a b => ({ d with body := b }, a)
    | .error f b => ({ d with body := b, fault := some f }, nothing)

/-- an operation that gives a number, or nothing, or numbers -/
def strokeNumber (d : Draft) (e : Edit Int) : Draft × Reply :=
  d.carryOut (.number (-1)) (e.map .number)

@[inherit_doc strokeNumber]
def strokeUnit (d : Draft) (e : Edit Unit) : Draft × Reply :=
  d.carryOut .nothing (e.map fun _ => .nothing)

/-- one parameter after the other -/
def strokeParams (d : Draft) (blk : Int) : List Ty → Draft × List Int
  | [] => (d, [])
  | t :: ts =>
    let (d1, v) := d.carryOut (-1) (Edit.appendParam blk t)
    let (d2, vs) := d1.strokeParams blk ts
    (d2, v :: vs)

def strokes (d : Draft) : Action → Draft × Reply
  | .createBlock => d.strokeNumber Edit.createBlock
  | .switchTo b => d.strokeUnit (Edit.switchTo b)
  | .appendParam b t => d.strokeNumber (Edit.appendParam b t)
  | .appendFunctionParams b =>
    let (d', vs) := d.strokeParams b d.body.fn.sig.params
    (d', .numbers vs)
  | .sealBlock b => d.strokeUnit (Edit.sealBlock b)
  | .sealAll => d.strokeUnit Edit.sealAll
  | .iconst t v => d.strokeNumber (Edit.iconst t v)
  | .fconst t v => d.strokeNumber (Edit.fconst t v)
  | .binary op x y => d.strokeNumber (Edit.binary op x y)
  | .icmp cc x y => d.strokeNumber (Edit.icmp cc x y)
  | .fcmp cc x y => d.strokeNumber (Edit.fcmp cc x y)
  | .splat t x => d.strokeNumber (Edit.splat t x)
  | .extractLane x l => d.strokeNumber (Edit.extractLane x l)
  | .load t p o => d.strokeNumber (Edit.load t p o)
  | .store x p o => d.strokeUnit (Edit.store x p o)
  | .createSlot s a => d.strokeNumber (Edit.createSlot s a)
  | .stackLoad t s o => d.strokeNumber (Edit.stackLoad t s o)
  | .stackStore x s o => d.strokeUnit (Edit.stackStore x s o)
  | .stackAddr s o => d.strokeNumber (Edit.stackAddr s o)
  | .importFn n s => d.strokeNumber (Edit.importFn n s)
  | .call r xs => d.carryOut (.numbers []) ((Edit.call r xs).map .numbers)
  | .jump b xs => d.strokeUnit (Edit.jump b xs)
  | .brif c y ys n ns => d.strokeUnit (Edit.brif c y ys n ns)
  | .ret xs => d.strokeUnit (Edit.ret xs)
  | .finish =>
    let (d', r) := d.finish
    (d', .func r)

section
variable {α β : Type} (d : Draft)

theorem carryOut_atOnce (nothing : α) (step : Body → Except Fault (Body × α)) :
    d.carryOut nothing (Edit.atOnce step) = d.attempt nothing step := by
  unfold carryOut attempt Edit.atOnce
  cases d.obstacle with
  | some f => rfl
  | none => cases step d.body <;> rfl

theorem carryOut_map (nothing : α) (e : Edit α) (g : α → β) :
    d.carryOut (g nothing) (e.map g) =
      ((d.carryOut nothing e).1, g (d.carryOut nothing e).2) := by
  unfold carryOut EStateM.map
  cases d.obstacle with
  | some f => rfl
  | none => cases e d.body <;> rfl

theorem strokes_atOnce (nothing : α) {e : Edit α} {step : Body → Except Fault (Body × α)} (g : α → β)
    (he : e = Edit.atOnce step) :
    d.carryOut (g nothing) (e.map g) = ((d.attempt nothing step).1, g (d.attempt nothing step).2) := by
  rw [carryOut_map, he, carryOut_atOnce]

theorem strokeNumber_eq {e : Edit Int} {step : Body → Except Fault (Body × Int)}
    (he : e = Edit.atOnce step) :
    d.strokeNumber e = ((d.attempt (-1) step).1, .number (d.attempt (-1) step).2) :=
  d.strokes_atOnce (-1) Reply.number he

theorem strokeUnit_eq {e : Edit Unit} {step : Body → Except Fault (Body × Unit)}
    (he : e = Edit.atOnce step) : d.strokeUnit e = ((d.attempt () step).1, .nothing) :=
  d.strokes_atOnce () (fun _ => Reply.nothing) he

theorem strokeParams_eq (blk : Int) (ts : List Ty) :
    d.strokeParams blk ts = d.appendParams blk ts := by
  induction ts generalizing d with
  | nil => rfl
  | cons t ts ih =>
    have h : d.carryOut (-1) (Edit.appendParam blk t) = d.appendParam blk t := by
      rw [Edit.appendParam_eq]
      exact d.carryOut_atOnce (-1) _
    unfold strokeParams appendParams
    simp only [h, ih]

/-- **An operation is its strokes**: told one after the other, with everything kept that was changed
before a refusal, they do what the operation does. -/
theorem strokes_eq_act (a : Action) : d.strokes a = d.act a := by
  cases a with
  | appendFunctionParams blk =>
    show ((d.strokeParams blk _).1, Reply.numbers (d.strokeParams blk _).2) = _
    rw [strokeParams_eq]
    rfl
  | finish => rfl
  | createBlock => exact d.strokeNumber_eq Edit.createBlock_eq
  | switchTo b => exact d.strokeUnit_eq (Edit.switchTo_eq b)
  | appendParam b t => exact d.strokeNumber_eq (Edit.appendParam_eq b t)
  | sealBlock b => exact d.strokeUnit_eq (Edit.sealBlock_eq b)
  | sealAll => exact d.strokeUnit_eq Edit.sealAll_eq
  | iconst t v => exact d.strokeNumber_eq (Edit.iconst_eq t v)
  | fconst t v => exact d.strokeNumber_eq (Edit.fconst_eq t v)
  | binary op x y => exact d.strokeNumber_eq (Edit.binary_eq op x y)
  | icmp cc x y => exact d.strokeNumber_eq (Edit.icmp_eq cc x y)
  | fcmp cc x y => exact d.strokeNumber_eq (Edit.fcmp_eq cc x y)
  | splat t x => exact d.strokeNumber_eq (Edit.splat_eq t x)
  | extractLane x l => exact d.strokeNumber_eq (Edit.extractLane_eq x l)
  | load t p o => exact d.strokeNumber_eq (Edit.load_eq t p o)
  | store x p o => exact d.strokeUnit_eq (Edit.store_eq x p o)
  | createSlot s n => exact d.strokeNumber_eq (Edit.createSlot_eq s n)
  | stackLoad t s o => exact d.strokeNumber_eq (Edit.stackLoad_eq t s o)
  | stackStore x s o => exact d.strokeUnit_eq (Edit.stackStore_eq x s o)
  | stackAddr s o => exact d.strokeNumber_eq (Edit.stackAddr_eq s o)
  | importFn n s => exact d.strokeNumber_eq (Edit.importFn_eq n s)
  | call r xs => exact d.strokes_atOnce [] Reply.numbers (Edit.call_eq r xs)
  | jump b xs => exact d.strokeUnit_eq (Edit.jump_eq b xs)
  | brif c y ys n ns => exact d.strokeUnit_eq (Edit.brif_eq c y ys n ns)
  | ret xs => exact d.strokeUnit_eq (Edit.ret_eq xs)

end

end Draft

end TreeJit.SSA
