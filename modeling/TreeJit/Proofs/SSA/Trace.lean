import TreeJit.Proofs.SSA.Paths
import TreeJit.Proofs.SSA.Straight

/-!
# Runs step by step

The interpreter runs a function to its end.  `Func.Reaches` follows the same run one instruction
after the other, up to any point of it, and tells what is seen on the way: the blocks that are
entered, reads and writes through pointers, and calls with their arguments.

* `Func.Reaches f w sp args mem es p`   a call of `f` gets to `p`, and `es` is seen;
* `Func.reaches_of_run`                 a run that ends gets to its end;
* `Func.Reaches.progress`               in a well-formed function a run gets on until it ends.
-/

namespace TreeJit.SSA

inductive Event where
  | block (b : Nat)
  | load (address : UInt64) (size : Nat)
  | store (address : UInt64) (bytes : List UInt8)
  | call (ext : Import) (args : List Val)

/-- the bytes that a store of a type leaves -/
def storedBytes (t : Ty) (v : Val) : List UInt8 :=
  if t.isVector then littleEndian 8 v.lo.toNat ++ littleEndian 8 v.hi.toNat
  else littleEndian t.bytes v.lo.toNat

/-- what is seen of an instruction that starts in a state -/
def Inst.events (f : Func) (st : State) : Inst → List Event
  | .load t p off => [.load (addressOf (st.get p).lo off) t.bytes]
  | .store t x p off => [.store (addressOf (st.get p).lo off) (storedBytes t (st.get x))]
  | .call fn args =>
    let ext := f.imports.getD fn ⟨"", .empty⟩
    [.call ext (Val.keepAll ext.sig.params (st.getAll args))]
  | _ => []

/-- how far a run has come -/
inductive Point where
  /-- inside a block, in front of its step `k` -/
  | inside (block k : Nat) (st : State)
  | left (results : List Val) (mem : Memory)
  | failed (f : RunFault)

/-- one step of a run -/
inductive Advance (w : World) (a : Activation) : Point → List Event → Point → Prop where
  | on {b k : Nat} {blk : Block} {s : Step} {st st' : State} (hb : a.fn.blocks[b]? = some blk)
      (hk : blk.steps.toList[k]? = some s) (h : execStep w a st s = .ok (.on st')) :
      Advance w a (.inside b k st) (s.inst.events a.fn st) (.inside b (k + 1) st')
  | branch {b k b' : Nat} {blk dest : Block} {s : Step} {st st' : State} {args : List Val}
      (hb : a.fn.blocks[b]? = some blk) (hk : blk.steps.toList[k]? = some s)
      (h : execStep w a st s = .ok (.branch st' b' args)) (hd : a.fn.blocks[b']? = some dest) :
      Advance w a (.inside b k st) [.block b'] (.inside b' 0 (st'.setAll dest.params.toList args))
  | leave {b k : Nat} {blk : Block} {s : Step} {st st' : State} {vals : List Val}
      (hb : a.fn.blocks[b]? = some blk) (hk : blk.steps.toList[k]? = some s)
      (h : execStep w a st s = .ok (.leave st' vals)) :
      Advance w a (.inside b k st) [] (.left vals st'.mem)
  | fail {b k : Nat} {blk : Block} {s : Step} {st : State} {f : RunFault}
      (hb : a.fn.blocks[b]? = some blk) (hk : blk.steps.toList[k]? = some s)
      (h : execStep w a st s = .error f) :
      Advance w a (.inside b k st) (s.inst.events a.fn st) (.failed f)

inductive Advances (w : World) (a : Activation) : Point → List Event → Point → Prop where
  | refl (p : Point) : Advances w a p [] p
  | tail {p q r : Point} {es es' : List Event} (h : Advances w a p es q) (hs : Advance w a q es' r) :
      Advances w a p (es ++ es') r

def Func.entryState (f : Func) (args : List Val) (mem : Memory) : State :=
  (f.startState mem).setAll (f.blockParams 0) (Val.keepAll f.sig.params args)

/-- a call of a function gets to a point, and `es` is seen -/
def Func.Reaches (f : Func) (w : World) (sp : UInt64) (args : List Val) (mem : Memory)
    (es : List Event) (p : Point) : Prop :=
  ∃ es', es = .block 0 :: es' ∧
    Advances w (f.activation sp) (.inside 0 0 (f.entryState args mem)) es' p

section
variable {w : World} {a : Activation}

theorem Advances.trans {p q r : Point} {es es' : List Event} (h : Advances w a p es q)
    (h' : Advances w a q es' r) : Advances w a p (es ++ es') r := by
  induction h' with
  | refl => rwa [List.append_nil]
  | tail _ hs ih =>
    rw [← List.append_assoc]
    exact .tail ih hs

theorem Advances.single {p q : Point} {es : List Event} (h : Advance w a p es q) :
    Advances w a p es q := by
  have ht := Advances.tail (.refl p) h
  rwa [List.nil_append] at ht

theorem advances_of_execSteps {b k : Nat} {blk : Block} {st : State} {n : Next}
    (hb : a.fn.blocks[b]? = some blk)
    (h : execSteps w a st (blk.steps.toList.drop k) = .ok n) :
    ∃ es k' s st', Advances w a (.inside b k st) es (.inside b k' st') ∧
      blk.steps.toList[k']? = some s ∧ execStep w a st' s = .ok n ∧ ∀ st'', n ≠ .on st'' := by
  generalize hss : blk.steps.toList.drop k = ss at h
  induction ss generalizing k st with
  | nil => cases h
  | cons s ss ih =>
    have hk : blk.steps.toList[k]? = some s := by
      have := congrArg (fun l => l[0]?) hss
      simpa using this
    unfold execSteps at h
    split at h
    · cases h
    · rename_i st1 hs
      have hdrop : blk.steps.toList.drop (k + 1) = ss := by
        rw [← List.drop_drop, hss]
        rfl
      obtain ⟨es, k', s', st', hadv, hk', hs', hn⟩ := ih hdrop h
      exact ⟨_, k', s', st', (Advances.single (.on hb hk hs)).trans hadv, hk', hs', hn⟩
    · rename_i next hnot hs
      cases h
      exact ⟨[], k, s, st, .refl _, hk, hs, hnot⟩

theorem advances_of_runFrom {fuel b : Nat} {st : State} {args vals : List Val} {mem : Memory}
    (h : runFrom w a fuel st b args = .ok (vals, mem)) :
    ∃ blk es, a.fn.blocks[b]? = some blk ∧
      Advances w a (.inside b 0 (st.setAll blk.params.toList args)) es (.left vals mem) := by
  induction fuel generalizing b st args with
  | zero => cases h
  | succ fuel ih =>
    unfold runFrom at h
    split at h
    · cases h
    · rename_i blk hb
      split at h
      · cases h
      · cases h
      · rename_i st' b' vals' hsteps
        obtain ⟨es, k', s, st1, hadv, hk, hs, -⟩ := advances_of_execSteps (k := 0) hb hsteps
        obtain ⟨dest, es', hd, hrest⟩ := ih h
        exact ⟨blk, _, hb, (hadv.tail (.branch hb hk hs hd)).trans hrest⟩
      · rename_i st' vals' hsteps
        cases h
        obtain ⟨es, k', s, st1, hadv, hk, hs, -⟩ := advances_of_execSteps (k := 0) hb hsteps
        exact ⟨blk, _, hb, hadv.tail (.leave hb hk hs)⟩

end

theorem Func.reaches_of_run {f : Func} {w : World} {fuel : Nat} {sp : UInt64}
    {args vals : List Val} {mem mem' : Memory}
    (h : f.run w fuel sp args mem = .ok (vals, mem')) :
    ∃ es, f.Reaches w sp args mem es (.left vals mem') := by
  rw [Func.run_eq] at h
  obtain ⟨blk, es, hb, hadv⟩ := advances_of_runFrom h
  refine ⟨_, es, rfl, ?_⟩
  have e : f.blockParams 0 = blk.params.toList := by
    unfold Func.blockParams
    rw [show f.blocks[0]? = some blk from hb]
  unfold Func.entryState
  rw [e]
  exact hadv

/-! ## a run goes along a path -/

def entered (es : List Event) : List Nat :=
  es.filterMap fun
    | .block b => some b
    | _ => none

theorem entered_append (es es' : List Event) : entered (es ++ es') = entered es ++ entered es' :=
  List.filterMap_append

theorem entered_events (f : Func) (st : State) (i : Inst) : entered (i.events f st) = [] := by
  cases i <;> rfl

section
variable {f : Func} {before : List Nat} {b k : Nat} {blk : Block} {s : Step} {v : ValueNo}

theorem Func.assignedBefore_succ (hb : f.blocks[b]? = some blk) (hk : blk.steps.toList[k]? = some s)
    (h : v ∈ f.assignedBefore before b (k + 1)) :
    v ∈ s.results ∨ v ∈ f.assignedBefore before b k := by
  rw [Func.assignedBefore_of _ _ hb, List.mem_append] at h ⊢
  rcases h with h | h
  · exact .inr (.inl h)
  · rw [Block.assignsUpTo, List.take_add_one, hk, List.flatMap_append, List.mem_append,
      List.mem_append] at h
    rcases h with h | h | h
    · exact .inr (.inr (List.mem_append_left _ h))
    · exact .inr (.inr (List.mem_append_right _ h))
    · obtain ⟨s', hs', hv⟩ := List.mem_flatMap.mp h
      rw [Option.toList_some, List.mem_singleton] at hs'
      exact .inl (hs' ▸ hv)

theorem Func.WellFormed.last_of_terminator (h : f.WellFormed) (hb : f.blocks[b]? = some blk)
    (hk : blk.steps.toList[k]? = some s) (ht : s.inst.isTerminator = true) :
    blk.steps.toList.length = k + 1 := by
  obtain ⟨ss, last, e, -, hss⟩ := h.ended b blk hb
  obtain ⟨hlt, hget⟩ := List.getElem?_eq_some_iff.mp hk
  rw [e, List.length_append, List.length_singleton] at hlt ⊢
  by_contra hne
  have hlt' : k < ss.length := by omega
  rw [e, List.getElem?_append_left hlt'] at hk
  have := hss s (List.mem_of_getElem? hk)
  rw [ht] at this
  cases this

theorem Func.assignedBefore_branch (hb : f.blocks[b]? = some blk)
    (hlast : blk.steps.toList.length = k + 1) (hk : blk.steps.toList[k]? = some s)
    (hr : s.results = []) {dest : Nat} (h : v ∈ f.assignedBefore (before ++ [b]) dest 0) :
    v ∈ f.blockParams dest ∨ v ∈ f.assignedBefore before b k := by
  have hassigns : v ∈ f.blockAssigns b → v ∈ f.assignedBefore before b k := by
    intro hv
    rw [Func.blockAssigns_of hb] at hv
    have hall : v ∈ f.assignedBefore before b (k + 1) := by
      rw [Func.assignedBefore_of _ _ hb, Block.assignsUpTo, ← hlast, List.take_length]
      exact List.mem_append_right _ hv
    refine (Func.assignedBefore_succ hb hk hall).resolve_left ?_
    rw [hr]
    exact List.not_mem_nil
  have hold : v ∈ (before ++ [b]).flatMap f.blockAssigns → v ∈ f.assignedBefore before b k := by
    intro hv
    rw [List.flatMap_append, List.mem_append] at hv
    rcases hv with hv | hv
    · exact List.mem_append_left _ hv
    · refine hassigns ?_
      rwa [List.flatMap_cons, List.flatMap_nil, List.append_nil] at hv
  rcases List.mem_append.mp h with h | h
  · exact .inr (hold h)
  · cases hd : f.blocks[dest]? with
    | none =>
      rw [hd] at h
      cases h
    | some blk' =>
      rw [hd] at h
      rw [Func.blockParams, hd]
      rcases List.mem_append.mp h with h | h
      · exact .inl h
      · rw [List.take_zero] at h
        cases h

end

/-! ## a well-formed function does not get stuck -/

theorem Inst.Typed.supplies {f : Func} {i : Inst} {rs : List Ty} (h : i.Typed f rs) :
    ∀ t ∈ i.targets, f.Supplies t := by
  cases i with
  | jump t =>
    intro t' ht
    rw [List.mem_singleton.mp ht]
    exact h.1
  | brif ty c yes no =>
    obtain ⟨-, -, hyes, hno, -⟩ := h
    intro t ht
    rcases List.mem_pair.mp ht with rfl | rfl
    · exact hyes
    · exact hno
  | _ => exact nofun

section
variable {w : World} {a : Activation} {st st' : State} {s : Step}

theorem execStep_on (h : execStep w a st s = .ok (.on st')) : s.inst.isTerminator = false := by
  obtain ⟨inst, results⟩ := s
  cases inst with
  | jump | brif | ret => cases h
  | binary op => cases op <;> rfl
  | _ => rfl

theorem execStep_branch {b : Nat} {args : List Val} (h : execStep w a st s = .ok (.branch st' b args)) :
    ∃ t ∈ s.inst.targets, t.block = b := by
  obtain ⟨inst, results⟩ := s
  cases inst with
  | jump t =>
    cases h
    exact ⟨t, List.mem_cons_self, rfl⟩
  | brif ty c yes no =>
    cases h
    refine ⟨_, ?_, rfl⟩
    split
    · exact List.mem_cons_of_mem _ List.mem_cons_self
    · exact List.mem_cons_self
  | call fn args =>
    simp only [execStep] at h
    split at h <;> cases h
  | _ => cases h

/-- a point inside a block is in front of a step -/
def Func.HasStep (f : Func) : Point → Prop
  | .inside b k _ => ∃ blk s, f.blocks[b]? = some blk ∧ blk.steps.toList[k]? = some s
  | .left .. | .failed _ => True

variable {f : Func} {sp : UInt64} {p q : Point} {es : List Event}

theorem Func.WellFormed.hasStep_zero (hf : f.WellFormed) {b : Nat} {blk : Block}
    (hb : f.blocks[b]? = some blk) (st : State) : f.HasStep (.inside b 0 st) := by
  obtain ⟨ss, last, e, -⟩ := hf.ended b blk hb
  have hpos : 0 < blk.steps.toList.length := by
    rw [e, List.length_append]
    exact Nat.succ_pos _
  exact ⟨blk, _, hb, List.getElem?_eq_getElem hpos⟩

theorem Advance.hasStep (hf : f.WellFormed) (h : Advance w (f.activation sp) p es q) :
    f.HasStep q := by
  cases h with
  | @on b k blk s st st' hb hk hs =>
    obtain ⟨ss, last, e, hlast, -⟩ := hf.ended b blk hb
    obtain ⟨hlt, hget⟩ := List.getElem?_eq_some_iff.mp hk
    -- the step is not the last one, which is a terminator
    have hne : k + 1 ≠ blk.steps.toList.length := by
      intro heq
      have : blk.steps.toList[k]? = some last := by
        rw [e, List.length_append, List.length_singleton] at heq
        rw [e, Nat.succ.inj heq]
        exact List.getElem?_concat_length
      rw [hk] at this
      cases this
      rw [execStep_on hs] at hlast
      cases hlast
    have hlt' : k + 1 < blk.steps.toList.length := by omega
    exact ⟨blk, _, hb, List.getElem?_eq_getElem hlt'⟩
  | branch hb hk hs hd => exact hf.hasStep_zero hd _
  | leave | fail => trivial

theorem Func.Reaches.hasStep (hf : f.WellFormed) {args : List Val} {mem : Memory}
    (h : f.Reaches w sp args mem es p) : f.HasStep p := by
  obtain ⟨es', -, hadv⟩ := h
  cases hadv with
  | refl =>
    obtain ⟨blk, hb, -⟩ := hf.entry
    exact hf.hasStep_zero hb _
  | tail _ hs => exact hs.hasStep hf

/-- **A run gets on** from every point inside a block. -/
theorem Func.Reaches.progress (hf : f.WellFormed) {args : List Val} {mem : Memory} {b k : Nat}
    (h : f.Reaches w sp args mem es (.inside b k st)) :
    ∃ es' q, Advance w (f.activation sp) (.inside b k st) es' q := by
  obtain ⟨blk, s, hb, hk⟩ := h.hasStep hf
  cases hs : execStep w (f.activation sp) st s with
  | error e => exact ⟨_, _, .fail hb hk hs⟩
  | ok n =>
    cases n with
    | on st' => exact ⟨_, _, .on hb hk hs⟩
    | leave st' vals => exact ⟨_, _, .leave hb hk hs⟩
    | branch st' b' vals =>
      obtain ⟨t, ht, rfl⟩ := execStep_branch hs
      obtain ⟨rs, hi, -⟩ := hf.typed b blk hb s (List.mem_of_getElem? hk)
      obtain ⟨dest, ts, hd, -⟩ := hi.supplies t ht
      exact ⟨_, _, .branch hb hk hs hd⟩

end

end TreeJit.SSA
