import TreeJit.Proofs.SSA.Progress
import TreeJit.Proofs.SSA.Strokes
import TreeJit.Proofs.SSA.WellFormed

/-!
# The first fault lasts

An operation that is refused leaves the body as it was, and from the first refusal on nothing changes
any more and every answer is the one for "nothing".  The same holds from the moment a function is handed
out, where the fault of later operations is that the draft is finished.

* `Reply.Barren f`              the answers of operations that do not happen because of the fault `f`;
* `Action.once_cases`           but for the parameters of the signature and the end, an operation is one
                                attempt;
* `Draft.act_obstructed`        no operation gets past an obstacle;
* `Draft.act_refused`           a refused operation leaves only its fault behind;
* `Draft.first_fault_lasts`     all of it, for every run.

The one operation made of several attempts appends a parameter for each type of the signature.  It
cannot stop half way: what the first attempt asks of the block, the others find as well
(`Draft.appendParams_unrefused`).
-/

namespace TreeJit.SSA

def Reply.Barren (f : Fault) : Reply → Prop
  | .nothing => True
  | .number n => n = -1
  | .numbers ns => ∀ n ∈ ns, n = -1
  | .func r => r = .error f

/-- the operation is one attempt, whose answer is barren if it does not happen -/
structure Action.Once {α : Type} (a : Action) (nothing : α) (step : Body → Except Fault (Body × α))
    (g : α → Reply) : Prop where
  act_eq : ∀ d : Draft, d.act a = ((d.attempt nothing step).1, g (d.attempt nothing step).2)
  barren : ∀ f, (g nothing).Barren f

/-- an operation is one attempt, or appends the parameters of the signature, or is the end -/
theorem Action.once_cases (a : Action) : (∃ blk, a = .appendFunctionParams blk) ∨ a = .finish ∨
    ∃ (α : Type) (nothing : α) (step : Body → Except Fault (Body × α)) (g : α → Reply),
      a.Once nothing step g := by
  cases a with
  | appendFunctionParams blk => exact .inl ⟨blk, rfl⟩
  | finish => exact .inr (.inl rfl)
  | switchTo | sealBlock | sealAll | store | stackStore | jump | brif | ret =>
    exact .inr (.inr ⟨Unit, (), _, fun _ => .nothing, fun _ => rfl, fun _ => trivial⟩)
  | call => exact .inr (.inr ⟨List Int, [], _, .numbers, fun _ => rfl, fun _ => nofun⟩)
  | _ => exact .inr (.inr ⟨Int, -1, _, .number, fun _ => rfl, fun _ => rfl⟩)

namespace Draft
variable {d : Draft}

/-! ## obstacles -/

theorem obstacle_of_fault {f : Fault} (h : d.fault = some f) : d.obstacle = some f := by
  unfold obstacle
  rw [h]

theorem obstacle_of_done (hf : d.fault = none) (hd : d.done = true) :
    d.obstacle = some .finished := by
  unfold obstacle
  rw [hf, hd]
  rfl

theorem withFault_self {f : Fault} (h : d.fault = some f) : { d with fault := some f } = d := by
  rw [← h]

theorem attempt_obstructed {f : Fault} (h : d.obstacle = some f) {α : Type} (nothing : α)
    (step : Body → Except Fault (Body × α)) :
    d.attempt nothing step = ({ d with fault := some f }, nothing) := by
  unfold attempt
  rw [h]

theorem appendParams_obstructed {f : Fault} (h : d.obstacle = some f) (blk : Int) (ts : List Ty) :
    (d.appendParams blk ts).1 = (if ts = [] then d else { d with fault := some f }) ∧
      ∀ v ∈ (d.appendParams blk ts).2, v = -1 := by
  induction ts generalizing d with
  | nil => exact ⟨rfl, nofun⟩
  | cons t ts ih =>
    have h1 : d.appendParam blk t = ({ d with fault := some f }, -1) := attempt_obstructed h _ _
    obtain ⟨hd, hv⟩ := ih (d := { d with fault := some f }) (obstacle_of_fault rfl)
    unfold appendParams
    rw [h1]
    refine ⟨?_, ?_⟩
    · rw [hd, if_neg (List.cons_ne_nil t ts)]
      split <;> rfl
    · intro v hm
      rcases List.mem_cons.mp hm with rfl | hm
      · rfl
      · exact hv v hm

theorem finish_obstructed {f : Fault} (h : d.obstacle = some f) :
    d.finish = ({ d with fault := some f }, .error f) := by
  unfold finish
  rw [h]

/-- **No operation gets past an obstacle.**  Only one that does nothing anyway does not report it. -/
theorem act_obstructed {f : Fault} (h : d.obstacle = some f) (a : Action) : (d.act a).2.Barren f ∧
    ((d.act a).1 = { d with fault := some f } ∨
      (∃ blk, a = .appendFunctionParams blk) ∧ d.body.fn.sig.params = [] ∧ (d.act a).1 = d) := by
  obtain ⟨blk, rfl⟩ | rfl | ⟨_, nothing, step, g, ha⟩ := a.once_cases
  · obtain ⟨hd, hv⟩ := appendParams_obstructed h blk d.body.fn.sig.params
    refine ⟨hv, ?_⟩
    by_cases hp : d.body.fn.sig.params = []
    · rw [if_pos hp] at hd
      exact .inr ⟨⟨blk, rfl⟩, hp, hd⟩
    · rw [if_neg hp] at hd
      exact .inl hd
  · show d.finish.2 = .error f ∧ (d.finish.1 = _ ∨ _)
    rw [finish_obstructed h]
    exact ⟨rfl, .inl rfl⟩
  · rw [ha.act_eq, attempt_obstructed h]
    exact ⟨ha.barren f, .inl rfl⟩

theorem act_of_fault {f : Fault} (h : d.fault = some f) (a : Action) :
    (d.act a).1 = d ∧ (d.act a).2.Barren f := by
  obtain ⟨hb, hd | ⟨-, -, hd⟩⟩ := act_obstructed (obstacle_of_fault h) a
  · exact ⟨hd.trans (withFault_self h), hb⟩
  · exact ⟨hd, hb⟩

theorem perform_of_fault {f : Fault} (h : d.fault = some f) (as : List Action) :
    d.perform as = d := by
  induction as with
  | nil => rfl
  | cons a as ih =>
    show (d.act a).1.perform as = d
    rw [(act_of_fault h a).1]
    exact ih

/-! ## the first refusal -/

theorem attempt_refused (h : d.fault = none) {α : Type} {nothing : α}
    {step : Body → Except Fault (Body × α)} {f : Fault}
    (hf : (d.attempt nothing step).1.fault = some f) :
    d.attempt nothing step = ({ d with fault := some f }, nothing) := by
  cases ho : d.obstacle with
  | some g =>
    rw [attempt_obstructed ho] at hf ⊢
    cases hf
    rfl
  | none =>
    unfold attempt at hf ⊢
    rw [ho] at hf ⊢
    cases hs : step d.body with
    | ok r =>
      simp only [hs] at hf
      rw [h] at hf
      cases hf
    | error g =>
      simp only [hs] at hf ⊢
      cases hf
      rfl

theorem getElem?_addParam {b : Body} {n : Nat} {blk : Block} (hb : b.fn.blocks[n]? = some blk)
    (t : Ty) : (b.addParam n t).fn.blocks[n]? =
      some { blk with params := blk.params.push b.fn.values.size } := by
  show (b.fn.blocks.modify n _)[n]? = _
  rw [Array.getElem?_modify, if_pos rfl, hb]
  rfl

theorem appendParams_unrefused (hf : d.fault = none) (hd : d.done = false) {n : Nat} {blk : Block}
    (hb : d.body.fn.blocks[n]? = some blk) (hp : blk.preds = 0) {ts : List Ty}
    (ht : ∀ t ∈ ts, t.isValid = true) : (d.appendParams n ts).1.fault = none := by
  induction ts generalizing d blk with
  | nil => exact hf
  | cons t ts ih =>
    have he : d.body.appendParam n t = .ok (d.body.addParam n t, (d.body.fn.values.size : Int)) :=
      Body.appendParam_eq hb hp (ht t List.mem_cons_self)
    have h1 : d.appendParam n t =
        ({ d with body := d.body.addParam n t }, (d.body.fn.values.size : Int)) :=
      attempt_of_ok hf hd he
    unfold appendParams
    rw [h1]
    exact ih (d := { d with body := d.body.addParam n t }) hf hd (getElem?_addParam hb t) hp
      fun u hu => ht u (List.mem_cons_of_mem t hu)

/-- parameters that are refused are refused from the first one on -/
theorem appendParams_refused (h : d.fault = none) {n : Int} {ts : List Ty}
    (ht : ∀ t ∈ ts, t.isValid = true) {f : Fault} (hf : (d.appendParams n ts).1.fault = some f) :
    (d.appendParams n ts).1 = { d with fault := some f } ∧ ∀ v ∈ (d.appendParams n ts).2, v = -1 := by
  cases ts with
  | nil =>
    have e : (d.appendParams n []).1 = d := rfl
    rw [e, h] at hf
    cases hf
  | cons t ts =>
    cases hs : (d.appendParam n t).1.fault with
    | some g =>
      have h1 : d.appendParam n t = ({ d with fault := some g }, -1) := attempt_refused h hs
      have hg : (d.appendParams n (t :: ts)).1.fault = some g := by
        show ((d.appendParam n t).1.appendParams n ts).1.fault = some g
        exact fault_appendParams hs
      obtain rfl : g = f := Option.some.inj (hg.symm.trans hf)
      obtain ⟨hd, hv⟩ := appendParams_obstructed (d := { d with fault := some g })
        (obstacle_of_fault rfl) n ts
      unfold appendParams
      rw [h1]
      refine ⟨?_, ?_⟩
      · rw [hd]
        split <;> rfl
      · intro v hm
        rcases List.mem_cons.mp hm with rfl | hm
        · rfl
        · exact hv v hm
    | none =>
      -- the first parameter was taken, so there is a block without branches that takes them all
      obtain ⟨-, hd, b', r, he, -⟩ := attempt_sound hs
      obtain ⟨m, hm, he⟩ := bind_eq_ok.mp he
      obtain ⟨_, -, he⟩ := bind_eq_ok.mp he
      obtain ⟨_, hp, -⟩ := bind_eq_ok.mp he
      obtain ⟨hlt, rfl⟩ := Body.blockNo_ok hm
      have hb := Array.getElem?_eq_getElem hlt
      have hp' := require_eq_ok.mp hp
      rw [Array.getD_eq_getD_getElem?, hb, Option.getD_some] at hp'
      rw [appendParams_unrefused h hd hb (beq_iff_eq.mp hp') ht] at hf
      cases hf

theorem finish_refused (h : d.fault = none) {f : Fault} (hf : d.finish.1.fault = some f) :
    d.finish = ({ d with fault := some f }, .error f) := by
  cases ho : d.obstacle with
  | some g =>
    rw [finish_obstructed ho] at hf ⊢
    cases hf
    rfl
  | none =>
    unfold finish at hf ⊢
    rw [ho] at hf ⊢
    cases hv : d.body.fn.verify with
    | ok r =>
      simp only [hv] at hf
      rw [h] at hf
      cases hf
    | error g =>
      simp only [hv] at hf ⊢
      cases hf
      rfl

/-- **A refused operation leaves only its fault behind.** -/
theorem act_refused (h : d.fault = none) (ht : ∀ t ∈ d.body.fn.sig.params, t.isValid = true)
    {a : Action} {f : Fault} (hf : (d.act a).1.fault = some f) :
    (d.act a).1 = { d with fault := some f } ∧ (d.act a).2.Barren f := by
  obtain ⟨blk, rfl⟩ | rfl | ⟨_, nothing, step, g, ha⟩ := a.once_cases
  · exact appendParams_refused h ht hf
  · have e : d.finish = _ := finish_refused h hf
    show d.finish.1 = _ ∧ d.finish.2 = _
    rw [e]
    exact ⟨rfl, rfl⟩
  · rw [ha.act_eq] at hf ⊢
    rw [attempt_refused h hf]
    exact ⟨rfl, ha.barren f⟩

/-! ## after the end -/

/-- the draft was handed out, and nothing but that is held against it -/
def Closed (d : Draft) : Prop := d.done = true ∧ (d.fault = none ∨ d.fault = some .finished)

theorem Closed.obstacle (h : d.Closed) : d.obstacle = some .finished := by
  obtain ⟨hd, hf | hf⟩ := h
  · exact obstacle_of_done hf hd
  · exact obstacle_of_fault hf

theorem Closed.act (h : d.Closed) (a : Action) :
    (d.act a).1.Closed ∧ (d.act a).1.body = d.body := by
  obtain ⟨-, e | ⟨-, -, e⟩⟩ := act_obstructed h.obstacle a
  · rw [e]
    exact ⟨⟨h.1, .inr rfl⟩, rfl⟩
  · rw [e]
    exact ⟨h, rfl⟩

theorem Closed.perform (h : d.Closed) (as : List Action) :
    (d.perform as).Closed ∧ (d.perform as).body = d.body := by
  induction as generalizing d with
  | nil => exact ⟨h, rfl⟩
  | cons a as ih =>
    obtain ⟨h1, e1⟩ := h.act a
    obtain ⟨h2, e2⟩ := ih h1
    exact ⟨h2, e2.trans e1⟩

theorem closed_of_finish {f : Func} (h : d.finish.2 = .ok f) :
    d.finish.1.Closed ∧ d.finish.1.body = d.body ∧ f = d.body.fn := by
  obtain ⟨hf, e, hv⟩ := finish_ok h
  have ho : d.obstacle = none := by
    cases ho : d.obstacle with
    | none => rfl
    | some g => rw [finish_obstructed ho] at h; cases h
  have e1 : d.finish.1 = { d with done := true } := by
    rw [e] at hv
    unfold finish
    rw [ho]
    simp only [hv]
  rw [e1]
  exact ⟨⟨rfl, .inl hf⟩, rfl, e⟩

theorem Closed.act_reports (h : d.Closed) {a : Action}
    (ha : a = .finish ∨ ∃ e : Draft, e.body = d.body ∧ (e.act a).1 ≠ e) :
    (d.act a).1.fault = some .finished := by
  obtain ⟨-, e | ⟨⟨blk, rfl⟩, hp, -⟩⟩ := act_obstructed h.obstacle a
  · rw [e]
  · obtain ha | ⟨e, hb, hne⟩ := ha
    · cases ha
    · refine absurd ?_ hne
      show (e.appendParams blk e.body.fn.sig.params).1 = e
      rw [hb, hp]
      rfl

/-! ## every run -/

/-- the types of the signature are known to be types while there is no fault -/
theorem sig_valid_of_perform {name : String} {sig : Signature} {as : List Action}
    (h : ((new name sig).perform as).fault = none) :
    ∀ t ∈ ((new name sig).perform as).body.fn.sig.params, t.isValid = true := by
  obtain ⟨hs, -⟩ := holds_perform (Body.kept_soundFor name sig) as (holds_new name sig) h
  intro t ht
  have hv := hs.sig
  unfold Signature.isValid at hv
  simp only [Bool.and_eq_true, List.all_eq_true] at hv
  exact hv.1 t ht

/-- **The first fault lasts.**  After any run: an operation does what its strokes do one after the
other, so that a refusal would leave behind what was changed before it; yet the operation that meets
the first fault leaves everything but the fault as it was.  From then on no run changes anything, every
answer is the one for "nothing" and the end gives the first fault.  After a function is handed out no
run changes it, and every operation that would change the draft at all, and another end, is refused
because the draft is finished. -/
theorem first_fault_lasts (name : String) (sig : Signature) (as : List Action) :
    let d := (new name sig).perform as
    (∀ a, d.strokes a = d.act a) ∧
    (∀ a f, d.fault = none → (d.act a).1.fault = some f →
      (d.act a).1 = { d with fault := some f } ∧ (d.act a).2.Barren f) ∧
    (∀ f, d.fault = some f →
      (∀ bs, d.perform bs = d) ∧ (∀ a, (d.act a).1 = d ∧ (d.act a).2.Barren f) ∧
      d.finish.2 = .error f) ∧
    ∀ f, d.finish.2 = .ok f → ∀ bs,
      let e := d.finish.1.perform bs
      e.body.fn = f ∧ e.body = d.body ∧ ∀ a, (e.act a).2.Barren .finished ∧
        ((a = .finish ∨ ∃ e' : Draft, e'.body = e.body ∧ (e'.act a).1 ≠ e') →
          (e.act a).1.fault = some .finished) := by
  intro d
  refine ⟨d.strokes_eq_act, ?_, ?_, ?_⟩
  · intro a f hn hf
    exact act_refused hn (sig_valid_of_perform hn) hf
  · intro f hf
    refine ⟨perform_of_fault hf, act_of_fault hf, ?_⟩
    rw [finish_obstructed (obstacle_of_fault hf)]
  · intro f hf bs e
    obtain ⟨hc, hb, rfl⟩ := closed_of_finish hf
    obtain ⟨hce, hbe⟩ := hc.perform bs
    have hbody : e.body = d.body := hbe.trans hb
    refine ⟨congrArg Body.fn hbody, hbody, fun a => ⟨?_, hce.act_reports⟩⟩
    exact (act_obstructed hce.obstacle a).1

/-- a sum of a value that does not exist, met by the countdown; and a block asked for after the
countdown is handed out -/
theorem first_fault_lasts_countdown :
    let d := (new "sum" ⟨[.i64], [.i64]⟩).perform countdown
    let a := Action.binary .iadd 99 0
    let d1 := (new "sum" ⟨[.i64], [.i64]⟩).perform (countdown ++ [a])
    let e := d.finish.1.perform [.finish]
    (d.fault = none ∧ (d.act a).1.fault = some (.foreignValue 99) ∧
      (d.act a).1 = { d with fault := some (.foreignValue 99) }) ∧
    (d1.fault = some (.foreignValue 99) ∧ d1.perform [.sealAll, .finish] = d1) ∧
    d.finish.2 = .ok d.body.fn ∧ (e.act .createBlock).1.fault = some .finished := by
  intro d a d1 e
  obtain ⟨-, hfirst, -, hend⟩ := first_fault_lasts "sum" ⟨[.i64], [.i64]⟩ countdown
  obtain ⟨-, -, hlast, -⟩ := first_fault_lasts "sum" ⟨[.i64], [.i64]⟩ (countdown ++ [a])
  have h0 : d.fault = none := by decide +kernel
  have h1 : (d.act a).1.fault = some (.foreignValue 99) := by decide +kernel
  have h2 : d1.fault = some (.foreignValue 99) := by decide +kernel
  have h3 : d.finish.2 = .ok d.body.fn := finish_of_isOk (by decide +kernel)
  obtain ⟨-, hb, hact⟩ := hend d.body.fn h3 [.finish]
  have hne : (d.act .createBlock).1 ≠ d := by
    intro h
    have hn : (d.act .createBlock).1.body.fn.blocks.size ≠ d.body.fn.blocks.size := by
      decide +kernel
    exact hn (congrArg (fun d : Draft => d.body.fn.blocks.size) h)
  exact ⟨⟨h0, h1, (hfirst a _ h0 h1).1⟩, ⟨h2, (hlast _ h2).1 _⟩, h3,
    (hact .createBlock).2 (.inr ⟨d, hb.symm, hne⟩)⟩

end Draft

end TreeJit.SSA
