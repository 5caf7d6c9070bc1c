import TreeJit.Proofs.Emit.Work
import TreeJit.Proofs.Tree.Emit

/-!
# What the code of trees imports

Only one operation imports a function from outside, all others leave the imports as they are
(`Draft.imports_act`).  The code of a tree imports nothing but built-in operations, whether or not it
succeeds (`Tree.extendsBy_emit`), and neither does what a builder writes with its scratch frame.

* `Draft.Native`   all imports are built-in operations.
-/

namespace TreeJit

open SSA Emit

namespace SSA

/-- an operation that imports a built-in one, if any -/
def Action.IsNative (a : Action) : Prop :=
  ∀ name sig, a = .importFn name sig → ∃ f : Host.Builtin, name = f.name ∧ sig = f.sig

namespace Body
variable {b : Body} {α β : Type}

/-- whatever comes of it has the imports of the body -/
def KeepsImports (b : Body) (r : Except Fault (Body × α)) : Prop :=
  ∀ b' a, r = .ok (b', a) → b'.fn.imports = b.fn.imports

theorem keepsImports_ok {b' : Body} {a : α} (h : b'.fn.imports = b.fn.imports) :
    b.KeepsImports (.ok (b', a)) := by
  intro _ _ e
  cases e
  exact h

theorem keepsImports_error (f : Fault) : b.KeepsImports (.error f : Except Fault (Body × α)) := nofun

theorem keepsImports_bind {x : Except Fault β} {f : β → Except Fault (Body × α)}
    (h : ∀ y, b.KeepsImports (f y)) : b.KeepsImports (x >>= f) := by
  intro b' a hr
  obtain ⟨y, -, hy⟩ := bind_eq_ok.mp hr
  exact h y b' a hy

theorem keepsImports_emit {i : Inst} {ts : List Ty} {f : Body × List ValueNo → Except Fault (Body × α)}
    (h : ∀ b1 vs, b1.fn.imports = b.fn.imports → b.KeepsImports (f (b1, vs))) :
    b.KeepsImports (b.emit i ts >>= f) := by
  intro b' a hr
  obtain ⟨⟨b1, vs⟩, he, hf⟩ := bind_eq_ok.mp hr
  refine h b1 vs ?_ b' a hf
  unfold emit at he
  split at he
  · cases he
  · split at he
    · cases he
    · cases he
      rfl

theorem keepsImports_emitOne (i : Inst) (t : Ty) : b.KeepsImports (b.emitOne i t) :=
  keepsImports_emit fun _ _ h => keepsImports_ok h

theorem keepsImports_emitNone (i : Inst) : b.KeepsImports (b.emitNone i) :=
  keepsImports_emit fun _ _ h => keepsImports_ok h

end Body

namespace Draft
variable {d d' d'' : Draft}

theorem imports_attempt {α : Type} {nothing : α} {op : Body → Except Fault (Body × α)}
    (h : d.body.KeepsImports (op d.body)) :
    (d.attempt nothing op).1.body.fn.imports = d.body.fn.imports := by
  unfold attempt
  split
  · rfl
  · split
    · rename_i b a he
      exact h b a he
    · rfl

theorem imports_appendParams (n : Int) (ts : List Ty) :
    (d.appendParams n ts).1.body.fn.imports = d.body.fn.imports := by
  induction ts generalizing d with
  | nil => rfl
  | cons t ts ih =>
    have h1 : (d.appendParam n t).1.body.fn.imports = d.body.fn.imports :=
      imports_attempt (Body.keepsImports_bind fun _ => Body.keepsImports_bind fun _ =>
        Body.keepsImports_bind fun _ => Body.keepsImports_ok rfl)
    exact Eq.trans ih h1

/-- **Only an import changes the imports.** -/
theorem imports_act (d : Draft) {a : Action} (h : ∀ name sig, a ≠ .importFn name sig) :
    (d.act a).1.body.fn.imports = d.body.fn.imports := by
  open Body in
  cases a with
  | importFn name sig => exact absurd rfl (h name sig)
  | finish =>
    show d.finish.1.body.fn.imports = _
    unfold finish
    repeat' split
    all_goals rfl
  | appendFunctionParams n => exact imports_appendParams n _
  | createBlock | sealAll => exact imports_attempt (keepsImports_ok rfl)
  | switchTo | sealBlock => exact imports_attempt (keepsImports_bind fun _ => keepsImports_ok rfl)
  | appendParam =>
    exact imports_attempt (keepsImports_bind fun _ => keepsImports_bind fun _ =>
      keepsImports_bind fun _ => keepsImports_ok rfl)
  | createSlot => exact imports_attempt (keepsImports_bind fun _ => keepsImports_ok rfl)
  | iconst | stackAddr => exact imports_attempt (keepsImports_bind fun _ => keepsImports_emitOne _ _)
  | splat | extractLane | load | stackLoad =>
    exact imports_attempt (keepsImports_bind fun _ => keepsImports_bind fun _ =>
      keepsImports_emitOne _ _)
  | store | stackStore =>
    exact imports_attempt (keepsImports_bind fun _ => keepsImports_bind fun _ =>
      keepsImports_emitNone _)
  | ret => exact imports_attempt (keepsImports_bind fun _ => keepsImports_emitNone _)
  | binary =>
    exact imports_attempt (keepsImports_bind fun _ => keepsImports_bind fun _ =>
      keepsImports_bind fun _ => keepsImports_bind fun _ => keepsImports_emitOne _ _)
  | fconst t bits =>
    refine imports_attempt ?_
    unfold Body.fconst
    split
    · exact keepsImports_emitOne _ _
    · exact keepsImports_emitOne _ _
    · exact keepsImports_error _
  | icmp | fcmp =>
    refine imports_attempt (keepsImports_bind fun _ => keepsImports_bind fun _ =>
      keepsImports_bind fun _ => ?_)
    split
    · exact keepsImports_error _
    · exact keepsImports_emitOne _ _
  | call ref args =>
    refine imports_attempt ?_
    unfold Body.call
    split
    · exact keepsImports_error _
    · split
      · exact keepsImports_error _
      · exact keepsImports_bind fun _ => keepsImports_emit fun _ _ h => keepsImports_ok h
  | jump =>
    exact imports_attempt (keepsImports_bind fun _ => keepsImports_emit fun _ _ h => keepsImports_ok h)
  | brif =>
    exact imports_attempt (keepsImports_bind fun _ => keepsImports_bind fun _ =>
      keepsImports_bind fun _ => keepsImports_bind fun _ =>
      keepsImports_emit fun _ _ h => keepsImports_ok h)

/-! ## operations that import built-in ones -/

def Native (d : Draft) : Prop :=
  ∀ e ∈ d.body.fn.imports.toList, ∃ f : Host.Builtin, e = ⟨f.name, f.sig⟩

theorem Native.of_imports (h : d.Native)
    (e : d'.body.fn.imports.toList = d.body.fn.imports.toList) : d'.Native := by
  unfold Native
  rw [e]
  exact h

theorem native_act (h : d.Native) {a : Action} (ha : a.IsNative) : (d.act a).1.Native := by
  by_cases hi : ∃ name sig, a = .importFn name sig
  · obtain ⟨name, sig, rfl⟩ := hi
    obtain ⟨f, rfl, rfl⟩ := ha name sig rfl
    show (d.importFn f.name f.sig).1.Native
    unfold Draft.importFn attempt
    split
    · exact h
    · split
      · rename_i b a he
        obtain ⟨_, -, he⟩ := bind_eq_ok.mp he
        split at he
        · cases he
        · cases he
          intro e hm
          rw [Array.toList_push, List.mem_append, List.mem_singleton] at hm
          exact hm.elim (h e) fun e => ⟨f, e⟩
      · exact h
  · exact h.of_imports (congrArg Array.toList (imports_act d fun name sig e => hi ⟨name, sig, e⟩))

theorem ExtendsBy.native (h : d.ExtendsBy Action.IsNative d') (hd : d.Native) : d'.Native := by
  obtain ⟨as, rfl, ha⟩ := h
  induction as generalizing d with
  | nil => exact hd
  | cons a as ih =>
    obtain ⟨ha, has⟩ := List.forall_mem_cons.mp ha
    exact ih (native_act hd ha) has

theorem extendsBy_call (d : Draft) (f : Host.Builtin) (args : List Int) : d.ExtendsBy Action.IsNative
    ((d.importFn f.name f.sig).1.call (d.importFn f.name f.sig).2 args).1 := by
  refine (extendsBy_act d (a := .importFn f.name f.sig) ?_).trans
    (extendsBy_act _ (a := .call _ _) nofun)
  rintro _ _ ⟨⟩
  exact ⟨f, rfl, rfl⟩

end Draft
end SSA

/-! ## builders -/

namespace Emit.Builder
variable {b : Builder}

theorem extendsBy_call [Host.Platform] {scope : Scope} (hc : scope.catalog.HoldsBuiltins)
    (f : Host.Builtin) (args : List Int) : b.draft.ExtendsBy Action.IsNative (b.call scope f.name args).1.draft := by
  have hop : scope.catalog.resolve f.name =
      .ok ⟨f.name, f.sig, Host.hostConv, .native (.builtin f)⟩ := by
    rw [Host.Catalog.resolve, hc f]
  refine extendsBy_attempt fun b => ?_
  simp only [hop]
  split
  · exact .refl _
  · split
    · exact .refl _
    · exact Draft.extendsBy_call b.draft f args

theorem extendsBy_makeScratch (size : Int) :
    b.draft.ExtendsBy Action.IsNative (b.makeScratch size).draft := by
  refine extendsBy_attempt fun b => ?_
  split
  · exact .refl _
  · split
    · exact .refl _
    · have h1 := Draft.extendsBy_act (q := Action.IsNative) b.draft (a := .createSlot size 16) nofun
      simp only
      split <;> exact h1

theorem extendsBy_storeRef (name : String) (ptr : Int) (t : Ty) :
    b.draft.ExtendsBy Action.IsNative (b.storeRef name ptr t).draft := by
  refine extendsBy_attempt fun b => ?_
  simp only
  split
  · exact .refl _
  · split
    · exact .refl _
    · unfold storeSlot
      split
      · exact .refl _
      · rename_i b1 slot n ha
        have hd : b1.draft = b.draft := by
          unfold allocate at ha
          split at ha
          · cases ha
          · obtain ⟨_, -, ha⟩ := bind_eq_ok.mp ha
            cases ha
            rfl
        rw [← hd]
        exact Draft.extendsBy_act _ (a := .stackStore _ _ _) nofun

theorem extendsBy_loadElement (name : String) (index : Int64) :
    b.draft.ExtendsBy Action.IsNative (b.loadElement name index).1.draft := by
  refine extendsBy_attempt fun b => ?_
  unfold loadRef
  split
  · rename_i hr
    split at hr
    · cases hr
      exact .refl _
    · cases hr
  · rename_i hr
    split at hr
    · cases hr
    · cases hr
      exact (Draft.extendsBy_act _ (a := .stackLoad _ _ _) nofun).trans
        (Draft.extendsBy_act _ (a := .load _ _ _) nofun)

end Emit.Builder

/-! ## trees -/

section
variable {scope : Scope} {b : Builder}

theorem extendsBy_emitLiteral (bits : UInt64) :
    b.draft.ExtendsBy Action.IsNative (emitLiteral b bits).1.draft := by
  have h1 := Draft.extendsBy_act (q := Action.IsNative) b.draft (a := .fconst .f64 bits) nofun
  unfold emitLiteral Builder.onDraft
  simp only
  split
  · exact h1.trans (Draft.extendsBy_act _ (a := .splat _ _) nofun)
  · exact h1

theorem Operator.extendsBy_inline (o : Operator) (x y : Int) (d : Draft) :
    d.ExtendsBy Action.IsNative (o.inline x y d).1 := by
  cases o with
  | arith op =>
    rw [inline_arith]
    exact Draft.extendsBy_act d (a := .binary _ _ _) nofun
  | compare c => exact Draft.extendsBy_act d (a := .fcmp _ _ _) nofun
  | other s => exact Draft.extendsBy_act d (a := .fcmp _ _ _) nofun

theorem Operator.extendsBy_emit [Host.Platform] (hc : scope.catalog.HoldsBuiltins) {o : Operator}
    (ho : o.isValid = true) (x y : Int) :
    b.draft.ExtendsBy Action.IsNative (o.emit scope b x y).1.draft := by
  unfold Operator.emit
  split
  · rw [native_eq ho]
    exact Builder.extendsBy_call hc _ _
  · exact o.extendsBy_inline x y b.draft

/-- **The code of a tree imports nothing but built-in operations.** -/
theorem Tree.extendsBy_emit [Host.Platform] (hc : scope.catalog.HoldsBuiltins) (t : Tree)
    (ht : t.check = .ok ()) (b : Builder) : b.draft.ExtendsBy Action.IsNative (t.emit scope b).1.draft := by
  induction t generalizing b with
  | missing => exact .refl _
  | column i name => exact Builder.extendsBy_column _
  | literal bits => exact extendsBy_emitLiteral bits
  | binary o l r ihl ihr =>
    obtain ⟨ho, hlc, -, hrc, -⟩ := check_binary ht
    have h1 := ihl hlc b
    rw [Tree.emit]
    split
    · rename_i b1 e1
      rwa [e1] at h1
    · rename_i b1 x e1
      rw [e1] at h1
      have h2 := ihr hrc b1
      split
      · rename_i b2 e2
        rw [e2] at h2
        exact h1.trans h2
      · rename_i b2 y e2
        rw [e2] at h2
        exact (h1.trans h2).trans (Operator.extendsBy_emit hc ho x y)

end

end TreeJit
