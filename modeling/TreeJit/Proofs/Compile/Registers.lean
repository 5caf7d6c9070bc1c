import TreeJit.Proofs.Compile.Operations
import TreeJit.Proofs.Compile.X64Legal

/-!
# Values in the registers of the calling convention

A list of values is passed in registers, each in the register of its place (`Passes`).  Places are
given out once, different places are different registers, and none of them is one that the frame or
the caller needs (`Placed`), so loading or storing one value keeps the others:

* `Sim.unspillAll`   loads a list of values into their registers;
* `Sim.spillAll`     stores a list of values that arrived in registers to their homes.
-/

namespace TreeJit.Compile.X64

open SSA TreeJit.X64

inductive AnyReg where
  | gpr (r : RegId)
  | xmm (x : XReg)
  deriving DecidableEq

def valOf (c : Cpu) : AnyReg → Val
  | .gpr r => ⟨c.gpr r, 0⟩
  | .xmm x => c.xmm x

/-- the register of a place, given the general-purpose registers in order -/
def AnyReg.of (ints : List RegId) (loc : RegLoc) : AnyReg :=
  match loc.file with
  | .int => .gpr (ints.getD loc.index rax)
  | .float => .xmm (UInt8.ofNat loc.index)

/-- registers hold values, as far as their types keep them -/
inductive Carries (c : Cpu) : List AnyReg → List Ty → List Val → Prop where
  | nil : Carries c [] [] []
  | cons {r : AnyReg} {t : Ty} {x : Val} {rs : List AnyReg} {ts : List Ty} {xs : List Val}
      (h : Val.keep t (valOf c r) = x) (hs : Carries c rs ts xs) :
      Carries c (r :: rs) (t :: ts) (x :: xs)

/-- the values of a list are in the registers that a list of types is passed in -/
def Passes (lim : RegLimits) (ints : List RegId) (c : Cpu) (ts : List Ty) (xs : List Val) : Prop :=
  ∃ locs, passing lim ts = .ok locs ∧ Carries c (locs.map (AnyReg.of ints)) ts xs

theorem Carries.congr {c c' : Cpu} {rs : List AnyReg} {ts : List Ty} {xs : List Val}
    (h : Carries c rs ts xs) (he : ∀ r ∈ rs, valOf c' r = valOf c r) : Carries c' rs ts xs := by
  induction h with
  | nil => exact .nil
  | cons hx _ ih =>
    obtain ⟨hr, hrs⟩ := List.forall_mem_cons.mp he
    exact .cons (by rw [hr]; exact hx) (ih hrs)

/-! ## places -/

/-- different registers for a list of types, none of them pinned -/
structure Placed (ints : List RegId) (locs : List RegLoc) (ts : List Ty) : Prop where
  file : locs.map RegLoc.file = ts.map Ty.regClass
  nodup : (locs.map (AnyReg.of ints)).Nodup
  free : ∀ r ∈ pinned, AnyReg.gpr r ∉ locs.map (AnyReg.of ints)

theorem Placed.cons_iff {ints : List RegId} {loc : RegLoc} {locs : List RegLoc} {t : Ty}
    {ts : List Ty} (h : Placed ints (loc :: locs) (t :: ts)) :
    Placed ints locs ts ∧ loc.file = t.regClass ∧ AnyReg.of ints loc ∉ locs.map (AnyReg.of ints) ∧
      ∀ r ∈ pinned, AnyReg.of ints loc ≠ .gpr r := by
  obtain ⟨hf, hfs⟩ := List.cons.inj h.file
  obtain ⟨hn, hns⟩ := List.nodup_cons.mp h.nodup
  refine ⟨⟨hfs, hns, fun r hr hm => h.free r hr (List.mem_cons_of_mem _ hm)⟩, hf, hn, ?_⟩
  rintro r hr e
  exact h.free r hr (e ▸ List.mem_cons_self)

/-- **What is given out are different registers**, if the list of registers is long enough and has
none twice. -/
theorem placed_of_passing {lim : RegLimits} {ints : List RegId} (hp : lim.Proper)
    (hi : lim.ints = ints.length) (hf : lim.floats ≤ 256) (hn : ints.Nodup)
    (hfree : ∀ r ∈ pinned, r ∉ ints) {ts : List Ty} {locs : List RegLoc}
    (h : passing lim ts = .ok locs) : Placed ints locs ts := by
  obtain ⟨hnd, hfile, -⟩ := passingFrom_nodup h
  have hlt := passing_lt (fun c => (hp c).1) h
  -- a place of the integer file has its register in the list
  have hint : ∀ loc ∈ locs, loc.file = .int → loc.index < ints.length := by
    intro loc hm e
    have := hlt loc hm
    rw [e] at this
    have hl : lim.limit .int = ints.length := hi
    omega
  have hfloat : ∀ loc ∈ locs, loc.file = .float → loc.index < 256 := by
    intro loc hm e
    have := hlt loc hm
    rw [e] at this
    have hl : lim.limit .float ≤ 256 := hf
    omega
  refine ⟨hfile, hnd.map_on ?_, ?_⟩
  · rintro ⟨fa, a⟩ ha ⟨fb, b⟩ hb e
    cases fa with
    | int =>
      cases fb with
      | int =>
        have la : a < ints.length := hint _ ha rfl
        have lb : b < ints.length := hint _ hb rfl
        have e' : ints.getD a rax = ints.getD b rax := by injection e
        rw [List.getD_eq_getElem _ _ la, List.getD_eq_getElem _ _ lb] at e'
        rw [(List.Nodup.getElem_inj_iff hn).mp e']
      | float => cases e
    | float =>
      cases fb with
      | int => cases e
      | float =>
        have la : a < 256 := hfloat _ ha rfl
        have lb : b < 256 := hfloat _ hb rfl
        have e' : UInt8.ofNat a = UInt8.ofNat b := by injection e
        have e'' := congrArg UInt8.toNat e'
        rw [UInt8.toNat_ofNat', UInt8.toNat_ofNat', Nat.mod_eq_of_lt la, Nat.mod_eq_of_lt lb] at e''
        rw [e'']
  · intro r hr hm
    obtain ⟨⟨file, n⟩, hloc, e⟩ := List.mem_map.mp hm
    cases file with
    | int =>
      have hl : n < ints.length := hint _ hloc rfl
      have e' : ints.getD n rax = r := by injection e
      rw [List.getD_eq_getElem _ _ hl] at e'
      exact hfree r hr (e' ▸ List.getElem_mem hl)
    | float => cases e

theorem placed_params {ts : List Ty} {locs : List RegLoc} (h : passing paramLimits ts = .ok locs) :
    Placed intArgs locs ts :=
  placed_of_passing proper_params rfl (by decide) (by decide) (by decide) h

theorem placed_results {ts : List Ty} {locs : List RegLoc}
    (h : passing resultLimits ts = .ok locs) : Placed intResults locs ts :=
  placed_of_passing proper_results rfl (by decide) (by decide) (by decide) h

/-! ## loading and storing lists -/

theorem isInt_of_regClass {t : Ty} (h : RegClass.int = t.regClass) : t.isInt = true := by
  unfold Ty.regClass at h
  split at h
  · assumption
  · cases h

theorem keep_homeTy {t : Ty} (h : RegClass.float = t.regClass) (x : Val) :
    Val.keep (homeTy t) x = Val.keep t x := by
  cases t <;> first | rfl | cases h

theorem Leads.keeps {E : Env} {c : Cpu} {i : Instr} {m : Memory}
    (hi : i.perform E c = some (c.setMem m, [])) {P : Cpu → Prop}
    (h : Leads E c [i] [] P) : Leads E c [i] [] fun c' => P c' ∧ ∀ r, valOf c' r = valOf c r := by
  obtain ⟨c', hc, hP⟩ := h
  refine ⟨c', hc, hP, ?_⟩
  rw [performAll, hi] at hc
  cases hc
  rintro (r | x) <;> rfl

section
variable {K : Call} {A : ValueNo → Prop} {st : State} {c : Cpu} {v : ValueNo} {t : Ty}
variable {L : List RegLoc} {ints : List RegId} {loc : RegLoc}

theorem Sim.spill (hK : K.Ok) (h : Sim K A st c) (hd : K.fn.values[v]? = some t)
    (hf : loc.file = t.regClass) (hfree : ∀ r ∈ pinned, AnyReg.of ints loc ≠ .gpr r) {x : Val}
    (hx : Val.keep t (valOf c (AnyReg.of ints loc)) = x) :
    Leads K.env c ((K.ctx L).spill ints v loc) [] fun c' =>
      Sim K (fun u => u = v ∨ A u) (st.set v x) c' ∧
        ∀ r, r ≠ AnyReg.of ints loc → valOf c' r = valOf c r := by
  obtain ⟨file, n⟩ := loc
  have hty : (K.ctx L).fn.typeOf v = t := Func.typeOf_eq hd
  cases file with
  | int =>
    have ht := isInt_of_regClass hf
    obtain ⟨hs, -⟩ := scalar_of_isInt ht
    have e : (K.ctx L).spill ints v ⟨.int, n⟩ =
        normalize (ints.getD n rax) t ++ [(K.ctx L).storeInt v (ints.getD n rax)] := by
      rw [Ctx.spill, hty]
    have hr : ints.getD n rax ∉ pinned := fun hm => hfree _ hm rfl
    have hx' : Val.keep t ⟨c.gpr (ints.getD n rax), 0⟩ = x := hx
    rw [e]
    refine (normalize_leads K.env c _ ht).append ?_
    rintro c1 rfl
    rw [hx']
    have hfill : Fills t ((c.setGpr (ints.getD n rax) x.lo).gpr (ints.getD n rax)) x := by
      rw [Cpu.gpr_setGpr, if_pos rfl]
      exact Fills.of_keep hs (by rw [← hx', keep_keep])
    refine (Leads.keeps rfl ((h.setGpr hr x.lo).storeInt hK hd hs hfill)).mono ?_
    rintro c2 ⟨h2, hk⟩
    refine ⟨h2, fun r hne => (hk r).trans ?_⟩
    cases r with
    | gpr r => exact congrArg (Val.mk · 0) (if_neg fun e => hne (congrArg AnyReg.gpr e))
    | xmm x => rfl
  | float =>
    have e : (K.ctx L).spill ints v ⟨.float, n⟩ = [(K.ctx L).storeFloat t v (UInt8.ofNat n)] := by
      rw [Ctx.spill, hty]
    have hx' : Val.keep t (c.xmm (UInt8.ofNat n)) = x := hx
    rw [e]
    have hst := h.storeFloat (L := L) hK hd (r := UInt8.ofNat n) (x := x)
      (by rw [keep_homeTy hf, hx']) (by rw [← hx', keep_keep])
    refine (Leads.keeps rfl hst).mono ?_
    rintro c2 ⟨h2, hk⟩
    exact ⟨h2, fun r _ => hk r⟩

/-- **Values that arrived in registers go to their homes.** -/
theorem Sim.spillAll (hK : K.Ok) (h : Sim K A st c) {vs : List ValueNo} {ts : List Ty}
    {xs : List Val} {locs : List RegLoc} (hd : K.fn.HasTypes vs ts) (hp : Placed ints locs ts)
    (hx : Carries c (locs.map (AnyReg.of ints)) ts xs) :
    Leads K.env c ((vs.zip locs).flatMap fun (v, loc) => (K.ctx L).spill ints v loc) []
      (Sim K (fun u => u ∈ vs ∨ A u) (st.setAll vs xs)) := by
  induction vs generalizing A st c ts xs locs with
  | nil => exact .nil (h.mono fun v hv => hv.resolve_left (List.not_mem_nil))
  | cons v vs ih =>
    cases ts with
    | nil => cases hd
    | cons t ts =>
      obtain ⟨hv, hvs⟩ := Func.HasTypes.cons_iff.mp hd
      cases locs with
      | nil => cases hp.file
      | cons loc locs =>
        obtain ⟨hps, hfile, hne, hfree⟩ := hp.cons_iff
        cases hx with
        | cons hx hxs =>
          refine (h.spill hK hv hfile hfree hx).append ?_
          rintro c1 ⟨h1, hkeep⟩
          have hxs' : Carries c1 (locs.map (AnyReg.of ints)) ts _ :=
            hxs.congr fun r hr => hkeep r fun e => hne (e ▸ hr)
          refine (ih h1 hvs hps hxs').mono fun c2 h2 => h2.mono ?_
          intro u hu
          rcases hu with hu | hu
          · rcases List.mem_cons.mp hu with rfl | hu
            · exact .inr (.inl rfl)
            · exact .inl hu
          · exact .inr (.inr hu)

theorem Sim.unspill (hK : K.Ok) (h : Sim K A st c) (hA : A v) (hv : K.fn.values[v]? = some t)
    (hf : loc.file = t.regClass) (hfree : ∀ r ∈ pinned, AnyReg.of ints loc ≠ .gpr r) :
    ∃ c', ((K.ctx L).unspill ints t v loc).perform K.env c = some (c', []) ∧ Sim K A st c' ∧
      Val.keep t (valOf c' (AnyReg.of ints loc)) = st.get v ∧
      ∀ r, r ≠ AnyReg.of ints loc → valOf c' r = valOf c r := by
  obtain ⟨file, n⟩ := loc
  cases file with
  | int =>
    obtain ⟨hs, -⟩ := scalar_of_isInt (isInt_of_regClass hf)
    obtain ⟨w, hw, hp⟩ := h.loadInt (L := L) hK hA hv hs (ints.getD n rax)
    refine ⟨_, hp, h.setGpr (fun hm => hfree _ hm rfl) w, ?_, ?_⟩
    · show Val.keep t ⟨(c.setGpr _ w).gpr (ints.getD n rax), 0⟩ = _
      rw [Cpu.gpr_setGpr, if_pos rfl]
      exact hw.keep
    · rintro (r | x) hne
      · exact congrArg (Val.mk · 0) (if_neg fun e => hne (congrArg AnyReg.gpr e))
      · rfl
  | float =>
    refine ⟨_, h.loadFloat (L := L) hK hA hv (UInt8.ofNat n), h.setXmm _ _, ?_, ?_⟩
    · show Val.keep t ((c.setXmm _ (st.get v)).xmm (UInt8.ofNat n)) = _
      rw [Cpu.xmm_setXmm, if_pos rfl]
      exact (h.homes v t hA hv).2
    · rintro (r | x) hne
      · rfl
      · exact if_neg fun e => hne (congrArg AnyReg.xmm e)

/-- **Values go to the registers they are passed in.** -/
theorem Sim.unspillAll (hK : K.Ok) (h : Sim K A st c) {vs : List ValueNo} {ts : List Ty}
    {locs : List RegLoc} (hA : ∀ v ∈ vs, A v) (hd : K.fn.HasTypes vs ts)
    (hp : Placed ints locs ts) :
    Leads K.env c ((vs.zip (locs.zip ts)).map fun (v, loc, t) => (K.ctx L).unspill ints t v loc) []
      fun c' => Sim K A st c' ∧ Carries c' (locs.map (AnyReg.of ints)) ts (st.getAll vs) ∧
        ∀ r ∉ locs.map (AnyReg.of ints), valOf c' r = valOf c r := by
  induction vs generalizing c ts locs with
  | nil =>
    cases ts with
    | nil =>
      cases locs with
      | nil => exact .nil ⟨h, .nil, fun _ _ => rfl⟩
      | cons loc locs => cases hp.file
    | cons t ts => cases hd
  | cons v vs ih =>
    cases ts with
    | nil => cases hd
    | cons t ts =>
      obtain ⟨hv, hvs⟩ := Func.HasTypes.cons_iff.mp hd
      obtain ⟨hAv, hAs⟩ := List.forall_mem_cons.mp hA
      cases locs with
      | nil => cases hp.file
      | cons loc locs =>
        obtain ⟨hps, hfile, hne, hfree⟩ := hp.cons_iff
        obtain ⟨c1, hp1, h1, hx, hkeep⟩ := h.unspill (L := L) hK hAv hv hfile hfree
        refine .quiet hp1 ((ih h1 hAs hvs hps).mono ?_)
        rintro c2 ⟨h2, hcar, hkeep2⟩
        refine ⟨h2, .cons ?_ hcar, ?_⟩
        · rw [hkeep2 _ hne]
          exact hx
        · intro r hr
          obtain ⟨hr1, hr2⟩ := not_or.mp (mt List.mem_cons.mpr hr)
          rw [hkeep2 r hr2, hkeep r hr1]

end

end TreeJit.Compile.X64
