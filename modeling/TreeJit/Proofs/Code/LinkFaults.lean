import TreeJit.Proofs.Code.Relocation

/-!
# What linking refuses

A program can be made of any code and any references.  Linking serves the references in order and
stops at the first one in which something is wrong (`SymbolRef.Sound`): its symbol has no address, it
is of no known kind, or its place is not inside the code.

The end of a place is computed in 64 bits.  A place that ends at 2^63 or behind it has an end below
zero there, so it passes the range test, and writing it breaks down (`LinkFault.overrun`).

* `SymbolRef.Refused`     what is found wrong with a reference;
* `link_of_sound`         if nothing is wrong, the code is told apart by the places only;
* `link_refused`          otherwise the first reference that is not sound is refused;
* `Program.link_judges`   both, and when linking breaks down.
-/

namespace TreeJit

/-- nothing is wrong with a reference into `n` bytes of code -/
structure SymbolRef.Sound (r : SymbolRef) (n : Nat) (resolve : String → Option UInt64) : Prop where
  resolved : (resolve r.name).isSome
  known : r.kind = .abs64 ∨ r.kind = .movWide64
  inside : 0 ≤ r.pos.toInt ∧ r.pos.toInt + r.kind.window ≤ n

/-- what is found wrong with a reference into `n` bytes of code -/
inductive SymbolRef.Refused (r : SymbolRef) (n : Nat) (resolve : String → Option UInt64) :
    LinkFault → Prop where
  | unresolved (h : resolve r.name = none) : r.Refused n resolve (.unresolved r.name)
  | unknownKind (hr : (resolve r.name).isSome) (hk : ¬ (r.kind = .abs64 ∨ r.kind = .movWide64)) :
    r.Refused n resolve (.unknownKind r.kind r.name)
  | outside (hr : (resolve r.name).isSome) (hk : r.kind = .abs64 ∨ r.kind = .movWide64)
    (hout : ¬ (0 ≤ r.pos.toInt ∧ r.pos.toInt + r.kind.window ≤ n))
    (hend : r.pos.toInt + r.kind.window < 2 ^ 63) : r.Refused n resolve (.outside r.name r.pos n)
  /-- the end of the place is no 64-bit position -/
  | overrun (hr : (resolve r.name).isSome) (hk : r.kind = .abs64 ∨ r.kind = .movWide64)
    (hend : 2 ^ 63 ≤ r.pos.toInt + r.kind.window) : r.Refused n resolve .overrun

/-! ## one reference -/

section
variable {r : SymbolRef} {code : List UInt8} {resolve : String → Option UInt64}

theorem SymbolRef.start_eq (h : 0 ≤ r.pos.toInt) : (r.start : Int) = r.pos.toInt := by
  have e : r.pos = Int64.ofNat r.start :=
    (Int64.ofNat_toNatClampNeg r.pos (Int64.le_iff_toInt_le.mpr h)).symm
  have hlt : r.pos.toInt < 2 ^ 63 := r.pos.toInt_lt
  have hstart : r.start = r.pos.toInt.toNat := rfl
  rw [hstart, Int.toNat_of_nonneg h]

theorem SymbolRef.window_le (r : SymbolRef) : r.kind.window ≤ 16 := by
  unfold RelocKind.window
  split <;> omega

theorem SymbolRef.Sound.write (h : r.Sound code.length resolve) (hlen : code.length < 2 ^ 63)
    (addr : UInt64) :
    r.write code addr = .ok (overwrite code r.start (r.patch code addr)) ∧
      r.start + r.kind.window ≤ code.length := by
  obtain ⟨h0, hin⟩ := h.inside
  have hstart := r.start_eq h0
  have hle : r.start + r.kind.window ≤ code.length := by omega
  exact ⟨r.write_eq addr h.known (Int64.le_iff_toInt_le.mpr h0) hle hlen, hle⟩

theorem SymbolRef.toInt_end (r : SymbolRef) :
    (r.pos + Int64.ofNat r.kind.window).toInt =
      if 2 ^ 63 ≤ r.pos.toInt + r.kind.window then r.pos.toInt + r.kind.window - 2 ^ 64
      else r.pos.toInt + r.kind.window := by
  have hw := r.window_le
  have hlt := r.pos.toInt_lt
  have hge := r.pos.le_toInt
  rw [Int64.toInt_add, Int64.toInt_ofNat_of_lt (by omega), Int.bmod_def]
  split_ifs <;> omega

/-- a place that leaves the code is refused, or passes the test and overruns the code -/
theorem SymbolRef.write_outside (hlen : code.length < 2 ^ 63)
    (hk : r.kind = .abs64 ∨ r.kind = .movWide64)
    (hout : ¬ (0 ≤ r.pos.toInt ∧ r.pos.toInt + r.kind.window ≤ code.length)) (addr : UInt64) :
    r.write code addr = .error (if 2 ^ 63 ≤ r.pos.toInt + r.kind.window then .overrun
      else .outside r.name r.pos code.length) := by
  have hend := r.toInt_end
  have hw := r.window_le
  have hneg : r.pos < 0 ↔ r.pos.toInt < 0 := Int64.lt_iff_toInt_lt
  have hpast : Int64.ofNat code.length < r.pos + Int64.ofNat r.kind.window ↔
      (code.length : Int) < (r.pos + Int64.ofNat r.kind.window).toInt := by
    rw [Int64.lt_iff_toInt_lt, Int64.toInt_ofNat_of_lt hlen]
  by_cases h : 2 ^ 63 ≤ r.pos.toInt + r.kind.window
  · -- the end is below zero, and the place starts behind the code
    rw [if_pos h] at hend ⊢
    have hlt := r.pos.toInt_lt
    have hstart := r.start_eq (by omega)
    have htest : (decide (r.pos < 0) ||
        decide (Int64.ofNat code.length < r.pos + Int64.ofNat r.kind.window)) = false := by
      rw [Bool.or_eq_false_iff, decide_eq_false_iff_not, decide_eq_false_iff_not, hneg, hpast]
      omega
    have hrun : code.length < r.start + r.kind.window := by omega
    unfold write
    rcases hk with e | e
    all_goals
      rw [e] at htest hrun ⊢
      simp only [htest]
      exact if_pos hrun
  · rw [if_neg h] at hend ⊢
    have htest : (decide (r.pos < 0) ||
        decide (Int64.ofNat code.length < r.pos + Int64.ofNat r.kind.window)) = true := by
      rw [Bool.or_eq_true_iff, decide_eq_true_iff, decide_eq_true_iff, hneg, hpast]
      omega
    unfold write
    rcases hk with e | e
    all_goals
      rw [e] at htest ⊢
      simp only [htest]
      rfl

theorem SymbolRef.refused_of_not_sound (hlen : code.length < 2 ^ 63)
    (h : ¬ r.Sound code.length resolve) :
    ∃ f, r.Refused code.length resolve f ∧
      ∀ rs, Program.link ⟨code, r :: rs⟩ resolve = .error f := by
  cases ha : resolve r.name with
  | none =>
    refine ⟨_, .unresolved ha, fun rs => ?_⟩
    simp only [Program.link, List.foldlM_cons, ha, bind, Except.bind]
  | some addr =>
    have hr : (resolve r.name).isSome := by rw [ha]; rfl
    suffices hw : ∃ f, r.Refused code.length resolve f ∧ r.write code addr = .error f by
      obtain ⟨f, hf, hw⟩ := hw
      refine ⟨f, hf, fun rs => ?_⟩
      simp only [Program.link, List.foldlM_cons, ha, hw, bind, Except.bind]
    by_cases hk : r.kind = .abs64 ∨ r.kind = .movWide64
    · have hout : ¬ (0 ≤ r.pos.toInt ∧ r.pos.toInt + r.kind.window ≤ code.length) :=
        fun hin => h ⟨hr, hk, hin⟩
      have hw := write_outside hlen hk hout addr
      by_cases hend : 2 ^ 63 ≤ r.pos.toInt + r.kind.window
      · rw [if_pos hend] at hw
        exact ⟨_, .overrun hr hk hend, hw⟩
      · rw [if_neg hend] at hw
        exact ⟨_, .outside hr hk hout (Int.not_le.mp hend), hw⟩
    · refine ⟨_, .unknownKind hr hk, ?_⟩
      unfold write
      split
      · rfl
      · rename_i hne
        cases e : r.kind with
        | unknown c => exact absurd e (hne c)
        | _ => exact absurd (by rw [e]; simp) hk

end

/-! ## linking -/

section
variable {code : List UInt8} {rs before after : List SymbolRef} {r : SymbolRef}
  {resolve : String → Option UInt64}

theorem link_of_sound (hlen : code.length < 2 ^ 63) (h : ∀ r ∈ rs, r.Sound code.length resolve) :
    ∃ code', Program.link ⟨code, rs⟩ resolve = .ok code' ∧ code'.length = code.length ∧
      ∀ k, (∀ r ∈ rs, ¬ r.Covers k) → code'[k]? = code[k]? := by
  induction rs generalizing code with
  | nil => exact ⟨code, rfl, rfl, fun _ _ => rfl⟩
  | cons r rs ih =>
    obtain ⟨hr, hrs⟩ := List.forall_mem_cons.mp h
    obtain ⟨addr, ha⟩ := Option.isSome_iff_exists.mp hr.resolved
    obtain ⟨hw, hin⟩ := hr.write hlen addr
    have hb := length_patch r code addr
    have hl : (overwrite code r.start (r.patch code addr)).length = code.length :=
      length_overwrite _ _ _ (by rwa [hb])
    obtain ⟨code', hlink, hlen', hout⟩ := ih (by rwa [hl]) (by rwa [hl])
    refine ⟨code', ?_, hlen'.trans hl, fun k hk => ?_⟩
    · unfold Program.link at hlink ⊢
      rw [List.foldlM_cons]
      simp only [ha, hw]
      exact hlink
    · obtain ⟨hk, hks⟩ := List.forall_mem_cons.mp hk
      rw [hout k hks]
      exact getElem?_overwrite_out (by rwa [hb]) (by rwa [hb])

/-- linking stops at the first reference that is not sound -/
theorem link_refused (hlen : code.length < 2 ^ 63)
    (hbefore : ∀ s ∈ before, s.Sound code.length resolve) (hr : ¬ r.Sound code.length resolve) :
    ∃ f, r.Refused code.length resolve f ∧
      Program.link ⟨code, before ++ r :: after⟩ resolve = .error f := by
  obtain ⟨code1, hlink, hl, -⟩ := link_of_sound hlen hbefore
  rw [← hl] at hlen hr ⊢
  obtain ⟨f, hf, hfail⟩ := SymbolRef.refused_of_not_sound hlen hr
  refine ⟨f, hf, ?_⟩
  have hrest := hfail after
  unfold Program.link at hlink hrest ⊢
  simp only at hlink hrest
  simp only [List.foldlM_append, hlink, bind, Except.bind]
  exact hrest

theorem sound_or_first (n : Nat) (resolve : String → Option UInt64) (rs : List SymbolRef) :
    (∀ r ∈ rs, r.Sound n resolve) ∨
    ∃ (before : List SymbolRef) (r : SymbolRef) (after : List SymbolRef),
      rs = before ++ r :: after ∧ (∀ s ∈ before, s.Sound n resolve) ∧ ¬ r.Sound n resolve := by
  induction rs with
  | nil => exact .inl nofun
  | cons r rs ih =>
    by_cases hr : r.Sound n resolve
    · rcases ih with h | ⟨before, s, after, rfl, hbefore, hs⟩
      · exact .inl (List.forall_mem_cons.mpr ⟨hr, h⟩)
      · exact .inr ⟨r :: before, s, after, rfl, List.forall_mem_cons.mpr ⟨hr, hbefore⟩, hs⟩
    · exact .inr ⟨[], r, rs, rfl, nofun, hr⟩

end

/-- **Linking refuses bad references**, and breaks down at those that end at 2^63 or behind it.  For
any code and any references: if every symbol has an address, every kind is known and every place is
inside the code, there is linked code, of the same length and with the same bytes outside the places.
Otherwise the first reference of which this does not hold is refused, for the reason that is found
first.  Linking breaks down exactly if that reference has a symbol and a known kind and its place ends
at a number that is no 64-bit position. -/
theorem Program.link_judges (p : Program) (resolve : String → Option UInt64)
    (hlen : p.code.length < 2 ^ 63) :
    ((∀ r ∈ p.refs, r.Sound p.code.length resolve) → ∃ code', p.link resolve = .ok code' ∧
      code'.length = p.code.length ∧
      ∀ k, (∀ r ∈ p.refs, ¬ r.Covers k) → code'[k]? = p.code[k]?) ∧
    (∀ before r after, p.refs = before ++ r :: after →
      (∀ s ∈ before, s.Sound p.code.length resolve) → ¬ r.Sound p.code.length resolve →
        ∃ f, r.Refused p.code.length resolve f ∧ p.link resolve = .error f) ∧
    (p.link resolve = .error .overrun ↔ ∃ (before : List SymbolRef) (r : SymbolRef)
      (after : List SymbolRef), p.refs = before ++ r :: after ∧
        (∀ s ∈ before, s.Sound p.code.length resolve) ∧ (resolve r.name).isSome ∧
        (r.kind = .abs64 ∨ r.kind = .movWide64) ∧ 2 ^ 63 ≤ r.pos.toInt + r.kind.window) := by
  obtain ⟨code, refs⟩ := p
  change code.length < 2 ^ 63 at hlen
  have hfirst : ∀ before r after, refs = before ++ r :: after →
      (∀ s ∈ before, s.Sound code.length resolve) → ¬ r.Sound code.length resolve →
        ∃ f, r.Refused code.length resolve f ∧ Program.link ⟨code, refs⟩ resolve = .error f := by
    rintro before r after rfl hbefore hr
    exact link_refused hlen hbefore hr
  refine ⟨link_of_sound hlen, hfirst, fun h => ?_, ?_⟩
  · rcases sound_or_first code.length resolve refs with hall | ⟨before, r, after, e, hbefore, hr⟩
    · obtain ⟨code', hlink, -⟩ := link_of_sound hlen hall
      rw [hlink] at h
      cases h
    · obtain ⟨f, hf, hlink⟩ := hfirst before r after e hbefore hr
      rw [hlink] at h
      cases h
      cases hf with
      | overrun hs hk hend => exact ⟨before, r, after, e, hbefore, hs, hk, hend⟩
  · rintro ⟨before, r, after, e, hbefore, hs, hk, hend⟩
    have hr : ¬ r.Sound code.length resolve := fun h => by
      have := h.inside.2
      omega
    obtain ⟨f, hf, hlink⟩ := hfirst before r after e hbefore hr
    cases hf with
    | unresolved hn =>
      rw [hn] at hs
      cases hs
    | unknownKind _ hn => exact absurd hk hn
    | outside _ _ _ hlt => omega
    | overrun => exact hlink

/-- eight bytes with two references: one fills them, the other one starts at the last position -/
def lastPosition : Program :=
  ⟨[0, 0, 0, 0, 0, 0, 0, 0], [⟨0, "near", .abs64⟩, ⟨Int64.maxValue, "far", .abs64⟩]⟩

/-- with both addresses linking breaks down at the second reference; without the first address it is
refused before that -/
theorem Program.link_judges_lastPosition :
    lastPosition.code.length < 2 ^ 63 ∧
      lastPosition.link (fun _ => some 1) = .error .overrun ∧
      lastPosition.link (fun name => if name = "far" then some 1 else none) =
        .error (.unresolved "near") ∧
      ∃ code', Program.link ⟨lastPosition.code, [⟨0, "near", .abs64⟩]⟩ (fun _ => some 1) = .ok code' ∧
        code'.length = 8 := by
  have hnear : ∀ resolve : String → Option UInt64, (resolve "near").isSome →
      SymbolRef.Sound ⟨0, "near", .abs64⟩ 8 resolve := fun _ h => ⟨h, .inl rfl, by decide⟩
  have hfar : (2 ^ 63 : Int) ≤ Int64.maxValue.toInt + (8 : Nat) := by decide
  refine ⟨by decide, ?_, ?_, ?_⟩
  · refine (link_judges lastPosition (fun _ => some 1) (by decide)).2.2.mpr
      ⟨[⟨0, "near", .abs64⟩], _, [], rfl, fun s hs => ?_, rfl, .inl rfl, hfar⟩
    obtain rfl := List.mem_singleton.mp hs
    exact hnear _ rfl
  · obtain ⟨f, hf, h⟩ := (link_judges lastPosition
      (fun name => if name = "far" then some 1 else none) (by decide)).2.1 [] _ _ rfl nofun
        fun hs => absurd hs.resolved (by decide)
    rw [h]
    cases hf with
    | unresolved => rfl
    | unknownKind hr | outside hr | overrun hr => exact absurd hr (by decide)
  · obtain ⟨code', h, hl, -⟩ := (link_judges ⟨lastPosition.code, [⟨0, "near", .abs64⟩]⟩
      (fun _ => some 1) (by decide)).1 fun r hr => by
        obtain rfl := List.mem_singleton.mp hr
        exact hnear _ rfl
    exact ⟨code', h, hl⟩

end TreeJit
