import TreeJit.Proofs.SSA.Layout

/-!
# The parts of a frame

The homes of the values, the stack slots and the transfer area are the parts of a frame.  Each has a
size and an alignment of its own (`Func.partSize`, `Func.partAlign`).  In the exact layout they lie
apart, aligned and between the base and the size, from whatever base it starts
(`Func.layoutFrom_apart`, `Func.layoutFrom_within`, `Func.layoutFrom_aligned`); as long as the exact
size is a 32-bit offset, so they do in the frame itself (`Func.frame_parts_apart`).
-/

namespace TreeJit.SSA

/-- what has bytes of its own in a frame -/
inductive Part where
  | home (v : ValueNo)
  | slot (s : Nat)
  | transfer
  deriving DecidableEq

def Layout.start (L : Layout) : Part → Nat
  | .home v => L.home v
  | .slot s => L.slot s
  | .transfer => L.transfer

def Frame.start (fr : Frame) : Part → Int32
  | .home v => fr.home v
  | .slot s => fr.slot s
  | .transfer => fr.transfer

namespace Func

def HasPart (f : Func) : Part → Prop
  | .home v => v < f.values.size
  | .slot s => s < f.slots.size
  | .transfer => True

/-- the bytes of a part: a home holds its value, a slot is as large as it was asked to be, and the
transfer area takes 16 bytes for each argument of the branch with the most -/
def partSize (f : Func) : Part → Nat
  | .home v => homeSize (f.typeOf v)
  | .slot s => (f.slots[s]?.elim 0 Slot.size).toNat
  | .transfer => 16 * f.maxBranchArgs

def partAlign (f : Func) : Part → Nat
  | .home v => if (f.typeOf v).isVector then 16 else 1
  | .slot s => max 8 (f.slots[s]?.elim 0 Slot.align).toNat
  | .transfer => 16

end Func

/-! ## alignment in the exact layout -/

theorem exactValues_aligned {off : Nat} {ts : List Ty} {i : Nat} {h : Nat} {t : Ty}
    (hi : (exactValues off ts).1[i]? = some h) (ht : ts[i]? = some t) (hv : t.isVector = true) :
    16 ∣ h := by
  induction ts generalizing off i with
  | nil => cases ht
  | cons u ts ih =>
    cases i with
    | zero =>
      cases ht
      cases hi
      rw [if_pos hv]
      exact Nat.dvd_of_mod_eq_zero (roundUp_mod off 16)
    | succ i => exact ih hi ht

theorem exactSlots_aligned {off : Nat} {ss : List Slot} {i : Nat} {h : Nat} {s : Slot}
    (hi : (exactSlots off ss).1[i]? = some h) (hs : ss[i]? = some s)
    (ha : s.align ∈ Body.slotAligns) : max 8 s.align.toNat ∣ h := by
  induction ss generalizing off i with
  | nil => cases hs
  | cons u ss ih =>
    cases i with
    | zero =>
      cases hs
      cases hi
      have e : max 8 s.align.toNat = if s.align = 16 then 16 else 8 := by
        simp only [Body.slotAligns, List.mem_cons, List.not_mem_nil, or_false] at ha
        rcases ha with e | e | e | e | e <;> rw [e] <;> rfl
      rw [e]
      exact Nat.dvd_of_mod_eq_zero (roundUp_mod off _)
    | succ i => exact ih hi hs

namespace Func
variable {f : Func}

theorem typeOf_values {v : ValueNo} (hv : v < f.values.size) :
    f.values[v]? = some (f.typeOf v) := by
  rw [Array.getElem?_eq_getElem hv, typeOf_eq (Array.getElem?_eq_getElem hv)]

theorem slots_self {s : Nat} (hs : s < f.slots.size) : f.slots[s]? = some f.slots[s] :=
  Array.getElem?_eq_getElem hs

theorem partSize_slot {s : Nat} {d : Slot} (hs : f.slots[s]? = some d) :
    f.partSize (.slot s) = d.size.toNat := by
  rw [partSize, hs, Option.elim_some]

/-! ## the parts of the exact layout -/

section
variable (base : Nat) {p q : Part}

theorem layoutFrom_bounds (hp : f.HasPart p) :
    match p with
    | .home _ => base ≤ (f.layoutFrom base).start p ∧
        (f.layoutFrom base).start p + f.partSize p ≤ (f.layoutFrom base).mid
    | .slot _ => (f.layoutFrom base).mid ≤ (f.layoutFrom base).start p ∧
        (f.layoutFrom base).start p + f.partSize p ≤ (f.layoutFrom base).transfer
    | .transfer => (f.layoutFrom base).start p = (f.layoutFrom base).transfer ∧
        (f.layoutFrom base).start p + f.partSize p ≤ (f.layoutFrom base).size := by
  cases p with
  | home v => exact homeFrom_within base (typeOf_values hp)
  | slot s =>
    have hs := slots_self hp
    have h := slotFrom_within base hs
    rw [partSize_slot hs]
    exact ⟨h.1, Nat.le_trans h.2 (f.layoutFrom_stop base)⟩
  | transfer => exact ⟨rfl, f.layoutFrom_transfer base⟩

theorem layoutFrom_within (hp : f.HasPart p) :
    base ≤ (f.layoutFrom base).start p ∧
      (f.layoutFrom base).start p + f.partSize p ≤ (f.layoutFrom base).size := by
  have h0 := f.layoutFrom_base base
  have h1 := f.layoutFrom_mid base
  have h2 := f.layoutFrom_stop base
  have h3 := f.layoutFrom_transfer base
  have hb := layoutFrom_bounds base hp
  cases p <;> simp only at hb <;> omega

theorem layoutFrom_apart (hp : f.HasPart p) (hq : f.HasPart q) (hne : p ≠ q) :
    (f.layoutFrom base).start p + f.partSize p ≤ (f.layoutFrom base).start q ∨
      (f.layoutFrom base).start q + f.partSize q ≤ (f.layoutFrom base).start p := by
  have h1 := f.layoutFrom_mid base
  have h2 := f.layoutFrom_stop base
  have bp := layoutFrom_bounds base hp
  have bq := layoutFrom_bounds base hq
  cases p with
  | home u =>
    cases q with
    | home v => exact homeFrom_apart base (typeOf_values hp) (typeOf_values hq) (hne <| congrArg _ ·)
    | slot s => exact .inl (Nat.le_trans bp.2 bq.1)
    | transfer => exact .inl (by simp only at bp bq; omega)
  | slot r =>
    cases q with
    | home v => exact .inr (Nat.le_trans bq.2 bp.1)
    | slot s =>
      have hr := slots_self hp
      have hs := slots_self hq
      rw [partSize_slot hr, partSize_slot hs]
      exact slotFrom_apart base hr hs (hne <| congrArg _ ·)
    | transfer => exact .inl (by simp only at bp bq; omega)
  | transfer =>
    cases q with
    | home v => exact .inr (by simp only at bp bq; omega)
    | slot s => exact .inr (by simp only at bp bq; omega)
    | transfer => exact absurd rfl hne

theorem layoutFrom_aligned (hs : ∀ s ∈ f.slots.toList, s.align ∈ Body.slotAligns)
    (hp : f.HasPart p) : f.partAlign p ∣ (f.layoutFrom base).start p := by
  cases p with
  | home v =>
    show (if (f.typeOf v).isVector then 16 else 1) ∣ _
    split
    · rename_i ht
      exact exactValues_aligned (homes_get hp base) (values_get (typeOf_values hp)) ht
    · exact Nat.one_dvd _
  | slot s =>
    have hd := slots_self hp
    have hd' : f.slots.toList[s]? = some f.slots[s] := by simpa using hd
    rw [partAlign, hd, Option.elim_some]
    exact exactSlots_aligned (slots_get hp base) hd' (hs _ (List.mem_of_getElem? hd'))
  | transfer => exact Nat.dvd_of_mod_eq_zero (roundUp_mod _ 16)

/-! ## the parts of the frame -/

theorem WellFormed.start_eq (hw : f.WellFormed) (hp : f.HasPart p) :
    (f.frame (Int32.ofNat base)).start p = Int32.ofNat ((f.layoutFrom base).start p) := by
  rw [hw.frameFrom_eq base]
  cases p with
  | home v =>
    have hg := homes_get hp base
    simp only [Frame.start, Frame.home, Layout.start]
    simp [Array.getD_eq_getD_getElem?, hg]
  | slot s =>
    have hg := slots_get hp base
    simp only [Frame.start, Frame.slot, Layout.start]
    simp [Array.getD_eq_getD_getElem?, hg]
  | transfer => rfl

theorem WellFormed.toInt_start (hw : f.WellFormed) (hfit : (f.layoutFrom base).size < 2 ^ 31)
    (hp : f.HasPart p) :
    ((f.frame (Int32.ofNat base)).start p).toInt = (f.layoutFrom base).start p := by
  have h := (layoutFrom_within base hp).2
  rw [hw.start_eq base hp, Int32.toInt_ofNat_of_lt (by omega)]

theorem WellFormed.toInt_size (hw : f.WellFormed) (hfit : (f.layoutFrom base).size < 2 ^ 31) :
    (f.frame (Int32.ofNat base)).size.toInt = (f.layoutFrom base).size := by
  rw [hw.frameFrom_eq base, Int32.toInt_ofNat_of_lt hfit]

end

/-- **The parts of a frame share no memory.**  Whatever the operations were that wrote a function,
and from whatever base its frame starts: as long as the exact layout ends at a 32-bit offset, the
parts lie apart, aligned and between the base and the size, the size is a multiple of 16, and the
transfer area has 16 bytes for each argument of every branch. -/
theorem frame_parts_apart {name : String} {sig : Signature} {as : List Action} {f : Func}
    (hf : ((Draft.new name sig).perform as).finish.2 = .ok f) {base : Int32} (hb : 0 ≤ base)
    (hfit : (f.layoutFrom base.toNatClampNeg).size < 2 ^ 31) :
    let fr := f.frame base
    fr.values.size = f.values.size ∧ fr.slots.size = f.slots.size ∧
    (∀ p q, f.HasPart p → f.HasPart q → p ≠ q →
      (fr.start p).toInt + f.partSize p ≤ (fr.start q).toInt ∨
        (fr.start q).toInt + f.partSize q ≤ (fr.start p).toInt) ∧
    (∀ p, f.HasPart p → base.toInt ≤ (fr.start p).toInt ∧
      (fr.start p).toInt + f.partSize p ≤ fr.size.toInt ∧
      (f.partAlign p : Int) ∣ (fr.start p).toInt) ∧
    (16 : Int) ∣ fr.size.toInt ∧
    ∀ s ∈ f.steps, ∀ t ∈ s.inst.targets, 16 * t.args.length ≤ f.partSize .transfer := by
  have hw := (Draft.sound_of_finish hf).2.2
  have hn : base.toInt = base.toNatClampNeg := by
    rw [← base.toNat_toInt, Int.toNat_of_nonneg (by simpa using Int32.le_iff_toInt_le.mp hb)]
  intro fr
  have hfr : fr = f.frame (Int32.ofNat base.toNatClampNeg) := by
    rw [Int32.ofNat_toNatClampNeg base hb]
  have hstart {p : Part} (hp : f.HasPart p) := hw.toInt_start _ hfit hp
  have hsize := hw.toInt_size _ hfit
  rw [← hfr] at hsize
  simp only [← hfr] at hstart
  refine ⟨?_, ?_, ?_, ?_, ?_, ?_⟩
  · simp [hfr, hw.frameFrom_eq, layoutFrom, length_exactValues]
  · simp [hfr, hw.frameFrom_eq, layoutFrom, length_exactSlots]
  · intro p q hp hq hne
    rw [hstart hp, hstart hq]
    have := layoutFrom_apart base.toNatClampNeg hp hq hne
    omega
  · intro p hp
    have h := layoutFrom_within base.toNatClampNeg hp
    have ha := layoutFrom_aligned base.toNatClampNeg (fun s hs => (hw.slots s hs).2) hp
    rw [hstart hp, hsize, hn]
    exact ⟨by omega, by omega, by exact_mod_cast ha⟩
  · rw [hsize]
    exact_mod_cast Nat.dvd_of_mod_eq_zero (f.layoutFrom_size_mod base.toNatClampNeg)
  · intro s hs t ht
    obtain ⟨blk, hb, hs⟩ := List.mem_flatMap.mp hs
    obtain ⟨b, hb⟩ := List.getElem?_of_mem hb
    exact Nat.mul_le_mul_left 16 (args_le (by simpa using hb) hs ht)

/-- a vector that goes through a slot and, beside a scalar, through a branch; its values, slots and
arguments leave gaps between them -/
def detour : List Action :=
  [.createBlock, .appendFunctionParams 0, .createBlock, .appendParam 1 .f64x2, .appendParam 1 .f64,
    .switchTo 0, .splat .f64x2 0, .createSlot 20 16, .createSlot 3 1, .stackStore 3 0 0,
    .stackLoad .f64x2 0 4, .jump 1 [4, 0], .switchTo 1, .extractLane 1 1, .ret [5], .sealAll]

/-- the frame of the detour from base 8, and that its parts lie apart -/
theorem frame_parts_apart_detour :
    let f := ((Draft.new "detour" ⟨[.f64], [.f64]⟩).perform detour).body.fn
    let fr := f.frame 8
    fr = { values := #[8, 16, 32, 48, 64, 80], slots := #[96, 120], transfer := 128, size := 160 } ∧
      ∀ p q, f.HasPart p → f.HasPart q → p ≠ q →
        (fr.start p).toInt + f.partSize p ≤ (fr.start q).toInt ∨
          (fr.start q).toInt + f.partSize q ≤ (fr.start p).toInt := by
  intro f fr
  have hf : ((Draft.new "detour" ⟨[.f64], [.f64]⟩).perform detour).finish.2 = .ok f :=
    Draft.finish_of_isOk (by decide +kernel)
  have hfr : fr =
      { values := #[8, 16, 32, 48, 64, 80], slots := #[96, 120], transfer := 128, size := 160 } := by
    decide +kernel
  have h := frame_parts_apart hf (show 0 ≤ (8 : Int32) by decide) (by decide +kernel)
  exact ⟨hfr, h.2.2.1⟩

end Func

end TreeJit.SSA
