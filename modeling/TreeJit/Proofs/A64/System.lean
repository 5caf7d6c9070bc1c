import TreeJit.Proofs.A64.Performs

/-!
# The other forms of AArch64 words

Beside the forms that move data (`Form`) there are those that transfer control, keep the frame, and
speak to the system (`SysForm`).  A word has at most one form of either kind (`SysForm.apart`), so a
word packed from the fields of a form is taken for that form, and shows its fields (`decodeAny_pack`).
-/

namespace TreeJit.A64

/-- the forms that move no data between registers -/
inductive SysForm where
  | jump
  | jumpIf
  /-- branch if a register is zero, or if it is not -/
  | compareZero (negated wide : Bool)
  | call
  | ret
  | nop
  | pushFrame
  | popFrame
  | mrsCTR
  | dcCVAU
  | icIVAU
  | dsbISH
  | isb
  deriving DecidableEq

namespace SysForm

def pattern : SysForm → UInt32
  | jump => 0x14000000
  | jumpIf => 0x54000000
  | compareZero negated wide => (if negated then 0x35000000 else 0x34000000) ||| wideBit wide
  | call => 0xD63F0000
  | ret => 0xD65F03C0
  | nop => 0xD503201F
  | pushFrame => 0xA9BF7BFD
  | popFrame => 0xA8C17BFD
  | mrsCTR => 0xD53B0020
  | dcCVAU => 0xD50B7B20
  | icIVAU => 0xD50B7520
  | dsbISH => 0xD5033B9F
  | isb => 0xD5033FDF

def mask : SysForm → UInt32
  | jump => 0xFC000000
  | jumpIf => 0xFF000010
  | compareZero .. => 0xFF000000
  | call => 0xFFFFFC1F
  | mrsCTR | dcCVAU | icIVAU => 0xFFFFFFE0
  | ret | nop | pushFrame | popFrame | dsbISH | isb => 0xFFFFFFFF

def fields : SysForm → List (UInt32 × Nat)
  | jump => [(0, 26)]
  | jumpIf => [(0, 4), (5, 19)]
  | compareZero .. => [(0, 5), (5, 19)]
  | call => [(5, 5)]
  | mrsCTR | dcCVAU | icIVAU => [(0, 5)]
  | ret | nop | pushFrame | popFrame | dsbISH | isb => []

def all : List SysForm :=
  [jump, jumpIf, compareZero false false, compareZero false true, compareZero true false,
    compareZero true true, call, ret, nop, pushFrame, popFrame, mrsCTR, dcCVAU, icIVAU, dsbISH, isb]

theorem mem_all (s : SysForm) : s ∈ all := by
  cases s with
  | compareZero negated wide => cases negated <;> cases wide <;> decide
  | _ => decide

/-- two of these forms differ in a bit that is fixed in both, and so do one of them and a form that
moves data -/
theorem apart : ∀ s ∈ all,
    (∀ t ∈ all, s.pattern &&& t.mask = t.pattern &&& s.mask → s = t) ∧
      ∀ f ∈ Form.all, s.pattern &&& f.mask ≠ f.pattern &&& s.mask := by
  decide +kernel

theorem packs_fields : ∀ s ∈ all, Packs s.pattern s.fields ∧ s.pattern &&& s.mask = s.pattern ∧
    ∀ p ∈ s.fields, field s.mask p.1.toNat p.2 = 0 := by
  decide +kernel

end SysForm

/-! ## decoding -/

inductive AnyForm where
  | data (f : Form)
  | sys (s : SysForm)
  deriving DecidableEq

namespace AnyForm

def pattern : AnyForm → UInt32
  | data f => f.pattern
  | sys s => s.pattern

def fields : AnyForm → List (UInt32 × Nat)
  | data f => f.fields
  | sys s => s.fields

/-- the forms that words have -/
def Known : AnyForm → Prop
  | data f => f ∈ Form.all
  | sys _ => True

end AnyForm

def decodeAny (w : UInt32) : Option AnyForm :=
  match decode w with
  | some f => some (.data f)
  | none => (SysForm.all.find? fun s => w &&& s.mask == s.pattern).map .sys

theorem decodeAny_data {w : UInt32} {f : Form} (h : decode w = some f) : decodeAny w = some (.data f) := by
  rw [decodeAny, h]

/-- **A word with the fixed bits of one of these forms has that form.** -/
theorem decodeAny_sys {w : UInt32} {s : SysForm} (h : w &&& s.mask = s.pattern) :
    decodeAny w = some (.sys s) := by
  obtain ⟨hsys, hdata⟩ := SysForm.apart s s.mem_all
  -- masks of both forms see the same fixed bits
  have hboth : ∀ {p m : UInt32}, w &&& m = p → s.pattern &&& m = p &&& s.mask := by
    intro p m hp
    rw [← h, ← hp, UInt32.and_assoc, UInt32.and_assoc, UInt32.and_comm m]
  have hnone : decode w = none := by
    rw [decode, List.find?_eq_none]
    intro f hf hw
    exact hdata f hf (hboth (beq_iff_eq.mp hw))
  have hsome : SysForm.all.find? (fun t => w &&& t.mask == t.pattern) = some s := by
    cases hfind : SysForm.all.find? (fun t => w &&& t.mask == t.pattern) with
    | none => exact absurd (beq_iff_eq.mpr h) (List.find?_eq_none.mp hfind s s.mem_all)
    | some t =>
      have ht : w &&& t.mask = t.pattern := by simpa using List.find?_some hfind
      rw [hsys t t.mem_all (hboth ht)]
  simp only [decodeAny, hnone, hsome, Option.map_some]

/-- **A word packed from the fields of a form** has that form and shows the fields. -/
theorem decodeAny_pack {f : AnyForm} (hf : f.Known) {w : UInt32} {xs : List UInt32}
    (hx : List.Forall₂ (fun p x => x.toNat < 2 ^ p.2) f.fields xs) (hw : w = pack f.pattern f.fields xs) :
    decodeAny w = some f ∧
      List.Forall₂ (fun p x => field w p.1.toNat p.2 = x.toNat) f.fields xs := by
  rw [hw]
  cases f with
  | data f =>
    have ht := Form.takes_fields f hf
    exact ⟨decodeAny_data (decode_eq ht.1 (mask_pack ht hx)), (pack_spec ht.2.1 hx).1⟩
  | sys s =>
    obtain ⟨hpack, hfix, hfree⟩ := SysForm.packs_fields s s.mem_all
    obtain ⟨hfields, -, hmask⟩ := pack_spec hpack hx
    exact ⟨decodeAny_sys ((hmask _ hfree).trans hfix), hfields⟩

end TreeJit.A64
