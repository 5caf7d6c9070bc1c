import TreeJit.Proofs.A64.Core

/-!
# The cache routine maintains every line of its range

The words of `cacheSync`, run on a core, clean every data line that meets the range and drop every
instruction line that meets it, each of them once and in this order, with barriers behind both; then
they return, and have changed no register but `x2` to `x6` and the flags (`cacheSync_covers`).

A walk starts at the line of the first address, since the start is cut down to a multiple of the line
size (`toNat_cutDown`), and goes on by lines up to the end of the range.  Behind the range there has
to be room for one line of the largest size, so that the address of the next line does not wrap.

* `Runs.setup`     the size of lines and the first line;
* `Runs.turn`      one line of a walk;
* `Runs.lines`     the lines that are left, by induction on their number;
* `linesOf_range`  these are the lines that meet the range;
* `Runs.walk`      a whole walk.
-/

namespace TreeJit.A64

/-! ## lines -/

/-- the size of lines in bytes: four words or more, as four bits of the cache type register say -/
def lineSize (ctr : UInt64) (lsb : Nat) : Nat := 4 * 2 ^ (ctr.toNat / 2 ^ lsb % 16)

/-- the lines of `size` bytes that meet a range, each of them once -/
structure LinesOf (as : List UInt64) (size : Nat) (start stop : UInt64) : Prop where
  once : as.Nodup
  meets : ∀ a, a ∈ as ↔ size ∣ a.toNat ∧ a.toNat < stop.toNat ∧ start.toNat < a.toNat + size

def linesFrom (a : UInt64) (size : Nat) (k : Nat) : List UInt64 :=
  (List.range (k + 1)).map fun j => UInt64.ofNat (a.toNat + j * size)

theorem lineSize_eq (ctr : UInt64) (lsb : Nat) :
    ∃ k, 2 ≤ k ∧ k ≤ 17 ∧ lineSize ctr lsb = 2 ^ k := by
  have hlt := Nat.mod_lt (ctr.toNat / 2 ^ lsb) (show 0 < 16 by omega)
  refine ⟨ctr.toNat / 2 ^ lsb % 16 + 2, by omega, by omega, ?_⟩
  rw [lineSize, Nat.pow_add, Nat.mul_comm]

theorem lineSize_le (ctr : UInt64) (lsb : Nat) : 0 < lineSize ctr lsb ∧ lineSize ctr lsb ≤ 2 ^ 17 := by
  obtain ⟨k, -, hk, e⟩ := lineSize_eq ctr lsb
  rw [e]
  exact ⟨Nat.two_pow_pos k, Nat.pow_le_pow_right (by omega) hk⟩

theorem toNat_cutDown (x m : UInt64) {k : Nat} (hk : k < 64) (hm : m.toNat = 2 ^ k) :
    (x &&& ~~~(m - 1)).toNat = x.toNat - x.toNat % 2 ^ k := by
  have hpos : 0 < 2 ^ k := Nat.two_pow_pos k
  have hlt : 2 ^ k < 2 ^ 64 := Nat.pow_lt_pow_right (by omega) hk
  have hsub : (m - 1).toNat = 2 ^ k - 1 := by
    rw [UInt64.toNat_sub_of_le _ _ (UInt64.le_iff_toNat_le.mpr (by rw [hm]; exact hpos)), hm]
    rfl
  have hnot : (~~~(m - 1)).toNat = 2 ^ 64 - (2 ^ k - 1 + 1) := by
    rw [UInt64.toNat_not, hsub, UInt64.size]
    omega
  have hcut : x.toNat - x.toNat % 2 ^ k = 2 ^ k * (x.toNat / 2 ^ k) := by
    have := Nat.div_add_mod x.toNat (2 ^ k)
    omega
  rw [hcut]
  apply Nat.eq_of_testBit_eq
  intro i
  rw [UInt64.toNat_and, Nat.testBit_and, hnot, Nat.testBit_two_pow_sub_succ (by omega),
    Nat.testBit_two_pow_sub_one, Nat.testBit_two_pow_mul, Nat.testBit_div_two_pow]
  by_cases hi : k ≤ i
  · rw [decide_eq_true hi, decide_eq_false (Nat.not_lt.mpr hi), Nat.sub_add_cancel hi, Bool.not_false,
      Bool.and_true, Bool.true_and]
    by_cases h64 : i < 64
    · rw [decide_eq_true h64, Bool.and_true]
    · have hz : x.toNat.testBit i = false :=
        Nat.testBit_lt_two_pow (Nat.lt_of_lt_of_le x.toNat_lt
          (Nat.pow_le_pow_right (by omega) (Nat.not_lt.mp h64)))
      rw [hz, Bool.false_and]
  · rw [decide_eq_false hi, decide_eq_true (Nat.not_le.mp hi), Bool.not_true, Bool.and_false,
      Bool.and_false, Bool.false_and]

/-- **The lines of a walk** are those that meet the range: the first one starts at a multiple of the
size and holds the start, and the last one is the last that starts in front of the end. -/
theorem linesOf_range {a start stop : UInt64} {size k : Nat} (hsize : 0 < size)
    (ha : a.toNat = start.toNat - start.toNat % size) (hlast : a.toNat + k * size < stop.toNat)
    (hstop : stop.toNat ≤ a.toNat + (k + 1) * size) : LinesOf (linesFrom a size k) size start stop := by
  have hmod := Nat.mod_lt start.toNat hsize
  have hle := Nat.mod_le start.toNat size
  have hlt := stop.toNat_lt
  have hda : size ∣ a.toNat := by
    rw [ha]
    exact Nat.dvd_sub_mod start.toNat
  -- the addresses do not wrap
  have hval : ∀ j, j ≤ k → (UInt64.ofNat (a.toNat + j * size)).toNat = a.toNat + j * size := by
    intro j hj
    have := Nat.mul_le_mul_right size hj
    rw [UInt64.toNat_ofNat', Nat.mod_eq_of_lt (by omega)]
  refine ⟨?_, fun b => ⟨fun hb => ?_, fun ⟨hdvd, hbelow, habove⟩ => ?_⟩⟩
  · refine List.Nodup.map_on (fun i hi j hj e => ?_) List.nodup_range
    have e' := congrArg UInt64.toNat e
    rw [hval i (by simpa [Nat.lt_succ_iff] using hi), hval j (by simpa [Nat.lt_succ_iff] using hj)] at e'
    exact Nat.eq_of_mul_eq_mul_right hsize (Nat.add_left_cancel e')
  · obtain ⟨j, hj, rfl⟩ := List.mem_map.mp hb
    have hjk : j ≤ k := Nat.lt_succ_iff.mp (List.mem_range.mp hj)
    have := Nat.mul_le_mul_right size hjk
    rw [hval j hjk]
    exact ⟨Nat.dvd_add hda (Nat.dvd_mul_left size j), by omega, by omega⟩
  · obtain ⟨m, hm⟩ := hda
    obtain ⟨n, hn⟩ := hdvd
    have hmn : m ≤ n := by
      refine Nat.lt_succ_iff.mp (Nat.lt_of_mul_lt_mul_left (a := size) ?_)
      rw [Nat.mul_succ]
      omega
    have hnk : n - m ≤ k := by
      refine Nat.lt_succ_iff.mp (Nat.lt_of_mul_lt_mul_left (a := size) ?_)
      rw [Nat.mul_sub, ← hm, ← hn, Nat.mul_comm size]
      show _ < (k + 1) * size
      omega
    refine List.mem_map.mpr ⟨n - m, List.mem_range.mpr (by omega), ?_⟩
    apply UInt64.toNat_inj.mp
    rw [hval _ hnk, hm, hn, Nat.mul_comm (n - m), ← Nat.mul_add, Nat.add_sub_cancel' hmn]

/-! ## words -/

/-- the words of a walk; the first one takes the bits for the line size out of `x3`, and the fifth one
maintains the line at `x2` -/
def walkWords (extract maintain : UInt32) : List UInt32 :=
  [extract, 0x9AC420A4, 0xD1000486, 0x8A260002, maintain, 0x8B040042, 0xEB01005F, 0x54FFFFA3,
    0xD5033B9F]

def syncWords : List UInt32 :=
  [0xD53B0023, 0xD2800085] ++ walkWords 0xD3504C64 0xD50B7B22 ++ walkWords 0xD3400C64 0xD50B7522 ++
    [0xD5033FDF, 0xD65F03C0]

theorem assemble_cacheSync : assemble cacheSync = .ok ⟨syncWords.flatMap wordBytes, []⟩ := by
  rfl

/-! ## a walk -/

/-- nothing but the flags and some registers is changed -/
structure Spares (free : List Nat) (c c' : Cpu) : Prop where
  x : ∀ n, n ∉ free → c'.x n = c.x n
  sp : c'.sp = c.sp
  v : c'.v = c.v
  mem : c'.mem = c.mem

namespace Spares

variable {free more : List Nat} {c c' c'' : Cpu}

theorem trans (h : Spares free c c') (h' : Spares free c' c'') : Spares free c c'' :=
  ⟨fun n hn => (h'.x n hn).trans (h.x n hn), h'.sp.trans h.sp, h'.v.trans h.v, h'.mem.trans h.mem⟩

theorem mono (h : Spares free c c') (hsub : free ⊆ more) : Spares more c c' :=
  ⟨fun n hn => h.x n fun hf => hn (hsub hf), h.sp, h.v, h.mem⟩

theorem setX {n : Nat} (hn : n ∈ free) (y : UInt64) : Spares free c (c.setX n y) := by
  refine ⟨fun i hi => if_neg ?_, rfl, rfl, rfl⟩
  rintro rfl
  exact hi hn

theorem setFlags (f : Flags) : Spares free c (c.setFlags f) := ⟨fun _ _ => rfl, rfl, rfl, rfl⟩

end Spares

/-- a word that maintains the line at `x2` -/
def Maintains (ctr : UInt64) (w : UInt32) (act : UInt64 → Act) : Prop :=
  ∃ s, decodeAny w = some (.sys s) ∧ ∀ pos c, s.exec ctr w pos c = (.at (pos + 4) c, [act (c.x 2)])

/-- a word that takes four bits out of `x3` -/
def Extracts (E : Env) (w : UInt32) (lsb : Nat) : Prop :=
  ∀ c, run E [w] c = some (c.setX 4 (bitfield 64 (c.x 3) lsb (lsb + 3)), [])

/-- the branch of a loop goes back over three words -/
theorem branchBy_loop (pos : Nat) (c : Cpu) : branchBy 0x54FFFFA3 5 19 (pos + 12) c = .at pos c := by
  have hback : (BitVec.ofNat 19 (field 0x54FFFFA3 5 19)).toInt = -3 := by decide
  rw [branchBy, hback, if_neg (by omega)]
  congr
  omega

section
variable {E : Env} {ctr : UInt64} {code : List UInt8} {pos : Nat} {extract maintain : UInt32}
  {act : UInt64 → Act} {c : Cpu}

/-- **One line of a walk** is maintained; the walk goes back to its loop while the next line starts in
front of the end. -/
theorem Runs.turn (hm : Maintains ctr maintain act)
    (hcode : CodeAt code pos [maintain, 0x8B040042, 0xEB01005F, 0x54FFFFA3])
    (hwrap : (c.x 2).toNat + (c.x 4).toNat < 2 ^ 64) :
    ∃ c', Runs E ctr code (.at pos c) [act (c.x 2)]
        (.at (if (c.x 2).toNat + (c.x 4).toNat < (c.x 1).toNat then pos else pos + 16) c') ∧
      (c'.x 2).toNat = (c.x 2).toNat + (c.x 4).toNat ∧ Spares [2] c c' := by
  obtain ⟨s, hs, hexec⟩ := hm
  have hadd : (c.x 2 + c.x 4).toNat = (c.x 2).toNat + (c.x 4).toNat := by
    rw [UInt64.toNat_add, Nat.mod_eq_of_lt hwrap]
  have hmaintain : Runs E ctr code (.at pos c) (s.exec ctr maintain pos c).2
      (s.exec ctr maintain pos c).1 := .sys hcode.head hs
  rw [hexec] at hmaintain
  -- to the next line, and compare it to the end
  let c' := (c.setX 2 (c.x 2 + c.x 4)).setFlags (subFlags true (c.x 2 + c.x 4) (c.x 1))
  have hnext : Runs E ctr code (.at (pos + 4) c) [] (.at (pos + 12) c') :=
    .instrs [.reg3 .add (.x 2) (.x 2) (.x 4), .cmp (.x 2) (.x 1)] (CodeAt.left [0x54FFFFA3] hcode.tail)
    (by simpa using ⟨⟨0, _, rfl⟩, 0, _, rfl⟩) rfl
  have hback : Runs E ctr code (.at (pos + 12) c') (SysForm.jumpIf.exec ctr 0x54FFFFA3 (pos + 12) c').2
      (SysForm.jumpIf.exec ctr 0x54FFFFA3 (pos + 12) c').1 :=
    .sys hcode.tail.tail.tail.head (decodeAny_sys rfl)
  have hexec' : SysForm.jumpIf.exec ctr 0x54FFFFA3 (pos + 12) c' =
      (.at (if (c.x 2).toNat + (c.x 4).toNat < (c.x 1).toNat then pos else pos + 16) c', []) := by
    show (if !decide (c.x 1 ≤ c.x 2 + c.x 4) then branchBy 0x54FFFFA3 5 19 (pos + 12) c' else _, []) = _
    rw [branchBy_loop, ← hadd]
    by_cases h : c.x 1 ≤ c.x 2 + c.x 4
    · rw [decide_eq_true h, if_neg (Nat.not_lt.mpr (UInt64.le_iff_toNat_le.mp h))]
      rfl
    · rw [decide_eq_false h, if_pos (UInt64.lt_iff_toNat_lt.mp (UInt64.not_le.mp h))]
      rfl
  rw [hexec'] at hback
  exact ⟨c', hmaintain.trans (hnext.trans hback), hadd,
    (Spares.setX (List.mem_singleton.mpr rfl) _).trans (.setFlags _)⟩

theorem linesFrom_succ {a b : UInt64} {size : Nat} (h : b.toNat = a.toNat + size) (k : Nat) :
    linesFrom a size (k + 1) = a :: linesFrom b size k := by
  rw [linesFrom, List.range_succ_eq_map, List.map_cons, List.map_map, Nat.zero_mul, Nat.add_zero,
    UInt64.ofNat_toNat, linesFrom]
  congr 2
  funext j
  show UInt64.ofNat (a.toNat + (j + 1) * size) = _
  rw [h, Nat.succ_mul, Nat.add_comm (j * size), Nat.add_assoc]

/-- **The lines that are left** of a walk are maintained, one behind the other. -/
theorem Runs.lines (hm : Maintains ctr maintain act)
    (hcode : CodeAt code pos [maintain, 0x8B040042, 0xEB01005F, 0x54FFFFA3]) (k : Nat)
    (hlast : (c.x 2).toNat + k * (c.x 4).toNat < (c.x 1).toNat)
    (hstop : (c.x 1).toNat ≤ (c.x 2).toNat + (k + 1) * (c.x 4).toNat)
    (hroom : (c.x 1).toNat + (c.x 4).toNat ≤ 2 ^ 64) :
    ∃ c', Runs E ctr code (.at pos c) ((linesFrom (c.x 2) (c.x 4).toNat k).map act) (.at (pos + 16) c') ∧
      Spares [2] c c' := by
  induction k generalizing c with
  | zero =>
    obtain ⟨c', hrun, -, hspare⟩ := Runs.turn (E := E) (c := c) hm hcode (by omega)
    rw [if_neg (by omega)] at hrun
    refine ⟨c', ?_, hspare⟩
    rw [linesFrom]
    simpa using hrun
  | succ k ih =>
    rw [Nat.succ_mul] at hlast hstop
    obtain ⟨c1, hrun, h2, hspare⟩ := Runs.turn (E := E) (c := c) hm hcode (by omega)
    have h1 : c1.x 1 = c.x 1 := hspare.x 1 (by decide)
    have h4 : c1.x 4 = c.x 4 := hspare.x 4 (by decide)
    rw [if_pos (by omega)] at hrun
    obtain ⟨c', hrest, hspare'⟩ := ih (c := c1) (by rw [h1, h2, h4]; omega) (by rw [h1, h2, h4]; omega)
      (by rw [h1, h4]; exact hroom)
    rw [h4] at hrest
    rw [linesFrom_succ h2, List.map_cons]
    exact ⟨c', hrun.trans hrest, hspare.trans hspare'⟩

theorem toNat_lineSize (y : UInt64) (lsb : Nat) :
    ((4 : UInt64) <<< UInt64.ofNat ((bitfield 64 y lsb (lsb + 3)).toNat % 64)).toNat = lineSize y lsb := by
  have hlt := Nat.mod_lt (y.toNat / 2 ^ lsb) (show 0 < 16 by omega)
  have hbits : (bitfield 64 y lsb (lsb + 3)).toNat = y.toNat / 2 ^ lsb % 16 := by
    rw [bitfield, if_pos (Nat.le_add_right _ _), Nat.add_sub_cancel_left, UInt64.toNat_ofNat']
    exact Nat.mod_eq_of_lt (by omega)
  have hshift : (bitfield 64 y lsb (lsb + 3)).toNat % 64 % 2 ^ 64 % 64 = y.toNat / 2 ^ lsb % 16 := by
    omega
  rw [UInt64.toNat_shiftLeft, UInt64.toNat_ofNat', hshift, Nat.shiftLeft_eq]
  exact Nat.mod_eq_of_lt (Nat.lt_of_le_of_lt (lineSize_le y lsb).2 (by decide))

/-- in front of its loop a walk has the size of lines and its first line -/
theorem Runs.setup {lsb : Nat} (hx : Extracts E extract lsb)
    (hcode : CodeAt code pos [extract, 0x9AC420A4, 0xD1000486, 0x8A260002]) (h5 : c.x 5 = 4) :
    ∃ c', Runs E ctr code (.at pos c) [] (.at (pos + 16) c') ∧
      (c'.x 4).toNat = lineSize (c.x 3) lsb ∧
      (c'.x 2).toNat = (c.x 0).toNat - (c.x 0).toNat % lineSize (c.x 3) lsb ∧ Spares [2, 4, 6] c c' := by
  let c1 := c.setX 4 (bitfield 64 (c.x 3) lsb (lsb + 3))
  let size := c.x 5 <<< UInt64.ofNat ((bitfield 64 (c.x 3) lsb (lsb + 3)).toNat % 64)
  have hextract : Runs E ctr code (.at pos c) [] (.at (pos + 4) c1) :=
    .words (hcode.left [0x9AC420A4, 0xD1000486, 0x8A260002]) (hx c)
  have hrest : Runs E ctr code (.at (pos + 4) c1) [] (.at (pos + 16)
      (((c1.setX 4 size).setX 6 (size - 1)).setX 2 (c.x 0 &&& ~~~(size - 1)))) := .instrs
    [.reg3 .lslv (.x 4) (.x 5) (.x 4), .subImm (.x 6) (.x 4) 1 false, .reg3 .bic (.x 2) (.x 0) (.x 6)]
    hcode.tail
    (by simpa using ⟨⟨0, _, rfl⟩, ⟨0, _, rfl⟩, 0, _, rfl⟩) rfl
  have hsize : size.toNat = lineSize (c.x 3) lsb := by
    rw [← toNat_lineSize, ← h5]
  refine ⟨_, hextract.trans hrest, hsize, ?_, ?_⟩
  · obtain ⟨k, -, hk, e⟩ := lineSize_eq (c.x 3) lsb
    show (c.x 0 &&& ~~~(size - 1)).toNat = _
    rw [e, toNat_cutDown _ _ (by omega) (hsize.trans e)]
  · exact (((Spares.setX (by decide) _).trans (.setX (by decide) _)).trans
      (.setX (by decide) _)).trans (.setX (by decide) _)

/-- **A walk** maintains the lines that meet the range, each of them once, and waits. -/
theorem Runs.walk {lsb : Nat} (hx : Extracts E extract lsb) (hm : Maintains ctr maintain act)
    (hcode : CodeAt code pos (walkWords extract maintain)) (h3 : c.x 3 = ctr) (h5 : c.x 5 = 4)
    (hrange : c.x 0 < c.x 1) (hroom : (c.x 1).toNat + 2 ^ 17 ≤ 2 ^ 64) :
    ∃ c' as, Runs E ctr code (.at pos c) (as.map act ++ [.barrier]) (.at (pos + 36) c') ∧
      LinesOf as (lineSize ctr lsb) (c.x 0) (c.x 1) ∧ Spares [2, 4, 6] c c' := by
  obtain ⟨hpos, hle⟩ := lineSize_le ctr lsb
  obtain ⟨c1, hsetup, hsize, hfirst, hspare⟩ := Runs.setup hx
    (CodeAt.left [maintain, 0x8B040042, 0xEB01005F, 0x54FFFFA3, 0xD5033B9F] hcode) h5
  rw [h3] at hsize hfirst
  have h1 : c1.x 1 = c.x 1 := hspare.x 1 (by decide)
  have hlt := UInt64.lt_iff_toNat_lt.mp hrange
  -- the number of the last line that starts in front of the end
  have hdiv := Nat.div_add_mod ((c.x 1).toNat - 1 - (c1.x 2).toNat) (lineSize ctr lsb)
  have hmod := Nat.mod_lt ((c.x 1).toNat - 1 - (c1.x 2).toNat) hpos
  generalize hk : ((c.x 1).toNat - 1 - (c1.x 2).toNat) / lineSize ctr lsb = k at hdiv
  rw [Nat.mul_comm] at hdiv
  have hlast : (c1.x 2).toNat + k * lineSize ctr lsb < (c.x 1).toNat := by omega
  have hstop : (c.x 1).toNat ≤ (c1.x 2).toNat + (k + 1) * lineSize ctr lsb := by
    rw [Nat.succ_mul]
    omega
  have hloop : CodeAt code (pos + 16) ([maintain, 0x8B040042, 0xEB01005F, 0x54FFFFA3] ++ [0xD5033B9F]) :=
    CodeAt.right [extract, 0x9AC420A4, 0xD1000486, 0x8A260002] hcode
  obtain ⟨c2, hlines, hspare2⟩ := Runs.lines (E := E) (c := c1) hm (hloop.left _) k
    (by rw [hsize, h1]; exact hlast) (by rw [hsize, h1]; exact hstop) (by rw [hsize, h1]; omega)
  rw [hsize] at hlines
  have hwait : Runs E ctr code (.at (pos + 32) c2) [.barrier] (.at (pos + 36) c2) :=
    .sys (s := .dsbISH) (hloop.right _).head (decodeAny_sys rfl)
  exact ⟨c2, _, hsetup.trans (hlines.trans hwait), linesOf_range hpos hfirst hlast hstop,
    hspare.trans (hspare2.mono (by decide))⟩

end

/-! ## the routine -/

theorem extracts_data (E : Env) : Extracts E 0xD3504C64 16 := fun _ =>
  (run_one (f := .ubfm true) (by decide) rfl).trans rfl

theorem extracts_code (E : Env) : Extracts E 0xD3400C64 0 := fun _ =>
  (run_one (f := .ubfm true) (by decide) rfl).trans rfl

theorem maintains_data (ctr : UInt64) : Maintains ctr 0xD50B7B22 .clean :=
  ⟨.dcCVAU, decodeAny_sys rfl, fun _ _ => rfl⟩

theorem maintains_code (ctr : UInt64) : Maintains ctr 0xD50B7522 .drop :=
  ⟨.icIVAU, decodeAny_sys rfl, fun _ _ => rfl⟩

/-- **The routine covers its range.**  It returns, and what is seen of its run is that each data line
that meets the range is cleaned once, this is completed, each instruction line that meets the range is
dropped once, and this is completed before anything is fetched anew. -/
theorem cacheSync_covers : ∃ prog, assemble cacheSync = .ok prog ∧
    ∀ (E : Env) (ctr : UInt64) (c : Cpu), c.x 0 < c.x 1 → (c.x 1).toNat + 2 ^ 17 ≤ 2 ^ 64 →
      ∃ c' data insns,
        Runs E ctr prog.code (.at 0 c)
          (data.map .clean ++ .barrier :: insns.map .drop ++ [.barrier, .refetch]) (.returned c' (c.x 30)) ∧
        LinesOf data (lineSize ctr 16) (c.x 0) (c.x 1) ∧ LinesOf insns (lineSize ctr 0) (c.x 0) (c.x 1) ∧
        Spares [2, 3, 4, 5, 6] c c' := by
  refine ⟨_, assemble_cacheSync, fun E ctr c hrange hroom => ?_⟩
  have hcode := codeAt_flatMap syncWords
  have hwalks := (hcode.left _).left _
  -- the cache type register and the size of a word
  let c1 := (c.setX 3 ctr).setX 5 4
  have hctr : Runs E ctr (syncWords.flatMap wordBytes) (.at 0 c) [] (.at 4 (c.setX 3 ctr)) :=
    .sys (s := .mrsCTR) hcode.head (decodeAny_sys rfl)
  have hfour : Runs E ctr (syncWords.flatMap wordBytes) (.at 4 (c.setX 3 ctr)) [] (.at 8 c1) :=
    .instrs [.movImm (.x 5) 4] (hwalks.left _).tail (by simpa using ⟨0, _, rfl⟩) rfl
  obtain ⟨c2, data, hclean, hdata, hspare2⟩ := Runs.walk (c := c1)
    (extracts_data E) (maintains_data ctr) (hwalks.right _) rfl rfl hrange hroom
  have h0 : c2.x 0 = c.x 0 := hspare2.x 0 (by decide)
  have h1 : c2.x 1 = c.x 1 := hspare2.x 1 (by decide)
  obtain ⟨c3, insns, hdrop, hinsns, hspare3⟩ := Runs.walk (c := c2)
    (extracts_code E) (maintains_code ctr) ((hcode.left _).right _) (hspare2.x 3 (by decide))
    (hspare2.x 5 (by decide)) (by rw [h0, h1]; exact hrange) (by rw [h1]; exact hroom)
  have hisb : Runs E ctr (syncWords.flatMap wordBytes) (.at 80 c3) [.refetch] (.at 84 c3) :=
    .sys (s := .isb) (hcode.right _).head (decodeAny_sys rfl)
  have hspare : Spares [2, 3, 4, 5, 6] c c3 :=
    (((Spares.setX (by decide) _).trans (.setX (by decide) _)).trans
      (hspare2.mono (by decide))).trans (hspare3.mono (by decide))
  have hret : Runs E ctr (syncWords.flatMap wordBytes) (.at 84 c3) [] (.returned c3 (c.x 30)) := by
    rw [← hspare.x 30 (by decide)]
    exact .sys (s := .ret) (hcode.right _).tail.head (decodeAny_sys rfl)
  rw [h0, h1] at hinsns
  refine ⟨c3, data, insns, ?_, hdata, hinsns, hspare⟩
  have hall := hctr.trans (hfour.trans (hclean.trans (hdrop.trans (hisb.trans hret))))
  simpa using hall

/-- a caller whose range goes from the middle of a line to the middle of another -/
def unalignedRange : Cpu where
  x := fun n => if n = 0 then 0x1008 else if n = 1 then 0x10C8 else 0x8000
  sp := 0x9000
  v := fun _ => ⟨0, 0⟩
  flags := {}
  mem := {}

/-- with lines of 64 bytes, the first line and the last one are maintained, and no line behind it -/
theorem cacheSync_covers_unaligned : ∃ prog, assemble cacheSync = .ok prog ∧
    ∃ (c' : Cpu) (data insns : List UInt64),
      Runs ⟨.host, fun _ _ => .unordered, fun _ _ => .unordered⟩ 0x40004 prog.code (.at 0 unalignedRange)
        (data.map .clean ++ .barrier :: insns.map .drop ++ [.barrier, .refetch]) (.returned c' 0x8000) ∧
      0x1000 ∈ data ∧ 0x10C0 ∈ data ∧ 0x1100 ∉ data ∧
      0x1000 ∈ insns ∧ 0x10C0 ∈ insns ∧ 0x1100 ∉ insns := by
  obtain ⟨prog, hprog, hcovers⟩ := cacheSync_covers
  obtain ⟨c', data, insns, hrun, hdata, hinsns, -⟩ := hcovers
    ⟨.host, fun _ _ => .unordered, fun _ _ => .unordered⟩ 0x40004 unalignedRange (by decide) (by decide)
  refine ⟨prog, hprog, c', data, insns, hrun, ?_⟩
  rw [hdata.meets, hdata.meets, hdata.meets, hinsns.meets, hinsns.meets, hinsns.meets]
  decide

end TreeJit.A64
