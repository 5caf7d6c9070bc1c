import TreeJit.Host.Platform

/-!
# Linux

The platform the program runs on.  The system maps behind what it has mapped, as long as there are
addresses for code.  The bridge carries what the machine passes in registers and nine more arguments
on the stack.
-/

namespace TreeJit.Host

open SSA

def codeStart : Nat := 0x10000000

def codeEnd : Nat := 0x800000000000

def lastStop (rs : List Region) : Nat := rs.foldr (fun r top => max r.stop top) codeStart

def pageBehind (rs : List Region) : Nat := pageBytes (lastStop rs)

def mapBehind (rs : List Region) (n : Nat) : Option UInt64 :=
  if pageBehind rs + n ≤ codeEnd then some (UInt64.ofNat (pageBehind rs)) else none

/-- the arguments that need a place on the stack -/
def stackArguments (limits : RegLimits) (ins : List HostType) : Nat :=
  (ins.countP (fun t => !t.isFloat) - limits.ints.toNat) +
    (ins.countP HostType.isFloat - limits.floats.toNat)

/-! ## mapping behind what is mapped -/

section
variable {rs : List Region} {n : Nat} {a : UInt64}

theorem lastStop_append (rs : List Region) (r : Region) :
    lastStop (rs ++ [r]) = max r.stop (lastStop rs) := by
  induction rs with
  | nil => rfl
  | cons s rs ih =>
    show max s.stop (lastStop (rs ++ [r])) = max r.stop (max s.stop (lastStop rs))
    rw [ih]
    omega

theorem stop_le_lastStop {r : Region} (h : r ∈ rs) : r.stop ≤ lastStop rs := by
  induction rs with
  | nil => cases h
  | cons s rs ih =>
    rcases List.mem_cons.mp h with rfl | h
    · exact Nat.le_max_left ..
    · exact Nat.le_trans (ih h) (Nat.le_max_right ..)

theorem codeStart_le_lastStop (rs : List Region) : codeStart ≤ lastStop rs := by
  induction rs with
  | nil => exact Nat.le_refl _
  | cons s rs ih => exact Nat.le_trans ih (Nat.le_max_right ..)

theorem mapBehind_eq_some (h : mapBehind rs n = some a) :
    a.toNat = pageBehind rs ∧ pageBehind rs + n ≤ codeEnd := by
  unfold mapBehind at h
  split at h
  · rename_i hle
    cases h
    refine ⟨UInt64.toNat_ofNat_of_lt' ?_, hle⟩
    unfold codeEnd at hle
    show pageBehind rs < 2 ^ 64
    omega
  · cases h

theorem pageBehind_append (h : mapBehind rs (pageBytes n) = some a) :
    pageBehind (rs ++ [⟨a, pageBytes n⟩]) = pageBehind rs + pageBytes n := by
  have hstop : (⟨a, pageBytes n⟩ : Region).stop = pageBehind rs + pageBytes n :=
    congrArg (· + pageBytes n) (mapBehind_eq_some h).1
  have hle := le_pageBytes (lastStop rs)
  rw [pageBehind, lastStop_append, hstop]
  unfold pageBehind at hle ⊢
  rw [Nat.max_eq_left (by omega)]
  unfold pageBytes pageSize
  omega

end

@[reducible]
def Platform.linux (machine : Machine) : Platform where
  machine
  map := mapBehind
  map_aligned h := by
    rw [(mapBehind_eq_some h).1]
    exact dvd_pageBytes _
  map_ne_zero {rs n a} h := by
    rintro rfl
    have hstart := Nat.le_trans (codeStart_le_lastStop rs) (le_pageBytes _)
    have hzero : 0 = pageBytes (lastStop rs) := (mapBehind_eq_some h).1
    rw [← hzero] at hstart
    exact absurd hstart (by decide)
  map_apart h r hr := by
    refine .inr ?_
    show r.stop ≤ _
    rw [(mapBehind_eq_some h).1]
    exact Nat.le_trans (stop_le_lastStop hr) (le_pageBytes _)
  map_lower h := by
    obtain ⟨e, hle⟩ := mapBehind_eq_some h
    unfold codeEnd at hle
    omega
  passes ins := decide (stackArguments (Compile.paramLimits machine) ins ≤ 9)
  passes_registers hi hf := by
    refine decide_eq_true ?_
    unfold stackArguments
    omega

@[reducible]
def Platform.linuxX64 : Platform := .linux .x64

end TreeJit.Host
