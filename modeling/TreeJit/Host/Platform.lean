import TreeJit.Compile.Backend
import TreeJit.Host.FuncType

/-!
# The platform

What is decided below this library: the machine that code is made for, where the system maps the
pages of the code, and which arguments the bridge from the host carries into a function.  A module
never looks behind these decisions; what it relies on is said by the fields of `Platform` that are
propositions.  `Platform.linux` is what the program runs on.
-/

namespace TreeJit.Host

open SSA

def pageSize : Nat := 4096

def pageBytes (n : Nat) : Nat := (n + pageSize - 1) / pageSize * pageSize

theorem le_pageBytes (n : Nat) : n ≤ pageBytes n := by
  unfold pageBytes pageSize
  omega

theorem pageBytes_le (n : Nat) : pageBytes n ≤ n + pageSize := by
  unfold pageBytes pageSize
  omega

theorem dvd_pageBytes (n : Nat) : pageSize ∣ pageBytes n := Nat.dvd_mul_left ..

structure Region where
  address : UInt64
  size : Nat

def Region.stop (r : Region) : Nat := r.address.toNat + r.size

/-- one of the regions ends before the other starts -/
def Region.Apart (r s : Region) : Prop := r.stop ≤ s.address.toNat ∨ s.stop ≤ r.address.toNat

theorem Region.Apart.symm {r s : Region} (h : r.Apart s) : s.Apart r := Or.symm h

class Platform where
  machine : Machine
  /-- where the system maps `n` bytes of whole pages beside the regions it has mapped; none: it has
  no place for them -/
  map : List Region → Nat → Option UInt64
  map_aligned : ∀ {rs n a}, map rs n = some a → pageSize ∣ a.toNat
  map_ne_zero : ∀ {rs n a}, map rs n = some a → a ≠ 0
  map_apart : ∀ {rs n a}, map rs n = some a → ∀ r ∈ rs, Region.Apart ⟨a, n⟩ r
  /-- programs live in the lower half of the addresses -/
  map_lower : ∀ {rs n a}, map rs n = some a → a.toNat + n < 2 ^ 63
  /-- whether arguments of these types can be carried into a function -/
  passes : List HostType → Bool
  /-- what the machine passes in registers can be carried -/
  passes_registers : ∀ {ins : List HostType},
    (ins.countP fun t => !t.isFloat : Nat) ≤ (Compile.paramLimits machine).ints →
    (ins.countP HostType.isFloat : Nat) ≤ (Compile.paramLimits machine).floats → passes ins = true

variable [Platform]

def hostConv : Compile.CallConv := Compile.callConv Platform.machine

end TreeJit.Host
