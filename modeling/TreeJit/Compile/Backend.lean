import TreeJit.Compile.A64
import TreeJit.Compile.X64

/-!
# Backends

A backend compiles functions for one machine; it is found by the name of its architecture.  The
table of backends is fixed: offering another one is always a mistake, and `Registration` says which.
-/

namespace TreeJit.Compile

open SSA

def compile (m : Machine) (fn : Func) (opts : Options) : Except Fault Program :=
  match m with
  | .x64 =>
    match X64.lower fn opts with
    | .error f => .error (.function m fn.name f)
    | .ok lines => (TreeJit.X64.assemble lines).mapError .assembly
  | .a64 =>
    match A64.lower fn opts with
    | .error f => .error (.function m fn.name f)
    | .ok lines => (TreeJit.A64.assemble lines).mapError .assembly

def compile? (m : Machine) (fn : Option Func) (opts : Options) : Except Fault Program :=
  match fn with
  | none => .error (.missing m)
  | some fn => compile m fn opts

/-! ## calling conventions -/

inductive CallConv where
  | invalid
  | systemV
  | aapcs64
  deriving DecidableEq, Repr

def CallConv.name : CallConv → String
  | .invalid => "invalid"
  | .systemV => "system_v"
  | .aapcs64 => "aapcs64"

def CallConv.ofCode (n : UInt8) : CallConv :=
  match n with
  | 1 => .systemV
  | 2 => .aapcs64
  | _ => .invalid

def callConv : Machine → CallConv
  | .x64 => .systemV
  | .a64 => .aapcs64

/-- the registers for parameters -/
def paramLimits : Machine → RegLimits
  | .x64 => X64.paramLimits
  | .a64 => A64.paramLimits

theorem paramLimits_nonneg (m : Machine) : 0 ≤ (paramLimits m).ints ∧ 0 ≤ (paramLimits m).floats := by
  cases m <;> decide

/-! ## finding a backend -/

inductive LookupFault where
  | unspecified
  | unknown (arch : String)
  deriving DecidableEq

def LookupFault.message : LookupFault → String
  | .unspecified => "ir: architecture must be specified"
  | .unknown a => "ir: no backend registered for " ++ quoted a

def lookup (arch : String) : Except LookupFault Machine :=
  match [Machine.x64, .a64].find? fun m => m.arch == arch with
  | some m => .ok m
  | none => .error (if arch = "" then .unspecified else .unknown arch)

/-- why a further backend is not taken -/
inductive Registration where
  | invalidArch
  | noBackend
  | taken (arch : String)
  deriving DecidableEq

def Registration.message : Registration → String
  | .invalidArch => "ir: cannot register backend for invalid architecture"
  | .noBackend => "ir: backend must be non-nil"
  | .taken a => "ir: backend for " ++ a ++ " already registered"

/-- the objection to a backend for an architecture; none for an architecture without one -/
def register (arch : String) (given : Bool) : Option Registration :=
  if arch = "" then some .invalidArch
  else if !given then some .noBackend
  else
    match lookup arch with
    | .ok _ => some (.taken arch)
    | .error _ => none

end TreeJit.Compile
