import TreeJit.A64.CacheSync
import TreeJit.A64.Encode
import TreeJit.X64.Encode

/-!
# Listings for one of two machines

A `Listing` is a tree of groups, label marks and instructions.  It is assembled for one machine.
An instruction of the other machine is taken only where it needs no label: its bytes are put down
as they are.  x86-64 jumps, and every AArch64 instruction, insist on their own machine
(`AsmFault.foreign`).
-/

namespace TreeJit

inductive Machine where
  | x64
  | a64
  deriving DecidableEq, Repr

def Machine.arch : Machine → String
  | .x64 => "x86_64"
  | .a64 => "arm64"

/-- the name messages about instructions use -/
def Machine.asmName : Machine → String
  | .x64 => "amd64"
  | .a64 => "arm64"

inductive AnyInstr where
  | x64 (i : X64.Instr)
  | a64 (i : A64.Instr)

inductive AsmFault where
  | x64 (f : X64.Fault)
  | a64 (f : A64.Fault)
  | label (f : LabelFault)
  /-- an instruction of `instr` in code for the other machine -/
  | foreign (instr target : Machine)
  deriving DecidableEq

def AsmFault.message : AsmFault → String
  | .x64 f => f.message
  | .a64 f => f.message
  | .label f => f.message
  | .foreign i t => i.asmName ++ " asm: unsupported context *" ++ t.asmName ++ ".Context"

inductive Listing where
  | mark (label : String)
  | instr (i : AnyInstr)
  | group (parts : List Listing)

mutual

def Listing.lines : Listing → List (Line AnyInstr)
  | .mark l => [.mark l]
  | .instr i => [.instr i]
  | .group parts => Listing.linesOfAll parts

def Listing.linesOfAll : List Listing → List (Line AnyInstr)
  | [] => []
  | p :: ps => p.lines ++ Listing.linesOfAll ps

end

/-- the chunk of an instruction in code for `target` -/
def AnyInstr.encode (target : Machine) (pos : Nat) : AnyInstr → Except AsmFault Chunk
  | .x64 i =>
    if target ≠ .x64 ∧ i.label?.isSome then .error (.foreign .x64 target)
    else (i.encode pos).mapError .x64
  | .a64 i =>
    match target with
    | .a64 => (i.encode pos).mapError .a64
    | .x64 =>
      match i.precheck with
      | .error f => .error (.a64 f)
      | .ok () => .error (.foreign .a64 target)

/-- lines of instructions of either machine as a program for `target` -/
def assemble (target : Machine) (lines : List (Line AnyInstr)) : Except AsmFault Program :=
  assembleLines (AnyInstr.encode target) .label lines

def Listing.assemble (target : Machine) (l : Listing) : Except AsmFault Program :=
  TreeJit.assemble target l.lines

def X64.assemble (lines : List (Line X64.Instr)) : Except AsmFault Program :=
  assembleLines (fun pos i => (X64.Instr.encode pos i).mapError .x64) .label lines

def A64.assemble (lines : List (Line A64.Instr)) : Except AsmFault Program :=
  assembleLines (fun pos i => (A64.Instr.encode pos i).mapError .a64) .label lines

theorem Listing.linesOfAll_append (a b : List Listing) :
    Listing.linesOfAll (a ++ b) = Listing.linesOfAll a ++ Listing.linesOfAll b := by
  induction a with
  | nil => rfl
  | cons p ps ih => simp [Listing.linesOfAll, ih]

end TreeJit
