import TreeJit.Text.Blank

/-!
# Types and signatures

The eight value types: four integer widths, two float precisions and two vectors of two 64-bit
lanes.  A number that names no type is kept as `Ty.invalid`, so that it can be refused by name.
A `Signature` lists parameter and return types.
-/

namespace TreeJit.SSA

inductive Ty where
  | i8 | i16 | i32 | i64
  | f32 | f64
  | f64x2 | i64x2
  /-- a number that names no type -/
  | invalid (code : UInt8)
  deriving DecidableEq, Repr

namespace Ty

abbrev pointer : Ty := .i64

/-- the valid types in the order of their numbers, from 1 -/
def all : List Ty := [.i8, .i16, .i32, .i64, .f32, .f64, .f64x2, .i64x2]

def ofCode (n : UInt8) : Ty :=
  match n with
  | 1 => .i8
  | 2 => .i16
  | 3 => .i32
  | 4 => .i64
  | 5 => .f32
  | 6 => .f64
  | 7 => .f64x2
  | 8 => .i64x2
  | n => .invalid n

def code : Ty → UInt8
  | .i8 => 1
  | .i16 => 2
  | .i32 => 3
  | .i64 => 4
  | .f32 => 5
  | .f64 => 6
  | .f64x2 => 7
  | .i64x2 => 8
  | .invalid n => n

def name : Ty → String
  | .i8 => "i8"
  | .i16 => "i16"
  | .i32 => "i32"
  | .i64 => "i64"
  | .f32 => "f32"
  | .f64 => "f64"
  | .f64x2 => "f64x2"
  | .i64x2 => "i64x2"
  | .invalid n => s!"type({n})"

def ofName? (s : String) : Option Ty := all.find? fun t => t.name == s

def isValid : Ty → Bool
  | .invalid _ => false
  | _ => true

def bytes : Ty → Nat
  | .i8 => 1
  | .i16 => 2
  | .i32 => 4
  | .i64 => 8
  | .f32 => 4
  | .f64 => 8
  | .f64x2 => 16
  | .i64x2 => 16
  | .invalid _ => 0

def isInt : Ty → Bool
  | .i8 | .i16 | .i32 | .i64 => true
  | _ => false

def isFloat : Ty → Bool
  | .f32 | .f64 => true
  | _ => false

def isVector : Ty → Bool
  | .f64x2 | .i64x2 => true
  | _ => false

def lanes (t : Ty) : Nat := if t.isVector then 2 else 1

/-- the element type of a vector; a scalar is its own element -/
def lane : Ty → Ty
  | .f64x2 => .f64
  | .i64x2 => .i64
  | t => t

def vectorOf? : Ty → Option Ty
  | .f64 => some .f64x2
  | .i64 => some .i64x2
  | _ => none

def isWideInt : Ty → Bool
  | .i32 | .i64 => true
  | _ => false

@[simp] theorem ofCode_code (t : Ty) (h : t.isValid = true) : ofCode t.code = t := by
  cases t <;> first | rfl | simp [isValid] at h

theorem lane_vectorOf? {t v : Ty} (h : t.vectorOf? = some v) : v.lane = t ∧ v.isVector = true := by
  cases t <;> simp [vectorOf?] at h <;> subst h <;> exact ⟨rfl, rfl⟩

end Ty

structure Signature where
  params : List Ty
  returns : List Ty
  deriving DecidableEq

def typeList (ts : List Ty) : String := joinWith ", " (ts.map Ty.name)

def Signature.text (s : Signature) : String :=
  "(" ++ typeList s.params ++ ") -> (" ++ typeList s.returns ++ ")"

def Signature.empty : Signature := ⟨[], []⟩

def Signature.isValid (s : Signature) : Bool := s.params.all Ty.isValid && s.returns.all Ty.isValid

end TreeJit.SSA
