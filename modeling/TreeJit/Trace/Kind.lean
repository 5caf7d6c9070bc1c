import TreeJit.Decimal.Reader
import TreeJit.Json.Quoted
import TreeJit.Json.Reader

/-!
# Kinds of samples

A trace names what was timed: each kind has a number, a name and flags.  A trace starts with the
table of its kinds as a JSON object, `KindTable.encode`; `KindTable.ofJson?` reads it.
-/

namespace TreeJit.Trace

/-- what kind of time was spent, as bits -/
structure Flags where
  bits : UInt32
  deriving DecidableEq

namespace Flags

def compile : Flags := ⟨1⟩

def execute : Flags := ⟨2⟩

def has (f g : Flags) : Bool := f.bits &&& g.bits ≠ 0

def text (f : Flags) : String :=
  ",".intercalate ((if f.has compile then ["compile"] else []) ++ (if f.has execute then ["execute"] else []))

end Flags

structure Kind where
  name : String
  flags : Flags
  deriving DecidableEq

/-- the kinds that every trace has, with the numbers from 1 on -/
def builtinKinds : List Kind :=
  [⟨"jit::compile", .compile⟩, ⟨"jit::link", .compile⟩, ⟨"jit::place", .compile⟩,
    ⟨"predicate::vector", .execute⟩, ⟨"predicate::tail", .execute⟩, ⟨"exprjit::check", .execute⟩]

/-- kinds by number; the first entry of a number counts -/
abbrev KindTable := List (UInt64 × Kind)

namespace KindTable

/-- numbers kinds from 1 on -/
def ofKinds (ks : List Kind) : KindTable := ks.mapIdx fun i k => (UInt64.ofNat (i + 1), k)

/-! ## writing -/

def memberText (e : UInt64 × Kind) : String :=
  JsonText.quoted (toString e.1.toNat) ++ ":\x7b\"Name\":" ++ JsonText.quoted e.2.name ++ ",\"Flags\":"
    ++ toString e.2.flags.bits.toNat ++ "\x7d"

def text (t : KindTable) : String :=
  "\x7b" ++ ",".intercalate ((t.mergeSort fun a b =>
    decide (toString a.1.toNat ≤ toString b.1.toNat)).map memberText) ++ "\x7d"

def encode (t : KindTable) : List UInt8 := utf8Bytes t.text

/-! ## reading -/

/-- a character without its case; the long s is an s too -/
def folded (c : Char) : Char := if c.toNat = 0x17F then 'S' else c.toUpper

def sameField (a : List Char) (b : String) : Bool := a.map folded == b.toList.map folded

def number? (bound : Nat) (cs : List Char) : Option Nat :=
  (Decimal.digits? 10 cs).filter fun n => decide (n < bound)

/-- sets a field of a kind; null and unknown fields change nothing -/
def setField? (k : Kind) (name : List Char) (v : JsonValue) : Option Kind :=
  if sameField name "Name" then
    match v with
    | .string s => some { k with name := String.ofList s }
    | .null => some k
    | _ => none
  else if sameField name "Flags" then
    match v with
    | .number t => (number? (2 ^ 32) t).map fun n => { k with flags := ⟨UInt32.ofNat n⟩ }
    | .null => some k
    | _ => none
  else some k

def kind? : JsonValue → Option Kind
  | .null => some ⟨"", ⟨0⟩⟩
  | .object ms => ms.foldlM (fun k (n, v) => setField? k n v) ⟨"", ⟨0⟩⟩
  | _ => none

def id? (key : List Char) : Option UInt64 :=
  if key = "null".toList then some 0 else (number? (2 ^ 64) key).map UInt64.ofNat

def ofJson? : JsonValue → Option KindTable
  | .null => some []
  | .object ms => (ms.mapM fun (n, v) => do
      let k ← kind? v
      let id ← id? n
      return (id, k)).map List.reverse
  | _ => none

end KindTable

end TreeJit.Trace
