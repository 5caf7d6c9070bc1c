import TreeJit.Code.Program

/-!
# From a listing to code

A listing is a list of `Line`s: marks of labels, and instructions.  It becomes code in two passes.

* `layout` encodes every instruction at its offset and collects the labels' offsets.  An encoded
  instruction is a `Chunk`: its bytes, at most one branch whose displacement is still open
  (`Branch`), and at most one reference to a symbol.
* `Chunk.close` fills in the displacement, now that every label has its offset; the code is the
  concatenation of the closed chunks.

Three displacement fields occur (`Field`): a trailing 32-bit number counted from the end of the
chunk, and a 26- or 19-bit number of words counted from its start.
-/

namespace TreeJit

/-- where in a chunk the displacement of a branch stands -/
inductive Field where
  /-- the last four bytes, counted from the end of the chunk -/
  | rel32
  /-- bits 0 to 25 of the word, in words from the start of the chunk -/
  | imm26
  /-- bits 5 to 23 of the word, in words from the start of the chunk -/
  | imm19
  deriving DecidableEq, Repr

/-- an open branch -/
structure Branch where
  field : Field
  label : String
  deriving DecidableEq

structure Chunk where
  bytes : List UInt8
  branch : Option Branch := none
  /-- offset inside the chunk, name and form of a reference to a symbol -/
  symbol : Option (Nat × String × RelocKind) := none
  deriving DecidableEq

inductive LabelFault where
  | duplicate (label : String)
  | undefined (field : Field) (label : String)
  | far (field : Field) (label : String)
  | misaligned
  deriving DecidableEq

def LabelFault.message : LabelFault → String
  | .duplicate l => "label " ++ quoted l ++ " already defined"
  | .undefined .rel32 l => "undefined label " ++ quoted l
  | .undefined _ l => "arm64 asm: undefined label " ++ quoted l
  | .far .rel32 l => "jump to label " ++ quoted l ++ " out of range"
  | .far .imm26 _ => "arm64 asm: branch target out of range"
  | .far .imm19 _ => "arm64 asm: conditional branch out of range"
  | .misaligned => "arm64 asm: branch offset must be multiple of 4"

/-- offsets of labels, the last one marked first -/
abbrev Labels := List (String × Nat)

inductive Line (ι : Type) where
  | mark (label : String)
  | instr (i : ι)

/-! ## first pass -/

def layout {ι ε : Type} (encode : Nat → ι → Except ε Chunk) (onLabel : LabelFault → ε) :
    Nat → Labels → List (Line ι) → Except ε (List (Nat × Chunk) × Labels)
  | _, labels, [] => .ok ([], labels)
  | pos, labels, .mark l :: rest =>
    if (labels.lookup l).isSome then .error (onLabel (.duplicate l))
    else layout encode onLabel pos ((l, pos) :: labels) rest
  | pos, labels, .instr i :: rest =>
    match encode pos i with
    | .error e => .error e
    | .ok c =>
      match layout encode onLabel (pos + c.bytes.length) labels rest with
      | .error e => .error e
      | .ok (cs, ls) => .ok ((pos, c) :: cs, ls)

/-! ## second pass -/

def twosComplement (n : Nat) (i : Int) : Nat := (i % (2 ^ n : Nat)).toNat

/-- a word with its bits `lo` to `lo + n - 1` replaced by the low `n` bits of `i` -/
def withField (word : UInt32) (lo n : Nat) (i : Int) : UInt32 :=
  let mask : UInt32 := UInt32.ofNat ((2 ^ n - 1) * 2 ^ lo)
  (word &&& ~~~mask) ||| UInt32.ofNat (twosComplement n i * 2 ^ lo)

/-- the bytes of a chunk at `pos` whose branch goes to offset `target` -/
def Branch.fill (b : Branch) (pos target : Nat) (bytes : List UInt8) :
    Except LabelFault (List UInt8) :=
  match b.field with
  | .rel32 =>
    let rel : Int := target - (pos + bytes.length : Nat)
    if rel < -2147483648 ∨ 2147483647 < rel then .error (.far .rel32 b.label)
    else .ok (bytes.take (bytes.length - 4) ++ littleEndian 4 (twosComplement 32 rel))
  | .imm26 =>
    let rel : Int := (target : Int) - pos
    let words := rel.tdiv 4
    if rel.tmod 4 ≠ 0 then .error .misaligned
    else if words < -33554432 ∨ 33554431 < words then .error (.far .imm26 b.label)
    else .ok (wordBytes (withField (wordAt bytes 0) 0 26 words))
  | .imm19 =>
    let rel : Int := (target : Int) - pos
    let words := rel.tdiv 4
    if rel.tmod 4 ≠ 0 then .error .misaligned
    else if words < -262144 ∨ 262144 ≤ words then .error (.far .imm19 b.label)
    else .ok (wordBytes (withField (wordAt bytes 0) 5 19 words))

/-- the bytes of a chunk once the labels are known -/
def Chunk.close (labels : Labels) (pos : Nat) (c : Chunk) : Except LabelFault (List UInt8) :=
  match c.branch with
  | none => .ok c.bytes
  | some b =>
    match labels.lookup b.label with
    | none => .error (.undefined b.field b.label)
    | some target => b.fill pos target c.bytes

/-- the reference a chunk at `pos` makes -/
def Chunk.ref (pos : Nat) (c : Chunk) : Option SymbolRef :=
  c.symbol.map fun (off, name, kind) => ⟨Int64.ofNat (pos + off), name, kind⟩

def closeAll (labels : Labels) : List (Nat × Chunk) → Except LabelFault (List UInt8)
  | [] => .ok []
  | (pos, c) :: rest =>
    match c.close labels pos with
    | .error e => .error e
    | .ok bs =>
      match closeAll labels rest with
      | .error e => .error e
      | .ok tail => .ok (bs ++ tail)

def assembleLines {ι ε : Type} (encode : Nat → ι → Except ε Chunk) (onLabel : LabelFault → ε)
    (lines : List (Line ι)) : Except ε Program :=
  match layout encode onLabel 0 [] lines with
  | .error e => .error e
  | .ok (chunks, labels) =>
    match closeAll labels chunks with
    | .error e => .error (onLabel e)
    | .ok code => .ok ⟨code, chunks.filterMap fun (pos, c) => c.ref pos⟩

theorem closeAll_nil (labels : Labels) : closeAll labels [] = .ok [] := rfl

end TreeJit
