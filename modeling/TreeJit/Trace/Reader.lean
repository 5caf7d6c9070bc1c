import TreeJit.Trace.Kind
import TreeJit.Word.LittleEndian

/-!
# Reading traces

A trace is a header of three words (a mark, the version, the size of the kind table), the table,
zeros up to a multiple of 512 bytes, and records of 16 bytes: the number of a kind and a duration.
`read` gives the samples in order and what stopped the reading, if anything did.
-/

namespace TreeJit.Trace

def magic : Nat := 0x4A54534C

def version : Nat := 1

def headerSize : Nat := 12

def recordSize : Nat := 16

/-- records start at a multiple of this -/
def alignment : Nat := 512

/-- the zeros after a table of `n` bytes -/
def padding (n : Nat) : Nat := (alignment - (headerSize + n) % alignment) % alignment

inductive Fault where
  /-- the header is cut; `empty` if nothing is there -/
  | header (empty : Bool)
  | magic
  | version (n : Nat)
  /-- the kind table is no such table -/
  | table
  | padding
  | recordCut
  | unknownKind (id : UInt64)
  deriving DecidableEq

def Fault.message : Fault → String
  | .header true => "timeslice: read header: EOF"
  | .header false => "timeslice: read header: unexpected EOF"
  | .magic => "timeslice: invalid magic"
  | .version n => s!"timeslice: unsupported version {n}"
  | .table => "timeslice: decode kinds: not a table"
  | .padding => "timeslice: skip padding: EOF"
  | .recordCut => "timeslice: read record: unexpected EOF"
  | .unknownKind id => s!"timeslice: unknown kind {id}"

structure Record where
  id : UInt64
  duration : Int64
  deriving DecidableEq

structure Sample where
  name : String
  flags : Flags
  duration : Int64
  deriving DecidableEq

/-! ## the kind table

The table is taken from its window in pieces: there is room for 64 bytes at first and for twice as
many whenever three quarters of it are full, and no piece goes across the end of a block of 4096 bytes
that was fetched before.  What lies in the window behind the piece with the table's end is not taken. -/

/-- how far the window was taken -/
structure Intake where
  taken : Nat := 0
  /-- the room for all pieces -/
  room : Nat := 64
  /-- the bytes that are fetched but not taken -/
  fetched : Nat

def blockSize : Nat := 4096

def Intake.step (window available : Nat) (s : Intake) : Intake :=
  let room := if 3 * s.room / 4 ≤ s.taken then 2 * s.room else s.room
  let want := min (room - s.taken) (window - s.taken)
  let fetched :=
    if s.fetched ≠ 0 then s.fetched
    else if blockSize ≤ want then want
    else blockSize
  let fetched := min fetched (available - s.taken)
  let n := min want fetched
  { taken := s.taken + n, room, fetched := fetched - n }

/-- takes pieces until `need` bytes are there or nothing is left -/
def Intake.until (window available need : Nat) : Nat → Intake → Intake
  | 0, s => s
  | fuel + 1, s =>
    if need ≤ s.taken ∨ min window available ≤ s.taken then s
    else Intake.until window available need fuel (s.step window available)

/-- the bytes taken for a table that ends at `stop` -/
def tableIntake (window available stop : Nat) : Nat :=
  (Intake.until window available stop (min window available + 1)
    { fetched := min (blockSize - headerSize) available }).taken

/-- the kind table at the start of `bs`, and the bytes after what was taken for it -/
def readTable (window : Nat) (bs : List UInt8) : Option (KindTable × List UInt8) :=
  let inside := bs.take window
  match JsonValue.read inside with
  | none => none
  | some (v, rest) =>
    match KindTable.ofJson? v with
    | none => none
    | some t => some (t, bs.drop (tableIntake window bs.length (inside.length - rest.length)))

/-! ## records -/

def recordsOf : Nat → List UInt8 → List Record
  | 0, _ => []
  | n + 1, bs =>
    ⟨UInt64.ofNat (ofLittleEndian (bs.take 8)),
      (UInt64.ofNat (ofLittleEndian ((bs.drop 8).take 8))).toInt64⟩ :: recordsOf n (bs.drop recordSize)

def samplesOf (t : KindTable) : List Record → List Sample × Option Fault
  | [] => ([], none)
  | r :: rs =>
    match t.lookup r.id with
    | none => ([], some (.unknownKind r.id))
    | some k =>
      let (ss, f) := samplesOf t rs
      (⟨k.name, k.flags, r.duration⟩ :: ss, f)

def readRecords (t : KindTable) (bs : List UInt8) : List Sample × Option Fault :=
  match samplesOf t (recordsOf (bs.length / recordSize) bs) with
  | (ss, some f) => (ss, some f)
  | (ss, none) => (ss, if bs.length % recordSize = 0 then none else some .recordCut)

def read (bs : List UInt8) : List Sample × Option Fault :=
  if bs.length < headerSize then ([], some (.header bs.isEmpty))
  else
    let word (i : Nat) : Nat := ofLittleEndian ((bs.drop (4 * i)).take 4)
    if word 0 ≠ magic then ([], some .magic)
    else if word 1 ≠ version then ([], some (.version (word 1)))
    else
      match readTable (word 2) (bs.drop headerSize) with
      | none => ([], some .table)
      | some (t, rest) =>
        if rest.length < padding (word 2) then ([], some .padding)
        else readRecords t (rest.drop (padding (word 2)))

end TreeJit.Trace
