import TreeJit.Text.Utf8

/-!
# Characters of a YAML text

A text comes as bytes, in UTF-8 or, after a byte order mark that says so, in UTF-16.  It is taken in
blocks of 512 bytes, and a block is looked at as a whole: a fault in it shows when the block is
needed, not before and not later.

* `Encoding.decode`   the character at the start of some bytes;
* `decodeBlock`       the characters of a block and the bytes that are no character yet;
* `Source.next`       the characters of the next block.
-/

namespace TreeJit.Yaml

inductive Fault where
  /-- the text is not YAML -/
  | malformed
  /-- a value is not of the kind that is wanted -/
  | mismatch
  /-- keys cannot be told apart -/
  | breakdown
  deriving DecidableEq

inductive Encoding where
  | utf8
  | utf16 (bigEndian : Bool)
  deriving DecidableEq

inductive Decoded where
  /-- a character of so many bytes -/
  | char (c : Char) (width : Nat)
  /-- the start of a character -/
  | short
  | bad

def allowed (n : Nat) : Bool :=
  n == 0x09 || n == 0x0A || n == 0x0D || decide (0x20 ≤ n ∧ n ≤ 0x7E) || n == 0x85 ||
    decide (0xA0 ≤ n ∧ n ≤ 0xD7FF) || decide (0xE000 ≤ n ∧ n ≤ 0xFFFD) ||
    decide (0x10000 ≤ n ∧ n ≤ 0x10FFFF)

/-- a code point as a character of the text -/
def Decoded.ofCode (n width : Nat) : Decoded := if allowed n then .char (Char.ofNat n) width else .bad

def utf8Width? (b : UInt8) : Option Nat :=
  if b < 0x80 then some 1
  else if b < 0xC0 then none
  else if b < 0xE0 then some 2
  else if b < 0xF0 then some 3
  else if b < 0xF8 then some 4
  else none

def decodeUtf8 (bs : List UInt8) : Decoded :=
  match bs with
  | [] => .short
  | b :: _ =>
    match utf8Width? b with
    | none => .bad
    | some w =>
      let ds := bs.take w
      if ds.length < w then .short
      else
        match codePoint? (ds.map UInt8.toNat) with
        | some (n, _) => .ofCode n w
        | none => .bad

def unit16 (bigEndian : Bool) (a b : UInt8) : Nat :=
  if bigEndian then 256 * a.toNat + b.toNat else a.toNat + 256 * b.toNat

def decodeUtf16 (bigEndian : Bool) (bs : List UInt8) : Decoded :=
  match bs with
  | a :: b :: r =>
    let n := unit16 bigEndian a b
    if 0xDC00 ≤ n ∧ n < 0xE000 then .bad
    else if 0xD800 ≤ n ∧ n < 0xDC00 then
      match r with
      | c :: d :: _ =>
        let l := unit16 bigEndian c d
        if 0xDC00 ≤ l ∧ l < 0xE000 then .ofCode (0x10000 + (n - 0xD800) * 0x400 + (l - 0xDC00)) 4 else .bad
      | _ => .short
    else .ofCode n 2
  | _ => .short

def Encoding.decode : Encoding → List UInt8 → Decoded
  | .utf8, bs => decodeUtf8 bs
  | .utf16 big, bs => decodeUtf16 big bs

/-- the characters of a block, and the bytes at its end that start another; `none` if the block is
faulty -/
def decodeBlock (e : Encoding) : Nat → List UInt8 → Option (List Char × List UInt8)
  | 0, bs => some ([], bs)
  | _ + 1, [] => some ([], [])
  | fuel + 1, bs =>
    match e.decode bs with
    | .char c w => (decodeBlock e fuel (bs.drop w)).map fun (cs, held) => (c :: cs, held)
    | .short => some ([], bs)
    | .bad => none

def blockSize : Nat := 512

structure Source where
  encoding : Encoding
  /-- bytes of the last block that start a character -/
  held : List UInt8 := []
  rest : List UInt8
  /-- how many bytes the next block takes -/
  room : Nat := blockSize

/-- a text; a mark of its encoding belongs to the first block -/
def Source.ofBytes (bs : List UInt8) : Source :=
  match bs with
  | 0xFF :: 0xFE :: r => { encoding := .utf16 false, rest := r, room := blockSize - 2 }
  | 0xFE :: 0xFF :: r => { encoding := .utf16 true, rest := r, room := blockSize - 2 }
  | 0xEF :: 0xBB :: 0xBF :: r => { encoding := .utf8, rest := r, room := blockSize - 3 }
  | bs => { encoding := .utf8, rest := bs }

def Source.next (s : Source) : Except Fault (Option (List Char × Source)) :=
  match s.rest with
  | [] => if s.held.isEmpty then .ok none else .error .malformed
  | rest =>
    match decodeBlock s.encoding blockSize (s.held ++ rest.take s.room) with
    | none => .error .malformed
    | some (cs, held) =>
      .ok (some (cs, { s with held, rest := rest.drop s.room, room := blockSize - held.length }))

/-- every block that is not empty shortens the rest -/
theorem Source.length_rest_next {s t : Source} {cs : List Char} (h : s.next = .ok (some (cs, t))) :
    t.rest.length = s.rest.length - s.room := by
  unfold Source.next at h
  split at h
  · split at h <;> cases h
  · split at h
    · cases h
    · cases h
      simp

end TreeJit.Yaml
