import TreeJit.Text.Hex
import TreeJit.Text.Utf8

/-!
# Reading JSON

`JsonValue.read` takes the value at the start of a list of bytes and gives what follows it.  Strings are
lists of characters: an escape for half of a surrogate pair, and a byte that starts no character,
stand for the replacement character.  Values may be nested ten thousand deep.
-/

namespace TreeJit

inductive JsonValue where
  | null
  | bool (b : Bool)
  /-- the characters of a number -/
  | number (text : List Char)
  | string (s : List Char)
  | array (items : List JsonValue)
  | object (members : List (List Char × JsonValue))

namespace JsonValue

def ascii (s : String) : List UInt8 := s.toList.map fun c => UInt8.ofNat c.toNat

def isSpace (b : UInt8) : Bool := b == 0x20 || b == 0x09 || b == 0x0A || b == 0x0D

def skipSpaces (bs : List UInt8) : List UInt8 := bs.dropWhile isSpace

def afterWord? (w : String) (bs : List UInt8) : Option (List UInt8) :=
  if (ascii w).isPrefixOf bs then some (bs.drop w.length) else none

/-! ## numbers -/

def isDigit (b : UInt8) : Bool := decide (0x30 ≤ b ∧ b ≤ 0x39)

def digits? (bs : List UInt8) : Option (List UInt8 × List UInt8) :=
  let ds := bs.takeWhile isDigit
  if ds.isEmpty then none else some (ds, bs.dropWhile isDigit)

/-- the part before the point: a single zero or digits that start with another -/
def wholePart? (bs : List UInt8) : Option (List UInt8 × List UInt8) :=
  match bs with
  | 0x30 :: r => some ([0x30], r)
  | _ => digits? bs

/-- what may follow: nothing, or a mark and digits -/
def fraction? (bs : List UInt8) : Option (List UInt8 × List UInt8) :=
  match bs with
  | 0x2E :: r => (digits? r).map fun (ds, r) => (0x2E :: ds, r)
  | _ => some ([], bs)

def exponent? (bs : List UInt8) : Option (List UInt8 × List UInt8) :=
  match bs with
  | e :: r =>
    if e = 0x65 ∨ e = 0x45 then
      match r with
      | s :: r' =>
        if s = 0x2B ∨ s = 0x2D then (digits? r').map fun (ds, r) => (e :: s :: ds, r)
        else (digits? r).map fun (ds, r) => (e :: ds, r)
      | [] => none
    else some ([], bs)
  | [] => some ([], [])

def number? (bs : List UInt8) : Option (List Char × List UInt8) := do
  let (sign, bs) := match bs with
    | 0x2D :: r => ([0x2D], r)
    | _ => (([] : List UInt8), bs)
  let (whole, bs) ← wholePart? bs
  let (frac, bs) ← fraction? bs
  let (exp, bs) ← exponent? bs
  return ((sign ++ whole ++ frac ++ exp).map fun b => Char.ofNat b.toNat, bs)

/-! ## strings -/

def hex4? (bs : List UInt8) : Option (Nat × List UInt8) :=
  let ds := (bs.take 4).map fun b => Char.ofNat b.toNat
  if ds.length = 4 then (Hex.number? (String.ofList ds)).map fun n => (n, bs.drop 4) else none

/-- the second half of a surrogate pair, written as an escape -/
def lowHalf? (bs : List UInt8) : Option (Nat × List UInt8) :=
  match bs with
  | 0x5C :: 0x75 :: r => (hex4? r).filter fun (n, _) => decide (0xDC00 ≤ n ∧ n < 0xE000)
  | _ => none

def escaped (n : Nat) (bs : List UInt8) : Char × List UInt8 :=
  if 0xD800 ≤ n ∧ n < 0xDC00 then
    match lowHalf? bs with
    | some (l, r) => (Char.ofNat (0x10000 + (n - 0xD800) * 1024 + (l - 0xDC00)), r)
    | none => (replacementChar, bs)
  else if 0xDC00 ≤ n ∧ n < 0xE000 then (replacementChar, bs)
  else (Char.ofNat n, bs)

def shortEscape? (b : UInt8) : Option Char :=
  if b = 0x22 ∨ b = 0x5C ∨ b = 0x2F then some (Char.ofNat b.toNat)
  else if b = 0x62 then some (Char.ofNat 8)
  else if b = 0x66 then some (Char.ofNat 12)
  else if b = 0x6E then some '\n'
  else if b = 0x72 then some '\r'
  else if b = 0x74 then some '\t'
  else none

def stringChar? (bs : List UInt8) : Option (Char × List UInt8) :=
  match bs with
  | 0x5C :: 0x75 :: r => (hex4? r).map fun (n, r) => escaped n r
  | 0x5C :: e :: r => (shortEscape? e).map fun c => (c, r)
  | b :: _ => if b < 0x20 ∨ b = 0x5C then none else utf8Next bs
  | [] => none

def stringBody? : Nat → List UInt8 → Option (List Char × List UInt8)
  | 0, _ => none
  | fuel + 1, bs =>
    match bs with
    | 0x22 :: r => some ([], r)
    | _ => do
      let (c, r) ← stringChar? bs
      let (cs, r) ← stringBody? fuel r
      return (c :: cs, r)

def string? (bs : List UInt8) : Option (List Char × List UInt8) :=
  match bs with
  | 0x22 :: r => stringBody? bs.length r
  | _ => none

/-! ## values -/

def maxDepth : Nat := 10000

mutual

def value? : Nat → Nat → List UInt8 → Option (JsonValue × List UInt8)
  | 0, _, _ => none
  | fuel + 1, depth, bs =>
    let bs := skipSpaces bs
    match bs with
    | [] => none
    | b :: r =>
      if b = 0x7B then
        if maxDepth ≤ depth then none
        else
          match skipSpaces r with
          | 0x7D :: r => some (.object [], r)
          | r => (members? fuel (depth + 1) r).map fun (ms, r) => (.object ms, r)
      else if b = 0x5B then
        if maxDepth ≤ depth then none
        else
          match skipSpaces r with
          | 0x5D :: r => some (.array [], r)
          | r => (items? fuel (depth + 1) r).map fun (xs, r) => (.array xs, r)
      else if b = 0x22 then (string? bs).map fun (s, r) => (.string s, r)
      else if b = 0x6E then (afterWord? "null" bs).map fun r => (.null, r)
      else if b = 0x74 then (afterWord? "true" bs).map fun r => (.bool true, r)
      else if b = 0x66 then (afterWord? "false" bs).map fun r => (.bool false, r)
      else (number? bs).map fun (n, r) => (.number n, r)

def items? : Nat → Nat → List UInt8 → Option (List JsonValue × List UInt8)
  | 0, _, _ => none
  | fuel + 1, depth, bs =>
    match value? fuel depth bs with
    | none => none
    | some (v, r) =>
      match skipSpaces r with
      | 0x5D :: r => some ([v], r)
      | 0x2C :: r => (items? fuel depth r).map fun (vs, r) => (v :: vs, r)
      | _ => none

def members? : Nat → Nat → List UInt8 → Option (List (List Char × JsonValue) × List UInt8)
  | 0, _, _ => none
  | fuel + 1, depth, bs =>
    match string? (skipSpaces bs) with
    | none => none
    | some (k, r) =>
      match skipSpaces r with
      | 0x3A :: r =>
        match value? fuel depth r with
        | none => none
        | some (v, r) =>
          match skipSpaces r with
          | 0x7D :: r => some ([(k, v)], r)
          | 0x2C :: r => (members? fuel depth r).map fun (ms, r) => ((k, v) :: ms, r)
          | _ => none
      | _ => none

end

/-- the value at the start of a list of bytes, and what follows it -/
def read (bs : List UInt8) : Option (JsonValue × List UInt8) := value? (2 * bs.length + 2) 0 bs

end JsonValue

end TreeJit
