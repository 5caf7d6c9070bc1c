import TreeJit.Yaml.Source

/-!
# A place in a YAML text

A cursor stands in front of a character.  It holds the characters at hand (`buffer`), where it stands
(`index`, `line`, `column`, from 0) and how many line ends it passed since the last character that is
no blank.  Behind the text stand marks of its end.

* `ensure n`    takes blocks until `n` characters are at hand, or the end shows;
* `peek k`      the character `k` places ahead;
* `skip`        goes over a character, `skipLine` over a line end, `readLine` tells what it means;
* `iterate`     repeats a step until it gives a result.  A step that is not the last moves on, so the
                size of the text bounds their number.
-/

namespace TreeJit.Yaml

/-- stands behind the last character -/
def endMark : Char := Char.ofNat 0

def isGap (c : Char) : Bool := c == ' ' || c == '\t'

def isBreak (c : Char) : Bool :=
  c == '\n' || c == '\r' || c == Char.ofNat 0x85 || c == Char.ofNat 0x2028 || c == Char.ofNat 0x2029

def isLineEnd (c : Char) : Bool := isBreak c || c == endMark

def isSpacing (c : Char) : Bool := isGap c || isLineEnd c

structure Cursor where
  source : Source
  /-- at least the number of characters of the text -/
  size : Nat
  buffer : List Char := []
  /-- the character that stood first when the buffer was last filled -/
  front : Char := endMark
  index : Nat := 0
  line : Nat := 0
  column : Nat := 0
  /-- the line ends since the last character that is no blank -/
  breaks : Nat := 0

def Cursor.ofBytes (bs : List UInt8) : Cursor := { source := .ofBytes bs, size := bs.length }

def hasAtLeast {α : Type} : Nat → List α → Bool
  | 0, _ => true
  | _ + 1, [] => false
  | n + 1, _ :: l => hasAtLeast n l

namespace Cursor

def peek (c : Cursor) (k : Nat) : Char := c.buffer.getD k endMark

/-- takes blocks until `n` characters are at hand; at the end of the text one mark is added -/
def fill (n : Nat) : Nat → Cursor → Except Fault Cursor
  | 0, c => .ok c
  | fuel + 1, c =>
    if hasAtLeast n c.buffer then .ok c
    else
      match c.source.next with
      | .error f => .error f
      | .ok none => .ok { c with buffer := c.buffer ++ [endMark] }
      | .ok (some (cs, source)) => fill n fuel { c with source, buffer := c.buffer ++ cs }

def ensure (n : Nat) (c : Cursor) : Except Fault Cursor :=
  if hasAtLeast n c.buffer then .ok c
  else (c.fill n (c.size + 1)).map fun c => { c with front := c.peek 0 }

def skip (c : Cursor) : Cursor :=
  { c with
    buffer := c.buffer.tail
    index := c.index + 1
    column := c.column + 1
    breaks := if isGap (c.peek 0) then c.breaks else 0 }

def skipLine (c : Cursor) : Cursor :=
  let width := if c.peek 0 == '\r' && c.peek 1 == '\n' then 2 else 1
  { c with
    buffer := c.buffer.drop width
    index := c.index + width
    line := c.line + 1
    column := 0
    breaks := c.breaks + 1 }

/-- what a line end means inside a scalar: separators stay, all else is a line feed -/
def lineText (c : Cursor) : Char :=
  let a := c.peek 0
  if a == Char.ofNat 0x2028 || a == Char.ofNat 0x2029 then a else '\n'

/-- whether three marks and a blank stand at the start of a line here -/
def atMarker (mark : Char) (c : Cursor) : Bool :=
  c.column == 0 && c.peek 0 == mark && c.peek 1 == mark && c.peek 2 == mark && isSpacing (c.peek 3)

/-- whether a document starts or ends here -/
def atDocumentMarker (c : Cursor) : Bool := c.atMarker '-' || c.atMarker '.'

end Cursor

/-! ## reading -/

abbrev Read := StateT Cursor (Except Fault)

def malformed {α : Type} : Read α := throw .malformed

def ensure (n : Nat) : Read Unit := fun c => (c.ensure n).map fun c => ((), c)

def peek (k : Nat) : Read Char := return (← get).peek k

def skip : Read Unit := modify Cursor.skip

def advance : Read Unit := do
  skip
  ensure 1

def skipLine : Read Unit := do
  ensure 2
  modify Cursor.skipLine

def readLine : Read Char := do
  ensure 2
  let a := (← get).lineText
  modify Cursor.skipLine
  return a

/-- repeats a step until it gives a result, at most so many times -/
def repeatStep {σ α : Type} (step : σ → Read (σ ⊕ α)) : Nat → σ → Read α
  | 0, _ => malformed
  | fuel + 1, s => do
    match ← step s with
    | .inl s => repeatStep step fuel s
    | .inr a => return a

def iterate {σ α : Type} (step : σ → Read (σ ⊕ α)) (s : σ) : Read α := do
  repeatStep step ((← get).size + 4) s

def takeClass (p : Char → Bool) : Read (List Char) :=
  iterate (fun taken => do
    ensure 1
    let c ← peek 0
    if p c then
      skip
      return .inl (c :: taken)
    else return .inr taken.reverse) []

def skipClass (p : Char → Bool) : Read Unit := do
  let _ ← takeClass p

end TreeJit.Yaml
