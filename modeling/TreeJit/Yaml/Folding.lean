import TreeJit.Text.Hex
import TreeJit.Yaml.Cursor

/-!
# Texts of scalars

A scalar may go over several lines.  What separates two of its parts is a `Gap`: blanks within a line
stay, one line end becomes a blank, more lose the first, and blanks around line ends do not count.

* `plainText`    a scalar without quotes, up to an indicator, a comment or a line that is not
                 indented enough;
* `quotedText`   the inside of single or double quotes;
* `blockText`    the indented lines after `|` or `>`.
-/

namespace TreeJit.Yaml

/-- what separates two parts of a scalar -/
structure Gap where
  /-- blanks before the first line end, the last one first -/
  blanks : List Char := []
  /-- whether a line end was passed -/
  crossed : Bool := false
  /-- the first line end -/
  first : Option Char := none
  /-- the line ends after it, the last one first -/
  more : List Char := []

def Gap.text (g : Gap) : List Char :=
  if g.crossed then
    match g.first with
    | some '\n' => if g.more.isEmpty then [' '] else g.more.reverse
    | some c => c :: g.more.reverse
    | none => g.more.reverse
  else g.blanks.reverse

theorem Gap.text_within (blanks : List Char) : ({ blanks } : Gap).text = blanks.reverse := rfl

theorem Gap.text_oneLine (blanks : List Char) :
    ({ blanks, crossed := true, first := some '\n' } : Gap).text = [' '] := rfl

/-- a gap from here on; a tab that indents a line left of column `floor` is refused -/
def readGap (floor : Int) (g : Gap) : Read Gap :=
  iterate (fun g => do
    ensure 1
    let c ← peek 0
    if isGap c then
      if g.crossed && c == '\t' && decide (((← get).column : Int) < floor) then malformed
      skip
      return .inl (if g.crossed then g else { g with blanks := c :: g.blanks })
    else if isBreak c then
      let b ← readLine
      return .inl (if g.crossed then { g with more := b :: g.more }
        else { g with blanks := [], crossed := true, first := some b })
    else return .inr g) g

/-! ## without quotes -/

def isFlowSign (c : Char) : Bool := c == ',' || c == '?' || c == '[' || c == ']' || c == '{' || c == '}'

/-- a part of a plain scalar without blanks, after the text so far (the last character first) -/
def plainPart (flow : Bool) (text : List Char) (g : Gap) : Read (List Char × Gap) :=
  iterate (fun (text, g) => do
    let c ← peek 0
    if isSpacing c || (c == ':' && isSpacing (← peek 1)) || (flow && isFlowSign c) then
      return .inr (text, g)
    else
      skip
      ensure 2
      return .inl (c :: (g.text.reverse ++ text), {})) (text, g)

/-- a plain scalar whose further lines are indented by `floor` at least, and whether a line end was
passed behind it -/
def plainText (flow : Bool) (floor : Int) : Read (List Char × Bool) :=
  iterate (fun (text, g) => do
    ensure 4
    if (← get).atDocumentMarker || (← peek 0) == '#' then return .inr (text.reverse, g.crossed)
    let (text, g) ← plainPart flow text g
    let c ← peek 0
    if !(isGap c || isBreak c) then return .inr (text.reverse, g.crossed)
    let g ← readGap floor g
    if !flow && decide (((← get).column : Int) < floor) then return .inr (text.reverse, g.crossed)
    return .inl (text, g)) (([] : List Char), ({} : Gap))

/-! ## in quotes -/

/-- what a letter after a backslash stands for -/
def escape? (c : Char) : Option Char :=
  match c with
  | '0' => some (Char.ofNat 0)
  | 'a' => some (Char.ofNat 7)
  | 'b' => some (Char.ofNat 8)
  | 't' => some '\t'
  | '\t' => some '\t'
  | 'n' => some '\n'
  | 'v' => some (Char.ofNat 11)
  | 'f' => some (Char.ofNat 12)
  | 'r' => some '\r'
  | 'e' => some (Char.ofNat 27)
  | ' ' => some ' '
  | '"' => some '"'
  | '\'' => some '\''
  | '\\' => some '\\'
  | 'N' => some (Char.ofNat 0x85)
  | '_' => some (Char.ofNat 0xA0)
  | 'L' => some (Char.ofNat 0x2028)
  | 'P' => some (Char.ofNat 0x2029)
  | _ => none

/-- the number of digits of a numeric escape -/
def escapeDigits? (c : Char) : Option Nat :=
  match c with
  | 'x' => some 2
  | 'u' => some 4
  | 'U' => some 8
  | _ => none

def skipMany : Nat → Read Unit
  | 0 => return ()
  | n + 1 => do
    skip
    skipMany n

def hexChar (n : Nat) : Read Char := do
  ensure n
  let ds := (List.range n).map (← get).peek
  match ds.foldlM (fun acc c => (Hex.value? c).map (16 * acc + ·)) 0 with
  | some v =>
    if v.isValidChar then
      skipMany n
      return Char.ofNat v
    else malformed
  | none => malformed

def escapedChar : Read Char := do
  let c ← peek 1
  match escape? c, escapeDigits? c with
  | some e, _ =>
    skipMany 2
    return e
  | none, some n =>
    skipMany 2
    hexChar n
  | none, none => malformed

/-- a part of a quoted scalar without blanks, and whether it ends with an escaped line end -/
def quotedPart (double : Bool) (text : List Char) : Read (List Char × Bool) :=
  iterate (fun text => do
    let c ← peek 0
    let next ← peek 1
    if isSpacing c then return .inr (text, false)
    else if !double && c == '\'' && next == '\'' then
      skipMany 2
      ensure 2
      return .inl ('\'' :: text)
    else if c == (if double then '"' else '\'') then return .inr (text, false)
    else if double && c == '\\' && isBreak next then
      ensure 3
      skip
      skipLine
      return .inr (text, true)
    else if double && c == '\\' then
      let e ← escapedChar
      ensure 2
      return .inl (e :: text)
    else
      skip
      ensure 2
      return .inl (c :: text)) text

/-- the inside of quotes, from the opening one to behind the closing one -/
def quotedText (double : Bool) : Read (List Char) := do
  skip
  iterate (fun text => do
    ensure 4
    if (← get).atDocumentMarker || (← peek 0) == endMark then malformed
    let (text, crossed) ← quotedPart double text
    ensure 1
    if (← peek 0) == (if double then '"' else '\'') then
      skip
      return .inr text.reverse
    let g ← readGap 0 { crossed }
    return .inl (g.text.reverse ++ text)) ([] : List Char)

/-! ## indented lines -/

inductive Chomping where
  | strip | clip | keep
  deriving DecidableEq

def chomping? (c : Char) : Option Chomping :=
  if c == '+' then some .keep else if c == '-' then some .strip else none

def indentDigit? : Read (Option Nat) := do
  ensure 1
  let c ← peek 0
  if c.isDigit then
    if c == '0' then malformed
    skip
    return some (c.toNat - '0'.toNat)
  else return none

def chompSign? : Read (Option Chomping) := do
  ensure 1
  match chomping? (← peek 0) with
  | some s =>
    skip
    return some s
  | none => return none

/-- what stands behind the indicator: a sign and a digit, in any order -/
def blockHeader : Read (Chomping × Nat) := do
  match ← chompSign? with
  | some s => return (s, (← indentDigit?).getD 0)
  | none =>
    match ← indentDigit? with
    | some n => return ((← chompSign?).getD .clip, n)
    | none => return (.clip, 0)

/-- the line ends from here on, after those found before; indentation 0 is not known yet and is found
from the widest line -/
def blockBreaks (parent : Int) (indent : Nat) (found : List Char) : Read (Nat × List Char) := do
  let (widest, found) ← iterate (fun (widest, found) => do
    iterate (fun () => do
      ensure 1
      if (indent == 0 || decide ((← get).column < indent)) && (← peek 0) == ' ' then
        skip
        return .inl ()
      else return .inr ()) ()
    let col := (← get).column
    let widest := max widest col
    if (indent == 0 || decide (col < indent)) && (← peek 0) == '\t' then malformed
    if isBreak (← peek 0) then
      let b ← readLine
      return .inl (widest, b :: found)
    else return .inr (widest, found)) (0, found)
  return (if indent == 0 then max widest (max (parent + 1).toNat 1) else indent, found)

structure BlockState where
  indent : Nat
  /-- the text, the last character first -/
  text : List Char := []
  /-- the end of the last line -/
  lead : Option Char := none
  /-- the empty lines after it, the last one first -/
  trail : List Char := []
  /-- whether the last line started with a blank -/
  leadBlank : Bool := false

/-- the text with the line ends before the next line -/
def BlockState.joined (s : BlockState) (literal blank : Bool) : List Char :=
  let lead : List Char :=
    match s.lead with
    | none => []
    | some b =>
      if !literal && !s.leadBlank && !blank && b == '\n' then (if s.trail.isEmpty then [' '] else [])
      else [b]
  s.trail ++ lead ++ s.text

/-- an indented scalar inside a collection indented by `parent`; the cursor stands on its indicator -/
def blockText (literal : Bool) (parent : Int) : Read (List Char) := do
  skip
  let (chomp, increment) ← blockHeader
  skipClass isGap
  if (← peek 0) == '#' then skipClass fun c => !isLineEnd c
  if !isLineEnd (← peek 0) then malformed
  if isBreak (← peek 0) then skipLine
  let asked := if increment == 0 then 0 else (max parent 0).toNat + increment
  let (indent, trail) ← blockBreaks parent asked []
  let s ← iterate (fun (s : BlockState) => do
    ensure 1
    let c ← peek 0
    if (← get).column == s.indent && c != endMark then
      let text := s.joined literal (isGap c)
      let line ← takeClass fun c => !isLineEnd c
      ensure 2
      let lead ← if isBreak (← peek 0) then some <$> readLine else pure none
      let (indent, trail) ← blockBreaks parent s.indent []
      return .inl { indent, text := line.reverse ++ text, lead, trail, leadBlank := isGap c }
    else return .inr s) { indent, trail }
  let tail := match chomp with
    | .strip => []
    | .clip => s.lead.toList
    | .keep => s.lead.toList ++ s.trail.reverse
  return s.text.reverse ++ tail

end TreeJit.Yaml
