import TreeJit.Yaml.Folding

/-!
# Tokens of YAML

The signs of a text, with the starts and ends of collections that only indentation shows.  Here are
the tokens that have a text of their own and are no scalars: names of anchors, tags and directives;
and the comments between tokens.
-/

namespace TreeJit.Yaml

inductive Token where
  | streamStart | streamEnd
  | version (major minor : Nat)
  /-- a short form of tags and what it stands for -/
  | tagHandle (handle expansion : String)
  | documentStart | documentEnd
  | blockSequenceStart | blockMappingStart | blockEnd
  | flowSequenceStart | flowSequenceEnd | flowMappingStart | flowMappingEnd
  | blockEntry | flowEntry | key | value
  | alias (name : String)
  | anchor (name : String)
  | tag (handle suffix : String)
  | scalar (text : String) (plain : Bool)
  deriving DecidableEq

/-! ## comments -/

/-- comments are looked for so far ahead -/
def commentReach : Nat := 512

def skipRestOfLine : Read Unit := skipClass fun c => !isLineEnd c

/-- the place of the next comment sign behind characters of a class, between `k` and the reach -/
def findComment (p : Char → Bool) : Nat → Nat → Read (Option Nat)
  | 0, _ => return none
  | fuel + 1, k => do
    ensure (k + 1)
    let c ← peek k
    if c == '#' then return some k
    else if p c then findComment p fuel (k + 1)
    else return none

/-- goes over a comment that follows a token on its line -/
def skipLineComment : Read Unit := do
  if (← get).breaks == 0 then
    match ← findComment isGap commentReach 0 with
    | some _ => skipRestOfLine
    | none => return ()

def skipTo (index : Nat) : Read Unit :=
  iterate (fun () => do
    ensure 1
    if index ≤ (← get).index then return .inr ()
    else if isBreak (← peek 0) then
      skipLine
      return .inl ()
    else
      skip
      return .inl ()) ()

/-- goes over a comment and the comments on the lines after it, up to the end of the last one's
line -/
def skipComments : Read Unit := do
  skipRestOfLine
  iterate (fun () => do
    match ← findComment (fun c => isGap c || c == '\n' || c == '\r') (commentReach - 1) 1 with
    | none => return .inr ()
    | some k =>
      skipTo ((← get).index + k)
      skipRestOfLine
      return .inl ()) ()

/-! ## names -/

def isNameChar (c : Char) : Bool := c.isAlphanum || c == '_' || c == '-'

/-- what may follow the name of an anchor -/
def endsName (c : Char) : Bool := isSpacing c || ['?', ':', ',', ']', '}', '%', '@', '\x60'].contains c

def anchorName : Read String := do
  skip
  let name ← takeClass isNameChar
  if name.isEmpty || !endsName (← peek 0) then malformed
  return String.ofList name

/-! ## tags -/

def isTagChar (c : Char) : Bool :=
  isNameChar c || [';', '/', '?', ':', '@', '&', '=', '+', '$', ',', '.', '!', '~', '*', '\'', '(', ')',
    '[', ']', '%'].contains c

def percentByte : Read Nat := do
  ensure 3
  match Hex.value? (← peek 1), Hex.value? (← peek 2) with
  | some h, some l =>
    if (← peek 0) == '%' then
      skipMany 3
      return 16 * h + l
    else malformed
  | _, _ => malformed

/-- the bytes after the first one of a character -/
def percentTail : Nat → Read (List Nat)
  | 0 => return []
  | n + 1 => do
    let b ← percentByte
    if isTail b then return b :: (← percentTail n) else malformed

/-- a character written as percent signs and digits -/
def percentChar : Read Char := do
  let b ← percentByte
  match utf8Width? (UInt8.ofNat b) with
  | none => malformed
  | some w =>
    let bs := b :: (← percentTail (w - 1))
    return (codePoint? bs).elim replacementChar fun p => Char.ofNat p.1

def tagText : Read (List Char) :=
  iterate (fun taken => do
    ensure 1
    let c ← peek 0
    if c == '%' then
      let d ← percentChar
      return .inl (d :: taken)
    else if isTagChar c then
      skip
      return .inl (c :: taken)
    else return .inr taken.reverse) ([] : List Char)

/-- a mark, a name and, if there is one, another mark -/
def tagHandleText (directive : Bool) : Read (List Char) := do
  ensure 1
  if (← peek 0) != '!' then malformed
  skip
  let name ← takeClass isNameChar
  if (← peek 0) == '!' then
    skip
    return '!' :: name ++ ['!']
  else
    if directive && !name.isEmpty then malformed
    return '!' :: name

/-- a tag: its handle, which may be empty, and the rest -/
def tagToken : Read Token := do
  ensure 2
  let (handle, suffix) ←
    if (← peek 1) == '<' then do
      skipMany 2
      let t ← tagText
      if t.isEmpty || (← peek 0) != '>' then malformed
      skip
      pure ([], t)
    else do
      let h ← tagHandleText false
      if 1 < h.length && h.getLast? == some '!' then do
        let t ← tagText
        if t.isEmpty then malformed
        pure (h, t)
      else do
        let t ← tagText
        let t := h.tail ++ t
        pure (if t.isEmpty then ([], ['!']) else (['!'], t))
  ensure 1
  if !isSpacing (← peek 0) then malformed
  return .tag (String.ofList handle) (String.ofList suffix)

/-! ## directives -/

def versionNumber : Read Nat := do
  let ds ← takeClass Char.isDigit
  if ds.isEmpty || 2 < ds.length then malformed
  return ds.foldl (fun n d => 10 * n + (d.toNat - '0'.toNat)) 0

/-- a directive from its percent sign to the end of its line -/
def directiveToken : Read Token := do
  skip
  let name ← takeClass isNameChar
  if name.isEmpty || !isSpacing (← peek 0) then malformed
  let t ←
    if name == "YAML".toList then do
      skipClass isGap
      let major ← versionNumber
      if (← peek 0) != '.' then malformed
      skip
      let minor ← versionNumber
      pure (Token.version major minor)
    else if name == "TAG".toList then do
      skipClass isGap
      let handle ← tagHandleText true
      ensure 1
      if !isGap (← peek 0) then malformed
      skipClass isGap
      let text ← tagText
      ensure 1
      if text.isEmpty || !isSpacing (← peek 0) then malformed
      pure (Token.tagHandle (String.ofList handle) (String.ofList text))
    else malformed
  skipClass isGap
  if (← peek 0) == '#' then skipRestOfLine
  if !isLineEnd (← peek 0) then malformed
  if isBreak (← peek 0) then skipLine
  return t

end TreeJit.Yaml
