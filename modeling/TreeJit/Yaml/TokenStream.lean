import TreeJit.Yaml.Token

/-!
# The tokens of a text, one after another

A token stream holds a cursor and a queue of tokens.  Two things make the queue necessary.  A key shows
only by the `:` behind it, so a token that may start a key (`SimpleKey`) waits until that is decided:
the sign has to come on the same line and within 1024 characters.  And two tokens are always read
ahead of the one that is looked at.

In block collections the column of a token counts: `roll` opens a collection at a column, `unroll`
closes those further right.

* `fetch`       reads a token into the queue, with the starts and ends that it implies;
* `peekToken`   the next token;
* `dropToken`   goes over it.
-/

namespace TreeJit.Yaml

/-- a token that may start a key without a sign of its own -/
structure SimpleKey where
  possible : Bool := false
  /-- whether only a key can stand here -/
  required : Bool := false
  /-- the number of the token -/
  number : Nat := 0
  index : Nat := 0
  line : Nat := 0
  column : Nat := 0

structure TokenStream where
  cursor : Cursor
  started : Bool := false
  /-- the tokens that wait -/
  queue : List Token := []
  /-- the tokens that went -/
  taken : Nat := 0
  /-- the possible key of each open flow collection and of what is around them, the innermost first -/
  keys : List SimpleKey := []
  /-- numbers of tokens that may start keys, with the depth of their collection -/
  waiting : List (Nat × Nat) := []
  /-- the open flow collections -/
  flow : Nat := 0
  /-- the column of the innermost block collection, and of those around it -/
  indent : Int := -1
  indents : List Int := []
  /-- whether a key may start here -/
  keyAllowed : Bool := true

def TokenStream.ofBytes (bs : List UInt8) : TokenStream := { cursor := .ofBytes bs }

abbrev Scan := StateT TokenStream (Except Fault)

namespace Scan

def fail {α : Type} : Scan α := throw .malformed

def text {α : Type} (r : Read α) : Scan α := fun s =>
  (r.run s.cursor).map fun (a, cursor) => (a, { s with cursor })

/-! ## the queue -/

def push (t : Token) : Scan Unit := modify fun s => { s with queue := s.queue ++ [t] }

/-- puts a token in front of the one with a number, or at the end if that one went -/
def insertAt (number : Nat) (t : Token) : Scan Unit := modify fun s =>
  if number < s.taken then { s with queue := s.queue ++ [t] }
  else { s with queue := s.queue.take (number - s.taken) ++ t :: s.queue.drop (number - s.taken) }

def maxDepth : Nat := 10000

/-- opens a block collection at a column that is further right than the open one -/
def roll (column : Nat) (put : Scan Unit) : Scan Unit := do
  let s ← get
  if s.flow == 0 && decide (s.indent < column) then
    set { s with indents := s.indent :: s.indents, indent := (column : Int) }
    if maxDepth < s.indents.length + 1 then fail
    put

/-- the block collections that end in front of a column -/
def unrolled (column : Int) : Int → List Int → Int × List Int × Nat
  | indent, [] => (indent, [], 0)
  | indent, i :: is =>
    if column < indent then
      let (indent, indents, n) := unrolled column i is
      (indent, indents, n + 1)
    else (indent, i :: is, 0)

def unroll (column : Int) : Scan Unit := modify fun s =>
  if s.flow == 0 then
    let (indent, indents, n) := unrolled column s.indent s.indents
    { s with indent, indents, queue := s.queue ++ List.replicate n .blockEnd }
  else s

/-! ## possible keys -/

def innerKey (s : TokenStream) : SimpleKey := s.keys.headD {}

def setInnerKey (k : SimpleKey) : Scan Unit := modify fun s => { s with keys := k :: s.keys.tail }

def forget (number : Nat) : Scan Unit := modify fun s =>
  { s with waiting := s.waiting.filter fun w => w.1 != number }

def stale (c : Cursor) (k : SimpleKey) : Bool := decide (k.line < c.line) || decide (k.index + 1024 < c.index)

/-- whether the key of the collection at a depth is still possible; a key that only could be one must
not be given up -/
def keyHolds (depth : Nat) : Scan Bool := do
  let s ← get
  let i := s.flow - depth
  match if depth ≤ s.flow then s.keys[i]? else none with
  | none => return false
  | some k =>
    if !k.possible then return false
    else if stale s.cursor k then
      if k.required then fail
      set { s with keys := s.keys.set i { k with possible := false } }
      return false
    else return true

def dropKey : Scan Unit := do
  let k := innerKey (← get)
  if k.possible then
    if k.required then fail
    setInnerKey { k with possible := false }
    forget k.number

/-- notes that the next token may start a key -/
def noteKey : Scan Unit := do
  let s ← get
  if s.keyAllowed then
    let c := s.cursor
    let number := s.taken + s.queue.length
    dropKey
    setInnerKey
      { possible := true
        required := s.flow == 0 && s.indent == (c.column : Int)
        number := number
        index := c.index
        line := c.line
        column := c.column }
    modify fun s => { s with waiting := (number, s.flow) :: s.waiting }

def allowKey (b : Bool) : Scan Unit := modify fun s => { s with keyAllowed := b }

/-! ## between tokens -/

/-- goes to the next token.  A byte order mark may start a line.  A tab does not indent a line in a
block collection; a new line there may start a key. -/
def toToken (s : TokenStream) : Read Bool :=
  iterate (fun allowed => do
    ensure 1
    let c ← get
    if c.column == 0 && c.front == '\uFEFF' then skip
    ensure 1
    skipClass fun a => a == ' ' || ((decide (0 < s.flow) || !allowed) && a == '\t')
    if (← peek 0) == '#' then skipComments
    if isBreak (← peek 0) then
      skipLine
      return .inl (allowed || s.flow == 0)
    else return .inr allowed) s.keyAllowed

/-! ## tokens of each kind -/

/-- ends all block collections -/
def closeBlocks : Scan Unit := do
  unroll (-1)
  dropKey
  allowKey false

def sign (t : Token) : Scan Unit := do
  text skip
  push t

def fetchStreamEnd : Scan Unit := do
  modify fun s =>
    let c := s.cursor
    if c.column == 0 then s else { s with cursor := { c with column := 0, line := c.line + 1 } }
  closeBlocks
  push .streamEnd

def fetchMarker (t : Token) : Scan Unit := do
  closeBlocks
  text (skipMany 3)
  push t

def fetchFlowStart (t : Token) : Scan Unit := do
  noteKey
  modify fun s =>
    { s with keys := { number := s.taken + s.queue.length } :: s.keys, flow := s.flow + 1 }
  if maxDepth < (← get).flow then fail
  allowKey true
  sign t

def fetchFlowEnd (t : Token) : Scan Unit := do
  dropKey
  let s ← get
  if 0 < s.flow then
    forget (innerKey s).number
    modify fun s => { s with flow := s.flow - 1, keys := s.keys.tail }
  allowKey false
  sign t

def fetchFlowEntry : Scan Unit := do
  dropKey
  allowKey true
  sign .flowEntry

def fetchBlockEntry : Scan Unit := do
  let s ← get
  if s.flow == 0 then
    if !s.keyAllowed then fail
    roll s.cursor.column (push .blockSequenceStart)
  dropKey
  allowKey true
  sign .blockEntry

def fetchKey : Scan Unit := do
  let s ← get
  if s.flow == 0 then
    if !s.keyAllowed then fail
    roll s.cursor.column (push .blockMappingStart)
  dropKey
  allowKey (s.flow == 0)
  sign .key

/-- a value: behind a possible key, which it makes a key, or on its own -/
def fetchValue : Scan Unit := do
  if ← keyHolds (← get).flow then
    let k := innerKey (← get)
    insertAt k.number .key
    roll k.column (insertAt k.number .blockMappingStart)
    setInnerKey { k with possible := false }
    forget k.number
    allowKey false
  else
    let s ← get
    if s.flow == 0 then
      if !s.keyAllowed then fail
      roll s.cursor.column (push .blockMappingStart)
    allowKey (s.flow == 0)
  sign .value

/-- a token with a text that may start a key -/
def fetchName (r : Read Token) : Scan Unit := do
  noteKey
  allowKey false
  push (← text r)

def fetchPlain : Scan Unit := do
  noteKey
  allowKey false
  let s ← get
  let (t, crossed) ← text (plainText (decide (0 < s.flow)) (s.indent + 1))
  if crossed then allowKey true
  push (.scalar (String.ofList t) true)

def fetchQuoted (double : Bool) : Scan Unit :=
  fetchName do
    let t ← quotedText double
    return .scalar (String.ofList t) false

def fetchBlockText (literal : Bool) : Scan Unit := do
  dropKey
  allowKey true
  let t ← text (blockText literal (← get).indent)
  push (.scalar (String.ofList t) false)

def fetchDirective : Scan Unit := do
  closeBlocks
  push (← text directiveToken)

/-- characters no plain scalar starts with -/
def isIndicator (c : Char) : Bool :=
  ['-', '?', ':', ',', '[', ']', '{', '}', '#', '&', '*', '!', '|', '>', '\'', '"', '%', '@', '\x60'].contains c

def startsPlain (inFlow : Bool) (c next : Char) : Bool :=
  !(isSpacing c || isIndicator c) || (c == '-' && !isGap next) ||
    (!inFlow && (c == '?' || c == ':') && !isSpacing next)

/-- the token at the cursor, which is no marker -/
def fetchSign : Scan Unit := do
  let s ← get
  let inFlow := decide (0 < s.flow)
  let c := s.cursor.peek 0
  let next := s.cursor.peek 1
  if c == '[' then fetchFlowStart .flowSequenceStart
  else if c == '{' then fetchFlowStart .flowMappingStart
  else if c == ']' then fetchFlowEnd .flowSequenceEnd
  else if c == '}' then fetchFlowEnd .flowMappingEnd
  else if c == ',' then fetchFlowEntry
  else if c == '-' && isSpacing next then fetchBlockEntry
  else if c == '?' && (inFlow || isSpacing next) then fetchKey
  else if c == ':' && (inFlow || isSpacing next) then fetchValue
  else if c == '*' then fetchName (Token.alias <$> anchorName)
  else if c == '&' then fetchName (Token.anchor <$> anchorName)
  else if c == '!' then fetchName tagToken
  else if c == '|' && !inFlow then fetchBlockText true
  else if c == '>' && !inFlow then fetchBlockText false
  else if c == '\'' then fetchQuoted false
  else if c == '"' then fetchQuoted true
  else if startsPlain inFlow c next then fetchPlain
  else fail
  if (← get).queue.getLast? != some .blockEntry then text skipLineComment

def fetch : Scan Unit := do
  text (ensure 1)
  if !(← get).started then
    modify fun s => { s with started := true, keys := [{}] }
    push .streamStart
  else
    let s ← get
    allowKey (← text (toToken s))
    unroll (← get).cursor.column
    text (ensure 4)
    let c := (← get).cursor
    if c.peek 0 == endMark then fetchStreamEnd
    else if c.column == 0 && c.peek 0 == '%' then fetchDirective
    else if c.atMarker '-' then fetchMarker .documentStart
    else if c.atMarker '.' then fetchMarker .documentEnd
    else fetchSign

/-! ## looking and taking -/

/-- whether another token has to be read before the next one can be taken -/
def needsMore : Scan Bool := do
  let s ← get
  if !hasAtLeast 3 s.queue then return true
  else
    match s.waiting.lookup s.taken with
    | none => return false
    | some depth => keyHolds depth

/-- reads tokens until the next one is settled -/
def settle : Nat → Scan Unit
  | 0 => fail
  | fuel + 1 => do
    if ← needsMore then
      fetch
      settle fuel

def peekToken : Scan Token := do
  settle ((← get).cursor.size + 8)
  return (← get).queue.headD .streamEnd

def dropToken : Scan Unit := modify fun s => { s with queue := s.queue.tail, taken := s.taken + 1 }

end Scan

end TreeJit.Yaml
