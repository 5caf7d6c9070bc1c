import TreeJit.Yaml.Node
import TreeJit.Yaml.TokenStream

/-!
# The first document of a text

`Yaml.parse` reads the first document; what follows it is not looked at, apart from the tokens that
are read ahead.  It gives nothing for a text without a document.

* `node`           the node at the next token;
* `flowItems`, `flowEntries`     the inside of brackets and braces;
* `blockItems`, `blockEntries`   collections shown by indentation; `plainItems` for a sequence that is
                                 not indented deeper than the key in front of it.

The readers take fuel.  Each one takes a token or hands on to one that does, so a multiple of the size
of the text is enough.
-/

namespace TreeJit.Yaml

structure Anchor where
  name : String
  isMap : Bool := false
  node : Option Node := none

/-- the part of a text that is read so far -/
structure DocumentState where
  stream : TokenStream
  /-- short forms of tags -/
  handles : List (String × String) := []
  /-- the names, the last one first -/
  anchors : List Anchor := []

abbrev DocumentReader := StateT DocumentState (Except Fault)

namespace DocumentReader

def fail {α : Type} : DocumentReader α := throw .malformed

def token : DocumentReader Token := fun c =>
  (Scan.peekToken.run c.stream).map fun (t, stream) => (t, { c with stream })

def drop : DocumentReader Unit := fun c =>
  (Scan.dropToken.run c.stream).map fun (_, stream) => ((), { c with stream })

def following : DocumentReader Token := do
  drop
  token

/-! ## names and tags -/

/-- gives a name to a node that is about to be read; the result tells the name's place -/
def openName (name : Option String) (isMap : Bool) : DocumentReader Nat := do
  let c ← get
  if let some name := name then set { c with anchors := { name, isMap } :: c.anchors }
  return c.anchors.length

def closeName (name : Option String) (place : Nat) (n : Node) : DocumentReader Node := do
  if name.isSome then
    modify fun c =>
      { c with anchors := c.anchors.modify (c.anchors.length - 1 - place) fun a => { a with node := some n } }
  return n

/-- a node with a name, which holds inside the node already -/
def named (name : Option String) (isMap : Bool) (read : DocumentReader Node) : DocumentReader Node := do
  let place ← openName name isMap
  let n ← read
  closeName name place n

def aliasNode (name : String) : DocumentReader Node := do
  match (← get).anchors.find? fun a => a.name == name with
  | none => fail
  | some { node := some n, .. } => return .alias name n
  | some { isMap, .. } => return .loop name isMap

def longTag : String := "tag:yaml.org,2002:"

/-- a tag in its short form; the tag `!` says nothing -/
def shortTag (tag : String) : Option String :=
  if tag = "!" then none
  else if tag.startsWith longTag then some ("!!" ++ tag.drop longTag.length)
  else some tag

def resolveTag (handle suffix : String) : DocumentReader String := do
  if handle.isEmpty then return suffix
  else
    match (← get).handles.lookup handle with
    | some expansion => return expansion ++ suffix
    | none => fail

/-- the name and the tag in front of a node, in any order -/
structure Properties where
  name : Option String := none
  tag : Option (String × String) := none

def properties : DocumentReader Properties := do
  match ← token with
  | .anchor name =>
    match ← following with
    | .tag h s =>
      drop
      return { name := some name, tag := some (h, s) }
    | _ => return { name := some name }
  | .tag h s =>
    match ← following with
    | .anchor name =>
      drop
      return { name := some name, tag := some (h, s) }
    | _ => return { tag := some (h, s) }
  | _ => return {}

/-! ## nodes -/

/-- the tokens in front of which a block key or value is empty -/
def endsBlockPart (t : Token) : Bool := t == .key || t == .value || t == .blockEnd

def emptyNode (p : Properties) (short : Option String) : DocumentReader Node :=
  if p.name.isSome || p.tag.isSome then named p.name false (return .scalar short "" true) else fail

mutual

/-- the node at the next token; `block` says that it may be a block collection, `beside` that a
sequence may start in the column of the key in front of it -/
def node : Nat → (block beside : Bool) → DocumentReader Node
  | 0, _, _ => fail
  | fuel + 1, block, beside => do
    match ← token with
    | .alias name =>
      let n ← aliasNode name
      drop
      return n
    | _ =>
      let p ← properties
      let t ← token
      let tag ← p.tag.mapM fun (h, s) => resolveTag h s
      let short := tag.bind shortTag
      match t with
      | .blockEntry =>
        if beside then named p.name false (Node.seq <$> plainItems fuel [])
        else emptyNode p short
      | .scalar text plain =>
        drop
        named p.name false (return .scalar short text plain)
      | .flowSequenceStart => named p.name false (drop *> Node.seq <$> flowItems fuel [])
      | .flowMappingStart => named p.name true (drop *> Node.map short <$> flowEntries fuel [])
      | .blockSequenceStart =>
        if block then named p.name false (drop *> Node.seq <$> blockItems fuel [])
        else emptyNode p short
      | .blockMappingStart =>
        if block then named p.name true (drop *> Node.map short <$> blockEntries fuel [])
        else emptyNode p short
      | _ => emptyNode p short

def flowItems : Nat → List Node → DocumentReader (List Node)
  | 0, _ => fail
  | fuel + 1, items => do
    let t ← token
    let t ←
      if items.isEmpty || t == .flowSequenceEnd then pure t
      else if t == .flowEntry then following
      else fail
    if t == .flowSequenceEnd then
      drop
      return items.reverse
    else
      let n ← if t == .key then drop *> flowPair fuel else node fuel false false
      flowItems fuel (n :: items)

/-- a pair as an item, which stands for a mapping of one entry -/
def flowPair : Nat → DocumentReader Node
  | 0 => fail
  | fuel + 1 => do
    let t ← token
    let k ←
      if t == .value || t == .flowEntry || t == .flowSequenceEnd then do
        drop
        pure Node.null
      else node fuel false false
    let v ← flowValue fuel .flowSequenceEnd
    return .map none [(k, v)]

def flowValue : Nat → (close : Token) → DocumentReader Node
  | 0, _ => fail
  | fuel + 1, close => do
    if (← token) == .value then
      let t ← following
      if t == .flowEntry || t == close then return .null else node fuel false false
    else return .null

def flowEntries : Nat → List (Node × Node) → DocumentReader (List (Node × Node))
  | 0, _ => fail
  | fuel + 1, entries => do
    let t ← token
    let t ←
      if entries.isEmpty || t == .flowMappingEnd then pure t
      else if t == .flowEntry then following
      else fail
    if t == .flowMappingEnd then
      drop
      return entries.reverse
    else if t == .key then
      let t ← following
      let k ←
        if t == .value || t == .flowEntry || t == .flowMappingEnd then pure Node.null
        else node fuel false false
      let v ← flowValue fuel .flowMappingEnd
      flowEntries fuel ((k, v) :: entries)
    else
      let k ← node fuel false false
      flowEntries fuel ((k, .null) :: entries)

def blockItems : Nat → List Node → DocumentReader (List Node)
  | 0, _ => fail
  | fuel + 1, items => do
    match ← token with
    | .blockEntry =>
      let t ← following
      let n ← if t == .blockEntry || t == .blockEnd then pure Node.null else node fuel true false
      blockItems fuel (n :: items)
    | .blockEnd =>
      drop
      return items.reverse
    | _ => fail

/-- the items of a sequence in the column of its key -/
def plainItems : Nat → List Node → DocumentReader (List Node)
  | 0, _ => fail
  | fuel + 1, items => do
    if (← token) == .blockEntry then
      let t ← following
      let n ← if t == .blockEntry || endsBlockPart t then pure Node.null else node fuel true false
      plainItems fuel (n :: items)
    else return items.reverse

def blockEntries : Nat → List (Node × Node) → DocumentReader (List (Node × Node))
  | 0, _ => fail
  | fuel + 1, entries => do
    match ← token with
    | .key =>
      let k ← if endsBlockPart (← following) then pure Node.null else node fuel true true
      let v ←
        if (← token) == .value then do
          if endsBlockPart (← following) then pure Node.null else node fuel true true
        else pure Node.null
      blockEntries fuel ((k, v) :: entries)
    | .blockEnd =>
      drop
      return entries.reverse
    | _ => fail

end

/-! ## documents -/

/-- the directives in front of a document: at most one version, which is 1.1, and different short
forms of tags -/
def directives : Nat → (version : Bool) → DocumentReader Unit
  | 0, _ => fail
  | fuel + 1, version => do
    match ← token with
    | .version major minor =>
      if version || major ≠ 1 || minor ≠ 1 then fail
      drop
      directives fuel true
    | .tagHandle handle expansion =>
      if ((← get).handles.lookup handle).isSome then fail
      modify fun c => { c with handles := (handle, expansion) :: c.handles }
      drop
      directives fuel version
    | _ => return ()

def usualHandles : List (String × String) := [("!", "!"), ("!!", longTag)]

def markedDocument (fuel : Nat) : DocumentReader Node := do
  directives fuel false
  modify fun c => { c with handles := c.handles ++ usualHandles }
  if (← token) != .documentStart then fail
  match ← following with
  | .version .. | .tagHandle .. | .documentStart | .documentEnd | .streamEnd => return .null
  | _ => node fuel true false

def document (fuel : Nat) : DocumentReader (Option Node) := do
  let _ ← token
  let n ←
    match ← following with
    | .streamEnd => return none
    | .version .. | .tagHandle .. | .documentStart => markedDocument fuel
    | _ => do
      modify fun c => { c with handles := usualHandles }
      node fuel true false
  let _ ← token
  return some n

end DocumentReader

/-- the first document of a text, none if there is not even a marker -/
def parse (bs : List UInt8) : Except Fault (Option Node) :=
  ((DocumentReader.document (32 * bs.length + 64)).run { stream := .ofBytes bs }).map Prod.fst

end TreeJit.Yaml
