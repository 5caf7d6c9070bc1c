import TreeJit.Yaml.Node
import TreeJit.Yaml.Scalar

/-!
# Records

A record is a mapping whose keys name fields.  `FieldKind` says what a field holds; a schema gives the
kind of each field.  A null leaves a field unset.  The key `<<` adds entries of other mappings, where
the entries of the mapping itself and those added first count.

A value of the wrong kind, an unknown field and a repeated key are noted and reading goes on, so that a
scalar that is faulty in itself further on is still found.  Aliases may not make up nearly all of what
is read.

* `field`           the value of a field;
* `ownEntries`      the fields that stand in a mapping;
* `mergeEntries`    the fields that come by `<<`;
* `Node.record`     the fields of a document.
-/

namespace TreeJit.Yaml

inductive FieldKind where
  | text | truth | integer | number
  /-- a record with the same fields -/
  | record
  deriving DecidableEq

inductive Value where
  | unset
  | text (s : String)
  | truth (b : Bool)
  | integer (i : Int64)
  /-- the pattern of a double -/
  | number (bits : UInt64)
  | record (fields : List (String × Value))

abbrev Fields := List (String × Value)

abbrev Schema := String → Option FieldKind

/-- a scalar as the value of a field; a text field takes the text of any scalar -/
def FieldKind.value? (kind : FieldKind) (text : String) (v : Scalar) : Option Value :=
  match kind with
  | .text =>
    match v with
    | .text s => some (.text s)
    | _ => some (.text text)
  | .truth => v.bool?.map .truth
  | .integer => v.int?.map .integer
  | .number => v.float?.map .number
  | .record => none

/-! ## progress -/

structure Progress where
  /-- whether something was of the wrong kind -/
  mismatch : Bool := false
  /-- the nodes read so far -/
  visits : Nat := 0
  /-- those of them that were read through an alias -/
  aliased : Nat := 0

/-- whether aliases make up too much.  In small documents 99 percent are allowed; between 400,000 and
4,000,000 nodes the share falls to 10 percent. -/
def Progress.excessive (p : Progress) : Bool :=
  decide (100 < p.aliased ∧ 1000 < p.visits) &&
    if p.visits ≤ 400000 then decide (99 * p.visits < 100 * p.aliased)
    else if 4000000 ≤ p.visits then decide (p.visits < 10 * p.aliased)
    else decide (p.visits * (99 * 3600000 - 89 * (p.visits - 400000)) < 360000000 * p.aliased)

abbrev Decode := StateT Progress (Except Fault)

def visit (depth : Nat) : Decode Unit := do
  modify fun p =>
    { p with visits := p.visits + 1, aliased := if 0 < depth then p.aliased + 1 else p.aliased }
  if (← get).excessive then throw .malformed

def noteMismatch : Decode Unit := modify fun p => { p with mismatch := true }

def meaningOf (tag : Option String) (text : String) (plain : Bool) : Decode Scalar :=
  liftM (Scalar.meaning tag text plain)

/-- whether a key stands for the entries of other mappings -/
def Node.isMerge : Node → Bool
  | .scalar tag text plain => text == Scalar.mergeSign && ((tag.isNone && plain) || tag == some "!!merge")
  | _ => false

/-! ## values of any kind -/

/-- what becomes of a node when nothing is known about it -/
inductive Loose where
  | refused
  /-- a scalar, with its text if it means that -/
  | scalar (text : Option String)
  | collection
  deriving DecidableEq

def Node.mergeable : Node → Bool
  | .map .. => true
  | .alias _ t => t.isMap
  | .seq items => items.all fun n =>
      match n with
      | .map .. => true
      | .alias _ t => t.isMap
      | _ => false
  | _ => false

mutual

def loose (depth : Nat) : Node → Decode Loose
  | .scalar tag text plain => do
    visit depth
    match ← meaningOf tag text plain with
    | .text s => return .scalar (some s)
    | _ => return .scalar none
  | .seq items => do
    visit depth
    looseItems depth items
    return .collection
  | .map _ es => do
    visit depth
    if distinctKeys (es.map Prod.fst) then
      looseEntries depth es
      return .collection
    else
      noteMismatch
      return .refused
  | .alias _ t => do
    visit depth
    loose (depth + 1) t
  | .loop .. => throw .malformed
termination_by n => sizeOf n

def looseItems (depth : Nat) : List Node → Decode Unit
  | [] => return ()
  | n :: ns => do
    let _ ← loose depth n
    looseItems depth ns
termination_by ns => sizeOf ns

/-- a collection is no key here -/
def looseEntries (depth : Nat) : List (Node × Node) → Decode Unit
  | [] => return ()
  | (k, v) :: es => do
    if k.isMerge then
      if !v.mergeable then throw .malformed
      let _ ← loose depth v
    else
      match ← loose depth k with
      | .refused => pure ()
      | .scalar _ =>
        let _ ← loose depth v
      | .collection => throw .malformed
    looseEntries depth es
termination_by es => sizeOf es

end

def keyTexts (depth : Nat) : List Node → Decode (List String)
  | [] => return []
  | k :: ks => do
    match ← loose depth k with
    | .collection => throw .breakdown
    | .scalar (some s) => return s :: (← keyTexts depth ks)
    | _ => keyTexts depth ks

/-! ## fields -/

mutual

def field (schema : Schema) (kind : FieldKind) (depth : Nat) : Node → Decode Value
  | .scalar tag text plain => do
    visit depth
    let v ← meaningOf tag text plain
    if v = .null then return .unset
    match kind.value? text v with
    | some a => return a
    | none =>
      noteMismatch
      return .unset
  | .seq _ => do
    visit depth
    noteMismatch
    return .unset
  | .map tag es => do
    visit depth
    if kind = .record && tag != some "!!null" && distinctKeys (es.map Prod.fst) then
      let (fs, _) ← entries schema depth none [] es
      return .record fs
    else
      noteMismatch
      return .unset
  | .alias _ t => do
    visit depth
    field schema kind (depth + 1) t
  | .loop _ isMap => do
    visit depth
    if isMap && kind = .record then throw .malformed
    noteMismatch
    return .unset
termination_by n => (sizeOf n, 0)

/-- the fields of a mapping, after those found before; of fields in `merged` the values are not
wanted -/
def entries (schema : Schema) (depth : Nat) (merged : Option (List String)) (found : Fields)
    (es : List (Node × Node)) : Decode (Fields × Option (List String)) := do
  let (found, merged) ← ownEntries schema depth [] merged found es
  mergeEntries schema depth (es.map Prod.fst) merged found es
termination_by (sizeOf es, 1)

def ownEntries (schema : Schema) (depth : Nat) (done : List String) (merged : Option (List String))
    (found : Fields) : List (Node × Node) → Decode (Fields × Option (List String))
  | [] => return (found, merged)
  | (k, v) :: es => do
    if k.isMerge then ownEntries schema depth done merged found es
    else
      match ← field schema .text depth k with
      | .text name =>
        if merged.any fun names => names.contains name then ownEntries schema depth done merged found es
        else
          let merged := merged.map (name :: ·)
          match schema name with
          | some kind =>
            if done.contains name then
              noteMismatch
              ownEntries schema depth done merged found es
            else
              let a ← field schema kind depth v
              ownEntries schema depth (name :: done) merged (found ++ [(name, a)]) es
          | none =>
            noteMismatch
            ownEntries schema depth done merged found es
      | _ => ownEntries schema depth done merged found es
termination_by es => (sizeOf es, 0)

/-- the fields that come by `<<`; `keys` are the keys of the mapping -/
def mergeEntries (schema : Schema) (depth : Nat) (keys : List Node) (merged : Option (List String))
    (found : Fields) : List (Node × Node) → Decode (Fields × Option (List String))
  | [] => return (found, merged)
  | (k, v) :: es => do
    if k.isMerge then
      let names ←
        match merged with
        | some names => pure names
        | none => keyTexts depth keys
      let (found, names) ← mergeValue schema depth names found v
      return (found, merged.map fun _ => names)
    else mergeEntries schema depth keys merged found es
termination_by es => (sizeOf es, 0)

/-- the fields of a mapping, of an alias for one or of several of these -/
def mergeValue (schema : Schema) (depth : Nat) (names : List String) (found : Fields) :
    Node → Decode (Fields × List String)
  | .seq items => mergeItems schema depth names found items
  | n => mergeSource schema depth names found n
termination_by n => (sizeOf n, 1)

def mergeItems (schema : Schema) (depth : Nat) (names : List String) (found : Fields) :
    List Node → Decode (Fields × List String)
  | [] => return (found, names)
  | n :: ns => do
    let (found, names) ← mergeSource schema depth names found n
    mergeItems schema depth names found ns
termination_by ns => (sizeOf ns, 0)

def mergeSource (schema : Schema) (depth : Nat) (names : List String) (found : Fields) :
    Node → Decode (Fields × List String)
  | .map _ es => do
    visit depth
    if distinctKeys (es.map Prod.fst) then
      let (found, names') ← entries schema depth (some names) found es
      return (found, names'.getD names)
    else
      noteMismatch
      return (found, names)
  | .alias _ t => do
    if !t.isMap then throw .malformed
    visit depth
    mergeSource schema (depth + 1) names found t
  | _ => throw .malformed
termination_by n => (sizeOf n, 0)

end

/-- the fields of a document; a null stands for a record without fields -/
def Node.recordFields (schema : Schema) : Node → Decode Fields
  | .map _ es => do
    if distinctKeys (es.map Prod.fst) then
      let (fs, _) ← entries schema 0 none [] es
      return fs
    else
      noteMismatch
      return []
  | n => do
    match ← field schema .record 0 n with
    | .record fs => return fs
    | _ => return []

/-- the fields of a document, if all values are of the right kind -/
def Node.record (schema : Schema) (n : Node) : Except Fault Fields :=
  match (n.recordFields schema).run { visits := if n.isMap then 2 else 1 } with
  | .error f => .error f
  | .ok (fs, p) => if p.mismatch then .error .mismatch else .ok fs

end TreeJit.Yaml
