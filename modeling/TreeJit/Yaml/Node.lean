/-!
# YAML documents

A document is a tree of scalars, sequences and mappings.  A scalar keeps its text and whether it
stood without quotes.  A node may have a tag; an alias stands for a node with a name.
-/

namespace TreeJit.Yaml

inductive Node where
  | scalar (tag : Option String) (text : String) (plain : Bool)
  | seq (items : List Node)
  | map (tag : Option String) (entries : List (Node × Node))
  /-- a name and the node that it stands for -/
  | alias (name : String) (target : Node)
  /-- a name that stands inside its own node, which is a mapping or a sequence -/
  | loop (name : String) (isMap : Bool)

namespace Node

/-- the empty scalar, which means null -/
def null : Node := .scalar none "" true

def isMap : Node → Bool
  | .map .. => true
  | _ => false

def sameKey : Node → Node → Bool
  | .scalar _ a _, .scalar _ b _ => a == b
  | .seq _, .seq _ => true
  | .map .., .map .. => true
  | .alias a _, .alias b _ => a == b
  | .alias a _, .loop b _ => a == b
  | .loop a _, .alias b _ => a == b
  | .loop a _, .loop b _ => a == b
  | _, _ => false

end Node

def distinctKeys : List Node → Bool
  | [] => true
  | k :: ks => !ks.any (Node.sameKey k) && distinctKeys ks

end TreeJit.Yaml
