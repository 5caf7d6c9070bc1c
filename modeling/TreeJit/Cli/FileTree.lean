/-!
# Files and directories

A file tree is what a command finds when it reads a file and what it leaves when it creates one.  A
path is a list of names: an empty name and `.` stay in a directory, `..` goes up, and every name but
the last has to lead to a directory.

* `FileTree.walk`          follows names;
* `FileSystem.read`        the bytes of a file;
* `FileSystem.create`      the tree with a new file in place of what stood there.
-/

namespace TreeJit.Cli

inductive FileTree where
  | file (bytes : List UInt8)
  /-- a file that keeps nothing -/
  | sink
  | dir (entries : List (String × FileTree))

inductive FileCause where
  | absent | notDirectory | isDirectory | nameTooLong | badPath
  | other (text : String)
  deriving DecidableEq

def FileCause.text : FileCause → String
  | .absent => "no such file or directory"
  | .notDirectory => "not a directory"
  | .isDirectory => "is a directory"
  | .nameTooLong => "file name too long"
  | .badPath => "invalid argument"
  | .other t => t

structure FileFault where
  path : String
  /-- whether the file could be opened -/
  opened : Bool := false
  cause : FileCause
  deriving DecidableEq

def FileFault.message (f : FileFault) : String :=
  (if f.opened then "read " else "open ") ++ f.path ++ ": " ++ f.cause.text

namespace FileTree

def maxName : Nat := 255

/-- the way from the root to a place: names and what they lead to, the last one first -/
abbrev Trail := List (String × FileTree)

def child? (t : FileTree) (name : String) : Except FileCause FileTree :=
  match t with
  | .dir es =>
    if maxName < name.utf8ByteSize then .error .nameTooLong
    else (es.lookup name).elim (.error .absent) .ok
  | _ => .error .notDirectory

/-- the place at the end of a way -/
def place (root : FileTree) (trail : Trail) : FileTree := (trail.head?.map Prod.snd).getD root

def walk (root : FileTree) : Trail → List String → Except FileCause Trail
  | trail, [] => .ok trail
  | trail, n :: ns =>
    let here := place root trail
    match here with
    | .dir _ =>
      if n = "" || n = "." then walk root trail ns
      else if n = ".." then walk root trail.tail ns
      else
        match here.child? n with
        | .error c => .error c
        | .ok t => walk root ((n, t) :: trail) ns
    | _ => .error .notDirectory

def setChild (t : FileTree) (name : String) (c : FileTree) : FileTree :=
  match t with
  | .dir es => .dir ((name, c) :: es.filter fun e => e.1 != name)
  | t => t

/-- the root with another tree at the end of a way -/
def replaceAt (root : FileTree) : Trail → FileTree → FileTree
  | [], t => t
  | (n, _) :: trail, t => replaceAt root trail ((place root trail).setChild n t)

theorem walk_nil (root : FileTree) (trail : Trail) : walk root trail [] = .ok trail := by
  unfold walk
  rfl

theorem child?_setChild (es : List (String × FileTree)) (name : String) (c : FileTree)
    (h : name.utf8ByteSize ≤ maxName) : ((FileTree.dir es).setChild name c).child? name = .ok c := by
  simp [setChild, child?, Nat.not_lt.mpr h]

end FileTree

structure FileSystem where
  root : FileTree
  names : String → List String

namespace FileSystem

def read (fs : FileSystem) (path : String) : Except FileFault (List UInt8) :=
  if path.toList.contains (Char.ofNat 0) then .error { path, cause := .badPath }
  else
    match fs.root.walk [] (fs.names path) with
    | .error cause => .error { path, cause }
    | .ok trail =>
      match fs.root.place trail with
      | .file bs => .ok bs
      | .sink => .ok []
      | .dir _ => .error { path, opened := true, cause := .isDirectory }

/-- a file with the given bytes in place of what a name leads to; a path that ends with a slash or a
dot means a directory -/
def createAt (root : FileTree) (trail : FileTree.Trail) (name : String) (bs : List UInt8) :
    Except FileCause FileTree :=
  if name = "." || name = ".." then .error .isDirectory
  else
    match (root.place trail).child? name with
    | .ok (.dir _) => .error .isDirectory
    | .ok .sink => .ok root
    | .ok (.file _) | .error .absent => .ok (root.replaceAt ((name, .sink) :: trail) (.file bs))
    | .error c => .error c

def create (fs : FileSystem) (path : String) (bs : List UInt8) : Except FileFault FileSystem :=
  if path.toList.contains (Char.ofNat 0) then .error { path, cause := .badPath }
  else
    let names := fs.names path
    let full := (names.reverse.dropWhile (· = "")).reverse
    let made : Except FileCause FileTree := do
      let trail ← fs.root.walk [] full.dropLast
      match fs.root.place trail with
      | .dir _ =>
        match full.getLast? with
        | none => throw .isDirectory
        | some name => if full.length < names.length then throw .isDirectory else createAt fs.root trail name bs
      | _ => throw .notDirectory
    match made with
    | .ok root => .ok { fs with root }
    | .error cause => .error { path, cause }

end FileSystem

/-- the names of a path, which starts at the root or in the directory `home` -/
def pathNames (home : List String) (path : String) : List String :=
  let ns := path.splitOn "/"
  if ns.head? = some "" then ns else home ++ ns

end TreeJit.Cli
