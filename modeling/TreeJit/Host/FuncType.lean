import TreeJit.SSA.Ty

/-!
# Host types

Compiled code is called through function values of the host.  `HostType` lists the host's types as
far as such functions can mention them, and `HostType.text` writes a type the way the host does.
`HostType.carries` says which value type a host type can carry: kind for kind, vectors never.
-/

namespace TreeJit.Host

open SSA

inductive HostType where
  | bool
  | int8 | int16 | int32 | int64 | int
  | uint8 | uint16 | uint32 | uint64 | uint | uintptr
  | float32 | float64
  /-- a pointer to anything -/
  | pointer
  | pointerTo (t : HostType)
  | slice (t : HostType)
  /-- a function; the last parameter of a variadic one is a slice -/
  | func (ins outs : List HostType) (variadic : Bool)
  /-- any other type, by name -/
  | other (name : String)

namespace HostType

def named : List (String × HostType) :=
  [("bool", .bool), ("int8", .int8), ("int16", .int16), ("int32", .int32), ("int64", .int64),
    ("int", .int), ("uint8", .uint8), ("uint16", .uint16), ("uint32", .uint32),
    ("uint64", .uint64), ("uint", .uint), ("uintptr", .uintptr), ("float32", .float32),
    ("float64", .float64), ("unsafe.Pointer", .pointer)]

def ofChars : List Char → HostType
  | '*' :: cs => .pointerTo (ofChars cs)
  | '[' :: ']' :: cs => .slice (ofChars cs)
  | cs =>
    let s := String.ofList cs
    match named.lookup s with
    | some t => t
    | none => .other s

def ofText (s : String) : HostType := ofChars s.toList

mutual

def text : HostType → String
  | .bool => "bool"
  | .int8 => "int8"
  | .int16 => "int16"
  | .int32 => "int32"
  | .int64 => "int64"
  | .int => "int"
  | .uint8 => "uint8"
  | .uint16 => "uint16"
  | .uint32 => "uint32"
  | .uint64 => "uint64"
  | .uint => "uint"
  | .uintptr => "uintptr"
  | .float32 => "float32"
  | .float64 => "float64"
  | .pointer => "unsafe.Pointer"
  | .pointerTo t => "*" ++ t.text
  | .slice t => "[]" ++ t.text
  | .other name => name
  | .func ins outs variadic =>
    let outs :=
      match texts outs with
      | [] => ""
      | [t] => " " ++ t
      | ts => " (" ++ joinWith ", " ts ++ ")"
    "func(" ++ joinWith ", " (if variadic then variadicTexts ins else texts ins) ++ ")" ++ outs

def texts : List HostType → List String
  | [] => []
  | t :: ts => t.text :: texts ts

/-- as `texts`; the last one is written with dots -/
def variadicTexts : List HostType → List String
  | [] => []
  | [.slice t] => ["..." ++ t.text]
  | t :: ts => t.text :: variadicTexts ts

end

def carries (h : HostType) (t : Ty) : Bool :=
  match t, h with
  | .i8, .bool | .i8, .int8 | .i8, .uint8 => true
  | .i16, .int16 | .i16, .uint16 => true
  | .i32, .int32 | .i32, .uint32 => true
  | .i64, .int64 | .i64, .uint64 | .i64, .int | .i64, .uint | .i64, .uintptr => true
  | .i64, .pointer | .i64, .pointerTo _ => true
  | .f32, .float32 => true
  | .f64, .float64 => true
  | _, _ => false

def isFloat : HostType → Bool
  | .float32 => true
  | .float64 => true
  | _ => false

end HostType

end TreeJit.Host
