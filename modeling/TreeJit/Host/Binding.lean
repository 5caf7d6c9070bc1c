import TreeJit.Host.Fault
import TreeJit.Host.Platform

/-!
# Binding code to host functions

An entry point becomes a host function value if its signature fits the function's type
(`fits`): as many parameters and results, each carried by its host type, and at most one result; and
if the platform can carry its arguments.
-/

namespace TreeJit.Host

open SSA

/-- the first position where a host type does not carry the value type -/
def checkCarried (fault : Nat → Ty → HostType → Fault) : Nat → List Ty → List HostType → Except Fault Unit
  | i, t :: ts, h :: hs => if h.carries t then checkCarried fault (i + 1) ts hs else .error (fault i t h)
  | _, _, _ => .ok ()

def fits (sig : Signature) (ft : HostType) : Except Fault Unit :=
  match ft with
  | .func ins outs variadic =>
    if variadic then .error (.variadic ft)
    else if 1 < sig.returns.length then .error (.results sig.returns.length)
    else if ins.length ≠ sig.params.length ∨ outs.length ≠ sig.returns.length then
      .error (.shape ft sig)
    else do
      checkCarried .parameter 0 sig.params ins
      checkCarried .result 0 sig.returns outs
  | t => .error (.notFunc t)

/-- what is given as the place of a function value -/
inductive Place where
  /-- a pointer to a variable of the type -/
  | variable (t : HostType)
  /-- a nil pointer to the type -/
  | nilPointer (t : HostType)
  /-- a value of the type itself -/
  | value (t : HostType)

section
variable [Platform]

def passable : HostType → Except Fault Unit
  | .func ins _ _ => if Platform.passes ins then .ok () else .error .tooManyArguments
  | _ => .ok ()

def makeFunc (entry : UInt64) (sig : Signature) (ft : HostType) : Except Fault Unit :=
  if entry = 0 then .error .nilEntry
  else do
    fits sig ft
    passable ft

def bind (entry : UInt64) (sig : Signature) (p : Place) : Except Fault Unit :=
  if entry = 0 then .error .nilEntry
  else
    match p with
    | .variable t => makeFunc entry sig t
    | .nilPointer t => .error (.notPointer (.pointerTo t))
    | .value t => .error (.notPointer t)

end

/-! ## arguments of a call -/

/-- an argument: a word, or a private copy of bytes passed by address -/
inductive Arg where
  | word (bits : UInt64)
  | buffer (bytes : List UInt8)

def Arg.isBuffer : Arg → Bool
  | .buffer _ => true
  | .word _ => false

def offered (t : Ty) (buffer : Bool) : HostType :=
  match t with
  | .i8 => .uint8
  | .i16 => .uint16
  | .i32 => .uint32
  | .i64 => if buffer then .pointer else .uint64
  | .f32 => .float32
  | _ => .float64

/-- the function type a call with these arguments offers -/
def offeredFunc (sig : Signature) (args : List Arg) : HostType :=
  .func (sig.params.mapIdx fun i t => offered t ((args[i]?.map Arg.isBuffer).getD false))
    (sig.returns.map fun t => offered t false) false

end TreeJit.Host
