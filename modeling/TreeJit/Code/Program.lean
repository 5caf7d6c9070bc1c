import TreeJit.Text.Quoted
import TreeJit.Word.LittleEndian

/-!
# Code with references to symbols

A `Program` is machine code together with the places where addresses of symbols belong
(`SymbolRef`).  There are two forms of such a place (`RelocKind`):

* `abs64`       eight bytes, the address in little-endian order;
* `movWide64`   four move-wide instruction words; each carries sixteen bits of the address in
                bits 5 to 20.

`Program.link` writes the address of every symbol into its place, in the order of the references,
and stops at the first one that cannot be served (`LinkFault`).  The end of a place is computed in
64-bit arithmetic: a position so large that the sum wraps passes the range test and then runs past
the code (`LinkFault.overrun`).
-/

namespace TreeJit

/-- how an address is written into code; a number without meaning is kept as it came -/
inductive RelocKind where
  | abs64
  | movWide64
  | unknown (code : UInt8)
  deriving DecidableEq, Repr

def RelocKind.ofCode : UInt8 → RelocKind
  | 1 => .abs64
  | 2 => .movWide64
  | n => .unknown n

def RelocKind.name : RelocKind → String
  | .abs64 => "abs64"
  | .movWide64 => "movwide64"
  | .unknown n => s!"reloc({n})"

/-- a place in the code that waits for the address of a symbol -/
structure SymbolRef where
  pos : Int64
  name : String
  kind : RelocKind
  deriving DecidableEq

structure Program where
  code : List UInt8
  refs : List SymbolRef

inductive LinkFault where
  /-- the symbol has no address -/
  | unresolved (name : String)
  /-- the place is not inside the code -/
  | outside (name : String) (pos : Int64) (size : Nat)
  /-- the reference is of no known kind -/
  | unknownKind (kind : RelocKind) (name : String)
  /-- the place passed the wrapped range test but is not inside the code -/
  | overrun
  deriving DecidableEq

def LinkFault.message : LinkFault → String
  | .unresolved name => "unresolved symbol: " ++ quoted name
  | .outside name pos size =>
    "relocation for " ++ quoted name ++ s!" at {pos} out of range (code len {size})"
  | .unknownKind kind name =>
    "unsupported relocation kind " ++ kind.name ++ " for " ++ quoted name
  | .overrun => "slice bounds out of range"

/-! ## writing one address -/

def overwrite (code : List UInt8) (pos : Nat) (bs : List UInt8) : List UInt8 :=
  code.take pos ++ bs ++ code.drop (pos + bs.length)

theorem length_overwrite (code : List UInt8) (pos : Nat) (bs : List UInt8)
    (h : pos + bs.length ≤ code.length) : (overwrite code pos bs).length = code.length := by
  simp [overwrite]
  omega

def withImm16 (word imm : UInt32) : UInt32 :=
  (word &&& ~~~(0x1FFFE0 : UInt32)) ||| ((imm &&& 0xFFFF) <<< 5)

def wordAt (code : List UInt8) (pos : Nat) : UInt32 :=
  UInt32.ofNat (ofLittleEndian ((code.drop pos).take 4))

def wordBytes (w : UInt32) : List UInt8 := littleEndian 4 w.toNat

def halfword (addr : UInt64) (i : Nat) : UInt32 := UInt32.ofNat (addr.toNat / 65536 ^ i % 65536)

/-- the four move-wide words at `pos`, carrying the address -/
def moveWideBytes (code : List UInt8) (pos : Nat) (addr : UInt64) : List UInt8 :=
  [0, 1, 2, 3].flatMap fun i => wordBytes (withImm16 (wordAt code (pos + 4 * i)) (halfword addr i))

def RelocKind.window : RelocKind → Nat
  | .abs64 => 8
  | .movWide64 => 16
  | .unknown _ => 0

/-- the bytes that belong into the place of `r` -/
def SymbolRef.patch (r : SymbolRef) (code : List UInt8) (addr : UInt64) : List UInt8 :=
  match r.kind with
  | .abs64 => littleEndian 8 addr.toNat
  | .movWide64 => moveWideBytes code r.pos.toNatClampNeg addr
  | .unknown _ => []

/-- write one address -/
def SymbolRef.write (r : SymbolRef) (code : List UInt8) (addr : UInt64) :
    Except LinkFault (List UInt8) :=
  match r.kind with
  | .unknown _ => .error (.unknownKind r.kind r.name)
  | _ =>
    let stop := r.pos + Int64.ofNat r.kind.window
    if r.pos < 0 || decide (Int64.ofNat code.length < stop) then
      .error (.outside r.name r.pos code.length)
    else if code.length < r.pos.toNatClampNeg + r.kind.window then .error .overrun
    else .ok (overwrite code r.pos.toNatClampNeg (r.patch code addr))

/-! ## linking -/

/-- the code with every reference served from `resolve` -/
def Program.link (p : Program) (resolve : String → Option UInt64) :
    Except LinkFault (List UInt8) :=
  p.refs.foldlM (fun code r =>
    match resolve r.name with
    | none => .error (.unresolved r.name)
    | some addr => r.write code addr) p.code

theorem Program.link_nil (code : List UInt8) (resolve : String → Option UInt64) :
    Program.link ⟨code, []⟩ resolve = .ok code := rfl

end TreeJit
