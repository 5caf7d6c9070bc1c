import TreeJit.SSA.Func
import TreeJit.Decimal.General
import TreeJit.Word.Binary

/-!
# Listings of functions

`Func.text` writes a function for reading: its header, its slots and imports, and then each block
with its parameters and one line per instruction.
-/

namespace TreeJit.SSA

def valueList (vs : List ValueNo) : String := joinWith ", " (vs.map fun (v : Nat) => valueName v)

def Target.text (t : Target) : String := blockName t.block ++ "(" ++ valueList t.args ++ ")"

def floatText (t : Ty) (bits : UInt64) : String :=
  Decimal.doubleText (if t = .f32 then widen bits.toUInt32 else bits)

def Inst.text (i : Inst) : String :=
  let op := i.opcode.name
  match i with
  | .iconst t bits => op ++ "." ++ t.name ++ " " ++ toString bits.toInt64.toInt
  | .fconst t bits => op ++ "." ++ t.name ++ " " ++ floatText t bits
  | .binary _ t x y => op ++ "." ++ t.name ++ " " ++ valueList [x, y]
  | .icmp cc _ x y => op ++ " " ++ cc.name ++ " " ++ valueList [x, y]
  | .fcmp cc _ x y => op ++ " " ++ cc.name ++ " " ++ valueList [x, y]
  | .splat t x => op ++ "." ++ t.name ++ " " ++ valueList [x]
  | .extractLane _ x lane => op ++ " " ++ valueList [x] ++ ", " ++ toString lane
  | .load t p o => op ++ "." ++ t.name ++ " " ++ valueList [p] ++ signed o.toInt
  | .store t x p o => op ++ "." ++ t.name ++ " " ++ valueList [x, p] ++ signed o.toInt
  | .stackLoad t s o => op ++ "." ++ t.name ++ " " ++ slotName s ++ signed o.toInt
  | .stackStore t x s o =>
    op ++ "." ++ t.name ++ " " ++ valueList [x] ++ ", " ++ slotName s ++ signed o.toInt
  | .stackAddr s o => op ++ "." ++ Ty.pointer.name ++ " " ++ slotName s ++ signed o.toInt
  | .call f xs => op ++ " " ++ importName f ++ "(" ++ valueList xs ++ ")"
  | .jump t => op ++ " " ++ t.text
  | .brif _ c t e => op ++ " " ++ valueList [c] ++ ", " ++ t.text ++ ", " ++ e.text
  | .ret [] => op
  | .ret xs => op ++ " " ++ valueList xs

def Step.text (s : Step) : String :=
  (if s.results.isEmpty then "" else valueList s.results ++ " = ") ++ s.inst.text

def Func.blockText (f : Func) (n : Nat) (b : Block) : String :=
  let params := b.params.toList.map fun (p : ValueNo) => valueName p ++ ": " ++ (f.typeOf p).name
  let head := blockName n ++ "(" ++ joinWith ", " params ++ "):\n"
  head ++ String.join (b.steps.toList.map fun s => "    " ++ s.text ++ "\n")

private def numbered {α : Type} (f : Nat → α → String) (xs : Array α) : String :=
  String.join (xs.toList.mapIdx f)

def Func.text (f : Func) : String :=
  let slots := numbered (fun (i : Nat) (s : Slot) =>
    "    " ++ slotName i ++ s!" = explicit_slot {s.size}, align {s.align}\n") f.slots
  let imports := numbered (fun (i : Nat) (e : Import) =>
    "    " ++ importName i ++ " = %" ++ e.name ++ e.sig.text ++ "\n") f.imports
  "function %" ++ f.name ++ f.sig.text ++ " \x7b\n" ++ slots ++ imports
    ++ numbered f.blockText f.blocks ++ "\x7d\n"

end TreeJit.SSA
