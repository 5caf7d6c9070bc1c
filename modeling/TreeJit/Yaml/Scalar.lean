import TreeJit.Yaml.Base64
import TreeJit.Yaml.Source
import TreeJit.Yaml.Timestamp

/-!
# Meanings of scalars

A scalar without quotes can mean something other than its text: nothing, a truth value, an integer,
a floating point number (`Scalar.resolve`).  A tag says what a scalar has to mean (`Scalar.tagged`).
-/

namespace TreeJit.Yaml

inductive Scalar where
  | null
  | bool (b : Bool)
  | int (i : Int)
  /-- the pattern of a double -/
  | float (bits : UInt64)
  | text (s : String)
  deriving DecidableEq

namespace Scalar

def infinity (neg : Bool) : Scalar :=
  .float (UInt64.ofNat (BinaryFormat.double.withSign neg BinaryFormat.double.infinity))

/-- the words with a meaning of their own -/
def word? (s : String) : Option Scalar :=
  if ["", "~", "null", "Null", "NULL"].contains s then some .null
  else if ["true", "True", "TRUE"].contains s then some (.bool true)
  else if ["false", "False", "FALSE"].contains s then some (.bool false)
  else if [".nan", ".NaN", ".NAN"].contains s then
    some (.float (UInt64.ofNat BinaryFormat.double.quietNaN))
  else if [".inf", ".Inf", ".INF", "+.inf", "+.Inf", "+.INF"].contains s then some (infinity false)
  else if ["-.inf", "-.Inf", "-.INF"].contains s then some (infinity true)
  else none

def fits (i : Int) : Bool := decide (-(2 ^ 63) ≤ i ∧ i < 2 ^ 64)

/-- an integer in binary or octal whose sign stands after the base; it has to fit 64 bits with its
sign -/
def lateSign? (cs : List Char) : Option Int :=
  let i? :=
    match cs with
    | '0' :: 'b' :: r => Decimal.integer? 2 r
    | '0' :: 'o' :: r => Decimal.integer? 8 r
    | _ => none
  i?.filter fun i => decide (-(2 ^ 63) ≤ i ∧ i < 2 ^ 63)

/-- the number of a text that starts with a digit or a sign; underscores are skipped -/
def number? (cs : List Char) : Option Scalar :=
  let cs := cs.filter (· ≠ '_')
  match (Decimal.integer? 0 cs).filter fits with
  | some i =>
    if cs.head? = some '+' ∧ 2 ^ 63 ≤ i then (Decimal.double? cs).map .float else some (.int i)
  | none =>
    match Decimal.double? cs with
    | some b => some (.float b)
    | none => (lateSign? cs).map .int

/-- whether every underscore stands between two digits; `afterDigit` says that a digit came before -/
def separates : (afterDigit : Bool) → List Char → Bool
  | _, [] => true
  | afterDigit, '_' :: cs => afterDigit && (cs.head?.any Char.isDigit) && separates false cs
  | _, c :: cs => separates c.isDigit cs

/-- the number of a text that starts with a point; underscores separate digits -/
def fraction? (cs : List Char) : Option Scalar :=
  if separates false cs then (Decimal.double? (cs.filter (· ≠ '_'))).map .float else none

def resolve (s : String) : Scalar :=
  match word? s with
  | some v => v
  | none =>
    match s.toList with
    | [] => .null
    | c :: cs =>
      if c = '.' then (fraction? (c :: cs)).getD (.text s)
      else if c.isDigit || c = '+' || c = '-' then (number? (c :: cs)).getD (.text s)
      else .text s

def tag : Scalar → String
  | .null => "!!null"
  | .bool _ => "!!bool"
  | .int _ => "!!int"
  | .float _ => "!!float"
  | .text _ => "!!str"

/-- the sign that stands for the entries of other mappings -/
def mergeSign : String := "<<"

/-- the tags of what a scalar can mean by itself -/
def ownTags : List String := ["!!null", "!!bool", "!!int", "!!float"]

def tagged (tag s : String) : Except Fault Scalar :=
  if ownTags.contains tag then
    let v := resolve s
    if v.tag = tag then .ok v
    else
      match tag, v with
      | "!!float", .int i => if i < 2 ^ 63 then .ok (.float (doubleOfInt i)) else .error .malformed
      | _, _ => .error .malformed
  else if tag = "!!binary" then ((Base64.text? s).map Scalar.text).elim (.error .malformed) .ok
  else if tag = "!!timestamp" && !Timestamp.isTimestamp s then .error .malformed
  else .ok (.text s)

def meaning (tag : Option String) (s : String) (plain : Bool) : Except Fault Scalar :=
  match tag with
  | some t => tagged t s
  | none => .ok (if plain then resolve s else .text s)

theorem meaning_quoted (s : String) : meaning none s false = .ok (.text s) := rfl

/-- a tag that a scalar has by itself changes nothing -/
theorem tagged_int {s : String} {i : Int} (h : resolve s = .int i) : tagged "!!int" s = .ok (.int i) := by
  simp [tagged, ownTags, h, tag]

/-! ## values of fields -/

/-- a truth value; some words that are texts elsewhere count too -/
def bool? : Scalar → Option Bool
  | .bool b => some b
  | .text s =>
    if ["y", "Y", "yes", "Yes", "YES", "on", "On", "ON"].contains s then some true
    else if ["n", "N", "no", "No", "NO", "off", "Off", "OFF"].contains s then some false
    else none
  | _ => none

/-- a double cut to an integer; what does not fit becomes the least integer -/
def truncate (bits : UInt64) : Int64 :=
  match BinaryFormat.double.decode bits.toNat with
  | .finite neg m q =>
    let n : Int := (m * 2 ^ q.toNat / 2 ^ (-q).toNat : Nat)
    let i := if neg then -n else n
    if -(2 ^ 63) ≤ i ∧ i < 2 ^ 63 then Int64.ofInt i else Int64.ofInt (-(2 ^ 63))
  | _ => Int64.ofInt (-(2 ^ 63))

/-- whether a double is at most `2 ^ 63` -/
def atMostMax (bits : UInt64) : Bool :=
  match BinaryFormat.double.decode bits.toNat with
  | .nan => false
  | .infinite neg => neg
  | .finite neg m q => neg || decide (m * 2 ^ q.toNat ≤ 2 ^ 63 * 2 ^ (-q).toNat)

/-- an integer of 64 bits; a fraction loses what follows the point -/
def int? : Scalar → Option Int64
  | .int i => if i < 2 ^ 63 then some (Int64.ofInt i) else none
  | .float b => if atMostMax b then some (truncate b) else none
  | _ => none

/-- the pattern of a double -/
def float? : Scalar → Option UInt64
  | .int i => some (doubleOfInt i)
  | .float b => some b
  | _ => none

end Scalar

end TreeJit.Yaml
