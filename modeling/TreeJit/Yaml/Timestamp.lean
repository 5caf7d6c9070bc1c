import TreeJit.Decimal.Reader

/-!
# Points in time

A point in time is a date, or a date, a time of day and, behind a `T`, an offset:

* `2001-12-14`, `2001-1-2`
* `2001-12-14 21:59:43.10`
* `2001-12-14t21:59:43.10-05:00`, `2001-12-14T21:59:43Z`

Only whether a text is one of these counts (`isTimestamp`).  Each reader below gives what follows
the part that it reads.
-/

namespace TreeJit.Yaml.Timestamp

def number? (cs : List Char) : Option (Nat × List Char) :=
  match cs with
  | a :: b :: r =>
    if a.isDigit then
      if b.isDigit then (Decimal.digits? 10 [a, b]).map (·, r) else (Decimal.digits? 10 [a]).map (·, b :: r)
    else none
  | [a] => if a.isDigit then (Decimal.digits? 10 [a]).map (·, []) else none
  | [] => none

def below? (bound : Nat) (cs : List Char) : Option (List Char) :=
  match number? cs with
  | some (n, r) => if n < bound then some r else none
  | none => none

def sign? (c : Char) : List Char → Option (List Char)
  | a :: r => if a = c then some r else none
  | [] => none

def isLeap (year : Nat) : Bool := year % 4 == 0 && (year % 100 != 0 || year % 400 == 0)

def daysIn (year month : Nat) : Nat :=
  if month = 2 then (if isLeap year then 29 else 28)
  else if [4, 6, 9, 11].contains month then 30
  else 31

def date? (cs : List Char) : Option (List Char) := do
  let y := cs.takeWhile Char.isDigit
  if y.length ≠ 4 then none
  let year ← Decimal.digits? 10 y
  let r ← sign? '-' (cs.drop 4)
  let (month, r) ← number? r
  let r ← sign? '-' r
  let (day, r) ← number? r
  if 1 ≤ month ∧ month ≤ 12 ∧ 1 ≤ day ∧ day ≤ daysIn year month then some r else none

def fraction (cs : List Char) : List Char :=
  match cs with
  | a :: b :: r => if (a = '.' || a = ',') && b.isDigit then r.dropWhile Char.isDigit else cs
  | cs => cs

def clock? (cs : List Char) : Option (List Char) := do
  let r ← below? 24 cs
  let r ← sign? ':' r
  let r ← below? 60 r
  let r ← sign? ':' r
  let r ← below? 60 r
  return fraction r

def pair? : List Char → Option (Nat × List Char)
  | a :: b :: r => (Decimal.digits? 10 [a, b]).map (·, r)
  | _ => none

/-- an offset at the end of a text -/
def isOffset (cs : List Char) : Bool :=
  match cs with
  | ['Z'] => true
  | s :: r =>
    (s = '+' || s = '-') &&
      match pair? r with
      | some (h, ':' :: r) =>
        decide (h ≤ 24) &&
          match pair? r with
          | some (m, []) => decide (m ≤ 60)
          | _ => false
      | _ => false
  | [] => false

def isTimestamp (s : String) : Bool :=
  match date? s.toList with
  | none => false
  | some [] => true
  | some (c :: r) =>
    if c = 'T' || c = 't' then (clock? r).any isOffset
    else if c = ' ' then (clock? (r.dropWhile (· = ' '))).any List.isEmpty
    else false

example : isTimestamp "2001-12-14" = true := by decide
example : isTimestamp "2001-2-29" = false := by decide
example : isTimestamp "2001-12-14t21:59:43.10-05:00" = true := by decide
example : isTimestamp "2001-12-14 21:59:43.10" = true := by decide

end TreeJit.Yaml.Timestamp
