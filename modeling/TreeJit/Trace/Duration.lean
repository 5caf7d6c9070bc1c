import TreeJit.Word.Power

/-!
# Durations

A duration is a number of nanoseconds.  Below a second its text has the largest unit that fits, from
there on hours, minutes and seconds; a fraction shows no zeros at its end.
-/

namespace TreeJit.Trace

/-- digits after the point, without zeros at the end; nothing for zero -/
def fraction (places n : Nat) : String :=
  let ds := Nat.toDigits 10 n
  let ds := List.replicate (places - ds.length) '0' ++ ds
  let ds := (ds.reverse.dropWhile (· = '0')).reverse
  if ds.isEmpty then "" else "." ++ String.ofList ds

def decimal (places n : Nat) : String := toString (n / 10 ^ places) ++ fraction places (n % 10 ^ places)

def clockText (n : Nat) : String :=
  let minutes := n / 10 ^ 9 / 60
  let seconds := decimal 9 (n % (60 * 10 ^ 9)) ++ "s"
  if minutes = 0 then seconds
  else if minutes < 60 then s!"{minutes}m" ++ seconds
  else s!"{minutes / 60}h{minutes % 60}m" ++ seconds

def durationText (d : Int64) : String :=
  let n := d.toInt.natAbs
  let text :=
    if n = 0 then "0s"
    else if n < 10 ^ 3 then decimal 0 n ++ "ns"
    else if n < 10 ^ 6 then decimal 3 n ++ "µs"
    else if n < 10 ^ 9 then decimal 6 n ++ "ms"
    else clockText n
  if d < 0 then "-" ++ text else text

end TreeJit.Trace
