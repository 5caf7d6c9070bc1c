import TreeJit.Text.Blank
import TreeJit.Trace.Duration
import TreeJit.Trace.Reader

/-!
# Totals of a trace

One total for each name that occurs, whatever numbers share the name: how many samples, their sum
and the longest.  Sums wrap at 64 bits.  Totals are in order of falling sums; equal sums go by name.
-/

namespace TreeJit.Trace

structure Total where
  name : String
  /-- the flags of the first sample -/
  flags : Flags
  count : Int64
  sum : Int64
  max : Int64
  deriving DecidableEq

namespace Total

def empty (name : String) (flags : Flags) : Total := ⟨name, flags, 0, 0, 0⟩

def add (t : Total) (d : Int64) : Total :=
  { t with count := t.count + 1, sum := t.sum + d, max := if t.max < d then d else t.max }

def mean (t : Total) : Int64 := if t.count = 0 then 0 else t.sum / t.count

def line (t : Total) : String :=
  padLeft 32 t.name ++ " flags=" ++ padRight 8 t.flags.text ++ " count="
    ++ padLeft 8 (toString t.count.toInt) ++ " sum=" ++ padLeft 14 (durationText t.sum) ++ " max="
    ++ padLeft 14 (durationText t.max) ++ " avg=" ++ padLeft 14 (durationText t.mean)

def before (a b : Total) : Bool :=
  if a.sum = b.sum then decide (a.name ≤ b.name) else decide (b.sum < a.sum)

end Total

def addSample (s : Sample) : List Total → List Total
  | [] => [(Total.empty s.name s.flags).add s.duration]
  | t :: ts => if t.name = s.name then t.add s.duration :: ts else t :: addSample s ts

def totalsOf (ss : List Sample) : List Total := ss.foldl (fun ts s => addSample s ts) []

/-- the totals of a trace that can be read to its end -/
def summarize (bs : List UInt8) : Except Fault (List Total) :=
  match read bs with
  | (_, some f) => .error f
  | (ss, none) => .ok ((totalsOf ss).mergeSort Total.before)

end TreeJit.Trace
