import TreeJit.Cli.Run

/-!
# The program

Reads the files that the arguments name, carries out the command and prints what it says.  With
`-tsfile` the time of compiling and of checking is written as a trace; with `-bench` the check is
followed by timed evaluations.
-/

namespace TreeJit.Cli

def causeOf : IO.Error → FileCause
  | .noFileOrDirectory .. => .absent
  | .permissionDenied .. => .other "permission denied"
  | .inappropriateType _ code _ => if code = 21 then .isDirectory else .notDirectory
  | e => .other (toString e)

def readFile (path : String) : IO (Except FileFault (List UInt8)) := do
  match ← (IO.FS.readBinFile path).toBaseIO with
  | .ok b => return .ok b.toList
  | .error e => return .error { path, opened := causeOf e = .isDirectory, cause := causeOf e }

def writeFile (path : String) (bs : List UInt8) : IO (Except FileFault Unit) := do
  match ← (IO.FS.writeBinFile path ⟨bs.toArray⟩).toBaseIO with
  | .ok () => return .ok ()
  | .error e => return .error { path, cause := causeOf e }

def gather (reads : List String) : IO ReadFile := do
  let found ← (reads.filter (· ≠ "")).mapM fun p => do return (p, ← readFile p)
  return fun path => (found.lookup path).getD (.error { path, cause := .absent })

def finishCommand (out : String) (r : Outcome Fault Unit) : IO UInt32 := do
  (← IO.getStdout).putStr out
  match r with
  | .done () => return 0
  | .failed (.usage f) =>
    IO.eprintln f.message
    return 2
  | .failed f =>
    IO.eprintln ("exprjit: " ++ f.message)
    return 1
  | .crashed =>
    IO.eprintln "exprjit: the predicate cannot be evaluated"
    return 2

/-- the bytes of a trace with the times of compiling and checking -/
def traceOf (compiling checking : Nat) : List UInt8 :=
  let rec0 : Trace.Record := ⟨1, Int64.ofNat compiling⟩
  let rec1 : Trace.Record := ⟨6, Int64.ofNat checking⟩
  let s := (({} : Trace.Recorder).start {}).1
  (((s.record rec0).record rec1).finish).headD []

def tenths (num den : Nat) : String :=
  let n := 10 * num / max den 1
  toString (n / 10) ++ "." ++ toString (n % 10)

def bench (j : Job) (iterations : Nat) : IO Unit := do
  let t0 ← IO.monoNanosNow
  let mut ended := 0
  for _ in [0:iterations] do
    match j.predicate.evaluate .host j.module j.batch with
    | .done _ => ended := ended + 1
    | _ => pure ()
  let t1 ← IO.monoNanosNow
  let rate := tenths (ended * j.rows.toNat * 1000) (t1 - t0)
  IO.println (toString ended ++ " iterations in " ++ Trace.durationText (Int64.ofNat (t1 - t0))
    ++ " (" ++ rate ++ " Mrows/s)")

/-- evaluates a predicate, with times where they are asked for -/
def runCommand (o : RunOptions) : IO UInt32 := do
  match ← if o.tsfile = "" then pure (.ok ()) else writeFile o.tsfile traceStart with
  | .error f => finishCommand "" (.failed (.createTrace f))
  | .ok () =>
    let read ← gather [o.config, o.expr]
    let t0 ← IO.monoNanosNow
    match prepare .host read o with
    | .failed f => finishCommand "" (.failed f)
    | .crashed => finishCommand "" .crashed
    | .done j =>
      let t1 ← IO.monoNanosNow
      match j.check .host with
      | .failed f => finishCommand "" (.failed f)
      | .crashed => finishCommand "" .crashed
      | .done n =>
        let t2 ← IO.monoNanosNow
        if o.tsfile ≠ "" then
          let _ ← writeFile o.tsfile (traceOf (t1 - t0) (t2 - t1))
        let code ← finishCommand (selectedText n o.rows) (.done ())
        if 0 < o.bench then bench j o.bench.toNat
        return code

def mainCommand (args : List String) : IO UInt32 := do
  match Command.parse args with
  | .error f => finishCommand "" (.failed (.usage f))
  | .ok (.run o) => runCommand o
  | .ok (.report o) =>
    let (out, r) := report (← gather [o.filename]) o
    finishCommand out r

end TreeJit.Cli

def main (args : List String) : IO UInt32 := TreeJit.Cli.mainCommand args
