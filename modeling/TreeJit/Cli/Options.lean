import TreeJit.Cli.Columns
import TreeJit.Decimal.Reader
import TreeJit.Host.Settings

/-!
# Options

An option is written `-name value` or `-name=value`, with one or two dashes; a switch needs no value.
Reading stops at the first argument that is no option, or after `--`.
-/

namespace TreeJit.Cli

inductive UsageFault where
  | help
  | badOption (arg : String)
  | unknown (name : String)
  | needsValue (name : String)
  | value (name value reason : String)
  | truth (name value : String)
  deriving DecidableEq

def UsageFault.message : UsageFault → String
  | .help => "help requested"
  | .badOption a => "bad option: " ++ a
  | .unknown n => "option provided but not defined: -" ++ n
  | .needsValue n => "option needs an argument: -" ++ n
  | .value n v r => "invalid value " ++ quoted v ++ " for option -" ++ n ++ ": " ++ r
  | .truth n v => "invalid boolean value " ++ quoted v ++ " for -" ++ n

/-- an option as written: its name, and its value if one is attached -/
def splitOption? (arg : String) : Option (String × Option String) :=
  let body := match arg.toList with
    | '-' :: '-' :: r => r
    | '-' :: r => r
    | _ => []
  match body with
  | [] => none
  | c :: _ =>
    if c = '-' ∨ c = '=' then none
    else
      let name := String.ofList (body.takeWhile (· ≠ '='))
      match body.dropWhile (· ≠ '=') with
      | [] => some (name, none)
      | _ :: v => some (name, some (String.ofList v))

inductive OptionKind (α : Type) where
  /-- true without a value -/
  | switch (set : α → Bool → α)
  /-- a value, or the reason why it is refused -/
  | value (set : α → String → Except String α)

def readOptions {α : Type} (kindOf : String → Option (OptionKind α)) (a : α) :
    List String → Except UsageFault α
  | [] => .ok a
  | arg :: rest =>
    if arg = "--" ∨ arg.length < 2 ∨ arg.toList.head? ≠ some '-' then .ok a
    else
      match splitOption? arg with
      | none => .error (.badOption arg)
      | some (name, v) =>
        match kindOf name, v with
        | none, _ => .error (if name = "help" ∨ name = "h" then .help else .unknown name)
        | some (.switch set), none => readOptions kindOf (set a true) rest
        | some (.switch set), some v =>
          match Host.Settings.truth? v with
          | some b => readOptions kindOf (set a b) rest
          | none => .error (.truth name v)
        | some (.value set), some v =>
          match set a v with
          | .ok a => readOptions kindOf a rest
          | .error r => .error (.value name v r)
        | some (.value set), none =>
          match rest with
          | [] => .error (.needsValue name)
          | v :: rest =>
            match set a v with
            | .ok a => readOptions kindOf a rest
            | .error r => .error (.value name v r)

/-- an integer of 64 bits in any of the usual bases -/
def readInteger (s : String) : Except String Int :=
  match Decimal.integer? 0 (s.toList.filter (· ≠ '_')) with
  | none => .error "parse error"
  | some i => if -(2 ^ 63) ≤ i ∧ i < 2 ^ 63 then .ok i else .error "value out of range"

/-! ## evaluating a predicate -/

structure RunOptions where
  config : String := ""
  sets : Assignments := {}
  expr : String := ""
  scalars : String := ""
  rows : Int := 65536
  seed : Int := 1
  bench : Int := 0
  native : Bool := true
  libm : Bool := false
  debug : Bool := false
  tsfile : String := ""

def RunOptions.kindOf : String → Option (OptionKind RunOptions)
  | "config" => some (.value fun o v => .ok { o with config := v })
  | "set" => some (.value fun o v => (o.sets.add v).map fun s => { o with sets := s })
  | "expr" => some (.value fun o v => .ok { o with expr := v })
  | "scalars" => some (.value fun o v => .ok { o with scalars := v })
  | "rows" => some (.value fun o v => (readInteger v).map fun n => { o with rows := n })
  | "seed" => some (.value fun o v => (readInteger v).map fun n => { o with seed := n })
  | "bench" => some (.value fun o v => (readInteger v).map fun n => { o with bench := n })
  | "native" => some (.switch fun o b => { o with native := b })
  | "libm" => some (.switch fun o b => { o with libm := b })
  | "debug" => some (.switch fun o b => { o with debug := b })
  | "tsfile" => some (.value fun o v => .ok { o with tsfile := v })
  | _ => none

def RunOptions.parse (args : List String) : Except UsageFault RunOptions := readOptions kindOf {} args

/-! ## reporting a trace -/

structure ReportOptions where
  filename : String := ""
  sums : Bool := false

def ReportOptions.kindOf : String → Option (OptionKind ReportOptions)
  | "filename" => some (.value fun o v => .ok { o with filename := v })
  | "sums" => some (.switch fun o b => { o with sums := b })
  | _ => none

def ReportOptions.parse (args : List String) : Except UsageFault ReportOptions :=
  readOptions kindOf {} args

/-! ## the two commands -/

inductive Command where
  | run (o : RunOptions)
  | report (o : ReportOptions)

def Command.parse : List String → Except UsageFault Command
  | "report" :: args => (ReportOptions.parse args).map .report
  | args => (RunOptions.parse args).map .run

end TreeJit.Cli
