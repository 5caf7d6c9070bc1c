import TreeJit.Host.Fault
import TreeJit.Yaml.Document
import TreeJit.Yaml.Record

/-!
# Settings of code generation

Calls to native operations go through absolute addresses and code is placed at a known address, so
two of the settings are recognized but must stay off.  Settings are assigned one by one from text
(`Settings.set`) or read from YAML on top of the defaults (`Settings.parse`).
-/

namespace TreeJit.Host

structure Settings where
  colocatedCalls : Bool := false
  pic : Bool := false
  optLevel : String := "speed"
  debug : Bool := false
  deriving DecidableEq

namespace Settings

/-- every setting off; what is left after a failed reading -/
def blank : Settings := { optLevel := "" }

def levels : List String := ["none", "speed", "speed_and_size"]

def check (s : Settings) : Except Fault Unit :=
  if s.colocatedCalls then .error .colocated
  else if s.pic then .error .pic
  else if levels.contains s.optLevel then .ok ()
  else .error (.optLevel s.optLevel)

def options (s : Settings) : Compile.Options := ⟨s.optLevel == "speed"⟩

def truth? (s : String) : Option Bool :=
  if ["1", "t", "T", "TRUE", "true", "True"].contains s then some true
  else if ["0", "f", "F", "FALSE", "false", "False"].contains s then some false
  else none

/-- assigns one setting; a value that is refused by `check` is kept all the same -/
def set (s : Settings) (name value : String) : Settings × Except Fault Unit :=
  let switch (assign : Bool → Settings) : Settings × Except Fault Unit :=
    match truth? value with
    | some b => (assign b, (assign b).check)
    | none => (s, .error (.settingValue name value))
  match name with
  | "use_colocated_libcalls" => switch fun b => { s with colocatedCalls := b }
  | "is_pic" => switch fun b => { s with pic := b }
  | "debug" => switch fun b => { s with debug := b }
  | "opt_level" => ({ s with optLevel := value }, { s with optLevel := value }.check)
  | _ => (s, .error (.unknownSetting name))

def schema : Yaml.Schema
  | "use_colocated_libcalls" | "is_pic" | "debug" => some .truth
  | "opt_level" => some .text
  | _ => none

/-- assigns one field of a record of settings; a field that is not set stays as it is -/
def setField (s : Settings) (key : String) (v : Yaml.Value) : Settings :=
  match key, v with
  | "use_colocated_libcalls", .truth b => { s with colocatedCalls := b }
  | "is_pic", .truth b => { s with pic := b }
  | "debug", .truth b => { s with debug := b }
  | "opt_level", .text t => { s with optLevel := t }
  | _, _ => s

def parse (text : List UInt8) : Except Fault Settings := do
  match ← (Yaml.parse text).mapError Fault.yaml with
  | none => return {}
  | some doc =>
    let fields ← (doc.record schema).mapError Fault.yaml
    let s := fields.foldl (fun s (key, v) => s.setField key v) ({} : Settings)
    s.check
    return s

end Settings

end TreeJit.Host
