import TreeJit.Trace.Reader

/-!
# Recording traces

One recording may run at a time.  Starting one writes the header, the kind table and the padding to
a device; records go to the device 64 at a time, the rest when the recording is closed.  A device may
be full: a write that does not fit is refused as a whole, and after that nothing more is written.
-/

namespace TreeJit.Trace

structure Device where
  /-- the bytes it can hold -/
  limit : Option Nat := none
  data : List UInt8 := []

/-- appends bytes if they all fit -/
def Device.write (d : Device) (bs : List UInt8) : Option Device :=
  let fits := match d.limit with
    | none => true
    | some n => decide (d.data.length + bs.length ≤ n)
  if fits then some { d with data := d.data ++ bs } else none

/-! ## the start of a trace -/

def headerBytes (tableSize : Nat) : List UInt8 :=
  littleEndian 4 magic ++ littleEndian 4 version ++ littleEndian 4 tableSize

def recordBytes (r : Record) : List UInt8 :=
  littleEndian 8 r.id.toNat ++ littleEndian 8 r.duration.toUInt64.toNat

inductive RecordFault where
  | alreadyRecording
  | writeHeader
  | writeKinds
  | writePadding
  | alreadyClosed
  | write
  deriving DecidableEq

def RecordFault.message : RecordFault → String
  | .alreadyRecording => "timeslice: already recording"
  | .writeHeader => "timeslice: write header: device full"
  | .writeKinds => "timeslice: write kinds: device full"
  | .writePadding => "timeslice: write padding: device full"
  | .alreadyClosed => "timeslice: already closed"
  | .write => "timeslice: write: device full"

/-- writes everything before the records; what was written stays if a later part does not fit -/
def writePreamble (t : KindTable) (d : Device) : Device × Except RecordFault Unit :=
  let table := t.encode
  match d.write (headerBytes table.length) with
  | none => (d, .error .writeHeader)
  | some d =>
    match d.write table with
    | none => (d, .error .writeKinds)
    | some d =>
      match d.write (List.replicate (padding table.length) 0) with
      | none => (d, .error .writePadding)
      | some d => (d, .ok ())

/-! ## one recording -/

/-- the records that are held back before they go to the device -/
def heldRecords : Nat := 64

structure Recording where
  device : Device
  /-- records that are held back, the last one first -/
  held : List Record := []
  failed : Bool := false

namespace Recording

def flush (r : Recording) : Recording :=
  if r.failed ∨ r.held.isEmpty then r
  else
    match r.device.write (r.held.reverse.flatMap recordBytes) with
    | some d => { r with device := d, held := [] }
    | none => { r with held := [], failed := true }

def record (r : Recording) (x : Record) : Recording :=
  if r.failed then r
  else
    let r := if r.held.length = heldRecords then r.flush else r
    if r.failed then r else { r with held := x :: r.held }

end Recording

/-! ## recordings in turn -/

structure Recorder where
  kinds : List Kind := builtinKinds
  /-- all that were started, in order; whether the start went well -/
  started : Array (Recording × Bool) := #[]
  /-- the one that runs -/
  current : Option Nat := none

namespace Recorder

def isRecording (s : Recorder) : Bool := s.current.isSome

def start (s : Recorder) (d : Device) : Recorder × Except RecordFault Unit :=
  if s.isRecording then ({ s with started := s.started.push ({ device := d }, false) }, .error .alreadyRecording)
  else
    match writePreamble (.ofKinds s.kinds) d with
    | (d, .error f) => ({ s with started := s.started.push ({ device := d }, false) }, .error f)
    | (d, .ok ()) =>
      ({ s with started := s.started.push ({ device := d }, true), current := some s.started.size }, .ok ())

/-- adds a record; without a recording nothing happens -/
def record (s : Recorder) (x : Record) : Recorder :=
  match s.current with
  | none => s
  | some i => { s with started := s.started.modify i fun (r, ok) => (r.record x, ok) }

def repeated (s : Recorder) (x : Record) : Nat → Recorder
  | 0 => s
  | n + 1 => (s.record x).repeated x n

/-- closes the `i`-th recording; there is nothing to close if its start failed -/
def close (s : Recorder) (i : Nat) : Recorder × Option (Except RecordFault Unit) :=
  match s.started[i]? with
  | none => (s, none)
  | some (_, false) => (s, none)
  | some (r, true) =>
    if s.current ≠ some i then (s, some (.error .alreadyClosed))
    else
      let r := r.flush
      ({ s with started := s.started.setIfInBounds i (r, true), current := none },
        some (if r.failed then .error .write else .ok ()))

/-- closes what is still open; gives what each start wrote -/
def finish (s : Recorder) : List (List UInt8) :=
  let s := match s.current with
    | some i => (s.close i).1
    | none => s
  s.started.toList.map fun (r, _) => r.device.data

end Recorder

end TreeJit.Trace
