/-!
# Faults of an output

A fault is the reason for which an output stops taking bytes: its kind and the message that is
shown for it. A fault has the general message of its kind, or that of a system error with its
number, or one of its own. A kind that has no name here is told by its general message alone.
-/

set_option autoImplicit false

namespace PrimeStream

inductive FaultKind where
  | brokenPipe
  | permissionDenied
  | wouldBlock
  | timedOut
  | storageFull
  | writeZero
  | unexpectedEof
  | notConnected
  | connectionReset
  | invalidData
  | invalidInput
  | outOfMemory
  | notFound
  | unsupported
  | other
  | unnamed (text : String)
  deriving DecidableEq, Repr

def FaultKind.text : FaultKind → String
  | .brokenPipe => "broken pipe"
  | .permissionDenied => "permission denied"
  | .wouldBlock => "operation would block"
  | .timedOut => "timed out"
  | .storageFull => "no storage space"
  | .writeZero => "write zero"
  | .unexpectedEof => "unexpected end of file"
  | .notConnected => "not connected"
  | .connectionReset => "connection reset"
  | .invalidData => "invalid data"
  | .invalidInput => "invalid input parameter"
  | .outOfMemory => "out of memory"
  | .notFound => "entity not found"
  | .unsupported => "unsupported"
  | .other => "other error"
  | .unnamed text => text

structure Fault where
  kind : FaultKind
  message : String
  deriving DecidableEq, Repr

namespace Fault

def ofKind (kind : FaultKind) : Fault := ⟨kind, kind.text⟩

/-- An output that takes no more bytes and names no reason. -/
def stalled : Fault := ⟨.writeZero, "failed to write whole buffer"⟩

def system : Nat → FaultKind × String
  | 13 => (.permissionDenied, "Permission denied")
  | 28 => (.storageFull, "No space left on device")
  | 32 => (.brokenPipe, "Broken pipe")
  | 110 => (.timedOut, "Connection timed out")
  | n => (.other, "Unknown error " ++ n.repr)

def ofNumber (n : Nat) : Fault :=
  ⟨(system n).1, (system n).2 ++ " (os error " ++ n.repr ++ ")"⟩

end Fault

end PrimeStream
