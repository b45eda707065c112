import PrimeStream.Elapsed
import PrimeStream.Program

/-!
# The command

The command runs the program on the real standard streams. A listing is written in blocks as it
is made, so that a reader sees its first lines at once and can close it early.
-/

set_option autoImplicit false

namespace PrimeStream.Command

open CommandLine (Settings)

def systemError : IO.Error → Option (Nat × String)
  | .resourceVanished n details => some (n.toNat, details)
  | .resourceExhausted _ n details => some (n.toNat, details)
  | .resourceBusy n details => some (n.toNat, details)
  | .permissionDenied _ n details => some (n.toNat, details)
  | .timeExpired n details => some (n.toNat, details)
  | .hardwareFault n details => some (n.toNat, details)
  | .illegalOperation n details => some (n.toNat, details)
  | .invalidArgument _ n details => some (n.toNat, details)
  | .otherError n details => some (n.toNat, details)
  | _ => none

def notOpen : Nat := 9

/-- The fault behind an error. A standard output that is not open takes everything. -/
def faultOf (e : IO.Error) : Option Fault :=
  match systemError e with
  | some (n, details) =>
    if n = notOpen then none
    else some ⟨(Fault.system n).1, details ++ " (os error " ++ n.repr ++ ")"⟩
  | none => some ⟨.other, e.toString⟩

def write (bytes : ByteArray) : IO (Option Fault) := do
  try
    let output ← IO.getStdout
    output.write bytes
    output.flush
    return none
  catch e => return faultOf e

/-- Carries a listing on to its end. The sink behind its buffer holds a block that is due. -/
partial def carryOn {σ : Type} [Criterion σ] (l : Listing σ Buffered) : IO Outcome := do
  match l.step Program.target with
  | .next m =>
    if m.output.sink.written.isEmpty then carryOn m
    else
      match ← write m.output.sink.written with
      | none => carryOn { m with output := { m.output with sink := {} } }
      | some fault => return .failed fault
  | .done run =>
    let (outcome, sink) := Program.finish run
    match ← write sink.written with
    | none => return outcome
    | some fault => return .failed fault

def list (s : Settings) : IO Outcome :=
  match s.method with
  | .trial => carryOn ({ criterion := {}, output := { sink := {} } } : Listing Trial Buffered)
  | .sieve =>
    carryOn ({ criterion := Sieve.first, output := { sink := {} } } : Listing Sieve Buffered)

def run (arguments : List String) : IO UInt32 := do
  match CommandLine.parse arguments with
  | .error stop =>
    let report := Program.decline {} stop
    let _ ← write report.output.written
    IO.eprint report.log
    return report.exit.toUInt32
  | .ok s =>
    IO.eprint (Program.opening s)
    let start ← IO.monoNanosNow
    let outcome ← list s
    let elapsed := Elapsed.text ((← IO.monoNanosNow) - start)
    let (exit, log) := Program.closing s elapsed outcome
    IO.eprint log
    return exit.toUInt32

end PrimeStream.Command

def main (arguments : List String) : IO UInt32 := PrimeStream.Command.run arguments
