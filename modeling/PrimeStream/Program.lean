import PrimeStream.CommandLine.Message
import PrimeStream.Listing
import PrimeStream.Sieve

/-!
# The program

The program lists prime numbers on its standard output by the method that its command line
chooses, and keeps a log on its standard error when it is asked to. A reader that closes the
output early ends the program normally; any other fault of the output is an error.
-/

set_option autoImplicit false

namespace PrimeStream.Program

open CommandLine (Method Settings Stop)

/-- The number that a listing is made for. It has one line more. -/
def target : Int64 := 1000000

structure Report where
  exit : UInt8
  output : Sink
  log : String

def opening (s : Settings) : String :=
  if s.debug then
    "method: " ++ s.method.title ++ ", target count: " ++ numeral target ++ "\n"
  else ""

def closing (s : Settings) (elapsed : String) : Outcome → UInt8 × String
  | .complete tally =>
    (0, if s.debug then
      "found " ++ numeral tally.count ++ " primes, largest " ++ tally.largestText ++
        ", in " ++ elapsed ++ "\n"
      else "")
  | .failed fault =>
    if fault.kind = .brokenPipe then
      (0, if s.debug then "stdout closed after " ++ elapsed ++ "\n" else "")
    else (1, "Error: " ++ fault.message ++ "\n")
  | .exhausted => (1, "Error: no candidate is left\n")

/-- Hands a listing's last lines to the sink. A listing whose lines do not all arrive failed. -/
def finish {σ : Type} (run : Run σ Buffered) : Outcome × Sink :=
  match run.outcome with
  | .complete tally =>
    match run.output.flush with
    | (none, output) => (.complete tally, output.sink)
    | (some fault, output) => (.failed fault, output.sink)
  | outcome => (outcome, run.output.sink)

def listBy {σ : Type} [Criterion σ] (criterion : σ) (sink : Sink) : Outcome × Sink :=
  finish (Listing.run target { criterion, output := ({ sink } : Buffered) })

def list (sink : Sink) : Method → Outcome × Sink
  | .trial => listBy ({} : Trial) sink
  | .sieve => listBy Sieve.first sink

/-- What is told instead of a listing: the help on the output, a misuse on the log. Whether the
output takes the help does not matter. -/
def decline (sink : Sink) : Stop → Report
  | .help => ⟨0, (sink.put CommandLine.help.toUTF8).2, ""⟩
  | .misuse m => ⟨2, sink, m.message⟩

def execute (arguments : List String) (sink : Sink) (elapsed : String) : Report :=
  match CommandLine.parse arguments with
  | .error stop => decline sink stop
  | .ok s =>
    let (outcome, output) := list sink s.method
    let (exit, log) := closing s elapsed outcome
    ⟨exit, output, opening s ++ log⟩

end PrimeStream.Program
