import PrimeStream.CommandLine.Word

/-!
# Reading a command line

The command line chooses a method and whether to keep a log. An option is given at most once; a
method's value is attached or is the argument after it, if that is a plain word. Arguments are
read from left to right, and reading stops at the first misuse, or at a request for help. A
method whose value stands in an argument of its own is settled only when the next option comes,
or at the end, so a misuse of that next option can be found before the method's.
-/

set_option autoImplicit false

namespace PrimeStream.CommandLine

inductive Method where
  | trial
  | sieve
  deriving DecidableEq, Repr

namespace Method

def all : List Method := [.trial, .sieve]

def name : Method → String
  | .trial => "trial"
  | .sieve => "sieve"

def title : Method → String
  | .trial => "Trial"
  | .sieve => "Sieve"

def ofName? (s : String) : Option Method := all.find? (·.name = s)

end Method

inductive Opt where
  | method
  | debug
  | help
  deriving DecidableEq, Repr

namespace Opt

def all : List Opt := [.method, .debug, .help]

def long : Opt → String
  | .method => "method"
  | .debug => "debug"
  | .help => "help"

def ofLong? (cs : List Char) : Option Opt := all.find? (·.long.toList = cs)

def ofLetter? : Char → Option Opt
  | 'd' => some .debug
  | 'h' => some .help
  | _ => none

end Opt

structure Settings where
  method : Method := .trial
  debug : Bool := false
  deriving DecidableEq, Repr

inductive Misuse where
  | unknownLong (name : List Char) (given : List Opt)
  | unknownLetter (letter : Char)
  | unexpected (argument : String)
  | missingMethod
  | invalidMethod (value : String)
  | repeated (opt : Opt)
  | needlessValue (opt : Opt) (value : List Char) (given : List Opt)
  deriving DecidableEq, Repr

inductive Stop where
  | help
  | misuse (m : Misuse)
  deriving DecidableEq, Repr

/-- A method whose value is not settled yet. -/
inductive Pending where
  | nothing
  | awaiting
  | holding (value : String)
  deriving DecidableEq, Repr

structure Progress where
  settings : Settings := {}
  given : List Opt := []
  pending : Pending := .nothing
  deriving DecidableEq, Repr

namespace Progress

def note (p : Progress) (opt : Opt) : Except Stop Progress :=
  if opt ∈ p.given then .error (.misuse (.repeated opt))
  else .ok { p with given := p.given ++ [opt] }

def chooseMethod (p : Progress) (value : String) : Except Stop Progress := do
  let p ← p.note .method
  match Method.ofName? value with
  | some method => .ok { p with settings := { p.settings with method } }
  | none =>
    if value.isEmpty then .error (.misuse .missingMethod)
    else .error (.misuse (.invalidMethod value))

def settle (p : Progress) : Except Stop Progress :=
  match p.pending with
  | .nothing => .ok p
  | .awaiting => .error (.misuse .missingMethod)
  | .holding value => { p with pending := .nothing }.chooseMethod value

/-- The options that count as given when an unknown one is met. A method given for the second
time then counts no more. -/
def shown (p : Progress) : List Opt :=
  match p.pending with
  | .holding _ => if .method ∈ p.given then p.given.erase .method else p.given ++ [.method]
  | _ => p.given

def flag (p : Progress) : Opt → Except Stop Progress
  | .method => do return { ← p.settle with pending := .awaiting }
  | .debug => do
    let p ← (← p.settle).note .debug
    return { p with settings := { p.settings with debug := true } }
  | .help => do
    let _ ← p.settle
    .error .help

def long (p : Progress) (name : List Char) (value : Option (List Char)) :
    Except Stop Progress :=
  match Opt.ofLong? name, value with
  | none, _ => .error (.misuse (.unknownLong name p.shown))
  | some opt, none => p.flag opt
  | some .method, some value => do (← p.settle).chooseMethod (String.ofList value)
  | some opt, some value => .error (.misuse (.needlessValue opt value p.given))

def cluster (p : Progress) : List Char → Except Stop Progress
  | [] => .ok p
  | c :: cs =>
    match Opt.ofLetter? c with
    | some opt => do (← p.flag opt).cluster cs
    | none => .error (.misuse (.unknownLetter c))

def plain (p : Progress) (argument : String) : Except Stop Progress :=
  match p.pending with
  | .awaiting => .ok { p with pending := .holding argument }
  | _ => .error (.misuse (.unexpected argument))

def read (p : Progress) : List String → Except Stop Settings
  | [] => do return (← p.settle).settings
  | argument :: rest =>
    match Word.ofArgument argument with
    | .endOfOptions =>
      match rest with
      | [] => do return (← p.settle).settings
      | next :: _ => .error (.misuse (.unexpected next))
    | .long name value => do (← p.long name value).read rest
    | .cluster letters => do (← p.cluster letters).read rest
    | .plain => do (← p.plain argument).read rest

end Progress

def parse (arguments : List String) : Except Stop Settings := ({} : Progress).read arguments

end PrimeStream.CommandLine
