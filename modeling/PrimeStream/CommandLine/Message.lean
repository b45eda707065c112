import PrimeStream.CommandLine.Parse
import PrimeStream.Similarity
import PrimeStream.Terminal

/-!
# What the command line is told

The help text, and a message for each misuse. A message quotes what was typed as plain text, may
give a hint at a similar name, shows how the program is used with the options that were given,
and points to the help.
-/

set_option autoImplicit false

namespace PrimeStream.CommandLine

def Opt.usage : Opt → String
  | .method => "--method <METHOD>"
  | .debug => "--debug"
  | .help => "--help"

def usageLine (parts : List String) : String :=
  "Usage: primes " ++ if parts.isEmpty then "[OPTIONS]" else String.intercalate " " parts

def usage (given : List Opt) : String := usageLine (given.map Opt.usage)

def choices : List Opt := [.method, .debug]

def alternatives : String := "<" ++ String.intercalate "|" (choices.map Opt.usage) ++ ">"

/-- The usage line for an option that is given a value in vain. Once a choice was given before
it, the choices are shown as alternatives, and they stand for the option if it is one of them. -/
def usageInVain (opt : Opt) (given : List Opt) : String :=
  if given.isEmpty then usage [opt]
  else usageLine (if opt ∈ choices then [alternatives] else [opt.usage, alternatives])

def Opt.helpLine : Opt → String
  | .method => "      --method <METHOD>  Primality test to use [does not change the output] " ++
      "[default: trial] [possible values: trial, sieve]\n"
  | .debug => "  -d, --debug            Enable debug logging on stderr\n"
  | .help => "  -h, --help             Print help\n"

def help : String :=
  "Print prime numbers, one per line, in ascending order\n\n" ++ usage [] ++ "\n\nOptions:\n" ++
    String.join (Opt.all.map Opt.helpLine)

namespace Misuse

def methods : String :=
  "\n  [possible values: " ++ String.intercalate ", " (Method.all.map Method.name) ++ "]"

def adding (given : List Opt) (opt : Opt) : List Opt :=
  if opt ∈ given then given else given ++ [opt]

/-- What was typed, as plain text. A control sequence that it leaves open ends with it. -/
def quoted (typed : String) : String := "'" ++ Terminal.plain typed ++ "'"

def tip (what name : String) : String :=
  "\n\n  tip: a similar " ++ what ++ " exists: '" ++ name ++ "'"

def unknown (argument hint : String) (given : List Opt) : String :=
  "unexpected argument " ++ quoted argument ++ " found" ++ hint ++ "\n\n" ++ usage given

def text : Misuse → String
  | .unknownLong name given =>
    let argument := "--" ++ String.ofList name
    match Similarity.closest? Opt.long Opt.all name with
    | some opt => unknown argument (tip "argument" ("--" ++ opt.long)) (adding given opt)
    | none => unknown argument "" given
  | .unknownLetter letter => unknown ("-" ++ letter.toString) "" []
  | .unexpected argument => unknown argument "" []
  | .missingMethod =>
    "a value is required for '" ++ Opt.method.usage ++ "' but none was supplied" ++ methods
  | .invalidMethod value =>
    let hint := match Similarity.closest? Method.name Method.all value.toList with
      | some method => tip "value" method.name
      | none => ""
    "invalid value " ++ quoted value ++ " for '" ++ Opt.method.usage ++ "'" ++ methods ++ hint
  | .repeated opt =>
    "the argument '" ++ opt.usage ++ "' cannot be used multiple times\n\n" ++ usage []
  | .needlessValue opt value given =>
    "unexpected value " ++ quoted (String.ofList value) ++ " for '" ++ opt.usage ++
      "' found; no more were expected\n\n" ++ usageInVain opt given

def message (m : Misuse) : String :=
  "error: " ++ m.text ++ "\n\nFor more information, try '--help'.\n"

end Misuse

end PrimeStream.CommandLine
