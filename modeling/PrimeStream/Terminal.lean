/-!
# Text for an output that is no terminal

A text that was typed may hold control characters and control sequences. An output that is no
terminal gets neither: it gets the printable characters and the blank ones. A sequence starts
with an escape and ends as its kind says, and what stands within it is left out too. Text goes on
at the next printable character, or at a blank control character within a sequence.
-/

set_option autoImplicit false

namespace PrimeStream.Terminal

inductive Place where
  | outside
  | escape
  | intermediate
  | control
  | device
  | deviceParameter
  | deviceIntermediate
  | body
  | command
  deriving DecidableEq, Repr

def isBlankControl (c : Char) : Bool :=
  c = '\t' || c = '\n' || c = '\x0c' || c = '\r'

def endsString (c : Char) : Bool := (String.utf8EncodeChar c).contains 0x9c

def afterEscape (c : Char) : Place :=
  if c = '[' then .control
  else if c = ']' then .command
  else if c = 'P' then .device
  else if c = 'X' || c = '^' || c = '_' then .body
  else if '0' ≤ c && c ≤ '~' then .outside
  else if ' ' ≤ c && c ≤ '/' then .intermediate
  else .escape

/-- The place in a device control string before its body. A character that is out of order there
begins a body, which is as good as any other since it is left out. -/
def nextOfDevice (c : Char) (parameters : Char → Bool) (here : Place) : Place :=
  if ' ' ≤ c && c ≤ '/' then .deviceIntermediate
  else if parameters c then .deviceParameter
  else if '0' ≤ c && c ≤ '~' then .body
  else here

def next (p : Place) (c : Char) : Place :=
  if c = '\x1b' then .escape
  else if c = '\x18' || c = '\x1a' then .outside
  else match p with
    | .outside => .outside
    | .escape => afterEscape c
    | .intermediate => if '0' ≤ c && c ≤ '~' then .outside else .intermediate
    | .control => if '@' ≤ c && c ≤ '~' then .outside else .control
    | .device => nextOfDevice c (fun c => '0' ≤ c && c ≤ '?') .device
    | .deviceParameter => nextOfDevice c (fun c => '0' ≤ c && c ≤ ';') .deviceParameter
    | .deviceIntermediate => nextOfDevice c (fun _ => false) .deviceIntermediate
    | .body => if endsString c then .outside else .body
    | .command => if c = '\x07' then .outside else .command

def isText (c : Char) : Bool := (' ' ≤ c && c ≠ '\x7f') || isBlankControl c

def resumes (p : Place) (c : Char) : Bool :=
  match p with
  | .outside => isText c
  | .escape | .intermediate | .control => isBlankControl c
  | .device | .deviceParameter | .deviceIntermediate | .body | .command => false

/-- Leaves out what is no text. A place is kept while text is read, since a blank control
character does not end the sequence that it stands in; any character past ASCII does. -/
def plainChars (p : Place) (reading : Bool) : List Char → List Char
  | [] => []
  | c :: cs =>
    if reading && isText c || resumes p c then
      c :: plainChars (if c ≤ '\x7f' then p else .outside) true cs
    else plainChars (next p c) false cs

def plain (s : String) : String := String.ofList (plainChars .outside false s.toList)

end PrimeStream.Terminal
