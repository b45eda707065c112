/-!
# Words of a command line

An argument is read by its first characters. Two hyphens alone end the options; before a name
they make a long option, which may have its value attached after the first `=`; one hyphen makes
a cluster of one-letter flags. Anything else is a plain word, and so are a lone hyphen and the
empty argument.
-/

set_option autoImplicit false

namespace PrimeStream.CommandLine

inductive Word where
  | endOfOptions
  | long (name : List Char) (value : Option (List Char))
  | cluster (flags : List Char)
  | plain
  deriving DecidableEq, Repr

namespace Word

def ofLong (cs : List Char) : Word :=
  match cs.dropWhile (· ≠ '=') with
  | [] => .long cs none
  | _ :: value => .long (cs.takeWhile (· ≠ '=')) (some value)

def ofChars : List Char → Word
  | ['-', '-'] => .endOfOptions
  | '-' :: '-' :: cs => ofLong cs
  | '-' :: c :: cs => .cluster (c :: cs)
  | _ => .plain

def ofArgument (argument : String) : Word := ofChars argument.toList

end Word

end PrimeStream.CommandLine
