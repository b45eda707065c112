/-!
# Decimal numerals of words

A word is written with its sign and then the decimal digits of its size, without a leading zero.
A layout fits such a numeral into a field: it may show a plus sign, put zeros between the sign
and the digits, or pad with a fill character. A numeral wider than its field stays whole.
-/

set_option autoImplicit false

namespace PrimeStream

def digits (x : Int64) : String := x.toInt.natAbs.repr

def numeral (x : Int64) : String :=
  if x < 0 then "-" ++ digits x else digits x

inductive Align where
  | left
  | center
  | right
  deriving DecidableEq, Repr

structure Layout where
  width : Nat := 0
  align : Align := .right
  fill : Char := ' '
  plus : Bool := false
  zeros : Bool := false
  deriving DecidableEq, Repr

namespace Layout

def sign (l : Layout) (x : Int64) : String :=
  if x < 0 then "-" else if l.plus then "+" else ""

def gap (l : Layout) (length : Nat) : Nat := l.width - length

/-- How much of a gap comes before the text. In the centre, the larger half comes after it. -/
def before : Align → Nat → Nat
  | .left, _ => 0
  | .center, n => n / 2
  | .right, n => n

def pad (l : Layout) (text : String) : String :=
  let n := l.gap text.length
  let k := before l.align n
  String.ofList (List.replicate k l.fill) ++ text ++ String.ofList (List.replicate (n - k) l.fill)

/-- The text of a word in its field. Zeros stand after the sign and leave nothing to pad. -/
def place (l : Layout) (x : Int64) : String :=
  let s := l.sign x
  let d := digits x
  if l.zeros then
    s ++ String.ofList (List.replicate (l.gap (s.length + d.length)) '0') ++ d
  else l.pad (s ++ d)

end Layout

end PrimeStream
