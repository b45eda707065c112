/-!
# Elapsed times

A time is shown in the largest of the units s, ms, µs and ns that it fills at least once, with as
many decimals as it needs.
-/

set_option autoImplicit false

namespace PrimeStream.Elapsed

/-- The decimals of a fraction that is given by its digits, with zeros before them up to `places`
and without the zeros at the end. -/
def decimals (places rest : Nat) : String :=
  let ds := rest.repr.toList
  let padded := List.replicate (places - ds.length) '0' ++ ds
  match (padded.reverse.dropWhile (· = '0')).reverse with
  | [] => ""
  | kept => "." ++ String.ofList kept

/-- A time of some nanoseconds in a unit of `scale` of them, which has `places` decimals. -/
def inUnit (nanos scale places : Nat) (unit : String) : String :=
  (nanos / scale).repr ++ decimals places (nanos % scale) ++ unit

def text (nanos : Nat) : String :=
  if 1000000000 ≤ nanos then inUnit nanos 1000000000 9 "s"
  else if 1000000 ≤ nanos then inUnit nanos 1000000 6 "ms"
  else if 1000 ≤ nanos then inUnit nanos 1000 3 "µs"
  else inUnit nanos 1 0 "ns"

end PrimeStream.Elapsed
