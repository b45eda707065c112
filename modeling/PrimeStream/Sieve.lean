import PrimeStream.Trial

/-!
# A sieve that grows

A sieve holds a flag for every number below its limit, and the flag says whether the number is
struck out because it is not prime. A candidate at or past the limit makes the sieve double its
limit until it covers the candidate, and a table of the new limit is then made afresh. No limit
lies above the ceiling: a candidate that no table can cover is left to trial division, and so is
a negative one.
-/

set_option autoImplicit false

namespace PrimeStream

structure Sieve where
  struck : Array Bool
  deriving DecidableEq, Repr

namespace Sieve

/-- The largest limit of a table, the 26th power of two. -/
def ceiling : Nat := 67108864

/-- The limit that a listing starts with, the 16th power of two. -/
def firstLimit : Nat := 65536

def limit (s : Sieve) : Nat := s.struck.size

def strike (step j : Nat) (flags : Array Bool) : Array Bool :=
  if 0 < step ∧ j < flags.size then
    strike step (j + step) (flags.setIfInBounds j true)
  else flags
termination_by flags.size - j
decreasing_by
  simp only [Array.size_setIfInBounds]
  omega

theorem size_strike (step j : Nat) (flags : Array Bool) :
    (strike step j flags).size = flags.size := by
  fun_induction strike step j flags with
  | case1 j flags _ ih => rw [ih, Array.size_setIfInBounds]
  | case2 => rfl

/-- One round of the sieve: the multiples of a number that is not struck out are, from its square
on. -/
def round (i : Nat) (flags : Array Bool) : Array Bool :=
  if flags.getD i true then flags else strike i (i * i) flags

theorem size_round (i : Nat) (flags : Array Bool) : (round i flags).size = flags.size := by
  unfold round
  split
  · rfl
  · exact size_strike _ _ _

def rounds (i : Nat) (flags : Array Bool) : Array Bool :=
  if i * i < flags.size then rounds (i + 1) (round i flags) else flags
termination_by flags.size - i
decreasing_by
  have : i ≤ i * i := Nat.le_mul_self i
  rw [size_round]
  omega

def blank (limit : Nat) : Array Bool :=
  ((Array.replicate limit false).setIfInBounds 0 true).setIfInBounds 1 true

def clamp (limit : Nat) : Nat := max 2 (min limit ceiling)

def table (limit : Nat) : Array Bool := rounds 2 (blank (clamp limit))

def ofLimit (limit : Nat) : Sieve := ⟨table limit⟩

def first : Sieve := ofLimit firstLimit

def doubled (limit index : Nat) : Nat :=
  if 0 < limit ∧ limit ≤ index then doubled (limit * 2) index else limit
termination_by index + 1 - limit

def cover (s : Sieve) (index : Nat) : Sieve :=
  if s.limit ≤ index then ofLimit (doubled s.limit index) else s

def judge (s : Sieve) (x : Int64) : Bool × Sieve :=
  let index := x.toNatClampNeg
  if 0 ≤ x ∧ index < ceiling then
    let s := s.cover index
    (!s.struck.getD index true, s)
  else (Trial.accepts x, s)

instance : Criterion Sieve := ⟨judge⟩

def text (s : Sieve) : String :=
  let flags := s.struck.toList.map fun flag => if flag then "true" else "false"
  "Sieve \x7b composite: [" ++ String.intercalate ", " flags ++ "] \x7d"

end Sieve

end PrimeStream
