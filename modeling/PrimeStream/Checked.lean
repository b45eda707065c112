import PrimeStream.Sieve

/-!
# A sieve that checks what it does

A checked sieve does what a sieve does, but gives no result where a sieve would look outside its
table, take steps of zero, divide by zero, come to a number that is too large, or double a limit
without end. The trial division that it falls back on is checked as well.
-/

set_option autoImplicit false

namespace PrimeStream

namespace Trial.Checked

/-- There is no quotient by zero, and that of the least word by minus one is not a word. -/
def HasQuotient (x d : Int64) : Prop := d ≠ 0 ∧ (x = Int64.minValue → d ≠ -1)

instance (x d : Int64) : Decidable (HasQuotient x d) := inferInstanceAs (Decidable (_ ∧ _))

def divisorFrom? (x d : Int64) : Option (Option Int64) :=
  if HasQuotient x d then
    if _ : d ≤ x / d then
      if x % d = 0 then some (some d)
      else if d < Int64.maxValue then divisorFrom? x (d + 1)
      else none
    else some none
  else none
termination_by (Int64.maxValue.toInt - d.toInt).toNat
decreasing_by
  have hd := lt_maxValue_of_le_div ‹d ≤ x / d›
  rw [Candidate.toInt_succ hd]
  rw [Int64.lt_iff_toInt_lt] at hd
  omega

def accepts (x : Int64) : Option Bool :=
  if x < 2 then some false
  else if x = 2 then some true
  else (divisorFrom? x 2).map Option.isNone

end Trial.Checked

namespace Sieve.Checked

def mark (flags : Array Bool) (j : Nat) : Option (Array Bool) :=
  if h : j < flags.size then some (flags.set j true h) else none

def strike (limit step j : Nat) (flags : Array Bool) : Option (Array Bool) :=
  if _ : step = 0 then none
  else if _ : j < limit then do strike limit step (j + step) (← mark flags j)
  else some flags
termination_by limit - j

def round (limit i : Nat) (flags : Array Bool) : Option (Array Bool) := do
  if (← flags[i]?) then some flags else strike limit i (i * i) flags

/-- The rounds from `i` on, where no number may be above `most`. -/
def rounds (most limit i : Nat) (flags : Array Bool) : Option (Array Bool) :=
  if i * i ≤ most then
    if _ : i * i < limit then do
      let flags ← round limit i flags
      if i + 1 ≤ most then rounds most limit (i + 1) flags else none
    else some flags
  else none
termination_by limit - i
decreasing_by
  have := Nat.le_mul_self i
  omega

def blank (limit : Nat) : Option (Array Bool) := do
  let flags ← mark (Array.replicate limit false) 0
  mark flags 1

def table (most limit : Nat) : Option (Array Bool) := do
  rounds most (clamp limit) 2 (← blank (clamp limit))

def ofLimit (most limit : Nat) : Option Sieve := (table most limit).map Sieve.mk

def doubled (most limit index : Nat) : Option Nat :=
  if _ : limit = 0 then none
  else if _ : limit ≤ index then
    if limit * 2 ≤ most then doubled most (limit * 2) index else none
  else some limit
termination_by index + 1 - limit

def cover (most : Nat) (s : Sieve) (index : Nat) : Option Sieve := do
  if s.limit ≤ index then ofLimit most (← doubled most s.limit index) else some s

def judge (most : Nat) (s : Sieve) (x : Int64) : Option (Bool × Sieve) :=
  let index := x.toNatClampNeg
  if 0 ≤ x ∧ index < ceiling then do
    let s ← cover most s index
    return (!(← s.struck[index]?), s)
  else (Trial.Checked.accepts x).map (·, s)

end Sieve.Checked

end PrimeStream
