import PrimeStream.Criterion

/-!
# Trial division

A candidate is accepted when it is at least two and no number from two on divides it, up to the
last one whose square is not greater. The square of a word need not be a word, so the bound
compares a divisor with its quotient instead.
-/

set_option autoImplicit false

namespace PrimeStream

structure Trial where
  deriving DecidableEq, Repr

namespace Trial

/-- A quotient by the greatest word is at most one, so that word is never within the bound. -/
theorem lt_maxValue_of_le_div {x d : Int64} (h : d ≤ x / d) : d < Int64.maxValue := by
  rw [Int64.le_iff_toInt_le, Int64.toInt_div] at h
  rw [Int64.lt_iff_toInt_lt, Int64.toInt_maxValue]
  have hd := d.toInt_lt
  have hx := x.toInt_lt
  have hx' := x.le_toInt
  rcases Int.lt_or_le d.toInt (2 ^ 63 - 1) with hlt | hge
  · exact hlt
  · have hmax : d.toInt = 2 ^ 63 - 1 := by omega
    have hq := Int.natAbs_tdiv x.toInt (2 ^ 63 - 1)
    have hq' : x.toInt.natAbs.div (Int.natAbs (2 ^ 63 - 1)) ≤ 1 :=
      Nat.le_of_lt_succ (Nat.div_lt_of_lt_mul (by omega))
    rw [hmax, Int.bmod_eq_of_le (by omega) (by omega)] at h
    omega

def divisorFrom? (x d : Int64) : Option Int64 :=
  if _ : d ≤ x / d then
    if x % d = 0 then some d else divisorFrom? x (d + 1)
  else none
termination_by (Int64.maxValue.toInt - d.toInt).toNat
decreasing_by
  have hd := lt_maxValue_of_le_div ‹_›
  rw [Candidate.toInt_succ hd]
  rw [Int64.lt_iff_toInt_lt] at hd
  omega

def accepts (x : Int64) : Bool := decide (2 ≤ x) && (divisorFrom? x 2).isNone

instance : Criterion Trial := ⟨fun t x => (accepts x, t)⟩

def text : String := "TrialDivision"

end Trial

end PrimeStream
