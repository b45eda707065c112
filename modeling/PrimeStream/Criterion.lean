/-!
# Criteria

A criterion accepts or refuses candidates, which are words of 64 bits with a sign. It may change
with each candidate that it judges, so a judgement is given together with the criterion that
judges the next one. A recorded criterion also remembers what it was asked.
-/

set_option autoImplicit false

namespace PrimeStream

theorem Candidate.toInt_succ {x : Int64} (h : x < Int64.maxValue) :
    (x + 1).toInt = x.toInt + 1 := by
  rw [Int64.lt_iff_toInt_lt, Int64.toInt_maxValue] at h
  have hx := x.le_toInt
  rw [Int64.toInt_add, Int64.toInt_one, Int.bmod_eq_of_le (by omega) (by omega)]

class Criterion (σ : Type) where
  judge : σ → Int64 → Bool × σ

namespace Criterion

variable {σ : Type} [Criterion σ]

/-- Judges candidates in turn, with the accepted ones put before `kept` in reverse. -/
def selectOnto (kept : List Int64) (s : σ) : List Int64 → List Int64 × σ
  | [] => (kept.reverse, s)
  | x :: xs =>
    match judge s x with
    | (true, s) => selectOnto (x :: kept) s xs
    | (false, s) => selectOnto kept s xs

def select (s : σ) (xs : List Int64) : List Int64 × σ := selectOnto [] s xs

end Criterion

/-- A criterion and the candidates that it was asked, the last one first. -/
structure Recorded (σ : Type) where
  criterion : σ
  asked : List Int64 := []

namespace Recorded

variable {σ : Type} [Criterion σ]

instance : Criterion (Recorded σ) where
  judge r x :=
    let (accepted, criterion) := Criterion.judge r.criterion x
    (accepted, ⟨criterion, x :: r.asked⟩)

end Recorded

end PrimeStream
