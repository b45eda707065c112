import PrimeStream.Criterion
import PrimeStream.Entry
import PrimeStream.Output

/-!
# Listings

A listing judges the candidates from two on, one after the other, and writes a line for each
that its criterion accepts. It is complete once more entries are written than the number it was
given, so a listing for `n` has `n + 1` lines, and none when `n` is negative. A listing also ends
when its output fails, and when no word is left after the last candidate.
-/

set_option autoImplicit false

namespace PrimeStream

/-- What a listing has written so far: how many entries, and the last one. -/
structure Tally where
  count : Int64 := 0
  largest : Option Entry := none
  deriving DecidableEq, Repr

namespace Tally

def add (t : Tally) (e : Entry) : Tally := ⟨t.count + 1, some e⟩

def largestText (t : Tally) : String :=
  match t.largest with
  | some e => "Some(" ++ e.label ++ ")"
  | none => "None"

def text (t : Tally) : String :=
  "Summary \x7b found: " ++ numeral t.count ++ ", largest: " ++ t.largestText ++ " \x7d"

end Tally

inductive Outcome where
  | complete (tally : Tally)
  | failed (fault : Fault)
  | exhausted
  deriving DecidableEq, Repr

structure Run (σ ω : Type) where
  outcome : Outcome
  criterion : σ
  output : ω

structure Listing (σ ω : Type) where
  candidate : Int64 := 2
  tally : Tally := {}
  criterion : σ
  output : ω

inductive Step (σ ω : Type) where
  | next (listing : Listing σ ω)
  | done (run : Run σ ω)

namespace Listing

variable {σ ω : Type}

/-- Goes on to the candidate after this one. The greatest word is the last candidate. -/
def advance (l : Listing σ ω) : Step σ ω :=
  if l.candidate = Int64.maxValue then .done ⟨.exhausted, l.criterion, l.output⟩
  else .next { l with candidate := l.candidate + 1 }

theorem advance_next {l m : Listing σ ω} (h : l.advance = .next m) :
    m.candidate.toInt = l.candidate.toInt + 1 := by
  unfold advance at h
  split at h
  · cases h
  · rename_i hc
    cases h
    exact Candidate.toInt_succ (Int64.lt_of_le_of_ne l.candidate.le_maxValue hc)

variable [Criterion σ] [Output ω]

def step (n : Int64) (l : Listing σ ω) : Step σ ω :=
  if n < l.tally.count then .done ⟨.complete l.tally, l.criterion, l.output⟩
  else
    match Criterion.judge l.criterion l.candidate with
    | (false, criterion) => advance { l with criterion }
    | (true, criterion) =>
      let entry : Entry := ⟨l.candidate⟩
      match Output.put l.output entry.line with
      | (some fault, output) => .done ⟨.failed fault, criterion, output⟩
      | (none, output) => advance { l with criterion, output, tally := l.tally.add entry }

theorem step_next {n : Int64} {l m : Listing σ ω} (h : l.step n = .next m) :
    m.candidate.toInt = l.candidate.toInt + 1 := by
  unfold step at h
  split at h
  · cases h
  · split at h
    · have := advance_next h
      exact this
    · dsimp only at h
      split at h
      · cases h
      · have := advance_next h
        exact this

def run (n : Int64) (l : Listing σ ω) : Run σ ω :=
  match _ : l.step n with
  | .done r => r
  | .next m => m.run n
termination_by (Int64.maxValue.toInt - l.candidate.toInt).toNat
decreasing_by
  have := step_next ‹_›
  have := m.candidate.toInt_le
  omega

end Listing

end PrimeStream
