import PrimeStream.Proofs.ListingCourse

/-!
# Criteria that agree

Two criteria agree along a relation of their states when related states give the same answer to
every candidate and leave related states behind. Then nothing outside the criteria can tell them
apart: a listing takes the same steps with either, ends with the same outcome, and leaves the same
output, whatever the output does.
-/

set_option autoImplicit false

namespace PrimeStream

variable {σ τ ω : Type} {R : σ → τ → Prop}

structure Agreement [Criterion σ] [Criterion τ] (R : σ → τ → Prop) : Prop where
  answer {s : σ} {t : τ} (h : R s t) (x : Int64) :
    (Criterion.judge s x).1 = (Criterion.judge t x).1
  next {s : σ} {t : τ} (h : R s t) (x : Int64) :
    R (Criterion.judge s x).2 (Criterion.judge t x).2

namespace Recorded

structure Alike (R : σ → τ → Prop) (r : Recorded σ) (q : Recorded τ) : Prop where
  criterion : R r.criterion q.criterion
  asked : r.asked = q.asked

theorem agreement [Criterion σ] [Criterion τ] (h : Agreement R) : Agreement (Alike R) where
  answer hr x := h.answer hr.criterion x
  next hr x := ⟨h.next hr.criterion x, congrArg (x :: ·) hr.asked⟩

theorem agreement_criterion [Criterion σ] :
    Agreement fun (r : Recorded σ) (c : σ) => r.criterion = c where
  answer h x := by
    rw [← h]
    rfl
  next h x := by
    rw [← h]
    rfl

end Recorded

structure Run.Alike (R : σ → τ → Prop) (r : Run σ ω) (q : Run τ ω) : Prop where
  outcome : r.outcome = q.outcome
  criterion : R r.criterion q.criterion
  output : r.output = q.output

namespace Listing

structure Alike (R : σ → τ → Prop) (l : Listing σ ω) (m : Listing τ ω) : Prop where
  candidate : l.candidate = m.candidate
  tally : l.tally = m.tally
  criterion : R l.criterion m.criterion
  output : l.output = m.output

inductive StepAlike (R : σ → τ → Prop) : Step σ ω → Step τ ω → Prop where
  | next {l : Listing σ ω} {m : Listing τ ω} (h : Alike R l m) : StepAlike R (.next l) (.next m)
  | done {r : Run σ ω} {q : Run τ ω} (h : r.Alike R q) : StepAlike R (.done r) (.done q)

theorem Alike.advance {l : Listing σ ω} {m : Listing τ ω} (h : Alike R l m) :
    StepAlike R l.advance m.advance := by
  unfold Listing.advance
  rw [h.candidate]
  split
  · exact .done ⟨rfl, h.criterion, h.output⟩
  · exact .next ⟨rfl, h.tally, h.criterion, h.output⟩

variable [Criterion σ] [Criterion τ] [Output ω]

theorem Alike.step {l : Listing σ ω} {m : Listing τ ω} (hR : Agreement R) (h : Alike R l m)
    (n : Int64) : StepAlike R (l.step n) (m.step n) := by
  have hanswer := hR.answer h.criterion l.candidate
  have hnext := hR.next h.criterion l.candidate
  unfold Listing.step
  rw [← h.tally, ← h.candidate, ← h.output]
  split
  · exact .done ⟨rfl, h.criterion, rfl⟩
  · rcases hl : Criterion.judge l.criterion l.candidate with ⟨accepted, s⟩
    rcases hm : Criterion.judge m.criterion l.candidate with ⟨_, t⟩
    rw [hl, hm] at hanswer hnext
    cases hanswer
    -- the answers are one and the same, so both listings put the same line or none
    cases accepted with
    | false => exact Alike.advance ⟨rfl, rfl, hnext, rfl⟩
    | true =>
      dsimp only
      rcases Output.put l.output (Entry.mk l.candidate).line with ⟨_ | fault, o⟩
      · exact Alike.advance ⟨rfl, rfl, hnext, rfl⟩
      · exact .done ⟨rfl, hnext, rfl⟩

/-- Listings that are alike end alike. -/
theorem Alike.run {l : Listing σ ω} {m : Listing τ ω} (hR : Agreement R) (h : Alike R l m)
    (n : Int64) : (l.run n).Alike R (m.run n) := by
  -- along the run of the first listing; the second one takes each step with it
  fun_induction Listing.run n l generalizing m with
  | case1 l r hl =>
    have hstep := h.step hR n
    rw [hl] at hstep
    generalize hm : m.step n = step at hstep
    cases hstep with
    | done hdone => rwa [run_of_done hm]
  | case2 l l' hl ih =>
    have hstep := h.step hR n
    rw [hl] at hstep
    generalize hm : m.step n = step at hstep
    cases hstep with
    | next hnext =>
      rw [run_of_next hm]
      exact ih hnext

end Listing

end PrimeStream
