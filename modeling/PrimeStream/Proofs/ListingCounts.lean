import PrimeStream.Proofs.SinkListing

/-!
# The counts of a listing

Before each of its steps a listing holds a candidate from two on and has written no more entries
than there are candidates before that one. So its count is a word as long as its candidate is one,
also in a listing that no count can complete. The candidates come to an end only where every line
up to that of the greatest word is written and too few of the others before it are accepted.
-/

set_option autoImplicit false

namespace PrimeStream.Listing

open Candidate (firsts upTo)
open Criterion (judge select)
open Output (putEach)

section Heads

variable {σ ω : Type} {n : Int64} {l m : Listing σ ω}

theorem advance_tally (h : l.advance = .next m) : m.tally = l.tally := by
  unfold advance at h
  split at h
  · cases h
  · cases h
    rfl

theorem advance_exhausted {r : Run σ ω} (h : l.advance = .done r) :
    l.candidate = Int64.maxValue := by
  unfold advance at h
  split at h
  · assumption
  · cases h

structure Bounded (n : Int64) (l : Listing σ ω) : Prop where
  two_le : 2 ≤ l.candidate.toInt
  count_nonneg : 0 ≤ l.tally.count.toInt
  count_le : l.tally.count.toInt ≤ l.candidate.toInt - 2
  count_le_succ : 0 ≤ n.toInt → l.tally.count.toInt ≤ n.toInt + 1

theorem bounded_start (n : Int64) (c : σ) (o : ω) :
    Bounded n { criterion := c, output := o : Listing σ ω } where
  two_le := Int.le_refl 2
  count_nonneg := Int.le_refl 0
  count_le := Int.le_refl 0
  count_le_succ hn := Int.le_add_one hn

theorem Bounded.toInt_count_succ (h : Bounded n l) :
    (l.tally.count + 1).toInt = l.tally.count.toInt + 1 := by
  have hle := h.count_le
  have hlt := l.candidate.toInt_lt
  apply Candidate.toInt_succ
  rw [Int64.lt_iff_toInt_lt, Int64.toInt_maxValue]
  omega

variable [Criterion σ] [Output ω]

/-- A listing for `n` that starts as `l` comes to be like this before one of its steps. -/
inductive Head (n : Int64) (l : Listing σ ω) : Listing σ ω → Prop where
  | start : Head n l l
  | next {m m' : Listing σ ω} (h : Head n l m) (hstep : m.step n = .next m') : Head n l m'

theorem Head.exists_done (h : Head n l m) : ∃ m', Head n l m' ∧ m'.step n = .done (m.run n) := by
  fun_induction Listing.run n m with
  | case1 m r hstep => exact ⟨m, h, hstep⟩
  | case2 m m' hstep ih => exact ih (h.next hstep)

theorem step_cases (n : Int64) (l : Listing σ ω) :
    (n < l.tally.count ∧ l.step n = .done ⟨.complete l.tally, l.criterion, l.output⟩) ∨
      l.tally.count ≤ n ∧
        ((∃ fault c o, l.step n = .done ⟨.failed fault, c, o⟩) ∨
          ∃ l' : Listing σ ω, l.step n = l'.advance ∧ l'.candidate = l.candidate ∧
            l'.tally = if (judge l.criterion l.candidate).1 then l.tally.add ⟨l.candidate⟩
              else l.tally) := by
  unfold step
  split
  · rename_i hfull
    exact .inl ⟨hfull, rfl⟩
  · rename_i hopen
    refine .inr ⟨Int64.not_lt.mp hopen, ?_⟩
    rcases judge l.criterion l.candidate with ⟨_ | _, s⟩
    · exact .inr ⟨_, rfl, rfl, rfl⟩
    · dsimp only
      rcases Output.put l.output (Entry.mk l.candidate).line with ⟨_ | fault, o⟩
      · exact .inr ⟨_, rfl, rfl, rfl⟩
      · exact .inl ⟨fault, s, o, rfl⟩

theorem step_next_tally (h : l.step n = .next m) :
    l.tally.count ≤ n ∧
      m.tally = if (judge l.criterion l.candidate).1 then l.tally.add ⟨l.candidate⟩
        else l.tally := by
  rcases step_cases n l with ⟨-, hdone⟩ | ⟨hopen, ⟨_, _, _, hdone⟩ | ⟨l', hadvance, -, htally⟩⟩
  · rw [hdone] at h
    cases h
  · rw [hdone] at h
    cases h
  · rw [hadvance] at h
    exact ⟨hopen, (advance_tally h).trans htally⟩

theorem step_exhausted {r : Run σ ω} (h : l.step n = .done r) (hr : r.outcome = .exhausted) :
    l.candidate = Int64.maxValue := by
  rcases step_cases n l with ⟨-, hdone⟩ | ⟨-, ⟨_, _, _, hdone⟩ | ⟨l', hadvance, hcandidate, -⟩⟩
  · rw [hdone] at h
    cases h
    cases hr
  · rw [hdone] at h
    cases h
    cases hr
  · rw [hadvance] at h
    rw [← hcandidate]
    exact advance_exhausted h

theorem Bounded.toInt_count_next (h : Bounded n l) (hstep : l.step n = .next m) :
    m.tally.count.toInt =
      l.tally.count.toInt + if (judge l.criterion l.candidate).1 then 1 else 0 := by
  rw [(step_next_tally hstep).2]
  split
  · exact h.toInt_count_succ
  · exact (Int.add_zero _).symm

theorem Bounded.next (h : Bounded n l) (hstep : l.step n = .next m) : Bounded n m := by
  have hcandidate := step_next hstep
  have hcount := h.toInt_count_next hstep
  have hopen := (step_next_tally hstep).1
  have htwo := h.two_le
  have hnonneg := h.count_nonneg
  have hle := h.count_le
  rw [Int64.le_iff_toInt_le] at hopen
  -- the candidate grows by one, and the count by no more than that
  split at hcount
  · constructor <;> omega
  · constructor <;> omega

theorem Head.bounded {c : σ} {o : ω} (h : Head n { criterion := c, output := o } l) :
    Bounded n l := by
  induction h with
  | start => exact bounded_start n c o
  | next _ hstep ih => exact ih.next hstep

end Heads

variable {σ ω : Type} [Criterion σ]

theorem select_upTo_maxValue {k : ℕ} (hk : k + 3 = 2 ^ 63) (c : σ) :
    (select c (upTo Int64.maxValue)).1 = entries c (k + 1) := by
  have hword := (word_eq_maxValue_iff (k := k) (by omega)).mpr hk
  rw [← hword, Candidate.upTo_word (by omega)]
  rfl

theorem select_upTo_pred {k : ℕ} (hk : k + 3 = 2 ^ 63) (c : σ) :
    (select c (upTo (Int64.maxValue - 1))).1 = entries c k := by
  have hpred : (Int64.maxValue - 1).toNatClampNeg = 2 ^ 63 - 2 := by decide
  have hlast : 2 ^ 63 - 2 - 1 = k := by omega
  rw [upTo, hpred, hlast]
  rfl

variable [Output ω]

/-- The candidates do not suffice for a listing: its output takes every line up to that of the
greatest word, and too few of the candidates before that word are accepted. -/
def RunsOut (n : Int64) (c : σ) (o : ω) : Prop :=
  (putEach o (select c (upTo Int64.maxValue)).1).1 = none ∧
    ((select c (upTo (Int64.maxValue - 1))).1.length : ℤ) < n.toInt + 1

theorem exhausted_iff (n : Int64) (c : σ) (o : ω) :
    (run n { criterion := c, output := o }).outcome = .exhausted ↔ RunsOut n c o := by
  unfold RunsOut
  constructor
  · intro h
    obtain ⟨k, t, hk, hend⟩ := exists_ends n c o
    cases hend with
    | complete hfull =>
      rw [hk.complete hfull] at h
      cases h
    | failed fault u hopen hput =>
      rw [hk.failed hopen hput] at h
      cases h
    | exhausted u hopen hlast hput =>
      rw [select_upTo_maxValue hlast, select_upTo_pred hlast, entries_succ,
        Output.putEach_append, hk.put]
      exact ⟨congrArg Prod.fst hput, by omega⟩
  · rintro ⟨hwritten, hcount⟩
    obtain ⟨k, hlast⟩ : ∃ k, k + 3 = 2 ^ 63 := ⟨2 ^ 63 - 3, by decide⟩
    rw [select_upTo_maxValue hlast, entries_succ, Output.putEach_append] at hwritten
    rw [select_upTo_pred hlast] at hcount
    -- too few entries before the last candidate are too few before any earlier one
    have hopen (j : ℕ) (hj : j < k) : ((entries c j).length : ℤ) ≤ n.toInt := by
      obtain ⟨rest, hrest⟩ := exists_entries_append c (Nat.le_of_lt hj)
      rw [hrest, List.length_append] at hcount
      omega
    rcases ht : putEach o (entries c k) with ⟨_ | fault, t⟩
    · have hreaches : Reaches n c o k t := ⟨⟨by omega, hopen⟩, ht⟩
      have hu : putEach t (news c k) = (none, (putEach t (news c k)).2) := by
        rw [ht] at hwritten
        rw [← hwritten]
      rw [hreaches.exhausted (by omega) hlast hu]
    · rw [ht] at hwritten
      cases hwritten

/-- Before every step of a listing, whatever its criterion and its output do, the candidate is at
least two, and no more entries are counted than there are candidates before it, nor more than one
past the number that the listing is made for. So one entry more can always be counted, and a step
that goes on adds exactly one to the candidate and to the count what it has accepted. The
candidates only come to an end at the greatest word, and exactly for the listings that they do not
suffice for. Any other listing is complete or fails. -/
theorem heads_bounded (n : Int64) (c : σ) (o : ω) :
    (∀ l, Head n { criterion := c, output := o } l →
      2 ≤ l.candidate.toInt ∧ 0 ≤ l.tally.count.toInt ∧
      l.tally.count.toInt ≤ l.candidate.toInt - 2 ∧
      (0 ≤ n → l.tally.count.toInt ≤ n.toInt + 1) ∧
      (l.tally.count + 1).toInt = l.tally.count.toInt + 1 ∧
      (∀ m, l.step n = .next m →
        m.candidate.toInt = l.candidate.toInt + 1 ∧
        m.tally.count.toInt =
          l.tally.count.toInt + if (judge l.criterion l.candidate).1 then 1 else 0) ∧
      ∀ r, l.step n = .done r → r.outcome = .exhausted → l.candidate = Int64.maxValue) ∧
    (∃ l, Head n { criterion := c, output := o } l ∧
      l.step n = .done (run n { criterion := c, output := o })) ∧
    ((run n { criterion := c, output := o }).outcome = .exhausted ↔ RunsOut n c o) ∧
    (¬ RunsOut n c o →
      (∃ tally, (run n { criterion := c, output := o }).outcome = .complete tally) ∨
        ∃ fault, (run n { criterion := c, output := o }).outcome = .failed fault) := by
  refine ⟨?_, Head.start.exists_done, exhausted_iff n c o, ?_⟩
  · intro l h
    have hl := h.bounded
    refine ⟨hl.two_le, hl.count_nonneg, hl.count_le, ?_, hl.toInt_count_succ, ?_, ?_⟩
    · intro hn
      apply hl.count_le_succ
      rwa [Int64.le_iff_toInt_le] at hn
    · intro m hstep
      exact ⟨step_next hstep, hl.toInt_count_next hstep⟩
    · intro r hstep hr
      exact step_exhausted hstep hr
  · rw [← exhausted_iff]
    intro hreturns
    rcases hrun : (run n { criterion := c, output := o }).outcome with tally | fault | _
    · exact .inl ⟨tally, rfl⟩
    · exact .inr ⟨fault, rfl⟩
    · exact absurd hrun hreturns

end PrimeStream.Listing
