import Mathlib.Algebra.Group.Nat.Defs
import PrimeStream.Listing
import PrimeStream.Proofs.Judgements

/-!
# The course of a listing

A listing that goes on has judged the first candidates, holds the tally of those it accepted, and
has put their lines on its output one after the other. How it ends is told by the criterion and
the output alone: it is complete, the output fails at a line, or no candidate is left.
-/

set_option autoImplicit false

namespace PrimeStream

namespace Output

variable {ω : Type} [Output ω]

def putEach (o : ω) : List Int64 → Option Fault × ω
  | [] => (none, o)
  | x :: xs =>
    match put o (Entry.mk x).line with
    | (some fault, t) => (some fault, t)
    | (none, t) => putEach t xs

@[simp] theorem putEach_nil (o : ω) : putEach o [] = (none, o) := rfl

theorem putEach_append (o : ω) (xs ys : List Int64) :
    putEach o (xs ++ ys) =
      match putEach o xs with
      | (some fault, t) => (some fault, t)
      | (none, t) => putEach t ys := by
  induction xs generalizing o with
  | nil => rfl
  | cons x xs ih =>
    rw [List.cons_append, putEach, putEach]
    rcases put o (Entry.mk x).line with ⟨_ | fault, t⟩
    · exact ih t
    · rfl

theorem putEach_singleton (o : ω) (x : Int64) :
    putEach o [x] = put o (Entry.mk x).line := by
  rw [putEach]
  rcases put o (Entry.mk x).line with ⟨_ | fault, t⟩ <;> rfl

end Output

namespace Tally

def ofEntries (xs : List Int64) : Tally := ⟨Int64.ofNat xs.length, xs.getLast?.map Entry.mk⟩

theorem ofEntries_concat (xs : List Int64) (x : Int64) :
    ofEntries (xs ++ [x]) = (ofEntries xs).add ⟨x⟩ := by
  simp [ofEntries, add, Int64.ofNat_add]

end Tally

namespace Listing

open Criterion (after select)
open Candidate (firsts)
open Output (putEach)

variable {σ ω : Type} [Criterion σ]

/-- What a criterion accepts of the first candidates. -/
def entries (c : σ) (k : ℕ) : List Int64 := (select c (firsts k)).1

/-- What a criterion accepts next: the candidate after the first ones, or nothing. -/
def news (c : σ) (k : ℕ) : List Int64 :=
  if (Criterion.judge (after c (firsts k)) (Int64.ofNat (k + 2))).1 then [Int64.ofNat (k + 2)]
  else []

theorem entries_succ (c : σ) (k : ℕ) : entries c (k + 1) = entries c k ++ news c k := by
  rw [entries, Candidate.firsts_succ, Criterion.select_append, Criterion.select_cons,
    Criterion.select_nil, List.append_nil]
  rfl

theorem length_entries_le (c : σ) (k : ℕ) : (entries c k).length ≤ k := by
  have h := (Criterion.select_sublist c (firsts k)).length_le
  rwa [Candidate.length_firsts] at h

def course (c : σ) (k : ℕ) (output : ω) : Listing σ ω where
  candidate := Int64.ofNat (k + 2)
  tally := Tally.ofEntries (entries c k)
  criterion := after c (firsts k)
  output

theorem course_zero (c : σ) (o : ω) : course c 0 o = { criterion := c, output := o } := rfl

theorem lt_count_iff {k : ℕ} (hk : k + 2 < 2 ^ 63) (n : Int64) (c : σ) (o : ω) :
    n < (course c k o).tally.count ↔ n.toInt < (entries c k).length := by
  have hlen := length_entries_le c k
  rw [Int64.lt_iff_toInt_lt, course, Tally.ofEntries, Int64.toInt_ofNat_of_lt (by omega)]

theorem word_eq_maxValue_iff {k : ℕ} (hk : k + 2 < 2 ^ 63) :
    Int64.ofNat (k + 2) = Int64.maxValue ↔ k + 3 = 2 ^ 63 := by
  rw [← Int64.toInt_inj, Int64.toInt_ofNat_of_lt hk, Int64.toInt_maxValue]
  omega

theorem after_succ (c : σ) (k : ℕ) :
    after c (firsts (k + 1)) =
      (Criterion.judge (after c (firsts k)) (Int64.ofNat (k + 2))).2 := by
  rw [Candidate.firsts_succ, Criterion.after_append]
  rfl

theorem advance_course {k : ℕ} (hk : k + 2 < 2 ^ 63) (c : σ) (t : ω) :
    advance { course c (k + 1) t with candidate := Int64.ofNat (k + 2) } =
      if k + 3 = 2 ^ 63 then .done ⟨.exhausted, after c (firsts (k + 1)), t⟩
      else .next (course c (k + 1) t) := by
  unfold advance
  by_cases hlast : k + 3 = 2 ^ 63
  · rw [if_pos ((word_eq_maxValue_iff hk).mpr hlast), if_pos hlast]
    rfl
  · rw [if_neg fun h => hlast ((word_eq_maxValue_iff hk).mp h), if_neg hlast]
    have hsucc : Int64.ofNat (k + 2) + 1 = Int64.ofNat (k + 1 + 2) := by
      rw [Nat.add_right_comm k 1 2]
      exact (Int64.ofNat_add (k + 2) 1).symm
    simp only [course, hsucc]

/-- A listing for `n` is not complete before it has judged `k` candidates, and the next one is
still a word. -/
structure Incomplete (n : Int64) (c : σ) (k : ℕ) : Prop where
  word : k + 2 < 2 ^ 63
  isOpen : ∀ j < k, (entries c j).length ≤ n.toInt

theorem Incomplete.mono {n : Int64} {c : σ} {j k : ℕ} (h : Incomplete n c k) (hle : j ≤ k) :
    Incomplete n c j :=
  ⟨by have := h.word; omega, fun i hi => h.isOpen i (by omega)⟩

variable [Output ω]

theorem step_course {n : Int64} {c : σ} {k : ℕ} (hk : k + 2 < 2 ^ 63)
    (hopen : (entries c k).length ≤ n.toInt) (o : ω) :
    (course c k o).step n =
      match putEach o (news c k) with
      | (some fault, t) => .done ⟨.failed fault, after c (firsts (k + 1)), t⟩
      | (none, t) =>
        if k + 3 = 2 ^ 63 then .done ⟨.exhausted, after c (firsts (k + 1)), t⟩
        else .next (course c (k + 1) t) := by
  have hcount : ¬ n < (course c k o).tally.count := by
    rw [lt_count_iff hk]
    omega
  have hadvance := fun t : ω => advance_course hk c t
  simp only [course, after_succ, entries_succ, news] at hadvance
  rw [step, if_neg hcount]
  simp only [course, after_succ, entries_succ, news]
  rcases hjudge : Criterion.judge (after c (firsts k)) (Int64.ofNat (k + 2)) with ⟨_ | _, s⟩
  · simp only [hjudge, Bool.false_eq_true, if_false, List.append_nil] at hadvance
    simp only [Bool.false_eq_true, if_false, Output.putEach_nil, List.append_nil]
    exact hadvance o
  · simp only [hjudge, if_true, Tally.ofEntries_concat] at hadvance
    simp only [if_true, Output.putEach_singleton, Tally.ofEntries_concat]
    rcases Output.put o (Entry.mk (Int64.ofNat (k + 2))).line with ⟨_ | fault, t⟩
    · exact hadvance t
    · rfl

theorem run_of_done {n : Int64} {l : Listing σ ω} {r : Run σ ω} (h : l.step n = .done r) :
    l.run n = r := by
  rw [run]
  split <;> simp_all

theorem run_of_next {n : Int64} {l m : Listing σ ω} (h : l.step n = .next m) :
    l.run n = m.run n := by
  rw [run]
  split <;> simp_all

/-- A listing for `n` comes to judge `k` candidates on an output, and leaves it as `t`. -/
structure Reaches (n : Int64) (c : σ) (o : ω) (k : ℕ) (t : ω) : Prop
    extends Incomplete n c k where
  put : putEach o (entries c k) = (none, t)

theorem reaches_zero (n : Int64) (c : σ) (o : ω) : Reaches n c o 0 o :=
  ⟨⟨by decide, fun j hj => absurd hj (Nat.not_lt_zero j)⟩, rfl⟩

theorem Reaches.prev {n : Int64} {c : σ} {o t : ω} {k : ℕ} (h : Reaches n c o (k + 1) t) :
    ∃ u, Reaches n c o k u ∧ putEach u (news c k) = (none, t) := by
  have hput := h.put
  rw [entries_succ, Output.putEach_append] at hput
  rcases hu : putEach o (entries c k) with ⟨_ | fault, u⟩
  · rw [hu] at hput
    exact ⟨u, ⟨h.mono (Nat.le_succ k), hu⟩, hput⟩
  · rw [hu] at hput
    cases hput

theorem Reaches.next {n : Int64} {c : σ} {o t u : ω} {k : ℕ} (h : Reaches n c o k t)
    (hopen : (entries c k).length ≤ n.toInt) (hk : k + 3 < 2 ^ 63)
    (hput : putEach t (news c k) = (none, u)) : Reaches n c o (k + 1) u where
  word := hk
  isOpen j hj := by
    rcases Nat.lt_succ_iff_lt_or_eq.mp hj with hlt | rfl
    · exact h.isOpen j hlt
    · exact hopen
  put := by
    rw [entries_succ, Output.putEach_append, h.put]
    exact hput

theorem Reaches.run_eq {n : Int64} {c : σ} {o t : ω} {k : ℕ} (h : Reaches n c o k t) :
    run n { criterion := c, output := o } = (course c k t).run n := by
  induction k generalizing t with
  | zero =>
    have ht : o = t := congrArg Prod.snd h.put
    rw [← ht, course_zero]
  | succ k ih =>
    obtain ⟨u, hu, hput⟩ := h.prev
    have hstep := step_course hu.word (h.isOpen k (by omega)) u
    rw [hput] at hstep
    rw [ih hu, run_of_next (hstep.trans (if_neg (by have := h.word; omega)))]

theorem Reaches.complete {n : Int64} {c : σ} {o t : ω} {k : ℕ} (h : Reaches n c o k t)
    (hfull : n.toInt < (entries c k).length) :
    run n { criterion := c, output := o } =
      ⟨.complete (Tally.ofEntries (entries c k)), after c (firsts k), t⟩ := by
  rw [h.run_eq]
  apply run_of_done
  rw [step, if_pos ((lt_count_iff h.word n c t).mpr hfull)]
  rfl

theorem Reaches.failed {n : Int64} {c : σ} {o t u : ω} {k : ℕ} {fault : Fault}
    (h : Reaches n c o k t) (hopen : (entries c k).length ≤ n.toInt)
    (hput : putEach t (news c k) = (some fault, u)) :
    run n { criterion := c, output := o } =
      ⟨.failed fault, after c (firsts (k + 1)), u⟩ := by
  rw [h.run_eq]
  apply run_of_done
  rw [step_course h.word hopen, hput]

theorem Incomplete.run_complete {n : Int64} {c : σ} {o t : ω} {k : ℕ}
    (h : Incomplete n c k) (hfull : n.toInt < (entries c k).length)
    (hput : putEach o (entries c k) = (none, t)) :
    run n { criterion := c, output := o } =
      ⟨.complete (Tally.ofEntries (entries c k)), after c (firsts k), t⟩ :=
  Reaches.complete ⟨h, hput⟩ hfull

theorem Incomplete.run_failed {n : Int64} {c : σ} {o t : ω} {k : ℕ} {fault : Fault}
    (h : Incomplete n c k)
    (hput : putEach o (entries c k) = (some fault, t)) :
    ∃ j < k, run n { criterion := c, output := o } =
      ⟨.failed fault, after c (firsts (j + 1)), t⟩ := by
  induction k with
  | zero => cases hput
  | succ k ih =>
    have hprev := h.mono (Nat.le_succ k)
    rw [entries_succ, Output.putEach_append] at hput
    rcases hu : putEach o (entries c k) with ⟨_ | earlier, u⟩
    · rw [hu] at hput
      have hreaches : Reaches n c o k u := ⟨hprev, hu⟩
      exact ⟨k, Nat.lt_succ_self k, hreaches.failed (h.isOpen k (Nat.lt_succ_self k)) hput⟩
    · rw [hu] at hput
      cases hput
      obtain ⟨j, hj, hrun⟩ := ih hprev hu
      exact ⟨j, Nat.lt_succ_of_lt hj, hrun⟩

theorem Reaches.exhausted {n : Int64} {c : σ} {o t u : ω} {k : ℕ} (h : Reaches n c o k t)
    (hopen : (entries c k).length ≤ n.toInt) (hlast : k + 3 = 2 ^ 63)
    (hput : putEach t (news c k) = (none, u)) :
    run n { criterion := c, output := o } = ⟨.exhausted, after c (firsts (k + 1)), u⟩ := by
  rw [h.run_eq]
  apply run_of_done
  rw [step_course h.word hopen, hput]
  exact if_pos hlast

inductive Ends (n : Int64) (c : σ) (k : ℕ) (t : ω) : Prop where
  | complete (hfull : n.toInt < (entries c k).length)
  | failed (fault : Fault) (u : ω) (hopen : (entries c k).length ≤ n.toInt)
      (hput : putEach t (news c k) = (some fault, u))
  | exhausted (u : ω) (hopen : (entries c k).length ≤ n.toInt) (hlast : k + 3 = 2 ^ 63)
      (hput : putEach t (news c k) = (none, u))

theorem exists_ends (n : Int64) (c : σ) (o : ω) : ∃ k t, Reaches n c o k t ∧ Ends n c k t := by
  -- induction on the words that are left after the candidate
  suffices h : ∀ m k t, k + 3 + m = 2 ^ 63 → Reaches n c o k t →
      ∃ k t, Reaches n c o k t ∧ Ends n c k t from
    h (2 ^ 63 - 3) 0 o (by decide) (reaches_zero n c o)
  intro m
  induction m with
  | zero =>
    intro k t hk h
    rcases Int.lt_or_le n.toInt (entries c k).length with hfull | hopen
    · exact ⟨k, t, h, .complete hfull⟩
    · rcases hput : putEach t (news c k) with ⟨_ | fault, u⟩
      · exact ⟨k, t, h, .exhausted u hopen hk hput⟩
      · exact ⟨k, t, h, .failed fault u hopen hput⟩
  | succ m ih =>
    intro k t hk h
    rcases Int.lt_or_le n.toInt (entries c k).length with hfull | hopen
    · exact ⟨k, t, h, .complete hfull⟩
    · rcases hput : putEach t (news c k) with ⟨_ | fault, u⟩
      · exact ih (k + 1) u (by omega) (h.next hopen (by omega) hput)
      · exact ⟨k, t, h, .failed fault u hopen hput⟩

theorem exists_after (n : Int64) (c : σ) (o : ω) :
    ∃ k, (run n { criterion := c, output := o }).criterion = after c (firsts k) := by
  obtain ⟨k, t, hk, hend⟩ := exists_ends n c o
  cases hend with
  | complete hfull => exact ⟨k, by rw [hk.complete hfull]⟩
  | failed fault u hopen hput => exact ⟨k + 1, by rw [hk.failed hopen hput]⟩
  | exhausted u hopen hlast hput => exact ⟨k + 1, by rw [hk.exhausted hopen hlast hput]⟩

theorem exists_complete {n : Int64} {c : σ} {o : ω} {tally : Tally}
    (h : (run n { criterion := c, output := o }).outcome = .complete tally) :
    ∃ k t, Reaches n c o k t ∧ n.toInt < (entries c k).length ∧
      run n { criterion := c, output := o } = ⟨.complete tally, after c (firsts k), t⟩ := by
  obtain ⟨k, t, hk, hend⟩ := exists_ends n c o
  cases hend with
  | complete hfull =>
    have hrun := hk.complete hfull
    rw [hrun] at h
    cases h
    exact ⟨k, t, hk, hfull, hrun⟩
  | failed fault u hopen hput =>
    rw [hk.failed hopen hput] at h
    cases h
  | exhausted u hopen hlast hput =>
    rw [hk.exhausted hopen hlast hput] at h
    cases h

end Listing

end PrimeStream
