import PrimeStream.Proofs.ListingCourse
import PrimeStream.Proofs.SinkRoom

/-!
# Listings on a sink

On a sink with counted room, a listing that would write some lines writes as many of their bytes
as fit. When all fit, it goes on as on any other output; otherwise it ends at the entry whose line
holds the first byte that does not fit.
-/

set_option autoImplicit false

namespace PrimeStream

open Output (putEach)
open Sink (Accepted Puts)

def lines : List Int64 → ByteArray
  | [] => .empty
  | x :: xs => (Entry.mk x).line ++ lines xs

theorem lines_append (xs ys : List Int64) : lines (xs ++ ys) = lines xs ++ lines ys := by
  induction xs with
  | nil => rw [List.nil_append, lines, ByteArray.empty_append]
  | cons x xs ih => rw [List.cons_append, lines, lines, ih, ByteArray.append_assoc]

theorem putEach_puts {s : Sink} (h : s.room.Counted) (xs : List Int64) :
    Puts s (lines xs) (putEach s xs) := by
  induction xs generalizing s with
  | nil => exact Sink.puts_empty (Accepted.refl s)
  | cons x xs ih =>
    have hline : Puts s (Entry.mk x).line (Output.put s (Entry.mk x).line) := Sink.put_puts h _
    rw [putEach, lines]
    rcases hput : Output.put s (Entry.mk x).line with ⟨_ | fault, t⟩
    · rw [hput] at hline
      exact hline.append h (ih (hline.accepted_of_none.counted h))
    · rw [hput] at hline
      exact hline.append_of_some h _

namespace Listing

open Criterion (after)
open Candidate (firsts)

variable {σ ω : Type} [Criterion σ] [Output ω]

theorem exists_entries_append (c : σ) {j k : ℕ} (h : j ≤ k) :
    ∃ rest, entries c k = entries c j ++ rest := by
  induction k with
  | zero => exact ⟨[], by rw [Nat.le_zero.mp h, List.append_nil]⟩
  | succ k ih =>
    rcases Nat.le_succ_iff.mp h with hle | rfl
    · obtain ⟨rest, hrest⟩ := ih hle
      exact ⟨rest ++ news c k, by rw [entries_succ, hrest, List.append_assoc]⟩
    · exact ⟨[], (List.append_nil _).symm⟩

theorem news_eq_of_ne_nil {c : σ} {j : ℕ} (h : news c j ≠ []) :
    news c j = [Int64.ofNat (j + 2)] := by
  unfold news at h ⊢
  split
  · rfl
  · rename_i hj
    exact absurd (if_neg hj) h

theorem exists_entry_of_lt {c : σ} {k i : ℕ} (h : i < (lines (entries c k)).size) :
    ∃ j < k, entries c (j + 1) = entries c j ++ [Int64.ofNat (j + 2)] ∧
      (lines (entries c j)).size ≤ i ∧ i < (lines (entries c (j + 1))).size := by
  induction k with
  | zero => exact absurd h (Nat.not_lt_zero i)
  | succ k ih =>
    rcases Nat.lt_or_ge i (lines (entries c k)).size with hlt | hge
    · obtain ⟨j, hj, hentry⟩ := ih hlt
      exact ⟨j, by omega, hentry⟩
    · have hnews : news c k ≠ [] := by
        intro hnil
        rw [entries_succ, hnil, List.append_nil] at h
        omega
      exact ⟨k, by omega, by rw [entries_succ, news_eq_of_ne_nil hnews], hge, h⟩

variable {n : Int64} {c : σ} {k : ℕ} {s : Sink}

theorem Incomplete.reaches (h : Incomplete n c k) (hs : s.room.Counted)
    (hfit : s.room.fit (lines (entries c k)) = (lines (entries c k)).size) :
    ∃ t, Reaches n c s k t ∧ Accepted s (lines (entries c k)) t := by
  have hputs := putEach_puts hs (entries c k)
  rcases hput : putEach s (entries c k) with ⟨_ | fault, t⟩
  · rw [hput] at hputs
    exact ⟨t, ⟨h, hput⟩, hputs.accepted_of_none⟩
  · rw [hput] at hputs
    have := hputs.fault_of_some.2
    omega

theorem Reaches.accepted {t : Sink} (h : Reaches n c s k t) (hs : s.room.Counted) :
    Accepted s (lines (entries c k)) t := by
  have hputs := putEach_puts hs (entries c k)
  rw [h.put] at hputs
  exact hputs.accepted_of_none

theorem Incomplete.failed {j : ℕ} (h : Incomplete n c k) (hs : s.room.Counted) (hj : j < k)
    (hfit : s.room.fit (lines (entries c j)) = (lines (entries c j)).size)
    (hcut : s.room.fit (lines (entries c (j + 1))) < (lines (entries c (j + 1))).size) :
    ∃ t, run n { criterion := c, output := s } =
        ⟨.failed s.fault, after c (firsts (j + 1)), t⟩ ∧
      Accepted s ((lines (entries c (j + 1))).extract 0
        (s.room.fit (lines (entries c (j + 1))))) t := by
  obtain ⟨t, ht, -⟩ := (h.mono (Nat.le_of_lt hj)).reaches hs hfit
  have hputs := putEach_puts hs (entries c (j + 1))
  have hput : putEach s (entries c (j + 1)) = putEach t (news c j) := by
    rw [entries_succ, Output.putEach_append, ht.put]
  rw [hput] at hputs
  rcases hnext : putEach t (news c j) with ⟨_ | fault, u⟩
  · rw [hnext] at hputs
    have := hputs.fit_of_none
    omega
  · rw [hnext] at hputs
    obtain ⟨rfl, -⟩ := hputs.fault_of_some
    exact ⟨u, ht.failed (h.isOpen j hj) hnext, hputs.accepted⟩

/-- Where the lines do not all fit, it fails at the entry in whose line the first byte lies that
does not fit, and the bytes before that one are kept. -/
theorem Incomplete.cut (h : Incomplete n c k) (hs : s.room.Counted) {i : ℕ}
    (hi : s.room.fit (lines (entries c k)) = i) (hcut : i < (lines (entries c k)).size) :
    ∃ j < k, ∃ rest, entries c k = entries c j ++ Int64.ofNat (j + 2) :: rest ∧
      (lines (entries c j)).size ≤ i ∧
      i < (lines (entries c j ++ [Int64.ofNat (j + 2)])).size ∧
      ∃ t, run n { criterion := c, output := s } =
          ⟨.failed s.fault, after c (firsts (j + 1)), t⟩ ∧
        Accepted s ((lines (entries c k)).extract 0 i) t := by
  obtain ⟨j, hj, hentry, hbefore, hafter⟩ := exists_entry_of_lt hcut
  obtain ⟨rest, hrest⟩ := exists_entries_append c (Nat.succ_le_of_lt hj)
  have hall : lines (entries c k) = lines (entries c (j + 1)) ++ lines rest := by
    rw [hrest, lines_append]
  have hline : lines (entries c (j + 1)) =
      lines (entries c j) ++ lines [Int64.ofNat (j + 2)] := by
    rw [hentry, lines_append]
  -- the room ends in the line of the entry: the lines before it fit, and it does not
  rw [hall] at hi
  have hle := s.room.fit_le (lines (entries c (j + 1)))
  have hlt : s.room.fit (lines (entries c (j + 1))) < (lines (entries c (j + 1))).size := by
    have hiff := Room.size_le_fit_iff hs (lines (entries c (j + 1))) (lines rest)
    omega
  rw [Room.fit_append_of_lt hs hlt] at hi
  have hfit : s.room.fit (lines (entries c j)) = (lines (entries c j)).size := by
    rw [← Room.size_le_fit_iff hs _ (lines [Int64.ofNat (j + 2)]), ← hline, hi]
    exact hbefore
  obtain ⟨t, hrun, haccepted⟩ := h.failed hs hj hfit hlt
  rw [hi] at haccepted
  refine ⟨j, hj, rest, ?_, hbefore, ?_, t, hrun, ?_⟩
  · rw [hrest, hentry, List.append_assoc, List.singleton_append]
  · rwa [← hentry]
  · rwa [hall, extract_append_of_le (Nat.le_of_lt hafter)]

end Listing

end PrimeStream
