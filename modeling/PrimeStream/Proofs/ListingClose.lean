import PrimeStream.Proofs.LimitedListing
import PrimeStream.Sieve

/-!
# How a listing closes

On a sink with room for everything only the criterion decides how a listing ends. A listing for
`n` closes with the entry before which `n` others were accepted: that entry is the last candidate
that is judged, and its line is the last one that is written. Such an entry below the greatest
word is also enough for the listing to be complete.
-/

set_option autoImplicit false

namespace PrimeStream

namespace Candidate

theorem toInt_lt_of_mem_firsts {k : ℕ} (hk : k + 1 < 2 ^ 63) {x : Int64} (hx : x ∈ firsts k) :
    x.toInt < k + 2 := by
  obtain ⟨m, hm, rfl⟩ := List.mem_map.mp hx
  rw [List.mem_range'_1] at hm
  rw [Int64.toInt_ofNat_of_lt (by omega)]
  omega

theorem firsts_ascending {k : ℕ} (hk : k + 1 < 2 ^ 63) : (firsts k).Pairwise (· < ·) := by
  induction k with
  | zero => exact List.Pairwise.nil
  | succ k ih =>
    rw [firsts_succ, List.pairwise_append]
    refine ⟨ih (by omega), List.pairwise_singleton _ _, ?_⟩
    intro x hx y hy
    have hlt := toInt_lt_of_mem_firsts (by omega) hx
    rw [List.mem_singleton.mp hy, Int64.lt_iff_toInt_lt, Int64.toInt_ofNat_of_lt hk]
    exact_mod_cast hlt

end Candidate

namespace Listing

open Candidate (firsts upTo)
open Criterion (after select)

variable {σ : Type} [Criterion σ]

/-- A listing for `n` closes with `v`: below the greatest word, it is the last of `n + 1`
candidates from two on that the criterion accepts. -/
structure Closes (n : Int64) (c : σ) (v : Int64) : Prop where
  below : v < Int64.maxValue
  last : (select c (upTo v)).1.getLast? = some v
  count : ((select c (upTo v)).1.length : ℤ) = n.toInt + 1

theorem entries_ascending {k : ℕ} (hk : k + 1 < 2 ^ 63) (c : σ) :
    (entries c k).Pairwise (· < ·) :=
  (Candidate.firsts_ascending hk).sublist (Criterion.select_sublist c _)

theorem select_upTo_word {k : ℕ} (hk : k + 2 < 2 ^ 63) (c : σ) :
    (select c (upTo (Int64.ofNat (k + 2)))).1 = entries c (k + 1) := by
  rw [Candidate.upTo_word hk]
  rfl

theorem Incomplete.closes {n : Int64} {c : σ} {k : ℕ} (h : Incomplete n c k) (hn : 0 ≤ n.toInt)
    (hfull : n.toInt < (entries c k).length) :
    ∃ v, Closes n c v ∧ upTo v = firsts k := by
  cases k with
  | zero => exact absurd hfull (by simpa [entries, firsts] using hn)
  | succ k =>
    have hword := h.word
    have hopen := h.isOpen k (Nat.lt_succ_self k)
    have hnews : news c k ≠ [] := by
      intro hnil
      rw [entries_succ, hnil, List.append_nil] at hfull
      omega
    have hlast : entries c (k + 1) = entries c k ++ [Int64.ofNat (k + 2)] := by
      rw [entries_succ, news_eq_of_ne_nil hnews]
    refine ⟨Int64.ofNat (k + 2), ⟨?_, ?_, ?_⟩, Candidate.upTo_word (by omega)⟩
    · rw [Int64.lt_iff_toInt_lt, Int64.toInt_ofNat_of_lt (by omega), Int64.toInt_maxValue]
      omega
    · rw [select_upTo_word (by omega), hlast, List.getLast?_concat]
    · rw [hlast, List.length_append, List.length_singleton] at hfull
      rw [select_upTo_word (by omega), hlast, List.length_append, List.length_singleton]
      omega

theorem Closes.incomplete {n : Int64} {c : σ} {v : Int64} (h : Closes n c v) :
    ∃ k, Incomplete n c k ∧ upTo v = firsts k := by
  have hbelow := h.below
  rw [Int64.lt_iff_toInt_lt, Int64.toInt_maxValue] at hbelow
  have hlast : (entries c (v.toNatClampNeg - 1)).getLast? = some v := h.last
  have hcount : ((entries c (v.toNatClampNeg - 1)).length : ℤ) = n.toInt + 1 := h.count
  have hclamp : v.toNatClampNeg = v.toInt.toNat := rfl
  refine ⟨v.toNatClampNeg - 1, ⟨by omega, ?_⟩, rfl⟩
  intro j hj
  obtain ⟨k, hk⟩ := Nat.exists_eq_add_of_lt hj
  rw [hk] at hlast hcount
  have hnews : news c (j + k) ≠ [] := by
    intro hnil
    -- the entries before would hold `v`, which is not among the candidates before
    rw [entries_succ, hnil, List.append_nil] at hlast
    have hmem := (Criterion.select_sublist c _).mem (List.mem_of_getLast? hlast)
    have hlt := Candidate.toInt_lt_of_mem_firsts (by omega) hmem
    omega
  obtain ⟨rest, hrest⟩ := exists_entries_append c (Nat.le_add_right j k)
  rw [entries_succ, news_eq_of_ne_nil hnews, hrest, List.append_assoc, List.length_append,
    List.length_append, List.length_singleton] at hcount
  omega

theorem Closes.length_entries {n : Int64} {c : σ} {v : Int64} {k : ℕ} (h : Closes n c v)
    (hk : upTo v = firsts k) : ((entries c k).length : ℤ) = n.toInt + 1 := by
  rw [entries, ← hk]
  exact h.count

theorem Closes.getLast?_entries {n : Int64} {c : σ} {v : Int64} {k : ℕ} (h : Closes n c v)
    (hk : upTo v = firsts k) : (entries c k).getLast? = some v := by
  rw [entries, ← hk]
  exact h.last

theorem recorded_negative {n : Int64} (hn : n < 0) (c : σ) (s : Sink) :
    recorded n c s = ⟨.complete {}, ⟨c, []⟩, s⟩ := by
  apply run_of_done
  exact if_pos hn

/-- On a sink with room for everything, a listing for a negative number asks and writes nothing.
Any other one that is complete has asked for the candidates from two on, each once and in
ascending order, up to the entry with which it closes, and has written what its criterion accepts
of them as one line each; its tally tells how many lines there are and which entry is the last.
And a listing is complete whenever its criterion closes it. -/
theorem recorded_closes (n : Int64) (c : σ) {s : Sink} (hs : s.room = .boundless) :
    (n < 0 → recorded n c s = ⟨.complete {}, ⟨c, []⟩, s⟩) ∧
    (0 ≤ n → ∀ tally, (recorded n c s).outcome = .complete tally →
      ∃ v, Closes n c v ∧
        (recorded n c s).criterion = ⟨after c (upTo v), (upTo v).reverse⟩ ∧
        (recorded n c s).output.written = s.written ++ lines (select c (upTo v)).1 ∧
        (select c (upTo v)).1.Pairwise (· < ·) ∧
        tally.count.toInt = n.toInt + 1 ∧ tally.largest = some ⟨v⟩) ∧
    ∀ v, Closes n c v → ∃ tally, (recorded n c s).outcome = .complete tally ∧
      (recorded n c s).criterion.asked = (upTo v).reverse := by
  refine ⟨fun hn => recorded_negative hn c s, ?_, ?_⟩
  · intro hn tally hcomplete
    rw [Int64.le_iff_toInt_le, Int64.toInt_zero] at hn
    obtain ⟨k, t, hk, hfull, rfl, hrun, haccepted⟩ := exists_recorded_complete hs hcomplete
    obtain ⟨v, hv, hupTo⟩ := hk.closes hn hfull
    have hword := hk.word
    have hlen := length_entries_le c k
    refine ⟨v, hv, ?_⟩
    rw [hrun, hupTo]
    refine ⟨rfl, haccepted.written, entries_ascending (by omega) c, ?_, ?_⟩
    · rw [Tally.ofEntries, Int64.toInt_ofNat_of_lt (by omega), hv.length_entries hupTo]
    · rw [Tally.ofEntries, hv.getLast?_entries hupTo]
      rfl
  · intro v hv
    obtain ⟨k, hk, hupTo⟩ := hv.incomplete
    have hfull : n.toInt < (entries c k).length := by
      have hcount := hv.length_entries hupTo
      omega
    obtain ⟨t, hrun, -⟩ :=
      recorded_complete (Room.counted_boundless hs) hk hfull (by rw [hs]; rfl)
    rw [hrun, hupTo]
    exact ⟨_, rfl, rfl⟩

theorem recorded_closes_eleven :
    ({} : Sink).room = .boundless ∧ (0 : Int64) ≤ 4 ∧ Closes 4 (Sieve.ofLimit 2) 11 ∧
      ∃ tally, (recorded 4 (Sieve.ofLimit 2) {}).outcome = .complete tally ∧
        (recorded 4 (Sieve.ofLimit 2) {}).criterion.asked = [11, 10, 9, 8, 7, 6, 5, 4, 3, 2] ∧
        (recorded 4 (Sieve.ofLimit 2) {}).output.written = "2\n3\n5\n7\n11\n".toUTF8 ∧
        tally.count.toInt = 5 ∧ tally.largest = some ⟨11⟩ := by
  have hcloses : Closes 4 (Sieve.ofLimit 2) 11 :=
    ⟨by decide, by decide +kernel, by decide +kernel⟩
  have hentries : (select (Sieve.ofLimit 2) (upTo 11)).1 = [2, 3, 5, 7, 11] := by decide +kernel
  obtain ⟨-, hcomplete, hreturns⟩ := recorded_closes 4 (Sieve.ofLimit 2) (s := {}) rfl
  obtain ⟨tally, htally, hasked⟩ := hreturns 11 hcloses
  obtain ⟨v, hv, hcriterion, hwritten, -, hcount, hlargest⟩ :=
    hcomplete (by decide) tally htally
  have hupTo : upTo v = upTo 11 := by
    rw [hcriterion] at hasked
    exact List.reverse_inj.mp hasked
  have hlast := hv.last
  rw [hupTo, hcloses.last] at hlast
  refine ⟨rfl, by decide, hcloses, tally, htally, ?_, ?_, hcount, ?_⟩
  · rw [hasked]
    decide
  · rw [hwritten, hupTo, hentries]
    decide
  · rw [hlargest, Option.some.inj hlast]

end Listing

end PrimeStream
