import Mathlib.NumberTheory.PrimeCounting
import PrimeStream.Proofs.SinkListing
import PrimeStream.Proofs.TrialDivision

/-!
# A listing by trial division

What trial division accepts of the first candidates is the primes below the next candidate, so a
listing for `n` is complete just after the prime that `n` primes come before. The primes are
numbered from zero, and a listing gets to its last one when enough of them lie below the greatest
word.
-/

set_option autoImplicit false

namespace PrimeStream.Listing

noncomputable section

open Nat (nth count)
open Sink (Accepted)

def primes (m : ℕ) : List Int64 := (List.range m).map fun i => Int64.ofNat (nth Nat.Prime i)

def primeText (m : ℕ) : String :=
  String.join ((List.range m).map fun i => (nth Nat.Prime i).repr ++ "\n")

@[simp] theorem length_primes (m : ℕ) : (primes m).length = m := by
  simp [primes]

theorem primes_succ (m : ℕ) : primes (m + 1) = primes m ++ [Int64.ofNat (nth Nat.Prime m)] := by
  simp [primes, List.range_succ]

theorem primeText_succ (m : ℕ) :
    primeText (m + 1) = primeText m ++ ((nth Nat.Prime m).repr ++ "\n") := by
  simp [primeText, List.range_succ]

theorem news_trial {k : ℕ} (hk : k + 2 < 2 ^ 63) :
    news ({} : Trial) k = if (k + 2).Prime then [Int64.ofNat (k + 2)] else [] := by
  have hprime := Trial.accepts_iff_prime (x := Int64.ofNat (k + 2))
  rw [Int64.toNatClampNeg_ofNat_of_lt hk] at hprime
  exact if_congr hprime rfl rfl

theorem entries_trial {k : ℕ} (hk : k + 1 < 2 ^ 63) :
    entries ({} : Trial) k = primes (count Nat.Prime (k + 2)) := by
  induction k with
  | zero =>
    have hcount : count Nat.Prime 2 = 0 := by decide
    rw [hcount]
    rfl
  | succ k ih =>
    have hcount := Nat.count_succ Nat.Prime (k + 2)
    rw [entries_succ, ih (by omega), news_trial hk, Nat.add_right_comm k 1 2, hcount]
    by_cases hprime : (k + 2).Prime
    · rw [if_pos hprime, if_pos hprime, primes_succ, Nat.nth_count hprime]
    · rw [if_neg hprime, if_neg hprime, List.append_nil]
      rfl

theorem exists_complete_trial {n : Int64} (hn : n.toInt + 1 ≤ Nat.primeCounting' (2 ^ 63 - 1)) :
    ∃ k, Incomplete n ({} : Trial) k ∧ entries ({} : Trial) k = primes (n.toInt + 1).toNat := by
  rcases Int.lt_or_le n.toInt 0 with hneg | hpos
  · refine ⟨0, ⟨by decide, fun j hj => absurd hj (Nat.not_lt_zero j)⟩, ?_⟩
    rw [show (n.toInt + 1).toNat = 0 by omega]
    rfl
  · obtain ⟨m, hm⟩ := Int.eq_ofNat_of_zero_le hpos
    rw [hm] at hn
    have hlt : nth Nat.Prime m < 2 ^ 63 - 1 := Nat.nth_lt_of_lt_count (by exact_mod_cast hn)
    have htwo := (Nat.prime_nth_prime m).two_le
    have hcount : count Nat.Prime (nth Nat.Prime m + 1) = m + 1 := by
      rw [Nat.count_succ, Nat.count_nth_of_infinite Nat.infinite_setOfPred_prime,
        if_pos (Nat.prime_nth_prime m)]
    -- the candidate after the last prime
    use nth Nat.Prime m - 1
    constructor
    · constructor
      · omega
      · intro j hj
        have hle : count Nat.Prime (j + 2) ≤ m := by
          rw [Nat.count_le_iff_le_nth (p := Nat.Prime) Nat.infinite_setOfPred_prime]
          omega
        rw [entries_trial (by omega), length_primes, hm]
        exact_mod_cast hle
    · rw [entries_trial (by omega), show nth Nat.Prime m - 1 + 2 = nth Nat.Prime m + 1 by omega,
        hcount, hm]
      rfl

theorem line_ofNat {p : ℕ} (hp : p < 2 ^ 63) :
    (Entry.mk (Int64.ofNat p)).line = (p.repr ++ "\n").toUTF8 := by
  have hint := Int64.toInt_ofNat_of_lt hp
  have hpos : ¬ Int64.ofNat p < 0 := by
    rw [Int64.lt_iff_toInt_lt, hint, Int64.toInt_zero]
    omega
  rw [Entry.line, Entry.text, numeral, if_neg hpos, digits, hint, Int.natAbs_natCast]

theorem lines_primes {m : ℕ} (h : ∀ i < m, nth Nat.Prime i < 2 ^ 63) :
    lines (primes m) = (primeText m).toUTF8 := by
  induction m with
  | zero => rfl
  | succ m ih =>
    rw [primes_succ, lines_append, ih fun i hi => h i (by omega), primeText_succ, lines, lines,
      ByteArray.append_empty, line_ofNat (h m (by omega))]
    rfl

theorem ofEntries_primes {m : ℕ} (h : ∀ i < m, nth Nat.Prime i < 2 ^ 63) (hm : m < 2 ^ 63) :
    (Tally.ofEntries (primes m)).count.toInt = m ∧
      (Tally.ofEntries (primes m)).largest.map (fun e => e.value.toInt) =
        if m = 0 then none else some (nth Nat.Prime (m - 1) : ℤ) := by
  unfold Tally.ofEntries
  constructor
  · rw [length_primes, Int64.toInt_ofNat_of_lt hm]
  · cases m with
    | zero => rfl
    | succ m =>
      have hlast := Int64.toInt_ofNat_of_lt (h m (by omega))
      simp [primes_succ, hlast]

theorem nth_lt_of_lt_primeCounting {n : Int64}
    (hn : n.toInt + 1 ≤ Nat.primeCounting' (2 ^ 63 - 1)) {i : ℕ} (hi : i < (n.toInt + 1).toNat) :
    nth Nat.Prime i < 2 ^ 63 - 1 := by
  apply Nat.nth_lt_of_lt_count
  unfold Nat.primeCounting' at hn
  omega

theorem run_trial_boundless {n : Int64} (hn : n.toInt + 1 ≤ Nat.primeCounting' (2 ^ 63 - 1))
    {s : Sink} (hs : s.room = .boundless) :
    ∃ t, run n { criterion := ({} : Trial), output := s } =
        ⟨.complete (Tally.ofEntries (primes (n.toInt + 1).toNat)), {}, t⟩ ∧
      Accepted s (primeText (n.toInt + 1).toNat).toUTF8 t := by
  obtain ⟨k, hk, hentries⟩ := exists_complete_trial hn
  obtain ⟨t, ht, haccepted⟩ := hk.reaches (Room.counted_boundless hs) (by rw [hs]; rfl)
  have hfull : n.toInt < (entries ({} : Trial) k).length := by
    rw [hentries, length_primes]
    omega
  have hrun := ht.complete hfull
  rw [hentries] at hrun haccepted
  rw [lines_primes fun i hi => by have := nth_lt_of_lt_primeCounting hn hi; omega] at haccepted
  exact ⟨t, hrun, haccepted⟩

/-- A sink with room for everything gets the first `n + 1` prime numbers in ascending order, each
as a line, and the tally tells how many there are and which is the largest. -/
theorem run_trial (n : Int64) (s : Sink) (hs : s.room = .boundless)
    (hn : n.toInt + 1 ≤ Nat.primeCounting' Int64.maxValue.toInt.toNat) :
    ∃ tally t, run n { criterion := ({} : Trial), output := s } = ⟨.complete tally, {}, t⟩ ∧
      tally.count.toInt = max 0 (n.toInt + 1) ∧
      tally.largest.map (fun e => e.value.toInt) =
        (if n < 0 then none else some (nth Nat.Prime n.toInt.toNat : ℤ)) ∧
      t.written = s.written ++ (primeText (n.toInt + 1).toNat).toUTF8 := by
  have hmax : Int64.maxValue.toInt.toNat = 2 ^ 63 - 1 := by decide
  rw [hmax] at hn
  obtain ⟨t, hrun, haccepted⟩ := run_trial_boundless hn hs
  have hbound : ∀ i < (n.toInt + 1).toNat, nth Nat.Prime i < 2 ^ 63 := fun i hi => by
    have := nth_lt_of_lt_primeCounting hn hi
    omega
  have hm : (n.toInt + 1).toNat < 2 ^ 63 := by
    have hle := Nat.count_le (p := Nat.Prime) (n := 2 ^ 63 - 1)
    unfold Nat.primeCounting' at hn
    omega
  obtain ⟨hcount, hlargest⟩ := ofEntries_primes hbound hm
  refine ⟨_, t, hrun, ?_, ?_, haccepted.written⟩
  · rw [hcount]
    omega
  · have hsign : n < 0 ↔ n.toInt < 0 := Int64.lt_iff_toInt_lt
    rw [hlargest]
    by_cases hneg : n < 0
    · have hzero : (n.toInt + 1).toNat = 0 := by
        rw [hsign] at hneg
        omega
      rw [if_pos hneg, if_pos hzero]
    · have hpos : (n.toInt + 1).toNat = n.toInt.toNat + 1 := by
        rw [hsign] at hneg
        omega
      rw [if_neg hneg, hpos, if_neg (Nat.succ_ne_zero _), Nat.add_sub_cancel]

theorem primeText_five : primeText 5 = "2\n3\n5\n7\n11\n" := by
  have hrange : List.range 5 = [0, 1, 2, 3, 4] := by decide
  rw [primeText, hrange]
  simp only [List.map_cons, List.map_nil, Nat.nth_prime_zero_eq_two, Nat.nth_prime_one_eq_three,
    Nat.nth_prime_two_eq_five, Nat.nth_prime_three_eq_seven, Nat.nth_prime_four_eq_eleven]
  decide

theorem run_trial_four :
    ({} : Sink).room = .boundless ∧
      (4 : Int64).toInt + 1 ≤ Nat.primeCounting' Int64.maxValue.toInt.toNat ∧
      ∃ tally t, run 4 { criterion := ({} : Trial), output := ({} : Sink) } =
          ⟨.complete tally, {}, t⟩ ∧
        tally.count.toInt = 5 ∧ tally.largest.map (fun e => e.value.toInt) = some 11 ∧
        t.written = "2\n3\n5\n7\n11\n".toUTF8 := by
  have hfour : (4 : Int64).toInt = 4 := by decide
  have hn : (4 : Int64).toInt + 1 ≤ Nat.primeCounting' Int64.maxValue.toInt.toNat := by
    have hfive : Nat.primeCounting' 12 = 5 := by decide
    have hle : Nat.primeCounting' 12 ≤ Nat.primeCounting' Int64.maxValue.toInt.toNat :=
      Nat.monotone_primeCounting' (by decide)
    rw [hfour]
    omega
  obtain ⟨tally, t, hrun, hcount, hlargest, hwritten⟩ := run_trial 4 {} rfl hn
  refine ⟨rfl, hn, tally, t, hrun, hcount, ?_, ?_⟩
  · rw [hlargest, hfour]
    exact congrArg (fun p : ℕ => some (p : ℤ)) Nat.nth_prime_four_eq_eleven
  · rw [hwritten, hfour, ← primeText_five]
    exact ByteArray.empty_append

end

end PrimeStream.Listing
