import PrimeStream.Proofs.SieveSession

/-!
# The limit of a sieve

The state of a sieve is told by the limit that it started with and the greatest candidate in range
that it has judged: its limit is the first doubling past that candidate, cut at the ceiling. It
does not matter in how many steps the sieve has grown, nor which other candidates there were.
-/

set_option autoImplicit false

namespace PrimeStream.Sieve

open Criterion (after)
open Session (serveAll)

instance (x : Int64) : Decidable (InRange x) := inferInstanceAs (Decidable (_ ∧ _))

/-- The greatest of some candidates that are in range, unless none is. -/
def peak? (xs : List Int64) : Option ℕ :=
  ((xs.filter (InRange ·)).map Int64.toNatClampNeg).max?

theorem peak?_cons_of_inRange {x : Int64} (hx : InRange x) (xs : List Int64) :
    peak? (x :: xs) = some ((peak? xs).elim x.toNatClampNeg (max x.toNatClampNeg)) := by
  rw [peak?, List.filter_cons_of_pos (by simpa using hx), List.map_cons, List.max?_cons]
  rfl

theorem peak?_cons_of_not_inRange {x : Int64} (hx : ¬ InRange x) (xs : List Int64) :
    peak? (x :: xs) = peak? xs := by
  rw [peak?, List.filter_cons_of_neg (by simpa using hx)]
  rfl

theorem doubled_of_lt {limit index : ℕ} (h : index < limit) : doubled limit index = limit := by
  rw [doubled, if_neg (by omega)]

theorem doubled_doubled {limit : ℕ} (h : 0 < limit) (i j : ℕ) :
    doubled (doubled limit i) j = doubled limit (max i j) := by
  fun_induction doubled limit i with
  | case1 limit hle ih =>
    have hmax : 0 < limit ∧ limit ≤ max i j := ⟨h, hle.2.trans (le_max_left i j)⟩
    rw [ih (by omega), doubled.eq_def limit, if_pos hmax]
  | case2 limit hstop =>
    rcases le_total i j with hij | hji
    · rw [max_eq_right hij]
    · rw [max_eq_left hji, doubled_of_lt (by omega), doubled_of_lt (by omega)]

theorem doubled_eq_mul_two_pow {limit : ℕ} (h : 0 < limit) (index : ℕ) :
    ∃ k, doubled limit index = limit * 2 ^ k ∧ index < limit * 2 ^ k ∧
      ∀ i < k, limit * 2 ^ i ≤ index := by
  fun_induction doubled limit index with
  | case1 limit hle ih =>
    obtain ⟨k, heq, hlt, hbefore⟩ := ih (by omega)
    have hshift (i : ℕ) : limit * 2 * 2 ^ i = limit * 2 ^ (i + 1) := by
      rw [mul_assoc, ← pow_succ']
    rw [hshift] at heq hlt
    refine ⟨k + 1, heq, hlt, ?_⟩
    intro i hi
    cases i with
    | zero => simpa using hle.2
    | succ i =>
      rw [← hshift]
      exact hbefore i (Nat.lt_of_succ_lt_succ hi)
  | case2 limit hstop =>
    refine ⟨0, (mul_one limit).symm, ?_, fun i hi => absurd hi (Nat.not_lt_zero i)⟩
    rw [pow_zero, mul_one]
    omega

theorem le_doubled (limit index : ℕ) : limit ≤ doubled limit index := by
  fun_induction doubled limit index with
  | case1 limit _ ih => omega
  | case2 limit _ => exact le_refl limit

theorem clamp_of_two_le {limit : ℕ} (h : 2 ≤ limit) : clamp limit = min ceiling limit := by
  rw [clamp, min_comm, max_eq_right (le_min (by decide) h)]

theorem ofLimit_clamp (limit : ℕ) : ofLimit (clamp limit) = ofLimit limit := by
  unfold ofLimit table
  rw [clamp_clamp]

theorem cover_ofLimit {limit index : ℕ} (h : 2 ≤ limit) (hindex : index < ceiling) :
    (ofLimit limit).cover index = ofLimit (doubled limit index) := by
  unfold cover
  rw [limit_ofLimit]
  rcases le_or_gt limit ceiling with hle | hgt
  · rw [clamp_of_bounds h hle]
    split
    · rfl
    · rw [doubled_of_lt (by omega)]
  · -- the limit is past the ceiling: its table is cut there, and still covers the candidate
    rw [clamp_of_two_le h, min_eq_left (by omega), if_neg (by omega), doubled_of_lt (by omega)]

theorem after_ofLimit_of_two_le {limit : ℕ} (h : 2 ≤ limit) (xs : List Int64) :
    after (ofLimit limit) xs = ofLimit ((peak? xs).elim limit (doubled limit)) := by
  -- the induction carries the limit as it would be without the cut, which doubling adds up
  induction xs generalizing limit with
  | nil => rfl
  | cons x xs ih =>
    change after ((ofLimit limit).judge x).2 xs = _
    by_cases hx : InRange x
    · have hdoubled := le_doubled limit x.toNatClampNeg
      rw [judge_of_inRange hx, cover_ofLimit h hx.2, ih (by omega), peak?_cons_of_inRange hx]
      cases peak? xs with
      | none => rfl
      | some m => exact congrArg ofLimit (doubled_doubled (by omega) _ _)
    · rw [judge_of_not_inRange hx, ih h, peak?_cons_of_not_inRange hx]

theorem after_ofLimit (limit : ℕ) (xs : List Int64) :
    after (ofLimit limit) xs =
      ofLimit ((peak? xs).elim (clamp limit) (doubled (clamp limit))) := by
  rw [← ofLimit_clamp limit, after_ofLimit_of_two_le (two_le_clamp limit)]

theorem limit_after_of_some {limit m : ℕ} {xs : List Int64} (h : peak? xs = some m) :
    ∃ k, m < clamp limit * 2 ^ k ∧ (∀ i < k, clamp limit * 2 ^ i ≤ m) ∧
      (after (ofLimit limit) xs).limit = min ceiling (clamp limit * 2 ^ k) := by
  have htwo := two_le_clamp limit
  obtain ⟨k, heq, hlt, hbefore⟩ := doubled_eq_mul_two_pow (show 0 < clamp limit by omega) m
  have hle := le_doubled (clamp limit) m
  refine ⟨k, hlt, hbefore, ?_⟩
  rw [after_ofLimit, h, limit_ofLimit, Option.elim_some, ← heq]
  exact clamp_of_two_le (by omega)

theorem after_sound (limit : ℕ) (xs : List Int64) : Sound (after (ofLimit limit) xs) := by
  rw [after_ofLimit]
  exact ofLimit_sound _

theorem limit_le_cover {s : Sieve} (h : Sound s) (index : ℕ) : s.limit ≤ (s.cover index).limit := by
  unfold cover
  split
  · rw [limit_ofLimit]
    exact (le_min (le_doubled _ _) h.le_ceiling).trans (le_max_right _ _)
  · exact le_refl _

theorem limit_le_judge {s : Sieve} (h : Sound s) (x : Int64) : s.limit ≤ (s.judge x).2.limit := by
  by_cases hx : InRange x
  · rw [judge_of_inRange hx]
    exact limit_le_cover h _
  · rw [judge_of_not_inRange hx]

theorem not_inRange {x : Int64} (hx : x < 0 ∨ (ceiling : ℤ) ≤ x.toInt) : ¬ InRange x := by
  have hclamp : x.toNatClampNeg = x.toInt.toNat := rfl
  rintro ⟨hpos, hlt⟩
  rw [Int64.le_iff_toInt_le, Int64.toInt_zero] at hpos
  rw [Int64.lt_iff_toInt_lt, Int64.toInt_zero] at hx
  omega

theorem after_concat (s : Sieve) (xs : List Int64) (x : Int64) :
    after s (xs ++ [x]) = ((after s xs).judge x).2 :=
  Criterion.after_append s xs [x]

/-- Whatever candidates a sieve has judged, in whatever order, its limit is the one that it started
with, doubled as often as it takes to get past the greatest candidate in range, and cut at the
ceiling. So the limit never shrinks and stays within its bounds, a candidate that no table covers
leaves the sieve as it is, and two sieves that start with the same limit and have the same greatest
candidate in range end in the same state. All of this holds of the sieve in a session, which has
judged what a record of the session holds. -/
theorem limit_after_ofLimit (limit : ℕ) :
    (∀ xs,
      (peak? xs = none → (after (ofLimit limit) xs).limit = max 2 (min limit ceiling)) ∧
      (∀ m, peak? xs = some m →
        ∃ k, m < max 2 (min limit ceiling) * 2 ^ k ∧
          (∀ i < k, max 2 (min limit ceiling) * 2 ^ i ≤ m) ∧
          (after (ofLimit limit) xs).limit =
            min ceiling (max 2 (min limit ceiling) * 2 ^ k)) ∧
      2 ≤ (after (ofLimit limit) xs).limit ∧ (after (ofLimit limit) xs).limit ≤ ceiling ∧
      (∀ x, (after (ofLimit limit) xs).limit ≤ (after (ofLimit limit) (xs ++ [x])).limit) ∧
      (∀ x, x < 0 ∨ (ceiling : ℤ) ≤ x.toInt →
        after (ofLimit limit) (xs ++ [x]) = after (ofLimit limit) xs) ∧
      ∀ other ys, max 2 (min other ceiling) = max 2 (min limit ceiling) → peak? ys = peak? xs →
        after (ofLimit other) ys = after (ofLimit limit) xs) ∧
    ∀ sink rs, (serveAll ⟨ofLimit limit, sink⟩ rs).2.criterion = after (ofLimit limit)
      (serveAll ⟨(⟨ofLimit limit, []⟩ : Recorded Sieve), sink⟩ rs).2.criterion.asked.reverse := by
  refine ⟨?_, Session.serveAll_recorded (ofLimit limit)⟩
  intro xs
  have hsound := after_sound limit xs
  refine ⟨?_, fun m => limit_after_of_some, hsound.two_le, hsound.le_ceiling, ?_, ?_, ?_⟩
  · intro hnone
    rw [after_ofLimit, hnone, limit_ofLimit]
    exact clamp_clamp limit
  · intro x
    rw [after_concat]
    exact limit_le_judge hsound x
  · intro x hx
    rw [after_concat, judge_of_not_inRange (not_inRange hx)]
  · intro other ys hother hpeak
    have hclamp : clamp other = clamp limit := hother
    rw [after_ofLimit, after_ofLimit limit, hclamp, hpeak]

theorem limit_after_ofLimit_cut :
    peak? [67108863, -7, 5, 67108864] = some 67108863 ∧
      (after (ofLimit 3) [67108863, -7, 5, 67108864]).limit = 67108864 := by
  have hpeak : peak? [67108863, -7, 5, 67108864] = some 67108863 := by decide
  obtain ⟨hcandidates, -⟩ := limit_after_ofLimit 3
  obtain ⟨-, hsome, -⟩ := hcandidates [67108863, -7, 5, 67108864]
  obtain ⟨k, hlt, -, hlimit⟩ := hsome 67108863 hpeak
  exact ⟨hpeak, hlimit.trans (Nat.min_eq_left hlt)⟩

end PrimeStream.Sieve
