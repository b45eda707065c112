import PrimeStream.Checked
import PrimeStream.Proofs.SieveLimit

/-!
# Checked sieves give results

Started with any limit, a checked sieve always gives the result of the sieve. This holds even if no
number may be above the largest square that a round compares with its limit, which is the ceiling,
and no doubled limit may come to twice the ceiling.
-/

set_option autoImplicit false

namespace PrimeStream

namespace Trial

theorem hasQuotient {d : Int64} (hd : 2 ≤ d.toInt) (x : Int64) : Checked.HasQuotient x d := by
  constructor
  · rintro rfl
    exact absurd hd (by decide)
  · rintro - rfl
    exact absurd hd (by decide)

theorem checked_divisorFrom? {x d : Int64} (hd : 2 ≤ d.toInt) :
    Checked.divisorFrom? x d = some (divisorFrom? x d) := by
  fun_induction divisorFrom? x d with
  | case1 d hle hzero =>
    rw [Checked.divisorFrom?, if_pos (hasQuotient hd x), dif_pos hle, if_pos hzero]
  | case2 d hle hzero ih =>
    have hsucc := toInt_divisor_succ hle
    rw [Checked.divisorFrom?, if_pos (hasQuotient hd x), dif_pos hle, if_neg hzero,
      if_pos (lt_maxValue_of_le_div hle)]
    exact ih (by omega)
  | case3 d hle => rw [Checked.divisorFrom?, if_pos (hasQuotient hd x), dif_neg hle]

theorem checked_accepts (x : Int64) : Checked.accepts x = some (accepts x) := by
  unfold Checked.accepts accepts
  by_cases hlow : x < 2
  · simp [hlow, Int64.not_le.mpr hlow]
  · by_cases htwo : x = 2
    · rw [htwo, divisorFrom?]
      rfl
    · rw [checked_divisorFrom? (by decide)]
      simp [hlow, htwo, Int64.not_lt.mp hlow]

end Trial

namespace Sieve

open Criterion (after)

theorem checked_mark {flags : Array Bool} {j : ℕ} (h : j < flags.size) :
    Checked.mark flags j = some (flags.setIfInBounds j true) := by
  rw [Checked.mark, dif_pos h, Array.setIfInBounds, dif_pos h]

theorem checked_strike {step : ℕ} (hstep : step ≠ 0) (j : ℕ) (flags : Array Bool) :
    Checked.strike flags.size step j flags = some (strike step j flags) := by
  fun_induction strike step j flags with
  | case1 j flags hj ih =>
    rw [Array.size_setIfInBounds] at ih
    rw [Checked.strike, dif_neg hstep, dif_pos hj.2, checked_mark hj.2]
    exact ih
  | case2 j flags hj => rw [Checked.strike, dif_neg hstep, dif_neg (by omega)]

theorem checked_round {i : ℕ} {flags : Array Bool} (hi : i ≠ 0) (hflag : i < flags.size) :
    Checked.round flags.size i flags = some (round i flags) := by
  unfold Checked.round round
  cases hstruck : flags[i] with
  | true => simp [hflag, hstruck]
  | false => simp [hflag, hstruck, checked_strike hi]

theorem succ_square_le_ceiling {i : ℕ} (h : i * i < ceiling) : (i + 1) * (i + 1) ≤ ceiling := by
  have hceiling : ceiling = 8192 * 8192 := by decide
  rw [hceiling] at h ⊢
  exact Nat.mul_self_le_mul_self (Nat.mul_self_lt_mul_self_iff.mp h)

theorem checked_rounds {most i : ℕ} {flags : Array Bool} (hmost : ceiling ≤ most)
    (hsize : flags.size ≤ ceiling) (hi : i ≠ 0) (hsquare : i * i ≤ ceiling) :
    Checked.rounds most flags.size i flags = some (rounds i flags) := by
  fun_induction rounds i flags with
  | case1 i flags hlt ih =>
    have hflag : i < flags.size := (Nat.le_mul_self i).trans_lt hlt
    have hnext := succ_square_le_ceiling (hlt.trans_le hsize)
    rw [size_round] at ih
    rw [Checked.rounds, if_pos (hsquare.trans hmost), dif_pos hlt, checked_round hi hflag,
      Option.bind_eq_bind, Option.bind_some, if_pos (by omega)]
    exact ih hsize (Nat.succ_ne_zero i) hnext
  | case2 i flags hstop => rw [Checked.rounds, if_pos (hsquare.trans hmost), dif_neg hstop]

theorem checked_blank {limit : ℕ} (h : 2 ≤ limit) : Checked.blank limit = some (blank limit) := by
  rw [Checked.blank, checked_mark (by simp; omega)]
  exact checked_mark (by simp; omega)

theorem checked_ofLimit {most : ℕ} (hmost : ceiling ≤ most) (limit : ℕ) :
    Checked.ofLimit most limit = some (ofLimit limit) := by
  have hsize := clamp_le_ceiling limit
  rw [← size_blank (clamp limit)] at hsize
  have hrounds := checked_rounds hmost hsize two_ne_zero (by decide)
  rw [size_blank] at hrounds
  unfold Checked.ofLimit Checked.table
  rw [checked_blank (two_le_clamp limit)]
  simp [hrounds, ofLimit, table]

theorem checked_doubled {most limit index : ℕ} (hmost : 2 * ceiling - 1 ≤ most)
    (hlimit : limit ≠ 0) (hindex : index < ceiling) :
    Checked.doubled most limit index = some (doubled limit index) := by
  fun_induction doubled limit index with
  | case1 limit hle ih =>
    -- the limit is not above the candidate, so twice the limit is below twice the ceiling
    rw [Checked.doubled, dif_neg hlimit, dif_pos hle.2, if_pos (by omega)]
    exact ih (by omega)
  | case2 limit hstop => rw [Checked.doubled, dif_neg hlimit, dif_neg (by omega)]

theorem checked_cover {most : ℕ} (hmost : 2 * ceiling - 1 ≤ most) {s : Sieve} (h : Sound s)
    {index : ℕ} (hindex : index < ceiling) :
    Checked.cover most s index = some (s.cover index) := by
  have htwo := h.two_le
  unfold Checked.cover cover
  rw [checked_doubled hmost (by omega) hindex]
  split
  · exact checked_ofLimit (by omega) _
  · rfl

theorem checked_judge {most : ℕ} (hmost : 2 * ceiling - 1 ≤ most) {s : Sieve} (h : Sound s)
    (x : Int64) : Checked.judge most s x = some (s.judge x) := by
  unfold Checked.judge
  by_cases hx : InRange x
  · have hindex : x.toNatClampNeg < (s.cover x.toNatClampNeg).struck.size := lt_limit_cover h hx.2
    rw [judge_of_inRange hx]
    refine (if_pos hx).trans ?_
    -- the table is the one after the cut, and the candidate is still inside
    rw [checked_cover hmost h hx.2]
    simp [hindex]
  · rw [judge_of_not_inRange hx]
    refine (if_neg hx).trans ?_
    rw [Trial.checked_accepts]
    rfl

/-- Whatever limit a sieve starts with and whatever it has judged, a checked sieve gives its table
and its next judgement, so no access is outside a table, no step and no limit is zero, and every
loop ends. No number of the rounds is above the 26th power of two, and no doubled limit comes to
the 27th. A candidate that makes the sieve grow is inside the new table, even where that is cut. -/
theorem checked_after (limit : ℕ) :
    (∀ most, 2 ^ 26 ≤ most → Checked.ofLimit most limit = some (ofLimit limit)) ∧
    (∀ most, 2 ^ 27 - 1 ≤ most → ∀ xs x,
      Checked.judge most (after (ofLimit limit) xs) x =
        some ((after (ofLimit limit) xs).judge x)) ∧
    ∀ xs x, InRange x → x.toNatClampNeg < ((after (ofLimit limit) xs).judge x).2.limit := by
  have hceiling : ceiling = 2 ^ 26 := by decide
  refine ⟨?_, ?_, ?_⟩
  · intro most hmost
    exact checked_ofLimit (by omega) limit
  · intro most hmost xs x
    exact checked_judge (by omega) (after_sound limit xs) x
  · intro xs x hx
    rw [judge_of_inRange hx]
    exact lt_limit_cover (after_sound limit xs) hx.2

/-- Words of 32 bits are enough, also where three is doubled past the ceiling. -/
theorem checked_after_cut :
    InRange 67108863 ∧ Checked.ofLimit (2 ^ 32 - 1) 3 = some (ofLimit 3) ∧
      Checked.judge (2 ^ 32 - 1) (ofLimit 3) 67108863 = some ((ofLimit 3).judge 67108863) ∧
      67108863 < ((ofLimit 3).judge 67108863).2.limit := by
  obtain ⟨hofLimit, hjudge, hinside⟩ := checked_after 3
  have hx : InRange 67108863 := by decide
  exact ⟨hx, hofLimit _ (by decide), hjudge _ (by decide) [] 67108863, hinside [] 67108863 hx⟩

end Sieve

end PrimeStream
