import Mathlib.Data.Nat.Sqrt
import Mathlib.Order.Bounds.Basic
import PrimeStream.Proofs.TrialDivision

/-!
# The search for a divisor

A search goes through the numbers from two on, and at each of them it either ends or goes on to
the next one. None of the numbers that it has passed divides, and none of them lies above the
square root. So it ends just past the square root at the latest, where it is still far from the
greatest word, and a divisor that it ends with is the least one.
-/

set_option autoImplicit false

namespace PrimeStream.Trial

/-- A search for a divisor of `x` comes to `d` after it has tried `k` numbers in vain. -/
inductive Head (x : Int64) : ℕ → Int64 → Prop where
  | start : Head x 0 2
  | next {k : ℕ} {d : Int64} (h : Head x k d) (hle : d ≤ x / d) (hmod : x % d ≠ 0) :
      Head x (k + 1) (d + 1)

variable {x d : Int64} {k : ℕ}

theorem divisorFrom?_turn (x d : Int64) :
    divisorFrom? x d =
      if d ≤ x / d then if x % d = 0 then some d else divisorFrom? x (d + 1) else none := by
  rw [divisorFrom?, dite_eq_ite]

theorem divisorFrom?_of_dvd (hle : d ≤ x / d) (hmod : x % d = 0) :
    divisorFrom? x d = some d := by
  rw [divisorFrom?_turn, if_pos hle, if_pos hmod]

theorem divisorFrom?_of_not_dvd (hle : d ≤ x / d) (hmod : x % d ≠ 0) :
    divisorFrom? x d = divisorFrom? x (d + 1) := by
  rw [divisorFrom?_turn, if_pos hle, if_neg hmod]

theorem divisorFrom?_of_not_le (hle : ¬ d ≤ x / d) : divisorFrom? x d = none := by
  rw [divisorFrom?_turn, if_neg hle]

theorem Head.divisorFrom?_eq (h : Head x k d) : divisorFrom? x 2 = divisorFrom? x d := by
  induction h with
  | start => rfl
  | next _ hle hmod ih => rw [ih, divisorFrom?_of_not_dvd hle hmod]

theorem Head.exists_end (h : Head x k d) :
    ∃ k d, Head x k d ∧ (d ≤ x / d → x % d = 0) := by
  fun_induction divisorFrom? x d generalizing k with
  | case1 d _ hmod => exact ⟨k, d, h, fun _ => hmod⟩
  | case2 d hle hmod ih => exact ih (h.next hle hmod)
  | case3 d hle => exact ⟨k, d, h, fun h => absurd h hle⟩

/-- What a search for a divisor of `x` knows where it comes to `d`: how far that is, that the
numbers before it are not above the square root, and that none of them divides. -/
structure Passed (x : Int64) (k : ℕ) (d : Int64) : Prop where
  toInt_eq : d.toInt = k + 2
  le_sqrt : k + 1 ≤ x.toNatClampNeg.sqrt
  not_dvd : ∀ e : ℤ, 2 ≤ e → e < d.toInt → ¬ e ∣ x.toInt

theorem le_sqrt_iff (hx : 0 ≤ x.toInt) (m : ℕ) :
    m ≤ x.toNatClampNeg.sqrt ↔ (m * m : ℤ) ≤ x.toInt := by
  have hcast : (x.toNatClampNeg : ℤ) = x.toInt := Int.toNat_of_nonneg hx
  rw [Nat.le_sqrt, ← hcast]
  exact_mod_cast Iff.rfl

theorem le_div_iff_le_sqrt (hx : 0 ≤ x.toInt) (hd : d.toInt = k + 2) :
    d ≤ x / d ↔ k + 2 ≤ x.toNatClampNeg.sqrt := by
  rw [le_div_iff_mul_self_le hx (by omega), le_sqrt_iff hx, hd]
  rfl

theorem sqrt_lt (x : Int64) : x.toNatClampNeg.sqrt < 3037000500 := by
  have hlt := x.toNatClampNeg_lt
  rw [Nat.sqrt_lt]
  omega

theorem toInt_two : (2 : Int64).toInt = 2 := by decide

theorem passed_start (hx : 2 < x.toInt) : Passed x 0 2 where
  toInt_eq := toInt_two
  le_sqrt := by
    rw [le_sqrt_iff (by omega)]
    simp
    omega
  not_dvd e htwo hlt := by
    rw [toInt_two] at hlt
    omega

theorem Passed.next (hx : 2 < x.toInt) (h : Passed x k d) (hle : d ≤ x / d)
    (hmod : x % d ≠ 0) : Passed x (k + 1) (d + 1) where
  toInt_eq := by
    rw [toInt_divisor_succ hle, h.toInt_eq]
    omega
  le_sqrt := (le_div_iff_le_sqrt (by omega) h.toInt_eq).mp hle
  not_dvd e htwo hlt := by
    rw [toInt_divisor_succ hle] at hlt
    -- either an earlier number or the one that has just been tried
    rcases Int.lt_or_eq_of_le (Int.le_of_lt_add_one hlt) with hbefore | rfl
    · exact h.not_dvd e htwo hbefore
    · exact fun hdvd => hmod (mod_eq_zero_iff_dvd.mpr hdvd)

theorem Head.passed (hx : 2 < x.toInt) (h : Head x k d) : Passed x k d := by
  induction h with
  | start => exact passed_start hx
  | next _ hle hmod ih => exact ih.next hx hle hmod

theorem Passed.isLeast (h : Passed x k d) (hmod : x % d = 0) :
    IsLeast {e : ℤ | 2 ≤ e ∧ e ∣ x.toInt} d.toInt := by
  have htwo : 2 ≤ d.toInt := by
    have := h.toInt_eq
    omega
  constructor
  · exact ⟨htwo, mod_eq_zero_iff_dvd.mp hmod⟩
  · rintro e ⟨he, hdvd⟩
    by_contra hlt
    exact h.not_dvd e he (not_le.mp hlt) hdvd

theorem accepts_eq_isNone (hx : 2 < x.toInt) : accepts x = (divisorFrom? x 2).isNone := by
  have htwo : (2 : Int64) ≤ x := by
    rw [Int64.le_iff_toInt_le, toInt_two]
    exact le_of_lt hx
  rw [accepts, decide_eq_true htwo, Bool.true_and]

/-- Wherever the search for a divisor of a word above two comes to, it ends there or goes on to the
next number. The number is at least two and stays below the greatest word, and the bound on it is
the bound on its square. The search ends after no more numbers than lie between one and the square
root: either past the bound, and the word is accepted, or at the least divisor from two on, and it
is refused. -/
theorem search_bounded (x : Int64) (hx : 2 < x) :
    (∀ k d, Head x k d →
      divisorFrom? x 2 = divisorFrom? x d ∧
      divisorFrom? x d =
        (if d ≤ x / d then if x % d = 0 then some d else divisorFrom? x (d + 1) else none) ∧
      2 ≤ d.toInt ∧ d.toInt ≤ 3037000500 ∧ (d + 1).toInt = d.toInt + 1 ∧
      (d ≤ x / d ↔ d.toInt * d.toInt ≤ x.toInt) ∧
      k ≤ x.toNatClampNeg.sqrt - 1 ∧ (d ≤ x / d → k + 1 ≤ x.toNatClampNeg.sqrt - 1) ∧
      (¬ d ≤ x / d → accepts x = true) ∧
      (d ≤ x / d → x % d = 0 →
        accepts x = false ∧ IsLeast {e : ℤ | 2 ≤ e ∧ e ∣ x.toInt} d.toInt)) ∧
    ∃ k d, Head x k d ∧ (d ≤ x / d → x % d = 0) := by
  rw [Int64.lt_iff_toInt_lt, toInt_two] at hx
  refine ⟨?_, Head.start.exists_end⟩
  intro k d h
  have hpassed := h.passed hx
  have hd := hpassed.toInt_eq
  have hsqrt := hpassed.le_sqrt
  have hroot := sqrt_lt x
  have hmax : d < Int64.maxValue := by
    rw [Int64.lt_iff_toInt_lt, Int64.toInt_maxValue]
    omega
  refine ⟨h.divisorFrom?_eq, divisorFrom?_turn x d, by omega, by omega, Candidate.toInt_succ hmax,
    le_div_iff_mul_self_le (by omega) (by omega), by omega, ?_, ?_, ?_⟩
  · intro hle
    have := (le_div_iff_le_sqrt (by omega) hd).mp hle
    omega
  · intro hle
    rw [accepts_eq_isNone hx, h.divisorFrom?_eq, divisorFrom?_of_not_le hle]
    rfl
  · intro hle hmod
    constructor
    · rw [accepts_eq_isNone hx, h.divisorFrom?_eq, divisorFrom?_of_dvd hle hmod]
      rfl
    · exact hpassed.isLeast hmod

/-- No number is tried on three, and on the square of seven all from two up to seven are. -/
theorem search_bounded_square :
    (2 : Int64) < 3 ∧ (∀ k d, Head 3 k d → k = 0 ∧ ¬ d ≤ 3 / d) ∧
      (2 : Int64) < 49 ∧ Head 49 5 7 ∧ 5 + 1 ≤ Nat.sqrt 49 - 1 ∧ accepts 49 = false ∧
      IsLeast {e : ℤ | 2 ≤ e ∧ e ∣ 49} 7 := by
  have hthree : (2 : Int64) < 3 := by decide
  have hsquare : (2 : Int64) < 49 := by decide
  have hroot : Nat.sqrt (3 : Int64).toNatClampNeg = 1 := by decide +kernel
  have hseven : Head 49 5 7 :=
    ((((Head.start.next (by decide) (by decide)).next (by decide) (by decide)).next
      (by decide) (by decide)).next (by decide) (by decide)).next (by decide) (by decide)
  obtain ⟨-, -, -, -, -, -, -, htried, -, hleast⟩ := (search_bounded 49 hsquare).1 5 7 hseven
  obtain ⟨hrefused, hleast⟩ := hleast (by decide) (by decide)
  refine ⟨hthree, ?_, hsquare, hseven, htried (by decide), hrefused, hleast⟩
  intro k d h
  obtain ⟨-, -, -, -, -, -, hk, htried, -⟩ := (search_bounded 3 hthree).1 k d h
  rw [hroot] at hk htried
  constructor
  · omega
  · intro hle
    have := htried hle
    omega

end PrimeStream.Trial
