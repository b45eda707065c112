import Mathlib.Data.Nat.Prime.Basic
import PrimeStream.Trial

/-!
# Trial division accepts the prime numbers

The bound on a divisor is a bound on words, and it is the bound on its square over the unbounded
integers. A search that finds nothing has passed every divisor up to that bound, and a number
that is not prime has a divisor within it.
-/

set_option autoImplicit false

namespace PrimeStream.Trial

theorem le_div_iff_mul_self_le {x d : Int64} (hx : 0 ≤ x.toInt) (hd : 2 ≤ d.toInt) :
    d ≤ x / d ↔ d.toInt * d.toInt ≤ x.toInt := by
  have hne : d ≠ -1 := by
    rintro rfl
    exact absurd hd (by decide)
  rw [Int64.le_iff_toInt_le, Int64.toInt_div_of_ne_right x d hne,
    Int.tdiv_eq_ediv_of_nonneg hx, Int.le_ediv_iff_mul_le (by omega)]

theorem mod_eq_zero_iff_dvd {x d : Int64} : x % d = 0 ↔ d.toInt ∣ x.toInt := by
  rw [← Int64.toInt_inj, Int64.toInt_mod, Int64.toInt_zero, ← Int.dvd_iff_tmod_eq_zero]

theorem toInt_divisor_succ {x d : Int64} (h : d ≤ x / d) : (d + 1).toInt = d.toInt + 1 :=
  Candidate.toInt_succ (lt_maxValue_of_le_div h)

theorem divisorFrom?_eq_none_iff {x d : Int64} (hx : 0 ≤ x.toInt) (hd : 2 ≤ d.toInt) :
    divisorFrom? x d = none ↔
      ∀ e : ℤ, d.toInt ≤ e → e * e ≤ x.toInt → ¬ e ∣ x.toInt := by
  fun_induction divisorFrom? x d with
  | case1 d hle hmod =>
    have hsq := (le_div_iff_mul_self_le hx hd).mp hle
    have hdvd := mod_eq_zero_iff_dvd.mp hmod
    constructor
    · intro h
      cases h
    · intro h
      exact absurd hdvd (h d.toInt (Int.le_refl _) hsq)
  | case2 d hle hmod ih =>
    have hnot : ¬ d.toInt ∣ x.toInt := fun h => hmod (mod_eq_zero_iff_dvd.mpr h)
    have hsucc := toInt_divisor_succ hle
    rw [ih (by omega), hsucc]
    constructor
    · intro h e he hsq
      -- the divisor of this round is not among those that the search still tries
      rcases Int.lt_or_eq_of_le he with hlt | rfl
      · exact h e (by omega) hsq
      · exact hnot
    · intro h e he hsq
      exact h e (by omega) hsq
  | case3 d hle =>
    have hsq : ¬ d.toInt * d.toInt ≤ x.toInt := fun h => hle ((le_div_iff_mul_self_le hx hd).mpr h)
    constructor
    · intro _ e he hesq
      have hmul := Int.mul_le_mul he he (by omega) (by omega)
      omega
    · intro _
      rfl

theorem accepts_iff {x : Int64} :
    accepts x = true ↔ 2 ≤ x.toInt ∧ ∀ d : ℤ, 2 ≤ d → d * d ≤ x.toInt → ¬ d ∣ x.toInt := by
  unfold accepts
  rw [Bool.and_eq_true, decide_eq_true_iff, Option.isNone_iff_eq_none, Int64.le_iff_toInt_le]
  apply and_congr_right
  intro hx
  have htwo : (2 : Int64).toInt = 2 := by decide
  rw [htwo] at hx
  rw [divisorFrom?_eq_none_iff (by omega) (by omega), htwo]

theorem prime_iff_no_divisor {n : ℕ} :
    n.Prime ↔ 2 ≤ (n : ℤ) ∧ ∀ d : ℤ, 2 ≤ d → d * d ≤ n → ¬ d ∣ (n : ℤ) := by
  rw [Nat.prime_def_le_sqrt]
  constructor
  · rintro ⟨hn, h⟩
    constructor
    · omega
    · intro d hd hsq hdvd
      obtain ⟨m, rfl⟩ := Int.eq_ofNat_of_zero_le (show 0 ≤ d by omega)
      apply h m (by omega)
      · rw [Nat.le_sqrt]
        exact_mod_cast hsq
      · exact_mod_cast hdvd
  · rintro ⟨hn, h⟩
    constructor
    · omega
    · intro m hm hsqrt hdvd
      have hsq := Nat.le_sqrt.mp hsqrt
      apply h m (by omega)
      · exact_mod_cast hsq
      · exact_mod_cast hdvd

theorem accepts_iff_prime {x : Int64} : accepts x = true ↔ x.toNatClampNeg.Prime := by
  rw [accepts_iff, prime_iff_no_divisor]
  rcases Int.lt_or_le x.toInt 0 with hneg | hpos
  · have hzero : x.toNatClampNeg = 0 := Int.toNat_of_nonpos (by omega)
    rw [hzero]
    constructor
    · intro h
      exact absurd h.1 (by omega)
    · intro h
      exact absurd h.1 (by decide)
  · have hcast : (x.toNatClampNeg : ℤ) = x.toInt := Int.toNat_of_nonneg hpos
    rw [hcast]

theorem prime_iff_only_divisors {n : ℕ} :
    n.Prime ↔ 2 ≤ (n : ℤ) ∧ ∀ d : ℤ, 0 < d → d ∣ (n : ℤ) → d = 1 ∨ d = n := by
  rw [Nat.prime_def]
  constructor
  · rintro ⟨hn, h⟩
    constructor
    · omega
    · intro d hd hdvd
      obtain ⟨m, rfl⟩ := Int.eq_ofNat_of_zero_le (show 0 ≤ d by omega)
      have hm := h m (by exact_mod_cast hdvd)
      omega
  · rintro ⟨hn, h⟩
    constructor
    · omega
    · intro m hdvd
      have hpos : 0 < m := Nat.pos_of_dvd_of_pos hdvd (by omega)
      have hm := h m (by omega) (by exact_mod_cast hdvd)
      omega

/-- Trial division accepts a word exactly when it is a prime number. A word below two is none,
and from two on it is enough that no divisor with a square up to the word is found. -/
theorem accepts_exactly_primes (x : Int64) :
    (accepts x = true ↔
      2 ≤ x.toInt ∧ ∀ d : ℤ, 0 < d → d ∣ x.toInt → d = 1 ∨ d = x.toInt) ∧
    (accepts x = true ↔
      2 ≤ x.toInt ∧ ∀ d : ℤ, 2 ≤ d → d * d ≤ x.toInt → ¬ d ∣ x.toInt) ∧
    (accepts x = true ↔ x.toInt.toNat.Prime) ∧
    (x.toInt < 2 → accepts x = false) := by
  refine ⟨?_, accepts_iff, accepts_iff_prime, ?_⟩
  · rcases Int.lt_or_le x.toInt 0 with hneg | hpos
    · rw [accepts_iff]
      constructor
      · intro h
        exact absurd h.1 (by omega)
      · intro h
        exact absurd h.1 (by omega)
    · have hcast : (x.toNatClampNeg : ℤ) = x.toInt := Int.toNat_of_nonneg hpos
      rw [accepts_iff_prime, prime_iff_only_divisors, hcast]
  · intro hx
    rw [← Bool.not_eq_true, accepts_iff]
    intro h
    exact absurd h.1 (by omega)

end PrimeStream.Trial
