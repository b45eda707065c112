import Mathlib.Data.Nat.Prime.Basic
import PrimeStream.Sieve

/-!
# The table of a sieve

Before each round the table is known exactly: a number is struck out when it is below two, or
when a prime of an earlier round divides it and has its square up to it. So a number that is not
struck out at its own round is prime, and after the last round the flags tell primality.
-/

set_option autoImplicit false

namespace PrimeStream.Sieve

/-- What the rounds before `i` strike out. -/
def Crossed (i j : ℕ) : Prop := j < 2 ∨ ∃ p, p.Prime ∧ p < i ∧ p ∣ j ∧ p * p ≤ j

def Marked (i : ℕ) (flags : Array Bool) : Prop :=
  ∀ j, j < flags.size → (flags.getD j true = true ↔ Crossed i j)

theorem getD_setIfInBounds (flags : Array Bool) (i k : ℕ) :
    (flags.setIfInBounds i true).getD k true = true ↔ k = i ∨ flags.getD k true = true := by
  simp only [Array.getD_eq_getD_getElem?, Array.getElem?_setIfInBounds]
  by_cases hk : i = k
  · subst hk
    by_cases hi : i < flags.size <;> simp [hi]
  · simp [hk, Ne.symm hk]

theorem multiple_from_iff {step : ℕ} (hs : 0 < step) (j k : ℕ) :
    j ≤ k ∧ step ∣ k - j ↔ k = j ∨ j + step ≤ k ∧ step ∣ k - (j + step) := by
  constructor
  · rintro ⟨hle, hdvd⟩
    rcases Nat.eq_or_lt_of_le hle with rfl | hlt
    · exact Or.inl rfl
    · have hstep : step ≤ k - j := Nat.le_of_dvd (by omega) hdvd
      right
      constructor
      · omega
      · rw [← Nat.sub_sub]
        exact Nat.dvd_sub hdvd (Nat.dvd_refl step)
  · rintro (rfl | ⟨hle, hdvd⟩)
    · simp
    · have hsum : k - j = k - (j + step) + step := by omega
      constructor
      · omega
      · rw [hsum]
        exact Nat.dvd_add hdvd (Nat.dvd_refl step)

theorem getD_strike {step : ℕ} (hs : 0 < step) (j : ℕ) (flags : Array Bool) (k : ℕ) :
    (strike step j flags).getD k true = true ↔
      flags.getD k true = true ∨ j ≤ k ∧ step ∣ k - j := by
  fun_induction strike step j flags with
  | case1 j flags _ ih =>
    rw [ih, getD_setIfInBounds, multiple_from_iff hs j k, or_assoc, or_left_comm]
  | case2 j flags hstop =>
    have hend : flags.size ≤ j := by omega
    constructor
    · exact Or.inl
    · rintro (h | ⟨hle, -⟩)
      · exact h
      · simp [show flags.size ≤ k by omega]

theorem dvd_from_square_iff {i j : ℕ} : i * i ≤ j ∧ i ∣ j - i * i ↔ i ∣ j ∧ i * i ≤ j := by
  constructor
  · rintro ⟨hle, hdvd⟩
    exact ⟨(Nat.dvd_sub_iff_left hle (Nat.dvd_mul_right i i)).mp hdvd, hle⟩
  · rintro ⟨hdvd, hle⟩
    exact ⟨hle, Nat.dvd_sub hdvd (Nat.dvd_mul_right i i)⟩

theorem crossed_iff_not_prime {i j : ℕ} (hj : j < i * i) : Crossed i j ↔ ¬ j.Prime := by
  constructor
  · rintro (hlt | ⟨p, hp, -, hdvd, hsq⟩) hprime
    · have := hprime.two_le
      omega
    · have htwo := hp.two_le
      rcases (Nat.dvd_prime hprime).mp hdvd with rfl | rfl
      · omega
      · have := Nat.mul_le_mul_right p htwo
        omega
  · intro hnot
    by_cases hlt : j < 2
    · exact Or.inl hlt
    · have hsq := Nat.minFac_sq_le_self (by omega) hnot
      rw [pow_two] at hsq
      have hlow : j.minFac < i := by
        rw [← Nat.mul_self_lt_mul_self_iff]
        omega
      exact Or.inr ⟨j.minFac, Nat.minFac_prime (by omega), hlow, Nat.minFac_dvd j, hsq⟩

theorem crossed_succ_iff {i j : ℕ} :
    Crossed (i + 1) j ↔ Crossed i j ∨ i.Prime ∧ i ∣ j ∧ i * i ≤ j := by
  constructor
  · rintro (hlt | ⟨p, hp, hpi, hdvd, hsq⟩)
    · exact Or.inl (Or.inl hlt)
    · rcases Nat.lt_succ_iff_lt_or_eq.mp hpi with hlt | rfl
      · exact Or.inl (Or.inr ⟨p, hp, hlt, hdvd, hsq⟩)
      · exact Or.inr ⟨hp, hdvd, hsq⟩
  · rintro ((hlt | ⟨p, hp, hpi, hdvd, hsq⟩) | ⟨hp, hdvd, hsq⟩)
    · exact Or.inl hlt
    · exact Or.inr ⟨p, hp, by omega, hdvd, hsq⟩
    · exact Or.inr ⟨i, hp, by omega, hdvd, hsq⟩

@[simp] theorem size_blank (limit : ℕ) : (blank limit).size = limit := by
  simp [blank]

theorem blank_marked (limit : ℕ) : Marked 2 (blank limit) := by
  intro j hj
  have hfalse : ¬ (Array.replicate limit false).getD j true = true := by
    rw [size_blank] at hj
    simp [hj]
  unfold blank
  rw [getD_setIfInBounds, getD_setIfInBounds, or_iff_left hfalse]
  constructor
  · intro h
    exact Or.inl (by omega)
  · rintro (hlt | ⟨p, hp, hlt, -⟩)
    · omega
    · have := hp.two_le
      omega

theorem getD_eq_false_iff_prime {i j : ℕ} {flags : Array Bool} (h : Marked i flags)
    (hj : j < flags.size) (hsq : j < i * i) : flags.getD j true = false ↔ j.Prime := by
  rw [← Bool.not_eq_true, h j hj, crossed_iff_not_prime hsq, not_not]

theorem round_marked {i : ℕ} {flags : Array Bool} (hi : 2 ≤ i) (hsize : i * i < flags.size)
    (h : Marked i flags) : Marked (i + 1) (round i flags) := by
  have hlt : i < i * i := Nat.lt_mul_self_iff.mpr hi
  have hprime := getD_eq_false_iff_prime h (j := i) (by omega) hlt
  intro j hj
  rw [size_round] at hj
  rw [crossed_succ_iff, ← h j hj]
  by_cases hstruck : flags.getD i true = true
  · have hnot : ¬ i.Prime := by
      rw [← hprime, hstruck]
      decide
    rw [round, if_pos hstruck, or_iff_left fun h => hnot h.1]
  · have hp := hprime.mp (Bool.eq_false_of_not_eq_true hstruck)
    rw [round, if_neg hstruck, getD_strike (by omega), dvd_from_square_iff, and_iff_right hp]

theorem rounds_marked {i : ℕ} {flags : Array Bool} (hi : 2 ≤ i) (h : Marked i flags) :
    ∃ k, 2 ≤ k ∧ flags.size ≤ k * k ∧ Marked k (rounds i flags) := by
  fun_induction rounds i flags with
  | case1 i flags hsize ih =>
    rw [size_round] at ih
    exact ih (by omega) (round_marked hi hsize h)
  | case2 i flags hsize => exact ⟨i, hi, by omega, h⟩

@[simp] theorem size_rounds (i : ℕ) (flags : Array Bool) :
    (rounds i flags).size = flags.size := by
  fun_induction rounds i flags with
  | case1 i flags _ ih => rw [ih, size_round]
  | case2 => rfl

@[simp] theorem size_table (limit : ℕ) : (table limit).size = clamp limit := by
  rw [table, size_rounds, size_blank]

/-- The flags of a finished table tell the prime numbers below its limit. -/
theorem getD_table {limit j : ℕ} (hj : j < clamp limit) :
    (table limit).getD j true = false ↔ j.Prime := by
  obtain ⟨k, -, hsq, hk⟩ := rounds_marked (by omega) (blank_marked (clamp limit))
  rw [size_blank] at hsq
  have hsize : j < (table limit).size := by rwa [size_table]
  exact getD_eq_false_iff_prime hk hsize (by omega)

end PrimeStream.Sieve
