import Mathlib.NumberTheory.Chebyshev
import PrimeStream.Program

/-!
# There are enough primes

The least common multiple of the numbers up to `n` has a power of each prime up to `n`, none of
them above `n`, and it is not much less than the `n`-th power of two. So there are many primes,
and far more of them are words than a program's listing has lines.
-/

set_option autoImplicit false

namespace PrimeStream.Program

open Nat (primeCounting primeCounting' lcmUpto)

theorem lcmUpto_le_pow_primeCounting {n : ℕ} (hn : n ≠ 0) :
    lcmUpto n ≤ n ^ primeCounting n := by
  rw [Nat.lcmUpto_eq_prod_pow_log, ← Nat.primesLE_card_eq_primeCounting]
  exact Finset.prod_le_pow_card _ _ _ fun p _ => Nat.pow_log_le_self p hn

theorem two_pow_le_mul_primeCounting {k : ℕ} (hk : k ≠ 0) :
    2 ^ k ≤ k * (primeCounting' (2 ^ k) + 1) + 1 := by
  obtain ⟨n, hn⟩ : ∃ n, 2 ^ k = n + 1 := Nat.exists_eq_add_one.mpr (Nat.two_pow_pos k)
  have hpos : n ≠ 0 := by
    have := Nat.one_lt_two_pow hk
    omega
  have hle : 2 ^ n ≤ 2 ^ (k * (primeCounting n + 1)) := by
    calc 2 ^ n
        ≤ (n + 1) * lcmUpto n := Chebyshev.two_pow_le_mul_lcmUpto n
      _ ≤ (n + 1) * (n + 1) ^ primeCounting n := by
        apply Nat.mul_le_mul_left
        exact (lcmUpto_le_pow_primeCounting hpos).trans (Nat.pow_le_pow_left (Nat.le_succ n) _)
      _ = 2 ^ (k * (primeCounting n + 1)) := by
        rw [← pow_succ', ← hn, ← pow_mul]
  rw [hn]
  exact Nat.succ_le_succ ((Nat.pow_le_pow_iff_right Nat.one_lt_two).mp hle)

theorem target_le_primeCounting : target.toInt + 1 ≤ primeCounting' (2 ^ 63 - 1) := by
  have htarget : target.toInt = 1000000 := by decide
  -- the primes below the 25th power of two are enough
  have hmany := two_pow_le_mul_primeCounting (k := 25) (by decide)
  have hmono : primeCounting' (2 ^ 25) ≤ primeCounting' (2 ^ 63 - 1) :=
    Nat.monotone_primeCounting' (by decide)
  omega

end PrimeStream.Program
