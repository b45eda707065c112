import PrimeStream.Proofs.SieveLimit

/-!
# What a table covers

A table has a flag for each number below its limit, and the flag only depends on the number: it is
clear exactly for the primes. So tables agree as far as both of them go, and a sieve that makes a
new table in place of the one that it has, whatever that one held, changes no flag that it had.
-/

set_option autoImplicit false

namespace PrimeStream.Sieve

open Criterion (after)

theorem getElem_table {limit k : ℕ} (hk : k < (table limit).size) :
    (table limit)[k] = false ↔ k.Prime := by
  have hflag : (table limit).getD k true = false ↔ k.Prime :=
    getD_table (by rwa [size_table] at hk)
  rwa [Array.getD_eq_getD_getElem?, Array.getElem?_eq_getElem hk] at hflag

theorem getElem?_table {limit k : ℕ} (hk : k < (table limit).size) :
    (table limit)[k]? = some (!decide k.Prime) := by
  have hflag := getElem_table hk
  rw [Array.getElem?_eq_getElem hk]
  cases h : (table limit)[k] <;> simp_all

theorem getElem?_struck {s : Sieve} (h : Sound s) {k : ℕ} (hk : k < s.limit) :
    s.struck[k]? = some (!decide k.Prime) := by
  rw [h.struck_eq]
  apply getElem?_table
  rwa [size_table, clamp_of_bounds h.two_le h.le_ceiling]

theorem getElem?_struck_cover {s : Sieve} (h : Sound s) (index : ℕ) {k : ℕ} (hk : k < s.limit) :
    (s.cover index).struck[k]? = s.struck[k]? := by
  rw [getElem?_struck (cover_sound h index) (hk.trans_le (limit_le_cover h index)),
    getElem?_struck h hk]

/-- A table for any limit is as long as that limit within its bounds, and a number below its length
is not struck out exactly when it is prime. A sieve that grows to that limit has this table, no
matter which flags it had. The table agrees with any other one as far as both go, so a sieve in any
of its states has the same flags after it grows for an index, for the numbers it had covered. -/
theorem table_tells_primes (limit : ℕ) :
    (table limit).size = max 2 (min limit ceiling) ∧
    (∀ k (hk : k < (table limit).size), (table limit)[k] = false ↔ k.Prime) ∧
    (∀ (s : Sieve) index, s.limit ≤ index → doubled s.limit index = limit →
      s.cover index = ofLimit limit) ∧
    (∀ other k, k < (table limit).size → k < (table other).size →
      (table other)[k]? = (table limit)[k]?) ∧
    ∀ xs index k, k < (after (ofLimit limit) xs).limit →
      ((after (ofLimit limit) xs).cover index).struck[k]? =
        (after (ofLimit limit) xs).struck[k]? := by
  refine ⟨size_table limit, fun k hk => getElem_table hk, ?_, ?_, ?_⟩
  · intro s index hindex hlimit
    rw [cover, if_pos hindex, hlimit]
  · intro other k hk hother
    rw [getElem?_table hk, getElem?_table hother]
  · intro xs index k hk
    exact getElem?_struck_cover (after_sound limit xs) index hk

example : (table 25).size = 25 ∧ (table 26)[25]? = some true := by decide +kernel

end PrimeStream.Sieve
