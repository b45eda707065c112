import PrimeStream.Proofs.SieveGrowth

/-!
# The rounds of a sieve

A table is made in rounds, one for each number whose square it covers. Before a round the table is
known exactly, so the round strikes out the multiples of its number just when that is prime. The
numbers that a round strikes out are the multiples from the square on, in ascending order and none
twice, and those below the square were struck out by the rounds before it.
-/

set_option autoImplicit false

namespace PrimeStream.Sieve

/-- The numbers below an end that are reached from `j` in steps. -/
def multiples (step j size : ℕ) : List ℕ :=
  if 0 < step ∧ j < size then j :: multiples step (j + step) size else []
termination_by size - j

theorem strike_eq_foldl (step j : ℕ) (flags : Array Bool) :
    strike step j flags =
      (multiples step j flags.size).foldl (fun flags k => flags.setIfInBounds k true) flags := by
  fun_induction strike step j flags with
  | case1 j flags hgo ih =>
    rw [ih, Array.size_setIfInBounds, multiples.eq_def step j, if_pos hgo, List.foldl_cons]
  | case2 j flags hstop =>
    rw [multiples, if_neg hstop, List.foldl_nil]

theorem mem_multiples {step : ℕ} (hs : 0 < step) {j size k : ℕ} :
    k ∈ multiples step j size ↔ k < size ∧ j ≤ k ∧ step ∣ k - j := by
  fun_induction multiples step j size with
  | case1 j hgo ih =>
    rw [List.mem_cons, ih, multiple_from_iff hs j k, and_or_left]
    constructor
    · rintro (rfl | h)
      · exact .inl ⟨hgo.2, rfl⟩
      · exact .inr h
    · rintro (⟨-, rfl⟩ | h)
      · exact .inl rfl
      · exact .inr h
  | case2 j hstop =>
    simp only [List.not_mem_nil, false_iff, not_and]
    omega

theorem multiples_ascending (step j size : ℕ) : (multiples step j size).Pairwise (· < ·) := by
  fun_induction multiples step j size with
  | case1 j hgo ih =>
    rw [List.pairwise_cons]
    refine ⟨?_, ih⟩
    intro k hk
    have hle := ((mem_multiples hgo.1).mp hk).2.1
    omega
  | case2 => exact List.Pairwise.nil

/-- The rounds of the table for a limit come to `i` with these flags. -/
inductive Head (limit : ℕ) : ℕ → Array Bool → Prop where
  | start : Head limit 2 (blank limit)
  | next {i : ℕ} {flags : Array Bool} (h : Head limit i flags) (hsquare : i * i < flags.size) :
      Head limit (i + 1) (round i flags)

variable {limit i : ℕ} {flags : Array Bool}

theorem Head.two_le (h : Head limit i flags) : 2 ≤ i := by
  induction h with
  | start => exact Nat.le_refl 2
  | next _ _ ih => exact Nat.le_succ_of_le ih

theorem Head.size_eq (h : Head limit i flags) : flags.size = limit := by
  induction h with
  | start => exact size_blank limit
  | next _ _ ih => rw [size_round, ih]

theorem Head.marked (h : Head limit i flags) : Marked i flags := by
  induction h with
  | start => exact blank_marked limit
  | next h hsquare ih => exact round_marked h.two_le hsquare ih

theorem Head.rounds_eq (h : Head limit i flags) : rounds 2 (blank limit) = rounds i flags := by
  induction h with
  | start => rfl
  | next _ hsquare ih => rw [ih, rounds, if_pos hsquare]

theorem Head.rounds_turn (h : Head limit i flags) :
    rounds i flags = if i * i < limit then rounds (i + 1) (round i flags) else flags := by
  rw [rounds, h.size_eq]

theorem Head.exists_last (h : Head limit i flags) :
    ∃ k, limit ≤ k * k ∧ Head limit k (rounds i flags) := by
  fun_induction rounds i flags with
  | case1 i flags hsquare ih => exact ih (h.next hsquare)
  | case2 i flags hstop =>
    have hsize := h.size_eq
    exact ⟨i, by omega, h⟩

theorem exists_head (htwo : 2 ≤ i) (hsquare : i * i < limit) : ∃ flags, Head limit i flags := by
  induction i, htwo using Nat.le_induction with
  | base => exact ⟨_, .start⟩
  | succ i _ ih =>
    have hbefore : i * i < limit := lt_of_le_of_lt (Nat.mul_self_le_mul_self i.le_succ) hsquare
    obtain ⟨flags, h⟩ := ih hbefore
    exact ⟨_, h.next (by rwa [h.size_eq])⟩

theorem Head.getElem?_eq_false_iff (h : Head limit i flags) (hsquare : i * i < limit) :
    flags[i]? = some false ↔ i.Prime := by
  have hlt : i < i * i := Nat.lt_mul_self_iff.mpr h.two_le
  have hsize : i < flags.size := by
    rw [h.size_eq]
    exact hlt.trans hsquare
  rw [← getD_eq_false_iff_prime h.marked hsize hlt, Array.getD_eq_getD_getElem?,
    Array.getElem?_eq_getElem hsize, Option.some_inj, Option.getD_some]

theorem round_of_getElem?_true (h : flags[i]? = some true) : round i flags = flags := by
  rw [round, Array.getD_eq_getD_getElem?, h]
  rfl

theorem round_of_getElem?_false (h : flags[i]? = some false) :
    round i flags =
      (multiples i (i * i) flags.size).foldl (fun flags k => flags.setIfInBounds k true) flags := by
  rw [round, Array.getD_eq_getD_getElem?, h, ← strike_eq_foldl]
  rfl

theorem Head.round_of_prime (h : Head limit i flags) (hsquare : i * i < limit) (hi : i.Prime) :
    round i flags =
      (multiples i (i * i) limit).foldl (fun flags k => flags.setIfInBounds k true) flags := by
  rw [round_of_getElem?_false ((h.getElem?_eq_false_iff hsquare).mpr hi), h.size_eq]

theorem Head.round_of_not_prime (h : Head limit i flags) (hsquare : i * i < limit)
    (hi : ¬ i.Prime) : round i flags = flags := by
  have hsize : i < flags.size := by
    rw [h.size_eq]
    exact (Nat.le_mul_self i).trans_lt hsquare
  apply round_of_getElem?_true
  rw [← h.getElem?_eq_false_iff hsquare] at hi
  rw [Array.getElem?_eq_getElem hsize] at hi ⊢
  simpa using hi

theorem mem_multiples_square (htwo : 2 ≤ i) {j : ℕ} :
    j ∈ multiples i (i * i) limit ↔ i ∣ j ∧ i * i ≤ j ∧ j < limit := by
  rw [mem_multiples (by omega), dvd_from_square_iff]
  tauto

/-- Wherever the rounds come to, the round there and those after it make the table. Before each
round a number is struck out exactly when it is below two or a multiple, from the square on, of a
prime before the number of the round. That number itself is then not struck out just when it is
prime. Only then the round changes the table, and it strikes out the multiples of its number from
the square up to the end, one after the other. So the rounds that strike out multiples are those of
the primes whose squares the table covers, and the last round leaves the table of the limit. -/
theorem heads_crossed (htwo : 2 ≤ limit) (hle : limit ≤ ceiling) :
    (∀ i flags, Head limit i flags →
      table limit = rounds i flags ∧
      rounds i flags = (if i * i < limit then rounds (i + 1) (round i flags) else flags) ∧
      flags.size = limit ∧
      (∀ j (hj : j < flags.size),
        flags[j] = true ↔ j < 2 ∨ ∃ p, p.Prime ∧ p < i ∧ p ∣ j ∧ p * p ≤ j) ∧
      (i * i < limit →
        (flags[i]? = some false ↔ i.Prime) ∧
        (¬ i.Prime → round i flags = flags) ∧
        (i.Prime → round i flags =
          (multiples i (i * i) limit).foldl (fun flags j => flags.setIfInBounds j true) flags) ∧
        (multiples i (i * i) limit).Pairwise (· < ·) ∧
        ∀ j, j ∈ multiples i (i * i) limit ↔ i ∣ j ∧ i * i ≤ j ∧ j < limit)) ∧
    (∀ p, (∃ flags, Head limit p flags ∧ p * p < limit ∧ flags[p]? = some false) ↔
      p.Prime ∧ p * p < limit) ∧
    ∃ i, limit ≤ i * i ∧ Head limit i (table limit) := by
  have htable : table limit = rounds 2 (blank limit) := by
    rw [table, clamp_of_bounds htwo hle]
  refine ⟨?_, ?_, ?_⟩
  · intro i flags h
    refine ⟨htable.trans h.rounds_eq, h.rounds_turn, h.size_eq, ?_, ?_⟩
    · intro j hj
      have hmarked := h.marked j hj
      rwa [Array.getD_eq_getD_getElem?, Array.getElem?_eq_getElem hj] at hmarked
    · intro hsquare
      exact ⟨h.getElem?_eq_false_iff hsquare, h.round_of_not_prime hsquare,
        h.round_of_prime hsquare, multiples_ascending i (i * i) limit,
        fun j => mem_multiples_square h.two_le⟩
  · intro p
    constructor
    · rintro ⟨flags, h, hsquare, hflag⟩
      exact ⟨(h.getElem?_eq_false_iff hsquare).mp hflag, hsquare⟩
    · rintro ⟨hp, hsquare⟩
      obtain ⟨flags, h⟩ := exists_head hp.two_le hsquare
      exact ⟨flags, h, hsquare, (h.getElem?_eq_false_iff hsquare).mpr hp⟩
  · rw [htable]
    exact Head.start.exists_last

theorem heads_crossed_thirty :
    2 ≤ 30 ∧ 30 ≤ ceiling ∧
      ∃ flags, Head 30 5 flags ∧ flags[5]? = some false ∧ flags[25]? = some false ∧
        round 5 flags = flags.setIfInBounds 25 true := by
  have htwo : 2 ≤ 30 := by decide
  have hle : 30 ≤ ceiling := by decide
  obtain ⟨hheads, hrounds, -⟩ := heads_crossed htwo hle
  obtain ⟨flags, h, hsquare, hflag⟩ := (hrounds 5).mpr ⟨by decide, by decide⟩
  obtain ⟨-, -, hsize, hcrossed, hround⟩ := hheads 5 flags h
  obtain ⟨hprime, -, hstrikes, -, -⟩ := hround hsquare
  have hdvd : ∀ p < 5, p ∣ 25 → p < 2 := by decide
  have hmultiples : multiples 5 (5 * 5) 30 = [25] := by decide +kernel
  refine ⟨htwo, hle, flags, h, hflag, ?_, ?_⟩
  · have h25 : 25 < flags.size := by omega
    rw [Array.getElem?_eq_getElem h25, Option.some_inj, ← Bool.not_eq_true, hcrossed 25 h25]
    rintro (hlow | ⟨p, hp, hlt, hp25, -⟩)
    · omega
    · have := hp.two_le
      have := hdvd p hlt hp25
      omega
  · rw [hstrikes (hprime.mp hflag), hmultiples]
    rfl

end PrimeStream.Sieve
