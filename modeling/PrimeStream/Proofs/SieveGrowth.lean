import PrimeStream.Proofs.Judgements
import PrimeStream.Proofs.SieveTable
import PrimeStream.Proofs.TrialDivision

/-!
# The states of a sieve

Whatever a sieve has judged, it holds the finished table of its limit, and the limit lies between
two and the ceiling. A sieve that covers a candidate below the ceiling has a flag for it even when
the doubled limit was cut down, so its answer is that of trial division in every state.
-/

set_option autoImplicit false

namespace PrimeStream.Sieve

open Criterion (answers)

/-- What every state of a sieve has: the finished table of a limit within the bounds. -/
structure Sound (s : Sieve) : Prop where
  two_le : 2 ≤ s.limit
  le_ceiling : s.limit ≤ ceiling
  struck_eq : s.struck = table s.limit

theorem two_le_clamp (limit : ℕ) : 2 ≤ clamp limit := Nat.le_max_left _ _

theorem clamp_le_ceiling (limit : ℕ) : clamp limit ≤ ceiling :=
  Nat.max_le.mpr ⟨by decide, Nat.min_le_right _ _⟩

theorem clamp_of_bounds {limit : ℕ} (htwo : 2 ≤ limit) (hle : limit ≤ ceiling) :
    clamp limit = limit := by
  rw [clamp, Nat.min_eq_left hle, Nat.max_eq_right htwo]

theorem clamp_clamp (limit : ℕ) : clamp (clamp limit) = clamp limit :=
  clamp_of_bounds (two_le_clamp limit) (clamp_le_ceiling limit)

theorem limit_ofLimit (limit : ℕ) : (ofLimit limit).limit = clamp limit := size_table limit

theorem ofLimit_sound (limit : ℕ) : Sound (ofLimit limit) where
  two_le := by
    rw [limit_ofLimit]
    exact two_le_clamp limit
  le_ceiling := by
    rw [limit_ofLimit]
    exact clamp_le_ceiling limit
  struck_eq := by
    rw [limit_ofLimit]
    unfold ofLimit table
    rw [clamp_clamp]

theorem lt_doubled {limit index : ℕ} (h : 0 < limit) : index < doubled limit index := by
  fun_induction doubled limit index with
  | case1 limit _ ih => exact ih (by omega)
  | case2 limit hstop => omega

theorem cover_sound {s : Sieve} (h : Sound s) (index : ℕ) : Sound (s.cover index) := by
  unfold cover
  split
  · exact ofLimit_sound _
  · exact h

theorem lt_limit_cover {s : Sieve} (h : Sound s) {index : ℕ} (hindex : index < ceiling) :
    index < (s.cover index).limit := by
  unfold cover
  split
  · have hpos := h.two_le
    have hlt : index < doubled s.limit index := lt_doubled (by omega)
    rw [limit_ofLimit]
    exact lt_of_lt_of_le (lt_min hlt hindex) (Nat.le_max_right _ _)
  · omega

theorem getD_struck {s : Sieve} (h : Sound s) {index : ℕ} (hindex : index < s.limit) :
    s.struck.getD index true = false ↔ index.Prime := by
  rw [h.struck_eq]
  apply getD_table
  rwa [clamp_of_bounds h.two_le h.le_ceiling]

def InRange (x : Int64) : Prop := 0 ≤ x ∧ x.toNatClampNeg < ceiling

theorem judge_of_inRange {x : Int64} (hx : InRange x) (s : Sieve) :
    s.judge x = (!(s.cover x.toNatClampNeg).struck.getD x.toNatClampNeg true,
      s.cover x.toNatClampNeg) :=
  if_pos hx

theorem judge_of_not_inRange {x : Int64} (hx : ¬ InRange x) (s : Sieve) :
    s.judge x = (Trial.accepts x, s) :=
  if_neg hx

theorem judge_sound {s : Sieve} (h : Sound s) (x : Int64) : Sound (s.judge x).2 := by
  by_cases hx : InRange x
  · rw [judge_of_inRange hx]
    exact cover_sound h _
  · rw [judge_of_not_inRange hx]
    exact h

theorem judge_eq_accepts {s : Sieve} (h : Sound s) (x : Int64) :
    (s.judge x).1 = Trial.accepts x := by
  by_cases hx : InRange x
  · have hprime := getD_struck (cover_sound h x.toNatClampNeg) (lt_limit_cover h hx.2)
    rw [judge_of_inRange hx, Bool.eq_iff_iff, Trial.accepts_iff_prime, ← hprime,
      Bool.not_eq_true']
  · rw [judge_of_not_inRange hx]

theorem answers_eq_accepts {s : Sieve} (h : Sound s) (xs : List Int64) :
    answers s xs = xs.map Trial.accepts := by
  induction xs generalizing s with
  | nil => rfl
  | cons x xs ih =>
    have hx : (Criterion.judge s x).1 = Trial.accepts x := judge_eq_accepts h x
    have hs : Sound (Criterion.judge s x).2 := judge_sound h x
    rw [answers, List.map_cons, hx, ih hs]

/-- A sieve that starts with any limit answers any candidates, in any order and however often
each is repeated, as trial division does. -/
theorem answers_ofLimit (limit : ℕ) (xs : List Int64) :
    answers (ofLimit limit) xs = xs.map Trial.accepts :=
  answers_eq_accepts (ofLimit_sound limit) xs

end PrimeStream.Sieve
