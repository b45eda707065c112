import Mathlib.Data.Int.Notation
import Mathlib.Data.List.Basic
import PrimeStream.Numeral

/-!
# Reading numerals

A numeral is read from its bytes: there may be a sign, then come decimal digits, and together they
must stand for a word. The numeral of a word is read as that word, from the least one to the
greatest, and it is the shortest one: it has no leading zero, and a sign only for a negative word.
-/

set_option autoImplicit false

namespace PrimeStream.Numeral

def plus : UInt8 := 43

def minus : UInt8 := 45

def digitZero : UInt8 := 48

def IsDigit (b : UInt8) : Prop := 48 ≤ b.toNat ∧ b.toNat ≤ 57

instance (b : UInt8) : Decidable (IsDigit b) := inferInstanceAs (Decidable (_ ∧ _))

def value (ds : List UInt8) : ℕ := ds.foldl (fun n b => 10 * n + (b.toNat - 48)) 0

def magnitude? (ds : List UInt8) : Option ℕ :=
  if ds ≠ [] ∧ ds.all (IsDigit ·) then some (value ds) else none

def word? (i : ℤ) : Option Int64 :=
  if Int64.minValue.toInt ≤ i ∧ i ≤ Int64.maxValue.toInt then some (Int64.ofInt i) else none

/-- The word that a numeral stands for, with a sign or without one. -/
def read? : List UInt8 → Option Int64
  | [] => none
  | b :: ds =>
    if b = minus then (magnitude? ds).bind fun n => word? (-n)
    else if b = plus then (magnitude? ds).bind fun n => word? n
    else (magnitude? (b :: ds)).bind fun n => word? n

/-- A shortest numeral: digits only, and no zero before others. -/
structure Canonical (ds : List UInt8) : Prop where
  ne_nil : ds ≠ []
  digits : ∀ b ∈ ds, IsDigit b
  no_leading_zero : ds.head? = some digitZero → ds = [digitZero]

def bytes (s : String) : List UInt8 := s.toUTF8.data.toList

theorem bytes_append (s t : String) : bytes (s ++ t) = bytes s ++ bytes t := by
  simp [bytes, String.toByteArray_append]

def digitByte (k : ℕ) : UInt8 := UInt8.ofNat (48 + k)

theorem toNat_digitByte {k : ℕ} (hk : k < 10) : (digitByte k).toNat = 48 + k := by
  rw [digitByte, UInt8.toNat_ofNat', Nat.mod_eq_of_lt (by omega)]

theorem isDigit_digitByte {k : ℕ} (hk : k < 10) : IsDigit (digitByte k) := by
  unfold IsDigit
  rw [toNat_digitByte hk]
  omega

theorem digitByte_eq_zero_iff {k : ℕ} (hk : k < 10) : digitByte k = digitZero ↔ k = 0 := by
  rw [← UInt8.toNat_inj, toNat_digitByte hk]
  exact Nat.add_eq_left

theorem bytes_repr_of_lt : ∀ k < 10, bytes k.repr = [digitByte k] := by decide

theorem bytes_repr_digit {m k : ℕ} (hm : 0 < m) (hk : k < 10) :
    bytes (10 * m + k).repr = bytes m.repr ++ [digitByte k] := by
  rw [Nat.repr_eq_repr_append_repr (by omega), bytes_append, Nat.mul_add_div (by decide),
    Nat.mul_add_mod, Nat.div_eq_of_lt hk, Nat.mod_eq_of_lt hk, Nat.add_zero,
    bytes_repr_of_lt k hk]

theorem value_concat (ds : List UInt8) (b : UInt8) :
    value (ds ++ [b]) = 10 * value ds + (b.toNat - 48) := by
  simp [value]

theorem value_repr (n : ℕ) : value (bytes n.repr) = n := by
  induction n using Nat.base_induction 10 (by decide) with
  | single k hk =>
    rw [bytes_repr_of_lt k hk]
    simp [value, toNat_digitByte hk]
  | digit m k hk hm ih =>
    rw [bytes_repr_digit hm hk, value_concat, ih, toNat_digitByte hk, Nat.add_sub_cancel_left]

theorem isDigit_of_mem_repr (n : ℕ) : ∀ b ∈ bytes n.repr, IsDigit b := by
  induction n using Nat.base_induction 10 (by decide) with
  | single k hk =>
    rw [bytes_repr_of_lt k hk]
    simpa using isDigit_digitByte hk
  | digit m k hk hm ih =>
    intro b hb
    rw [bytes_repr_digit hm hk, List.mem_append, List.mem_singleton] at hb
    rcases hb with hb | rfl
    · exact ih b hb
    · exact isDigit_digitByte hk

theorem bytes_repr_ne_nil (n : ℕ) : bytes n.repr ≠ [] := by
  rcases Nat.lt_or_ge n 10 with hlt | hge
  · rw [bytes_repr_of_lt n hlt]
    exact List.cons_ne_nil _ _
  · have hdigit := bytes_repr_digit (Nat.div_pos hge (by decide)) (n.mod_lt (by decide))
    rw [Nat.div_add_mod] at hdigit
    rw [hdigit]
    exact List.append_ne_nil_of_right_ne_nil _ (List.cons_ne_nil _ _)

theorem eq_zero_of_head?_repr {n : ℕ} (h : (bytes n.repr).head? = some digitZero) : n = 0 := by
  induction n using Nat.base_induction 10 (by decide) with
  | single k hk =>
    rw [bytes_repr_of_lt k hk, List.head?_cons, Option.some_inj] at h
    exact (digitByte_eq_zero_iff hk).mp h
  | digit m k hk hm ih =>
    rw [bytes_repr_digit hm hk, List.head?_append_of_ne_nil _ (bytes_repr_ne_nil m)] at h
    have := ih h
    omega

theorem canonical_repr (n : ℕ) : Canonical (bytes n.repr) where
  ne_nil := bytes_repr_ne_nil n
  digits := isDigit_of_mem_repr n
  no_leading_zero h := by
    rw [eq_zero_of_head?_repr h]
    decide

theorem Canonical.magnitude?_eq {ds : List UInt8} (h : Canonical ds) :
    magnitude? ds = some (value ds) := by
  have hall : ds.all (IsDigit ·) := List.all_eq_true.mpr fun b hb => decide_eq_true (h.digits b hb)
  rw [magnitude?, if_pos ⟨h.ne_nil, hall⟩]

theorem magnitude?_repr (n : ℕ) : magnitude? (bytes n.repr) = some n := by
  rw [(canonical_repr n).magnitude?_eq, value_repr]

theorem word?_toInt (x : Int64) : word? x.toInt = some x := by
  have hmin := x.le_toInt
  have hmax := x.toInt_le
  rw [word?, if_pos ⟨by simpa using hmin, hmax⟩, Int64.ofInt_toInt]

theorem Canonical.read?_eq {ds : List UInt8} (h : Canonical ds) : read? ds = word? (value ds) := by
  cases ds with
  | nil => exact absurd rfl h.ne_nil
  | cons b ds =>
    have hb := h.digits b List.mem_cons_self
    have hminus : b ≠ minus := by
      rintro rfl
      exact absurd hb (by decide)
    have hplus : b ≠ plus := by
      rintro rfl
      exact absurd hb (by decide)
    rw [read?, if_neg hminus, if_neg hplus, h.magnitude?_eq]
    rfl

theorem bytes_numeral_of_nonneg {x : Int64} (hx : 0 ≤ x) :
    bytes (numeral x) = bytes x.toInt.natAbs.repr := by
  rw [numeral, if_neg (Int64.not_lt.mpr hx), digits]

theorem bytes_numeral_of_neg {x : Int64} (hx : x < 0) :
    bytes (numeral x) = minus :: bytes x.toInt.natAbs.repr := by
  rw [numeral, if_pos hx, digits, bytes_append]
  rfl

theorem canonical_numeral {x : Int64} (hx : 0 ≤ x) : Canonical (bytes (numeral x)) := by
  rw [bytes_numeral_of_nonneg hx]
  exact canonical_repr _

/-- The numeral of any word is read as that word. -/
theorem read?_numeral (x : Int64) : read? (bytes (numeral x)) = some x := by
  by_cases hx : x < 0
  · have hneg : -(x.toInt.natAbs : ℤ) = x.toInt := by
      rw [Int64.lt_iff_toInt_lt, Int64.toInt_zero] at hx
      omega
    rw [bytes_numeral_of_neg hx, read?, if_pos rfl, magnitude?_repr, Option.bind_some, hneg,
      word?_toInt]
  · have hnonneg := Int64.not_lt.mp hx
    have habs : (x.toInt.natAbs : ℤ) = x.toInt := by
      rw [Int64.le_iff_toInt_le, Int64.toInt_zero] at hnonneg
      omega
    rw [(canonical_numeral hnonneg).read?_eq, bytes_numeral_of_nonneg hnonneg, value_repr, habs,
      word?_toInt]

theorem isDigit_or_minus_of_mem {x : Int64} {b : UInt8} (hb : b ∈ bytes (numeral x)) :
    IsDigit b ∨ b = minus := by
  by_cases hx : x < 0
  · rw [bytes_numeral_of_neg hx, List.mem_cons] at hb
    rcases hb with rfl | hb
    · exact .inr rfl
    · exact .inl (isDigit_of_mem_repr _ b hb)
  · exact .inl ((canonical_numeral (Int64.not_lt.mp hx)).digits b hb)

example : read? (bytes (numeral Int64.minValue)) = some Int64.minValue := by decide +kernel

end PrimeStream.Numeral
