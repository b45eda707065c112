import Mathlib.Algebra.Group.Nat.Defs
import PrimeStream.Criterion

/-!
# Judgements in turn

A criterion that judges candidates one after the other gives an answer for each, and leaves the
criterion that judges the next one. What it accepts of some candidates and then of some more is
what it accepts of them together, and a record of the questions changes no answer.
-/

set_option autoImplicit false

namespace PrimeStream

namespace Criterion

variable {σ : Type} [Criterion σ]

def answers (s : σ) : List Int64 → List Bool
  | [] => []
  | x :: xs => (judge s x).1 :: answers (judge s x).2 xs

def after (s : σ) : List Int64 → σ
  | [] => s
  | x :: xs => after (judge s x).2 xs

theorem after_append (s : σ) (xs ys : List Int64) :
    after s (xs ++ ys) = after (after s xs) ys := by
  induction xs generalizing s with
  | nil => rfl
  | cons x xs ih => exact ih _

theorem selectOnto_cons (kept : List Int64) (s : σ) (x : Int64) (xs : List Int64) :
    selectOnto kept s (x :: xs) =
      selectOnto (if (judge s x).1 then x :: kept else kept) (judge s x).2 xs := by
  rw [selectOnto]
  split <;> simp_all

theorem selectOnto_eq (kept : List Int64) (s : σ) (xs : List Int64) :
    selectOnto kept s xs = (kept.reverse ++ (select s xs).1, after s xs) := by
  unfold select
  induction xs generalizing kept s with
  | nil => simp [selectOnto, after]
  | cons x xs ih =>
    rw [selectOnto_cons, selectOnto_cons, ih, ih (if (judge s x).1 then [x] else [])]
    by_cases hx : (judge s x).1 <;> simp [hx, after]

theorem select_cons (s : σ) (x : Int64) (xs : List Int64) :
    (select s (x :: xs)).1 =
      (if (judge s x).1 then [x] else []) ++ (select (judge s x).2 xs).1 := by
  rw [select, selectOnto_cons, selectOnto_eq]
  by_cases hx : (judge s x).1 <;> simp [hx]

@[simp] theorem select_nil (s : σ) : (select s []).1 = [] := rfl

theorem select_append (s : σ) (xs ys : List Int64) :
    (select s (xs ++ ys)).1 = (select s xs).1 ++ (select (after s xs) ys).1 := by
  induction xs generalizing s with
  | nil => rfl
  | cons x xs ih =>
    rw [List.cons_append, select_cons, select_cons, ih, List.append_assoc]
    rfl

theorem select_sublist (s : σ) (xs : List Int64) : (select s xs).1.Sublist xs := by
  induction xs generalizing s with
  | nil => exact List.Sublist.refl _
  | cons x xs ih =>
    rw [select_cons]
    by_cases hx : (judge s x).1
    · simpa [hx] using ih _
    · simpa [hx] using (ih _).cons x

end Criterion

namespace Recorded

open Criterion (judge after select)

variable {σ : Type} [Criterion σ]

theorem judge_eq (r : Recorded σ) (x : Int64) :
    judge r x = ((judge r.criterion x).1, ⟨(judge r.criterion x).2, x :: r.asked⟩) := rfl

theorem after_eq (r : Recorded σ) (xs : List Int64) :
    after r xs = ⟨after r.criterion xs, xs.reverse ++ r.asked⟩ := by
  induction xs generalizing r with
  | nil => rfl
  | cons x xs ih =>
    rw [after, ih, judge_eq]
    simp [after]

theorem select_eq (r : Recorded σ) (xs : List Int64) :
    (select r xs).1 = (select r.criterion xs).1 := by
  induction xs generalizing r with
  | nil => rfl
  | cons x xs ih => rw [Criterion.select_cons, Criterion.select_cons, ih, judge_eq]

end Recorded

namespace Candidate

/-- The first `k` candidates, which are the words from two on. -/
def firsts (k : ℕ) : List Int64 := (List.range' 2 k).map Int64.ofNat

def upTo (v : Int64) : List Int64 := firsts (v.toNatClampNeg - 1)

theorem firsts_succ (k : ℕ) : firsts (k + 1) = firsts k ++ [Int64.ofNat (k + 2)] := by
  simp [firsts, List.range'_1_concat, Nat.add_comm]

@[simp] theorem length_firsts (k : ℕ) : (firsts k).length = k := by
  simp [firsts]

theorem upTo_word {k : ℕ} (hk : k + 2 < 2 ^ 63) :
    upTo (Int64.ofNat (k + 2)) = firsts (k + 1) := by
  rw [upTo, Int64.toNatClampNeg_ofNat_of_lt hk]
  rfl

end Candidate

end PrimeStream
