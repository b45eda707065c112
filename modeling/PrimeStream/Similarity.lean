/-!
# Similar words

Two words are as similar as the characters that they share at about the same places: the shares
of either word that are paired, and the share of the pairs that stand in the same order, are
averaged. Equal words have the measure one, and words that share nothing have zero.
-/

set_option autoImplicit false

namespace PrimeStream.Similarity

def firstFree (c : Char) (low high : Nat) (taken : List Nat) (j : Nat) : List Char → Option Nat
  | [] => none
  | x :: xs =>
    if low ≤ j ∧ j ≤ high ∧ x = c ∧ j ∉ taken then some j
    else firstFree c low high taken (j + 1) xs

/-- Pairs characters from place `i` on with places of `b` that are at most `reach` away. The
paired characters are given in their order, and then the places. -/
def pairs (reach : Nat) (b : List Char) (i : Nat) (taken : List Nat) :
    List Char → List Char × List Nat
  | [] => ([], taken)
  | c :: cs =>
    match firstFree c (i - reach) (i + reach) taken 0 b with
    | some j =>
      let (paired, taken) := pairs reach b (i + 1) (j :: taken) cs
      (c :: paired, taken)
    | none => pairs reach b (i + 1) taken cs

def measure (a b : List Char) : Float :=
  if a.isEmpty && b.isEmpty then 1.0
  else
    let reach := max a.length b.length / 2 - 1
    let (left, taken) := pairs reach b 0 [] a
    let right := (b.zipIdx.filter (·.2 ∈ taken)).map (·.1)
    let swaps := ((left.zip right).filter fun (x, y) => x ≠ y).length / 2
    if left.isEmpty then 0.0
    else
      let share (part whole : Nat) : Float := part.toFloat / whole.toFloat
      let m := left.length
      (share m a.length + share m b.length + share (m - swaps) m) / 3.0

def threshold : Float := 0.7

/-- The name that is most similar to a word and worth a hint, of equally similar ones the last. -/
def closest? {α : Type} (name : α → String) (xs : List α) (word : List Char) : Option α :=
  let better (best : Option (Float × α)) (x : α) : Option (Float × α) :=
    let m := measure word (name x).toList
    match best with
    | none => if m > threshold then some (m, x) else none
    | some (k, y) => if m > threshold && !(k > m) then some (m, x) else some (k, y)
  (xs.foldl better none).map (·.2)

end PrimeStream.Similarity
