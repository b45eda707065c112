import PrimeStream.Numeral

/-!
# Entries of a listing

An entry is one number that a listing has accepted. It is shown as its bare numeral, and a
listing holds one entry on each line. Entries are ordered by value.
-/

set_option autoImplicit false

namespace PrimeStream

structure Entry where
  value : Int64
  deriving DecidableEq, Repr

namespace Entry

instance : Ord Entry := ⟨fun a b => compare a.value b.value⟩
instance : LE Entry := ⟨fun a b => a.value ≤ b.value⟩
instance : LT Entry := ⟨fun a b => a.value < b.value⟩
instance (a b : Entry) : Decidable (a ≤ b) := inferInstanceAs (Decidable (a.value ≤ b.value))
instance (a b : Entry) : Decidable (a < b) := inferInstanceAs (Decidable (a.value < b.value))

def text (e : Entry) : String := numeral e.value

/-- The entry as a log names it. -/
def label (e : Entry) : String := "Prime(" ++ e.text ++ ")"

def tallLabel (e : Entry) : String := "Prime(\n    " ++ e.text ++ ",\n)"

def line (e : Entry) : ByteArray := (e.text ++ "\n").toUTF8

def sorted (es : List Entry) : List Entry := es.mergeSort (fun a b => decide (a ≤ b))

def greatest? : List Entry → Option Entry
  | [] => none
  | e :: es => some (es.foldl (fun m x => if m ≤ x then x else m) e)

end Entry

end PrimeStream
