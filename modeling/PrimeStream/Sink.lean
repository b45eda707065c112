import PrimeStream.Fault

/-!
# Sinks with limited room

A sink keeps the bytes that it accepts. It has room for a number of bytes, or until a number of
lines have ended, or for everything, and refuses with one fixed fault whatever comes after that.
One call may accept only the first bytes of what it is offered, or be interrupted and accept
nothing. Putting a piece offers what is left of it until all is accepted or the sink refuses, so
neither the size of the takes nor the interruptions can be seen in what a sink with room for a
number of bytes holds at the end.

A pipe whose reader leaves after some lines has room until those lines have ended. The take in
which the last of them ends is accepted whole, and only the next one finds the reader gone, so a
pipe may hold more than its reader reads, the `firstLines` of what it holds.
-/

set_option autoImplicit false

namespace PrimeStream

def newline : UInt8 := 10

/-- Where the first `n` lines from a place on end. The last line need not have a newline. -/
def lineEnd (bytes : ByteArray) (n i : Nat) : Nat :=
  if h : 0 < n ∧ i < bytes.size then
    lineEnd bytes (if bytes.get i h.2 = newline then n - 1 else n) (i + 1)
  else i
termination_by bytes.size - i

def firstLines (n : Nat) (bytes : ByteArray) : ByteArray := bytes.extract 0 (lineEnd bytes n 0)

/-- What a sink still has room for: everything, some bytes, or whatever comes until some lines
have ended. -/
inductive Room where
  | boundless
  | bytes (count : Nat)
  | lines (count : Nat)
  deriving DecidableEq, Repr

namespace Room

def fit : Room → ByteArray → Nat
  | .boundless, piece => piece.size
  | .bytes n, piece => min n piece.size
  | .lines 0, _ => 0
  | .lines (_ + 1), piece => piece.size

def after : Room → ByteArray → Room
  | .boundless, _ => .boundless
  | .bytes n, taken => .bytes (n - taken.size)
  | .lines n, taken => .lines (n - taken.data.toList.count newline)

theorem fit_le (r : Room) (piece : ByteArray) : r.fit piece ≤ piece.size := by
  match r with
  | .boundless => exact Nat.le_refl _
  | .bytes _ => exact Nat.min_le_right _ _
  | .lines 0 => exact Nat.zero_le _
  | .lines (_ + 1) => exact Nat.le_refl _

end Room

/-- The pace of a sink. Before its `t`-th take it answers `interruptions t` calls with an
interruption, and in that take it accepts at most `quota t` bytes, but always one. -/
structure Pace where
  interruptions : Nat → Nat
  quota : Nat → Option Nat

namespace Pace

def free : Pace := ⟨fun _ => 0, fun _ => none⟩

/-- At most `chunk` bytes in each take, and an interruption at every `every`-th call: between two
interruptions there is one take less than that. -/
def regular (chunk every : Option Nat) : Pace where
  interruptions t :=
    match every with
    | none => 0
    | some k => if 0 < t ∧ t % (k - 1) = 0 then 1 else 0
  quota _ := chunk

def ahead (p : Pace) (t : Nat) : Nat → Nat
  | 0 => 0
  | n + 1 => p.interruptions t + p.ahead (t + 1) n

theorem ahead_mono (p : Pace) (t : Nat) {m n : Nat} (h : m ≤ n) :
    p.ahead t m ≤ p.ahead t n := by
  induction m generalizing t n with
  | zero => exact Nat.zero_le _
  | succ m ih =>
    match n, h with
    | n + 1, h => exact Nat.add_le_add_left (ih _ (Nat.le_of_succ_le_succ h)) _

def share (p : Pace) (t n : Nat) : Nat :=
  match p.quota t with
  | none => n
  | some q => min n (max q 1)

theorem share_le (p : Pace) (t n : Nat) : p.share t n ≤ n := by
  unfold share
  split
  · exact Nat.le_refl n
  · exact Nat.min_le_left _ _

theorem share_pos (p : Pace) (t : Nat) {n : Nat} (hn : 0 < n) : 0 < p.share t n := by
  unfold share
  split <;> omega

end Pace

structure Sink where
  written : ByteArray := .empty
  room : Room := .boundless
  fault : Fault := .stalled
  pace : Pace := .free
  takes : Nat := 0
  /-- The interruptions that come before the next take. -/
  waiting : Nat := pace.interruptions 0
  flushes : Nat := 0

inductive Reply where
  | interrupted
  | took (count : Nat)
  | refused
  deriving DecidableEq, Repr

namespace Sink

def offer (s : Sink) (piece : ByteArray) : Reply × Sink :=
  match s.waiting with
  | n + 1 => (.interrupted, { s with waiting := n })
  | 0 =>
    let count := s.pace.share s.takes (s.room.fit piece)
    if count = 0 then (.refused, s)
    else
      let taken := piece.extract 0 count
      (.took count, { s with
        written := s.written ++ taken
        room := s.room.after taken
        takes := s.takes + 1
        waiting := s.pace.interruptions (s.takes + 1) })

/-- The calls that putting a piece makes at most, when each take accepts a single byte. -/
def patience (s : Sink) (piece : ByteArray) : Nat :=
  s.waiting + piece.size + s.pace.ahead (s.takes + 1) piece.size

theorem offer_interrupted {s t : Sink} {piece : ByteArray}
    (h : s.offer piece = (.interrupted, t)) : t.patience piece < s.patience piece := by
  unfold offer at h
  split at h
  · rename_i hw
    cases h
    simp only [patience, hw]
    omega
  · dsimp only at h
    split at h <;> cases h

theorem offer_took {s t : Sink} {piece : ByteArray} {count : Nat}
    (h : s.offer piece = (.took count, t)) (hp : 0 < piece.size) :
    t.patience (piece.extract count piece.size) < s.patience piece := by
  unfold offer at h
  split at h
  · cases h
  · dsimp only at h
    split at h
    · cases h
    · rename_i hw hc
      have hle := Nat.le_trans (s.pace.share_le s.takes _) (s.room.fit_le piece)
      cases h
      have hsize : (piece.extract (s.pace.share s.takes (s.room.fit piece)) piece.size).size + 1
          ≤ piece.size := by
        simp only [ByteArray.size_extract]
        omega
      have hahead := s.pace.ahead_mono (s.takes + 1) hsize
      simp only [Pace.ahead] at hahead
      simp only [patience, hw]
      omega

def put (s : Sink) (piece : ByteArray) : Option Fault × Sink :=
  if _ : 0 < piece.size then
    match _ : s.offer piece with
    | (.interrupted, t) => t.put piece
    | (.took count, t) => t.put (piece.extract count piece.size)
    | (.refused, t) => (some t.fault, t)
  else (none, s)
termination_by s.patience piece
decreasing_by
  · exact offer_interrupted ‹_›
  · exact offer_took ‹_› ‹_›

def flush (s : Sink) : Sink := { s with flushes := s.flushes + 1 }

end Sink

end PrimeStream
