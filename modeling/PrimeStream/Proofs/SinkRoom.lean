import Mathlib.Data.Nat.Notation
import PrimeStream.Output

/-!
# What a sink with counted room holds

Where the room is boundless or a number of bytes, a sink that is put a piece accepts as many of
its first bytes as fit, and fails with its fault when some bytes are left. Neither the size of the
takes nor the interruptions between them play a part in this.
-/

set_option autoImplicit false

namespace PrimeStream

theorem extract_append_of_le {a : ByteArray} {n : ℕ} (h : n ≤ a.size) (b : ByteArray) :
    (a ++ b).extract 0 n = a.extract 0 n := by
  rw [ByteArray.extract_append, Nat.zero_sub, Nat.sub_eq_zero_of_le h, ByteArray.extract_same,
    ByteArray.append_empty]

theorem extract_append_of_ge {a : ByteArray} {n : ℕ} (h : a.size ≤ n) (b : ByteArray) :
    (a ++ b).extract 0 n = a ++ b.extract 0 (n - a.size) := by
  have hall := ByteArray.extract_zero_max_size (a := a) (i := n)
  rw [Nat.max_eq_left h] at hall
  rw [ByteArray.extract_append, Nat.zero_sub, hall]

namespace Room

def Counted : Room → Prop
  | .lines _ => False
  | _ => True

theorem counted_boundless {r : Room} (h : r = .boundless) : r.Counted := by
  rw [h]
  trivial

theorem counted_bytes {r : Room} {n : ℕ} (h : r = .bytes n) : r.Counted := by
  rw [h]
  trivial

theorem after_empty (r : Room) : r.after .empty = r := by
  cases r <;> simp [after]

theorem after_after (r : Room) (a b : ByteArray) : (r.after a).after b = r.after (a ++ b) := by
  cases r with
  | boundless => rfl
  | bytes n => simp [after, Nat.sub_sub]
  | lines n => simp [after, Nat.sub_sub]

theorem Counted.after {r : Room} (h : r.Counted) (bytes : ByteArray) :
    (r.after bytes).Counted := by
  cases r with
  | boundless => trivial
  | bytes n => trivial
  | lines n => exact h.elim

theorem fit_append {r : Room} (h : r.Counted) {a : ByteArray} (ha : r.fit a = a.size)
    (b : ByteArray) : r.fit (a ++ b) = a.size + (r.after a).fit b := by
  cases r with
  | boundless => simp [Room.after, fit]
  | bytes n =>
    simp only [fit] at ha
    simp only [Room.after, fit, ByteArray.size_append]
    omega
  | lines n => exact h.elim

theorem fit_append_of_lt {r : Room} (h : r.Counted) {a : ByteArray} (ha : r.fit a < a.size)
    (b : ByteArray) : r.fit (a ++ b) = r.fit a := by
  cases r with
  | boundless => exact absurd ha (Nat.lt_irrefl _)
  | bytes n =>
    simp only [fit] at ha
    simp only [fit, ByteArray.size_append]
    omega
  | lines n => exact h.elim

theorem size_le_fit_iff {r : Room} (h : r.Counted) (a b : ByteArray) :
    a.size ≤ r.fit (a ++ b) ↔ r.fit a = a.size := by
  rcases Nat.lt_or_eq_of_le (r.fit_le a) with hlt | heq
  · rw [fit_append_of_lt h hlt]
    omega
  · rw [fit_append h heq]
    omega

end Room

namespace Sink

structure Accepted (s : Sink) (bytes : ByteArray) (t : Sink) : Prop where
  written : t.written = s.written ++ bytes
  room : t.room = s.room.after bytes
  fault : t.fault = s.fault
  flushes : t.flushes = s.flushes

theorem Accepted.refl (s : Sink) : Accepted s .empty s :=
  ⟨ByteArray.append_empty.symm, s.room.after_empty.symm, rfl, rfl⟩

theorem Accepted.trans {s t u : Sink} {a b : ByteArray} (h : Accepted s a t)
    (k : Accepted t b u) : Accepted s (a ++ b) u where
  written := by rw [k.written, h.written, ByteArray.append_assoc]
  room := by rw [k.room, h.room, Room.after_after]
  fault := k.fault.trans h.fault
  flushes := k.flushes.trans h.flushes

theorem Accepted.counted {s t : Sink} {bytes : ByteArray} (h : Accepted s bytes t)
    (hs : s.room.Counted) : t.room.Counted := by
  rw [h.room]
  exact hs.after bytes

theorem accepted_of_interrupted {s t : Sink} {piece : ByteArray}
    (h : s.offer piece = (.interrupted, t)) : Accepted s .empty t := by
  unfold offer at h
  split at h
  · cases h
    exact ⟨ByteArray.append_empty.symm, s.room.after_empty.symm, rfl, rfl⟩
  · dsimp only at h
    split at h <;> cases h

theorem accepted_of_took {s t : Sink} {piece : ByteArray} {count : ℕ}
    (h : s.offer piece = (.took count, t)) :
    count ≤ s.room.fit piece ∧ Accepted s (piece.extract 0 count) t := by
  unfold offer at h
  split at h
  · cases h
  · dsimp only at h
    split at h
    · cases h
    · cases h
      exact ⟨s.pace.share_le _ _, ⟨rfl, rfl, rfl, rfl⟩⟩

theorem fit_eq_zero_of_refused {s t : Sink} {piece : ByteArray}
    (h : s.offer piece = (.refused, t)) : s.room.fit piece = 0 ∧ t = s := by
  unfold offer at h
  split at h
  · cases h
  · dsimp only at h
    split at h
    · rename_i hshare
      cases h
      constructor
      · rcases Nat.eq_zero_or_pos (s.room.fit piece) with hzero | hfit
        · exact hzero
        · have := s.pace.share_pos s.takes hfit
          omega
      · rfl
    · cases h

/-- What putting some bytes on a sink comes to: it keeps the bytes that fit, and fails when not
all of them do. -/
structure Puts (s : Sink) (bytes : ByteArray) (r : Option Fault × Sink) : Prop where
  answer : r.1 = if s.room.fit bytes = bytes.size then none else some s.fault
  accepted : Accepted s (bytes.extract 0 (s.room.fit bytes)) r.2

theorem puts_of_accepted {s t : Sink} {bytes : ByteArray} (hfit : s.room.fit bytes = bytes.size)
    (ht : Accepted s bytes t) : Puts s bytes (none, t) where
  answer := (if_pos hfit).symm
  accepted := by rwa [hfit, ByteArray.extract_zero_size]

theorem puts_empty {s t : Sink} (ht : Accepted s .empty t) : Puts s .empty (none, t) :=
  puts_of_accepted (Nat.le_antisymm (s.room.fit_le .empty) (Nat.zero_le _)) ht

theorem Puts.fit_of_none {s t : Sink} {bytes : ByteArray} (h : Puts s bytes (none, t)) :
    s.room.fit bytes = bytes.size := by
  by_cases hfit : s.room.fit bytes = bytes.size
  · exact hfit
  · have hanswer := h.answer
    rw [if_neg hfit] at hanswer
    cases hanswer

theorem Puts.accepted_of_none {s t : Sink} {bytes : ByteArray} (h : Puts s bytes (none, t)) :
    Accepted s bytes t := by
  have ht := h.accepted
  rwa [h.fit_of_none, ByteArray.extract_zero_size] at ht

theorem Puts.fault_of_some {s t : Sink} {bytes : ByteArray} {fault : Fault}
    (h : Puts s bytes (some fault, t)) : fault = s.fault ∧ s.room.fit bytes < bytes.size := by
  have hle := s.room.fit_le bytes
  have hanswer := h.answer
  by_cases hfit : s.room.fit bytes = bytes.size
  · rw [if_pos hfit] at hanswer
    cases hanswer
  · rw [if_neg hfit] at hanswer
    cases hanswer
    exact ⟨rfl, by omega⟩

theorem Puts.append {s t : Sink} {a b : ByteArray} {r : Option Fault × Sink}
    (hs : s.room.Counted) (ha : Puts s a (none, t)) (hb : Puts t b r) : Puts s (a ++ b) r := by
  have hfit := Room.fit_append hs ha.fit_of_none b
  have ht := ha.accepted_of_none
  have hanswer := hb.answer
  have hr := hb.accepted
  rw [ht.room, ht.fault] at hanswer
  rw [ht.room] at hr
  constructor
  · rw [hanswer, hfit, ByteArray.size_append]
    by_cases hall : (s.room.after a).fit b = b.size
    · rw [if_pos hall, if_pos (by omega)]
    · rw [if_neg hall, if_neg (by omega)]
  · rw [hfit, extract_append_of_ge (Nat.le_add_right _ _), Nat.add_sub_cancel_left]
    exact ht.trans hr

theorem Puts.append_of_some {s t : Sink} {a : ByteArray} {fault : Fault} (hs : s.room.Counted)
    (ha : Puts s a (some fault, t)) (b : ByteArray) : Puts s (a ++ b) (some fault, t) := by
  obtain ⟨rfl, hlt⟩ := ha.fault_of_some
  have hfit := Room.fit_append_of_lt hs hlt b
  constructor
  · rw [hfit, ByteArray.size_append, if_neg (by omega)]
  · rw [hfit, extract_append_of_le (Nat.le_of_lt hlt)]
    exact ha.accepted

/-- However a sink paces its takes, a piece that is put on it is kept as far as it fits. -/
theorem put_puts {s : Sink} (h : s.room.Counted) (piece : ByteArray) :
    Puts s piece (s.put piece) := by
  fun_induction put s piece with
  | case1 s piece hpos t hoffer ih =>
    have ht := accepted_of_interrupted hoffer
    have hputs := (puts_empty ht).append h (ih (ht.counted h))
    rwa [ByteArray.empty_append] at hputs
  | case2 s piece hpos count t hoffer ih =>
    obtain ⟨hcount, ht⟩ := accepted_of_took hoffer
    have hle := Nat.le_trans hcount (s.room.fit_le piece)
    have hsplit : piece.extract 0 count ++ piece.extract count piece.size = piece := by
      rw [← ByteArray.extract_eq_extract_append_extract count (Nat.zero_le _) hle,
        ByteArray.extract_zero_size]
    have hsize : (piece.extract 0 count).size = count := by
      rw [ByteArray.size_extract]
      omega
    have hfit : s.room.fit (piece.extract 0 count) = (piece.extract 0 count).size := by
      rw [← Room.size_le_fit_iff h _ (piece.extract count piece.size), hsplit, hsize]
      exact hcount
    have hputs := (puts_of_accepted hfit ht).append h (ih (ht.counted h))
    rwa [hsplit] at hputs
  | case3 s piece hpos t hoffer =>
    obtain ⟨hfit, rfl⟩ := fit_eq_zero_of_refused hoffer
    constructor
    · rw [hfit, if_neg (by omega)]
    · rw [hfit, ByteArray.extract_same]
      exact Accepted.refl t
  | case4 s piece hpos =>
    have hempty : piece = .empty := ByteArray.size_eq_zero_iff.mp (by omega)
    rw [hempty]
    exact puts_empty (Accepted.refl s)

/-- Two pieces may as well be put one after the other. -/
theorem put_put_puts {s : Sink} (h : s.room.Counted) (a b : ByteArray) :
    Puts s (a ++ b)
      (match s.put a with
        | (none, t) => t.put b
        | (some fault, t) => (some fault, t)) := by
  have ha := put_puts h a
  rcases hput : s.put a with ⟨_ | fault, t⟩
  · rw [hput] at ha
    exact ha.append h (put_puts (ha.accepted_of_none.counted h) b)
  · rw [hput] at ha
    exact ha.append_of_some h b

end Sink

end PrimeStream
