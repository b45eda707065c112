import PrimeStream.Proofs.SinkListing

/-!
# Listings through a buffer

A buffer in front of a sink with counted room delays what is put on it, but changes neither the
bytes nor their order. When a drain fails, the sink has kept the bytes that fit, and whatever was
still to come would not have fitted either. So a listing that is made through a buffer and flushed
at its end comes to what putting all its lines on the sink at once comes to.
-/

set_option autoImplicit false

namespace PrimeStream

open Output (putEach)

namespace Buffered

open Sink (Accepted Puts)

/-- A buffer holds some bytes for a sink that has accepted the first of them; the others are
pending. -/
def Holds (s : Sink) (bytes : ByteArray) (b : Buffered) : Prop :=
  ∃ sent, Puts s sent (none, b.sink) ∧ sent ++ b.pending = bytes

/-- What putting some bytes through a buffer comes to: it holds them all, or a drain has failed
and the sink has kept as many as fit. -/
def Passes (s : Sink) (bytes : ByteArray) : Option Fault × Buffered → Prop
  | (none, b) => Holds s bytes b
  | (some fault, b) => Puts s bytes (some fault, b.sink)

theorem holds_start (s : Sink) : Holds s .empty { sink := s } :=
  ⟨.empty, Sink.puts_empty (Accepted.refl s), rfl⟩

theorem pending_drain (b : Buffered) : b.drain.2.pending = .empty := rfl

variable {s : Sink} {bytes : ByteArray} {b : Buffered}

theorem Holds.drain (h : Holds s bytes b) (hs : s.room.Counted) :
    Puts s bytes (b.drain.1, b.drain.2.sink) := by
  obtain ⟨sent, hsent, rfl⟩ := h
  exact hsent.append hs (Sink.put_puts (hsent.accepted_of_none.counted hs) b.pending)

theorem Holds.put (h : Holds s bytes b) (hs : s.room.Counted) (piece : ByteArray) :
    Passes s (bytes ++ piece) (b.put piece) := by
  unfold Buffered.put
  split
  · -- there is space for the piece, and nothing is sent
    obtain ⟨sent, hsent, rfl⟩ := h
    exact ⟨sent, hsent, ByteArray.append_assoc.symm⟩
  · have hdrain := h.drain hs
    have hpending := b.pending_drain
    rcases hb : b.drain with ⟨_ | fault, t⟩
    · rw [hb] at hdrain hpending
      dsimp only at hdrain hpending ⊢
      split
      · exact ⟨bytes, hdrain, rfl⟩
      · -- the piece is larger than the buffer and is put on the sink itself
        have hputs := hdrain.append hs
          (Sink.put_puts (hdrain.accepted_of_none.counted hs) piece)
        rcases hput : t.sink.put piece with ⟨_ | fault, u⟩
        · rw [hput] at hputs
          refine ⟨bytes ++ piece, hputs, ?_⟩
          rw [hpending, ByteArray.append_empty]
        · rwa [hput] at hputs
    · rw [hb] at hdrain
      exact hdrain.append_of_some hs piece

theorem Holds.putEach (h : Holds s bytes b) (hs : s.room.Counted) (xs : List Int64) :
    Passes s (bytes ++ lines xs) (putEach b xs) := by
  induction xs generalizing bytes b with
  | nil =>
    rw [lines, ByteArray.append_empty]
    exact h
  | cons x xs ih =>
    have hline : Passes s (bytes ++ (Entry.mk x).line) (Output.put b (Entry.mk x).line) :=
      h.put hs _
    rw [Output.putEach, lines, ← ByteArray.append_assoc]
    rcases hput : Output.put b (Entry.mk x).line with ⟨_ | fault, t⟩
    · rw [hput] at hline
      exact ih hline
    · rw [hput] at hline
      exact hline.append_of_some hs _

theorem flush_eq (b : Buffered) :
    b.flush.1 = b.drain.1 ∧ b.flush.2.sink.written = b.drain.2.sink.written := by
  unfold Buffered.flush
  rcases b.drain with ⟨_ | fault, t⟩
  · exact ⟨rfl, rfl⟩
  · exact ⟨rfl, rfl⟩

theorem Holds.flush (h : Holds s bytes b) (hs : s.room.Counted) :
    b.flush.1 = (if s.room.fit bytes = bytes.size then none else some s.fault) ∧
      b.flush.2.sink.written = s.written ++ bytes.extract 0 (s.room.fit bytes) := by
  have hdrain := h.drain hs
  obtain ⟨hanswer, hwritten⟩ := b.flush_eq
  rw [hanswer, hwritten]
  exact ⟨hdrain.answer, hdrain.accepted.written⟩

end Buffered

end PrimeStream
