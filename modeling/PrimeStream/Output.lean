import PrimeStream.Sink

/-!
# Outputs

An output takes a piece of text whole, or fails with a fault after some of its bytes. A sink is
an output, and so is a buffer that collects pieces and hands them to its sink in blocks.
-/

set_option autoImplicit false

namespace PrimeStream

class Output (ω : Type) where
  put : ω → ByteArray → Option Fault × ω

instance : Output Sink := ⟨Sink.put⟩

structure Buffered where
  sink : Sink
  pending : ByteArray := .empty

namespace Buffered

def capacity : Nat := 8192

/-- Hands the pending bytes to the sink. What the sink refuses is lost. -/
def drain (b : Buffered) : Option Fault × Buffered :=
  let (fault, sink) := b.sink.put b.pending
  (fault, ⟨sink, .empty⟩)

/-- Keeps a piece that the buffer has space for, and else drains the buffer first. -/
def put (b : Buffered) (piece : ByteArray) : Option Fault × Buffered :=
  if b.pending.size + piece.size ≤ capacity then
    (none, { b with pending := b.pending ++ piece })
  else
    match b.drain with
    | (some fault, b) => (some fault, b)
    | (none, b) =>
      if piece.size ≤ capacity then (none, { b with pending := piece })
      else
        let (fault, sink) := b.sink.put piece
        (fault, { b with sink })

def flush (b : Buffered) : Option Fault × Buffered :=
  match b.drain with
  | (some fault, b) => (some fault, b)
  | (none, b) => (none, { b with sink := b.sink.flush })

end Buffered

instance : Output Buffered := ⟨Buffered.put⟩

end PrimeStream
