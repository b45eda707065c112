import PrimeStream.Listing

/-!
# Sessions

A session serves requests on one criterion and one sink, which each request leaves to the next.
It either makes a listing or judges a single candidate.
-/

set_option autoImplicit false

namespace PrimeStream

inductive Request where
  | list (n : Int64)
  | judge (candidate : Int64)
  deriving DecidableEq, Repr

/-- A listing is answered by its outcome, the bytes that it wrote, and the candidates that it
asked about, the last one first. -/
inductive Answer where
  | listed (outcome : Outcome) (text : ByteArray) (asked : List Int64)
  | judged (accepted : Bool)

structure Session (σ : Type) where
  criterion : σ
  sink : Sink

namespace Session

variable {σ : Type} [Criterion σ]

def serve (s : Session σ) : Request → Answer × Session σ
  | .list n =>
    let start := s.sink.written.size
    let criterion : Recorded σ := ⟨s.criterion, []⟩
    let run := Listing.run n { criterion, output := s.sink }
    let text := run.output.written.extract start run.output.written.size
    (.listed run.outcome text run.criterion.asked, ⟨run.criterion.criterion, run.output⟩)
  | .judge x =>
    let (accepted, criterion) := Criterion.judge s.criterion x
    (.judged accepted, { s with criterion })

def serveAll (s : Session σ) : List Request → List Answer × Session σ
  | [] => ([], s)
  | r :: rs =>
    let (answer, s) := s.serve r
    let (answers, s) := s.serveAll rs
    (answer :: answers, s)

end Session

end PrimeStream
