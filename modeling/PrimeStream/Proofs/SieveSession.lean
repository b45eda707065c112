import PrimeStream.Proofs.Agreement
import PrimeStream.Proofs.SieveGrowth
import PrimeStream.Session

/-!
# Sessions with a sieve

A session only sees the answers of its criterion, so sessions with criteria that agree serve every
request alike, also after a listing that its sink has cut short. A sieve in any of its states
agrees with trial division.
-/

set_option autoImplicit false

namespace PrimeStream

theorem Sieve.agreement_trial : Agreement fun (s : Sieve) (_ : Trial) => s.Sound where
  answer h x := judge_eq_accepts h x
  next h x := judge_sound h x

namespace Session

variable {σ τ : Type} {R : σ → τ → Prop}

structure Alike (R : σ → τ → Prop) (s : Session σ) (t : Session τ) : Prop where
  criterion : R s.criterion t.criterion
  sink : s.sink = t.sink

variable [Criterion σ] [Criterion τ]

theorem Alike.serve {s : Session σ} {t : Session τ} (hR : Agreement R) (h : Alike R s t)
    (r : Request) : (s.serve r).1 = (t.serve r).1 ∧ Alike R (s.serve r).2 (t.serve r).2 := by
  cases r with
  | list n =>
    have hstart : Listing.Alike (Recorded.Alike R)
        { criterion := ⟨s.criterion, []⟩, output := s.sink }
        { criterion := ⟨t.criterion, []⟩, output := t.sink } :=
      ⟨rfl, rfl, ⟨h.criterion, rfl⟩, h.sink⟩
    have hrun := hstart.run (Recorded.agreement hR) n
    constructor
    · simp only [Session.serve, hrun.outcome, hrun.output, hrun.criterion.asked]
      rw [h.sink]
    · exact ⟨hrun.criterion.criterion, hrun.output⟩
  | judge x =>
    constructor
    · exact congrArg Answer.judged (hR.answer h.criterion x)
    · exact ⟨hR.next h.criterion x, h.sink⟩

theorem Alike.serveAll {s : Session σ} {t : Session τ} (hR : Agreement R) (h : Alike R s t)
    (rs : List Request) :
    (s.serveAll rs).1 = (t.serveAll rs).1 ∧ Alike R (s.serveAll rs).2 (t.serveAll rs).2 := by
  induction rs generalizing s t with
  | nil => exact ⟨rfl, h⟩
  | cons r rs ih =>
    obtain ⟨hanswer, hserve⟩ := h.serve hR r
    obtain ⟨hanswers, hserveAll⟩ := ih hserve
    constructor
    · simp only [Session.serveAll, hanswer, hanswers]
    · exact hserveAll

theorem serve_after (s : Session σ) (r : Request) :
    ∃ xs, (s.serve r).2.criterion = Criterion.after s.criterion xs := by
  cases r with
  | list n =>
    obtain ⟨k, hk⟩ := Listing.exists_after n (⟨s.criterion, []⟩ : Recorded σ) s.sink
    use Candidate.firsts k
    rw [Session.serve, hk, Recorded.after_eq]
  | judge x => exact ⟨[x], rfl⟩

theorem serveAll_after (s : Session σ) (rs : List Request) :
    ∃ xs, (s.serveAll rs).2.criterion = Criterion.after s.criterion xs := by
  induction rs generalizing s with
  | nil => exact ⟨[], rfl⟩
  | cons r rs ih =>
    obtain ⟨xs, hxs⟩ := s.serve_after r
    obtain ⟨ys, hys⟩ := ih (s.serve r).2
    use xs ++ ys
    rw [Criterion.after_append, ← hxs]
    exact hys

theorem serveAll_recorded (c : σ) (sink : Sink) (rs : List Request) :
    (serveAll ⟨c, sink⟩ rs).2.criterion = Criterion.after c
      (serveAll ⟨(⟨c, []⟩ : Recorded σ), sink⟩ rs).2.criterion.asked.reverse := by
  have hstart : Alike (fun (r : Recorded σ) (c : σ) => r.criterion = c)
      ⟨⟨c, []⟩, sink⟩ ⟨c, sink⟩ := ⟨rfl, rfl⟩
  obtain ⟨-, hend⟩ := hstart.serveAll Recorded.agreement_criterion rs
  obtain ⟨xs, hxs⟩ := serveAll_after ⟨(⟨c, []⟩ : Recorded σ), sink⟩ rs
  rw [Recorded.after_eq, List.append_nil] at hxs
  rw [← hend.criterion, hxs, List.reverse_reverse]

/-- A sieve that starts with any limit serves any requests as trial division does: the same
outcomes, texts and questions of the listings, the same judgements in between, and the same bytes
on a sink of whatever room, pace and fault. -/
theorem serveAll_ofLimit (limit : ℕ) (sink : Sink) (rs : List Request) :
    (serveAll ⟨Sieve.ofLimit limit, sink⟩ rs).1 = (serveAll ⟨({} : Trial), sink⟩ rs).1 ∧
      (serveAll ⟨Sieve.ofLimit limit, sink⟩ rs).2.sink =
        (serveAll ⟨({} : Trial), sink⟩ rs).2.sink := by
  have hstart : Alike (fun (s : Sieve) (_ : Trial) => s.Sound)
      ⟨Sieve.ofLimit limit, sink⟩ ⟨({} : Trial), sink⟩ := ⟨Sieve.ofLimit_sound limit, rfl⟩
  obtain ⟨hanswers, hend⟩ := hstart.serveAll Sieve.agreement_trial rs
  exact ⟨hanswers, hend.sink⟩

end Session

end PrimeStream
