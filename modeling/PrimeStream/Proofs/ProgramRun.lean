import PrimeStream.Proofs.BufferedListing
import PrimeStream.Proofs.LimitedListing
import PrimeStream.Proofs.PrimeListing
import PrimeStream.Proofs.PrimeSupply
import PrimeStream.Proofs.SieveSession

/-!
# Runs of the program

A listing that the program makes always ends, with a tally or with a fault, and its report tells
which. Whatever the command line chooses, the program puts the same bytes on its output: the listing
that trial division makes on a sink with room for everything, as far as they fit. Its exit status is
that of the output as well. The settings only decide what else is told on the log.
-/

set_option autoImplicit false

namespace PrimeStream.Program

open CommandLine (Method Settings)
open Listing (Incomplete entries)

theorem finish_congr {σ τ : Type} {r : Run σ Buffered} {q : Run τ Buffered}
    (houtcome : r.outcome = q.outcome) (houtput : r.output = q.output) : finish r = finish q := by
  unfold finish
  rw [houtcome, houtput]

theorem finish_complete {σ : Type} {r : Run σ Buffered} {tally : Tally}
    (h : r.outcome = .complete tally) :
    finish r =
      (match r.output.flush.1 with
        | none => .complete tally
        | some fault => .failed fault,
        r.output.flush.2.sink) := by
  unfold finish
  rw [h]
  rcases r.output.flush with ⟨_ | fault, b⟩
  · rfl
  · rfl

/-- How a listing through a buffer has ended, with its last lines handed to the sink: with a tally,
or with the fault that one of its lines has met. -/
inductive Ended {σ : Type} (r : Run σ Buffered) : Except Fault Tally → Sink → Prop where
  | complete {tally : Tally} {b : Buffered} (hrun : r.outcome = .complete tally)
      (hflush : r.output.flush = (none, b)) : Ended r (.ok tally) b.sink
  | unflushed {tally : Tally} {fault : Fault} {b : Buffered}
      (hrun : r.outcome = .complete tally) (hflush : r.output.flush = (some fault, b)) :
      Ended r (.error fault) b.sink
  | failed {fault : Fault} (hrun : r.outcome = .failed fault) :
      Ended r (.error fault) r.output.sink

def outcomeOf : Except Fault Tally → Outcome
  | .ok tally => .complete tally
  | .error fault => .failed fault

variable {σ : Type} {r : Run σ Buffered} {result : Except Fault Tally} {sink : Sink}

theorem Ended.finish_eq (h : Ended r result sink) : finish r = (outcomeOf result, sink) := by
  unfold finish
  cases h with
  | complete hrun hflush =>
    rw [hrun, hflush]
    rfl
  | unflushed hrun hflush =>
    rw [hrun, hflush]
    rfl
  | failed hrun =>
    rw [hrun]
    rfl

theorem Ended.error_of_failed {fault : Fault} (h : Ended r result sink)
    (hr : (finish r).1 = .failed fault) : result = .error fault := by
  rw [h.finish_eq] at hr
  cases result with
  | ok tally => cases hr
  | error fault =>
    cases hr
    rfl

theorem exists_ended (h : r.outcome ≠ .exhausted) : ∃ result sink, Ended r result sink := by
  rcases hrun : r.outcome with tally | fault | _
  · rcases hflush : r.output.flush with ⟨_ | fault, b⟩
    · exact ⟨_, _, .complete hrun hflush⟩
    · exact ⟨_, _, .unflushed hrun hflush⟩
  · exact ⟨_, _, .failed hrun⟩
  · exact absurd hrun h

def made [Criterion σ] (criterion : σ) (sink : Sink) : Run σ Buffered :=
  Listing.run target { criterion, output := { sink } }

theorem made_alike (sink : Sink) :
    (made Sieve.first sink).Alike (fun (s : Sieve) (_ : Trial) => s.Sound)
      (made ({} : Trial) sink) := by
  have hstart : Listing.Alike (fun (s : Sieve) (_ : Trial) => s.Sound)
      { criterion := Sieve.first, output := ({ sink } : Buffered) }
      { criterion := ({} : Trial), output := { sink } } := ⟨rfl, rfl, Sieve.ofLimit_sound _, rfl⟩
  exact hstart.run Sieve.agreement_trial target

theorem list_eq_listBy_trial (sink : Sink) (method : Method) :
    list sink method = listBy ({} : Trial) sink := by
  cases method with
  | trial => rfl
  | sieve =>
    have halike := made_alike sink
    exact finish_congr halike.outcome halike.output

theorem exists_full :
    ∃ k, Incomplete target ({} : Trial) k ∧
      target.toInt < (entries ({} : Trial) k).length := by
  obtain ⟨k, hk, hentries⟩ := Listing.exists_complete_trial target_le_primeCounting
  refine ⟨k, hk, ?_⟩
  rw [hentries, Listing.length_primes]
  omega

theorem made_trial_returns (sink : Sink) : (made ({} : Trial) sink).outcome ≠ .exhausted := by
  obtain ⟨k, hk, hfull⟩ := exists_full
  rcases hput : Output.putEach ({ sink } : Buffered) (entries ({} : Trial) k) with ⟨_ | fault, b⟩
  · rw [made, hk.run_complete hfull hput]
    exact nofun
  · obtain ⟨j, -, hrun⟩ := hk.run_failed hput
    rw [made, hrun]
    exact nofun

theorem made_sieve_returns (sink : Sink) : (made Sieve.first sink).outcome ≠ .exhausted := by
  rw [(made_alike sink).outcome]
  exact made_trial_returns sink

theorem listBy_ended [Criterion σ] {criterion : σ}
    (h : (made criterion sink).outcome ≠ .exhausted) :
    ∃ result, (listBy criterion sink).1 = outcomeOf result ∧
      Ended (made criterion sink) result (listBy criterion sink).2 := by
  obtain ⟨result, t, hended⟩ := exists_ended h
  have hlisted : listBy criterion sink = (outcomeOf result, t) := hended.finish_eq
  rw [hlisted]
  exact ⟨result, rfl, hended⟩

theorem list_ended (sink : Sink) (method : Method) :
    ∃ result, (list sink method).1 = outcomeOf result ∧
      (method = .trial → Ended (made ({} : Trial) sink) result (list sink method).2) ∧
      (method = .sieve → Ended (made Sieve.first sink) result (list sink method).2) := by
  cases method with
  | trial =>
    obtain ⟨result, houtcome, hended⟩ := listBy_ended (made_trial_returns sink)
    exact ⟨result, houtcome, fun _ => hended, nofun⟩
  | sieve =>
    obtain ⟨result, houtcome, hended⟩ := listBy_ended (made_sieve_returns sink)
    exact ⟨result, houtcome, nofun, fun _ => hended⟩

/-- A listing through the program's buffer comes to what putting all its lines on the sink at once
comes to, whether its last bytes are refused while it is made or only when it is flushed. -/
theorem listBy_counted {σ : Type} [Criterion σ] {c : σ} {k : ℕ} (h : Incomplete target c k)
    (hfull : target.toInt < (entries c k).length) {sink : Sink} (hs : sink.room.Counted) :
    (listBy c sink).1 =
        (if sink.room.fit (lines (entries c k)) = (lines (entries c k)).size then
          .complete (Tally.ofEntries (entries c k)) else .failed sink.fault) ∧
      (listBy c sink).2.written = sink.written ++
        (lines (entries c k)).extract 0 (sink.room.fit (lines (entries c k))) := by
  have hpasses := (Buffered.holds_start sink).putEach hs (entries c k)
  rw [ByteArray.empty_append] at hpasses
  rcases hput : Output.putEach ({ sink } : Buffered) (entries c k) with ⟨_ | fault, b⟩
  · rw [hput] at hpasses
    obtain ⟨hanswer, hwritten⟩ := Buffered.Holds.flush hpasses hs
    rw [listBy, h.run_complete hfull hput, finish_complete rfl]
    refine ⟨?_, hwritten⟩
    dsimp only
    by_cases hfit : sink.room.fit (lines (entries c k)) = (lines (entries c k)).size
    · rw [hanswer, if_pos hfit, if_pos hfit]
    · rw [hanswer, if_neg hfit, if_neg hfit]
  · rw [hput] at hpasses
    obtain ⟨j, -, hrun⟩ := h.run_failed hput
    obtain ⟨rfl, hlt⟩ := hpasses.fault_of_some
    rw [listBy, hrun, if_neg (Nat.ne_of_lt hlt)]
    exact ⟨rfl, hpasses.accepted.written⟩

/-- The listing of the program by trial division, on a sink with room for everything. -/
def unlimited : Run Trial Sink := Listing.run target { criterion := {}, output := {} }

theorem exists_unlimited :
    ∃ k, Incomplete target ({} : Trial) k ∧ target.toInt < (entries ({} : Trial) k).length ∧
      unlimited.outcome = .complete (Tally.ofEntries (entries ({} : Trial) k)) ∧
      unlimited.output.written = lines (entries ({} : Trial) k) := by
  obtain ⟨k, hk, hfull⟩ := exists_full
  obtain ⟨t, ht, haccepted⟩ := hk.reaches (s := {}) trivial rfl
  have hrun : unlimited = _ := ht.complete hfull
  refine ⟨k, hk, hfull, ?_, ?_⟩
  · rw [hrun]
  · rw [hrun, haccepted.written]
    exact ByteArray.empty_append

theorem exists_written_append :
    ∃ rest, unlimited.output.written = lines [2, 3, 5, 7, 11] ++ rest := by
  have hten : entries ({} : Trial) 10 = [2, 3, 5, 7, 11] := by decide +kernel
  obtain ⟨k, -, hfull, -, hwritten⟩ := exists_unlimited
  obtain ⟨rest, hrest⟩ : ∃ rest, entries ({} : Trial) k = entries ({} : Trial) 10 ++ rest := by
    have htarget : target.toInt = 1000000 := by decide
    have hlen := Listing.length_entries_le ({} : Trial) k
    exact Listing.exists_entries_append _ (by omega)
  rw [hrest, hten, lines_append] at hwritten
  exact ⟨_, hwritten⟩

theorem fit_narrow :
    Listing.narrow.room.fit unlimited.output.written = 9 ∧ 9 < unlimited.output.written.size := by
  obtain ⟨rest, hwritten⟩ := exists_written_append
  have hsize : 9 < unlimited.output.written.size := by
    rw [hwritten, ByteArray.size_append]
    exact Nat.lt_add_right _ (by decide)
  exact ⟨Nat.min_eq_left (Nat.le_of_lt hsize), hsize⟩

theorem list_narrow (method : Method) :
    (list Listing.narrow method).1 = .failed (.ofNumber 28) := by
  obtain ⟨k, hk, hfull, -, hwritten⟩ := exists_unlimited
  have hcounted : Listing.narrow.room.Counted := trivial
  obtain ⟨hlisted, -⟩ := listBy_counted hk hfull hcounted
  obtain ⟨hfit, hsize⟩ := fit_narrow
  rw [list_eq_listBy_trial, hlisted, ← hwritten, hfit, if_neg (Nat.ne_of_lt hsize)]
  rfl

theorem execute_accepted {arguments : List String} {settings : Settings}
    (h : CommandLine.parse arguments = .ok settings) (sink : Sink) (elapsed : String) :
    execute arguments sink elapsed =
      ⟨(closing settings elapsed (list sink settings.method).1).1,
        (list sink settings.method).2,
        opening settings ++ (closing settings elapsed (list sink settings.method).1).2⟩ := by
  unfold execute
  rw [h]

theorem opening_eq (s : Settings) :
    opening s = if s.debug then
      "method: " ++ (match s.method with | .trial => "Trial" | .sieve => "Sieve") ++
        ", target count: 1000000\n" else "" := by
  have htarget : numeral target = "1000000" := by decide
  unfold opening
  rw [htarget, String.append_assoc, String.append_assoc]
  rfl

theorem largestText_eq (t : Tally) :
    t.largestText = t.largest.elim "None" fun e => "Some(Prime(" ++ numeral e.value ++ "))" := by
  unfold Tally.largestText
  cases t.largest with
  | none => rfl
  | some e =>
    rw [← String.toList_inj]
    simp [Entry.label, Entry.text]

theorem closing_complete (s : Settings) (elapsed : String) (tally : Tally) :
    closing s elapsed (.complete tally) =
      (0, if s.debug then
        "found " ++ numeral tally.count ++ " primes, largest " ++
          tally.largest.elim "None" (fun e => "Some(Prime(" ++ numeral e.value ++ "))") ++
          ", in " ++ elapsed ++ "\n" else "") := by
  rw [closing, largestText_eq]

theorem closing_failed (s : Settings) (elapsed : String) (fault : Fault) :
    closing s elapsed (.failed fault) =
      (if fault.kind = .brokenPipe then 0 else 1,
        if fault.kind = .brokenPipe then
          (if s.debug then "stdout closed after " ++ elapsed ++ "\n" else "")
        else "Error: " ++ fault.message ++ "\n") := by
  rw [closing]
  by_cases hpipe : fault.kind = .brokenPipe
  · simp only [if_pos hpipe]
  · simp only [if_neg hpipe]

/-- The report on a listing tells how it has ended, and nothing else. -/
theorem execute_reported {arguments : List String} {s : Settings}
    (h : CommandLine.parse arguments = .ok s) (sink : Sink) (elapsed : String) :
    ∃ result,
      (s.method = .trial →
        Ended (made ({} : Trial) sink) result (execute arguments sink elapsed).output) ∧
      (s.method = .sieve →
        Ended (made Sieve.first sink) result (execute arguments sink elapsed).output) ∧
      (execute arguments sink elapsed).exit = (closing s elapsed (outcomeOf result)).1 ∧
      (execute arguments sink elapsed).log =
        opening s ++ (closing s elapsed (outcomeOf result)).2 := by
  obtain ⟨result, houtcome, htrial, hsieve⟩ := list_ended sink s.method
  rw [execute_accepted h, houtcome]
  exact ⟨result, htrial, hsieve, rfl, rfl⟩

/-- The run of the program for any command line that it accepts, on an output of which only the
room and the fault matter. The output gets the bytes of the unlimited listing that fit. The exit
status is zero when they all fit or when the reader has closed the output. On the log stand the
method first, and at the end what has become of the listing; of this only an error is told when no
log was asked for. -/
theorem execute_counted {sink : Sink} (hs : sink.room.Counted) (elapsed : String) :
    ∃ tally, unlimited.outcome = .complete tally ∧
      ∀ arguments settings, CommandLine.parse arguments = .ok settings →
        (execute arguments sink elapsed).output.written = sink.written ++
          unlimited.output.written.extract 0 (sink.room.fit unlimited.output.written) ∧
        (execute arguments sink elapsed).exit =
          (if sink.room.fit unlimited.output.written = unlimited.output.written.size ∨
              sink.fault.kind = .brokenPipe then 0 else 1) ∧
        (execute arguments sink elapsed).log =
          (if settings.debug then
            "method: " ++ (match settings.method with | .trial => "Trial" | .sieve => "Sieve") ++
              ", target count: 1000000\n" else "") ++
          (if sink.room.fit unlimited.output.written = unlimited.output.written.size then
            (if settings.debug then
              "found " ++ numeral tally.count ++ " primes, largest " ++
                tally.largest.elim "None" (fun e => "Some(Prime(" ++ numeral e.value ++ "))") ++
                ", in " ++ elapsed ++ "\n" else "")
          else if sink.fault.kind = .brokenPipe then
            (if settings.debug then "stdout closed after " ++ elapsed ++ "\n" else "")
          else "Error: " ++ sink.fault.message ++ "\n") := by
  obtain ⟨k, hk, hfull, houtcome, hwritten⟩ := exists_unlimited
  obtain ⟨hlisted, hkept⟩ := listBy_counted hk hfull hs
  rw [← hwritten] at hlisted hkept
  refine ⟨_, houtcome, ?_⟩
  intro arguments settings hparse
  rw [← list_eq_listBy_trial sink settings.method] at hlisted hkept
  rw [execute_accepted hparse, opening_eq, hlisted, hkept]
  by_cases hfit : sink.room.fit unlimited.output.written = unlimited.output.written.size
  · rw [if_pos hfit, if_pos hfit, if_pos (Or.inl hfit), closing_complete]
    exact ⟨rfl, rfl, rfl⟩
  · rw [if_neg hfit, if_neg hfit, closing_failed]
    by_cases hpipe : sink.fault.kind = .brokenPipe
    · rw [if_pos (Or.inr hpipe), if_pos hpipe, if_pos hpipe]
      exact ⟨rfl, rfl, rfl⟩
    · rw [if_neg (not_or.mpr ⟨hfit, hpipe⟩), if_neg hpipe, if_neg hpipe]
      exact ⟨rfl, rfl, rfl⟩

theorem execute_counted_narrow :
    Listing.narrow.room.Counted ∧
      CommandLine.parse ["--method", "sieve", "-d"] = .ok ⟨.sieve, true⟩ ∧
      (execute ["--method", "sieve", "-d"] Listing.narrow "3ms").output.written =
        "2\n3\n5\n7\n1".toUTF8 ∧
      (execute ["--method", "sieve", "-d"] Listing.narrow "3ms").exit = 1 ∧
      (execute ["--method", "sieve", "-d"] Listing.narrow "3ms").log =
        "method: Sieve, target count: 1000000\n" ++
          "Error: No space left on device (os error 28)\n" := by
  have hparse : CommandLine.parse ["--method", "sieve", "-d"] = .ok ⟨.sieve, true⟩ := by decide
  have hcounted : Listing.narrow.room.Counted := trivial
  obtain ⟨rest, hwritten⟩ := exists_written_append
  obtain ⟨hfit, hsize⟩ := fit_narrow
  obtain ⟨tally, -, hruns⟩ := execute_counted hcounted "3ms"
  obtain ⟨hkept, hexit, hlog⟩ := hruns _ _ hparse
  rw [hfit] at hkept hexit hlog
  refine ⟨hcounted, hparse, ?_, ?_, ?_⟩
  · rw [hkept, hwritten, extract_append_of_le (by decide)]
    decide
  · rw [hexit, if_neg]
    rintro (heq | hpipe)
    · exact Nat.ne_of_lt hsize heq
    · cases hpipe
  · rw [hlog, if_neg (Nat.ne_of_lt hsize)]
    decide

end PrimeStream.Program
