import PrimeStream.Proofs.SinkListing
import PrimeStream.Trial

/-!
# Listings on a sink with little room

A listing is told by what it writes on a sink with room for everything. On a sink with room for a
number of bytes it writes the first bytes of that, as many as fit. It is the same listing when
they all fit; otherwise it fails with the fault of the sink at the entry whose line is cut, after
that entry has been judged and before any further candidate.
-/

set_option autoImplicit false

namespace PrimeStream.Listing

open Candidate (firsts upTo)
open Criterion (after select)
open Sink (Accepted)

variable {σ : Type} [Criterion σ]

def recorded (n : Int64) (c : σ) (s : Sink) : Run (Recorded σ) Sink :=
  run n { criterion := ⟨c, []⟩, output := s }

theorem entries_recorded (c : σ) (k : ℕ) : entries (⟨c, []⟩ : Recorded σ) k = entries c k :=
  Recorded.select_eq _ _

theorem after_recorded (c : σ) (k : ℕ) :
    after (⟨c, []⟩ : Recorded σ) (firsts k) = ⟨after c (firsts k), (firsts k).reverse⟩ := by
  rw [Recorded.after_eq, List.append_nil]

theorem incomplete_recorded {n : Int64} {c : σ} {k : ℕ} :
    Incomplete n (⟨c, []⟩ : Recorded σ) k ↔ Incomplete n c k := by
  constructor
  · intro h
    constructor
    · exact h.word
    · intro j hj
      rw [← entries_recorded]
      exact h.isOpen j hj
  · intro h
    constructor
    · exact h.word
    · intro j hj
      rw [entries_recorded]
      exact h.isOpen j hj

theorem recorded_complete {n : Int64} {c : σ} {k : ℕ} {s : Sink} (hs : s.room.Counted)
    (hk : Incomplete n c k) (hfull : n.toInt < (entries c k).length)
    (hfit : s.room.fit (lines (entries c k)) = (lines (entries c k)).size) :
    ∃ t, recorded n c s =
        ⟨.complete (Tally.ofEntries (entries c k)), ⟨after c (firsts k), (firsts k).reverse⟩, t⟩ ∧
      Accepted s (lines (entries c k)) t := by
  rw [← incomplete_recorded] at hk
  rw [← entries_recorded] at hfull hfit
  obtain ⟨t, ht, haccepted⟩ := hk.reaches hs hfit
  have hrun := ht.complete hfull
  rw [entries_recorded] at haccepted
  rw [entries_recorded, after_recorded] at hrun
  exact ⟨t, hrun, haccepted⟩

theorem exists_recorded_complete {n : Int64} {c : σ} {s : Sink} {tally : Tally}
    (hs : s.room = .boundless) (h : (recorded n c s).outcome = .complete tally) :
    ∃ k t, Incomplete n c k ∧ n.toInt < (entries c k).length ∧
      tally = Tally.ofEntries (entries c k) ∧
      recorded n c s = ⟨.complete tally, ⟨after c (firsts k), (firsts k).reverse⟩, t⟩ ∧
      Accepted s (lines (entries c k)) t := by
  obtain ⟨k, u, hk, hfull, -⟩ := exists_complete h
  have hincomplete := incomplete_recorded.mp hk.toIncomplete
  rw [entries_recorded] at hfull
  obtain ⟨t, hrun, haccepted⟩ :=
    recorded_complete (Room.counted_boundless hs) hincomplete hfull (by rw [hs]; rfl)
  rw [hrun] at h
  cases h
  exact ⟨k, t, hincomplete, hfull, rfl, hrun, haccepted⟩

theorem recorded_boundless {n : Int64} {c : σ} {u : Sink} {tally : Tally} {text : ByteArray}
    (hu : u.room = .boundless) (hfree : (recorded n c u).outcome = .complete tally)
    (htext : (recorded n c u).output.written = u.written ++ text) :
    ∃ k, Incomplete n c k ∧ n.toInt < (entries c k).length ∧
      tally = Tally.ofEntries (entries c k) ∧ text = lines (entries c k) ∧
      (recorded n c u).criterion = ⟨after c (firsts k), (firsts k).reverse⟩ := by
  obtain ⟨k, t, hk, hfull, htally, hrun, haccepted⟩ := exists_recorded_complete hu hfree
  rw [hrun, haccepted.written, ByteArray.append_right_inj] at htext
  exact ⟨k, hk, hfull, htally, htext.symm, by rw [hrun]⟩

/-- Whatever the pace of a sink with limited room, it gets the first bytes of a listing that is
complete on a boundless sink. Either they all fit and the listing is the same, or it fails with
the sink's fault, and its criterion was asked for the candidates up to the entry in whose line the
first byte lies that does not fit. -/
theorem recorded_limited (n : Int64) (c : σ) {u s : Sink} {room : ℕ} {tally : Tally}
    {text : ByteArray} (hu : u.room = .boundless) (hs : s.room = .bytes room)
    (hfree : (recorded n c u).outcome = .complete tally)
    (htext : (recorded n c u).output.written = u.written ++ text) :
    (text.size ≤ room →
      (recorded n c s).outcome = .complete tally ∧
      (recorded n c s).criterion = (recorded n c u).criterion ∧
      (recorded n c s).output.written = s.written ++ text) ∧
    (room < text.size →
      (recorded n c s).outcome = .failed s.fault ∧
      (recorded n c s).output.written = s.written ++ text.extract 0 room ∧
      ∃ before v rest,
        (select c (recorded n c u).criterion.asked.reverse).1 = before ++ v :: rest ∧
        text = lines (before ++ v :: rest) ∧
        (lines before).size ≤ room ∧ room < (lines (before ++ [v])).size ∧
        (recorded n c s).criterion = ⟨after c (upTo v), (upTo v).reverse⟩) := by
  have hcounted := Room.counted_bytes hs
  obtain ⟨k, hk, hfull, rfl, rfl, hcriterion⟩ := recorded_boundless hu hfree htext
  have hfit : s.room.fit (lines (entries c k)) = min room (lines (entries c k)).size := by
    rw [hs]
    rfl
  constructor
  · intro hroom
    rw [Nat.min_eq_right hroom] at hfit
    obtain ⟨t, hrun, haccepted⟩ := recorded_complete hcounted hk hfull hfit
    rw [hrun, hcriterion]
    exact ⟨rfl, rfl, haccepted.written⟩
  · intro hroom
    rw [Nat.min_eq_left (Nat.le_of_lt hroom), ← entries_recorded] at hfit
    rw [← entries_recorded] at hroom
    obtain ⟨j, hj, rest, hsplit, hbefore, hafter, t, hfailed, haccepted⟩ :=
      (incomplete_recorded.mpr hk).cut hcounted hfit hroom
    have hword := hk.word
    have hrun : recorded n c s = _ := hfailed
    simp only [entries_recorded] at hsplit hbefore hafter haccepted
    rw [hrun, hcriterion, List.reverse_reverse, after_recorded]
    refine ⟨rfl, haccepted.written, entries c j, Int64.ofNat (j + 2), rest, hsplit, ?_, hbefore,
      hafter, ?_⟩
    · rw [hsplit]
    · rw [Candidate.upTo_word (by omega)]

/-- A sink that takes two bytes at a time, is interrupted now and then, and holds nine. -/
def narrow : Sink where
  room := .bytes 9
  fault := .ofNumber 28
  pace := .regular (some 2) (some 3)

theorem recorded_limited_narrow :
    ({} : Sink).room = .boundless ∧ narrow.room = .bytes 9 ∧
      (recorded 4 ({} : Trial) {}).outcome = .complete ⟨5, some ⟨11⟩⟩ ∧
      (recorded 4 ({} : Trial) {}).output.written = "2\n3\n5\n7\n11\n".toUTF8 ∧
      (recorded 4 ({} : Trial) narrow).outcome = .failed (.ofNumber 28) ∧
      (recorded 4 ({} : Trial) narrow).output.written = "2\n3\n5\n7\n1".toUTF8 ∧
      (recorded 4 ({} : Trial) narrow).criterion.asked = [11, 10, 9, 8, 7, 6, 5, 4, 3, 2] := by
  have hten : entries ({} : Trial) 10 = [2, 3, 5, 7, 11] := by decide +kernel
  have hnine : (entries ({} : Trial) 9).length = 4 := by decide +kernel
  have hlines : lines [2, 3, 5, 7, 11] = "2\n3\n5\n7\n11\n".toUTF8 := by decide
  have hk : Incomplete 4 ({} : Trial) 10 := by
    constructor
    · decide
    · intro j hj
      obtain ⟨rest, hrest⟩ := exists_entries_append ({} : Trial) (Nat.le_of_lt_succ hj)
      have hlen := congrArg List.length hrest
      have hfour : (4 : Int64).toInt = 4 := by decide
      rw [List.length_append, hnine] at hlen
      omega
  obtain ⟨u, hrun, haccepted⟩ :=
    recorded_complete (s := {}) trivial hk (by rw [hten]; decide) rfl
  have hwritten := haccepted.written
  rw [hten] at hrun hwritten
  rw [hlines] at hwritten
  have hfree : (recorded 4 ({} : Trial) {}).outcome = .complete ⟨5, some ⟨11⟩⟩ := by
    rw [hrun]
    rfl
  have htext : (recorded 4 ({} : Trial) {}).output.written =
      ({} : Sink).written ++ "2\n3\n5\n7\n11\n".toUTF8 := by
    rw [hrun]
    exact hwritten
  obtain ⟨hfailed, hkept, before, v, rest, hselect, -, -, hafter, hcriterion⟩ :=
    (recorded_limited 4 ({} : Trial) (u := {}) (s := narrow) rfl rfl hfree htext).2 (by decide)
  refine ⟨rfl, rfl, hfree, ?_, hfailed, ?_, ?_⟩
  · rw [htext]
    exact ByteArray.empty_append
  · rw [hkept]
    decide
  · have hv : v = 11 := by
      rw [hrun, List.reverse_reverse] at hselect
      have hsplit : [2, 3, 5, 7, 11] = before ++ v :: rest := hten.symm.trans hselect
      simp only [List.cons_eq_append_iff, List.cons.injEq, List.nil_eq, List.append_eq_nil_iff,
        reduceCtorEq, and_false, exists_const, or_false] at hsplit
      -- the lines up to every entry before the last one fit
      rcases hsplit with ⟨rfl, rfl, -⟩ | ⟨_, rfl, ⟨rfl, rfl, -⟩ | ⟨_, rfl, ⟨rfl, rfl, -⟩ |
        ⟨_, rfl, ⟨rfl, rfl, -⟩ | ⟨_, -, -, rfl, -⟩⟩⟩⟩
      · exact absurd hafter (by decide)
      · exact absurd hafter (by decide)
      · exact absurd hafter (by decide)
      · exact absurd hafter (by decide)
      · rfl
    rw [hcriterion, hv]
    decide

end PrimeStream.Listing
