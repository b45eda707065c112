import PrimeStream.Proofs.LimitedListing
import PrimeStream.Proofs.NumeralReading

/-!
# Reading a listing

A listing is read back from its bytes alone: they are split at the newlines, each piece that ends
with one is a numeral, and what comes after the last newline is the rest. The lines of some entries
are read as these entries, so no two listings look the same. A listing that was cut off is read as
the entries whose lines are whole, and its rest is the beginning of the next line.
-/

set_option autoImplicit false

namespace PrimeStream

namespace Reading

open Numeral (Canonical bytes read?)

def pieces (text : ByteArray) : List (List UInt8) := text.data.toList.splitOn newline

/-- The pieces that end with a newline. -/
def wholeLines (text : ByteArray) : List (List UInt8) := (pieces text).dropLast

/-- What comes after the last newline. -/
def rest (text : ByteArray) : List UInt8 := (pieces text).getLastD []

def entries? (text : ByteArray) : Option (List Int64) := (wholeLines text).mapM read?

theorem newline_not_mem_numeral (x : Int64) : newline ∉ bytes (numeral x) := by
  intro h
  rcases Numeral.isDigit_or_minus_of_mem h with hdigit | hminus
  · exact absurd hdigit (by decide)
  · exact absurd hminus (by decide)

theorem toList_line (x : Int64) :
    (Entry.mk x).line.data.toList = bytes (numeral x) ++ [newline] :=
  Numeral.bytes_append (numeral x) "\n"

variable {cut : ByteArray}

theorem pieces_lines_append (xs : List Int64) (hcut : newline ∉ cut.data.toList) :
    pieces (lines xs ++ cut) = xs.map (fun x => bytes (numeral x)) ++ [cut.data.toList] := by
  unfold pieces
  induction xs with
  | nil =>
    rw [lines, ByteArray.empty_append, List.splitOn_eq_singleton hcut]
    rfl
  | cons x xs ih =>
    rw [lines, ByteArray.append_assoc, ByteArray.toList_data_append, toList_line,
      List.append_assoc, List.singleton_append,
      List.splitOn_append_cons_self_of_not_mem (newline_not_mem_numeral x), ih]
    rfl

theorem wholeLines_lines_append (xs : List Int64) (hcut : newline ∉ cut.data.toList) :
    wholeLines (lines xs ++ cut) = xs.map (fun x => bytes (numeral x)) := by
  rw [wholeLines, pieces_lines_append xs hcut, List.dropLast_concat]

theorem rest_lines_append (xs : List Int64) (hcut : newline ∉ cut.data.toList) :
    rest (lines xs ++ cut) = cut.data.toList := by
  rw [rest, pieces_lines_append xs hcut, List.getLastD_concat]

theorem entries?_lines_append (xs : List Int64) (hcut : newline ∉ cut.data.toList) :
    entries? (lines xs ++ cut) = some xs := by
  rw [entries?, wholeLines_lines_append xs hcut]
  induction xs with
  | nil => rfl
  | cons x xs ih => simp [Numeral.read?_numeral, ih]

theorem canonical_lines_append {xs : List Int64} (hxs : ∀ x ∈ xs, 0 ≤ x)
    (hcut : newline ∉ cut.data.toList) : ∀ l ∈ wholeLines (lines xs ++ cut), Canonical l := by
  rw [wholeLines_lines_append xs hcut]
  intro l hl
  obtain ⟨x, hx, rfl⟩ := List.mem_map.mp hl
  exact Numeral.canonical_numeral (hxs x hx)

theorem newline_not_mem_empty : newline ∉ ByteArray.empty.data.toList := List.not_mem_nil

theorem entries?_lines (xs : List Int64) : entries? (lines xs) = some xs := by
  have h := entries?_lines_append xs newline_not_mem_empty
  rwa [ByteArray.append_empty] at h

theorem rest_lines (xs : List Int64) : rest (lines xs) = [] := by
  have h := rest_lines_append xs newline_not_mem_empty
  rwa [ByteArray.append_empty] at h

theorem canonical_lines {xs : List Int64} (hxs : ∀ x ∈ xs, 0 ≤ x) :
    ∀ l ∈ wholeLines (lines xs), Canonical l := by
  have h := canonical_lines_append hxs newline_not_mem_empty
  rwa [ByteArray.append_empty] at h

theorem lines_injective : Function.Injective lines := by
  intro xs ys h
  have hread := entries?_lines xs
  rw [h, entries?_lines] at hread
  exact (Option.some.inj hread).symm

variable {x : Int64} {i : ℕ}

theorem toList_cut (hi : i < (Entry.mk x).line.size) :
    ((Entry.mk x).line.extract 0 i).data.toList = (bytes (numeral x)).take i := by
  have hsize : (Entry.mk x).line.size = (bytes (numeral x)).length + 1 := by
    rw [← ByteArray.size_data, ← Array.length_toList, toList_line, List.length_append]
    rfl
  rw [ByteArray.data_extract, Array.toList_extract, List.extract_eq_take_drop, toList_line,
    List.drop_zero, Nat.sub_zero, List.take_append_of_le_length (by omega)]

theorem newline_not_mem_cut (hi : i < (Entry.mk x).line.size) :
    newline ∉ ((Entry.mk x).line.extract 0 i).data.toList := by
  rw [toList_cut hi]
  exact fun h => newline_not_mem_numeral x (List.mem_of_mem_take h)

theorem cut_isPrefix (hi : i < (Entry.mk x).line.size) :
    ((Entry.mk x).line.extract 0 i).data.toList <+: (Entry.mk x).line.data.toList := by
  rw [toList_cut hi, toList_line]
  exact (List.take_prefix i _).trans (List.prefix_append _ _)

theorem cut_ne_line (hi : i < (Entry.mk x).line.size) :
    ((Entry.mk x).line.extract 0 i).data.toList ≠ (Entry.mk x).line.data.toList := by
  intro h
  have hmem : newline ∈ (Entry.mk x).line.data.toList := by
    rw [toList_line]
    exact List.mem_append_right _ (List.mem_singleton_self newline)
  rw [← h] at hmem
  exact newline_not_mem_cut hi hmem

end Reading

namespace Listing

open Candidate (firsts)
open Criterion (after select)
open Reading (entries? rest wholeLines)

variable {σ : Type} [Criterion σ]

theorem nonneg_of_mem_entries {c : σ} {k : ℕ} (hk : k + 1 < 2 ^ 63) :
    ∀ x ∈ entries c k, 0 ≤ x := by
  intro x hx
  obtain ⟨m, hm, rfl⟩ := List.mem_map.mp ((Criterion.select_sublist c _).mem hx)
  rw [List.mem_range'_1] at hm
  rw [Int64.le_iff_toInt_le, Int64.toInt_zero, Int64.toInt_ofNat_of_lt (by omega)]
  exact Int.natCast_nonneg m

/-- What a listing that does not run out of candidates leaves on a sink: all its lines, or the
lines before the entry at which it fails and less than the line of that entry. -/
inductive Leaves (n : Int64) (c : σ) (s : Sink) : Prop where
  | complete (k : ℕ) (t : Sink) (hk : k + 2 < 2 ^ 63)
      (hrun : recorded n c s =
        ⟨.complete (Tally.ofEntries (entries c k)), ⟨after c (firsts k), (firsts k).reverse⟩, t⟩)
      (hwritten : t.written = s.written ++ lines (entries c k))
  | failed (k i : ℕ) (v : Int64) (fault : Fault) (t : Sink) (hk : k + 2 < 2 ^ 63)
      (hentry : entries c (k + 1) = entries c k ++ [v]) (hi : i < (Entry.mk v).line.size)
      (hrun : recorded n c s =
        ⟨.failed fault, ⟨after c (firsts (k + 1)), (firsts (k + 1)).reverse⟩, t⟩)
      (hwritten : t.written =
        s.written ++ (lines (entries c k) ++ (Entry.mk v).line.extract 0 i))

theorem recorded_leaves {n : Int64} {c : σ} {s : Sink} (hs : s.room.Counted)
    (h : (recorded n c s).outcome ≠ .exhausted) : Leaves n c s := by
  obtain ⟨k, t, hk, hend⟩ := exists_ends n (⟨c, []⟩ : Recorded σ) s
  have haccepted := hk.accepted hs
  cases hend with
  | complete hfull =>
    have hrun := hk.complete hfull
    rw [entries_recorded] at hrun haccepted
    rw [after_recorded] at hrun
    exact .complete k t hk.word hrun haccepted.written
  | failed fault u hopen hput =>
    have hrun := hk.failed hopen hput
    have hputs := putEach_puts (haccepted.counted hs) (news (⟨c, []⟩ : Recorded σ) k)
    rw [hput] at hputs
    obtain ⟨-, hlt⟩ := hputs.fault_of_some
    have hnews : news (⟨c, []⟩ : Recorded σ) k = [Int64.ofNat (k + 2)] := by
      apply news_eq_of_ne_nil
      intro hnil
      rw [hnil] at hlt
      exact absurd hlt (Nat.not_lt_zero _)
    have hentry := entries_succ (⟨c, []⟩ : Recorded σ) k
    have hkept := hputs.accepted.written
    rw [hnews, lines, lines, ByteArray.append_empty] at hlt hkept
    rw [hnews, entries_recorded, entries_recorded] at hentry
    rw [haccepted.written, entries_recorded, ByteArray.append_assoc] at hkept
    rw [after_recorded] at hrun
    exact .failed k _ _ fault u hk.word hentry hlt hrun hkept
  | exhausted u hopen hlast hput => exact absurd (by rw [recorded, hk.exhausted hopen hlast hput]) h

/-- Whatever a listing writes on a sink, as long as it does not run out of candidates, is read as
the entries whose lines are whole, each from a shortest numeral. When the listing is complete these
are all that it accepted, nothing is left over, and the tally is told by them. When it fails, one
more entry was accepted, and what is left over is less than the line of that one. And the lines of
any words are read as these words, so different ones never make the same text. -/
theorem recorded_read (n : Int64) (c : σ) {s : Sink} (hs : s.room.Counted) :
    ((recorded n c s).outcome ≠ .exhausted →
      ∃ text xs, (recorded n c s).output.written = s.written ++ text ∧
        (∀ l ∈ wholeLines text, Numeral.Canonical l) ∧ entries? text = some xs ∧
        (∀ tally, (recorded n c s).outcome = .complete tally →
          (select c (recorded n c s).criterion.asked.reverse).1 = xs ∧ rest text = [] ∧
          tally.count.toInt = xs.length ∧ tally.largest = xs.getLast?.map Entry.mk) ∧
        ∀ fault, (recorded n c s).outcome = .failed fault →
          ∃ v, (select c (recorded n c s).criterion.asked.reverse).1 = xs ++ [v] ∧
            rest text <+: (Entry.mk v).line.data.toList ∧
            rest text ≠ (Entry.mk v).line.data.toList) ∧
    (∀ xs, entries? (lines xs) = some xs ∧ rest (lines xs) = [] ∧
      ((∀ x ∈ xs, 0 ≤ x) → ∀ l ∈ wholeLines (lines xs), Numeral.Canonical l)) ∧
    Function.Injective lines := by
  refine ⟨?_, ?_, Reading.lines_injective⟩
  · intro h
    cases recorded_leaves hs h with
    | complete k t hk hrun hwritten =>
      have hlen := length_entries_le c k
      refine ⟨lines (entries c k), entries c k, ?_,
        Reading.canonical_lines (nonneg_of_mem_entries (by omega)), Reading.entries?_lines _,
        ?_, ?_⟩
      · rw [hrun, hwritten]
      · intro tally htally
        rw [hrun] at htally ⊢
        cases htally
        refine ⟨?_, Reading.rest_lines _, ?_, rfl⟩
        · rw [List.reverse_reverse]
          rfl
        · rw [Tally.ofEntries, Int64.toInt_ofNat_of_lt (by omega)]
      · intro fault hfailed
        rw [hrun] at hfailed
        cases hfailed
    | failed k i v fault t hk hentry hi hrun hwritten =>
      have hcut := Reading.newline_not_mem_cut hi
      refine ⟨lines (entries c k) ++ (Entry.mk v).line.extract 0 i, entries c k, ?_,
        Reading.canonical_lines_append (nonneg_of_mem_entries (by omega)) hcut,
        Reading.entries?_lines_append _ hcut, ?_, ?_⟩
      · rw [hrun, hwritten]
      · intro tally htally
        rw [hrun] at htally
        cases htally
      · intro _ _
        rw [hrun, List.reverse_reverse, Reading.rest_lines_append _ hcut]
        exact ⟨v, hentry, Reading.cut_isPrefix hi, Reading.cut_ne_line hi⟩
  · intro xs
    exact ⟨Reading.entries?_lines xs, Reading.rest_lines xs, Reading.canonical_lines⟩

theorem recorded_read_narrow :
    narrow.room.Counted ∧ (recorded 4 ({} : Trial) narrow).outcome = .failed (.ofNumber 28) ∧
      (recorded 4 ({} : Trial) narrow).output.written = "2\n3\n5\n7\n1".toUTF8 ∧
      entries? "2\n3\n5\n7\n1".toUTF8 = some [2, 3, 5, 7] ∧
      ∃ v, (select ({} : Trial) (recorded 4 ({} : Trial) narrow).criterion.asked.reverse).1 =
          [2, 3, 5, 7, v] ∧
        [49] <+: (Entry.mk v).line.data.toList ∧ [49] ≠ (Entry.mk v).line.data.toList := by
  have hcounted : narrow.room.Counted := trivial
  have houtcome : (recorded 4 ({} : Trial) narrow).outcome = .failed (.ofNumber 28) := by
    decide +kernel
  have houtput : (recorded 4 ({} : Trial) narrow).output.written = "2\n3\n5\n7\n1".toUTF8 := by
    decide +kernel
  have hread : entries? "2\n3\n5\n7\n1".toUTF8 = some [2, 3, 5, 7] := by decide +kernel
  have hrest : rest "2\n3\n5\n7\n1".toUTF8 = [49] := by decide +kernel
  obtain ⟨text, xs, hwritten, -, hxs, -, hfailed⟩ :=
    (recorded_read 4 ({} : Trial) hcounted).1 (by rw [houtcome]; exact nofun)
  have htext : text = "2\n3\n5\n7\n1".toUTF8 := by
    rw [← houtput, hwritten]
    exact ByteArray.empty_append.symm
  rw [htext, hread] at hxs
  rw [htext, hrest] at hfailed
  obtain ⟨v, haccepted, hcut⟩ := hfailed _ houtcome
  rw [← Option.some.inj hxs] at haccepted
  exact ⟨hcounted, houtcome, houtput, hread, v, haccepted, hcut⟩

end Listing

end PrimeStream
