import PrimeStream.Proofs.CommandItems
import PrimeStream.Proofs.ProgramRun

/-!
# What becomes of a command line

Every command line is some items followed by arguments that begin with no item. It chooses settings
when no option is given twice and nothing follows, but for the mark that ends the options. It asks
for help when such items come first and then a request, and anything else is misused. So the program
makes its listing, prints its help, or reports an error and prints nothing.
-/

set_option autoImplicit false

namespace PrimeStream

namespace CommandLine

open Progress (ofItems)

def BeginsNoItem (arguments : List String) : Prop :=
  ∀ (item : Item) rest, arguments ≠ item.arguments ++ rest

/-- What can stand after some items: nothing, the mark that ends the options, a request for help, or
something that is misused there. -/
inductive Tail (items : List Item) : List String → Prop where
  | nothing : Tail items []
  | mark : Tail items ["--"]
  | request {argument : String} (h : AsksHelp items argument) (rest : List String) :
      Tail items (argument :: rest)
  | misused {arguments : List String} (h : verdict ((ofItems items).read arguments) = .misused) :
      Tail items arguments

theorem exists_spelled_append (arguments : List String) :
    ∃ items tail, arguments = spelled items ++ tail ∧ BeginsNoItem tail := by
  -- induction on the number of arguments, since an item takes one or two
  induction hlength : arguments.length using Nat.strongRecOn generalizing arguments with
  | ind n ih =>
    by_cases h : BeginsNoItem arguments
    · exact ⟨[], arguments, rfl, h⟩
    · unfold BeginsNoItem at h
      push Not at h
      obtain ⟨item, rest, rfl⟩ := h
      have hpos := List.length_pos_of_ne_nil item.arguments_ne_nil
      rw [List.length_append] at hlength
      obtain ⟨items, tail, rfl, htail⟩ := ih rest.length (by omega) rest rfl
      refine ⟨item :: items, tail, ?_, htail⟩
      rw [spelled_cons, List.append_assoc]

theorem Opt.eq_of_ofLong? {name : List Char} {opt : Opt} (h : ofLong? name = some opt) :
    name = opt.long.toList := by
  have hfound := List.find?_some h
  exact (of_decide_eq_true hfound).symm

theorem Method.eq_of_ofName? {value : String} {m : Method} (h : ofName? value = some m) :
    value = m.name := by
  have hfound := List.find?_some h
  exact (of_decide_eq_true hfound).symm

theorem Opt.ofLetter?_eq_none {letter : Char} (hd : letter ≠ 'd') (hh : letter ≠ 'h') :
    ofLetter? letter = none := by
  unfold ofLetter?
  split
  · exact absurd rfl hd
  · exact absurd rfl hh
  · rfl

namespace Progress

variable {p : Progress} {items : List Item} {argument : String} {rest : List String}

theorem verdict_read_spelled (done items : List Item) (tail : List String)
    (h : Regular (done ++ items)) :
    verdict ((ofItems done).read (spelled items ++ tail)) =
      verdict ((ofItems (done ++ items)).read tail) := by
  induction items generalizing done with
  | nil =>
    rw [List.append_nil]
    rfl
  | cons item items ih =>
    rw [List.append_cons] at h ⊢
    have hnew := (regular_concat_iff.mp h.of_append).2
    rw [spelled_cons, List.append_assoc, verdict_read_item hnew]
    exact ih (done ++ [item]) h

theorem verdict_read_irregular (done items : List Item) (tail : List String)
    (hdone : Regular done) (h : ¬ Regular (done ++ items)) :
    verdict ((ofItems done).read (spelled items ++ tail)) = .misused := by
  induction items generalizing done with
  | nil =>
    rw [List.append_nil] at h
    exact absurd hdone h
  | cons item items ih =>
    rw [spelled_cons, List.append_assoc]
    by_cases hgiven : item.opt ∈ done.map Item.opt
    · exact verdict_read_given hgiven _
    · rw [verdict_read_item hgiven]
      rw [List.append_cons] at h
      exact ih (done ++ [item]) (regular_concat_iff.mpr ⟨hdone, hgiven⟩) h

theorem verdict_chooseMethod_bind {value : String} (hvalue : Method.ofName? value = none)
    (p : Progress) (f : Progress → Except Stop Settings) :
    verdict (p.chooseMethod value >>= f) = .misused := by
  obtain ⟨m, hm⟩ := chooseMethod_of_none p hvalue
  rw [hm]
  rfl

theorem read_other_method (h : BeginsNoItem ("--method" :: rest)) :
    verdict ((ofItems items).read ("--method" :: rest)) = .misused := by
  by_cases hplain : ∃ value tail, rest = value :: tail ∧ Word.ofArgument value = .plain
  · obtain ⟨value, tail, rfl, hvalue⟩ := hplain
    cases hname : Method.ofName? value with
    | none =>
      rw [verdict_read_detached rfl hvalue]
      exact verdict_chooseMethod_bind hname _ _
    | some m =>
      rw [Method.eq_of_ofName? hname] at h
      exact absurd rfl (h (.method m false) tail)
  · rw [read_method rfl]
    apply verdict_read_awaiting rfl
    intro value tail hrest hvalue
    exact hplain ⟨value, tail, hrest, hvalue⟩

theorem tail_long {name : List Char} {value : Option (List Char)}
    (h : BeginsNoItem (argument :: rest)) (hword : Word.ofArgument argument = .long name value) :
    Tail items (argument :: rest) := by
  cases hname : Opt.ofLong? name with
  | none =>
    apply Tail.misused
    simp only [read_long hword, long, hname]
    rfl
  | some opt =>
    have hargument := Word.argument_of_long hword
    rw [Opt.eq_of_ofLong? hname, String.ofList_toList] at hargument
    cases value with
    | none =>
      cases opt with
      | method =>
        obtain rfl : argument = "--method" := hargument
        exact .misused (read_other_method h)
      | debug => exact absurd (congrArg (· :: rest) hargument) (h (.debug false) rest)
      | help => exact .request (.inl hargument) rest
    | some chars =>
      cases opt with
      | method =>
        cases hvalue : Method.ofName? (String.ofList chars) with
        | none =>
          apply Tail.misused
          rw [read_attached rfl hword hname]
          exact verdict_chooseMethod_bind hvalue _ _
        | some m =>
          rw [Word.attached, Method.eq_of_ofName? hvalue] at hargument
          exact absurd (congrArg (· :: rest) hargument) (h (.method m true) rest)
      | debug | help =>
        apply Tail.misused
        simp only [read_long hword, long, hname]
        rfl

theorem cluster_other (hp : p.pending = .nothing) (hgiven : .debug ∈ p.given) {letter : Char}
    (hh : letter ≠ 'h') (letters : List Char) :
    ∃ m, p.cluster (letter :: letters) = .error (.misuse m) := by
  by_cases hd : letter = 'd'
  · rw [hd, cluster_cons rfl, flag_debug_of_mem hp hgiven]
    exact ⟨_, rfl⟩
  · simp only [cluster, Opt.ofLetter?_eq_none hd hh]
    exact ⟨_, rfl⟩

theorem cluster_debug_other (hp : p.pending = .nothing) {letter : Char} (hh : letter ≠ 'h')
    (letters : List Char) : ∃ m, p.cluster ('d' :: letter :: letters) = .error (.misuse m) := by
  by_cases hgiven : .debug ∈ p.given
  · exact cluster_other hp hgiven (by decide) _
  · rw [cluster_cons rfl, flag_debug_of_not_mem hp hgiven]
    refine cluster_other ?_ ?_ hh letters
    · exact hp
    · exact List.mem_append_right _ (List.mem_singleton_self _)

theorem asksHelp_of_cluster {letters : List Char} :
    AsksHelp items ("-" ++ String.ofList ('h' :: letters)) := by
  refine .inr (.inl ⟨String.ofList letters, ?_⟩)
  rw [← String.toList_inj]
  simp

theorem asksHelp_of_debug_cluster {letters : List Char} (h : .debug ∉ items.map Item.opt) :
    AsksHelp items ("-" ++ String.ofList ('d' :: 'h' :: letters)) := by
  refine .inr (.inr ⟨⟨String.ofList letters, ?_⟩, h⟩)
  rw [← String.toList_inj]
  simp

theorem tail_cluster {letters : List Char} (h : BeginsNoItem (argument :: rest))
    (hword : Word.ofArgument argument = .cluster letters) : Tail items (argument :: rest) := by
  have hmisused (hm : ∃ m, (ofItems items).cluster letters = .error (.misuse m)) :
      Tail items (argument :: rest) := by
    obtain ⟨m, hm⟩ := hm
    apply Tail.misused
    rw [read_cluster hword, hm]
    rfl
  obtain ⟨hargument, hletters⟩ := Word.argument_of_cluster hword
  obtain ⟨letter, letters, rfl⟩ := List.exists_cons_of_ne_nil hletters
  by_cases hh : letter = 'h'
  · rw [hargument, hh]
    exact .request asksHelp_of_cluster rest
  -- the letter of the debug option is read only if that was not given, and then not twice
  by_cases hgiven : .debug ∈ items.map Item.opt
  · exact hmisused (cluster_other rfl hgiven hh letters)
  by_cases hd : letter = 'd'
  · subst hd
    cases letters with
    | nil => exact absurd (congrArg (· :: rest) hargument) (h (.debug true) rest)
    | cons second letters =>
      by_cases hsecond : second = 'h'
      · rw [hargument, hsecond]
        exact .request (asksHelp_of_debug_cluster hgiven) rest
      · exact hmisused (cluster_debug_other rfl hsecond letters)
  · apply hmisused
    simp only [cluster, Opt.ofLetter?_eq_none hd hh]
    exact ⟨_, rfl⟩

theorem tail_of_beginsNoItem (items : List Item) {tail : List String} (h : BeginsNoItem tail) :
    Tail items tail := by
  cases tail with
  | nil => exact .nothing
  | cons argument rest =>
    cases hword : Word.ofArgument argument with
    | endOfOptions =>
      obtain rfl := Word.argument_of_endOfOptions hword
      cases rest with
      | nil => exact .mark
      | cons next rest => exact .misused (read_endOfOptions hword _ next)
    | long name value => exact tail_long h hword
    | cluster letters => exact tail_cluster h hword
    | plain =>
      apply Tail.misused
      rw [read_plain hword]
      exact verdict_plain_bind (by exact nofun) argument _

end Progress

/-- These arguments are items, with no option given twice, and perhaps the mark that ends the
options. The items choose the settings. -/
def Chooses (arguments : List String) (s : Settings) : Prop :=
  ∃ items, Regular items ∧ chosen items = s ∧
    (arguments = spelled items ∨ arguments = spelled items ++ ["--"])

/-- These arguments are items, with no option given twice, a request for help, and whatever
follows it. -/
def Requests (arguments : List String) : Prop :=
  ∃ items argument rest, Regular items ∧ AsksHelp items argument ∧
    arguments = spelled items ++ argument :: rest

variable {arguments : List String} {s : Settings}

theorem verdict_parse {items : List Item} (h : Regular items) (tail : List String) :
    verdict (parse (spelled items ++ tail)) = verdict ((ofItems items).read tail) :=
  Progress.verdict_read_spelled [] items tail h

theorem Chooses.parse_eq (h : Chooses arguments s) : parse arguments = .ok s := by
  obtain ⟨items, hregular, rfl, rfl | rfl⟩ := h
  · have hverdict := verdict_parse hregular []
    rw [List.append_nil] at hverdict
    exact verdict_eq_accepted hverdict
  · exact verdict_eq_accepted (verdict_parse hregular ["--"])

theorem Requests.parse_eq (h : Requests arguments) : parse arguments = .error .help := by
  obtain ⟨items, argument, rest, hregular, hhelp, rfl⟩ := h
  apply verdict_eq_help
  rw [verdict_parse hregular, Progress.read_help hhelp]
  rfl

theorem parse_cases (arguments : List String) :
    (∃ s, Chooses arguments s) ∨ Requests arguments ∨
      ∃ m, parse arguments = .error (.misuse m) := by
  obtain ⟨items, tail, rfl, htail⟩ := exists_spelled_append arguments
  by_cases hregular : Regular items
  · cases Progress.tail_of_beginsNoItem items htail with
    | nothing => exact .inl ⟨_, items, hregular, rfl, .inl (List.append_nil _)⟩
    | mark => exact .inl ⟨_, items, hregular, rfl, .inr rfl⟩
    | request hhelp rest => exact .inr (.inl ⟨items, _, rest, hregular, hhelp, rfl⟩)
    | misused hmisused =>
      rw [← verdict_parse hregular] at hmisused
      exact .inr (.inr (verdict_eq_misused hmisused))
  · have hmisused := Progress.verdict_read_irregular [] items tail List.nodup_nil hregular
    exact .inr (.inr (verdict_eq_misused hmisused))

theorem parse_eq_ok_iff : parse arguments = .ok s ↔ Chooses arguments s := by
  refine ⟨?_, Chooses.parse_eq⟩
  intro h
  rcases parse_cases arguments with ⟨t, ht⟩ | hhelp | ⟨m, hm⟩
  · rw [ht.parse_eq] at h
    cases h
    exact ht
  · rw [hhelp.parse_eq] at h
    cases h
  · rw [hm] at h
    cases h

theorem parse_eq_help_iff : parse arguments = .error .help ↔ Requests arguments := by
  refine ⟨?_, Requests.parse_eq⟩
  intro h
  rcases parse_cases arguments with ⟨t, ht⟩ | hhelp | ⟨m, hm⟩
  · rw [ht.parse_eq] at h
    cases h
  · exact hhelp
  · rw [hm] at h
    cases h

end CommandLine

namespace Program

open CommandLine (Chooses Misuse Requests parse)

theorem execute_declined {arguments : List String} {stop : CommandLine.Stop}
    (h : parse arguments = .error stop) (sink : Sink) (elapsed : String) :
    execute arguments sink elapsed = decline sink stop := by
  unfold execute
  rw [h]

/-- What the program does is settled by its command line alone. For items that give no option twice,
whether or not the mark that ends the options is the last argument, it makes the listing for a
million by the criterion that they choose. It reports how this has ended, and keeps a log just when
they ask for one. A request for help after such items prints the help, whatever follows. For all
other arguments nothing is printed, and an error is told. -/
theorem execute_partition (arguments : List String) :
    (∀ s, parse arguments = .ok s ↔ Chooses arguments s) ∧
    (parse arguments = .error .help ↔ Requests arguments) ∧
    CommandLine.help =
      "Print prime numbers, one per line, in ascending order\n\n" ++
      "Usage: primes [OPTIONS]\n\n" ++
      "Options:\n" ++
      "      --method <METHOD>  Primality test to use [does not change the output] " ++
      "[default: trial] [possible values: trial, sieve]\n" ++
      "  -d, --debug            Enable debug logging on stderr\n" ++
      "  -h, --help             Print help\n" ∧
    ∀ sink elapsed,
      (∀ s, Chooses arguments s → ∃ result,
        (s.method = .trial →
          Ended (Listing.run 1000000 { criterion := ({} : Trial), output := ({ sink } : Buffered) })
            result (execute arguments sink elapsed).output) ∧
        (s.method = .sieve →
          Ended (Listing.run 1000000 { criterion := Sieve.first, output := ({ sink } : Buffered) })
            result (execute arguments sink elapsed).output) ∧
        (execute arguments sink elapsed).exit =
          (match result with
            | .ok _ => 0
            | .error fault => if fault.kind = .brokenPipe then 0 else 1) ∧
        (execute arguments sink elapsed).log =
          (if s.debug then
            "method: " ++ (match s.method with | .trial => "Trial" | .sieve => "Sieve") ++
              ", target count: 1000000\n" else "") ++
          match result with
          | .ok tally =>
            if s.debug then
              "found " ++ numeral tally.count ++ " primes, largest " ++
                tally.largest.elim "None" (fun e => "Some(Prime(" ++ numeral e.value ++ "))") ++
                ", in " ++ elapsed ++ "\n" else ""
          | .error fault =>
            if fault.kind = .brokenPipe then
              (if s.debug then "stdout closed after " ++ elapsed ++ "\n" else "")
            else "Error: " ++ fault.message ++ "\n") ∧
      (Requests arguments →
        (execute arguments sink elapsed).exit = 0 ∧ (execute arguments sink elapsed).log = "" ∧
        (execute arguments sink elapsed).output = (sink.put CommandLine.help.toUTF8).2 ∧
        (sink.room.Counted →
          (execute arguments sink elapsed).output.written = sink.written ++
            CommandLine.help.toUTF8.extract 0 (sink.room.fit CommandLine.help.toUTF8))) ∧
      ((¬ ∃ s, Chooses arguments s) → ¬ Requests arguments →
        ∃ m : Misuse, parse arguments = .error (.misuse m) ∧
          execute arguments sink elapsed =
            ⟨2, sink, "error: " ++ m.text ++ "\n\nFor more information, try '--help'.\n"⟩) := by
  refine ⟨fun s => CommandLine.parse_eq_ok_iff, CommandLine.parse_eq_help_iff,
    by decide +kernel, ?_⟩
  intro sink elapsed
  refine ⟨?_, ?_, ?_⟩
  · intro s h
    obtain ⟨result, htrial, hsieve, hexit, hlog⟩ := execute_reported h.parse_eq sink elapsed
    refine ⟨result, htrial, hsieve, ?_, ?_⟩
    · rw [hexit]
      cases result with
      | ok tally => simp only [outcomeOf, closing_complete]
      | error fault => simp only [outcomeOf, closing_failed]
    · rw [hlog]
      cases result with
      | ok tally =>
        have hclosing := congrArg Prod.snd (closing_complete s elapsed tally)
        exact congrArg₂ (· ++ ·) (opening_eq s) hclosing
      | error fault =>
        have hclosing := congrArg Prod.snd (closing_failed s elapsed fault)
        exact congrArg₂ (· ++ ·) (opening_eq s) hclosing
  · intro h
    rw [execute_declined h.parse_eq]
    exact ⟨rfl, rfl, rfl, fun hs => (Sink.put_puts hs _).accepted.written⟩
  · intro hchooses hrequests
    rcases CommandLine.parse_cases arguments with haccepted | hhelp | ⟨m, hm⟩
    · exact absurd haccepted hchooses
    · exact absurd hhelp hrequests
    · exact ⟨m, hm, execute_declined hm sink elapsed⟩

/-- A log is kept for `-d` alone, and help is asked for in a cluster, unless the letter before it
was given already. -/
theorem execute_partition_clusters :
    Chooses ["--method=sieve", "-d", "--"] ⟨.sieve, true⟩ ∧
      (execute ["--method=sieve", "-d", "--"] Listing.narrow "3ms").exit = 1 ∧
      (execute ["--method=sieve", "-d", "--"] Listing.narrow "3ms").log =
        "method: Sieve, target count: 1000000\n" ++
          "Error: No space left on device (os error 28)\n" ∧
      Chooses [] ⟨.trial, false⟩ ∧
      (execute [] Listing.narrow "3ms").log = "Error: No space left on device (os error 28)\n" ∧
      Requests ["--method", "sieve", "-dhx", "--", "3"] ∧
      (execute ["--method", "sieve", "-dhx", "--", "3"] {} "3ms").output.written =
        CommandLine.help.toUTF8 ∧
      (¬ ∃ s, Chooses ["--debug", "-dhx"] s) ∧ ¬ Requests ["--debug", "-dhx"] ∧
      ∃ m : Misuse, execute ["--debug", "-dhx"] {} "3ms" =
        ⟨2, {}, "error: " ++ m.text ++ "\n\nFor more information, try '--help'.\n"⟩ := by
  obtain ⟨hchooses, -, -, hmakes⟩ := execute_partition ["--method=sieve", "-d", "--"]
  obtain ⟨hnothing, -, -, hbare⟩ := execute_partition []
  obtain ⟨-, hhelp, -, hprints⟩ := execute_partition ["--method", "sieve", "-dhx", "--", "3"]
  obtain ⟨hnone, hneither, -, htells⟩ := execute_partition ["--debug", "-dhx"]
  have hsettings := (hchooses ⟨.sieve, true⟩).mp (by decide)
  have hdefault := (hnothing ⟨.trial, false⟩).mp (by decide)
  have hrequests := hhelp.mp (by decide)
  obtain ⟨result, -, hsieve, hexit, hlog⟩ := (hmakes Listing.narrow "3ms").1 _ hsettings
  obtain ⟨bare, htrial, -, -, hquiet⟩ := (hbare Listing.narrow "3ms").1 _ hdefault
  obtain rfl := (hsieve rfl).error_of_failed (list_narrow .sieve)
  obtain rfl := (htrial rfl).error_of_failed (list_narrow .trial)
  obtain ⟨-, -, -, hwritten⟩ := (hprints {} "3ms").2.1 hrequests
  have hparse : parse ["--debug", "-dhx"] = .error (.misuse (.repeated .debug)) := by decide
  rw [hparse] at hneither
  have hrefused : ¬ ∃ s, Chooses ["--debug", "-dhx"] s := by
    rintro ⟨s, hs⟩
    rw [← hnone, hparse] at hs
    cases hs
  have hunasked : ¬ Requests ["--debug", "-dhx"] := by
    rw [← hneither]
    exact nofun
  obtain ⟨m, -, hm⟩ := (htells {} "3ms").2.2 hrefused hunasked
  refine ⟨hsettings, hexit, hlog.trans (by decide), hdefault, hquiet.trans (by decide), hrequests,
    ?_, hrefused, hunasked, m, hm⟩
  rw [hwritten trivial]
  exact ByteArray.empty_append.trans ByteArray.extract_zero_size

end Program

end PrimeStream
