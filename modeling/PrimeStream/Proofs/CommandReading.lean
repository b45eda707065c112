import Mathlib.Data.List.Basic
import PrimeStream.CommandLine.Parse

/-!
# Reading on after an option

A command line can be read from any argument on, as long as a method's value is not awaited: it is
all the same whether a method that holds its value is settled at once or only when the next option
comes. Only the misuse that is reported may be another one, so readings are compared by their
verdicts.
-/

set_option autoImplicit false

namespace PrimeStream.CommandLine

namespace Word

variable {argument : String} {name letters : List Char}

theorem argument_of_endOfOptions (h : ofArgument argument = .endOfOptions) : argument = "--" := by
  rw [← String.toList_inj]
  unfold ofArgument ofChars at h
  split at h
  · assumption
  · unfold ofLong at h
    split at h <;> cases h
  · cases h
  · cases h

def attached : Option (List Char) → String
  | none => ""
  | some value => "=" ++ String.ofList value

theorem chars_of_ofLong {cs : List Char} {value : Option (List Char)}
    (h : ofLong cs = .long name value) : cs = name ++ (attached value).toList := by
  have hsplit := List.takeWhile_append_dropWhile (p := (· ≠ '=')) (l := cs)
  unfold ofLong at h
  split at h
  · cases h
    exact (List.append_nil _).symm
  · rename_i c v hdrop
    cases h
    have hc : c = '=' := by
      have hhead := List.head?_dropWhile_not (· ≠ '=') cs
      rw [hdrop] at hhead
      simpa using hhead
    rw [hdrop, hc] at hsplit
    simpa [attached] using hsplit.symm

theorem argument_of_long {value : Option (List Char)}
    (h : ofArgument argument = .long name value) :
    argument = "--" ++ String.ofList name ++ attached value := by
  rw [← String.toList_inj]
  unfold ofArgument ofChars at h
  split at h
  · cases h
  · rename_i cs _ hcs
    rw [hcs, chars_of_ofLong h]
    simp
  · cases h
  · cases h

theorem argument_of_cluster (h : ofArgument argument = .cluster letters) :
    argument = "-" ++ String.ofList letters ∧ letters ≠ [] := by
  rw [← String.toList_inj]
  unfold ofArgument ofChars at h
  split at h
  · cases h
  · unfold ofLong at h
    split at h <;> cases h
  · rename_i hcs
    cases h
    rw [hcs]
    simp
  · cases h

end Word

/-- What becomes of a command line, whatever misuse is found in it. -/
inductive Verdict where
  | accepted (s : Settings)
  | help
  | misused
  deriving DecidableEq, Repr

def verdict : Except Stop Settings → Verdict
  | .ok s => .accepted s
  | .error .help => .help
  | .error (.misuse _) => .misused

theorem verdict_eq_accepted {r : Except Stop Settings} {s : Settings}
    (h : verdict r = .accepted s) : r = .ok s := by
  unfold verdict at h
  split at h <;> simp_all

theorem verdict_eq_help {r : Except Stop Settings} (h : verdict r = .help) :
    r = .error .help := by
  unfold verdict at h
  split at h <;> simp_all

theorem verdict_eq_misused {r : Except Stop Settings} (h : verdict r = .misused) :
    ∃ m, r = .error (.misuse m) := by
  unfold verdict at h
  split at h <;> simp_all

namespace Progress

variable {p : Progress} {argument : String} {rest : List String}

theorem read_endOfOptions (h : Word.ofArgument argument = .endOfOptions) (p : Progress)
    (next : String) : verdict (p.read (argument :: next :: rest)) = .misused := by
  simp only [read, h]
  rfl

theorem read_long {name : List Char} {value : Option (List Char)}
    (h : Word.ofArgument argument = .long name value) (p : Progress) (rest : List String) :
    p.read (argument :: rest) = p.long name value >>= (·.read rest) := by
  simp only [read, h]

theorem read_cluster {letters : List Char} (h : Word.ofArgument argument = .cluster letters)
    (p : Progress) (rest : List String) :
    p.read (argument :: rest) = p.cluster letters >>= (·.read rest) := by
  simp only [read, h]

theorem read_plain (h : Word.ofArgument argument = .plain) (p : Progress) (rest : List String) :
    p.read (argument :: rest) = p.plain argument >>= (·.read rest) := by
  simp only [read, h]

theorem settle_of_nothing (h : p.pending = .nothing) : p.settle = .ok p := by
  rw [settle, h]

theorem chooseMethod_of_mem (h : .method ∈ p.given) (value : String) :
    p.chooseMethod value = .error (.misuse (.repeated .method)) := by
  rw [chooseMethod, note, if_pos h]
  rfl

theorem chooseMethod_of_some {method : Method} {value : String} (h : .method ∉ p.given)
    (hvalue : Method.ofName? value = some method) :
    p.chooseMethod value =
      .ok { p with settings := { p.settings with method }, given := p.given ++ [.method] } := by
  rw [chooseMethod, note, if_neg h]
  simp only [bind, Except.bind, hvalue]

theorem chooseMethod_of_none (p : Progress) {value : String}
    (hvalue : Method.ofName? value = none) : ∃ m, p.chooseMethod value = .error (.misuse m) := by
  by_cases h : .method ∈ p.given
  · exact ⟨_, chooseMethod_of_mem h value⟩
  · rw [chooseMethod, note, if_neg h]
    simp only [bind, Except.bind, hvalue]
    split
    · exact ⟨_, rfl⟩
    · exact ⟨_, rfl⟩

theorem chooseMethod_cases (p : Progress) (value : String) :
    (∃ q, p.chooseMethod value = .ok q ∧ q.pending = p.pending) ∨
      ∃ m, p.chooseMethod value = .error (.misuse m) := by
  cases hvalue : Method.ofName? value with
  | none => exact .inr (chooseMethod_of_none p hvalue)
  | some method =>
    by_cases h : .method ∈ p.given
    · exact .inr ⟨_, chooseMethod_of_mem h value⟩
    · exact .inl ⟨_, chooseMethod_of_some h hvalue, rfl⟩

theorem settle_cases (p : Progress) :
    (∃ q, p.settle = .ok q ∧ q.pending = .nothing) ∨ ∃ m, p.settle = .error (.misuse m) := by
  unfold settle
  split
  · rename_i h
    exact .inl ⟨p, rfl, h⟩
  · exact .inr ⟨_, rfl⟩
  · exact chooseMethod_cases _ _

theorem settle_bind_settle {α : Type} (p : Progress) (f : Progress → Except Stop α) :
    (p.settle >>= fun q => q.settle >>= f) = p.settle >>= f := by
  rcases settle_cases p with ⟨q, hq, hnothing⟩ | ⟨m, hm⟩
  · rw [hq]
    exact congrArg (· >>= f) (settle_of_nothing hnothing)
  · rw [hm]
    rfl

theorem verdict_settle_bind {f : Progress → Except Stop Settings}
    (h : ∀ q, q.pending = .nothing → verdict (f q) = .misused) :
    verdict (p.settle >>= f) = .misused := by
  rcases settle_cases p with ⟨q, hq, hnothing⟩ | ⟨m, hm⟩
  · rw [hq]
    exact h q hnothing
  · rw [hm]
    rfl

/-- An argument settles a pending method before anything else, or it is misused anyway. -/
def SettlesFirst (g : Progress → Except Stop Progress) : Prop :=
  (∀ p, g p = p.settle >>= g) ∨ ∀ p, ∃ m, g p = .error (.misuse m)

theorem SettlesFirst.verdict_bind {g : Progress → Except Stop Progress} (h : SettlesFirst g)
    (p : Progress) (f : Progress → Except Stop Settings) :
    verdict (g p >>= f) = verdict (p.settle >>= fun q => g q >>= f) := by
  rcases h with hsettle | hmisuse
  · rw [hsettle p, bind_assoc]
  · obtain ⟨m, hm⟩ := hmisuse p
    rw [hm, verdict_settle_bind]
    · rfl
    · intro q _
      obtain ⟨m, hm⟩ := hmisuse q
      rw [hm]
      rfl

theorem flag_eq_settle_bind (opt : Opt) (p : Progress) :
    p.flag opt = p.settle >>= (·.flag opt) := by
  cases opt <;> exact (settle_bind_settle p _).symm

theorem long_settlesFirst (name : List Char) (value : Option (List Char)) :
    SettlesFirst (·.long name value) := by
  unfold SettlesFirst long
  cases Opt.ofLong? name with
  | none => exact .inr fun _ => ⟨_, rfl⟩
  | some opt =>
    cases value with
    | none => exact .inl (flag_eq_settle_bind opt)
    | some value =>
      cases opt with
      | method => exact .inl fun p => (settle_bind_settle p _).symm
      | debug | help => exact .inr fun _ => ⟨_, rfl⟩

theorem cluster_settlesFirst {letters : List Char} (h : letters ≠ []) :
    SettlesFirst (·.cluster letters) := by
  cases letters with
  | nil => exact absurd rfl h
  | cons letter letters =>
    unfold SettlesFirst
    simp only [cluster]
    cases Opt.ofLetter? letter with
    | none => exact .inr fun _ => ⟨_, rfl⟩
    | some opt =>
      refine .inl fun p => ?_
      dsimp only
      rw [flag_eq_settle_bind opt p, bind_assoc]

theorem verdict_plain_bind (h : p.pending ≠ .awaiting) (argument : String)
    (f : Progress → Except Stop Settings) : verdict (p.plain argument >>= f) = .misused := by
  unfold plain
  split
  · exact absurd ‹_› h
  · rfl

theorem read_singleton_endOfOptions (h : Word.ofArgument argument = .endOfOptions)
    (p : Progress) : p.read [argument] = p.read [] := by
  simp only [read, h]

/-- A method's value need not wait for the next option: settled at once, it leads to the same
verdict. -/
theorem verdict_read (hpending : p.pending ≠ .awaiting) (arguments : List String) :
    verdict (p.read arguments) = verdict (p.settle >>= (·.read arguments)) := by
  cases arguments with
  | nil => exact congrArg verdict (settle_bind_settle p fun q => .ok q.settings).symm
  | cons argument rest =>
    cases hword : Word.ofArgument argument with
    | endOfOptions =>
      cases rest with
      | nil =>
        simp only [read_singleton_endOfOptions hword]
        exact congrArg verdict (settle_bind_settle p fun q => .ok q.settings).symm
      | cons next rest =>
        rw [read_endOfOptions hword, verdict_settle_bind]
        intro q _
        exact read_endOfOptions hword q next
    | long name value =>
      simp only [read_long hword]
      exact (long_settlesFirst name value).verdict_bind p _
    | cluster letters =>
      simp only [read_cluster hword]
      exact (cluster_settlesFirst (Word.argument_of_cluster hword).2).verdict_bind p _
    | plain =>
      simp only [read_plain hword]
      rw [verdict_plain_bind hpending, verdict_settle_bind]
      intro q hq
      apply verdict_plain_bind
      rw [hq]
      exact nofun

end Progress

end PrimeStream.CommandLine
