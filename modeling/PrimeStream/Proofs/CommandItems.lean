import Mathlib.Data.List.Nodup
import PrimeStream.Proofs.CommandReading

/-!
# Items of a command line

An item gives one option: a method with its value attached or in an argument of its own, or the
debug option by its name or its letter. After some items a command line is read on from the settings
that they choose. One more item is misused if its option was given before, and a request for help is
answered whatever comes after it.
-/

set_option autoImplicit false

namespace PrimeStream.CommandLine

inductive Item where
  | method (m : Method) (attached : Bool)
  | debug (short : Bool)
  deriving DecidableEq, Repr

namespace Item

def arguments : Item → List String
  | .method m false => ["--method", m.name]
  | .method m true => ["--method=" ++ m.name]
  | .debug false => ["--debug"]
  | .debug true => ["-d"]

def opt : Item → Opt
  | .method _ _ => .method
  | .debug _ => .debug

def method? : Item → Option Method
  | .method m _ => some m
  | .debug _ => none

def isDebug : Item → Bool
  | .method _ _ => false
  | .debug _ => true

theorem arguments_ne_nil (item : Item) : item.arguments ≠ [] := by
  rcases item with ⟨m, _ | _⟩ | ⟨_ | _⟩ <;> exact List.cons_ne_nil _ _

end Item

def spelled (items : List Item) : List String := items.flatMap Item.arguments

theorem spelled_cons (item : Item) (items : List Item) :
    spelled (item :: items) = item.arguments ++ spelled items :=
  List.flatMap_cons

/-- No option is given twice. -/
def Regular (items : List Item) : Prop := (items.map Item.opt).Nodup

theorem regular_concat_iff {items : List Item} {item : Item} :
    Regular (items ++ [item]) ↔ Regular items ∧ item.opt ∉ items.map Item.opt := by
  rw [Regular, List.map_append, List.map_singleton, ← List.concat_eq_append, List.nodup_concat]
  exact And.comm

theorem Regular.of_append {items rest : List Item} (h : Regular (items ++ rest)) :
    Regular items := by
  rw [Regular, List.map_append] at h
  exact h.of_append_left

/-- The method that an item gives, or trial division, and a log if an item asks for it. -/
def chosen (items : List Item) : Settings where
  method := (items.findSome? Item.method?).getD .trial
  debug := items.any Item.isDebug

/-- An argument that asks for help after some items: by name, or by the first letter of a cluster,
or by the second one after the letter of the debug option, which must not be given before. -/
def AsksHelp (items : List Item) (argument : String) : Prop :=
  argument = "--help" ∨ (∃ letters, argument = "-h" ++ letters) ∨
    (∃ letters, argument = "-dh" ++ letters) ∧ .debug ∉ items.map Item.opt

variable {items : List Item}

theorem findSome?_method (h : .method ∉ items.map Item.opt) :
    items.findSome? Item.method? = none := by
  rw [List.findSome?_eq_none_iff]
  intro item hitem
  cases item with
  | method m attached => exact absurd (List.mem_map_of_mem hitem) h
  | debug short => rfl

theorem chosen_concat_method (h : .method ∉ items.map Item.opt) (m : Method) (attached : Bool) :
    chosen (items ++ [.method m attached]) = { chosen items with method := m } := by
  simp [chosen, List.findSome?_append, findSome?_method h, Item.method?, Item.isDebug]

theorem chosen_concat_debug (items : List Item) (short : Bool) :
    chosen (items ++ [.debug short]) = { chosen items with debug := true } := by
  simp [chosen, List.findSome?_append, Item.method?, Item.isDebug]

namespace Progress

/-- How far a command line is read after some items. -/
def ofItems (items : List Item) : Progress where
  settings := chosen items
  given := items.map Item.opt

variable {p : Progress} {argument value : String} {rest : List String}

theorem verdict_read_awaiting (hp : p.pending = .awaiting) {arguments : List String}
    (h : ∀ value rest, arguments = value :: rest → Word.ofArgument value ≠ .plain) :
    verdict (p.read arguments) = .misused := by
  have hsettle : p.settle = .error (.misuse .missingMethod) := by rw [settle, hp]
  have hnil : verdict (p.read []) = .misused := by
    rw [read, hsettle]
    rfl
  cases arguments with
  | nil => exact hnil
  | cons argument rest =>
    cases hword : Word.ofArgument argument with
    | endOfOptions =>
      cases rest with
      | nil => rwa [read_singleton_endOfOptions hword]
      | cons next rest => exact read_endOfOptions hword p next
    | long name value =>
      rw [read_long hword, (long_settlesFirst name value).verdict_bind p, hsettle]
      rfl
    | cluster letters =>
      have hsettles := cluster_settlesFirst (Word.argument_of_cluster hword).2
      rw [read_cluster hword, hsettles.verdict_bind p, hsettle]
      rfl
    | plain => exact absurd hword (h argument rest rfl)

theorem read_flag {name : List Char} {opt : Opt}
    (hword : Word.ofArgument argument = .long name none) (hname : Opt.ofLong? name = some opt)
    (p : Progress) (rest : List String) :
    p.read (argument :: rest) = p.flag opt >>= (·.read rest) := by
  simp only [read_long hword, long, hname]

theorem read_method (hp : p.pending = .nothing) (rest : List String) :
    p.read ("--method" :: rest) = { p with pending := .awaiting }.read rest := by
  have hword : Word.ofArgument "--method" = .long "method".toList none := by decide
  have hname : Opt.ofLong? "method".toList = some .method := by decide
  rw [read_flag hword hname, flag, settle_of_nothing hp]
  rfl

theorem verdict_read_detached (hp : p.pending = .nothing)
    (hvalue : Word.ofArgument value = .plain) (rest : List String) :
    verdict (p.read ("--method" :: value :: rest)) =
      verdict (p.chooseMethod value >>= (·.read rest)) := by
  have hholding : { p with pending := .awaiting }.plain value =
      .ok { p with pending := .holding value } := rfl
  have hnothing : { p with pending := .nothing } = p := by rw [← hp]
  rw [read_method hp, read_plain hvalue, hholding]
  refine (verdict_read (by exact nofun) rest).trans ?_
  rw [settle]
  dsimp only
  rw [hnothing]

theorem read_attached {name chars : List Char} (hp : p.pending = .nothing)
    (hword : Word.ofArgument argument = .long name (some chars))
    (hname : Opt.ofLong? name = some .method) (rest : List String) :
    p.read (argument :: rest) = p.chooseMethod (String.ofList chars) >>= (·.read rest) := by
  simp only [read_long hword, long, hname, settle_of_nothing hp]
  rfl

theorem flag_debug_of_mem (hp : p.pending = .nothing) (h : .debug ∈ p.given) :
    p.flag .debug = .error (.misuse (.repeated .debug)) := by
  simp only [flag, settle_of_nothing hp, bind, Except.bind, note, if_pos h]

theorem flag_debug_of_not_mem (hp : p.pending = .nothing) (h : .debug ∉ p.given) :
    p.flag .debug = .ok { p with
      settings := { p.settings with debug := true }, given := p.given ++ [.debug] } := by
  simp only [flag, settle_of_nothing hp, bind, Except.bind, note, if_neg h]
  rfl

theorem flag_help (hp : p.pending = .nothing) : p.flag .help = .error .help := by
  simp only [flag, settle_of_nothing hp]
  rfl

theorem cluster_cons {letter : Char} {opt : Opt} (h : Opt.ofLetter? letter = some opt)
    (p : Progress) (letters : List Char) :
    p.cluster (letter :: letters) = p.flag opt >>= (·.cluster letters) := by
  simp only [cluster, h]

theorem read_debug (p : Progress) (short : Bool) (rest : List String) :
    p.read ((Item.debug short).arguments ++ rest) = p.flag .debug >>= (·.read rest) := by
  cases short with
  | false =>
    have hword : Word.ofArgument "--debug" = .long "debug".toList none := by decide
    exact read_flag hword (by decide) p rest
  | true =>
    have hword : Word.ofArgument "-d" = .cluster ['d'] := by decide
    have hletter : Opt.ofLetter? 'd' = some .debug := rfl
    refine (read_cluster hword p rest).trans ?_
    rw [cluster_cons hletter, bind_assoc]
    rfl

theorem verdict_read_method (hp : p.pending = .nothing) (m : Method) (attached : Bool)
    (rest : List String) :
    verdict (p.read ((Item.method m attached).arguments ++ rest)) =
      verdict (p.chooseMethod m.name >>= (·.read rest)) := by
  cases attached with
  | false =>
    have hplain : Word.ofArgument m.name = .plain := by cases m <;> decide
    exact verdict_read_detached hp hplain rest
  | true =>
    have hword : Word.ofArgument ("--method=" ++ m.name) =
        .long "method".toList (some m.name.toList) := by cases m <;> decide
    have hread := read_attached hp hword (by decide) rest
    rw [String.ofList_toList] at hread
    exact congrArg verdict hread

theorem ofName?_name (m : Method) : Method.ofName? m.name = some m := by
  cases m <;> decide

variable {item : Item}

theorem verdict_read_given (h : item.opt ∈ items.map Item.opt) (rest : List String) :
    verdict ((ofItems items).read (item.arguments ++ rest)) = .misused := by
  cases item with
  | method m attached =>
    rw [verdict_read_method rfl, chooseMethod_of_mem h]
    rfl
  | debug short =>
    rw [read_debug, flag_debug_of_mem rfl h]
    rfl

theorem verdict_read_item (h : item.opt ∉ items.map Item.opt) (rest : List String) :
    verdict ((ofItems items).read (item.arguments ++ rest)) =
      verdict ((ofItems (items ++ [item])).read rest) := by
  cases item with
  | method m attached =>
    rw [verdict_read_method rfl, chooseMethod_of_some h (ofName?_name m),
      ofItems, ofItems, chosen_concat_method h m attached, List.map_append]
    rfl
  | debug short =>
    rw [read_debug, flag_debug_of_not_mem rfl h, ofItems, ofItems, chosen_concat_debug items short,
      List.map_append]
    rfl

theorem cluster_help (hp : p.pending = .nothing) (letters : List Char) :
    p.cluster ('h' :: letters) = .error .help := by
  rw [cluster_cons rfl, flag_help hp]
  rfl

theorem read_help (h : AsksHelp items argument) (rest : List String) :
    (ofItems items).read (argument :: rest) = .error .help := by
  rcases h with rfl | ⟨letters, rfl⟩ | ⟨⟨letters, rfl⟩, hgiven⟩
  · have hword : Word.ofArgument "--help" = .long "help".toList none := by decide
    have hname : Opt.ofLong? "help".toList = some .help := by decide
    rw [read_flag hword hname, flag_help rfl]
    rfl
  · have hword : Word.ofArgument ("-h" ++ letters) = .cluster ('h' :: letters.toList) := by
      rw [Word.ofArgument, String.toList_append]
      rfl
    rw [read_cluster hword, cluster_help rfl]
    rfl
  · have hword : Word.ofArgument ("-dh" ++ letters) = .cluster ('d' :: 'h' :: letters.toList) := by
      rw [Word.ofArgument, String.toList_append]
      rfl
    have hcluster : (ofItems items).cluster ('d' :: 'h' :: letters.toList) = .error .help := by
      rw [cluster_cons rfl, flag_debug_of_not_mem rfl hgiven]
      simp only [bind, Except.bind]
      exact cluster_help rfl letters.toList
    rw [read_cluster hword, hcluster]
    rfl

end Progress

end PrimeStream.CommandLine
