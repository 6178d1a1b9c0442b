import Mathlib.Data.List.Infix
import Mathlib.Data.List.Nodup
import Mathlib.Data.List.TakeWhile
import LustreTools.Batch.Barrier

/-!
The command line of multexu.sh. The script passes its arguments on unquoted, so they are
split into words and expanded as pathnames before `get_parameters` reads them. The branch
of `--cmd` takes the words that follow until one looks like an option.
-/
namespace BatchOptions
open BatchBarrier

abbrev Word := List Char

/-- What the shell does by itself: the expansion of pathnames, the builtin `[` with these
    arguments, and the range `[a-zA-Z]` of the locale. -/
structure Shell where
  pathnames : Word → List Word
  test : List Word → Bool
  letter : Char → Bool
  test_one : ∀ w, test [w] = !w.isEmpty
  ascii : ∀ c, c.toNat < 128 → letter c = c.isAlpha

structure Params where
  iptable : Word
  filenames : Word
  location : Word
  undefine : Word
  cmdReboot : Bool
  cmdCmd : Word
  ignored : List Word
  deriving DecidableEq, Repr

def start : Params := ⟨[], [], [], [], false, [], []⟩

def optHelp : Word := ['-', '-', 'h', 'e', 'l', 'p']
def optLocation : Word := ['-', '-', 'l', 'o', 'c', 'a', 't', 'i', 'o', 'n']
def optSendfile : Word := ['-', '-', 's', 'e', 'n', 'd', 'f', 'i', 'l', 'e']
def optUdefine : Word := ['-', '-', 'u', 'd', 'e', 'f', 'i', 'n', 'e']
def optSupercmd : Word := ['-', '-', 's', 'u', 'p', 'e', 'r', 'c', 'm', 'd']
def optCmd : Word := ['-', '-', 'c', 'm', 'd']
def optIptable : Word := ['-', '-', 'i', 'p', 't', 'a', 'b', 'l', 'e']
def optVersion : Word := ['-', '-', 'v', 'e', 'r', 's', 'i', 'o', 'n']
def optReboot : Word := ['-', '-', 'r', 'e', 'b', 'o', 'o', 't']

/-- The pattern `name=?*`. -/
def valued (name w : Word) : Bool := (name ++ ['=']).isPrefixOf w && decide (name.length + 1 < w.length)

/-- `${1#*=}`. -/
def afterEquals (w : Word) : Word :=
  match w.dropWhile (· ≠ '=') with
  | [] => w
  | _ :: rest => rest

/-- `${1#*--supercmd=}`. -/
def afterSupercmd : Word → Word → Word
  | whole, [] => whole
  | whole, c :: w =>
    if (optSupercmd ++ ['=']).isPrefixOf (c :: w) then (c :: w).drop (optSupercmd.length + 1)
    else afterSupercmd whole w

inductive Branch where
  | shift (p : Params)
  | command (p : Params)
  | leave (p : Params)
  | exits (status : Int) (text : String)
  deriving DecidableEq, Repr

def needsArgument (option : String) : Branch :=
  .exits 1 ("MULTEXU ERROR: \"" ++ option ++ "\" requires a non-empty option argument.\n")

/-- The branches of `case $1`, in their order. -/
def branch (w : Word) (rest : List Word) (p : Params) : Branch :=
  if w = ['-', 'h'] ∨ w = ['-', '?'] ∨ w = optHelp then .exits 0 ""
  else if valued ['-', 'l'] w || valued optLocation w then .shift { p with location := afterEquals w }
  else if ['-', 'l', '='].isPrefixOf w || (optLocation ++ ['=']).isPrefixOf w then
    needsArgument "-s|--sendfile"
  else if valued ['-', 's'] w || valued optSendfile w then .shift { p with filenames := afterEquals w }
  else if w = ['-', 's'] ∨ w = optSendfile ++ ['='] then needsArgument "-s|--sendfile"
  else if w = ['-', 'u'] ∨ w = optUdefine then
    match rest with
    | [] => needsArgument "-u|--undefine"
    | value :: _ =>
      if value.isEmpty then needsArgument "-u|--undefine" else .shift { p with undefine := value }
  else if valued optSupercmd w then
    .leave { p with cmdCmd := List.intercalate [' '] ((w :: rest).map fun x => afterSupercmd x x) }
  else if valued ['-', 'c'] w || valued optCmd w then .command { p with cmdCmd := afterEquals w }
  else if w = ['-', 'c'] ∨ w = optCmd ++ ['='] then needsArgument "-c|--cmd"
  else if valued ['-', 'i'] w || valued optIptable w then .shift { p with iptable := afterEquals w }
  else if w = ['-', 'i', '='] ∨ w = optIptable ++ ['='] then needsArgument "--iptable"
  else if w = ['-', 'v'] ∨ w = optVersion then .exits 0 "MULTEXU INFO:multexu 1.0 DSAL,WNLO\n"
  else if w = ['-', 'r'] ∨ w = optReboot then .shift { p with cmdReboot := true }
  else if w = ['-', '-'] then .shift p
  else if ['-'].isPrefixOf w && decide (1 < w.length) then .shift { p with ignored := p.ignored ++ [w] }
  else .leave p

def fields (arg : Word) : List Word := (arg.splitOnP isBlank).filter fun w => !w.isEmpty

section
variable (sh : Shell)

/-- `[a-zA-Z]+=[a-zA-Z]+` at the start of a text. -/
def nameAndValue (text : Word) : Bool :=
  match text.dropWhile sh.letter with
  | '=' :: c :: _ => !(text.takeWhile sh.letter).isEmpty && sh.letter c
  | _ => false

/-- `-{1,2}[a-zA-Z]+=[a-zA-Z]+` at the start of a text. -/
def optionHere : Word → Bool
  | '-' :: '-' :: text => nameAndValue sh text || nameAndValue sh ('-' :: text)
  | '-' :: text => nameAndValue sh text
  | _ => false

/-- The regular expression is not anchored. -/
def looksLikeOption (w : Word) : Bool := w.tails.any (optionHere sh)

/-- The condition of the inner loop of `--cmd`; `[ $1 ]` is not quoted either. -/
def absorbs (w : Word) : Bool := !looksLikeOption sh w && sh.test ((fields w).flatMap sh.pathnames)

inductive Outcome where
  | parsed (p : Params)
  | exited (status : Int) (text : String)
  deriving DecidableEq, Repr

/-- The option loop of `get_parameters`; inside the inner loop of `--cmd` if `inCmd`. Words
    that run out are an empty `$1`. -/
def getParameters : Bool → List Word → Params → Outcome
  | _, [], p => .parsed p
  | inCmd, w :: rest, p =>
    if inCmd && absorbs sh w then getParameters true rest { p with cmdCmd := p.cmdCmd ++ ' ' :: w }
    else match branch w rest p with
    | .shift p => getParameters false rest p
    | .command p => getParameters true rest p
    | .leave p => .parsed p
    | .exits status text => .exited status text

def multexu (args : List Word) : Outcome :=
  getParameters sh false ((args.flatMap fields).flatMap sh.pathnames) start

end

inductive Group where
  | iptable (value : Word)
  | sendfile (value : Word)
  | location (value : Word)
  | cmd (first : Word) (others : List Word)
  deriving DecidableEq, Repr

inductive Kind where
  | iptable
  | sendfile
  | location
  | cmd
  deriving DecidableEq, Repr

def Group.kind : Group → Kind
  | .iptable _ => .iptable
  | .sendfile _ => .sendfile
  | .location _ => .location
  | .cmd _ _ => .cmd

def Group.word : Group → Word
  | .iptable value => optIptable ++ '=' :: value
  | .sendfile value => optSendfile ++ '=' :: value
  | .location value => optLocation ++ '=' :: value
  | .cmd first _ => optCmd ++ '=' :: first

def Group.others : Group → List Word
  | .cmd _ others => others
  | _ => []

def Group.words (g : Group) : List Word := g.word :: g.others

def Group.apply (p : Params) : Group → Params
  | .iptable value => { p with iptable := value }
  | .sendfile value => { p with filenames := value }
  | .location value => { p with location := value }
  | .cmd first others => { p with cmdCmd := List.intercalate [' '] (first :: others) }

def settings (groups : List Group) : Params := groups.foldl Group.apply start

def Value (w : Word) : Prop := w ≠ [] ∧ ∀ c ∈ w, isBlank c = false

/-- A word of a command that cannot be taken for an option. -/
def Plain (w : Word) : Prop := Value w ∧ w.head? ≠ some '-' ∧ '=' ∉ w

def Group.Proper : Group → Prop
  | .iptable value => Value value
  | .sendfile value => Value value
  | .location value => Value value
  | .cmd first others => Value first ∧ ∀ w ∈ others, Plain w

structure Proper (groups : List Group) : Prop where
  once : (groups.map Group.kind).Nodup
  each : ∀ g ∈ groups, g.Proper

def OrderFree (sh : Shell) (groups : List Group) : Prop :=
  ∀ order : List Group, order.Perm groups →
    getParameters sh false (order.flatMap Group.words) start = .parsed (settings groups)

/-- A hyphen, letters, an equals sign and a letter stand together in the word. -/
def Recognised (sh : Shell) (w : Word) : Prop :=
  ∃ front name c back, w = front ++ '-' :: (name ++ '=' :: c :: back) ∧
    name ≠ [] ∧ (∀ x ∈ name, sh.letter x = true) ∧ sh.letter c = true

/-- `[ $1 ]` holds of a word without blanks: the files that it names do not disturb the test. -/
def Tested (sh : Shell) (w : Word) : Prop := sh.test (sh.pathnames w) = true

/-- The groups with their command are told apart: every option ends the inner loop and no
    further word of the command does. -/
def Apart (sh : Shell) (groups : List Group) : Prop :=
  ∀ g ∈ groups, (g.kind ≠ .cmd → Recognised sh g.word ∨ ¬ Tested sh g.word) ∧ ∀ w ∈ g.others, Tested sh w

variable {sh : Shell}

theorem equals_not_letter (sh : Shell) : sh.letter '=' = false := by
  rw [sh.ascii '=' (by decide)]
  decide

theorem name_and_value_iff (text : Word) : nameAndValue sh text = true ↔
    ∃ name c back, text = name ++ '=' :: c :: back ∧ name ≠ [] ∧ (∀ x ∈ name, sh.letter x = true) ∧
      sh.letter c = true := by
  have parts := List.takeWhile_append_dropWhile (p := sh.letter) (l := text)
  unfold nameAndValue
  constructor
  · intro found
    split at found
    · rename_i c back rest
      rw [rest] at parts
      simp only [Bool.and_eq_true, Bool.not_eq_true', List.isEmpty_eq_false_iff] at found
      exact ⟨_, c, back, parts.symm, found.1, fun x member => List.mem_takeWhile_imp member, found.2⟩
    · cases found
  · rintro ⟨name, c, back, rfl, some, letters, letter⟩
    have stop := equals_not_letter sh
    rw [List.dropWhile_append_of_pos letters, List.takeWhile_append_of_pos letters]
    simp [stop, some, letter]

theorem option_here_iff (text : Word) : optionHere sh text = true ↔
    ∃ rest, (text = '-' :: rest ∨ text = '-' :: '-' :: rest) ∧ nameAndValue sh rest = true := by
  unfold optionHere
  split
  · rename_i rest
    simp only [Bool.or_eq_true, List.cons.injEq, true_and]
    constructor
    · rintro (two | one)
      · exact ⟨rest, Or.inr rfl, two⟩
      · exact ⟨'-' :: rest, Or.inl rfl, one⟩
    · rintro ⟨other, rfl | rfl, found⟩
      · exact Or.inr found
      · exact Or.inl found
  · rename_i rest single
    constructor
    · intro found
      exact ⟨rest, Or.inl rfl, found⟩
    · rintro ⟨other, same | same, found⟩
      · rw [(List.cons.inj same).2]
        exact found
      · exact absurd (List.cons.inj same).2 (single other)
  · rename_i other
    apply iff_of_false (by decide)
    rintro ⟨rest, rfl | rfl, _⟩
    · exact other rest rfl
    · exact other _ rfl

theorem looks_like_option_iff (w : Word) : looksLikeOption sh w = true ↔ Recognised sh w := by
  simp only [looksLikeOption, List.any_eq_true, List.mem_tails, option_here_iff]
  constructor
  · rintro ⟨tail, ⟨front, rfl⟩, rest, starts, found⟩
    obtain ⟨name, c, back, rfl, some, letters, letter⟩ := (name_and_value_iff rest).mp found
    rcases starts with rfl | rfl
    · exact ⟨front, name, c, back, rfl, some, letters, letter⟩
    · exact ⟨front ++ ['-'], name, c, back, by simp, some, letters, letter⟩
  · rintro ⟨front, name, c, back, rfl, some, letters, letter⟩
    refine ⟨_, ⟨front, rfl⟩, _, Or.inl rfl, ?_⟩
    exact (name_and_value_iff _).mpr ⟨name, c, back, rfl, some, letters, letter⟩

theorem plain_not_recognised {w : Word} (plain : Plain w) : ¬ Recognised sh w := by
  rintro ⟨front, name, c, back, rfl, _⟩
  exact plain.2.2 (by simp)

theorem option_branch {g : Group} (option : g.kind ≠ .cmd) (proper : g.Proper)
    (rest : List Word) (p : Params) :
    branch g.word rest p = .shift (g.apply p) := by
  cases g with
  | iptable value =>
    simp [branch, Group.word, Group.apply, valued, afterEquals, optIptable, optHelp, optLocation, optSendfile,
      optUdefine, optSupercmd, optCmd, proper.1]
  | sendfile value =>
    simp [branch, Group.word, Group.apply, valued, afterEquals, optHelp, optLocation, optSendfile, proper.1]
  | location value =>
    simp [branch, Group.word, Group.apply, valued, afterEquals, optHelp, optLocation, proper.1]
  | cmd first others => exact absurd rfl option

theorem cmd_branch {first : Word} (some : first ≠ []) (others rest : List Word) (p : Params) :
    branch (Group.cmd first others).word rest p = .command { p with cmdCmd := first } := by
  simp [branch, Group.word, valued, afterEquals, optHelp, optLocation, optSendfile, optUdefine,
    optSupercmd, optCmd,
    some]

theorem fields_value {w : Word} (value : Value w) : fields w = [w] := by
  have whole : w.splitOnP isBlank = [w] := List.splitOnP_eq_singleton value.2
  simp [fields, whole, value.1]

theorem absorbs_iff {w : Word} (value : Value w) : absorbs sh w = true ↔ ¬ Recognised sh w ∧ Tested sh w := by
  rw [← looks_like_option_iff, absorbs, fields_value value, List.flatMap_singleton, Tested]
  simp

theorem plain_absorbed {w : Word} (plain : Plain w) : absorbs sh w = true ↔ Tested sh w := by
  rw [absorbs_iff plain.1]
  exact and_iff_right (plain_not_recognised plain)

theorem absorb_words {words : List Word} (absorbed : ∀ w ∈ words, absorbs sh w = true) (rest : List Word)
    (p : Params) : getParameters sh true (words ++ rest) p =
      getParameters sh true rest
        { p with cmdCmd := words.foldl (fun cmd w => cmd ++ ' ' :: w) p.cmdCmd } := by
  induction words generalizing p with
  | nil => rfl
  | cons w words ih =>
    rw [List.cons_append, getParameters, absorbed w (by simp)]
    exact ih (fun x member => absorbed x (by simp [member])) _

theorem spaced (first : Word) (others : List Word) :
    others.foldl (fun cmd w => cmd ++ ' ' :: w) first = List.intercalate [' '] (first :: others) := by
  induction others generalizing first with
  | nil => simp
  | cons w others ih =>
    rw [List.foldl_cons, ih]
    cases others with
    | nil => simp
    | cons x others => simp [List.intercalate_cons_cons]

theorem option_value {name value : Word} (named : ∀ c ∈ name, isBlank c = false) (proper : Value value) :
    Value (name ++ '=' :: value) := by
  constructor
  · simp
  · intro c member
    rcases List.mem_append.mp member with before | behind
    · exact named c before
    · rcases List.mem_cons.mp behind with rfl | inside
      · decide
      · exact proper.2 c inside

theorem word_value {g : Group} (proper : g.Proper) : Value g.word := by
  cases g with
  | iptable value => exact option_value (by simp [optIptable, isBlank]) proper
  | sendfile value => exact option_value (by simp [optSendfile, isBlank]) proper
  | location value => exact option_value (by simp [optLocation, isBlank]) proper
  | cmd first others => exact option_value (by simp [optCmd, isBlank]) proper.1

theorem others_plain {g : Group} (proper : g.Proper) : ∀ w ∈ g.others, Plain w := by
  intro w other
  cases g with
  | iptable value => cases other
  | sendfile value => cases other
  | location value => cases other
  | cmd first others => exact proper.2 w other

theorem option_others {g : Group} (option : g.kind ≠ .cmd) : g.others = [] := by
  cases g with
  | iptable value => rfl
  | sendfile value => rfl
  | location value => rfl
  | cmd first others => exact absurd rfl option

theorem option_words {g : Group} (option : g.kind ≠ .cmd) : g.words = [g.word] := by
  rw [Group.words, option_others option]

theorem option_keeps_cmd {g : Group} (option : g.kind ≠ .cmd) (p : Params) :
    (g.apply p).cmdCmd = p.cmdCmd := by
  cases g with
  | iptable value => rfl
  | sendfile value => rfl
  | location value => rfl
  | cmd first others => exact absurd rfl option

theorem option_run {order : List Group} (options : ∀ g ∈ order, g.kind ≠ .cmd ∧ g.Proper) (rest : List Word)
    (p : Params) : getParameters sh false (order.flatMap Group.words ++ rest) p =
      getParameters sh false rest (order.foldl Group.apply p) := by
  induction order generalizing p with
  | nil => rfl
  | cons g order ih =>
    obtain ⟨option, proper⟩ := options g (by simp)
    rw [List.flatMap_cons, option_words option, List.append_assoc, List.singleton_append, getParameters,
      option_branch option proper]
    exact ih (fun x member => options x (by simp [member])) (g.apply p)

theorem command_read {first : Word} {others : List Word} (proper : (Group.cmd first others).Proper)
    (rest : List Word) (p : Params) : getParameters sh false ((Group.cmd first others).words ++ rest) p =
      getParameters sh true (others ++ rest) { p with cmdCmd := first } := by
  rw [Group.words, List.cons_append, getParameters, cmd_branch proper.1.1]
  rfl

theorem command_run {first : Word} {others : List Word} (proper : (Group.cmd first others).Proper)
    (tested : ∀ w ∈ others, Tested sh w) (rest : List Word) (p : Params) :
    getParameters sh false ((Group.cmd first others).words ++ rest) p =
      getParameters sh true rest ((Group.cmd first others).apply p) := by
  have absorbed : ∀ w ∈ others, absorbs sh w = true := fun w member =>
    (plain_absorbed (proper.2 w member)).mpr (tested w member)
  rw [command_read proper, absorb_words absorbed, spaced]
  rfl

theorem command_ends {w : Word} (stops : absorbs sh w = false) (rest : List Word) (p : Params) :
    getParameters sh true (w :: rest) p = getParameters sh false (w :: rest) p := by
  simp only [getParameters, stops, Bool.and_false]

theorem plain_branch {w : Word} (plain : Plain w) (rest : List Word) (p : Params) :
    branch w rest p = .leave p := by
  obtain ⟨⟨some, _⟩, option, _⟩ := plain
  cases w with
  | nil => exact absurd rfl some
  | cons c w =>
    have other : c ≠ '-' := fun same => option (congrArg Option.some same)
    simp [branch, valued, optHelp, optLocation, optSendfile, optUdefine, optSupercmd, optCmd,
      optIptable, optVersion,
      optReboot, other, Ne.symm other]

theorem spaced_length (words : List Word) (first : Word) :
    first.length ≤ (words.foldl (fun cmd w => cmd ++ ' ' :: w) first).length := by
  induction words generalizing first with
  | nil => exact le_rfl
  | cons w words ih =>
    apply le_trans _ (ih (first ++ ' ' :: w))
    simp

theorem command_cut {words : List Word} (plain : ∀ w ∈ words, Plain w) (untested : ∃ w ∈ words, ¬ Tested sh w)
    (rest : List Word) (p : Params) : ∃ p', getParameters sh true (words ++ rest) p = .parsed p' ∧
      p'.cmdCmd.length < (words.foldl (fun cmd w => cmd ++ ' ' :: w) p.cmdCmd).length := by
  induction words generalizing p with
  | nil =>
    obtain ⟨w, none, _⟩ := untested
    cases none
  | cons w words ih =>
    have front := plain w (by simp)
    rw [List.cons_append, List.foldl_cons]
    by_cases tested : Tested sh w
    · have later : ∃ x ∈ words, ¬ Tested sh x := by
        obtain ⟨x, member, unread⟩ := untested
        rcases List.mem_cons.mp member with rfl | inside
        · exact absurd tested unread
        · exact ⟨x, inside, unread⟩
      rw [getParameters, (plain_absorbed front).mpr tested]
      exact ih (fun x member => plain x (by simp [member])) later _
    · have stops : absorbs sh w = false := by
        rw [← Bool.not_eq_true, plain_absorbed front]
        exact tested
      refine ⟨p, ?_, ?_⟩
      · rw [command_ends stops, getParameters, plain_branch front]
        rfl
      · apply lt_of_lt_of_le _ (spaced_length words _)
        simp

theorem cmd_form {c : Group} (command : c.kind = .cmd) : ∃ first others, c = .cmd first others := by
  cases c with
  | cmd first others => exact ⟨first, others, rfl⟩
  | iptable value => cases command
  | sendfile value => cases command
  | location value => cases command

theorem others_options {before behind : List Group} {c : Group}
    (once : ((before ++ c :: behind).map Group.kind).Nodup) (command : c.kind = .cmd) :
    ∀ g ∈ before ++ behind, g.kind ≠ .cmd := by
  have front := (List.perm_middle.map Group.kind).nodup_iff.mp once
  rw [List.map_cons, List.nodup_cons, command] at front
  intro g member same
  exact front.1 (List.mem_map.mpr ⟨g, member, same⟩)

theorem rest_parsed {behind : List Group} (options : ∀ g ∈ behind, g.kind ≠ .cmd ∧ g.Proper)
    (stops : ∀ g ∈ behind, absorbs sh g.word = false) (p : Params) :
    getParameters sh true (behind.flatMap Group.words) p = .parsed (behind.foldl Group.apply p) := by
  cases behind with
  | nil => rfl
  | cons g behind =>
    have run := @option_run sh (g :: behind) options [] p
    rw [List.append_nil, List.flatMap_cons, option_words (options g (by simp)).1,
      List.singleton_append] at run
    rw [List.flatMap_cons, option_words (options g (by simp)).1, List.singleton_append,
      command_ends (stops g (by simp)), run]
    rfl

theorem option_stops {g : Group} (proper : g.Proper) (apart : Recognised sh g.word ∨ ¬ Tested sh g.word) :
    absorbs sh g.word = false := by
  rw [← Bool.not_eq_true, absorbs_iff (word_value proper)]
  tauto

theorem order_parsed {order : List Group} (proper : Proper order)
    (clear : (∀ g ∈ order, g.kind ≠ .cmd) ∨ Apart sh order) :
    getParameters sh false (order.flatMap Group.words) start = .parsed (settings order) := by
  by_cases commanded : ∃ c ∈ order, c.kind = .cmd
  · obtain ⟨c, member, command⟩ := commanded
    have apart := clear.resolve_left fun none => none c member command
    obtain ⟨before, behind, rfl⟩ := List.append_of_mem member
    have options : ∀ g ∈ before ++ behind, g.kind ≠ .cmd ∧ g.Proper := fun g here =>
      ⟨others_options proper.once command g here, proper.each g (List.mem_append.mpr
        ((List.mem_append.mp here).imp_right (List.mem_cons_of_mem c)))⟩
    have front := @option_run sh before fun g here => options g (List.mem_append_left _ here)
    obtain ⟨first, others, rfl⟩ := cmd_form command
    rw [List.flatMap_append, List.flatMap_cons, front, command_run (proper.each _ member) (apart _ member).2,
      rest_parsed fun g here => options g (List.mem_append_right _ here)]
    · rw [settings, List.foldl_append, List.foldl_cons]
    · intro g here
      obtain ⟨option, valid⟩ := options g (List.mem_append_right _ here)
      exact option_stops valid ((apart g (by simp [here])).1 option)
  · have options : ∀ g ∈ order, g.kind ≠ .cmd ∧ g.Proper := fun g member =>
      ⟨fun command => commanded ⟨g, member, command⟩, proper.each g member⟩
    have run := @option_run sh order options [] start
    rw [List.append_nil] at run
    rw [run]
    rfl

theorem apply_comm {a b : Group} (differ : a.kind ≠ b.kind) (p : Params) :
    Group.apply (Group.apply p a) b = Group.apply (Group.apply p b) a := by
  cases a <;> cases b <;> first | rfl | exact absurd rfl differ

theorem settings_perm {order groups : List Group} (perm : order.Perm groups)
    (once : (groups.map Group.kind).Nodup) : settings order = settings groups := by
  have distinct := (perm.map Group.kind).nodup_iff.mpr once
  apply perm.foldl_eq'
  intro a ma b mb p
  by_cases same : a = b
  · rw [same]
  · exact apply_comm (fun kinds => same (List.inj_on_of_nodup_map distinct ma mb kinds)) p

theorem command_grows {behind : List Group} (options : ∀ g ∈ behind, g.kind ≠ .cmd ∧ g.Proper) (inCmd : Bool)
    (p : Params) : ∃ p', getParameters sh inCmd (behind.flatMap Group.words) p = .parsed p' ∧
      p.cmdCmd.length ≤ p'.cmdCmd.length := by
  induction behind generalizing inCmd p with
  | nil => exact ⟨p, rfl, le_rfl⟩
  | cons g behind ih =>
    obtain ⟨option, proper⟩ := options g (by simp)
    have rest := ih fun x member => options x (by simp [member])
    rw [List.flatMap_cons, option_words option, List.singleton_append, getParameters]
    by_cases taken : (inCmd && absorbs sh g.word) = true
    · rw [if_pos taken]
      obtain ⟨p', run, grown⟩ := rest true { p with cmdCmd := p.cmdCmd ++ ' ' :: g.word }
      exact ⟨p', run, le_trans (by simp) grown⟩
    · rw [if_neg taken, option_branch option proper]
      obtain ⟨p', run, grown⟩ := rest false (g.apply p)
      rw [option_keeps_cmd option] at grown
      exact ⟨p', run, grown⟩

theorem fold_keeps_cmd {behind : List Group} (options : ∀ g ∈ behind, g.kind ≠ .cmd ∧ g.Proper) (p : Params) :
    (behind.foldl Group.apply p).cmdCmd = p.cmdCmd := by
  induction behind generalizing p with
  | nil => rfl
  | cons g behind ih =>
    rw [List.foldl_cons, ih (fun x member => options x (by simp [member])),
      option_keeps_cmd (options g (by simp)).1]

theorem settings_cmd {first : Word} {others : List Word} {behind : List Group}
    (options : ∀ g ∈ behind, g.kind ≠ .cmd ∧ g.Proper) :
    (settings (.cmd first others :: behind)).cmdCmd = others.foldl (fun cmd w => cmd ++ ' ' :: w) first := by
  rw [settings, List.foldl_cons, fold_keeps_cmd options, spaced]
  rfl

theorem option_swallowed {first : Word} {others : List Word} {g : Group} {behind : List Group}
    (proper : (Group.cmd first others).Proper) (tested : ∀ w ∈ others, Tested sh w)
    (options : ∀ x ∈ g :: behind, x.kind ≠ .cmd ∧ x.Proper) (taken : absorbs sh g.word = true) :
    getParameters sh false ((.cmd first others :: g :: behind).flatMap Group.words) start ≠
      .parsed (settings (.cmd first others :: g :: behind)) := by
  obtain ⟨p', run, grown⟩ := @command_grows sh behind (fun x member => options x (by simp [member])) true
    { (Group.cmd first others).apply start with
      cmdCmd := List.intercalate [' '] (first :: others) ++ ' ' :: g.word }
  rw [List.flatMap_cons, command_run proper tested, List.flatMap_cons, option_words (options g (by simp)).1,
    List.singleton_append, getParameters, taken]
  intro parsed
  have same : p' = settings (.cmd first others :: g :: behind) := by
    apply Outcome.parsed.inj
    rw [← run, ← parsed]
    rfl
  rw [same, settings_cmd options, spaced] at grown
  simp only [List.length_append, List.length_cons] at grown
  omega

theorem command_missed {first : Word} {others : List Word} {behind : List Group}
    (proper : (Group.cmd first others).Proper) (untested : ∃ w ∈ others, ¬ Tested sh w)
    (options : ∀ x ∈ behind, x.kind ≠ .cmd ∧ x.Proper) :
    getParameters sh false ((.cmd first others :: behind).flatMap Group.words) start ≠
      .parsed (settings (.cmd first others :: behind)) := by
  obtain ⟨p', run, shorter⟩ := @command_cut sh others proper.2 untested (behind.flatMap Group.words)
    { start with cmdCmd := first }
  rw [List.flatMap_cons, command_read proper, run]
  intro parsed
  rw [Outcome.parsed.inj parsed, settings_cmd options] at shorter
  exact lt_irrefl _ shorter

theorem proper_perm {order groups : List Group} (perm : order.Perm groups) (proper : Proper groups) :
    Proper order where
  once := (perm.map Group.kind).nodup_iff.mpr proper.once
  each g member := proper.each g (perm.mem_iff.mp member)

theorem order_free_apart {groups : List Group} (proper : Proper groups)
    (free : OrderFree sh groups) {c : Group}
    (member : c ∈ groups) (command : c.kind = .cmd) : Apart sh groups := by
  have perm : (c :: groups.erase c).Perm groups := (List.perm_cons_erase member).symm
  have options : ∀ g ∈ groups.erase c, g.kind ≠ .cmd ∧ g.Proper := fun g here =>
    ⟨@others_options [] _ c (proper_perm perm proper).once command g here,
      proper.each g (List.mem_of_mem_erase here)⟩
  obtain ⟨first, others, rfl⟩ := cmd_form command
  have tested : ∀ w ∈ others, Tested sh w := by
    by_contra untested
    push Not at untested
    have parsed := free _ perm
    rw [← settings_perm perm proper.once] at parsed
    exact command_missed (proper.each _ member) untested options parsed
  intro g here
  by_cases same : g = .cmd first others
  · rw [same]
    exact ⟨fun option => absurd rfl option, tested⟩
  · have other : g ∈ groups.erase (.cmd first others) := (List.mem_erase_of_ne same).mpr here
    constructor
    · intro option
      -- The order in which the option comes right behind the command.
      have next := (List.perm_cons_erase other).symm
      have order := (next.cons _).trans perm
      have parsed := free _ order
      rw [← settings_perm order proper.once] at parsed
      by_contra hidden
      push Not at hidden
      exact option_swallowed (proper.each _ member) tested
        (fun x inside => options x (next.mem_iff.mp inside))
        ((absorbs_iff (word_value (proper.each g here))).mpr hidden) parsed
    · intro w inside
      rw [option_others (options g other).1] at inside
      cases inside

theorem order_free_of_apart {groups : List Group} (proper : Proper groups)
    (clear : (∀ g ∈ groups, g.kind ≠ .cmd) ∨ Apart sh groups) : OrderFree sh groups := by
  intro order perm
  rw [← settings_perm perm proper.once]
  apply order_parsed (proper_perm perm proper)
  rcases clear with none | apart
  · exact Or.inl fun g member => none g (perm.mem_iff.mp member)
  · exact Or.inr fun g member => apart g (perm.mem_iff.mp member)

/-- The groups can be given in every order exactly when there is no command or they are told
    apart. -/
theorem option_order_free_iff (sh : Shell) (groups : List Group) (proper : Proper groups) :
    OrderFree sh groups ↔ (∀ g ∈ groups, g.kind ≠ .cmd) ∨ Apart sh groups := by
  constructor
  · intro free
    by_cases commanded : ∃ c ∈ groups, c.kind = .cmd
    · obtain ⟨c, member, command⟩ := commanded
      exact Or.inr (order_free_apart proper free member command)
    · exact Or.inl fun g member command => commanded ⟨g, member, command⟩
  · exact order_free_of_apart proper

def plainShell : Shell where
  pathnames w := [w]
  test words := match words with
    | [w] => !w.isEmpty
    | _ => false
  letter := Char.isAlpha
  test_one _ := rfl
  ascii _ _ := rfl

def nodesOut : Word := ['n', 'o', 'd', 'e', 's', '.', 'o', 'u', 't']
def listTmp : Group := .cmd ['l', 's'] [['/', 't', 'm', 'p']]

theorem option_order_free_nodes_out : Proper [listTmp, .iptable nodesOut] ∧
    OrderFree plainShell [listTmp, .iptable nodesOut] := by
  have proper : Proper [listTmp, .iptable nodesOut] := by
    refine ⟨by decide, ?_⟩
    simp [listTmp, nodesOut, Group.Proper, Value, Plain, isBlank]
  have recognised : Recognised plainShell (Group.iptable nodesOut).word :=
    ⟨['-'], optIptable.drop 2, 'n', nodesOut.tail, rfl, by decide,
      by simp [optIptable, plainShell], by decide⟩
  have tested : Tested plainShell ['/', 't', 'm', 'p'] := rfl
  refine ⟨proper, (option_order_free_iff plainShell _ proper).mpr (Or.inr ?_)⟩
  simp [Apart, listTmp, recognised, tested, Group.kind, Group.others]

def address : Word := ['1', '9', '2', '.', '1', '6', '8', '.', '3', '.', '1', '1']

/-- Behind `--cmd=ls` the address of a node goes into the command. -/
theorem option_order_free_address : Proper [.cmd ['l', 's'] [], .iptable address] ∧
    multexu plainShell [optIptable ++ '=' :: address, optCmd ++ ['=', 'l', 's']] =
      .parsed { start with iptable := address, cmdCmd := ['l', 's'] } ∧
    multexu plainShell [optCmd ++ ['=', 'l', 's'], optIptable ++ '=' :: address] =
      .parsed { start with cmdCmd := ['l', 's', ' '] ++ optIptable ++ '=' :: address } ∧
    ¬ OrderFree plainShell [.cmd ['l', 's'] [], .iptable address] := by
  have proper : Proper [.cmd ['l', 's'] [], .iptable address] := by
    refine ⟨by decide, ?_⟩
    simp [address, Group.Proper, Value, isBlank]
  refine ⟨proper, by decide, by decide, ?_⟩
  intro free
  exact absurd (free _ (List.Perm.refl _)) (by decide)

theorem tested_unmatched {w : Word} (value : Value w) (unmatched : sh.pathnames w = [w]) : Tested sh w := by
  rw [Tested, unmatched, sh.test_one, Bool.not_eq_true', List.isEmpty_eq_false_iff]
  exact value.1

theorem apart_unmatched_iff {groups : List Group} (proper : Proper groups)
    (unmatched : ∀ w ∈ groups.flatMap Group.words, sh.pathnames w = [w]) :
    Apart sh groups ↔ ∀ g ∈ groups, g.kind ≠ .cmd → Recognised sh g.word := by
  have tested {g : Group} (member : g ∈ groups) {w : Word} (inside : w ∈ g.words) (value : Value w) :
      Tested sh w := tested_unmatched value (unmatched w (List.mem_flatMap.mpr ⟨g, member, inside⟩))
  constructor
  · intro apart g member option
    have first := tested member List.mem_cons_self (word_value (proper.each g member))
    exact ((apart g member).1 option).resolve_right (not_not.mpr first)
  · intro recognised g member
    refine ⟨fun option => Or.inl (recognised g member option), fun w other => ?_⟩
    exact tested member (List.mem_cons_of_mem _ other) (others_plain (proper.each g member) w other).1

theorem multexu_order_free {groups order : List Group} (proper : Proper groups) (perm : order.Perm groups)
    (unmatched : ∀ w ∈ groups.flatMap Group.words, sh.pathnames w = [w])
    (recognised : ∀ g ∈ groups, g.kind ≠ .cmd → Recognised sh g.word)
    {args : List Word} (split : args.flatMap fields = order.flatMap Group.words) :
    multexu sh args = .parsed (settings groups) := by
  have apart := (apart_unmatched_iff proper unmatched).mpr recognised
  have same : (order.flatMap Group.words).flatMap sh.pathnames = order.flatMap Group.words := by
    rw [List.flatMap_congr fun w member => unmatched w ((perm.flatMap_right Group.words).mem_iff.mp member),
      List.flatMap_singleton']
  rw [multexu, split, same]
  exact order_free_of_apart proper (Or.inr apart) order perm

end BatchOptions
