import LustreTools.Tbf.Policy

/-!
The text of the commands written to the TBF files of procfs: `nrs_tbf_parse_cmd`, and
the part of the two write functions that comes before it. The parsers of job and node
identifiers belong to the rule commands and are a parameter.
-/
namespace TbfCommandText
open Runs Words Text TbfPolicy

def strsep (delim : Char) (s : List Char) : List Char × Option (List Char) :=
  (s.takeWhile (· ≠ delim), (s.dropWhile (· ≠ delim)).tail?)

/-- Letters and digits of the kernel's character table, which is Latin-1. -/
def isalnum (c : Char) : Bool :=
  c.isAlphanum || (192 ≤ c.toNat && c.toNat ≤ 255 && c.toNat != 215 && c.toNat != 247)

inductive RuleKind where
  | start
  | stop
  | change
  deriving DecidableEq, Repr

/-- `jobids` and `nids` are the flags of `tc_valid_types`. -/
structure RuleCmd where
  tcCmd : RuleKind
  tcName : List Char
  tcRpcRate : Int
  jobids : Bool
  nids : Bool
  deriving DecidableEq, Repr

inductive Cmd where
  | sscdt (cmd : SscdtCmd)
  | rule (cmd : RuleCmd)
  deriving DecidableEq, Repr

/-- Which identifier lists `nrs_tbf_jobid_parse` and `nrs_tbf_nid_parse` accept. -/
structure IdParsers where
  jobid : List Char → Bool
  nid : List Char → Bool

def commandKind (token : List Char) : Option RuleKind :=
  if token = ['s', 't', 'a', 'r', 't'] then some .start
  else if token = ['s', 't', 'o', 'p'] then some .stop
  else if token = ['c', 'h', 'a', 'n', 'g', 'e'] then some .change
  else none

def commandWords (buffer : List Char) : Except Int (RuleKind × List Char × Option (List Char)) :=
  match strsep ' ' buffer with
  | (_, none) => .error einval
  | (_, some []) => .error einval
  | (token, some val) =>
    match commandKind token with
    | none => .error einval
    | some kind =>
      let next := strsep ' ' val
      -- Only a stop command may end with the name.
      if next.2 = none ∧ kind ≠ .stop then .error einval else .ok (kind, next.1, next.2)

def startsWithDigit : List Char → Bool
  | [] => false
  | c :: _ => c.isDigit

def sscdtKind : RuleKind → SscdtKind
  | .start => .start
  | .stop => .stop
  | .change => .change

/-- The width an SSCDT command gets when it is parsed while `interval` is the current one. -/
def sscdtInterval (interval : Int) : Option (List Char) → Except Int Int
  | none => .ok (u32 interval)
  | some val =>
    if startsWithDigit val then
      let width := u32 (simpleStrtoull val)
      .ok (if width ≤ 0 then u32 interval else width)
    else .error einval

def afterBrace : List Char → Except Int (Option (List Char))
  | [] => .ok none
  | c :: rest => if c = ' ' then .ok (some rest) else .error einval

def nrsTbfIdParse (ids : IdParsers) (val : List Char) :
    Except Int ((Bool × Bool) × Option (List Char)) :=
  match strsep '\x7d' val with
  | (_, none) => .error einval
  | (token, some rest) =>
    if token.length ≤ 1 ∨ token.head? ≠ some '\x7b' then .error einval
    else do
      let rest ← afterBrace rest
      let types := (ids.jobid token.tail, ids.nid token.tail)
      if types.1 || types.2 then .ok (types, rest) else .error einval

def ruleRate (tbfRate : Int) (kind : RuleKind) : Option (List Char) → Except Int Int
  | none => if kind = .change then .error einval else .ok (u64 tbfRate)
  | some val =>
    if kind = .stop ∨ !startsWithDigit val then .error einval
    else
      let rate := simpleStrtoull val
      if rate ≤ 0 ∨ 65535 ≤ rate then .error einval else .ok rate

def parseRule (ids : IdParsers) (tbfRate : Int) (kind : RuleKind) (name : List Char)
    (val : Option (List Char)) : Except Int RuleCmd :=
  if !name.all fun c => isalnum c || c = '_' then .error einval
  else match kind, val with
  | .start, some val => do
    let (types, rest) ← nrsTbfIdParse ids val
    let rate ← ruleRate tbfRate kind rest
    .ok ⟨kind, name, rate, types.1, types.2⟩
  | _, _ => do
    let rate ← ruleRate tbfRate kind val
    .ok ⟨kind, name, rate, false, false⟩

def nrsTbfParseCmd (ids : IdParsers) (tbfRate : Int) (alloc : Bool) (g : Globals)
    (buffer : List Char) : Except Int Cmd :=
  if !alloc then .error enomem
  else match commandWords buffer with
  | .error rc => .error rc
  | .ok (kind, name, val) =>
    if name = ['s', 's', 'c', 'd', 't'] then
      (sscdtInterval g.tbfTwInterval val).map fun interval => .sscdt ⟨sscdtKind kind, interval⟩
    else (parseRule ids tbfRate kind name val).map .rule

inductive Queue where
  | reg
  | hp
  | both
  deriving DecidableEq, Repr

/-- The queue and the command in what is written to the rule or the interval file; the two
    write functions share this text. -/
def commandText (hasHp : Bool) (kernbuf : List Char) : Except Int (Queue × List Char) :=
  match strsep ' ' kernbuf with
  | (_, none) => .error einval
  | (token, some val) =>
    let directed : Queue × List Char :=
      if token = ['r', 'e', 'g'] then (.reg, val)
      else if token = ['h', 'p'] then (.hp, val)
      else (.both, kernbuf)
    if directed.2 = [] then .error einval
    else if directed.1 = .hp ∧ !hasHp then .error enodev
    else if directed.1 = .both ∧ !hasHp then .ok (.reg, directed.2)
    else .ok directed

/-- What an SSCDT command says: what to do, and the width if it names one. -/
def reading (buffer : List Char) : Option (SscdtKind × Option Int) :=
  match commandWords buffer with
  | .error _ => none
  | .ok (kind, name, val) =>
    if name = ['s', 's', 'c', 'd', 't'] then
      match val with
      | none => some (sscdtKind kind, none)
      | some val =>
        if startsWithDigit val then
          let width := u32 (simpleStrtoull val)
          some (sscdtKind kind, if width ≤ 0 then none else some width)
        else none
    else none

variable {ids : IdParsers} {tbfRate : Int}

theorem parse_sscdt_iff (g : Globals) (buffer : List Char) (cmd : SscdtCmd) :
    nrsTbfParseCmd ids tbfRate true g buffer = .ok (.sscdt cmd) ↔
      ∃ width, reading buffer = some (cmd.tcCmd, width) ∧
        cmd.tcTwInterval = width.getD (u32 g.tbfTwInterval) := by
  obtain ⟨kind', interval'⟩ := cmd
  simp only [nrsTbfParseCmd, reading, Bool.not_true, Bool.false_eq_true, ↓reduceIte]
  cases commandWords buffer with
  | error rc => simp
  | ok words =>
    obtain ⟨kind, name, val⟩ := words
    dsimp only
    split
    · cases val with
      | none => simp [sscdtInterval, Except.map, eq_comm]
      | some val =>
        simp only [sscdtInterval]
        split
        · split <;> simp [Except.map, eq_comm]
        · simp [Except.map]
    · cases parseRule ids tbfRate kind name val <;> simp [Except.map]

theorem reading_positive {buffer : List Char} {kind : SscdtKind} {width : Int}
    (reads : reading buffer = some (kind, some width)) : 0 < width ∧ InU32 width := by
  unfold reading at reads
  split at reads
  · cases reads
  · split at reads
    · split at reads
      · cases reads
      · split at reads
        · rename_i val digit
          dsimp only at reads
          split at reads
          · cases reads
          · rename_i positive
            simp only [Option.some.injEq, Prod.mk.injEq] at reads
            rw [← reads.2]
            exact ⟨by omega, u32_in _⟩
        · cases reads
    · cases reads

theorem parse_sscdt_valid {g : Globals} {buffer : List Char} {cmd : SscdtCmd}
    (range : InS32 g.tbfTwInterval) (nonzero : g.tbfTwInterval ≠ 0)
    (parsed : nrsTbfParseCmd ids tbfRate true g buffer = .ok (.sscdt cmd)) : cmd.Valid := by
  obtain ⟨width, reads, interval⟩ := (parse_sscdt_iff g buffer cmd).mp parsed
  rw [SscdtCmd.Valid, interval]
  cases width with
  | none =>
    refine ⟨?_, u32_in _⟩
    simp only [Option.getD_none, u32, InS32] at *
    omega
  | some width => exact reading_positive reads

theorem command_stores (g : Globals) (cmd : SscdtCmd) :
    (nrsTbfCommand g cmd).tbfTwInterval = s32 cmd.tcTwInterval := by
  unfold nrsTbfCommand
  split <;> rfl

theorem command_interval {g : Globals} {cmd : SscdtCmd} (valid : cmd.Valid) :
    InS32 (nrsTbfCommand g cmd).tbfTwInterval ∧ (nrsTbfCommand g cmd).tbfTwInterval ≠ 0 := by
  rw [command_stores]
  refine ⟨s32_in _, ?_⟩
  obtain ⟨positive, range⟩ := valid
  simp only [InU32, s32] at *
  omega

def issue (ids : IdParsers) (tbfRate : Int) (g : Globals) (buffer : List Char) : Globals :=
  match nrsTbfParseCmd ids tbfRate true g buffer with
  | .ok (.sscdt cmd) => nrsTbfCommand g cmd
  | _ => g

theorem issued_commands_valid {g : Globals} (range : InS32 g.tbfTwInterval)
    (nonzero : g.tbfTwInterval ≠ 0) (buffers : List (List Char)) :
    Along (issue ids tbfRate) (fun g buffer => ∀ cmd,
      nrsTbfParseCmd ids tbfRate true g buffer = .ok (.sscdt cmd) → cmd.Valid) g buffers := by
  have kept (g : Globals) (buffer : List Char)
      (width : InS32 g.tbfTwInterval ∧ g.tbfTwInterval ≠ 0) (_ : True) :
      InS32 (issue ids tbfRate g buffer).tbfTwInterval ∧
        (issue ids tbfRate g buffer).tbfTwInterval ≠ 0 := by
    unfold issue
    split
    · rename_i cmd parsed
      exact command_interval (parse_sscdt_valid width.1 width.2 parsed)
    · exact width
  have always := always_of_along kept ⟨range, nonzero⟩
    (along_of_forall fun buffer (_ : buffer ∈ buffers) => trivial)
  refine along_of_always ?_ always
  intro g buffer width cmd parsed
  exact parse_sscdt_valid width.1 width.2 parsed

def sscdtNumber (buffer : List Char) : Option Nat :=
  match commandWords buffer with
  | .ok (_, name, some val) =>
    if name = ['s', 's', 'c', 'd', 't'] ∧ startsWithDigit val then
      some (Nat.ofDigitChars 10 (val.takeWhile Char.isDigit) 0)
    else none
  | _ => none

/-- The width that the command asks for is in force; zero and no number ask for none. -/
structure Meant (g : Globals) (buffer : List Char) (after : Globals) : Prop where
  named : ∀ n, sscdtNumber buffer = some n → 1 ≤ n → after.tbfTwInterval = n
  unnamed : sscdtNumber buffer = none ∨ sscdtNumber buffer = some 0 →
    after.tbfTwInterval = g.tbfTwInterval
  positive : 1 ≤ after.tbfTwInterval
  bounded : after.tbfTwInterval < 2147483648

/-- The number goes through a `__u64` and is tested for zero as a `__u32`. -/
def keptWidth (n : Nat) : Option Int := if u32 n ≤ 0 then none else some (u32 n)

theorem reading_number {buffer : List Char} {kind : SscdtKind} {width : Option Int}
    (reads : reading buffer = some (kind, width)) : width = (sscdtNumber buffer).bind keptWidth := by
  unfold reading at reads
  unfold sscdtNumber
  split at reads
  · cases reads
  · rename_i words
    rw [words]
    split at reads
    · rename_i name
      split at reads
      · cases reads
        rfl
      · split at reads
        · rename_i val digit
          have narrowed (n : Nat) : u32 (u64 n) = u32 n := by
            simp only [u32, u64]
            omega
          simp only [simpleStrtoull, narrowed, Option.some.injEq, Prod.mk.injEq] at reads
          simp only [name, digit, and_self, ↓reduceIte, Option.bind_some, keptWidth]
          exact reads.2.symm
        · cases reads
    · cases reads

theorem number_is_read {buffer : List Char} {n : Nat} (number : sscdtNumber buffer = some n) :
    ∃ kind width, reading buffer = some (kind, width) := by
  unfold sscdtNumber at number
  unfold reading
  split at number
  · rename_i kind name val words
    rw [words]
    split at number
    · rename_i sscdt
      exact ⟨sscdtKind kind, _, by simp only [sscdt.1, sscdt.2, ↓reduceIte]; rfl⟩
    · cases number
  · cases number

theorem command_meant {g : Globals} (positive : 1 ≤ g.tbfTwInterval)
    (bounded : g.tbfTwInterval < 2147483648) {buffer : List Char} {cmd : SscdtCmd}
    (parsed : nrsTbfParseCmd ids tbfRate true g buffer = .ok (.sscdt cmd))
    (small : ∀ n, sscdtNumber buffer = some n → n < 2147483648) :
    Meant g buffer (nrsTbfCommand g cmd) := by
  obtain ⟨width, reads, interval⟩ := (parse_sscdt_iff g buffer cmd).mp parsed
  have stored := command_stores g cmd
  rw [interval, reading_number reads] at stored
  have same : s32 (u32 g.tbfTwInterval) = g.tbfTwInterval := s32_u32 (by simp only [InS32]; omega)
  cases number : sscdtNumber buffer with
  | none =>
    simp only [number, Option.bind_none, Option.getD_none, same] at stored
    exact ⟨by simp [number], fun _ => stored, by omega, by omega⟩
  | some n =>
    have fits := small n number
    have narrow : u32 (n : Int) = n := u32_of_in (by simp only [InU32]; omega)
    simp only [number, Option.bind_some, keptWidth, narrow] at stored
    by_cases zero : n = 0
    · simp only [zero, Int.natCast_zero, Int.le_refl, ↓reduceIte, Option.getD_none, same] at stored
      exact ⟨by simp [number, zero], fun _ => stored, by omega, by omega⟩
    · have wide : ¬ (n : Int) ≤ 0 := by omega
      have exact_width : s32 (n : Int) = n := s32_of_in (by simp only [InS32]; omega)
      simp only [wide, ↓reduceIte, Option.getD_some, exact_width] at stored
      refine ⟨?_, by simp [number, zero], by omega, by omega⟩
      intro m named _
      cases number.symm.trans named
      exact stored

/-- From a width of 1 to 2^31 - 1, a command text means what it says exactly when the number
    it names, if it names one, is below 2^31. -/
theorem sscdt_interval_meant_iff (ids : IdParsers) (tbfRate : Int) (g : Globals)
    (positive : 1 ≤ g.tbfTwInterval) (bounded : g.tbfTwInterval < 2147483648)
    (buffer : List Char) :
    (∀ alloc cmd, nrsTbfParseCmd ids tbfRate alloc g buffer = .ok (.sscdt cmd) →
      Meant g buffer (nrsTbfCommand g cmd)) ↔
      ∀ n, sscdtNumber buffer = some n → n < 2147483648 := by
  constructor
  · intro meant n number
    obtain ⟨kind, width, reads⟩ := number_is_read number
    have parsed := (@parse_sscdt_iff ids tbfRate g buffer
      ⟨kind, width.getD (u32 g.tbfTwInterval)⟩).mpr ⟨width, reads, rfl⟩
    have after := meant true _ parsed
    by_cases zero : n = 0
    · omega
    · have stored := after.named n number (by omega)
      have limit := after.bounded
      omega
  · intro small alloc cmd parsed
    cases alloc with
    | false => simp [nrsTbfParseCmd] at parsed
    | true => exact command_meant positive bounded parsed small

theorem sscdt_interval_meant_five_hundred :
    (⟨none, none, 1000⟩ : Globals).tbfTwInterval = 1000 ∧
      ∀ cmd, nrsTbfParseCmd ⟨fun _ => false, fun _ => false⟩ 1000 true ⟨none, none, 1000⟩
        ['s', 't', 'a', 'r', 't', ' ', 's', 's', 'c', 'd', 't', ' ', '5', '0', '0'] = .ok (.sscdt cmd) →
        (nrsTbfCommand ⟨none, none, 1000⟩ cmd).tbfTwInterval = 500 := by
  constructor
  · rfl
  · intro cmd parsed
    have number : sscdtNumber
        ['s', 't', 'a', 'r', 't', ' ', 's', 's', 'c', 'd', 't', ' ', '5', '0', '0'] = some 500 := by
      decide +kernel
    have small (n : Nat) (named : sscdtNumber
        ['s', 't', 'a', 'r', 't', ' ', 's', 's', 'c', 'd', 't', ' ', '5', '0', '0'] = some n) :
        n < 2147483648 := by
      cases number.symm.trans named
      decide
    have meant := (sscdt_interval_meant_iff ⟨fun _ => false, fun _ => false⟩ 1000 ⟨none, none, 1000⟩
      (by decide) (by decide) _).mpr small true cmd parsed
    exact meant.named 500 number (by decide)

/-- 2147483648 becomes the smallest `int`, and 4294967296 leaves the width as it is. -/
theorem sscdt_interval_negative :
    let ids : IdParsers := ⟨fun _ => false, fun _ => false⟩
    let g : Globals := ⟨none, none, 1000⟩
    let half : List Char := ['s', 't', 'o', 'p', ' ', 's', 's', 'c', 'd', 't', ' ',
      '2', '1', '4', '7', '4', '8', '3', '6', '4', '8']
    let whole : List Char := ['s', 't', 'o', 'p', ' ', 's', 's', 'c', 'd', 't', ' ',
      '4', '2', '9', '4', '9', '6', '7', '2', '9', '6']
    (sscdtNumber half = some 2147483648 ∧ (issue ids 1000 g half).tbfTwInterval = -2147483648) ∧
      (sscdtNumber whole = some 4294967296 ∧ (issue ids 1000 g whole).tbfTwInterval = 1000) := by
  decide +kernel

theorem issued_widths_positive {g : Globals} (positive : 1 ≤ g.tbfTwInterval)
    (bounded : g.tbfTwInterval < 2147483648) {buffers : List (List Char)}
    (small : ∀ buffer ∈ buffers, ∀ n, sscdtNumber buffer = some n → n < 2147483648) :
    Always (issue ids tbfRate) (fun g => 1 ≤ g.tbfTwInterval ∧ g.tbfTwInterval < 2147483648)
      g buffers := by
  have kept (g : Globals) (buffer : List Char)
      (width : 1 ≤ g.tbfTwInterval ∧ g.tbfTwInterval < 2147483648)
      (small : ∀ n, sscdtNumber buffer = some n → n < 2147483648) :
      1 ≤ (issue ids tbfRate g buffer).tbfTwInterval ∧
        (issue ids tbfRate g buffer).tbfTwInterval < 2147483648 := by
    unfold issue
    split
    · rename_i cmd parsed
      have meant := command_meant width.1 width.2 parsed small
      exact ⟨meant.positive, meant.bounded⟩
    · exact width
  exact always_of_along kept ⟨positive, bounded⟩ (along_of_forall small)

end TbfCommandText
