import LustreTools.Tbf.CommandText

/-!
Concurrent writers of the TBF rule and interval files. Each write function keeps its
command in one static variable shared by all its callers, and takes the NRS mutex only
around the application; a parsed command without a width carries the width that was
current when it was parsed.
-/
namespace TbfWriters
open Runs Words TbfPolicy TbfCommandText

inductive File where
  | rule
  | twInterval
  deriving DecidableEq, Repr

structure Writer where
  file : File
  hasHp : Bool
  kernbuf : List Char
  queue : Queue
  text : List Char
  kind : SscdtKind
  width : Option Int
  accepted : commandText hasHp kernbuf = .ok (queue, text)
  reads : reading text = some (kind, width)

inductive Pc where
  | ready
  | parsed (a : Nat)
  | stored (a : Nat)
  | applied (a : Nat)
  | done (a : Nat)
  deriving DecidableEq, Repr

def Pc.address : Pc → Option Nat
  | .ready => none
  | .parsed a => some a
  | .stored a => some a
  | .applied a => some a
  | .done a => some a

def Pc.Storing (pc : Pc) (a : Nat) : Prop := pc = .stored a ∨ pc = .applied a

/-- `cells` are the commands allocated so far, `releases` how often each was released,
    `cmd` the two static variables. `seen` is the width that was current when a writer
    parsed, `order` the writers in the order in which they held the mutex. Using or
    releasing a command that was released is a `fault` and ends the run. -/
structure Machine where
  globals : Globals
  cells : List SscdtCmd
  releases : Nat → Nat
  cmd : File → Option Nat
  pc : Nat → Pc
  seen : Nat → Int
  order : List Nat
  fault : Bool

def Machine.start (g : Globals) : Machine :=
  { globals := g, cells := [], releases := fun _ => 0, cmd := fun _ => none, pc := fun _ => .ready,
    seen := fun _ => 0, order := [], fault := false }

def Machine.deref (s : Machine) (file : File) : Option (Nat × SscdtCmd) :=
  match s.cmd file with
  | none => none
  | some a => if s.releases a = 0 then s.cells[a]?.map fun cmd => (a, cmd) else none

section
variable (ids : IdParsers) (tbfRate : Int) (writers : Nat → Writer)

def Writer.parse (w : Writer) (g : Globals) : Except Int Cmd :=
  match commandText w.hasHp w.kernbuf with
  | .error rc => .error rc
  | .ok directed => nrsTbfParseCmd ids tbfRate true g directed.2

def step (s : Machine) (i : Nat) : Machine :=
  if s.fault then s
  else match s.pc i with
  | .ready =>
    match (writers i).parse ids tbfRate s.globals with
    | .ok (.sscdt cmd) =>
      { s with
        cells := s.cells ++ [cmd]
        pc := Function.update s.pc i (.parsed s.cells.length)
        seen := Function.update s.seen i s.globals.tbfTwInterval }
    | _ => s
  | .parsed a =>
    { s with
      cmd := Function.update s.cmd (writers i).file (some a)
      pc := Function.update s.pc i (.stored a) }
  | .stored a =>
    match s.deref (writers i).file with
    | none => { s with fault := true }
    | some (_, cmd) =>
      { s with
        globals := nrsTbfCommand s.globals cmd
        pc := Function.update s.pc i (.applied a)
        order := s.order ++ [i] }
  | .applied a =>
    match s.deref (writers i).file with
    | none => { s with fault := true }
    | some (p, _) =>
      { s with
        releases := Function.update s.releases p (s.releases p + 1)
        pc := Function.update s.pc i (.done a) }
  | .done _ => s

/-- What a command does when it is executed by itself: without a width it keeps the one
    that is current. -/
def Writer.execute (w : Writer) (g : Globals) : Globals :=
  { g with
    hopCompare := match w.kind with
      | .start => g.sscdtReqCompare
      | .stop => some .tbfCliCompare
      | .change => g.hopCompare
    tbfTwInterval := (w.width.map s32).getD g.tbfTwInterval }

def sequential (g : Globals) (order : List Nat) : Globals :=
  order.foldl (fun g i => (writers i).execute g) g

/-- A writer stores only while no other writer of its file is between its store and its
    release, and applies a command without a width only under the width it saw. -/
def Exclusive (s : Machine) (i : Nat) : Prop :=
  match s.pc i with
  | .parsed _ => ∀ j, j ≠ i → (writers j).file = (writers i).file → ∀ a, ¬ (s.pc j).Storing a
  | .stored _ => (writers i).width = none → s.globals.tbfTwInterval = s.seen i
  | _ => True

def Linearized (g : Globals) (s : Machine) : Prop := s.globals = sequential writers g s.order

def ReleasedOnce (s : Machine) : Prop := s.fault = false ∧
  ∀ a < s.cells.length, ∃ i, (s.pc i).address = some a ∧
    s.releases a = if s.pc i = .done a then 1 else 0

end

variable {ids : IdParsers} {tbfRate : Int} {writers : Nat → Writer}

theorem Writer.parse_eq (w : Writer) (g : Globals) :
    w.parse ids tbfRate g = .ok (.sscdt ⟨w.kind, w.width.getD (u32 g.tbfTwInterval)⟩) := by
  simp only [Writer.parse, w.accepted]
  exact (parse_sscdt_iff g w.text _).mpr ⟨w.width, w.reads, rfl⟩

theorem command_eq_execute (w : Writer) {g : Globals} {seen : Int} (range : InS32 g.tbfTwInterval)
    (current : w.width = none → g.tbfTwInterval = seen) :
    nrsTbfCommand g ⟨w.kind, w.width.getD (u32 seen)⟩ = w.execute g := by
  have width : s32 (w.width.getD (u32 seen)) = (w.width.map s32).getD g.tbfTwInterval := by
    cases missing : w.width with
    | none =>
      rw [← current missing]
      exact s32_u32 range
    | some width => rfl
  cases kind : w.kind with
  | start =>
    simp only [nrsTbfCommand, nrsTbfSscdtStart, Writer.execute, kind, width]
    split
    · rfl
    · rename_i same
      simp_all
  | stop =>
    simp only [nrsTbfCommand, nrsTbfSscdtStop, Writer.execute, kind, width]
    split
    · rfl
    · rename_i same
      simp_all
  | change => simp only [nrsTbfCommand, nrsTbfTwIntervalChange, Writer.execute, kind, width]

theorem execute_range (w : Writer) {g : Globals} (range : InS32 g.tbfTwInterval) :
    InS32 (w.execute g).tbfTwInterval := by
  unfold Writer.execute
  cases w.width with
  | none => exact range
  | some width => exact s32_in width

structure Owns (writers : Nat → Writer) (cells : List SscdtCmd) (address : Nat → Option Nat)
    (seen : Nat → Int) : Prop where
  owned : ∀ a, a < cells.length → ∃ i, address i = some a
  unique : ∀ i j a, address i = some a → address j = some a → i = j
  content : ∀ i a, address i = some a →
    cells[a]? = some ⟨(writers i).kind, (writers i).width.getD (u32 (seen i))⟩

theorem Owns.allocated {cells : List SscdtCmd} {address : Nat → Option Nat} {seen : Nat → Int}
    (owns : Owns writers cells address seen) {i a : Nat} (found : address i = some a) :
    a < cells.length :=
  (List.getElem?_eq_some_iff.mp (owns.content i a found)).1

theorem Owns.allocate {cells : List SscdtCmd} {address : Nat → Option Nat} {seen : Nat → Int}
    (owns : Owns writers cells address seen) {i : Nat} (fresh : address i = none) (interval : Int) :
    Owns writers (cells ++ [⟨(writers i).kind, (writers i).width.getD (u32 interval)⟩])
      (Function.update address i (some cells.length)) (Function.update seen i interval) := by
  have old {j a : Nat} (other : j ≠ i)
      (found : Function.update address i (some cells.length) j = some a) : address j = some a := by
    rwa [Function.update_of_ne other] at found
  constructor
  · intro a inside
    by_cases last : a = cells.length
    · exact ⟨i, by simp [last]⟩
    · simp only [List.length_append, List.length_singleton] at inside
      obtain ⟨j, found⟩ := owns.owned a (by omega)
      have other : j ≠ i := by
        rintro rfl
        rw [fresh] at found
        cases found
      exact ⟨j, by rw [Function.update_of_ne other]; exact found⟩
  · intro j k a first second
    by_cases mine : j = i <;> by_cases yours : k = i
    · rw [mine, yours]
    · have inside := owns.allocated (old yours second)
      simp only [mine, Function.update_self, Option.some.injEq] at first
      omega
    · have inside := owns.allocated (old mine first)
      simp only [yours, Function.update_self, Option.some.injEq] at second
      omega
    · exact owns.unique j k a (old mine first) (old yours second)
  · intro j a found
    by_cases mine : j = i
    · subst mine
      simp only [Function.update_self, Option.some.injEq] at found ⊢
      simp [← found]
    · have before := old mine found
      rw [Function.update_of_ne mine, List.getElem?_append_left (owns.allocated before)]
      exact owns.content j a before

def Machine.addresses (s : Machine) (i : Nat) : Option Nat := (s.pc i).address

structure Inv (writers : Nat → Writer) (g : Globals) (s : Machine) : Prop where
  running : s.fault = false
  linear : Linearized writers g s
  range : InS32 s.globals.tbfTwInterval
  owns : Owns writers s.cells s.addresses s.seen
  releases : ∀ i a, (s.pc i).address = some a → s.releases a = if s.pc i = .done a then 1 else 0
  unallocated : ∀ a, s.cells.length ≤ a → s.releases a = 0
  static : ∀ i a, (s.pc i).Storing a → s.cmd (writers i).file = some a

theorem start_inv (writers : Nat → Writer) {g : Globals} (range : InS32 g.tbfTwInterval) :
    Inv writers g (.start g) where
  running := rfl
  linear := rfl
  range := range
  owns :=
    { owned := fun _ inside => by cases inside
      unique := fun _ _ _ found => by cases found
      content := fun _ _ found => by cases found }
  releases i a found := by cases found
  unallocated a _ := rfl
  static i a storing := by rcases storing with h | h <;> cases h

theorem update_address {pc : Nat → Pc} {i a : Nat} {next : Pc} (before : (pc i).address = some a)
    (after : next.address = some a) (j : Nat) :
    (Function.update pc i next j).address = (pc j).address := by
  by_cases same : j = i
  · subst same
    simp [before, after]
  · rw [Function.update_of_ne same]

theorem update_releases {pc : Nat → Pc} {releases : Nat → Nat} {i a : Nat} {next : Pc}
    (counts : ∀ j b, (pc j).address = some b → releases b = if pc j = .done b then 1 else 0)
    (before : (pc i).address = some a) (working : pc i ≠ .done a) (after : next.address = some a)
    (still : next ≠ .done a) (j b : Nat)
    (found : (Function.update pc i next j).address = some b) :
    releases b = if Function.update pc i next j = .done b then 1 else 0 := by
  rw [update_address before after] at found
  by_cases same : j = i
  · subst same
    rw [before, Option.some.injEq] at found
    subst found
    simpa [working, still] using counts j a before
  · rw [Function.update_of_ne same]
    exact counts j b found

variable {g : Globals} {s : Machine}

theorem Inv.deref (inv : Inv writers g s) {i a : Nat} (storing : (s.pc i).Storing a) :
    s.deref (writers i).file =
      some (a, ⟨(writers i).kind, (writers i).width.getD (u32 (s.seen i))⟩) := by
  have found : (s.pc i).address = some a := by
    rcases storing with h | h <;> rw [h] <;> rfl
  have working : s.pc i ≠ .done a := by
    rcases storing with h | h <;> rw [h] <;> simp
  have free : s.releases a = 0 := by
    simpa [working] using inv.releases i a found
  simp [Machine.deref, inv.static i a storing, free, inv.owns.content i a found]

theorem Inv.update_owns (inv : Inv writers g s) {i a : Nat} {pc : Pc} (before : (s.pc i).address = some a)
    (after : pc.address = some a) :
    Owns writers s.cells (fun j => (Function.update s.pc i pc j).address) s.seen := by
  have same : (fun j => (Function.update s.pc i pc j).address) = s.addresses :=
    funext (update_address before after)
  rw [same]
  exact inv.owns

theorem Inv.update_static (inv : Inv writers g s) {i : Nat} {pc : Pc}
    (here : ∀ b, pc.Storing b → s.cmd (writers i).file = some b) :
    ∀ j b, (Function.update s.pc i pc j).Storing b → s.cmd (writers j).file = some b := by
  intro j b storing
  by_cases same : j = i
  · subst same
    rw [Function.update_self] at storing
    exact here b storing
  · rw [Function.update_of_ne same] at storing
    exact inv.static j b storing

theorem parse_inv (inv : Inv writers g s) {i : Nat} (ready : s.pc i = .ready) :
    Inv writers g (step ids tbfRate writers s i) := by
  simp only [step, inv.running, Bool.false_eq_true, ↓reduceIte, ready, Writer.parse_eq]
  have fresh : s.addresses i = none := by rw [Machine.addresses, ready]; rfl
  have owns := inv.owns.allocate fresh s.globals.tbfTwInterval
  have addresses : (fun j => (Function.update s.pc i (.parsed s.cells.length) j).address) =
      Function.update s.addresses i (some s.cells.length) := by
    funext j
    by_cases same : j = i
    · subst same; simp [Pc.address]
    · simp [Function.update_of_ne same, Machine.addresses]
  refine ⟨rfl, inv.linear, inv.range, ?_, ?_, ?_, ?_⟩
  · rw [← addresses] at owns
    exact owns
  · intro j b found
    by_cases same : j = i
    · subst same
      simp only [Function.update_self, Pc.address, Option.some.injEq] at found
      simp [← found, inv.unallocated]
    · simp only [Function.update_of_ne same] at found ⊢
      exact inv.releases j b found
  · intro b beyond
    simp only [List.length_append, List.length_singleton] at beyond
    exact inv.unallocated b (by omega)
  · apply inv.update_static
    intro b storing
    simp [Pc.Storing] at storing

theorem store_inv (inv : Inv writers g s) {i a : Nat} (parsed : s.pc i = .parsed a)
    (alone : Exclusive writers s i) : Inv writers g (step ids tbfRate writers s i) := by
  simp only [step, inv.running, Bool.false_eq_true, ↓reduceIte, parsed]
  simp only [Exclusive, parsed] at alone
  have before : (s.pc i).address = some a := by rw [parsed]; rfl
  refine ⟨rfl, inv.linear, inv.range, ?_, ?_, inv.unallocated, ?_⟩
  · exact inv.update_owns before rfl
  · exact update_releases inv.releases before (by simp [parsed]) rfl (by simp)
  · intro j b storing
    by_cases same : j = i
    · subst same
      simpa [Pc.Storing] using storing
    · simp only [Function.update_of_ne same] at storing
      have other : (writers j).file ≠ (writers i).file := fun file => alone j same file b storing
      simpa [Function.update_of_ne other] using inv.static j b storing

theorem apply_inv (inv : Inv writers g s) {i a : Nat} (stored : s.pc i = .stored a)
    (current : Exclusive writers s i) : Inv writers g (step ids tbfRate writers s i) := by
  have command := inv.deref (Or.inl stored)
  simp only [step, inv.running, Bool.false_eq_true, ↓reduceIte, stored, command]
  simp only [Exclusive, stored] at current
  have executed := command_eq_execute (writers i) inv.range current
  have before : (s.pc i).address = some a := by rw [stored]; rfl
  refine ⟨rfl, ?_, ?_, ?_, ?_, inv.unallocated, ?_⟩
  · have linear := inv.linear
    simp only [Linearized, sequential] at linear ⊢
    rw [executed, List.foldl_append, ← linear]
    rfl
  · rw [executed]
    exact execute_range (writers i) inv.range
  · exact inv.update_owns before rfl
  · exact update_releases inv.releases before (by simp [stored]) rfl (by simp)
  · apply inv.update_static
    intro b storing
    simp only [Pc.Storing, reduceCtorEq, false_or, Pc.applied.injEq] at storing
    exact inv.static i b (Or.inl (by rw [stored, storing]))

theorem release_inv (inv : Inv writers g s) {i a : Nat} (applied : s.pc i = .applied a) :
    Inv writers g (step ids tbfRate writers s i) := by
  have command := inv.deref (Or.inr applied)
  simp only [step, inv.running, Bool.false_eq_true, ↓reduceIte, applied, command]
  have before : (s.pc i).address = some a := by rw [applied]; rfl
  have free : s.releases a = 0 := by simpa [applied] using inv.releases i a before
  refine ⟨rfl, inv.linear, inv.range, ?_, ?_, ?_, ?_⟩
  · exact inv.update_owns before rfl
  · intro j b found
    rw [update_address before rfl] at found
    by_cases same : j = i
    · subst same
      rw [before, Option.some.injEq] at found
      subst found
      simp [free]
    · have other : b ≠ a := by
        rintro rfl
        exact same (inv.owns.unique j i b found before)
      simp only [Function.update_of_ne same, Function.update_of_ne other]
      exact inv.releases j b found
  · intro b beyond
    have inside : a < s.cells.length := inv.owns.allocated before
    replace beyond : s.cells.length ≤ b := beyond
    have other : b ≠ a := by omega
    simpa [Function.update_of_ne other] using inv.unallocated b beyond
  · apply inv.update_static
    intro b storing
    simp [Pc.Storing] at storing

theorem step_inv (s : Machine) (i : Nat) (inv : Inv writers g s)
    (exclusive : Exclusive writers s i) : Inv writers g (step ids tbfRate writers s i) := by
  cases at_step : s.pc i with
  | ready => exact parse_inv inv at_step
  | parsed a => exact store_inv inv at_step exclusive
  | stored a => exact apply_inv inv at_step exclusive
  | applied a => exact release_inv inv at_step
  | done a =>
    simp only [step, inv.running, Bool.false_eq_true, ↓reduceIte, at_step]
    exact inv

theorem Inv.released_once (inv : Inv writers g s) : ReleasedOnce s := by
  refine ⟨inv.running, fun a inside => ?_⟩
  obtain ⟨i, found⟩ := inv.owns.owned a inside
  exact ⟨i, found, inv.releases i a found⟩

/-- Any interleaving of any writers whose uses of a static variable do not overlap and
    whose default widths do not go stale executes their commands one after another in the
    order of the mutex, and releases each command once. -/
theorem sscdt_commands_linearizable (ids : IdParsers) (tbfRate : Int) (writers : Nat → Writer)
    (g : Globals) (range : InS32 g.tbfTwInterval) (schedule : List Nat)
    (exclusive : Along (step ids tbfRate writers) (Exclusive writers) (.start g) schedule) :
    Always (step ids tbfRate writers) (fun s => Linearized writers g s ∧ ReleasedOnce s)
      (.start g) schedule :=
  always_mono (fun _ inv => ⟨inv.linear, inv.released_once⟩)
    (always_of_along step_inv (start_inv writers range) exclusive)

def startWriter : Writer where
  file := .rule
  hasHp := false
  kernbuf := ['s', 't', 'a', 'r', 't', ' ', 's', 's', 'c', 'd', 't', ' ', '5', '0', '0']
  queue := .reg
  text := ['s', 't', 'a', 'r', 't', ' ', 's', 's', 'c', 'd', 't', ' ', '5', '0', '0']
  kind := .start
  width := some 500
  accepted := by rfl
  reads := by rfl

def stopWriter : Writer where
  file := .rule
  hasHp := false
  kernbuf := ['s', 't', 'o', 'p', ' ', 's', 's', 'c', 'd', 't']
  queue := .reg
  text := ['s', 't', 'o', 'p', ' ', 's', 's', 'c', 'd', 't']
  kind := .stop
  width := none
  accepted := by rfl
  reads := by rfl

def changeWriter : Writer where
  file := .twInterval
  hasHp := true
  kernbuf := ['r', 'e', 'g', ' ', 'c', 'h', 'a', 'n', 'g', 'e', ' ', 's', 's', 'c', 'd', 't',
    ' ', '2', '5', '0']
  queue := .reg
  text := ['c', 'h', 'a', 'n', 'g', 'e', ' ', 's', 's', 'c', 'd', 't', ' ', '2', '5', '0']
  kind := .change
  width := some 250
  accepted := by rfl
  reads := by rfl

def noIds : IdParsers := ⟨fun _ => false, fun _ => false⟩

def nidMode : Globals := ⟨some .tbfCliCompare, some .sscdtReqCompareNid, 1000⟩

theorem step_pc_other (s : Machine) {i j : Nat} (other : j ≠ i) :
    (step ids tbfRate writers s i).pc j = s.pc j := by
  unfold step
  repeat' split
  all_goals simp [Function.update_of_ne other]

theorem apart_exclusive {all : List Nat} (named : ∀ i ∈ all, (writers i).width ≠ none)
    (apart : ∀ i ∈ all, ∀ j ∈ all, (writers j).file = (writers i).file → j = i) (schedule : List Nat) :
    ∀ s : Machine, schedule ⊆ all → (∀ j, j ∉ all → s.pc j = .ready) →
      Along (step ids tbfRate writers) (Exclusive writers) s schedule := by
  induction schedule with
  | nil => intro s _ _; trivial
  | cons i schedule ih =>
    intro s scheduled idle
    have member : i ∈ all := scheduled (by simp)
    refine ⟨?_, ih _ (fun j later => scheduled (by simp [later])) fun j absent => ?_⟩
    · unfold Exclusive
      split
      · intro j other file a storing
        have absent : j ∉ all := fun present => other (apart i member j present file)
        rw [idle j absent] at storing
        rcases storing with h | h <;> cases h
      · exact fun missing => absurd missing (named i member)
      · trivial
    · have other : j ≠ i := by rintro rfl; exact absent member
      rw [step_pc_other s other]
      exact idle j absent

theorem sscdt_commands_linearizable_two_files :
    let writers : Nat → Writer := fun i => if i = 1 then startWriter else changeWriter
    let schedule := [1, 2, 1, 2, 1, 2, 2, 1]
    let final := run (step noIds 10000 writers) (.start nidMode) schedule
    final.globals = ⟨some .sscdtReqCompareNid, some .sscdtReqCompareNid, 250⟩ ∧
      Linearized writers nidMode final ∧ ReleasedOnce final := by
  intro writers schedule final
  refine ⟨by decide +kernel, ?_⟩
  refine always_run (sscdt_commands_linearizable noIds 10000 writers nidMode (by decide) schedule ?_)
  have named : ∀ i ∈ [1, 2], (writers i).width ≠ none := by decide
  have apart : ∀ i ∈ [1, 2], ∀ j ∈ [1, 2], (writers j).file = (writers i).file → j = i := by decide
  exact apart_exclusive named apart schedule _ (by decide) (fun _ _ => rfl)

/-- Two writers of the rule file. When both store before the first applies, the first
    applies the second's command, and then releases it before the second uses it; and a
    stop command parsed before another command set the width sets the old width again. -/
theorem sscdt_command_lost :
    let writers : Nat → Writer := fun i => if i = 1 then startWriter else stopWriter
    let after := run (step noIds 10000 writers) (.start nidMode)
    ¬ Linearized writers nidMode (after [1, 1, 2, 2, 1]) ∧
      (after [1, 1, 2, 2, 1, 1, 2]).fault = true ∧
      ¬ Linearized writers nidMode (after [2, 1, 1, 1, 1, 2, 2]) := by
  intro writers after
  refine ⟨?_, by decide +kernel, ?_⟩
  · unfold Linearized
    decide +kernel
  · unfold Linearized
    decide +kernel

end TbfWriters
