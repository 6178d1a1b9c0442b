import Mathlib.Logic.Function.Basic
import Mathlib.Tactic.IntervalCases
import LustreTools.Batch.Barrier

/-!
The kernel part of the installation (auto_lustre2.8.0_install.sh) against `n` nodes. The
controller sends its commands with `ssh -f`, so a node may run what it was sent at any
later time and in any order. The signal file of a node is one cell for all stages. A
barrier polls the nodes one after the other, and is taken to read them right.
-/
namespace BatchInstall
open Runs BatchBarrier

inductive Job where
  | lustreInstallPre
  | clearAfterPre
  | firstMarker
  | firstReboot
  | clearAfterReboot
  | lustreInstallNewkernel
  | clearAfterNewkernel
  | secondMarker
  | secondReboot
  deriving DecidableEq, Repr

inductive Kind where
  | stage
  | clear
  | marker
  | reboot
  deriving DecidableEq, Repr

def Job.kind : Job → Kind
  | .lustreInstallPre | .lustreInstallNewkernel => .stage
  | .clearAfterPre | .clearAfterReboot | .clearAfterNewkernel => .clear
  | .firstMarker | .secondMarker => .marker
  | .firstReboot | .secondReboot => .reboot

def statusReboot : List Char := ['R', 'E', 'B', 'O', 'O', 'T']

inductive Instr where
  | send (job : Job)
  | wait (status : List Char)
  deriving DecidableEq, Repr

def script : List Instr :=
  [.send .lustreInstallPre, .wait statusExecute,
    .send .clearAfterPre, .send .firstMarker, .send .firstReboot, .wait statusReboot,
    .send .clearAfterReboot, .send .lustreInstallNewkernel, .wait statusExecute,
    .send .clearAfterNewkernel, .send .secondMarker, .send .secondReboot, .wait statusReboot]

def Job.line : Job → Nat
  | .lustreInstallPre => 0
  | .clearAfterPre => 2
  | .firstMarker => 3
  | .firstReboot => 4
  | .clearAfterReboot => 6
  | .lustreInstallNewkernel => 7
  | .clearAfterNewkernel => 9
  | .secondMarker => 10
  | .secondReboot => 11

inductive Progress where
  | unsent
  | sent
  | begun
  | finished
  deriving DecidableEq, Repr

structure Node where
  signal : List Char
  progress : Job → Progress

def Node.set (node : Node) (job : Job) (progress : Progress) : Node :=
  { node with progress := Function.update node.progress job progress }

/-- The next step of a job on its node. A stage script clears the signal file when it
    begins and writes EXECUTE when it ends; a reboot keeps the file. -/
def Node.run (node : Node) (job : Job) : Node :=
  match node.progress job, job.kind with
  | .sent, .stage => { node.set job .begun with signal := [] }
  | .begun, .stage => { node.set job .finished with signal := statusExecute }
  | .sent, .clear => { node.set job .finished with signal := [] }
  | .sent, .marker => { node.set job .finished with signal := statusReboot }
  | .sent, .reboot => node.set job .finished
  | _, _ => node

/-- `next` is the node that is sent to or polled next, `count` how many of the nodes polled
    in this round had the status. -/
structure State where
  pc : Nat
  next : Nat
  count : Nat
  nodes : Nat → Node

inductive Event where
  | control
  | node (i : Nat) (job : Job)
  deriving DecidableEq, Repr

def State.update (s : State) (i : Nat) (node : Node) : State :=
  { s with nodes := Function.update s.nodes i node }

def control (n : Nat) (s : State) : State :=
  match script[s.pc]? with
  | none => s
  | some (.send job) =>
    if s.next < n then { s.update s.next ((s.nodes s.next).set job .sent) with next := s.next + 1 }
    else { s with pc := s.pc + 1, next := 0, count := 0 }
  | some (.wait status) =>
    if s.next < n then
      { s with
        next := s.next + 1
        count := if (s.nodes s.next).signal = status then s.count + 1 else s.count }
    else if s.count = n then { s with pc := s.pc + 1, next := 0, count := 0 }
    else { s with next := 0, count := 0 }

def step (n : Nat) (s : State) : Event → State
  | .control => control n s
  | .node i job => s.update i ((s.nodes i).run job)

def start (signals : Nat → List Char) : State :=
  { pc := 0, next := 0, count := 0, nodes := fun i => ⟨signals i, fun _ => .unsent⟩ }

def Node.Finished (node : Node) (job : Job) : Prop := node.progress job = .finished

/-- What the barriers before line `pc` stand for. -/
structure Passed (pc : Nat) (node : Node) : Prop where
  pre : 1 < pc → node.Finished .lustreInstallPre
  reboot : 5 < pc → node.Finished .firstReboot
  newkernel : 8 < pc → node.Finished .lustreInstallNewkernel
  again : 12 < pc → node.Finished .secondReboot

def Safe (n : Nat) (s : State) : Prop := ∀ i < n, Passed s.pc (s.nodes i)

def Node.Started (node : Node) (job : Job) : Prop :=
  node.progress job = .begun ∨ node.progress job = .finished

/-- A node writes a REBOOT marker only after it executed the reboot that was sent with it. -/
def RebootsFirst (node : Node) : Job → Prop
  | .firstMarker => node.progress .firstMarker = .sent → node.Finished .firstReboot
  | .secondMarker => node.progress .secondMarker = .sent → node.Finished .secondReboot
  | _ => True

/-- A node that held EXECUTE at the start has begun the first stage when the first barrier
    polls it. -/
def Timely (n : Nat) (signals : Nat → List Char) (s : State) : Event → Prop
  | .control =>
    s.pc = 1 → s.next < n → signals s.next = statusExecute → (s.nodes s.next).Started .lustreInstallPre
  | .node i job => RebootsFirst (s.nodes i) job

instance (node : Node) (job : Job) : Decidable (node.Finished job) := inferInstanceAs (Decidable (_ = _))

instance (node : Node) (job : Job) : Decidable (node.Started job) := inferInstanceAs (Decidable (_ ∨ _))

instance (pc : Nat) (node : Node) : Decidable (Passed pc node) :=
  decidable_of_iff ((1 < pc → node.Finished .lustreInstallPre) ∧ (5 < pc → node.Finished .firstReboot) ∧
      (8 < pc → node.Finished .lustreInstallNewkernel) ∧ (12 < pc → node.Finished .secondReboot))
    ⟨fun ⟨a, b, c, d⟩ => ⟨a, b, c, d⟩, fun ⟨a, b, c, d⟩ => ⟨a, b, c, d⟩⟩

instance (n : Nat) (s : State) : Decidable (Safe n s) := inferInstanceAs (Decidable (∀ i < n, _))

instance (node : Node) : ∀ job, Decidable (RebootsFirst node job)
  | .firstMarker | .secondMarker => inferInstanceAs (Decidable (_ → _))
  | .lustreInstallPre | .clearAfterPre | .firstReboot | .clearAfterReboot | .lustreInstallNewkernel
  | .clearAfterNewkernel | .secondReboot => isTrue trivial

instance (n : Nat) (signals : Nat → List Char) (s : State) : ∀ e, Decidable (Timely n signals s e)
  | .control => inferInstanceAs (Decidable (_ → _))
  | .node i job => inferInstanceAs (Decidable (RebootsFirst (s.nodes i) job))

/-- What the signal of a node says. `first` is the signal that the node held at the start;
    it stays until the first stage begins, as every other job is sent after that stage. -/
structure SignalOk (first : List Char) (node : Node) : Prop where
  left : node.Started .lustreInstallPre ∨ node.signal = first
  pre : node.progress .lustreInstallPre = .begun → node.signal ≠ statusExecute
  newkernel : node.Finished .firstMarker → node.signal = statusExecute → node.Finished .lustreInstallNewkernel
  marker : node.Started .lustreInstallPre → node.signal = statusReboot → node.Finished .firstMarker
  again : node.Started .lustreInstallNewkernel → node.signal = statusReboot → node.Finished .secondMarker

structure Sequenced (node : Node) : Prop where
  pre : ∀ job, job ≠ .lustreInstallPre → node.progress job ≠ .unsent → node.Finished .lustreInstallPre
  newkernel : node.progress .lustreInstallNewkernel ≠ .unsent → node.Finished .firstMarker
  again : node.progress .secondMarker ≠ .unsent → node.Finished .firstMarker

structure Rebooted (node : Node) : Prop where
  first : node.Finished .firstMarker → node.Finished .firstReboot
  second : node.Finished .secondMarker → node.Finished .secondReboot

@[simp] theorem set_progress (node : Node) (job other : Job) (progress : Progress) :
    (node.set job progress).progress other = if other = job then progress else node.progress other := by
  simp [Node.set, Function.update_apply]

@[simp] theorem set_signal (node : Node) (job : Job) (progress : Progress) :
    (node.set job progress).signal = node.signal := rfl

theorem set_started {node : Node} {job : Job} {progress : Progress} (sequenced : Sequenced node)
    (sent : node.progress job ≠ .unsent) (moved : progress = .begun ∨ progress = .finished) :
    (node.set job progress).Started .lustreInstallPre := by
  by_cases same : job = .lustreInstallPre
  · subst same
    simpa [Node.Started] using moved
  · have earlier := sequenced.pre job same sent
    refine Or.inr ?_
    rw [set_progress, if_neg (Ne.symm same)]
    exact earlier

theorem signal_ok_of_empty {first : List Char} {node : Node} (started : node.Started .lustreInstallPre)
    (empty : node.signal = []) : SignalOk first node := by
  refine ⟨Or.inl started, ?_, ?_, ?_, ?_⟩ <;> intro _ same <;> rw [empty] at same <;> cases same

theorem signal_ok_of_execute {first : List Char} {node : Node} (shows : node.signal = statusExecute)
    (started : node.Started .lustreInstallPre) (pre : node.progress .lustreInstallPre ≠ .begun)
    (newkernel : node.Finished .firstMarker → node.Finished .lustreInstallNewkernel) :
    SignalOk first node := by
  have differ : statusExecute ≠ statusReboot := by decide
  refine ⟨Or.inl started, fun under => absurd under pre, fun marker _ => newkernel marker, ?_, ?_⟩
  · intro _ same
    exact absurd (shows.symm.trans same) differ
  · intro _ same
    exact absurd (shows.symm.trans same) differ

theorem signal_ok_of_reboot {first : List Char} {node : Node} (shows : node.signal = statusReboot)
    (started : node.Started .lustreInstallPre) (marker : node.Finished .firstMarker)
    (again : node.Started .lustreInstallNewkernel → node.Finished .secondMarker) :
    SignalOk first node := by
  have differ : statusReboot ≠ statusExecute := by decide
  refine ⟨Or.inl started, ?_, ?_, fun _ _ => marker, fun started _ => again started⟩
  · intro _ same
    exact absurd (shows.symm.trans same) differ
  · intro _ same
    exact absurd (shows.symm.trans same) differ

theorem stage_end_ok {first : List Char} {node : Node} {job : Job} (sequenced : Sequenced node)
    (begun : node.progress job = .begun) (kind : job.kind = .stage) :
    SignalOk first { node.set job .finished with signal := statusExecute } := by
  have sent : node.progress job ≠ .unsent := by
    rw [begun]
    decide
  have started := set_started sequenced sent (Or.inr rfl)
  cases job <;> cases kind
  · refine signal_ok_of_execute rfl started (by simp) ?_
    intro marker
    have written : node.Finished .firstMarker := by simpa [Node.Finished] using marker
    have earlier := sequenced.pre .firstMarker (by decide) (by rw [written]; decide)
    rw [Node.Finished, begun] at earlier
    cases earlier
  · have earlier := sequenced.pre .lustreInstallNewkernel (by decide) sent
    refine signal_ok_of_execute rfl started ?_ (fun _ => by simp [Node.Finished])
    intro under
    simp only [set_progress, reduceCtorEq, ↓reduceIte] at under
    rw [Node.Finished, under] at earlier
    cases earlier

theorem marker_ok {first : List Char} {node : Node} {job : Job} (sequenced : Sequenced node)
    (sent : node.progress job = .sent) (kind : job.kind = .marker) :
    SignalOk first { node.set job .finished with signal := statusReboot } := by
  have known : node.progress job ≠ .unsent := by
    rw [sent]
    decide
  have started := set_started sequenced known (Or.inr rfl)
  cases job <;> cases kind
  · refine signal_ok_of_reboot rfl started (by simp [Node.Finished]) ?_
    intro under
    simp only [Node.Started, set_progress, reduceCtorEq, ↓reduceIte] at under
    have earlier := sequenced.newkernel (by rcases under with x | x <;> rw [x] <;> decide)
    rw [Node.Finished, sent] at earlier
    cases earlier
  · have earlier := sequenced.again known
    refine signal_ok_of_reboot rfl started ?_ (fun _ => by simp [Node.Finished])
    simpa [Node.Finished] using earlier

theorem reboot_ok {first : List Char} {node : Node} {job : Job} (ok : SignalOk first node)
    (kind : job.kind = .reboot) : SignalOk first (node.set job .finished) := by
  obtain ⟨left, pre, newkernel, marker, again⟩ := ok
  simp only [Node.Started, Node.Finished] at left newkernel marker again
  cases job <;> cases kind <;>
    exact ⟨by simpa [Node.Started] using left, by simpa using pre,
      by simpa [Node.Finished] using newkernel,
      by simpa [Node.Started, Node.Finished] using marker,
      by simpa [Node.Started, Node.Finished] using again⟩

theorem run_signal_ok {first : List Char} {node : Node} (job : Job) (ok : SignalOk first node)
    (sequenced : Sequenced node) : SignalOk first (node.run job) := by
  have known {progress : Progress} (here : node.progress job = progress) (some : progress ≠ .unsent) :
      node.progress job ≠ .unsent := by rwa [here]
  unfold Node.run
  split
  · rename_i sent _
    exact signal_ok_of_empty (set_started sequenced (known sent (by decide)) (Or.inl rfl)) rfl
  · rename_i begun kind
    exact stage_end_ok sequenced begun kind
  · rename_i sent _
    exact signal_ok_of_empty (set_started sequenced (known sent (by decide)) (Or.inr rfl)) rfl
  · rename_i sent kind
    exact marker_ok sequenced sent kind
  · rename_i kind
    exact reboot_ok ok kind
  · exact ok

theorem run_progress (node : Node) (job other : Job) :
    (node.run job).progress other = node.progress other ∨
      (other = job ∧ node.progress other ≠ .unsent ∧ node.progress other ≠ .finished ∧
        (node.run job).progress other ≠ .unsent) := by
  by_cases same : other = job
  · subst same
    unfold Node.run
    split <;> rename_i here _ <;> simp [here]
  · apply Or.inl
    unfold Node.run
    split <;> simp [same]

theorem run_keeps {node : Node} (job : Job) {other : Job} (finished : node.Finished other) :
    (node.run job).Finished other := by
  rcases run_progress node job other with same | ⟨_, _, unfinished, _⟩
  · exact same.trans finished
  · exact absurd finished unfinished

theorem marker_written {node : Node} {job other : Job} (kind : other.kind = .marker)
    (after : (node.run job).Finished other) :
    node.Finished other ∨ (other = job ∧ node.progress other = .sent) := by
  rcases run_progress node job other with same | ⟨rfl, known, unfinished, _⟩
  · exact Or.inl (same.symm.trans after)
  · cases here : node.progress other with
    | unsent => exact absurd here known
    | sent => exact Or.inr ⟨rfl, rfl⟩
    | begun => simp [Node.Finished, Node.run, here, kind] at after
    | finished => exact absurd here unfinished

theorem run_rebooted {node : Node} (job : Job) (rebooted : Rebooted node)
    (ordered : RebootsFirst node job) : Rebooted (node.run job) := by
  constructor
  · intro after
    rcases marker_written rfl after with before | ⟨rfl, sent⟩
    · exact run_keeps job (rebooted.first before)
    · exact run_keeps .firstMarker (ordered sent)
  · intro after
    rcases marker_written rfl after with before | ⟨rfl, sent⟩
    · exact run_keeps job (rebooted.second before)
    · exact run_keeps .secondMarker (ordered sent)

theorem sent_of_run {node : Node} {job other : Job} (sent : (node.run job).progress other ≠ .unsent) :
    node.progress other ≠ .unsent := by
  rcases run_progress node job other with same | ⟨_, before, _, _⟩
  · rwa [← same]
  · exact before

theorem send_keeps {node : Node} {job other : Job} (unsent : node.progress job = .unsent)
    (finished : node.Finished other) : (node.set job .sent).Finished other := by
  have differ : other ≠ job := by
    rintro rfl
    rw [Node.Finished, unsent] at finished
    cases finished
  rw [Node.Finished, set_progress, if_neg differ]
  exact finished

theorem finished_of_send {node : Node} {job other : Job} (after : (node.set job .sent).Finished other) :
    node.Finished other := by
  rw [Node.Finished, set_progress] at after
  split at after
  · cases after
  · exact after

theorem started_of_send {node : Node} {job other : Job} (after : (node.set job .sent).Started other) :
    node.Started other := by
  simp only [Node.Started, set_progress] at after
  split at after
  · rcases after with under | ended
    · cases under
    · cases ended
  · exact after

theorem send_started {node : Node} {job other : Job} (unsent : node.progress job = .unsent)
    (started : node.Started other) : (node.set job .sent).Started other := by
  have differ : other ≠ job := by
    rintro rfl
    simp [Node.Started, unsent] at started
  rw [Node.Started, set_progress, if_neg differ]
  exact started

theorem send_signal_ok {first : List Char} {node : Node} {job : Job} (ok : SignalOk first node)
    (unsent : node.progress job = .unsent) : SignalOk first (node.set job .sent) := by
  constructor
  · exact ok.left.imp (send_started unsent) id
  · intro under
    rw [set_progress] at under
    split at under
    · cases under
    · exact ok.pre under
  · intro marker same
    exact send_keeps unsent (ok.newkernel (finished_of_send marker) same)
  · intro started same
    exact send_keeps unsent (ok.marker (started_of_send started) same)
  · intro started same
    exact send_keeps unsent (ok.again (started_of_send started) same)

theorem send_rebooted {node : Node} {job : Job} (rebooted : Rebooted node)
    (unsent : node.progress job = .unsent) : Rebooted (node.set job .sent) := by
  constructor
  · intro after
    exact send_keeps unsent (rebooted.first (finished_of_send after))
  · intro after
    exact send_keeps unsent (rebooted.second (finished_of_send after))

structure Done (pc : Nat) (node : Node) : Prop where
  passed : Passed pc node
  marker : 5 < pc → node.Finished .firstMarker

theorem done_mono {pc : Nat} {node node' : Node} (done : Done pc node)
    (keeps : ∀ job, node.Finished job → node'.Finished job) : Done pc node' := by
  obtain ⟨⟨pre, reboot, newkernel, again⟩, marker⟩ := done
  exact ⟨⟨fun h => keeps _ (pre h), fun h => keeps _ (reboot h), fun h => keeps _ (newkernel h),
    fun h => keeps _ (again h)⟩, fun h => keeps _ (marker h)⟩

theorem send_line (job : Job) : script[job.line]? = some (.send job) := by cases job <;> rfl

theorem line_of_send {pc : Nat} {job : Job} (here : script[pc]? = some (.send job)) : job.line = pc := by
  obtain ⟨inside, _⟩ := List.getElem?_eq_some_iff.mp here
  change pc < 13 at inside
  interval_cases pc <;> cases here <;> rfl

theorem done_after_send {pc : Nat} {job : Job} {node : Node} (here : script[pc]? = some (.send job))
    (done : Done pc node) : Done (pc + 1) node := by
  have line : pc ≠ 1 ∧ pc ≠ 5 ∧ pc ≠ 8 ∧ pc ≠ 12 := by
    refine ⟨?_, ?_, ?_, ?_⟩ <;> rintro rfl <;> cases here
  obtain ⟨⟨pre, reboot, newkernel, again⟩, marker⟩ := done
  exact ⟨⟨fun h => pre (by omega), fun h => reboot (by omega), fun h => newkernel (by omega),
    fun h => again (by omega)⟩, fun h => marker (by omega)⟩

theorem wait_line {pc : Nat} {status : List Char} (here : script[pc]? = some (.wait status)) :
    (pc = 1 ∧ status = statusExecute) ∨ (pc = 5 ∧ status = statusReboot) ∨
      (pc = 8 ∧ status = statusExecute) ∨ (pc = 12 ∧ status = statusReboot) := by
  obtain ⟨inside, _⟩ := List.getElem?_eq_some_iff.mp here
  change pc < 13 at inside
  interval_cases pc <;> cases here <;> simp

/-- EXECUTE on a node that has begun the first stage, or that the first barrier polls in
    time, is the one that the stage wrote. -/
theorem pre_of_signal {first : List Char} {node : Node} (ok : SignalOk first node)
    (timely : first = statusExecute → node.Started .lustreInstallPre)
    (signal : node.signal = statusExecute) : node.Finished .lustreInstallPre := by
  have started : node.Started .lustreInstallPre := by
    rcases ok.left with started | same
    · exact started
    · exact timely (same.symm.trans signal)
  rcases started with begun | finished
  · exact absurd signal (ok.pre begun)
  · exact finished

theorem done_of_signal {pc : Nat} {status first : List Char} {node : Node}
    (here : script[pc]? = some (.wait status)) (done : Done pc node) (ok : SignalOk first node)
    (rebooted : Rebooted node) (signal : node.signal = status)
    (timely : pc = 1 → first = statusExecute → node.Started .lustreInstallPre) :
    Done (pc + 1) node := by
  obtain ⟨⟨pre, reboot, newkernel, again⟩, marker⟩ := done
  rcases wait_line here with ⟨rfl, rfl⟩ | ⟨rfl, rfl⟩ | ⟨rfl, rfl⟩ | ⟨rfl, rfl⟩
  · have finished := pre_of_signal ok (timely rfl) signal
    exact ⟨⟨fun _ => finished, by omega, by omega, by omega⟩, by omega⟩
  · have written := ok.marker (Or.inr (pre (by omega))) signal
    have executed := rebooted.first written
    exact ⟨⟨fun _ => pre (by omega), fun _ => executed, by omega, by omega⟩, fun _ => written⟩
  · have written := marker (by omega)
    have finished := ok.newkernel written signal
    exact ⟨⟨fun _ => pre (by omega), fun _ => reboot (by omega), fun _ => finished, by omega⟩,
      fun _ => written⟩
  · have written := ok.again (Or.inr (newkernel (by omega))) signal
    have executed := rebooted.second written
    exact ⟨⟨fun _ => pre (by omega), fun _ => reboot (by omega), fun _ => newkernel (by omega),
      fun _ => executed⟩, fun _ => marker (by omega)⟩

structure Inv (n : Nat) (signals : Nat → List Char) (s : State) : Prop where
  sent : ∀ i job, (s.nodes i).progress job ≠ .unsent →
    i < n ∧ (job.line < s.pc ∨ job.line = s.pc ∧ i < s.next)
  done : ∀ i < n, Done s.pc (s.nodes i)
  bound : s.next ≤ n ∧ s.count ≤ s.next
  polled : ∀ status, script[s.pc]? = some (.wait status) → s.count = s.next →
    ∀ i < s.next, Done (s.pc + 1) (s.nodes i)
  signal : ∀ i, SignalOk (signals i) (s.nodes i)
  rebooted : ∀ i, Rebooted (s.nodes i)

variable {n : Nat} {signals : Nat → List Char} {s : State}

theorem sequenced_of_inv (inv : Inv n signals s) (i : Nat) : Sequenced (s.nodes i) := by
  constructor
  · intro job later sent
    obtain ⟨inside, line⟩ := inv.sent i job sent
    have beyond : 1 < job.line := by
      cases job with
      | lustreInstallPre => exact absurd rfl later
      | _ => decide
    exact (inv.done i inside).passed.pre (by omega)
  · intro sent
    obtain ⟨inside, line⟩ := inv.sent i .lustreInstallNewkernel sent
    simp only [Job.line] at line
    exact (inv.done i inside).marker (by omega)
  · intro sent
    obtain ⟨inside, line⟩ := inv.sent i .secondMarker sent
    simp only [Job.line] at line
    exact (inv.done i inside).marker (by omega)

theorem update_nodes (s : State) (i : Nat) (node : Node) (j : Nat) :
    (s.update i node).nodes j = if j = i then node else s.nodes j := by
  simp [State.update, Function.update_apply]

theorem update_inv {i : Nat} {node : Node} (inv : Inv n signals s)
    (sent : ∀ job, node.progress job ≠ .unsent → (s.nodes i).progress job ≠ .unsent)
    (keeps : ∀ job, (s.nodes i).Finished job → node.Finished job) (ok : SignalOk (signals i) node)
    (rebooted : Rebooted node) :
    Inv n signals (s.update i node) := by
  have done {pc j : Nat} (before : Done pc (s.nodes j)) : Done pc ((s.update i node).nodes j) := by
    rw [update_nodes]
    split
    · rename_i here
      subst here
      exact done_mono before keeps
    · exact before
  constructor
  · intro j job
    rw [update_nodes]
    split
    · rename_i here
      subst here
      intro now
      exact inv.sent j job (sent job now)
    · exact inv.sent j job
  · intro j inside
    exact done (inv.done j inside)
  · exact inv.bound
  · intro status here full j below
    exact done (inv.polled status here full j below)
  · intro j
    rw [update_nodes]
    split
    · rename_i here
      subst here
      exact ok
    · exact inv.signal j
  · intro j
    rw [update_nodes]
    split
    · exact rebooted
    · exact inv.rebooted j

theorem node_inv (inv : Inv n signals s) (i : Nat) (job : Job)
    (ordered : RebootsFirst (s.nodes i) job) :
    Inv n signals (s.update i ((s.nodes i).run job)) := by
  apply update_inv inv
  · intro other
    exact sent_of_run
  · intro other
    exact run_keeps job
  · exact run_signal_ok job (inv.signal i) (sequenced_of_inv inv i)
  · exact run_rebooted job (inv.rebooted i) ordered

theorem send_inv {job : Job} (inv : Inv n signals s)
    (here : script[s.pc]? = some (.send job)) (more : s.next < n) :
    Inv n signals { s.update s.next ((s.nodes s.next).set job .sent) with next := s.next + 1 } := by
  have line := line_of_send here
  have unsent : (s.nodes s.next).progress job = .unsent := by
    by_contra sent
    have place := (inv.sent s.next job sent).2
    omega
  constructor
  · intro j other
    simp only [update_nodes]
    intro sent
    by_cases this : j = s.next ∧ other = job
    · obtain ⟨rfl, rfl⟩ := this
      exact ⟨more, Or.inr ⟨line, Nat.lt_succ_self _⟩⟩
    · have before : (s.nodes j).progress other ≠ .unsent := by
        split at sent
        · rename_i same
          subst same
          rwa [set_progress, if_neg fun eq => this ⟨rfl, eq⟩] at sent
        · exact sent
      obtain ⟨inside, place⟩ := inv.sent j other before
      exact ⟨inside, place.imp id fun ⟨at_line, below⟩ => ⟨at_line, Nat.lt_succ_of_lt below⟩⟩
  · intro j inside
    simp only [update_nodes]
    split
    · rename_i same
      subst same
      exact done_mono (inv.done _ inside) fun _ => send_keeps unsent
    · exact inv.done j inside
  · exact ⟨more, Nat.le_succ_of_le inv.bound.2⟩
  · intro status barrier
    simp only [State.update, here] at barrier
    cases barrier
  · intro j
    simp only [update_nodes]
    split
    · rename_i same
      subst same
      exact send_signal_ok (inv.signal _) unsent
    · exact inv.signal j
  · intro j
    simp only [update_nodes]
    split
    · exact send_rebooted (inv.rebooted _) unsent
    · exact inv.rebooted j

theorem advance_inv (inv : Inv n signals s) (done : ∀ i < n, Done (s.pc + 1) (s.nodes i)) :
    Inv n signals { s with pc := s.pc + 1, next := 0, count := 0 } := by
  constructor
  · intro i job sent
    obtain ⟨inside, place⟩ := inv.sent i job sent
    exact ⟨inside, Or.inl (by simp only; omega)⟩
  · exact done
  · exact ⟨Nat.zero_le n, Nat.le_refl 0⟩
  · intro status _ _ i below
    exact absurd below (Nat.not_lt_zero i)
  · exact inv.signal
  · exact inv.rebooted

theorem poll_inv {status : List Char} (inv : Inv n signals s)
    (here : script[s.pc]? = some (.wait status)) (more : s.next < n)
    (timely : s.pc = 1 → signals s.next = statusExecute → (s.nodes s.next).Started .lustreInstallPre) :
    Inv n signals { s with
      next := s.next + 1
      count := if (s.nodes s.next).signal = status then s.count + 1 else s.count } := by
  have bound := inv.bound.2
  constructor
  · intro i job sent
    obtain ⟨inside, place⟩ := inv.sent i job sent
    exact ⟨inside, place.imp id fun ⟨at_line, below⟩ => ⟨at_line, Nat.lt_succ_of_lt below⟩⟩
  · exact inv.done
  · refine ⟨more, ?_⟩
    simp only
    split <;> omega
  · intro _ _ full i below
    simp only at full below
    split at full
    · rename_i signal
      by_cases last : i = s.next
      · subst last
        exact done_of_signal here (inv.done _ more) (inv.signal _) (inv.rebooted _) signal timely
      · exact inv.polled status here (by omega) i (by omega)
    · omega
  · exact inv.signal
  · exact inv.rebooted

theorem again_inv {status : List Char} (inv : Inv n signals s)
    (here : script[s.pc]? = some (.wait status)) : Inv n signals { s with next := 0, count := 0 } := by
  constructor
  · intro i job sent
    obtain ⟨inside, before | ⟨line, _⟩⟩ := inv.sent i job sent
    · exact ⟨inside, Or.inl before⟩
    · have sends := send_line job
      rw [line, here] at sends
      cases sends
  · exact inv.done
  · exact ⟨Nat.zero_le n, Nat.le_refl 0⟩
  · intro _ _ _ i below
    exact absurd below (Nat.not_lt_zero i)
  · exact inv.signal
  · exact inv.rebooted

theorem control_inv (inv : Inv n signals s) (timely : Timely n signals s .control) :
    Inv n signals (control n s) := by
  unfold control
  split
  · exact inv
  · rename_i job here
    split
    · rename_i more
      exact send_inv inv here more
    · exact advance_inv inv fun i inside => done_after_send here (inv.done i inside)
  · rename_i status here
    split
    · rename_i more
      exact poll_inv inv here more fun first => timely first more
    · rename_i round
      split
      · rename_i full
        have bound := inv.bound
        exact advance_inv inv fun i inside => inv.polled status here (by omega) i (by omega)
      · exact again_inv inv here

theorem step_inv (n : Nat) (signals : Nat → List Char) (s : State) (e : Event) (inv : Inv n signals s)
    (timely : Timely n signals s e) : Inv n signals (step n s e) := by
  cases e with
  | control => exact control_inv inv timely
  | node i job => exact node_inv inv i job timely

theorem start_inv (n : Nat) (signals : Nat → List Char) : Inv n signals (start signals) := by
  constructor
  · intro i job sent
    exact absurd rfl sent
  · intro i _
    simp only [start]
    exact ⟨⟨by omega, by omega, by omega, by omega⟩, by omega⟩
  · exact ⟨Nat.zero_le n, Nat.le_refl 0⟩
  · intro _ _ _ i below
    exact absurd below (Nat.not_lt_zero i)
  · intro i
    refine ⟨Or.inr rfl, ?_, ?_, ?_, ?_⟩
    · intro begun
      cases begun
    · intro finished
      cases finished
    · rintro (begun | finished) <;> contradiction
    · rintro (begun | finished) <;> contradiction
  · intro i
    constructor <;> intro finished <;> cases finished

/-- In every run in which no node is polled too early with an EXECUTE left over, and each
    node executes a reboot before it writes the marker for it, each barrier is passed only
    after every node did what it stands for. -/
theorem barriers_safe_of_reboot_first (n : Nat) (signals : Nat → List Char) (es : List Event)
    (timely : Along (step n) (Timely n signals) (start signals) es) :
    Always (step n) (Safe n) (start signals) es := by
  have always := always_of_along (step_inv n signals) (start_inv n signals) timely
  exact always_mono (fun _ inv i inside => (inv.done i inside).passed) always

def controls (k : Nat) : List Event := List.replicate k .control

def leftOver (i : Nat) : List Char := if i = 0 then statusExecute else statusReboot

theorem barriers_safe_two_nodes :
    let es := controls 3 ++
      [.node 1 .lustreInstallPre, .node 0 .lustreInstallPre] ++ controls 3 ++
      [.node 0 .lustreInstallPre, .node 1 .lustreInstallPre] ++ controls 12 ++
      [.node 0 .clearAfterPre, .node 1 .firstReboot, .node 0 .firstReboot, .node 1 .firstMarker,
        .node 0 .firstMarker] ++ controls 9 ++
      [.node 0 .lustreInstallNewkernel, .node 1 .lustreInstallNewkernel, .node 1 .lustreInstallNewkernel,
        .node 0 .lustreInstallNewkernel] ++ controls 12 ++
      [.node 0 .secondReboot, .node 1 .secondReboot, .node 0 .secondMarker, .node 1 .secondMarker] ++
      controls 3
    (run (step 2) (start leftOver) es).pc = 13 ∧ Always (step 2) (Safe 2) (start leftOver) es := by
  intro es
  constructor
  · decide +kernel
  · exact barriers_safe_of_reboot_first 2 _ es (by decide +kernel)

/-- An EXECUTE left over opens the first barrier at once; a marker that is read ahead of the
    reboot opens the second one. -/
theorem barriers_open_early :
    ¬ Always (step 1) (Safe 1) (start fun _ => statusExecute) (controls 4) ∧
      ¬ Always (step 1) (Safe 1) (start fun _ => [])
        (controls 2 ++ [.node 0 .lustreInstallPre, .node 0 .lustreInstallPre] ++ controls 8 ++
          [.node 0 .clearAfterPre, .node 0 .firstMarker] ++ controls 2) := by
  decide +kernel

end BatchInstall
