import LustreTools.Lib.Runs

/-!
The waiting loops over a node list (multexu_lib.sh). A loop is left in the first round in
which as many hosts are ready as the list has newline characters, while the hosts are the
words of the list. The words are taken to be names, without pattern characters.
-/
namespace BatchBarrier
open Runs

def isBlank (c : Char) : Bool := c = ' ' || c = '\t' || c = '\n'

/-- The words of `$(cat file)`; a substitution drops null characters. -/
def hosts (content : List Char) : List (List Char) :=
  ((content.filter (· ≠ '\x00')).splitOnP isBlank).filter fun word => !word.isEmpty

def nodeNums (content : List Char) : Nat := content.count '\n'

def countReady (ready : Nat → List Char → Bool) : Nat → List (List Char) → Nat → Nat
  | _, [], count => count
  | i, hostIp :: rest, count => countReady ready (i + 1) rest (if ready i hostIp then count + 1 else count)

structure Loop where
  sleeptime : Int
  left : Bool
  deriving DecidableEq, Repr

def round (content : List Char) (limit : Int) (ready : Nat → List Char → Bool) (s : Loop) : Loop :=
  if s.left then s
  else if countReady ready 0 (hosts content) 0 = nodeNums content then { s with left := true }
  else if s.sleeptime > limit then { s with sleeptime := s.sleeptime.tdiv 2 }
  else s

/-- `retval i ip` is what `ssh_get_execute_statu_signal` returns for the `i`-th host of the
    list in that round. -/
def sshCheckClusterStatus (content status : List Char) (limit : Int) (s : Loop)
    (retval : Nat → List Char → List Char) : Loop :=
  round content limit (fun i hostIp => retval i hostIp = status) s

def waitUtilClusterHostAvailable (content : List Char) (limit : Int) (s : Loop)
    (available : Nat → List Char → Nat) : Loop :=
  round content limit (fun i hostIp => available i hostIp = 0) s

def waitUtilClusterSshEnabled (content : List Char) (limit : Int) (s : Loop)
    (enabled : Nat → List Char → Nat) : Loop :=
  round content limit (fun i hostIp => enabled i hostIp = 0) s

/-- The law of a barrier: a loop that is still running is left in a round exactly if every
    host of the list is ready in it. -/
def Law {Answers : Type} (content : List Char) (step : Loop → Answers → Loop)
    (Ready : Answers → Nat → List Char → Prop) (s : Loop) (answers : Answers) : Prop :=
  s.left = false →
    ((step s answers).left = true ↔ ∀ i ip, (hosts content)[i]? = some ip → Ready answers i ip)

theorem count_ready_le (ready : Nat → List Char → Bool) (i count : Nat) (list : List (List Char)) :
    countReady ready i list count ≤ count + list.length := by
  induction list generalizing i count with
  | nil => exact Nat.le_refl count
  | cons hostIp rest ih =>
    have bound := ih (i + 1) (if ready i hostIp then count + 1 else count)
    simp only [countReady, List.length_cons]
    split at bound <;> rename_i here <;> simp only [here, ↓reduceIte, Bool.false_eq_true] <;> omega

theorem count_ready_full_iff (ready : Nat → List Char → Bool) (i count : Nat) (list : List (List Char)) :
    countReady ready i list count = count + list.length ↔
      ∀ j ip, list[j]? = some ip → ready (i + j) ip = true := by
  induction list generalizing i count with
  | nil => simp [countReady]
  | cons hostIp rest ih =>
    have rest_iff := ih (i + 1) (count + 1)
    simp only [countReady, List.length_cons]
    cases here : ready i hostIp with
    | false =>
      have bound := count_ready_le ready (i + 1) count rest
      simp only [Bool.false_eq_true, ↓reduceIte]
      apply iff_of_false
      · omega
      · intro all
        have first := all 0 hostIp rfl
        rw [Nat.add_zero, here] at first
        cases first
    | true =>
      simp only [↓reduceIte]
      rw [show count + (rest.length + 1) = count + 1 + rest.length by omega, rest_iff]
      constructor
      · intro all j ip member
        cases j with
        | zero =>
          cases member
          exact here
        | succ j =>
          rw [show i + (j + 1) = i + 1 + j by omega]
          exact all j ip member
      · intro all j ip member
        have later := all (j + 1) ip member
        rwa [show i + (j + 1) = i + 1 + j by omega] at later

theorem round_left_iff (content : List Char) (limit : Int) (ready : Nat → List Char → Bool) {s : Loop}
    (running : s.left = false) :
    (round content limit ready s).left = true ↔
      countReady ready 0 (hosts content) 0 = nodeNums content := by
  simp only [round, running, Bool.false_eq_true, ↓reduceIte]
  split
  · rename_i met
    simp [met]
  · rename_i missed
    split <;> simp [running, missed]

theorem left_iff_all_ready {content : List Char} (limit : Int) (ready : Nat → List Char → Bool) {s : Loop}
    (running : s.left = false) (same : nodeNums content = (hosts content).length) :
    (round content limit ready s).left = true ↔
      ∀ i ip, (hosts content)[i]? = some ip → ready i ip = true := by
  rw [round_left_iff content limit ready running, same]
  have full := count_ready_full_iff ready 0 0 (hosts content)
  simpa only [Nat.zero_add] using full

/-- Whatever the test of a host is, as long as all hosts can pass it, the law holds for every
    history exactly if the list has as many newlines as hosts. -/
theorem law_iff_newlines {Answers : Type} {content : List Char} {limit sleeptime : Int}
    {ready : Answers → Nat → List Char → Bool} {Ready : Answers → Nat → List Char → Prop}
    (test : ∀ answers i ip, ready answers i ip = true ↔ Ready answers i ip)
    (pass : Answers) (passes : ∀ i ip, Ready pass i ip) :
    (∀ history : List Answers, Along (fun s answers => round content limit (ready answers) s)
      (Law content (fun s answers => round content limit (ready answers) s) Ready)
      ⟨sleeptime, false⟩ history) ↔ nodeNums content = (hosts content).length := by
  constructor
  · intro law
    have first := (law [pass]).1 rfl
    have left := first.mpr fun i ip _ => passes i ip
    rw [round_left_iff content limit (ready pass) rfl] at left
    have full := (count_ready_full_iff (ready pass) 0 0 (hosts content)).mpr fun j ip _ =>
      (test pass (0 + j) ip).mpr (passes (0 + j) ip)
    omega
  · intro same history
    have anywhere : ∀ s answers, Law content (fun s answers => round content limit (ready answers) s)
        Ready s answers := by
      intro s answers running
      simp only [left_iff_all_ready limit (ready answers) running same, test]
    exact along_mono (fun s answers _ => anywhere s answers)
      (along_true _ _ history)

/-- Each of the three loops obeys the law on a node list, for every history of answers,
    exactly if the list has as many newlines as hosts. -/
theorem cluster_barriers_iff_newlines (content status : List Char) (sleeptime limit : Int) :
    ((∀ history, Along (sshCheckClusterStatus content status limit)
        (Law content (sshCheckClusterStatus content status limit)
          (fun retval i ip => retval i ip = status)) ⟨sleeptime, false⟩ history) ↔
      nodeNums content = (hosts content).length) ∧
    ((∀ history, Along (waitUtilClusterHostAvailable content limit)
        (Law content (waitUtilClusterHostAvailable content limit)
          (fun available i ip => available i ip = 0)) ⟨sleeptime, false⟩ history) ↔
      nodeNums content = (hosts content).length) ∧
    ((∀ history, Along (waitUtilClusterSshEnabled content limit)
        (Law content (waitUtilClusterSshEnabled content limit)
          (fun enabled i ip => enabled i ip = 0)) ⟨sleeptime, false⟩ history) ↔
      nodeNums content = (hosts content).length) := by
  refine ⟨?_, ?_, ?_⟩
  · exact law_iff_newlines (fun _ _ _ => decide_eq_true_iff) (fun _ _ => status) fun _ _ => rfl
  · exact law_iff_newlines (fun _ _ _ => decide_eq_true_iff) (fun _ _ => 0) fun _ _ => rfl
  · exact law_iff_newlines (fun _ _ _ => decide_eq_true_iff) (fun _ _ => 0) fun _ _ => rfl

def nodesAll : List Char :=
  ['\n'].intercalate (['1', '2', '3', '4', '5', '6', '7'].map fun digit =>
    ['1', '9', '2', '.', '1', '6', '8', '.', '1', '2', '2', '.', '1', digit])

def statusExecute : List Char := ['E', 'X', 'E', 'C', 'U', 'T', 'E']

/-- Six of the seven hosts are ready, and the barrier opens. -/
theorem barrier_opens_one_short :
    (hosts nodesAll).length = 7 ∧
      (sshCheckClusterStatus nodesAll statusExecute 5 ⟨10, false⟩
        (fun i _ => if i = 6 then [] else statusExecute)).left = true ∧
      ¬ ∀ history, Along (sshCheckClusterStatus nodesAll statusExecute 5)
        (Law nodesAll (sshCheckClusterStatus nodesAll statusExecute 5)
          (fun retval i ip => retval i ip = statusExecute)) ⟨10, false⟩ history := by
  have early : (sshCheckClusterStatus nodesAll statusExecute 5 ⟨10, false⟩
      (fun i _ => if i = 6 then [] else statusExecute)).left = true := by decide +kernel
  refine ⟨by decide +kernel, early, ?_⟩
  intro law
  have all := ((law [fun i _ => if i = 6 then [] else statusExecute]).1 rfl).mp early
  have last := all 6 ['1', '9', '2', '.', '1', '6', '8', '.', '1', '2', '2', '.', '1', '7']
      (by decide +kernel)
  cases last

end BatchBarrier
